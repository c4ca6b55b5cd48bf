import PropertyList.Proofs.Document.Misuse
import PropertyList.Proofs.Heap.Steadiness

/-!
# The entries of a dictionary in use

Entries are offered to a dictionary while other things are done with the same and other objects. A
key that is offered again is refused. What is accepted is all that the dictionary shows, in the
order of the bytes of the keys, and under each key there is the first object that was offered with
it. The dictionary keeps its entries and its keys apart, and they stay in step.

## Main definitions

* `Heap.afterAll`, the heap that a sequence of operations leaves
* `Operation.offered`, `Operation.accepted`, and the same for sequences of operations
* `Heap.AnswersAdd`, how a dictionary takes a further entry
* `Heap.Keeps`, what holds of a dictionary in use all the time

## Main results

* `Heap.Keeps.perform`, `Heap.Keeps.afterAll`
* `Heap.dict_shows_accepted`
-/

namespace PropertyList

/-! ### Offered and accepted entries -/

/-- The entry that an operation offers to a dictionary. No destroyed object is offered. -/
def Operation.offered (dict : ObjectId) (h : Heap) : Operation → Option (Text × ObjectId)
  | .add container key value =>
    if container = dict ∧ h.destroyed value = false then some (key, value) else none
  | .string _ | .dict | .array | .parse _ | .retain _ | .release _ | .push _ _ => none

/-- The entry that an operation adds to a dictionary, going by the answer that it gets. -/
def Operation.accepted (dict : ObjectId) (h : Heap) : Operation → Option (Text × ObjectId)
  | .add container key value =>
    match h.add container key value with
    | .ok true _ => if container = dict then some (key, value) else none
    | .ok false _ | .error _ _ => none
  | .string _ | .dict | .array | .parse _ | .retain _ | .release _ | .push _ _ => none

namespace Heap

/-- The heap that a sequence of operations leaves. -/
def afterAll (h : Heap) (operations : List Operation) : Heap :=
  operations.foldl (fun h o => o.perform h) h

/-- The entries that a sequence of operations offers to a dictionary. -/
def offered (dict : ObjectId) : Heap → List Operation → List (Text × ObjectId)
  | _, [] => []
  | h, o :: operations => (o.offered dict h).toList ++ (o.perform h).offered dict operations

/-- The entries that a sequence of operations adds to a dictionary, in the order of adding. -/
def accepted (dict : ObjectId) : Heap → List Operation → List (Text × ObjectId)
  | _, [] => []
  | h, o :: operations => (o.accepted dict h).toList ++ (o.perform h).accepted dict operations

end Heap

/-! ### One operation -/

/-- Parsing leaves the objects as they are that there were before. -/
theorem Document.exists_holds_parse (t : Text) (h : Heap) :
    ∃ ids ts feet, h.Holds (after (parse t) h) ids ts feet := by
  have houtcome := outcome_parse t h
  cases hparse : parse t h with
  | ok root h' =>
    rw [hparse] at houtcome
    rw [after_of_ok hparse]
    cases houtcome with
    | accepted hread hh => exact ⟨_, _, _, hh⟩
  | error e h' =>
    rw [hparse] at houtcome
    rw [after_of_error hparse]
    cases houtcome with
    | refused hread hh => exact ⟨_, _, _, hh⟩

namespace Operation

variable {h : Heap} {dict : ObjectId} {d : Dict ObjectId}

/-- No object goes away, and the destroyed ones stay destroyed. -/
theorem outlasts_perform (o : Operation) (h : Heap) :
    h.objects.size ≤ (o.perform h).objects.size ∧
      ∀ id < h.objects.size, h.destroyed id = true → (o.perform h).destroyed id = true := by
  by_cases hparse : ∃ t, o = .parse t
  · obtain ⟨t, rfl⟩ := hparse
    obtain ⟨_, _, _, hh⟩ := Document.exists_holds_parse t h
    refine ⟨hh.size_le, fun id hid hdestroyed => ?_⟩
    rwa [Heap.destroyed, perform, hh.object_eq id hid]
  · have hoperations (t : Text) : .parse t ∉ [o] :=
      fun ht => hparse ⟨t, (List.mem_singleton.1 ht).symm⟩
    obtain ⟨j, hj⟩ := Journal.exists_records hoperations h
    exact ⟨hj.evolves.size_le, fun id => hj.evolves.destroyed_of_destroyed⟩

/-- Only adding an entry to a dictionary in use changes it. -/
theorem steady_perform (o : Operation) (ho : ∀ key value, o ≠ .add dict key value)
    (hh : h.Steady dict d) : (o.perform h).Steady dict d := by
  cases o with
  | string value => exact Heap.steady_allocate (.string value) h hh
  | dict => exact Heap.steady_allocate (.dict .empty) h hh
  | array => exact Heap.steady_allocate (.array []) h hh
  | parse t =>
    obtain ⟨_, _, _, hholds⟩ := Document.exists_holds_parse t h
    refine ⟨Nat.lt_of_lt_of_le hh.lt_size hholds.size_le, ?_⟩
    rw [perform, hholds.object_eq dict hh.lt_size]
    exact hh.content_eq
  | retain id => exact Heap.steady_retain id h hh
  | release id => exact Heap.steady_release id h hh
  | add container key value =>
    have hne : container ≠ dict := by
      rintro rfl
      exact ho key value rfl
    exact Heap.steady_add hne key value h hh
  | push container item => exact Heap.steady_push container item h hh

theorem offered_of_ne {o : Operation} (ho : ∀ key value, o ≠ .add dict key value) :
    o.offered dict h = none := by
  cases o with
  | add container key value =>
    refine if_neg fun hoffered => ?_
    exact ho key value (by rw [hoffered.1])
  | _ => rfl

theorem accepted_of_ne {o : Operation} (ho : ∀ key value, o ≠ .add dict key value) :
    o.accepted dict h = none := by
  cases o with
  | add container key value =>
    have hne : container ≠ dict := by
      rintro rfl
      exact ho key value rfl
    simp only [accepted, if_neg hne]
    split <;> rfl
  | _ => rfl

end Operation

namespace Heap

variable {h : Heap} {dict : ObjectId} {entries accepted offered : List (Text × ObjectId)}

/-! ### Adding an entry -/

/-- How a dictionary that holds some entries takes a further one. A key that it has is refused, and
nothing changes. Under another key one reference is taken to the value, and to nothing else. -/
structure AnswersAdd (h : Heap) (dict : ObjectId) (entries : List (Text × ObjectId)) : Prop where
  refuses : ∀ key value, key ∈ entries.map (·.1) → add dict key value h = .ok false h
  accepts : ∀ key value, key ∉ entries.map (·.1) → h.destroyed value = false →
    ∃ h', add dict key value h = .ok true h' ∧
      (∀ i, (h'.object i).refs = (h.object i).refs + if i = value then 1 else 0) ∧
      (h'.object dict).content = .dict (.ofList (entries ++ [(key, value)])) ∧
      ∀ i, i ≠ dict → (h'.object i).content = (h.object i).content

theorem refs_setContent (h : Heap) (id i : ObjectId) (c : Content) :
    ((h.setContent id c).object i).refs = (h.object i).refs := by
  by_cases hid : id < h.objects.size
  · by_cases hi : i = id
    · rw [hi, setContent, object_set_self hid]
    · rw [setContent, object_set_of_ne hi]
  · rw [setContent_of_le (Nat.le_of_not_lt hid)]

/-- Taking a reference to an object in use adds to its count. -/
theorem exists_retain_of_use (id : ObjectId) (huse : h.destroyed id = false) :
    ∃ h₁, retain id h = .ok () h₁ ∧ h₁.objects.size = h.objects.size ∧
      (∀ i, (h₁.object i).refs = (h.object i).refs + if i = id then 1 else 0) ∧
      ∀ i, (h₁.object i).content = (h.object i).content := by
  rcases ho : h.object id with ⟨_ | n, c⟩
  · rw [destroyed, ho] at huse
    cases huse
  · have hretain := retain_eq ho
    refine ⟨_, hretain, size_set, fun i => ?_, fun i => ?_⟩
    · by_cases hi : i = id
      · rw [hi, object_set_self (lt_size_of_object ho), ho, if_pos rfl]
      · rw [object_set_of_ne hi, if_neg hi, Nat.add_zero]
    · rw [← content_after_retain h id i, after_of_ok hretain]

theorem answersAdd_of_content (hlt : dict < h.objects.size)
    (hcontent : (h.object dict).content = .dict (.ofList entries)) :
    h.AnswersAdd dict entries where
  refuses key value hkey := add_of_contains hcontent (Dict.contains_ofList.2 hkey)
  accepts key value hkey huse := by
    have hnew : (Dict.ofList entries).contains key = false :=
      Bool.eq_false_iff.2 (mt Dict.contains_ofList.1 hkey)
    obtain ⟨h₁, hretain, hsize, hrefs, hsame⟩ := exists_retain_of_use value huse
    refine ⟨_, add_of_retain hcontent hnew hretain, fun i => ?_, ?_, fun i hi => ?_⟩
    · rw [refs_setContent, hrefs]
    · rw [setContent, object_set_self (hsize ▸ hlt), Dict.ofList_append_singleton]
    · rw [setContent, object_set_of_ne hi, hsame]

/-! ### The entries that are kept -/

/-- Whether a dictionary holds the accepted entries, which have different keys, and under each key
the first object that was offered with it. -/
structure Keeps (dict : ObjectId) (accepted offered : List (Text × ObjectId)) (h : Heap) :
    Prop where
  lt_size : dict < h.objects.size
  content_eq : (h.object dict).content = .dict (.ofList accepted)
  nodup : (accepted.map (·.1)).Nodup
  lookup_eq : ∀ key, accepted.lookup key = offered.lookup key

theorem keeps_of_dict? (hdict : h.dict? dict = some .empty) : h.Keeps dict [] [] :=
  ⟨(steady_of_dict? hdict).lt_size, content_eq_of_dict? hdict, List.nodup_nil, fun _ => rfl⟩

namespace Keeps

theorem answersAdd (hh : h.Keeps dict accepted offered) : h.AnswersAdd dict accepted :=
  answersAdd_of_content hh.lt_size hh.content_eq

/-- Keys that were accepted may be offered again. -/
theorem offer_again (hh : h.Keeps dict accepted offered) {again : List (Text × ObjectId)}
    (hagain : ∀ e ∈ again, e.1 ∈ accepted.map (·.1)) :
    h.Keeps dict accepted (offered ++ again) := by
  refine { hh with lookup_eq := fun key => ?_ }
  rw [List.lookup_append, ← hh.lookup_eq]
  cases haccepted : accepted.lookup key with
  | some value => rfl
  | none =>
    have hnew (e : Text × ObjectId) (he : e ∈ again) : (key != e.1) = true := by
      obtain ⟨f, hf, hfe⟩ := List.mem_map.1 (hagain e he)
      rw [← hfe]
      exact List.lookup_eq_none_iff.1 haccepted f hf
    exact (List.lookup_eq_none_iff.2 hnew).symm

theorem accept {h' : Heap} {key : Text} {value : ObjectId} (hh : h.Keeps dict accepted offered)
    (hsize : h.objects.size ≤ h'.objects.size)
    (hcontent : (h'.object dict).content = .dict (.ofList (accepted ++ [(key, value)])))
    (hkey : key ∉ accepted.map (·.1)) :
    h'.Keeps dict (accepted ++ [(key, value)]) (offered ++ [(key, value)]) where
  lt_size := Nat.lt_of_lt_of_le hh.lt_size hsize
  content_eq := hcontent
  nodup := by
    rw [List.map_append]
    exact List.concat_eq_append ▸ hh.nodup.concat hkey
  lookup_eq k := by rw [List.lookup_append, List.lookup_append, hh.lookup_eq]

/-- Adding an entry to the dictionary keeps its entries in order, whatever the answer. -/
theorem perform_add (hh : h.Keeps dict accepted offered) (key : Text) (value : ObjectId) :
    ((Operation.add dict key value).perform h).Keeps dict
      (accepted ++ ((Operation.add dict key value).accepted dict h).toList)
      (offered ++ ((Operation.add dict key value).offered dict h).toList) := by
  by_cases hkey : key ∈ accepted.map (·.1)
  · have hadd := hh.answersAdd.refuses key value hkey
    simp only [Operation.perform, Operation.accepted, after_of_ok hadd, hadd, Option.toList_none,
      List.append_nil]
    refine hh.offer_again fun e he => ?_
    have heq : e.1 = key := by
      simp only [Operation.offered, Option.mem_toList, Option.ite_none_right_eq_some] at he
      rw [← Option.some.inj he.2]
    rwa [heq]
  · cases huse : h.destroyed value with
    | false =>
      obtain ⟨h', hadd, -, hcontent, -⟩ := hh.answersAdd.accepts key value hkey huse
      have hsize := ((Operation.add dict key value).outlasts_perform h).1
      rw [Operation.perform, after_of_ok hadd] at hsize
      simpa [Operation.perform, Operation.accepted, Operation.offered, after_of_ok hadd, hadd, huse]
        using hh.accept hsize hcontent hkey
    | true =>
      have hnew : (Dict.ofList accepted).contains key = false :=
        Bool.eq_false_iff.2 (mt Dict.contains_ofList.1 hkey)
      have hadd := (refuses_of_destroyed huse).add dict _ key (by rw [dict?, hh.content_eq]) hnew
      simpa [Operation.perform, Operation.accepted, Operation.offered, after_of_error hadd, hadd,
        huse] using hh

/-- One operation after which the dictionary is still in use. -/
theorem perform (hh : h.Keeps dict accepted offered) (o : Operation)
    (huse : (o.perform h).destroyed dict = false) :
    (o.perform h).Keeps dict (accepted ++ (o.accepted dict h).toList)
      (offered ++ (o.offered dict h).toList) := by
  by_cases ho : ∃ key value, o = .add dict key value
  · obtain ⟨key, value, rfl⟩ := ho
    exact hh.perform_add key value
  · have hne (key : Text) (value : ObjectId) : o ≠ .add dict key value :=
      fun heq => ho ⟨key, value, heq⟩
    have hsteady := o.steady_perform hne ⟨hh.lt_size, Or.inr hh.content_eq⟩
    rw [o.accepted_of_ne hne, o.offered_of_ne hne, Option.toList_none, List.append_nil,
      List.append_nil]
    exact { hh with
      lt_size := hsteady.lt_size
      content_eq := hsteady.content_eq_of_destroyed huse }

end Keeps

/-! ### Sequences of operations -/

/-- A dictionary that is in use in the end has been in use all the time. -/
theorem destroyed_afterAll (operations : List Operation) (hlt : dict < h.objects.size)
    (hdestroyed : h.destroyed dict = true) : (h.afterAll operations).destroyed dict = true := by
  induction operations generalizing h with
  | nil => exact hdestroyed
  | cons o operations ih =>
    obtain ⟨hsize, hdestroyed'⟩ := o.outlasts_perform h
    exact ih (Nat.lt_of_lt_of_le hlt hsize) (hdestroyed' dict hlt hdestroyed)

theorem Keeps.afterAll (hh : h.Keeps dict accepted offered) (operations : List Operation)
    (huse : (h.afterAll operations).destroyed dict = false) :
    (h.afterAll operations).Keeps dict (accepted ++ h.accepted dict operations)
      (offered ++ h.offered dict operations) := by
  induction operations generalizing h accepted offered with
  | nil =>
    rw [Heap.accepted, Heap.offered, List.append_nil, List.append_nil]
    exact hh
  | cons o operations ih =>
    have hlt := Nat.lt_of_lt_of_le hh.lt_size (o.outlasts_perform h).1
    have hfirst : (o.perform h).destroyed dict = false :=
      Bool.eq_false_iff.2 fun hdestroyed =>
        Bool.eq_false_iff.1 huse (destroyed_afterAll operations hlt hdestroyed)
    rw [Heap.accepted, Heap.offered, ← List.append_assoc, ← List.append_assoc]
    exact ih (hh.perform o hfirst) huse

/-- **A dictionary shows what it accepted.** Whatever is done, a dictionary that is in use answers
further additions by the keys that it has accepted, and shows exactly the accepted entries, sorted
by the bytes of their keys, with the first object that was offered under each key. -/
theorem dict_shows_accepted {operations : List Operation} (hdict : h.dict? dict = some .empty)
    (huse : (h.afterAll operations).destroyed dict = false) :
    (h.afterAll operations).AnswersAdd dict (h.accepted dict operations) ∧
    ((h.accepted dict operations).map (·.1)).Nodup ∧
    ∃ d, (h.afterAll operations).dict? dict = some d ∧ d.Shows (h.accepted dict operations) ∧
      ∀ key, d.find? key = (h.offered dict operations).lookup key := by
  have hkeeps := (keeps_of_dict? hdict).afterAll operations huse
  rw [List.nil_append, List.nil_append] at hkeeps
  refine ⟨hkeeps.answersAdd, hkeeps.nodup, .ofList (h.accepted dict operations), ?_,
    Dict.shows_ofList hkeeps.nodup, fun key => ?_⟩
  · rw [dict?, hkeeps.content_eq]
  · rw [Dict.find?_ofList, hkeeps.lookup_eq]

/-- Of two keys with the bytes of `é` the first stands first, and a stray byte comes before them
although it is the greater point. The second object under `é` is refused. -/
theorem dict_shows_accepted_equal_bytes :
    ∃ (h : Heap) (operations : List Operation) (d : Dict ObjectId),
      h.dict? 0 = some .empty ∧ (h.afterAll operations).dict? 0 = some d ∧
      d.Shows [([.char 'é'], 1), ([.stray 67, .stray 41], 2), ([.stray 0], 1)] ∧
      d.toList = [([.stray 0], 1), ([.char 'é'], 1), ([.stray 67, .stray 41], 2)] ∧
      add 0 [.char 'é'] 2 (h.afterAll operations) = .ok false (h.afterAll operations) := by
  let h := build [.dict, .string [], .string []]
  let operations : List Operation := [.add 0 [.char 'é'] 1, .add 0 [.stray 67, .stray 41] 2,
    .release 2, .add 0 [.char 'é'] 2, .add 0 [.stray 0] 1]
  have haccepted : h.accepted 0 operations =
      [([.char 'é'], 1), ([.stray 67, .stray 41], 2), ([.stray 0], 1)] := by decide +kernel
  have hdict : h.dict? 0 = some .empty := by decide +kernel
  have huse : (h.afterAll operations).destroyed 0 = false := by decide +kernel
  obtain ⟨hanswers, -, d, hd, hshows, -⟩ := dict_shows_accepted hdict huse
  have hsorted : ((h.afterAll operations).dict? 0).map Dict.toList =
      some [([.stray 0], 1), ([.char 'é'], 1), ([.stray 67, .stray 41], 2)] := by decide +kernel
  rw [haccepted] at hanswers hshows
  rw [hd] at hsorted
  exact ⟨h, operations, d, hdict, hd, hshows, Option.some.inj hsorted,
    hanswers.refuses _ _ List.mem_cons_self⟩

end Heap

end PropertyList

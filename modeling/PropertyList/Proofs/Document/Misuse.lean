import PropertyList.Proofs.Document.Building
import PropertyList.Proofs.Heap.Cascade

/-!
# Misuse of references

Clients may give back references that they do not have, and go on with objects that are destroyed,
in any order. The counts survive this. Every object has as many references as have been taken to it
and not given back. A destroyed object stays destroyed, and whoever takes a reference to it or gives
one back is refused and changes nothing. The number of objects in use that the heap keeps is off by
the containers whose destruction was aborted, and by nothing else. It does not matter whether a
container has become part of itself.

## Main definitions

* `Operation.taken`, the references that an operation takes
* `Journal`, `Journal.Records` : what happens in the course of a sequence of operations.

## Main results

* `Journal.Records.evolves`, `Journal.exists_records`
* `Heap.counts_survive_misuse`
-/

namespace PropertyList

/-! ### One operation -/

/-- The references that an operation takes, apart from parsing. A reference is taken for whoever
creates an object, and a container takes one to what it is given. -/
def Operation.taken (h : Heap) : Operation → List ObjectId
  | string _ | dict | array => [h.objects.size]
  | retain id => if h.destroyed id then [] else [id]
  | add container key value =>
    match (h.object container).content with
    | .dict d => if d.contains key || h.destroyed value then [] else [value]
    | .string _ | .array _ => []
  | push container item =>
    match (h.object container).content with
    | .array _ => if h.destroyed item then [] else [item]
    | .string _ | .dict _ => []
  | parse _ | release _ => []

namespace Heap

variable {h h₁ : Heap} {id : ObjectId}

/-- A reference is taken unless the object has been destroyed. -/
theorem retain_cases (h : Heap) (id : ObjectId) :
    (h.destroyed id = true ∧ retain id h = .error ⟨.retain, h.kind id⟩ h) ∨
      (h.destroyed id = false ∧ ∃ h₁, retain id h = .ok () h₁ ∧ h.Evolves [id] [] [] h₁ ∧
        ∀ i, h₁.kind i = h.kind i) := by
  rcases ho : h.object id with ⟨_ | n, c⟩
  · exact .inl ⟨by rw [destroyed, ho]; rfl, retain_of_destroyed (by rw [ho])⟩
  · exact .inr ⟨by rw [destroyed, ho]; rfl, _, retain_eq ho, evolves_retain ho,
      kind_set (lt_size_of_object ho) (by rw [kind, ho])⟩

/-- A container that holds one thing more has taken a reference to it. -/
theorem Evolves.hold {c : Content} {value : ObjectId} (hs : h.Evolves [value] [] [] h₁)
    (hkind : ∀ i, h₁.kind i = h.kind i) (hc : c.kind = h.kind id) :
    h.Evolves [value] [] [] (h₁.setContent id c) :=
  hs.trans (evolves_setContent (by rw [hc, hkind]))

theorem evolves_add (container : ObjectId) (key : Text) (value : ObjectId) :
    h.Evolves ((Operation.add container key value).taken h) [] []
      ((Operation.add container key value).perform h) := by
  cases hc : (h.object container).content with
  | dict d =>
    cases hkey : d.contains key with
    | true =>
      simp only [Operation.taken, Operation.perform, hc, hkey,
        after_of_ok (add_of_contains hc hkey)]
      exact .refl h
    | false =>
      rcases retain_cases h value with ⟨hdestroyed, hretain⟩ | ⟨hdestroyed, h₁, hretain, hs, hkind⟩
      · simp only [Operation.taken, Operation.perform, hc, hkey, hdestroyed,
          after_of_error (add_of_error hc hkey hretain)]
        exact .refl h
      · simp only [Operation.taken, Operation.perform, hc, hkey, hdestroyed,
          after_of_ok (add_of_retain hc hkey hretain)]
        exact hs.hold hkind (by rw [kind, hc]; rfl)
  | _ =>
    have hdict : ∀ d, (h.object container).content ≠ .dict d := by simp [hc]
    simp only [Operation.taken, Operation.perform, hc, after_of_ok (add_of_ne_dict hdict)]
    exact .refl h

theorem evolves_push (container item : ObjectId) :
    h.Evolves ((Operation.push container item).taken h) [] []
      ((Operation.push container item).perform h) := by
  cases hc : (h.object container).content with
  | array reversed =>
    rcases retain_cases h item with ⟨hdestroyed, hretain⟩ | ⟨hdestroyed, h₁, hretain, hs, hkind⟩
    · simp only [Operation.taken, Operation.perform, hc, hdestroyed,
        after_of_error (push_of_error hc hretain)]
      exact .refl h
    · simp only [Operation.taken, Operation.perform, hc, hdestroyed,
        after_of_ok (push_of_retain hc hretain)]
      exact hs.hold hkind (by rw [kind, hc]; rfl)
  | _ =>
    have harray : ∀ reversed, (h.object container).content ≠ .array reversed := by simp [hc]
    simp only [Operation.taken, Operation.perform, hc, after_of_ok (push_of_ne_array harray)]
    exact .refl h

theorem evolves_retain_or_refuse (id : ObjectId) :
    h.Evolves ((Operation.retain id).taken h) [] [] ((Operation.retain id).perform h) := by
  rcases retain_cases h id with ⟨hdestroyed, hretain⟩ | ⟨hdestroyed, h₁, hretain, hs, -⟩
  · simp only [Operation.taken, Operation.perform, hdestroyed, after_of_error hretain]
    exact .refl h
  · simp only [Operation.taken, Operation.perform, hdestroyed, after_of_ok hretain]
    exact hs

/-- What an operation does that neither parses nor gives back references. -/
theorem evolves_perform {o : Operation} (hparse : ∀ t, o ≠ .parse t)
    (hrelease : ∀ id, o ≠ .release id) : h.Evolves (o.taken h) [] [] (o.perform h) := by
  cases o with
  | string value => exact evolves_insert (.string value)
  | dict => exact evolves_insert (.dict .empty)
  | array => exact evolves_insert (.array [])
  | parse t => exact absurd rfl (hparse t)
  | retain id => exact evolves_retain_or_refuse id
  | release id => exact absurd rfl (hrelease id)
  | add container key value => exact evolves_add container key value
  | push container item => exact evolves_push container item

theorem Releases.perform_eq {h' : Heap} {given : List ObjectId} {e : Settlement}
    (hr : h.Releases id given e h') : (Operation.release id).perform h = h' := by
  cases e with
  | complete => exact after_of_ok (hr.release_eq.trans settle_nil)
  | broken misuse aborted => exact after_of_error hr.release_eq

end Heap

/-! ### Runs -/

/-- What happens in the course of a sequence of operations. -/
structure Journal where
  /-- The objects to which references are taken, once for each reference. -/
  taken : List ObjectId
  /-- The objects to which references are given back. -/
  given : List ObjectId
  /-- The containers whose destruction is aborted. -/
  aborted : List ObjectId

/-- The journal of a sequence of operations on a heap. There is none if a document is parsed. -/
inductive Journal.Records : Heap → List Operation → Journal → Prop
  | nil {h} : Records h [] ⟨[], [], []⟩
  | release {h id given e h' operations j} (hr : h.Releases id given e h')
      (hj : Records h' operations j) :
    Records h (.release id :: operations) ⟨j.taken, given ++ j.given, e.aborted ++ j.aborted⟩
  | other {h o operations j} (hparse : ∀ t, o ≠ .parse t) (hrelease : ∀ id, o ≠ .release id)
      (hj : Records (o.perform h) operations j) :
    Records h (o :: operations) ⟨o.taken h ++ j.taken, j.given, j.aborted⟩

variable {h : Heap} {operations : List Operation} {j : Journal}

theorem Journal.Records.evolves (hj : j.Records h operations) :
    h.Evolves j.taken j.given j.aborted (operations.foldl (fun h o => o.perform h) h) := by
  induction hj with
  | nil => exact .refl _
  | release hr _ ih =>
    rw [List.foldl_cons, hr.perform_eq]
    exact hr.evolves.trans ih
  | other hparse hrelease _ ih => exact (Heap.evolves_perform hparse hrelease).trans ih

/-- Every sequence of operations without parsing has a journal, whatever is misused. -/
theorem Journal.exists_records (hoperations : ∀ t, .parse t ∉ operations) (h : Heap) :
    ∃ j : Journal, j.Records h operations := by
  induction operations generalizing h with
  | nil => exact ⟨_, .nil⟩
  | cons o operations ih =>
    have hrest (t : Text) : .parse t ∉ operations :=
      fun ht => hoperations t (List.mem_cons_of_mem o ht)
    have hparse (t : Text) : o ≠ .parse t := by
      rintro rfl
      exact hoperations t List.mem_cons_self
    by_cases hrelease : ∃ id, o = .release id
    · obtain ⟨id, rfl⟩ := hrelease
      obtain ⟨given, e, h', hr⟩ := h.exists_releases id
      obtain ⟨j, hj⟩ := ih hrest h'
      exact ⟨_, .release hr hj⟩
    · obtain ⟨j, hj⟩ := ih hrest (o.perform h)
      exact ⟨_, .other hparse (not_exists.1 hrelease) hj⟩

/-! ### What survives -/

/-- The counts of a heap are right by a journal. -/
structure Journal.Balances (j : Journal) (h : Heap) : Prop where
  refs_eq : ∀ id, (h.object id).refs + j.given.count id = j.taken.count id
  live_eq : h.live = h.population + j.aborted.length
  /-- No container is aborted twice. -/
  nodup : j.aborted.Nodup
  aborted : ∀ id ∈ j.aborted,
    id < h.objects.size ∧ h.destroyed id = true ∧ h.kind id ≠ .string

theorem Journal.Records.balances (hj : j.Records .empty operations) :
    j.Balances (Heap.build operations) := by
  have hs : Heap.empty.Evolves j.taken j.given j.aborted (Heap.build operations) := hj.evolves
  refine ⟨fun id => ?_, hs.live_eq 0 rfl, hs.nodup, fun id hid => ?_⟩
  · have habsent : Heap.empty.object id = .absent := Heap.object_of_le (Nat.zero_le id)
    rw [hs.refs_eq id, habsent]
    exact Nat.zero_add _
  · obtain ⟨hlt, hrefs, hkind⟩ := hs.destroyed id hid
    exact ⟨hlt, beq_iff_eq.2 hrefs, hkind⟩

namespace Heap

/-- Taking a reference to an object, giving one back and handing the object to a container all fail
and leave the heap as it is. -/
structure Refuses (h : Heap) (id : ObjectId) : Prop where
  retain : h.retain id = .error ⟨.retain, h.kind id⟩ h
  release : release id h = .error ⟨.release, h.kind id⟩ h
  push : ∀ array items, h.array? array = some items →
    push array id h = .error ⟨.retain, h.kind id⟩ h
  add : ∀ dict entries key, h.dict? dict = some entries → entries.contains key = false →
    add dict key id h = .error ⟨.retain, h.kind id⟩ h

variable {id : ObjectId}

theorem refuses_of_destroyed (hdestroyed : h.destroyed id = true) : h.Refuses id := by
  have hrefs : (h.object id).refs = 0 := beq_iff_eq.1 hdestroyed
  have hretain := retain_of_destroyed hrefs
  refine ⟨hretain, settle_release_destroyed hrefs, fun array items hitems => ?_,
    fun dict entries key hentries hkey => ?_⟩
  · exact push_of_error (content_eq_of_array? hitems) hretain
  · exact add_of_error (content_eq_of_dict? hentries) hkey hretain

theorem Evolves.destroyed_of_destroyed {h' : Heap} {taken given aborted : List ObjectId}
    (hs : h.Evolves taken given aborted h') (hid : id < h.objects.size)
    (hdestroyed : h.destroyed id = true) : h'.destroyed id = true :=
  beq_iff_eq.2 (hs.refs_eq_zero id hid (beq_iff_eq.1 hdestroyed))

/-- **The counts survive misuse.** Whatever is done without parsing, the counts are right, destroyed
objects stay destroyed, and nothing can be done with them. -/
theorem counts_survive_misuse (hoperations : ∀ t, .parse t ∉ operations) :
    (∃ j : Journal, j.Records .empty operations) ∧
    (∀ j : Journal, j.Records .empty operations → j.Balances (build operations)) ∧
    (∀ id < (build operations).objects.size, (build operations).destroyed id = true →
      ∀ operations', (∀ t, .parse t ∉ operations') →
        (build (operations ++ operations')).destroyed id = true) ∧
    ∀ id, (build operations).destroyed id = true → (build operations).Refuses id := by
  refine ⟨Journal.exists_records hoperations .empty, fun j hj => hj.balances,
    fun id hid hdestroyed operations' hoperations' => ?_, fun id => refuses_of_destroyed⟩
  obtain ⟨j, hj⟩ := Journal.exists_records hoperations' (build operations)
  rw [build_append]
  exact hj.evolves.destroyed_of_destroyed hid hdestroyed

/-- A string is given back once too often, so the destruction of the array that holds it is aborted,
and that of the array that holds this array. -/
theorem counts_survive_misuse_nested :
    ∃ operations, (∀ t, .parse t ∉ operations) ∧ (build operations).live = 2 ∧
      (build operations).population = 0 ∧
      ∃ j : Journal, j.Records .empty operations ∧ j.aborted.length = 2 := by
  let operations : List Operation := [.array, .array, .string [], .push 1 2, .push 0 1,
    .release 1, .release 2, .release 2, .release 0]
  have hoperations (t : Text) : .parse t ∉ operations := by simp [operations]
  have hlive : (build operations).live = 2 := by decide +kernel
  have hpopulation : (build operations).population = 0 := by decide +kernel
  obtain ⟨⟨j, hj⟩, hbalances, -⟩ := counts_survive_misuse hoperations
  have hcount := (hbalances j hj).live_eq
  rw [hlive, hpopulation] at hcount
  exact ⟨operations, hoperations, hlive, hpopulation, j, hj, by omega⟩

end Heap

end PropertyList

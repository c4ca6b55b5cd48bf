import Mathlib.Data.List.Induction
import Mathlib.Data.List.Sort
import PropertyList.Dict

/-!
# The order of reading

A dictionary is read in the order of the bytes of its keys, and keys with the same bytes are read
in the order in which they were added. So reading sorts the entries by the bytes of their keys,
and sorts stably.

Keys are inserted from the right: a key comes behind those with its bytes that were added before.
Sorting a list from its head inserts from the left. The two kinds of insertion commute
(`insertKey_orderedInsert`), and hence both ways of sorting agree.

## Main definitions

* `Dict.ofList`, the dictionary that adding a list of entries gives
* `Dict.byBytes`, the comparison of entries
* `Dict.Shows`, what a dictionary shows to its readers

## Main results

* `Dict.toList_ofList` : reading is sorting.
* `Dict.visit_cases` : how far a visit comes.
* `Dict.shows_ofList`
-/

namespace PropertyList

namespace Text

theorem precedes_irrefl (s : Text) : ¬ s.precedes s := by
  simp only [precedes, decide_eq_true_eq]
  exact List.lt_irrefl _

theorem precedes_trans {s t u : Text} (h : s.precedes t) (h' : t.precedes u) : s.precedes u := by
  simp only [precedes, decide_eq_true_eq] at h h' ⊢
  exact List.lt_trans h h'

theorem not_precedes_trans {s t u : Text} (h : ¬ s.precedes t) (h' : ¬ t.precedes u) :
    ¬ s.precedes u := by
  simp only [precedes, decide_eq_true_eq] at h h' ⊢
  exact List.le_trans h' h

theorem precedes_asymm {s t : Text} (h : s.precedes t) : ¬ t.precedes s :=
  fun h' => precedes_irrefl s (precedes_trans h h')

theorem encode_eq_of_not_precedes {s t : Text} (h : ¬ s.precedes t) (h' : ¬ t.precedes s) :
    s.encode = t.encode := by
  simp only [precedes, decide_eq_true_eq] at h h'
  exact List.le_antisymm h' h

/-- Whether a key may be read before another. -/
def byBytes (s t : Text) : Bool :=
  !t.precedes s

theorem byBytes_iff {s t : Text} : s.byBytes t ↔ ¬ t.precedes s := by
  simp [byBytes]

theorem byBytes_trans (s t u : Text) (h : s.byBytes t) (h' : t.byBytes u) : s.byBytes u :=
  byBytes_iff.2 (not_precedes_trans (byBytes_iff.1 h') (byBytes_iff.1 h))

theorem byBytes_total (s t : Text) : s.byBytes t || t.byBytes s := by
  rw [Bool.or_eq_true, byBytes_iff, byBytes_iff]
  by_cases h : t.precedes s
  · exact Or.inr (precedes_asymm h)
  · exact Or.inl h

end Text

/-! ### Sorting keys -/

/-- Inserting one key from the right and another from the left can be done in either order. -/
private theorem insertKey_orderedInsert (x a : Text) (l : List Text) :
    insertKey x (l.orderedInsert (Text.byBytes · ·) a) =
      (insertKey x l).orderedInsert (Text.byBytes · ·) a := by
  induction l with
  | nil =>
    simp only [List.orderedInsert_nil, insertKey, List.orderedInsert_cons, Text.byBytes_iff]
    split_ifs <;> rfl
  | cons b l ih =>
    by_cases hba : b.precedes a <;> by_cases hxb : x.precedes b
    · have hxa : x.precedes a := Text.precedes_trans hxb hba
      simp [insertKey, Text.byBytes, hba, hxb, hxa]
    · have hab : ¬ a.byBytes b := by simp [Text.byBytes, hba]
      rw [List.orderedInsert_cons, if_neg hab, insertKey, if_neg hxb, ih, insertKey, if_neg hxb,
        List.orderedInsert_cons, if_neg hab]
    · by_cases hxa : x.precedes a <;> simp [insertKey, Text.byBytes, hba, hxb, hxa]
    · have hxa : ¬ x.precedes a := Text.not_precedes_trans hxb hba
      simp [insertKey, Text.byBytes, hba, hxb, hxa]

/-- Sorting inserts the head of a list from the left into what the tail is sorted to. -/
private theorem mergeSort_cons_eq_orderedInsert (a : Text) (l : List Text) :
    (a :: l).mergeSort Text.byBytes =
      (l.mergeSort Text.byBytes).orderedInsert (Text.byBytes · ·) a := by
  obtain ⟨l₁, l₂, hcons, htail, hl₁⟩ :=
    List.mergeSort_cons Text.byBytes_trans Text.byBytes_total a l
  have hsorted := List.pairwise_mergeSort Text.byBytes_trans Text.byBytes_total (a :: l)
  rw [hcons, List.pairwise_append] at hsorted
  rw [hcons, htail]
  clear hcons htail
  induction l₁ with
  | nil =>
    cases l₂ with
    | nil => rfl
    | cons b l₂ =>
      have hab := List.rel_of_pairwise_cons hsorted.2.1 List.mem_cons_self
      simp [hab]
  | cons b l₁ ih =>
    have hab : a.byBytes b = false := by simpa using hl₁ b List.mem_cons_self
    rw [List.cons_append, List.cons_append, List.orderedInsert_cons, if_neg (by simp [hab]),
      ih (fun c hc => hl₁ c (List.mem_cons_of_mem b hc))
        ⟨hsorted.1.tail, hsorted.2.1, fun c hc => hsorted.2.2 c (List.mem_cons_of_mem b hc)⟩]

/-- Keys that are inserted one after the other come to be sorted. -/
theorem foldl_insertKey (keys : List Text) :
    keys.foldl (fun sorted key => insertKey key sorted) [] = keys.mergeSort Text.byBytes := by
  have hcomm (a : Text) (keys : List Text) (l : List Text) :
      keys.foldl (fun sorted key => insertKey key sorted)
          (l.orderedInsert (Text.byBytes · ·) a) =
        (keys.foldl (fun sorted key => insertKey key sorted) l).orderedInsert
          (Text.byBytes · ·) a := by
    induction keys generalizing l with
    | nil => rfl
    | cons key keys ih => rw [List.foldl_cons, List.foldl_cons, insertKey_orderedInsert, ih]
  induction keys with
  | nil => rw [List.mergeSort_nil]; rfl
  | cons key keys ih =>
    rw [mergeSort_cons_eq_orderedInsert, ← ih, ← hcomm key keys []]
    rfl

namespace Dict

variable {α : Type}

/-- The dictionary to which entries have been added one after the other. -/
def ofList (entries : List (Text × α)) : Dict α :=
  entries.foldl (fun d e => d.add e.1 e.2) .empty

theorem ofList_append_singleton (entries : List (Text × α)) (key : Text) (value : α) :
    ofList (entries ++ [(key, value)]) = (ofList entries).add key value := by
  rw [ofList, List.foldl_append]
  rfl

@[simp]
theorem entries_ofList (entries : List (Text × α)) : (ofList entries).entries = entries := by
  induction entries using List.reverseRecOn with
  | nil => rfl
  | append_singleton entries e ih => rw [ofList_append_singleton, add, ih]

theorem keys_ofList (entries : List (Text × α)) :
    (ofList entries).keys = (entries.map (·.1)).mergeSort Text.byBytes := by
  rw [← foldl_insertKey]
  induction entries using List.reverseRecOn with
  | nil => rfl
  | append_singleton entries e ih =>
    rw [ofList_append_singleton, add, ih, List.map_append, List.foldl_append]
    rfl

theorem contains_ofList {entries : List (Text × α)} {key : Text} :
    (ofList entries).contains key ↔ key ∈ entries.map (·.1) := by
  simp [contains, find?, entries_ofList]

theorem find?_ofList (entries : List (Text × α)) (key : Text) :
    (ofList entries).find? key = entries.lookup key := by
  rw [find?, entries_ofList]

theorem size_ofList (entries : List (Text × α)) : (ofList entries).size = entries.length := by
  rw [size, keys_ofList, List.length_mergeSort, List.length_map]

/-- The comparison of entries by the bytes of their keys. -/
def byBytes (e f : Text × α) : Bool :=
  e.1.byBytes f.1

theorem lookup_of_mem {entries : List (Text × α)} (hnodup : (entries.map (·.1)).Nodup)
    {e : Text × α} (he : e ∈ entries) : entries.lookup e.1 = some e.2 := by
  induction entries with
  | nil => exact absurd he List.not_mem_nil
  | cons f entries ih =>
    rw [List.map_cons, List.nodup_cons] at hnodup
    rcases List.mem_cons.1 he with rfl | he
    · exact List.lookup_cons_self
    · have hne : (e.1 == f.1) = false :=
        beq_false_of_ne fun h => hnodup.1 (h ▸ List.mem_map_of_mem he)
      rw [List.lookup_cons, hne]
      exact ih hnodup.2 he

/-- Looking up the keys of some of the entries gives these entries. -/
theorem filterMap_lookup {entries l : List (Text × α)} (hnodup : (entries.map (·.1)).Nodup)
    (hl : ∀ e ∈ l, e ∈ entries) :
    (l.map (·.1)).filterMap (fun key => (entries.lookup key).map fun value => (key, value)) =
      l := by
  induction l with
  | nil => rfl
  | cons e l ih =>
    rw [List.map_cons, List.filterMap_cons, lookup_of_mem hnodup (hl e List.mem_cons_self),
      ih fun f hf => hl f (List.mem_cons_of_mem e hf)]
    rfl

/-- **Reading is sorting.** A dictionary to which entries with different keys have been added is
read in the order of the bytes of the keys, and keys with the same bytes in the order of adding. -/
theorem toList_ofList {entries : List (Text × α)} (hnodup : (entries.map (·.1)).Nodup) :
    (ofList entries).toList = entries.mergeSort byBytes := by
  have hkeys : (ofList entries).keys = (entries.mergeSort byBytes).map (·.1) := by
    rw [keys_ofList]
    exact (List.map_mergeSort (r := byBytes) (f := fun e : Text × α => e.1) fun _ _ _ _ => rfl).symm
  rw [toList, hkeys]
  simp only [find?, entries_ofList]
  exact filterMap_lookup hnodup fun e he => List.mem_mergeSort.1 he

theorem map_fst_toList_ofList {entries : List (Text × α)}
    (hnodup : (entries.map (·.1)).Nodup) :
    (ofList entries).toList.map (·.1) = (entries.map (·.1)).mergeSort Text.byBytes := by
  rw [toList_ofList hnodup]
  exact List.map_mergeSort (r := byBytes) (f := fun e : Text × α => e.1) fun _ _ _ _ => rfl

/-- A visit comes to the end of the entries, or to the first of them that is turned down. -/
theorem visit_cases (d : Dict α) (visit : Text → α → Bool) :
    ((∀ e ∈ d.toList, visit e.1 e.2 = true) ∧ d.visit visit = (d.toList, true)) ∨
      ∃ before e after, d.toList = before ++ e :: after ∧ (∀ f ∈ before, visit f.1 f.2 = true) ∧
        visit e.1 e.2 = false ∧ d.visit visit = (before ++ [e], false) := by
  unfold Dict.visit
  induction d.toList with
  | nil => exact Or.inl ⟨List.forall_mem_nil _, rfl⟩
  | cons e l ih =>
    obtain ⟨key, value⟩ := e
    cases hvisit : visit key value with
    | false =>
      refine Or.inr ⟨[], (key, value), l, rfl, List.forall_mem_nil _, hvisit, ?_⟩
      simp [Dict.visit.go, hvisit]
    | true =>
      rcases ih with ⟨hall, hgo⟩ | ⟨before, e, after, rfl, hbefore, he, hgo⟩
      · refine Or.inl ⟨List.forall_mem_cons.2 ⟨hvisit, hall⟩, ?_⟩
        simp [Dict.visit.go, hvisit, hgo]
      · refine Or.inr ⟨(key, value) :: before, e, after, rfl,
          List.forall_mem_cons.2 ⟨hvisit, hbefore⟩, he, ?_⟩
        simp [Dict.visit.go, hvisit, hgo]

/-- What a dictionary shows to its readers when entries have been added in the given order. -/
structure Shows (d : Dict α) (entries : List (Text × α)) : Prop where
  size_eq : d.size = entries.length
  keys_eq : d.keys = (entries.map (·.1)).mergeSort Text.byBytes
  toList_eq : d.toList = entries.mergeSort byBytes
  contains_iff : ∀ key, d.contains key = true ↔ key ∈ entries.map (·.1)
  find?_eq : ∀ e ∈ entries, d.find? e.1 = some e.2
  /-- Every visit comes to the end of the sorted entries, or to the first that is turned down. No
  key is visited twice, so the answers may be taken to depend on the entry alone. -/
  visit : ∀ visit : Text → α → Bool,
    ((∀ e ∈ entries, visit e.1 e.2 = true) ∧ d.visit visit = (entries.mergeSort byBytes, true)) ∨
      ∃ before e after, entries.mergeSort byBytes = before ++ e :: after ∧
        (∀ f ∈ before, visit f.1 f.2 = true) ∧ visit e.1 e.2 = false ∧
        d.visit visit = (before ++ [e], false)

theorem shows_ofList {entries : List (Text × α)} (hnodup : (entries.map (·.1)).Nodup) :
    (ofList entries).Shows entries where
  size_eq := size_ofList entries
  keys_eq := keys_ofList entries
  toList_eq := toList_ofList hnodup
  contains_iff _ := contains_ofList
  find?_eq e he := by rw [find?_ofList, lookup_of_mem hnodup he]
  visit visit := by
    rw [← toList_ofList hnodup]
    have hmem (e : Text × α) (he : e ∈ entries) : e ∈ (ofList entries).toList := by
      rw [toList_ofList hnodup]
      exact List.mem_mergeSort.2 he
    exact (visit_cases (ofList entries) visit).imp_left
      (And.imp_left fun hall e he => hall e (hmem e he))

end Dict

end PropertyList

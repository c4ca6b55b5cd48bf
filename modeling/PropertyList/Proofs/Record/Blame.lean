import PropertyList.Proofs.Record.Faults
import PropertyList.Proofs.Record.Reuse

/-!
# Where a failure comes from

Decoding visits the fields in order, depth first: after a field with fields of its own come these,
if the key of the field is there and has a dictionary. Each field that is visited makes a demand of
its own, on its key and on the object under it. The failure of decoding is that of the first visit
whose demand is not met, blamed on the key of that very field, and what would have been visited
later plays no part. The key of the field at fault is marked as absent then, and so are the keys of
the fields around it.

## Main definitions

* `Demand`, `Visit`, `Visit.failure?`
* `Field.visits`, the visits of a walk
* `Slot.AbsentAlong`, what it means that keys are marked as absent

## Main results

* `Field.firstFailure?_eq_find?` : the failure of decoding is that of the first visit that fails.
* `Descriptor.decode_blames_first`
-/

namespace PropertyList

/-- What a field demands of the object under its key, apart from what fields inside it demand. -/
inductive Demand where
  /-- A text that stands for a value of a type. -/
  | scalar (type : ScalarType)
  | dictionary
  /-- Whatever a callback makes something of. -/
  | any

/-- Why a demand refuses an object. -/
def Demand.refusal? (h : Heap) (id : ObjectId) : Demand → Option Failure
  | scalar type => Failure.of? (Scalar.decode type h id)
  | dictionary =>
    if h.kind id = .dict then none else some (.decode (.wrongKind .dict (h.kind id)) none)
  | any => none

/-- A field that is come to, in the record that fields around it lead to. -/
structure Visit where
  /-- The fields around the field, the outermost one first. -/
  enclosing : List Slot
  /-- The dictionary that is decoded into the record. -/
  dict : ObjectId
  slot : Slot
  demand : Demand

namespace Visit

/-- What is wrong with the key of a field or with the object under it. -/
def failure? (h : Heap) (v : Visit) : Option Failure :=
  match h.entry? (some v.dict) v.slot.key with
  | none => if v.slot.required then some (.decode (.missingKey v.slot.key) none) else none
  | some id => v.demand.refusal? h id

/-- Whether something is wrong with the key of a field or with the object under it. -/
def fails (h : Heap) (v : Visit) : Bool :=
  (v.failure? h).isSome

/-- The failure that decoding ends in if the visit is the first that fails. -/
def blamed? (h : Heap) (v : Visit) : Option Failure :=
  (v.failure? h).map (·.passOn v.slot.key)

/-- A visit to a field inside another. -/
def inside (slot : Slot) (v : Visit) : Visit :=
  { v with enclosing := slot :: v.enclosing }

end Visit

/-- What is wrong is a fault of the data that is blamed on nothing yet, or a number that is not
converted. -/
theorem Visit.failure?_cases {h : Heap} {v : Visit} {failure : Failure}
    (hfailure : v.failure? h = some failure) :
    (∃ fault, failure = .decode fault none) ∨ ∃ fault, failure = .number fault := by
  rw [failure?] at hfailure
  split at hfailure
  · split_ifs at hfailure
    exact .inl ⟨_, (Option.some.inj hfailure).symm⟩
  · rename_i id _
    cases hdemand : v.demand with
    | scalar type =>
      rw [hdemand, Demand.refusal?] at hfailure
      have hdue := Scalar.due_decode type h id
      rw [hfailure] at hdue
      cases failure with
      | decode fault key =>
        obtain ⟨-, -, rfl⟩ := hdue
        exact .inl ⟨fault, rfl⟩
      | number fault => exact .inr ⟨fault, rfl⟩
      | _ => exact hdue.elim
    | dictionary =>
      rw [hdemand, Demand.refusal?] at hfailure
      split_ifs at hfailure
      exact .inl ⟨_, (Option.some.inj hfailure).symm⟩
    | any =>
      rw [hdemand] at hfailure
      cases hfailure

namespace Field

/-- What a field itself demands. -/
def demand : Field → Demand
  | scalar _ type _ => .scalar type
  | nested _ _ => .dictionary
  | array _ _ | custom _ _ => .any

/-- The visit to a field of a record. -/
def visit (dict : ObjectId) (f : Field) : Visit :=
  ⟨[], dict, f.slot, f.demand⟩

mutual

/-- The visits to the fields of a record and to those inside them. -/
def visits (h : Heap) (dict : ObjectId) : List Field → List Visit
  | [] => []
  | f :: fields =>
    f.visit dict :: (f.visitsInside h (h.entry? (some dict) f.slot.key) ++ visits h dict fields)

/-- The visits to the fields inside a field whose key has the object `source`, or is missing. -/
def visitsInside (h : Heap) (source : Option ObjectId) : Field → List Visit
  | nested slot fields =>
    match source with
    | some id => if h.kind id = .dict then (visits h id fields).map (·.inside slot) else []
    | none => []
  | scalar _ _ _ | array _ _ | custom _ _ => []

end

/-! ### The first visit that fails -/

variable {h : Heap} {dict : ObjectId} {f : Field} {fields : List Field}

theorem findSome?_blamed? (h : Heap) (walk : List Visit) :
    walk.findSome? (·.blamed? h) = (walk.find? (·.fails h)).bind (·.blamed? h) := by
  induction walk with
  | nil => rfl
  | cons v walk ih =>
    rw [List.findSome?_cons, List.find?_cons, Visit.fails, ih]
    cases hfailure : v.failure? h with
    | none =>
      have hnone : v.blamed? h = none := by rw [Visit.blamed?, hfailure]; rfl
      rw [hnone]
      rfl
    | some failure =>
      have hsome : v.blamed? h = some (failure.passOn v.slot.key) := by
        rw [Visit.blamed?, hfailure]; rfl
      rw [hsome]
      exact hsome.symm

/-- A failure that is blamed on a field already is passed on as it is. -/
theorem map_passOn_firstFailure? (h : Heap) (dict : ObjectId) (hfields : AllRegular fields)
    (key : Text) : (firstFailure? h dict fields).map (·.passOn key) =
      firstFailure? h dict fields := by
  have hdue := due_firstFailure? h dict hfields
  cases hfailure : firstFailure? h dict fields with
  | none => rfl
  | some failure =>
    rw [hfailure] at hdue
    cases failure with
    | decode fault blame =>
      obtain ⟨-, -, k, rfl, -⟩ := hdue
      rfl
    | _ => rfl

/-- Where a field stands does not matter for what is wrong with it. -/
theorem findSome?_map_inside (slot : Slot) (walk : List Visit) :
    (walk.map (·.inside slot)).findSome? (·.blamed? h) = walk.findSome? (·.blamed? h) :=
  List.findSome?_map

theorem failure?_of_none (hentry : h.entry? (some dict) f.slot.key = none) :
    f.failure? h dict =
      if f.slot.required then some (.decode (.missingKey f.slot.key) (some f.slot.key))
      else none := by
  rw [failure?, hentry]
  rfl

theorem failure?_of_some {id : ObjectId} (hentry : h.entry? (some dict) f.slot.key = some id) :
    f.failure? h dict = (f.refusal? h id).map (·.passOn f.slot.key) := by
  rw [failure?, hentry]
  rfl

theorem blamed?_of_none (hentry : h.entry? (some dict) f.slot.key = none) :
    (f.visit dict).blamed? h =
      if f.slot.required then some (.decode (.missingKey f.slot.key) (some f.slot.key))
      else none := by
  have hfailure : (f.visit dict).failure? h =
      if f.slot.required then some (.decode (.missingKey f.slot.key) none) else none := by
    rw [Visit.failure?, visit, hentry]
  rw [Visit.blamed?, hfailure]
  split_ifs <;> rfl

theorem blamed?_of_some {id : ObjectId} (hentry : h.entry? (some dict) f.slot.key = some id) :
    (f.visit dict).blamed? h = (f.demand.refusal? h id).map (·.passOn f.slot.key) := by
  have hfailure : (f.visit dict).failure? h = f.demand.refusal? h id := by
    rw [Visit.failure?, visit, hentry]
  rw [Visit.blamed?, hfailure]
  rfl

/-- A field fails by itself or because of a field inside it. -/
theorem failure?_eq_findSome? (dict : ObjectId) (hf : f.Regular)
    (hinside : ∀ slot inner, f = nested slot inner → AllRegular inner ∧
      ∀ id, firstFailure? h id inner = (visits h id inner).findSome? (·.blamed? h)) :
    f.failure? h dict = ((f.visit dict).blamed? h).or
      ((f.visitsInside h (h.entry? (some dict) f.slot.key)).findSome? (·.blamed? h)) := by
  cases hentry : h.entry? (some dict) f.slot.key with
  | none =>
    have hnone : f.visitsInside h none = [] := by
      cases f <;> rfl
    rw [failure?_of_none hentry, blamed?_of_none hentry, hnone, List.findSome?_nil, Option.or_none]
  | some id =>
    rw [failure?_of_some hentry, blamed?_of_some hentry]
    cases f with
    | scalar slot type default =>
      rw [visitsInside, List.findSome?_nil, Option.or_none, refusal?, demand, Demand.refusal?]
      cases Scalar.decode type h id <;> rfl
    | nested slot inner =>
      obtain ⟨hregular, hinner⟩ := hinside slot inner rfl
      rw [refusal?, demand, Demand.refusal?, visitsInside]
      split_ifs with hkind
      · rw [map_passOn_firstFailure? h id hregular, findSome?_map_inside, hinner]
        rfl
      · rw [List.findSome?_nil, Option.or_none]
    | array _ _ => exact hf.elim
    | custom _ _ => exact hf.elim

theorem firstFailure?_eq_findSome?_of_forall (dict : ObjectId) (hfields : AllRegular fields)
    (hinside : ∀ f ∈ fields, ∀ slot inner, f = nested slot inner → AllRegular inner ∧
      ∀ id, firstFailure? h id inner = (visits h id inner).findSome? (·.blamed? h)) :
    firstFailure? h dict fields = (visits h dict fields).findSome? (·.blamed? h) := by
  induction fields with
  | nil => rfl
  | cons f fields ih =>
    obtain ⟨hf, hinside⟩ := List.forall_mem_cons.1 hinside
    rw [firstFailure?_cons, failure?_eq_findSome? dict hfields.1 hf, ih hfields.2 hinside, visits,
      List.findSome?_cons, List.findSome?_append, Option.or_assoc]
    cases (f.visit dict).blamed? h <;> rfl

theorem inner_firstFailure? (h : Heap) (f : Field) (hf : f.Regular) :
    ∀ slot inner, f = nested slot inner → AllRegular inner ∧
      ∀ id, firstFailure? h id inner = (visits h id inner).findSome? (·.blamed? h) := by
  induction f, hf using regular_induction with
  | scalar slot type default _ => exact nofun
  | nested slot inner _ hregular ih =>
    rintro _ _ ⟨⟩
    exact ⟨hregular, fun id => firstFailure?_eq_findSome?_of_forall id hregular ih⟩

/-- **The failure of decoding.** It is that of the first visit that fails. -/
theorem firstFailure?_eq_find? (h : Heap) (dict : ObjectId) (hfields : AllRegular fields) :
    firstFailure? h dict fields =
      ((visits h dict fields).find? (·.fails h)).bind (·.blamed? h) :=
  (firstFailure?_eq_findSome?_of_forall dict hfields fun f hf =>
    inner_firstFailure? h f (allRegular_iff.1 hfields f hf)).trans (findSome?_blamed? h _)

/-- A field fails if and only if its own visit fails or one to a field inside it. -/
theorem failure?_eq_find? (h : Heap) (dict : ObjectId) (hf : f.Regular) :
    f.failure? h dict =
      ((f.visit dict :: f.visitsInside h (h.entry? (some dict) f.slot.key)).find?
        (·.fails h)).bind (·.blamed? h) := by
  rw [← findSome?_blamed?, failure?_eq_findSome? dict hf (inner_firstFailure? h f hf),
    List.findSome?_cons]
  cases (f.visit dict).blamed? h <;> rfl

theorem exists_blamed? {walk : List Visit} {v : Visit} (hv : walk.find? (·.fails h) = some v) :
    ∃ failure, (walk.find? (·.fails h)).bind (·.blamed? h) = some failure := by
  have hfails : v.fails h = true := List.find?_some hv
  obtain ⟨failure, hfailure⟩ := Option.isSome_iff_exists.1 hfails
  exact ⟨_, by rw [hv, Option.bind_some, Visit.blamed?, hfailure, Option.map_some]⟩

end Field

/-! ### Marks -/

namespace Slot

/-- A record marks the key of a slot as absent, if it keeps track of the key. -/
def MarkedAbsent (slot : Slot) (r : Value) : Prop :=
  ∀ tracker, slot.tracker? = some tracker → r.attribute? tracker = some (.bool false)

/-- The keys of a slot and of the slots around it are marked as absent, each in the record that has
its attribute. -/
def AbsentAlong (slot : Slot) : (enclosing : List Slot) → Value → Prop
  | [], r => slot.MarkedAbsent r
  | outer :: enclosing, r =>
    outer.MarkedAbsent r ∧
      ∃ inner, r.attribute? outer.name = some inner ∧ slot.AbsentAlong enclosing inner

/-- The slot whose attribute is in the record itself. -/
def outermost (slot : Slot) (enclosing : List Slot) : Slot :=
  enclosing.headD slot

/-- Only the attributes of the outermost slot are looked at in the record. -/
theorem AbsentAlong.congr {slot : Slot} {enclosing : List Slot} {r r' : Value}
    (h : slot.AbsentAlong enclosing r)
    (htracker : ∀ tracker, (slot.outermost enclosing).tracker? = some tracker →
      r'.attribute? tracker = r.attribute? tracker)
    (hname : enclosing ≠ [] →
      r'.attribute? (slot.outermost enclosing).name =
        r.attribute? (slot.outermost enclosing).name) :
    slot.AbsentAlong enclosing r' := by
  cases enclosing with
  | nil => exact fun tracker ht => (htracker tracker ht).trans (h tracker ht)
  | cons outer enclosing =>
    obtain ⟨hmarked, inner, hinner, hrest⟩ := h
    exact ⟨fun tracker ht => (htracker tracker ht).trans (hmarked tracker ht), inner,
      (hname (List.cons_ne_nil outer enclosing)).trans hinner, hrest⟩

end Slot

namespace Field

variable {h : Heap} {dict : ObjectId} {f : Field} {fields : List Field}

/-- The visits inside a record are those to its fields, if its key has a dictionary. -/
theorem visitsInside_cases (h : Heap) (source : Option ObjectId) (slot : Slot)
    (inner : List Field) :
    (nested slot inner).visitsInside h source = [] ∨
      ∃ id, source = some id ∧ h.kind id = .dict ∧
        (nested slot inner).visitsInside h source = (visits h id inner).map (·.inside slot) := by
  cases source with
  | none => exact .inl rfl
  | some id =>
    by_cases hkind : h.kind id = .dict
    · exact .inr ⟨id, rfl, hkind, if_pos hkind⟩
    · exact .inl (if_neg hkind)

/-- The outermost slot of a visit is that of one of the fields, and one with fields of its own if
the visit is inside it. -/
theorem exists_outermost {v : Visit} (hv : v ∈ visits h dict fields) :
    ∃ f ∈ fields, f.slot = v.slot.outermost v.enclosing ∧
      (v.enclosing ≠ [] → ∃ inner, f = nested (v.slot.outermost v.enclosing) inner) := by
  induction fields with
  | nil => cases hv
  | cons f fields ih =>
    rw [visits, List.mem_cons, List.mem_append] at hv
    obtain rfl | hv | hv := hv
    · exact ⟨f, List.mem_cons_self, rfl, fun hne => absurd rfl hne⟩
    · refine ⟨f, List.mem_cons_self, ?_⟩
      cases f with
      | nested slot inner =>
        obtain hnil | ⟨id, -, -, hmap⟩ := visitsInside_cases h _ slot inner
        · rw [hnil] at hv
          cases hv
        · rw [hmap] at hv
          obtain ⟨w, -, rfl⟩ := List.mem_map.1 hv
          exact ⟨rfl, fun _ => ⟨inner, rfl⟩⟩
      | _ => cases hv
    · obtain ⟨g, hg, hslot, hnested⟩ := ih hv
      exact ⟨g, List.mem_cons_of_mem f hg, hslot, hnested⟩

/-- What decoding leaves of the attributes of a field that fails, in front of those of others. -/
theorem releasedAll_reachedAll_of_some (hnodup : (names (f :: fields)).Nodup) {failure : Failure}
    (hfailure : f.failure? h dict = some failure) :
    releasedAll (f :: fields) (reachedAll h dict (f :: fields)) =
      f.slot.entries false (f.released (f.reached h (h.entry? (some dict) f.slot.key))) ++
        releasedAll fields (attributes h none fields) := by
  rw [reachedAll, hfailure, Option.isNone_some, Bool.and_false, if_neg Bool.false_ne_true]
  exact releasedAll_entries_append hnodup (map_fst_attributes h none fields)

theorem releasedAll_reachedAll_of_none (hregular : AllRegular (f :: fields))
    (hnodup : (names (f :: fields)).Nodup) (hfailure : f.failure? h dict = none) :
    releasedAll (f :: fields) (reachedAll h dict (f :: fields)) =
      f.slot.entries (h.entry? (some dict) f.slot.key).isSome
          (f.released (f.reached h (h.entry? (some dict) f.slot.key))) ++
        releasedAll fields (reachedAll h dict fields) := by
  rw [reachedAll, hfailure, Option.isNone_none, Bool.and_true, if_pos rfl]
  exact releasedAll_entries_append hnodup (allLaidOut_reachedAll h hregular.2 dict).map_fst

/-- The entries of a field that fails, as decoding leaves them. -/
theorem attributes_of_failure? (hnodup : (names (f :: fields)).Nodup) {failure : Failure}
    (hfailure : f.failure? h dict = some failure) :
    f.slot.MarkedAbsent (.record (releasedAll (f :: fields) (reachedAll h dict (f :: fields)))) ∧
      (Value.record (releasedAll (f :: fields) (reachedAll h dict (f :: fields)))).attribute?
          f.slot.name =
        some (f.released (f.reached h (h.entry? (some dict) f.slot.key))) := by
  have hnil : f.slot.names.Disjoint (([] : List (String × Value)).map Prod.fst) :=
    List.disjoint_nil_right _
  rw [releasedAll_reachedAll_of_some hnodup hfailure]
  exact ⟨fun tracker htracker => f.slot.attribute?_tracker hnil htracker,
    f.slot.attribute?_name hnil⟩

/-- The entries of the fields after one that does not fail are theirs alone. -/
theorem attribute?_of_failure?_eq_none (hregular : AllRegular (f :: fields))
    (hnodup : (names (f :: fields)).Nodup) (hfailure : f.failure? h dict = none) {n : String}
    (hn : n ∈ names fields) :
    (Value.record (releasedAll (f :: fields) (reachedAll h dict (f :: fields)))).attribute? n =
      (Value.record (releasedAll fields (reachedAll h dict fields))).attribute? n := by
  rw [names, List.flatMap_cons] at hnodup
  rw [releasedAll_reachedAll_of_none hregular hnodup hfailure, Value.attribute?,
    List.lookup_append, lookup_of_notMem, Option.none_or]
  · rfl
  · rw [Slot.map_fst_entries]
    exact fun h => List.disjoint_of_nodup_append hnodup h hn

theorem absentAlong_of_forall (hregular : AllRegular fields) (hnodup : (names fields).Nodup)
    (hinside : ∀ f ∈ fields, ∀ slot inner, f = nested slot inner → ∀ id v,
      (visits h id inner).find? (·.fails h) = some v →
        v.slot.AbsentAlong v.enclosing (.record (releasedAll inner (reachedAll h id inner))))
    {v : Visit} (hv : (visits h dict fields).find? (·.fails h) = some v) :
    v.slot.AbsentAlong v.enclosing (.record (releasedAll fields (reachedAll h dict fields))) := by
  induction fields with
  | nil => cases hv
  | cons f fields ih =>
    obtain ⟨hf, hinside⟩ := List.forall_mem_cons.1 hinside
    have hown := failure?_eq_find? h dict hregular.1
    rw [visits, ← List.cons_append, List.find?_append] at hv
    cases hfirst : (f.visit dict :: f.visitsInside h (h.entry? (some dict) f.slot.key)).find?
        (·.fails h) with
    | some w =>
      obtain ⟨failure, hfailure⟩ := exists_blamed? hfirst
      obtain ⟨hmarked, hvalue⟩ := attributes_of_failure? hnodup (hown.trans hfailure)
      rw [hfirst, Option.some_or] at hv
      obtain rfl := Option.some.inj hv
      rw [List.find?_cons] at hfirst
      split at hfirst
      · obtain rfl := Option.some.inj hfirst
        exact hmarked
      · cases f with
        | nested slot inner =>
          obtain hnil | ⟨id, hsource, hkind, hmap⟩ := visitsInside_cases h
            (h.entry? (some dict) (nested slot inner).slot.key) slot inner
          · rw [hnil] at hfirst
            cases hfirst
          · rw [hmap, List.find?_map] at hfirst
            obtain ⟨u, hu, rfl⟩ := Option.map_eq_some_iff.1 hfirst
            rw [hsource, reached, if_pos hkind] at hvalue
            exact ⟨hmarked, _, hvalue, hf slot inner rfl id u hu⟩
        | _ => cases hfirst
    | none =>
      rw [hfirst, Option.none_or] at hv
      rw [hfirst] at hown
      obtain ⟨g, hg, hslot, -⟩ := exists_outermost (List.mem_of_find?_eq_some hv)
      have hsame (n : String) (hn : n ∈ g.slot.names) :=
        attribute?_of_failure?_eq_none hregular hnodup hown (List.mem_flatMap.2 ⟨g, hg, hn⟩)
      rw [names, List.flatMap_cons] at hnodup
      rw [hslot] at hsame
      exact (ih hregular.2 hnodup.of_append_right hinside hv).congr
        (fun tracker ht => hsame tracker (Slot.mem_names_of_tracker? ht))
        fun _ => hsame _ (Slot.name_mem_names _)

theorem inner_absentAlong (h : Heap) (f : Field) (hf : f.Regular) :
    ∀ slot inner, f = nested slot inner → ∀ id v,
      (visits h id inner).find? (·.fails h) = some v →
        v.slot.AbsentAlong v.enclosing
          (.record (releasedAll inner (reachedAll h id inner))) := by
  induction f, hf using regular_induction with
  | scalar slot type default _ => exact nofun
  | nested slot inner hnodup hregular ih =>
    rintro _ _ ⟨⟩ id v hv
    exact absentAlong_of_forall hregular hnodup ih hv

/-- The key of the field at fault is marked as absent, and so are those of the fields around it. -/
theorem absentAlong_releasedAll (hregular : AllRegular fields) (hnodup : (names fields).Nodup)
    {v : Visit} (hv : (visits h dict fields).find? (·.fails h) = some v) :
    v.slot.AbsentAlong v.enclosing (.record (releasedAll fields (reachedAll h dict fields))) :=
  absentAlong_of_forall hregular hnodup
    (fun f hf => inner_absentAlong h f (allRegular_iff.1 hregular f hf)) hv

end Field

/-! ### Descriptors -/

namespace Descriptor

variable {d : Descriptor} {dict : ObjectId} {s : Session}

/-- Decoding ends in what the first visit that fails is blamed for. -/
theorem exists_decode_eq_error (hd : d.Regular) (hdict : s.store.heap.kind dict = .dict)
    {fresh : Bool} (hrecord : fresh = true ∨ ∃ given, s.record = .record given) {v : Visit}
    (hv : (Field.visits s.store.heap dict d.fields).find? (·.fails s.store.heap) = some v)
    {failure : Failure} (hfailure : v.failure? s.store.heap = some failure) :
    ∃ s', d.decode dict fresh s = .error (failure.passOn v.slot.key) s' ∧
      v.slot.AbsentAlong v.enclosing s'.record := by
  obtain ⟨s', hrun, hshows⟩ := exists_decode_eq hd hdict hrecord
  have hfirst : Field.firstFailure? s.store.heap dict d.fields =
      some (failure.passOn v.slot.key) := by
    rw [Field.firstFailure?_eq_find? s.store.heap dict hd.2, hv, Option.bind_some, Visit.blamed?,
      hfailure, Option.map_some]
  have hleft : d.recordLeft s.store.heap dict = .record
      (Field.releasedAll d.fields (Field.reachedAll s.store.heap dict d.fields)) := by
    rw [recordLeft, hfirst, if_neg (Option.some_ne_none _)]
  have hsame {n : String} (hn : n ∈ Field.names d.fields) (hkept : n ∉ Field.kept d.fields) :
      s'.record.attribute? n = (d.recordLeft s.store.heap dict).attribute? n := by
    obtain ⟨w, hw⟩ := Option.isSome_iff_exists.1
      ((isSome_attribute?_recordLeft hd s.store.heap dict n).2 hn)
    rw [hw, hshows n hkept w hw]
  obtain ⟨f, hf, hslot, hnested⟩ := Field.exists_outermost (List.mem_of_find?_eq_some hv)
  have habsent := Field.absentAlong_releasedAll hd.2 hd.1 hv
  rw [hfirst] at hrun
  rw [← hleft] at habsent
  refine ⟨s', hrun, habsent.congr (fun tracker ht => ?_) fun hne => ?_⟩
  · rw [← hslot] at ht
    exact hsame (List.mem_flatMap.2 ⟨f, hf, Slot.mem_names_of_tracker? ht⟩)
      (Field.tracker_notMem_kept hd.1 hf ht)
  · obtain ⟨inner, rfl⟩ := hnested hne
    exact hsame (List.mem_flatMap.2 ⟨_, hf, Slot.name_mem_names _⟩)
      (Field.name_notMem_kept hd.1 hf)

/-- **Blame.** Where decoding ends in a fault of the data, that is the fault of the first visit that
fails, and it is blamed on the key of that very field. The same fault is reported of all data for
which the first visit that fails has this key and this fault, whatever comes after it. The key is
marked as absent in the record that has its attribute, and so are those of the fields around it. -/
theorem decode_blames_first (hd : d.Regular) (hdict : s.store.heap.kind dict = .dict)
    {fresh : Bool} (hrecord : fresh = true ∨ ∃ given, s.record = .record given)
    {fault : DecodeFault} {key : Option Text} {s' : Session}
    (hfail : d.decode dict fresh s = .error (.decode fault key) s') :
    ∃ v, (Field.visits s.store.heap dict d.fields).find? (·.fails s.store.heap) = some v ∧
      v.failure? s.store.heap = some (.decode fault none) ∧ key = some v.slot.key ∧
      v.slot.AbsentAlong v.enclosing s'.record ∧
      ∀ {d₂ : Descriptor} {dict₂ : ObjectId} {s₂ : Session} {fresh₂ : Bool} {v₂ : Visit},
        d₂.Regular → s₂.store.heap.kind dict₂ = .dict →
        (fresh₂ = true ∨ ∃ given, s₂.record = .record given) →
        (Field.visits s₂.store.heap dict₂ d₂.fields).find? (·.fails s₂.store.heap) = some v₂ →
        v₂.failure? s₂.store.heap = v.failure? s.store.heap → v₂.slot.key = v.slot.key →
          ∃ s₂', d₂.decode dict₂ fresh₂ s₂ = .error (.decode fault key) s₂' := by
  cases hv : (Field.visits s.store.heap dict d.fields).find? (·.fails s.store.heap) with
  | none =>
    obtain ⟨t, hrun, -⟩ := exists_decode_eq hd hdict hrecord
    rw [Field.firstFailure?_eq_find? s.store.heap dict hd.2, hv, hfail] at hrun
    cases hrun
  | some v =>
    have hfails : v.fails s.store.heap = true := List.find?_some hv
    obtain ⟨failure, hfailure⟩ := Option.isSome_iff_exists.1 hfails
    obtain ⟨t, hrun, habsent⟩ := exists_decode_eq_error hd hdict hrecord hv hfailure
    rw [hfail] at hrun
    obtain ⟨fault, rfl⟩ | ⟨fault, rfl⟩ := Visit.failure?_cases hfailure
    · cases hrun
      refine ⟨v, rfl, hfailure, rfl, habsent, fun hd₂ hdict₂ hrecord₂ hv₂ hsame hkey => ?_⟩
      obtain ⟨s₂', hrun₂, -⟩ :=
        exists_decode_eq_error hd₂ hdict₂ hrecord₂ hv₂ (hsame.trans hfailure)
      rw [hkey] at hrun₂
      exact ⟨s₂', hrun₂⟩
    · cases hrun

/-- The dictionary of a book whose extent has no number of pages, and its parts. -/
def extentHeap : Heap where
  objects :=
    #[⟨1, .dict ((Dict.empty.add "title" 1).add "extent" 2)⟩, ⟨1, .string "Ulysses"⟩,
      ⟨1, .dict Dict.empty⟩]
  live := 3

/-- A book is refused for its number of pages, and the extent, of which there had been one before,
is marked as absent. -/
theorem decode_blames_first_book :
    book.Regular ∧ extentHeap.kind 0 = .dict ∧
    ∃ s', book.decode 0 false
        ⟨.record [("has_extent", .bool true)], ⟨extentHeap, #[]⟩, []⟩ =
          .error (.decode (.missingKey "pages") (some "pages")) s' ∧
      s'.record.attribute? "has_extent" = some (.bool false) := by
  have hdict : extentHeap.kind 0 = .dict := by decide
  obtain ⟨s', hfail⟩ : ∃ s', book.decode 0 false
      ⟨.record [("has_extent", .bool true)], ⟨extentHeap, #[]⟩, []⟩ =
        .error (.decode (.missingKey "pages") (some "pages")) s' :=
    ⟨_, rfl⟩
  obtain ⟨v, hv, -, -, habsent, -⟩ :=
    decode_blames_first book_regular hdict (.inr ⟨_, rfl⟩) hfail
  have hvisit : (Field.visits extentHeap 0 book.fields).find? (·.fails extentHeap) =
      some ⟨[⟨"extent", "extent", some "has_extent", false, 0⟩], 2,
        ⟨"pages", "pages", none, true, 0⟩, .scalar .int64⟩ := rfl
  obtain rfl := Option.some.inj (hvisit.symm.trans hv)
  exact ⟨book_regular, hdict, s', hfail, habsent.1 "has_extent" (by decide)⟩

end Descriptor

end PropertyList

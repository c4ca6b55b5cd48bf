import PropertyList.Proofs.Record.Regular

/-!
# The walk of decoding

Decoding walks over the fields in order, into the records of those whose keys have a dictionary, and
ends at the first field that fails: one whose required key is missing, or whose object does not
stand for a value. The failure is blamed on the key of the innermost field. The fields before it
have been decoded then, it is marked as absent, and the fields after it have their initial values
still.

What has been decoded can be released, whether the walk has come to its end or not.

## Main definitions

* `Field.refusal?`, `Field.failure?`, `Field.firstFailure?`, the failure that the walk ends in
* `Field.reached`, `Field.reachedAll`, what it leaves behind
* `Field.LaidOut`, `Field.released`

## Main results

* `Field.firstFailure?_eq_none_iff`
* `Field.leaves_decode`, `Field.leaves_decodeAll`
* `Field.turns_release`, `Field.turns_releaseAll`
-/

namespace PropertyList

open SessionM

/-- What a field makes of a failure inside it: a fault of the data is blamed on the key of the
field, unless it has been blamed on another key already. -/
def Failure.passOn (key : Text) (failure : Failure) : Failure :=
  if failure.isDecodeFault then failure.blame key else failure

/-- The failure that decoding ends in for a slot whose key has the object `source`, or is missing.
-/
def Slot.failure? (slot : Slot) (source : Option ObjectId) (refusal? : ObjectId → Option Failure) :
    Option Failure :=
  match source with
  | some id => (refusal? id).map (·.passOn slot.key)
  | none => if slot.required then some (.decode (.missingKey slot.key) (some slot.key)) else none

namespace Field

/-! ### The failure -/

mutual

/-- The failure that decoding an object for a field ends in. -/
def refusal? (h : Heap) (id : ObjectId) : Field → Option Failure
  | scalar _ type _ =>
    match Scalar.decode type h id with
    | .ok _ => none
    | .error failure => some failure
  | nested _ fields =>
    if h.kind id = .dict then firstFailure? h id fields
    else some (.decode (.wrongKind .dict (h.kind id)) none)
  | array _ _ | custom _ _ => none

/-- The failure that decoding a dictionary for fields ends in, which is that of the first field that
fails. -/
def firstFailure? (h : Heap) (dict : ObjectId) : List Field → Option Failure
  | [] => none
  | f :: fields =>
    (f.slot.failure? (h.entry? (some dict) f.slot.key) fun id => f.refusal? h id).or
      (firstFailure? h dict fields)

end

/-- The failure that decoding a dictionary for one field ends in. -/
def failure? (h : Heap) (dict : ObjectId) (f : Field) : Option Failure :=
  f.slot.failure? (h.entry? (some dict) f.slot.key) fun id => f.refusal? h id

theorem firstFailure?_cons (h : Heap) (dict : ObjectId) (f : Field) (fields : List Field) :
    firstFailure? h dict (f :: fields) = (f.failure? h dict).or (firstFailure? h dict fields) :=
  rfl

theorem refusal?_nested {h : Heap} {id : ObjectId} (hkind : h.kind id = .dict) (slot : Slot)
    (fields : List Field) : (nested slot fields).refusal? h id = firstFailure? h id fields :=
  if_pos hkind

theorem failure?_eq_none_iff {h : Heap} {dict : ObjectId} {f : Field}
    (hf : ∀ id, f.refusal? h id = none ↔ f.Takes h id) :
    f.failure? h dict = none ↔ f.Accepts h dict := by
  unfold failure? Slot.failure?
  cases hentry : h.entry? (some dict) f.slot.key with
  | none => simp [accepts_of_none hentry]
  | some id => simp [accepts_of_some hentry, hf]

theorem firstFailure?_eq_none_iff_of_forall {h : Heap} {dict : ObjectId} {fields : List Field}
    (hfields : ∀ f ∈ fields, ∀ id, f.refusal? h id = none ↔ f.Takes h id) :
    firstFailure? h dict fields = none ↔ AllAccept h dict fields := by
  induction fields with
  | nil => exact iff_of_true rfl trivial
  | cons f fields ih =>
    obtain ⟨hf, hfields⟩ := List.forall_mem_cons.1 hfields
    rw [firstFailure?_cons, Option.or_eq_none_iff, failure?_eq_none_iff hf, ih hfields,
      allAccept_cons]

/-- Objects that a field takes are those that it does not refuse. -/
theorem refusal?_eq_none_iff (h : Heap) (f : Field) (hf : f.Regular) :
    ∀ id, f.refusal? h id = none ↔ f.Takes h id := by
  induction f, hf using regular_induction with
  | scalar slot type default _ =>
    intro id
    rw [refusal?, Takes]
    cases Scalar.decode type h id <;> simp
  | nested slot fields _ _ ih =>
    intro id
    rw [refusal?, Takes]
    split_ifs with hkind
    · rw [firstFailure?_eq_none_iff_of_forall ih, and_iff_right hkind]
    · exact iff_of_false nofun fun h => hkind h.1

/-- Fields accept a dictionary if none of them fails. -/
theorem firstFailure?_eq_none_iff (h : Heap) (dict : ObjectId) {fields : List Field}
    (hfields : AllRegular fields) :
    firstFailure? h dict fields = none ↔ AllAccept h dict fields :=
  firstFailure?_eq_none_iff_of_forall fun f hf =>
    refusal?_eq_none_iff h f (allRegular_iff.1 hfields f hf)

/-! ### The record -/

mutual

/-- The value that decoding leaves in the attribute of a field whose key has the object `source`, or
is missing. -/
def reached (h : Heap) (source : Option ObjectId) : Field → Value
  | scalar _ type default =>
    match source with
    | some id => (Scalar.decode type h id).toOption.getD (type.initial default)
    | none => type.initial default
  | nested _ fields =>
    match source with
    | some id =>
      if h.kind id = .dict then .record (reachedAll h id fields)
      else .record (attributes h none fields)
    | none => .record (attributes h none fields)
  | array _ _ | custom _ _ => .null

/-- The attributes that decoding a dictionary leaves in a record: those that have been decoded up to
the first field that fails, and the initial ones from there on. -/
def reachedAll (h : Heap) (dict : ObjectId) : List Field → List (String × Value)
  | [] => []
  | f :: fields =>
    f.slot.entries ((h.entry? (some dict) f.slot.key).isSome && (f.failure? h dict).isNone)
        (f.reached h (h.entry? (some dict) f.slot.key))
      ++ if (f.failure? h dict).isNone then reachedAll h dict fields else attributes h none fields

end

theorem reached_none (h : Heap) (f : Field) : f.reached h none = f.value h none := by
  cases f <;> rfl

theorem reachedAll_eq_attributes_of_forall {h : Heap} {dict : ObjectId} {fields : List Field}
    (hregular : ∀ f ∈ fields, f.Regular)
    (hfields : ∀ f ∈ fields, ∀ id, f.Takes h id → f.reached h (some id) = f.value h (some id))
    (haccept : AllAccept h dict fields) :
    reachedAll h dict fields = attributes h (some dict) fields := by
  induction fields with
  | nil => rfl
  | cons f fields ih =>
    obtain ⟨hf, hfields⟩ := List.forall_mem_cons.1 hfields
    obtain ⟨hregular, hregulars⟩ := List.forall_mem_cons.1 hregular
    have hnone := (failure?_eq_none_iff (refusal?_eq_none_iff h f hregular)).2 haccept.1
    have hreached : f.reached h (h.entry? (some dict) f.slot.key) =
        f.value h (h.entry? (some dict) f.slot.key) := by
      cases hentry : h.entry? (some dict) f.slot.key with
      | none => exact reached_none h f
      | some id => exact hf id (haccept.1.2 id hentry)
    rw [reachedAll, attributes, hnone, hreached, ih hregulars hfields haccept.2, Option.isNone_none,
      Bool.and_true, if_pos rfl]

/-- What decoding leaves for an object that the field takes is its value. -/
theorem reached_eq_value (h : Heap) (f : Field) (hf : f.Regular) :
    ∀ id, f.Takes h id → f.reached h (some id) = f.value h (some id) := by
  induction f, hf using regular_induction with
  | scalar slot type default _ =>
    rintro id ⟨v, hv⟩
    rw [reached, value, hv]
    rfl
  | nested slot fields _ hfields ih =>
    rintro id ⟨hkind, haccept⟩
    rw [reached, value, if_pos hkind]
    exact congrArg Value.record
      (reachedAll_eq_attributes_of_forall (allRegular_iff.1 hfields) ih haccept)

/-- What decoding leaves for a dictionary that all fields accept are their values. -/
theorem reachedAll_eq_attributes {h : Heap} {dict : ObjectId} {fields : List Field}
    (hfields : AllRegular fields) (haccept : AllAccept h dict fields) :
    reachedAll h dict fields = attributes h (some dict) fields :=
  reachedAll_eq_attributes_of_forall (allRegular_iff.1 hfields)
    (fun f hf => reached_eq_value h f (allRegular_iff.1 hfields f hf)) haccept

/-! ### Decoding -/

variable {slot : Slot} {pre post : List (String × Value)} {store : Store} {dict : ObjectId}
  {initial value : Value} {failure? : Option Failure}

/-- A field is marked as present if its object has been decoded, and as absent if that has failed.
-/
theorem leaves_decodeMarked (hpre : slot.names.Disjoint (pre.map Prod.fst))
    {decoding : SessionM Unit}
    (hdecoding : Leaves decoding store
      (.record (pre ++ slot.entries false initial ++ post)) failure?
      (.record (pre ++ slot.entries false value ++ post))) :
    Leaves (decodeMarked slot decoding) store
      (.record (pre ++ slot.entries false initial ++ post)) (failure?.map (·.passOn slot.key))
      (.record (pre ++ slot.entries failure?.isNone value ++ post)) := by
  have hmark (present : Bool) : Turns (mark slot present) store
      (.record (pre ++ slot.entries false value ++ post))
      (.record (pre ++ slot.entries present value ++ post)) :=
    slot.turns_mark hpre present store
  cases failure? with
  | none => exact (hdecoding.turns.tryCatch _).seq_leaves (hmark true).leaves
  | some failure =>
    -- Only faults of the data take the mark back, but it has said absent from the start.
    refine Leaves.seq_of_some (hdecoding.tryCatch ?_) _
    simp only [Failure.passOn]
    split_ifs
    · exact (hmark false).seq_leaves (leaves_throw _ store _)
    · exact leaves_throw failure store _

/-- The object under the key of a field is decoded if there is one, and required keys are there. -/
theorem leaves_decodeKey (hpre : slot.names.Disjoint (pre.map Prod.fst))
    {decoding : ObjectId → SessionM Unit} {refusal? : ObjectId → Option Failure}
    (value : Option ObjectId → Value)
    (hdecoding : ∀ id, Leaves (decoding id) store
      (.record (pre ++ slot.entries false (value none) ++ post)) (refusal? id)
      (.record (pre ++ slot.entries false (value (some id)) ++ post))) :
    Leaves (decodeKey slot dict decoding) store
      (.record (pre ++ slot.entries false (value none) ++ post))
      (slot.failure? (store.heap.entry? (some dict) slot.key) refusal?)
      (.record (pre ++ slot.entries ((store.heap.entry? (some dict) slot.key).isSome &&
          (slot.failure? (store.heap.entry? (some dict) slot.key) refusal?).isNone)
        (value (store.heap.entry? (some dict) slot.key)) ++ post)) := by
  refine (reads_heap store _).leaves ?_
  show Leaves (match store.heap.entry? (some dict) slot.key with
    | some id => decodeMarked slot (decoding id)
    | none => _) _ _ _ _
  cases store.heap.entry? (some dict) slot.key with
  | none =>
    rw [Slot.failure?]
    split_ifs
    · exact leaves_throw _ store _
    · exact turns_pure store _
  | some id =>
    have hmarked := leaves_decodeMarked hpre (hdecoding id)
    rwa [← Option.isNone_map] at hmarked

/-- An object is decoded as a scalar if it stands for a value of the type. -/
theorem leaves_decodeScalar (hpre : slot.names.Disjoint (pre.map Prod.fst)) (type : ScalarType)
    (default : Value) (id : ObjectId) :
    Leaves (do setAttribute slot.name (← ofExcept (Scalar.decode type (← heap) id))) store
      (.record (pre ++ slot.entries false (type.initial default) ++ post))
      ((scalar slot type default).refusal? store.heap id)
      (.record (pre ++ slot.entries false ((scalar slot type default).reached store.heap (some id))
        ++ post)) := by
  refine (reads_heap store _).leaves ?_
  rw [refusal?, reached]
  cases hdecode : Scalar.decode type store.heap id with
  | ok v => exact (reads_ofExcept rfl store _).leaves (slot.turns_setAttribute hpre v store).leaves
  | error failure => exact fun calls => ⟨calls, rfl⟩

mutual

/-- What decoding a regular field ends in, and what it leaves behind. -/
theorem leaves_decode (store : Store) (dict : ObjectId) : (f : Field) → f.Regular →
    ∀ pre post : List (String × Value), f.slot.names.Disjoint (pre.map Prod.fst) →
      Leaves (f.decode dict) store
        (.record (pre ++ f.slot.entries false (f.value store.heap none) ++ post))
        (f.failure? store.heap dict)
        (.record (pre ++ f.slot.entries ((store.heap.entry? (some dict) f.slot.key).isSome &&
            (f.failure? store.heap dict).isNone)
          (f.reached store.heap (store.heap.entry? (some dict) f.slot.key)) ++ post))
  | scalar slot type default, _, _, _, hpre =>
    leaves_decodeKey hpre (fun source => (scalar slot type default).reached store.heap source)
      fun id => leaves_decodeScalar hpre type default id
  | nested slot fields, hf, pre, post, hpre => by
    refine leaves_decodeKey hpre (fun source => (nested slot fields).reached store.heap source)
      fun id => ?_
    refine (reads_heap store _).leaves ?_
    rw [refusal?, reached]
    split_ifs
    · refine (reads_valueOf store (slot.attribute?_name hpre)).leaves ?_
      exact slot.leaves_within hpre (leaves_decodeAll store id fields hf.2 hf.1 []
        (List.disjoint_nil_right _))
    · exact (reads_heap store _).leaves (leaves_throw _ store _)
  | array _ _, hf, _, _, _ => hf.elim
  | custom _ _, hf, _, _, _ => hf.elim

/-- What decoding regular fields ends in, and what it leaves behind. -/
theorem leaves_decodeAll (store : Store) (dict : ObjectId) : (fields : List Field) →
    AllRegular fields → (names fields).Nodup → ∀ pre : List (String × Value),
    (names fields).Disjoint (pre.map Prod.fst) →
      Leaves (decodeAll dict fields) store
        (.record (pre ++ attributes store.heap none fields))
        (firstFailure? store.heap dict fields)
        (.record (pre ++ reachedAll store.heap dict fields))
  | [], _, _, _, _ => turns_pure store _
  | f :: fields, hfields, hnodup, pre, hpre => by
    obtain ⟨hf, hfields⟩ := hfields
    obtain ⟨hnodup, hfirst, hpre⟩ := disjoint_cons hnodup hpre
      ((store.heap.entry? (some dict) f.slot.key).isSome && (f.failure? store.heap dict).isNone)
      (f.reached store.heap (store.heap.entry? (some dict) f.slot.key))
    have hdecode := leaves_decode store dict f hf pre (attributes store.heap none fields) hfirst
    have hrest := leaves_decodeAll store dict fields hfields hnodup _ hpre
    rw [firstFailure?_cons, reachedAll, attributes, ← List.append_assoc, ← List.append_assoc]
    cases hfailure : f.failure? store.heap dict with
    | none =>
      rw [hfailure] at hdecode hrest
      exact hdecode.turns.seq_leaves hrest
    | some failure =>
      -- The fields that follow are not reached, and keep their initial values.
      rw [hfailure] at hdecode
      exact hdecode.seq_of_some _

end

/-! ### Layout -/

mutual

/-- Whether a value is laid out like those of a field: any value of a scalar, and a record that is
laid out for the fields of a record. -/
def LaidOut : Field → Value → Prop
  | scalar _ _ _, _ => True
  | nested _ fields, v => ∃ attributes, v = .record attributes ∧ AllLaidOut fields attributes
  | array _ _, _ | custom _ _, _ => False

/-- Whether a record is laid out for fields, with the attributes of one after those of the other. -/
def AllLaidOut : List Field → List (String × Value) → Prop
  | [], attributes => attributes = []
  | f :: fields, attributes =>
    ∃ present v rest, attributes = f.slot.entries present v ++ rest ∧ f.LaidOut v ∧
      AllLaidOut fields rest

end

theorem AllLaidOut.map_fst {fields : List Field} {attributes : List (String × Value)}
    (h : AllLaidOut fields attributes) : attributes.map Prod.fst = names fields := by
  induction fields generalizing attributes with
  | nil =>
    rw [show attributes = [] from h]
    rfl
  | cons f fields ih =>
    obtain ⟨present, v, rest, rfl, -, hrest⟩ := h
    rw [List.map_append, Slot.map_fst_entries, ih hrest]
    rfl

theorem allLaidOut_attributes_of_forall {h : Heap} {fields : List Field}
    (hfields : ∀ f ∈ fields, ∀ source, f.LaidOut (f.value h source)) (dict : Option ObjectId) :
    AllLaidOut fields (attributes h dict fields) := by
  induction fields with
  | nil => rfl
  | cons f fields ih =>
    obtain ⟨hf, hfields⟩ := List.forall_mem_cons.1 hfields
    exact ⟨_, _, _, rfl, hf _, ih hfields⟩

theorem laidOut_value (h : Heap) (f : Field) (hf : f.Regular) :
    ∀ source, f.LaidOut (f.value h source) := by
  induction f, hf using regular_induction with
  | scalar slot type default _ => exact fun _ => trivial
  | nested slot fields _ _ ih =>
    exact fun source => ⟨_, rfl, allLaidOut_attributes_of_forall ih source⟩

theorem allLaidOut_attributes (h : Heap) {fields : List Field} (hfields : AllRegular fields)
    (dict : Option ObjectId) : AllLaidOut fields (attributes h dict fields) :=
  allLaidOut_attributes_of_forall
    (fun f hf => laidOut_value h f (allRegular_iff.1 hfields f hf)) dict

theorem allLaidOut_reachedAll_of_forall {h : Heap} {fields : List Field}
    (hregular : AllRegular fields)
    (hfields : ∀ f ∈ fields, ∀ source, f.LaidOut (f.reached h source)) (dict : ObjectId) :
    AllLaidOut fields (reachedAll h dict fields) := by
  induction fields with
  | nil => rfl
  | cons f fields ih =>
    obtain ⟨hf, hfields⟩ := List.forall_mem_cons.1 hfields
    refine ⟨_, _, _, rfl, hf _, ?_⟩
    split_ifs
    · exact ih hregular.2 hfields
    · exact allLaidOut_attributes h hregular.2 none

theorem laidOut_reached (h : Heap) (f : Field) (hf : f.Regular) :
    ∀ source, f.LaidOut (f.reached h source) := by
  induction f, hf using regular_induction with
  | scalar slot type default _ => exact fun _ => trivial
  | nested slot fields _ hfields ih =>
    rintro (_ | id)
    · exact ⟨_, rfl, allLaidOut_attributes h hfields none⟩
    · rw [reached]
      split_ifs
      · exact ⟨_, rfl, allLaidOut_reachedAll_of_forall hfields ih id⟩
      · exact ⟨_, rfl, allLaidOut_attributes h hfields none⟩

/-- What decoding leaves behind is laid out. -/
theorem allLaidOut_reachedAll (h : Heap) {fields : List Field} (hfields : AllRegular fields)
    (dict : ObjectId) : AllLaidOut fields (reachedAll h dict fields) :=
  allLaidOut_reachedAll_of_forall hfields
    (fun f hf => laidOut_reached h f (allRegular_iff.1 hfields f hf)) dict

/-! ### Releasing -/

mutual

/-- The value that releasing leaves of one: null of a string, and of a record what it leaves of the
attributes. -/
def released : Field → Value → Value
  | scalar _ type _, v => if type = .string then .null else v
  | nested _ fields, v =>
    match v with
    | .record attributes => .record (releasedAll fields attributes)
    | v => v
  | array _ _, v | custom _ _, v => v

/-- The attributes that releasing leaves of those of a record. -/
def releasedAll : List Field → List (String × Value) → List (String × Value)
  | [], attributes => attributes
  | f :: fields, attributes =>
    releasedAll fields (attributes.map fun entry =>
      if entry.1 = f.slot.name then (entry.1, f.released entry.2) else entry)

end

private theorem map_of_notMem {name : String} {l : List (String × Value)} (change : Value → Value)
    (hname : name ∉ l.map Prod.fst) :
    l.map (fun entry => if entry.1 = name then (entry.1, change entry.2) else entry) = l := by
  refine (List.map_congr_left fun entry hentry => if_neg fun h => ?_).trans (List.map_id l)
  exact hname (h ▸ List.mem_map_of_mem hentry)

/-- What is not an attribute of the fields is left as it is. -/
theorem releasedAll_append {fields : List Field} {pre : List (String × Value)}
    (hpre : (names fields).Disjoint (pre.map Prod.fst)) (rest : List (String × Value)) :
    releasedAll fields (pre ++ rest) = pre ++ releasedAll fields rest := by
  induction fields generalizing rest with
  | nil => rfl
  | cons f fields ih =>
    rw [names, List.flatMap_cons, List.disjoint_append_left] at hpre
    have hname := hpre.1 (List.mem_append_right _ (List.mem_singleton_self f.slot.name))
    rw [releasedAll, releasedAll, List.map_append, map_of_notMem _ hname]
    exact ih hpre.2 _

/-- What is left of the attributes of fields is what is left of those of one after the other. -/
theorem releasedAll_entries_append {f : Field} {fields : List Field} {present : Bool} {v : Value}
    {rest : List (String × Value)} (hnodup : (names (f :: fields)).Nodup)
    (hrest : rest.map Prod.fst = names fields) :
    releasedAll (f :: fields) (f.slot.entries present v ++ rest) =
      f.slot.entries present (f.released v) ++ releasedAll fields rest := by
  have hnil : (names (f :: fields)).Disjoint (([] : List (String × Value)).map Prod.fst) :=
    List.disjoint_nil_right _
  obtain ⟨-, hfirst, hothers⟩ := disjoint_cons hnodup hnil present (f.released v)
  have hmarks := f.slot.name_notMem_marks hfirst present
  rw [List.nil_append] at hmarks
  have hname : f.slot.name ∉ rest.map Prod.fst := by
    rw [hrest]
    refine fun h => hothers h ?_
    rw [List.nil_append, Slot.map_fst_entries]
    exact List.mem_append_right _ (List.mem_singleton_self _)
  rw [releasedAll, Slot.entries, List.map_append, List.map_append, map_of_notMem _ hmarks,
    map_of_notMem _ hname, List.map_singleton, if_pos rfl]
  exact releasedAll_append hothers rest

mutual

/-- Releasing a field leaves its attributes, with what is left of the value. -/
theorem turns_release (store : Store) : (f : Field) → f.Regular →
    ∀ (pre post : List (String × Value)) (present : Bool) (v : Value),
    f.slot.names.Disjoint (pre.map Prod.fst) → f.LaidOut v →
      Turns f.release store (.record (pre ++ f.slot.entries present v ++ post))
        (.record (pre ++ f.slot.entries present (f.released v) ++ post))
  | scalar slot type default, _, pre, post, present, v, hpre, _ => by
    rw [released]
    split_ifs with htype
    · subst htype
      exact slot.turns_setAttribute hpre .null store
    · cases type with
      | string => exact absurd rfl htype
      | _ => exact turns_pure store _
  | nested slot fields, hf, pre, post, present, v, hpre, hv => by
    obtain ⟨attributes, rfl, hlaid⟩ := hv
    have hvalue : (Value.record (pre ++ (nested slot fields).slot.entries present
        (.record attributes) ++ post)).attributeOrNull slot.name = .record attributes :=
      congrArg (fun v : Option Value => v.getD .null) (slot.attribute?_name hpre)
    refine (reads_valueOrNull slot.name store _).turns ?_
    rw [hvalue]
    exact slot.leaves_within hpre (turns_releaseAll store fields hf.2 hf.1 [] attributes
      (List.disjoint_nil_right _) hlaid).leaves
  | array _ _, hf, _, _, _, _, _, _ => hf.elim
  | custom _ _, hf, _, _, _, _, _, _ => hf.elim

/-- Releasing fields leaves what is left of their attributes. -/
theorem turns_releaseAll (store : Store) : (fields : List Field) → AllRegular fields →
    (names fields).Nodup → ∀ pre attributes : List (String × Value),
    (names fields).Disjoint (pre.map Prod.fst) → AllLaidOut fields attributes →
      Turns (releaseAll fields) store (.record (pre ++ attributes))
        (.record (pre ++ releasedAll fields attributes))
  | [], _, _, _, _, _, _ => turns_pure store _
  | f :: fields, hfields, hnodup, pre, attributes, hpre, hlaid => by
    obtain ⟨hf, hfields⟩ := hfields
    obtain ⟨present, v, rest, rfl, hv, hlaid⟩ := hlaid
    rw [releasedAll_entries_append hnodup hlaid.map_fst]
    obtain ⟨hnodup, hfirst, hpre⟩ := disjoint_cons hnodup hpre present (f.released v)
    have hrelease := turns_release store f hf pre rest present v hfirst hv
    have hrest := turns_releaseAll store fields hfields hnodup _ rest hpre hlaid
    rw [← List.append_assoc, ← List.append_assoc]
    exact hrelease.seq hrest

end

end Field

end PropertyList

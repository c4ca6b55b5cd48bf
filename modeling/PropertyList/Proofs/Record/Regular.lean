import Mathlib.Data.List.Nodup
import PropertyList.Proofs.Record.Attributes
import PropertyList.Record.Decode

/-!
# Regular fields

Fields are *regular* if they are scalars and records of regular fields, whose attributes differ from
one another within each record and whose initial values fit. What decoding comes to can be said for
them field by field: which objects a field takes, and what its attribute holds for an object under
its key or for none. A property of a regular field holds if it holds of scalars, and of records as
soon as it holds of their fields.

Regular fields can give a record its initial values.

## Main definitions

* `Field.Regular`
* `Field.Takes`, `Field.AllAccept`, when decoding succeeds
* `Field.Holds`, `Field.AllHold`, what comes of it
* `Field.value`, `Field.attributes`, the same computed

## Main results

* `Field.regular_induction`
* `Field.turns_initialise`, `Field.turns_initialiseAll`
-/

namespace PropertyList

open SessionM

/-! ### Regular fields -/

/-- Whether a value is an initial value for a scalar. That of a `charbuf` is null or a text that
fits its buffer. -/
def ScalarType.Admits : ScalarType → Value → Prop
  | charbuf _, .null => True
  | charbuf length, .text t => t.encode.length + 1 ≤ length
  | charbuf _, _ => False
  | _, _ => True

/-- The value that the attribute of a scalar has if its key is absent. A `charbuf` is empty then,
unless its field says otherwise. -/
def ScalarType.initial : ScalarType → Value → Value
  | charbuf _, .null => .text []
  | _, default => default

/-- The attributes of a record, in the order in which they have been made. -/
def Value.names? : Value → Option (List String)
  | record attributes => some (attributes.map Prod.fst)
  | _ => none

/-- The object under a key of a dictionary, if there are such a dictionary and such a key. -/
def Heap.entry? (h : Heap) (dict : Option ObjectId) (key : Text) : Option ObjectId :=
  dict.bind fun dict => (h.dict? dict).bind (·.find? key)

namespace Field

/-- The attributes of fields. -/
def names (fields : List Field) : List String :=
  fields.flatMap fun f => f.slot.names

mutual

/-- Scalars that admit their initial values, and records of such fields with attributes of their
own. -/
def Regular : Field → Prop
  | scalar _ type default => type.Admits default
  | nested _ fields => (names fields).Nodup ∧ AllRegular fields
  | array _ _ => False
  | custom _ _ => False

/-- Fields that are regular. -/
def AllRegular : List Field → Prop
  | [] => True
  | f :: fields => f.Regular ∧ AllRegular fields

end

mutual

/-- Whether an object stands for a value of a field: a string for one of the type of a scalar, and a
dictionary that the fields of a record accept for a record. -/
def Takes (h : Heap) (id : ObjectId) : Field → Prop
  | scalar _ type _ => ∃ v, Scalar.decode type h id = .ok v
  | nested _ fields => h.kind id = .dict ∧ AllAccept h id fields
  | array _ _ => False
  | custom _ _ => False

/-- Whether fields accept a dictionary: each key that is required is there, and what is there stands
for a value of its field. -/
def AllAccept (h : Heap) (dict : ObjectId) : List Field → Prop
  | [] => True
  | f :: fields =>
    ((f.slot.required = true → (h.entry? (some dict) f.slot.key).isSome = true) ∧
      ∀ id, h.entry? (some dict) f.slot.key = some id → f.Takes h id) ∧
    AllAccept h dict fields

end

mutual

/-- Whether a value is what decoding makes of an object under the key of a field, or of none: the
value of a scalar or its initial value, and a record with the attributes of its fields and no
others. -/
def Holds (h : Heap) (source : Option ObjectId) : Field → Value → Prop
  | scalar _ type default, v =>
    match source with
    | some id => Scalar.decode type h id = .ok v
    | none => v = type.initial default
  | nested _ fields, v => v.names? = some (names fields) ∧ AllHold h source fields v
  | array _ _, _ => False
  | custom _ _, _ => False

/-- Whether the attributes of fields have what decoding makes of the objects under their keys in a
dictionary, or without one, and marks for the keys that are there. -/
def AllHold (h : Heap) (dict : Option ObjectId) : List Field → Value → Prop
  | [], _ => True
  | f :: fields, record =>
    (∃ v, record.attribute? f.slot.name = some v ∧ f.Holds h (h.entry? dict f.slot.key) v) ∧
    (∀ tracker, f.slot.tracker? = some tracker →
      record.attribute? tracker = some (.bool (h.entry? dict f.slot.key).isSome)) ∧
    AllHold h dict fields record

end

mutual

/-- The value that an attribute has after decoding, for a field whose key has the object `source`,
or is absent. -/
def value (h : Heap) (source : Option ObjectId) : Field → Value
  | scalar _ type default =>
    match source with
    | some id => (Scalar.decode type h id).toOption.getD .null
    | none => type.initial default
  | nested _ fields => .record (attributes h source fields)
  | array _ _ => .null
  | custom _ _ => .null

/-- The attributes of a record after decoding a dictionary, or without one. -/
def attributes (h : Heap) (dict : Option ObjectId) : List Field → List (String × Value)
  | [] => []
  | f :: fields =>
    f.slot.entries (h.entry? dict f.slot.key).isSome (f.value h (h.entry? dict f.slot.key))
      ++ attributes h dict fields

end

theorem map_fst_attributes (h : Heap) (dict : Option ObjectId) (fields : List Field) :
    (attributes h dict fields).map Prod.fst = names fields := by
  induction fields with
  | nil => rfl
  | cons f fields ih =>
    rw [attributes, List.map_append, Slot.map_fst_entries, ih]
    rfl

/-- Names that differ from one another and from others do so one field at a time. -/
theorem disjoint_cons {f : Field} {fields : List Field} {pre : List (String × Value)}
    (hnodup : (names (f :: fields)).Nodup)
    (hpre : (names (f :: fields)).Disjoint (pre.map Prod.fst)) (present : Bool) (value : Value) :
    (names fields).Nodup ∧ f.slot.names.Disjoint (pre.map Prod.fst) ∧
      (names fields).Disjoint ((pre ++ f.slot.entries present value).map Prod.fst) := by
  rw [names, List.flatMap_cons] at hnodup hpre
  obtain ⟨hfirst, hrest⟩ := List.disjoint_append_left.1 hpre
  refine ⟨hnodup.of_append_right, hfirst, ?_⟩
  rw [List.map_append, Slot.map_fst_entries, List.disjoint_append_right]
  exact ⟨hrest, fun _ hrest hfirst => List.disjoint_of_nodup_append hnodup hfirst hrest⟩

theorem allRegular_iff {fields : List Field} : AllRegular fields ↔ ∀ f ∈ fields, f.Regular := by
  induction fields with
  | nil => simp [AllRegular]
  | cons f fields ih => rw [AllRegular, List.forall_mem_cons, ih]

/-- Whether a field accepts a dictionary. -/
def Accepts (h : Heap) (dict : ObjectId) (f : Field) : Prop :=
  (f.slot.required = true → (h.entry? (some dict) f.slot.key).isSome = true) ∧
    ∀ id, h.entry? (some dict) f.slot.key = some id → f.Takes h id

theorem accepts_of_none {h : Heap} {dict : ObjectId} {f : Field}
    (hentry : h.entry? (some dict) f.slot.key = none) :
    f.Accepts h dict ↔ f.slot.required = false := by
  simp [Accepts, hentry]

theorem accepts_of_some {h : Heap} {dict id : ObjectId} {f : Field}
    (hentry : h.entry? (some dict) f.slot.key = some id) : f.Accepts h dict ↔ f.Takes h id := by
  simp [Accepts, hentry]

theorem allAccept_cons {h : Heap} {dict : ObjectId} {f : Field} {fields : List Field} :
    AllAccept h dict (f :: fields) ↔ f.Accepts h dict ∧ AllAccept h dict fields :=
  Iff.rfl

theorem allAccept_iff {h : Heap} {dict : ObjectId} {fields : List Field} :
    AllAccept h dict fields ↔ ∀ f ∈ fields, f.Accepts h dict := by
  induction fields with
  | nil => simp [AllAccept]
  | cons f fields ih => rw [allAccept_cons, List.forall_mem_cons, ih]

/-- Induction over regular fields: a record may assume the statement of all its fields. -/
@[elab_as_elim]
theorem regular_induction {motive : (f : Field) → f.Regular → Prop}
    (scalar : ∀ slot type default hadmits, motive (scalar slot type default) hadmits)
    (nested : ∀ slot fields (hnodup : (names fields).Nodup) (hfields : AllRegular fields),
      (∀ f (hf : f ∈ fields), motive f (allRegular_iff.1 hfields f hf)) →
        motive (nested slot fields) ⟨hnodup, hfields⟩)
    (f : Field) (hf : f.Regular) : motive f hf :=
  @Field.rec (fun f => ∀ hf, motive f hf) (fun fields => ∀ f ∈ fields, ∀ hf, motive f hf) scalar
    (fun slot fields ih hf => nested slot fields hf.1 hf.2 fun g hg => ih g hg _)
    (fun _ _ hf => hf.elim) (fun _ _ hf => hf.elim) (fun _ hf => absurd hf List.not_mem_nil)
    (fun _ _ ihf ih => List.forall_mem_cons.2 ⟨ihf, ih⟩) f hf

/-! ### Initial values -/

theorem turns_initialiseScalar {slot : Slot} {type : ScalarType} {default : Value}
    (hadmits : type.Admits default) {pre : List (String × Value)}
    (hpre : slot.names.Disjoint (pre.map Prod.fst)) (store : Store) :
    Turns (initialiseScalar slot type default) store (.record (pre ++ slot.marks false))
      (.record (pre ++ slot.entries false (type.initial default))) := by
  have hturns (value : Value) : Turns (setAttribute slot.name value) store
      (.record (pre ++ slot.marks false)) (.record (pre ++ slot.entries false value)) :=
    slot.turns_setAttribute_new hpre value store
  cases type with
  | charbuf length =>
    cases default with
    | null =>
      have hnull : ((Value.record (pre ++ slot.marks false)).attributeOrNull slot.name).isNull := by
        rw [Value.attributeOrNull, Value.attribute?,
          lookup_of_notMem (slot.name_notMem_marks hpre false)]
        rfl
      refine (reads_valueOrNull slot.name store _).turns ?_
      rw [if_pos hnull]
      exact hturns _
    | text t =>
      have hlength : Scalar.checkLength length t = .ok () :=
        if_neg (Int.not_lt.2 hadmits)
      rw [initialiseScalar]
      simp only [hlength, Except.mapError]
      exact hturns _
    | _ => exact hadmits.elim
  | _ => exact hturns default

mutual

/-- A regular field gives its attributes their initial values. -/
theorem turns_initialise (store : Store) : (f : Field) → f.Regular →
    ∀ pre : List (String × Value), f.slot.names.Disjoint (pre.map Prod.fst) →
      Turns f.initialise store (.record pre)
        (.record (pre ++ f.slot.entries false (f.value store.heap none)))
  | scalar slot type default, hf, pre, hpre =>
    (slot.turns_mark_new hpre false store).seq (turns_initialiseScalar hf hpre store)
  | nested slot fields, hf, pre, hpre => by
    have hinner : Turns (initialiseAll fields) store .emptyRecord
        (.record (attributes store.heap none fields)) :=
      turns_initialiseAll store fields hf.2 hf.1 [] (List.disjoint_nil_right _)
    have hwithin : Turns (within slot.name .emptyRecord (initialiseAll fields)) store
        (.record (pre ++ slot.entries false .emptyRecord ++ []))
        (.record (pre ++ slot.entries false (.record (attributes store.heap none fields)) ++ [])) :=
      slot.leaves_within hpre hinner.leaves
    rw [List.append_nil, List.append_nil] at hwithin
    refine (slot.turns_mark_new hpre false store).seq ?_
    refine Turns.seq (fun calls => ⟨calls ++ [.create], rfl⟩) ?_
    exact (slot.turns_setAttribute_new hpre .emptyRecord store).seq hwithin
  | array _ _, hf, _, _ => hf.elim
  | custom _ _, hf, _, _ => hf.elim

/-- Regular fields give their attributes their initial values. -/
theorem turns_initialiseAll (store : Store) : (fields : List Field) → AllRegular fields →
    (names fields).Nodup → ∀ pre : List (String × Value),
    (names fields).Disjoint (pre.map Prod.fst) →
      Turns (initialiseAll fields) store (.record pre)
        (.record (pre ++ attributes store.heap none fields))
  | [], _, _, pre, _ => by
    rw [attributes, List.append_nil]
    exact turns_pure store _
  | f :: fields, hfields, hnodup, pre, hpre => by
    obtain ⟨hf, hfields⟩ := hfields
    obtain ⟨hnodup, hfirst, hpre⟩ := disjoint_cons hnodup hpre false (f.value store.heap none)
    have hrest := turns_initialiseAll store fields hfields hnodup _ hpre
    rw [List.append_assoc] at hrest
    exact (turns_initialise store f hf pre hfirst).seq hrest

end

end Field

end PropertyList

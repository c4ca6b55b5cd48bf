import PropertyList.Proofs.Record.Meaning
import PropertyList.Proofs.Scalar.Canonical

/-!
# Fields at every level

A property may hold of fields at every level: of the fields of a record, of the fields of the
records in it, and so on. Different keys at every level come with a descriptor. Of the attributes
that decoding makes, each can be looked up.

## Main definitions

* `Field.DistinctNames`, `Field.NoCallbacks`
* `Field.initial`, the value of an attribute whose key is absent

## Main results

* `Descriptor.ofFields_eq_error_iff` : which fields that have been declared make no descriptor.
* `Field.attribute?_attributes`, `Field.value_none`
-/

namespace PropertyList

namespace Field

/-! ### Every level -/

variable {P : Field → Prop}

theorem allEvery_iff {fields : List Field} : AllEvery P fields ↔ ∀ f ∈ fields, f.Every P := by
  induction fields with
  | nil => simp [AllEvery]
  | cons f fields ih => rw [AllEvery, List.forall_mem_cons, ih]

theorem Every.self {f : Field} (hf : f.Every P) : P f := by
  cases f with
  | nested slot fields => exact hf.1
  | _ => exact hf

mutual

theorem Every.imp {Q : Field → Prop} (h : ∀ f, P f → Q f) :
    (f : Field) → f.Every P → f.Every Q
  | scalar _ _ _, hf => h _ hf
  | nested _ fields, hf => ⟨h _ hf.1, AllEvery.imp h fields hf.2⟩
  | array _ _, hf => h _ hf
  | custom _ _, hf => h _ hf

theorem AllEvery.imp {Q : Field → Prop} (h : ∀ f, P f → Q f) :
    (fields : List Field) → AllEvery P fields → AllEvery Q fields
  | [], _ => trivial
  | f :: fields, hfields => ⟨Every.imp h f hfields.1, AllEvery.imp h fields hfields.2⟩

end

/-- No name of an enumeration stands for two numbers. -/
def DistinctNames : Field → Prop
  | scalar _ type _ => type.DistinctNames
  | nested _ _ | array _ _ | custom _ _ => True

/-- A field is a scalar or a record, and nothing is left to callbacks. -/
def NoCallbacks : Field → Prop
  | scalar _ _ _ | nested _ _ => True
  | array _ _ | custom _ _ => False

theorem every_noCallbacks (f : Field) (hf : f.Regular) : f.Every NoCallbacks := by
  induction f, hf using regular_induction with
  | scalar slot type default _ => exact trivial
  | nested slot fields _ _ ih => exact ⟨trivial, allEvery_iff.2 ih⟩

/-! ### Attributes -/

/-- The value of an attribute whose key is absent. -/
def initial (f : Field) : Value :=
  f.value .empty none

/-- Each attribute can be looked up, and so can the mark of each key. -/
theorem attribute?_attributes (h : Heap) (dict : Option ObjectId) {fields : List Field}
    (hnodup : (names fields).Nodup) (pre : List (String × Value))
    (hpre : (names fields).Disjoint (pre.map Prod.fst)) :
    ∀ f ∈ fields,
      (Value.record (pre ++ attributes h dict fields)).attribute? f.slot.name =
          some (f.value h (h.entry? dict f.slot.key)) ∧
        ∀ tracker, f.slot.tracker? = some tracker →
          (Value.record (pre ++ attributes h dict fields)).attribute? tracker =
            some (.bool (h.entry? dict f.slot.key).isSome) := by
  induction fields generalizing pre with
  | nil => exact fun f hf => absurd hf List.not_mem_nil
  | cons f fields ih =>
    obtain ⟨hrest, hfirst, hpre⟩ := disjoint_cons hnodup hpre (h.entry? dict f.slot.key).isSome
      (f.value h (h.entry? dict f.slot.key))
    rw [attributes, ← List.append_assoc]
    exact List.forall_mem_cons.2 ⟨⟨f.slot.attribute?_name hfirst, fun tracker htracker =>
      f.slot.attribute?_tracker hfirst htracker⟩, ih hrest _ hpre⟩

/-- Records are the same if the same keys are there and the attributes have the same values. -/
theorem attributes_congr {h h' : Heap} {dict dict' : Option ObjectId} {fields : List Field}
    (hsame : ∀ f ∈ fields,
      (h.entry? dict f.slot.key).isSome = (h'.entry? dict' f.slot.key).isSome ∧
        f.value h (h.entry? dict f.slot.key) = f.value h' (h'.entry? dict' f.slot.key)) :
    attributes h dict fields = attributes h' dict' fields := by
  induction fields with
  | nil => rfl
  | cons f fields ih =>
    obtain ⟨⟨hpresent, hvalue⟩, hrest⟩ := List.forall_mem_cons.1 hsame
    rw [attributes, attributes, hpresent, hvalue, ih hrest]

/-- The heap plays no part in the value of an attribute whose key is absent. -/
theorem value_none (h : Heap) (f : Field) (hf : f.Regular) : f.value h none = f.initial := by
  induction f, hf using regular_induction with
  | scalar slot type default _ => rfl
  | nested slot fields _ _ ih =>
    exact congrArg Value.record (attributes_congr fun f hf => ⟨rfl, ih f hf⟩)

end Field

/-! ### Fields of descriptors -/

/-- The records in a field that has been declared have their fields from descriptors. -/
theorem Declaration.distinctKeys_of_field {declaration : Declaration} {f : Field}
    (h : declaration.field = .ok f) : f.Every Field.DistinctKeys := by
  obtain ⟨type, slot, default, table, descriptor, array, custom⟩ := declaration
  unfold Declaration.field at h
  dsimp only at h
  split at h
  · cases h
  · cases type with
    | dict =>
      cases descriptor with
      | none => cases h
      | some d =>
        cases h
        exact ⟨d.nodup_keys, d.distinctKeys⟩
    | array => cases array <;> cases h; exact trivial
    | custom => cases custom <;> cases h; exact trivial
    | enum | charbuf =>
      dsimp only at h
      split_ifs at h
      cases h
      exact trivial
    | _ =>
      cases h
      exact trivial

/-- Fields that have been declared make a descriptor unless two of them have the same key. -/
theorem Descriptor.ofFields_eq_error_iff {fields : List Field}
    (hfields : ∀ f ∈ fields, ∃ declaration : Declaration, declaration.field = .ok f)
    {e : SchemaError} :
    ofFields fields = .error e ↔
      ¬ (fields.map Field.key).Nodup ∧ e = .duplicateKeys (fields.map Field.key) := by
  have hbelow : Field.AllEvery Field.DistinctKeys fields := by
    refine Field.allEvery_iff.2 fun f hf => ?_
    obtain ⟨_, hfield⟩ := hfields f hf
    exact Declaration.distinctKeys_of_field hfield
  by_cases hnodup : (fields.map Field.key).Nodup
  · rw [ofFields, dif_pos ⟨hnodup, hbelow⟩]
    exact iff_of_false nofun fun h => h.1 hnodup
  · rw [ofFields, dif_neg fun h => hnodup h.1, Except.error.injEq, eq_comm]
    exact (and_iff_right hnodup).symm

end PropertyList

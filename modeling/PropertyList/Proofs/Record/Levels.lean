import PropertyList.Proofs.Record.Fields
import PropertyList.Record.Release

/-!
# Records inside records

A record may hold further records, and an attribute at any level is found by the names that lead to
its record. The calls made for a record are kept in the same way: those made for a record in an
attribute are inside the call that leads to it. So it can be told of each attribute which of its
values have been released, apart from what callbacks do on their own account.

## Main definitions

* `Field.LiesIn`, the fields at every level with the names that lead to them
* `Value.at?`, the record at a path
* `Field.Separate`, fields with values in attributes of their own
* `Field.Filled`, `Field.AllFilled`, what holds of the values at every level
* `Call.Every`, what holds of the calls made for a record at every level
* `Call.releasedAt`, the values of an attribute that have been released

## Main results

* `Field.LiesIn.of_allFilled`
* `Call.releasedAt_append`, `Call.releasedAt_eq_nil`
-/

namespace PropertyList

/-- The value at the end of a path of attributes. -/
def Value.at? (v : Value) : List String → Option Value
  | [] => some v
  | name :: path => (v.attribute? name).bind (·.at? path)

namespace Field

/-! ### Fields -/

/-- The callback that releases a value of a field. -/
def release? : Field → Option (Value → Callback Unit)
  | scalar _ _ _ | nested _ _ => none
  | array _ handler => handler.release
  | custom _ handler => handler.release

/-- A field is one of `fields`, or of the fields of the records in these and so on. The names lead
to the record that has the attribute of the field. -/
inductive LiesIn : List Field → List String → Field → Prop
  | here {fields : List Field} {f : Field} (hf : f ∈ fields) : LiesIn fields [] f
  | inside {fields inner : List Field} {slot : Slot} {path : List String} {f : Field}
      (hnested : nested slot inner ∈ fields) (hf : LiesIn inner path f) :
      LiesIn fields (slot.name :: path) f

/-- The values of fields have attributes of their own, which are not those of marks either. -/
structure Separate (fields : List Field) : Prop where
  nodup : (fields.map fun f => f.slot.name).Nodup
  tracker_ne : ∀ f ∈ fields, ∀ g ∈ fields, f.slot.tracker? ≠ some g.slot.name

/-- The fields of a record have attributes of their own. -/
def SeparateInside : Field → Prop
  | nested _ fields => Separate fields
  | scalar _ _ _ | array _ _ | custom _ _ => True

/-- The fields of a record have attributes that differ from one another. -/
def DistinctInside : Field → Prop
  | nested _ fields => (names fields).Nodup
  | scalar _ _ _ | array _ _ | custom _ _ => True

/-- Releasing a value of a field does not fail. -/
def ReleaseSucceeds (f : Field) : Prop :=
  ∀ release, f.release? = some release →
    ∀ v trace, ∃ trace', release v trace = .ok () trace'

theorem Separate.eq_of_name_eq {fields : List Field} (h : Separate fields) {f g : Field}
    (hf : f ∈ fields) (hg : g ∈ fields) (hname : f.slot.name = g.slot.name) : f = g :=
  List.inj_on_of_nodup_map h.nodup hf hg hname

theorem Separate.of_append_left {fields more : List Field} (h : Separate (fields ++ more)) :
    Separate fields where
  nodup := (h.nodup.sublist ((List.sublist_append_left fields more).map _))
  tracker_ne f hf g hg := h.tracker_ne f (List.mem_append_left _ hf) g (List.mem_append_left _ hg)

/-- Attributes that differ from one another are attributes of their own. -/
theorem Separate.of_nodup {fields : List Field} (h : (names fields).Nodup) : Separate fields := by
  obtain ⟨-, hdisjoint⟩ := List.nodup_flatMap.1 h
  have hname (f : Field) : f.slot.name ∈ f.slot.names := f.slot.name_mem_names
  refine ⟨List.pairwise_map.2 (hdisjoint.imp fun hfg hname_eq => ?_), fun f hf g hg htracker => ?_⟩
  · exact hfg (hname _) (hname_eq ▸ hname _)
  · by_cases hfg : f = g
    · subst hfg
      exact absurd htracker f.slot.tracker?_ne_name
    · have hsymm : Std.Symm (Function.onFun List.Disjoint fun f : Field => f.slot.names) :=
        ⟨fun _ _ h => h.symm⟩
      exact hdisjoint.forall hf hg hfg (Slot.mem_names_of_tracker? htracker) (hname g)

theorem SeparateInside.of_distinct (f : Field) (h : f.DistinctInside) : f.SeparateInside := by
  cases f with
  | nested slot fields => exact .of_nodup h
  | _ => trivial

/-! ### Values at every level -/

mutual

/-- Whether `P` holds of the value of a field, if there is one or not, and of the values at the
levels below. The value of a field with fields of its own is a record if there is one. -/
def Filled (P : Field → Option Value → Prop) : Field → Option Value → Prop
  | scalar slot type default, v? => P (scalar slot type default) v?
  | nested _ fields, v? =>
    ∀ v, v? = some v → ∃ attributes, v = .record attributes ∧ AllFilled P attributes fields
  | array slot handler, v? => P (array slot handler) v?
  | custom slot handler, v? => P (custom slot handler) v?

/-- Whether `P` holds of the values that a record has for fields. -/
def AllFilled (P : Field → Option Value → Prop) (attributes : List (String × Value)) :
    List Field → Prop
  | [] => True
  | f :: fields => f.Filled P (attributes.lookup f.slot.name) ∧ AllFilled P attributes fields

end

variable {P : Field → Option Value → Prop} {attributes : List (String × Value)}
  {fields : List Field}

theorem allFilled_iff :
    AllFilled P attributes fields ↔ ∀ f ∈ fields, f.Filled P (attributes.lookup f.slot.name) := by
  induction fields with
  | nil => simp [AllFilled]
  | cons f fields ih => rw [AllFilled, List.forall_mem_cons, ih]

/-- What holds of the values at every level holds of the value of each field that lies there. -/
theorem LiesIn.of_allFilled {path : List String} {f : Field} (hf : LiesIn fields path f)
    (hnested : ∀ slot inner, f ≠ nested slot inner) (h : AllFilled P attributes fields)
    {r : Value} (hr : (Value.record attributes).at? path = some r) :
    P f (r.attribute? f.slot.name) := by
  induction hf generalizing attributes with
  | @here fields f hmem =>
    obtain rfl : Value.record attributes = r := Option.some.inj hr
    have hfilled := allFilled_iff.1 h f hmem
    cases f with
    | nested slot inner => exact absurd rfl (hnested slot inner)
    | _ => exact hfilled
  | inside hmem _ ih =>
    obtain ⟨v, hv, hr⟩ := Option.bind_eq_some_iff.1 hr
    obtain ⟨attributes', rfl, h'⟩ := allFilled_iff.1 h _ hmem v hv
    exact ih hnested h' hr

end Field

/-! ### Calls -/

namespace Call

/-- Whether a call is made for an attribute. -/
def concerns (name : String) : Call → Bool
  | create => false
  | init n _ | decode n _ | release n _ _ _ | within n _ => n == name

/-- The value that a call releases. -/
def released : Call → List Value
  | release _ v _ _ => [v]
  | create | init _ _ | decode _ _ | within _ _ => []

/-- The calls made for the record in an attribute. -/
def inside : Call → List Call
  | within _ inner => inner
  | create | init _ _ | decode _ _ | release _ _ _ _ => []

/-- The values that calls have released, one after the other, of an attribute of the record at the
end of a path. -/
def releasedAt (name : String) : List String → List Call → List Value
  | [], calls => (calls.filter (concerns name)).flatMap released
  | n :: path, calls => releasedAt name path ((calls.filter (concerns n)).flatMap inside)

theorem releasedAt_append (name : String) (path : List String) (calls more : List Call) :
    releasedAt name path (calls ++ more) =
      releasedAt name path calls ++ releasedAt name path more := by
  induction path generalizing calls more with
  | nil => simp only [releasedAt, List.filter_append, List.flatMap_append]
  | cons n path ih => simp only [releasedAt, List.filter_append, List.flatMap_append, ih]

/-- Whether `P` holds of the calls made for a record, at every level. It need not hold of what
callbacks call. -/
inductive Every (P : Call → Prop) : Call → Prop
  | self {c : Call} (hc : P c) : Every P c
  | within {name : String} {inner : List Call} (hinner : ∀ c ∈ inner, Every P c) :
      Every P (.within name inner)

/-- A call that neither releases a value nor is made for the record in an attribute. -/
def Inert (c : Call) : Prop :=
  c.released = [] ∧ c.inside = []

/-- Where no call releases a value, no value of an attribute is released. -/
theorem releasedAt_eq_nil {name : String} {path : List String} {calls : List Call}
    (h : ∀ c ∈ calls, c.Every Inert) :
    releasedAt name path calls = [] := by
  induction path generalizing calls with
  | nil =>
    refine List.flatMap_eq_nil_iff.2 fun c hc => ?_
    cases h c (List.mem_of_mem_filter hc) with
    | self hc => exact hc.1
    | within _ => rfl
  | cons n path ih =>
    refine ih fun c hc => ?_
    obtain ⟨outer, houter, hc⟩ := List.mem_flatMap.1 hc
    cases h outer (List.mem_of_mem_filter houter) with
    | self hself =>
      rw [hself.2] at hc
      exact absurd hc List.not_mem_nil
    | within hinner => exact hinner c hc

end Call

end PropertyList

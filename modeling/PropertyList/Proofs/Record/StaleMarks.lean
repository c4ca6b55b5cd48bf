import PropertyList.Proofs.Record.Course
import PropertyList.Proofs.Record.ReleaseOnce

/-!
# Marks that a failure leaves behind

A record tells which keys were there, and where decoding fails its values are released. Releasing
turns values into null and leaves the marks alone. The mark of the field that fails has been taken
back by then, and so have those of the fields around it. But the mark of every field that was
decoded before stays, though its value is gone; and where not even the initial values could be
given, so does every mark that the record had from before, of the fields behind the one at fault.

## Main definitions

* `Field.Passes`, a field that is decoded
* `Field.Unreached`, a field without an initial value
* `Descriptor.LeavesMark`, what it takes for a mark to be left behind

## Main results

* `Field.LiesIn.marked_decodeAll_iff` : the marks that decoding sets.
* `Field.LiesIn.marked_initialiseAll_iff` : the marks that giving the initial values leaves.
* `Field.LiesIn.at?_after_releaseAll` : releasing a record leaves the marks as they are.
* `Descriptor.marked_after_failure_iff`
-/

namespace PropertyList

open SessionM

namespace Field

/-- Decoding comes to a field whose key is there, and the object under it is decoded. -/
def Passes (fields : List Field) (dict : ObjectId) (s : Session) (path : List String)
    (f : Field) : Prop :=
  ∃ dict' s₁ id s₂, Comes fields dict s path f dict' s₁ ∧
    s₁.store.heap.entry? (some dict') f.slot.key = some id ∧ f.decode dict' s₁ = .ok () s₂

/-- The initial values are not given any more when it is the turn of a field, or of the field that
it lies in. -/
def Unreached (fields : List Field) (s : Session) (path : List String) (f : Field) : Prop :=
  ∃ g ∈ fields, LiesIn [g] path f ∧ ∀ s₁, ¬ Arrives initialise fields s g s₁

variable {fields : List Field} {path : List String} {f : Field} {tracker : String} {s : Session}

/-! ### One field -/

section Mark

variable {slot : Slot}

/-- A key is marked in a record. Nothing else has attributes. -/
theorem mark_cases (htracker : slot.tracker? = some tracker) (present : Bool) (s : Session) :
    (∃ s', mark slot present s = .ok () s' ∧ s'.record.attribute? tracker = some (.bool present)) ∨
    mark slot present s = .error .missingAttribute s ∧ s.record.attribute? tracker = none := by
  obtain ⟨record, store, calls⟩ := s
  rw [mark, htracker]
  cases record with
  | record attributes => exact .inl ⟨_, rfl, (lookup_setEntry ..).trans (if_pos rfl)⟩
  | _ => exact .inr ⟨rfl, rfl⟩

theorem not_marked_after_mark_false (htracker : slot.tracker? = some tracker) (s : Session) :
    (after (mark slot false) s).record.attribute? tracker ≠ some (.bool true) := by
  obtain ⟨s', hrun, hmarked⟩ | ⟨hrun, hnone⟩ := mark_cases htracker false s
  · rw [after_of_ok hrun, hmarked]
    exact fun h => by cases h
  · rw [after_of_error hrun, hnone]
    exact (Option.some_ne_none _).symm

end Mark

/-- The key of a field is not marked as present by its initial value. -/
theorem not_marked_after_initialise (htracker : f.slot.tracker? = some tracker) (s : Session) :
    (after f.initialise s).record.attribute? tracker ≠ some (.bool true) := by
  have hne : tracker ≠ f.slot.name := fun h => f.slot.tracker?_ne_name (h ▸ htracker)
  obtain ⟨rest, hrest, hspares⟩ := f.exists_initialise_eq
  rw [hrest, attribute?_after_bind fun _ => hspares tracker hne]
  exact not_marked_after_mark_false htracker s

/-- Decoding marks the key of a field as present if it is there and its object is decoded. -/
theorem marked_decode_iff (htracker : f.slot.tracker? = some tracker) (dict : ObjectId)
    (hs : s.record.attribute? tracker ≠ some (.bool true)) :
    (after (f.decode dict) s).record.attribute? tracker = some (.bool true) ↔
      ∃ id s', s.store.heap.entry? (some dict) f.slot.key = some id ∧
        f.decode dict s = .ok () s' := by
  have hne : tracker ≠ f.slot.name := fun h => f.slot.tracker?_ne_name (h ▸ htracker)
  obtain ⟨decoding, hdecode, hspares⟩ := f.exists_decode_eq dict
  rw [hdecode]
  cases hentry : s.store.heap.entry? (some dict) f.slot.key with
  | none =>
    rw [after_decodeKey_of_none hentry]
    refine iff_of_false hs ?_
    rintro ⟨_, _, ⟨⟩, -⟩
  | some id =>
    rw [after, decodeKey_of_some hentry, ← after]
    have hspared := (hspares id tracker hne).attribute?_eq s
    cases hx : decoding id s with
    | ok _ s₁ =>
      rw [after, decodeMarked_of_ok hx, ← after]
      obtain ⟨s', hrun, hmarked⟩ | ⟨hrun, hnone⟩ := mark_cases htracker true s₁
      · rw [after_of_ok hrun]
        exact iff_of_true hmarked ⟨id, s', rfl, hrun⟩
      · rw [after_of_error hrun, hnone, hrun]
        refine iff_of_false (Option.some_ne_none _).symm ?_
        rintro ⟨_, _, -, ⟨⟩⟩
    | error failure s₁ =>
      rw [after_of_error hx] at hspared
      obtain ⟨failure', s₂, hmarked, hs₂⟩ := exists_decodeMarked_of_error f.slot hx
      rw [after_of_error hmarked, hmarked]
      refine iff_of_false ?_ ?_
      · obtain rfl | rfl := hs₂
        · rwa [hspared]
        · exact not_marked_after_mark_false htracker s₁
      · rintro ⟨_, _, -, ⟨⟩⟩

/-! ### All fields -/

/-- A field of the record itself is decoded if it is come to and its object is. -/
theorem passes_nil_iff {s₁ : Session} (hnodup : fields.Nodup)
    (harrives : Arrives (decode dict) fields s f s₁) :
    Passes fields dict s [] f ↔ ∃ id s₂, s₁.store.heap.entry? (some dict) f.slot.key = some id ∧
      f.decode dict s₁ = .ok () s₂ := by
  constructor
  · rintro ⟨_, _, id, s₂, ⟨harrives'⟩, hrun⟩
    obtain rfl := harrives.unique hnodup harrives'
    exact ⟨id, s₂, hrun⟩
  · rintro ⟨id, s₂, hrun⟩
    exact ⟨dict, s₁, id, s₂, .here harrives, hrun⟩

/-- A field inside another is decoded where that one is. -/
theorem Passes.exists_of_cons {slot : Slot} {inner : List Field}
    (h : Passes fields dict s (slot.name :: path) f) (hseparate : Separate fields)
    (hmem : nested slot inner ∈ fields) :
    ∃ s₁ id held, Arrives (decode dict) fields s (nested slot inner) s₁ ∧
      s₁.store.heap.entry? (some dict) slot.key = some id ∧ s₁.store.heap.kind id = .dict ∧
      s₁.record.attribute? slot.name = some held ∧
      Passes inner id ⟨held, s₁.store, []⟩ path f := by
  obtain ⟨dict', s', id', s₂, hcomes, hrun⟩ := h
  obtain ⟨s₁, id, held, harrives, hentry, hkind, hheld, hcomes⟩ :=
    hcomes.exists_of_cons hseparate hmem
  exact ⟨s₁, id, held, harrives, hentry, hkind, hheld, dict', s', id', s₂, hcomes, hrun⟩

theorem passes_cons_iff {slot : Slot} {inner : List Field} {s₁ : Session} {id : ObjectId}
    {held : Value} (hseparate : Separate fields)
    (harrives : Arrives (decode dict) fields s (nested slot inner) s₁)
    (hentry : s₁.store.heap.entry? (some dict) slot.key = some id)
    (hkind : s₁.store.heap.kind id = .dict) (hheld : s₁.record.attribute? slot.name = some held) :
    Passes fields dict s (slot.name :: path) f ↔ Passes inner id ⟨held, s₁.store, []⟩ path f := by
  constructor
  · intro h
    obtain ⟨_, _, _, harrives', hentry', -, hheld', hinner⟩ :=
      h.exists_of_cons hseparate harrives.mem
    obtain rfl := harrives.unique hseparate.fields_nodup harrives'
    obtain rfl := Option.some.inj (hentry.symm.trans hentry')
    obtain rfl := Option.some.inj (hheld.symm.trans hheld')
    exact hinner
  · rintro ⟨dict', s', id', s₂, hcomes, hrun⟩
    exact ⟨dict', s', id', s₂, .inside harrives hentry hkind hheld hcomes, hrun⟩

/-- **The marks of decoding.** Where the key of a field was not marked as present, it is so after
decoding if and only if the field has been decoded. -/
theorem LiesIn.marked_decodeAll_iff (hf : LiesIn fields path f)
    (htracker : f.slot.tracker? = some tracker) (hnodup : (names fields).Nodup)
    (hdistinct : AllEvery DistinctInside fields) (dict : ObjectId)
    (hs : s.record.at? (path ++ [tracker]) ≠ some (.bool true)) :
    (after (decodeAll dict fields) s).record.at? (path ++ [tracker]) = some (.bool true) ↔
      Passes fields dict s path f := by
  induction hf generalizing dict s with
  | @here fields f hmem =>
    have hexclusive := exclusive_of_nodup hnodup hmem (Slot.mem_names_of_tracker? htracker)
    have hfields := (Separate.of_nodup hnodup).fields_nodup
    rw [List.nil_append, Value.at?_singleton] at hs ⊢
    rw [decodeAll_eq_each]
    obtain ⟨s₁, harrives, hstart, hend⟩ | ⟨hnever, hend⟩ :=
      arrives_or_not (s := s) (fun g => spares_decode dict g) hfields hexclusive hmem
    · rw [hend, marked_decode_iff htracker dict (hstart ▸ hs), passes_nil_iff hfields harrives]
    · rw [hend]
      refine iff_of_false hs ?_
      rintro ⟨_, s₁, _, _, ⟨harrives⟩, -⟩
      exact hnever s₁ harrives
  | @inside fields inner slot path f hmem _ ih =>
    have hexclusive := exclusive_of_nodup hnodup hmem slot.name_mem_names
    have hseparate := Separate.of_nodup hnodup
    have hinner := allEvery_iff.1 hdistinct _ hmem
    rw [List.cons_append, Value.at?_cons] at hs ⊢
    rw [decodeAll_eq_each]
    obtain ⟨s₁, harrives, hstart, hend⟩ | ⟨hnever, hend⟩ :=
      arrives_or_not (s := s) (fun g => spares_decode dict g) hseparate.fields_nodup hexclusive hmem
    · rw [hend]
      rw [← hstart] at hs
      obtain ⟨id, held, hentry, hkind, hheld, hvalue⟩ | ⟨hnone, hvalue⟩ :=
        decode_nested_cases slot inner dict s₁
      · rw [hheld] at hs
        rw [hvalue, passes_cons_iff hseparate harrives hentry hkind hheld]
        exact ih (s := ⟨held, s₁.store, []⟩) htracker hinner.1 hinner.2 id hs
      · rw [hvalue]
        refine iff_of_false hs fun h => ?_
        obtain ⟨_, _, _, harrives', hentry, hkind, hheld, -⟩ := h.exists_of_cons hseparate hmem
        obtain rfl := harrives.unique hseparate.fields_nodup harrives'
        cases (hnone _ hentry hkind).symm.trans hheld
    · rw [hend]
      refine iff_of_false hs fun h => ?_
      obtain ⟨s₁, _, _, harrives, -⟩ := h.exists_of_cons hseparate hmem
      exact hnever s₁ harrives

theorem unreached_nil_iff (hmem : f ∈ fields) :
    Unreached fields s [] f ↔ ∀ s₁, ¬ Arrives initialise fields s f s₁ := by
  constructor
  · rintro ⟨g, -, ⟨hg⟩, hnever⟩
    exact List.mem_singleton.1 hg ▸ hnever
  · exact fun hnever => ⟨f, hmem, .here (List.mem_singleton_self f), hnever⟩

theorem unreached_cons_iff {slot : Slot} {inner : List Field} (hseparate : Separate fields)
    (hmem : nested slot inner ∈ fields) (hf : LiesIn inner path f) :
    Unreached fields s (slot.name :: path) f ↔
      ∀ s₁, ¬ Arrives initialise fields s (nested slot inner) s₁ := by
  constructor
  · rintro ⟨g, hg, hlies, hnever⟩
    generalize hpath : slot.name :: path = p at hlies
    cases hlies with
    | here _ => cases hpath
    | inside hnested _ =>
      obtain rfl := List.mem_singleton.1 hnested
      exact hseparate.eq_of_name_eq hmem hg (List.cons.inj hpath).1 ▸ hnever
  · exact fun hnever => ⟨_, hmem, .inside (List.mem_singleton_self _) hf, hnever⟩

/-- **The marks of initial values.** After the initial values have been given, as far as that went,
a key is marked as present if and only if it was so before and no initial value was given to its
field. -/
theorem LiesIn.marked_initialiseAll_iff (hf : LiesIn fields path f)
    (htracker : f.slot.tracker? = some tracker) (hnodup : (names fields).Nodup)
    (hdistinct : AllEvery DistinctInside fields) (s : Session) :
    (after (initialiseAll fields) s).record.at? (path ++ [tracker]) = some (.bool true) ↔
      Unreached fields s path f ∧ s.record.at? (path ++ [tracker]) = some (.bool true) := by
  induction hf generalizing s with
  | @here fields f hmem =>
    have hexclusive := exclusive_of_nodup hnodup hmem (Slot.mem_names_of_tracker? htracker)
    rw [List.nil_append, Value.at?_singleton, Value.at?_singleton, initialiseAll_eq_each,
      unreached_nil_iff hmem]
    obtain ⟨s₁, harrives, -, hend⟩ | ⟨hnever, hend⟩ :=
      arrives_or_not (s := s) spares_initialise (Separate.of_nodup hnodup).fields_nodup hexclusive
        hmem
    · rw [hend]
      exact iff_of_false (not_marked_after_initialise htracker s₁) fun h => h.1 s₁ harrives
    · rw [hend]
      exact (and_iff_right hnever).symm
  | @inside fields inner slot path f hmem hf ih =>
    have hexclusive := exclusive_of_nodup hnodup hmem slot.name_mem_names
    have hseparate := Separate.of_nodup hnodup
    have hinner := allEvery_iff.1 hdistinct _ hmem
    rw [List.cons_append, Value.at?_cons, Value.at?_cons, initialiseAll_eq_each,
      unreached_cons_iff hseparate hmem hf]
    obtain ⟨s₁, harrives, -, hend⟩ | ⟨hnever, hend⟩ :=
      arrives_or_not (s := s) spares_initialise hseparate.fields_nodup hexclusive hmem
    · rw [hend]
      refine iff_of_false ?_ fun h => h.1 s₁ harrives
      obtain ⟨failure, t, hrun, hnone⟩ | ⟨start, hstart, hvalue, -⟩ :=
        initialise_nested_cases slot inner s₁
      · rw [after_of_error hrun, hnone]
        exact (Option.some_ne_none _).symm
      · -- A new record has no marks, and its initial values do not set any.
        rw [hvalue, Option.bind_some, ih htracker hinner.1 hinner.2 start, hstart]
        rintro ⟨-, h⟩
        cases (Value.at?_concat_eq_none (fun _ => rfl) path tracker).symm.trans h
    · rw [hend]
      exact (and_iff_right hnever).symm

/-- Releasing a record leaves the marks as they are, at every level. -/
theorem LiesIn.at?_after_releaseAll (hf : LiesIn fields path f)
    (htracker : f.slot.tracker? = some tracker) (hseparate : Separate fields)
    (hinside : AllEvery SeparateInside fields) (s : Session) :
    (after (releaseAll fields) s).record.at? (path ++ [tracker]) =
      s.record.at? (path ++ [tracker]) := by
  induction hf generalizing s with
  | @here fields f hmem =>
    rw [List.nil_append, Value.at?_singleton, Value.at?_singleton, releaseAll_eq_each]
    refine (spares_each fun g hg => spares_release g fun h => ?_).attribute?_eq s
    exact hseparate.tracker_ne f hmem g hg (h ▸ htracker)
  | @inside fields inner slot path f hmem hf ih =>
    have hinner := allEvery_iff.1 hinside _ hmem
    have hexclusive : Exclusive fields (nested slot inner) slot.name := hseparate.exclusive hmem
    rw [List.cons_append, Value.at?_cons, Value.at?_cons, releaseAll_eq_each]
    obtain ⟨s₁, -, hstart, hend⟩ | ⟨-, hend⟩ :=
      arrives_or_not (s := s) spares_release_of_notMem hseparate.fields_nodup hexclusive hmem
    · rw [hend, ← hstart]
      obtain ⟨v, hheld, hvalue, -⟩ | ⟨-, hvalue⟩ := release_nested_cases slot inner s₁
      · rw [hvalue, hheld]
        exact ih htracker hinner.1 hinner.2 ⟨v, s₁.store, []⟩
      · rw [hvalue]
    · rw [hend]

/-- Releasing a value leaves null in its place. -/
theorem attribute?_of_release_eq_ok (hreleased : f.release?.isSome = true ∨ f.type = .string)
    {t : Session} (hrun : f.release s = .ok () t) :
    t.record.attribute? f.slot.name = some .null := by
  have hhandled {slot : Slot} {handler : Handler} (hhandler : handler.release.isSome = true)
      (hrun : releaseHandled slot handler s = .ok () t) :
      t.record.attribute? slot.name = some .null := by
    obtain ⟨release, hrelease⟩ := Option.isSome_iff_exists.1 hhandler
    rw [releaseHandled, hrelease] at hrun
    obtain ⟨v, s₁, -, hrun⟩ := exists_of_bind_eq_ok hrun
    split at hrun
    · exact attribute?_of_setAttribute_eq_ok hrun
    · obtain ⟨_, s₂, -, hrun⟩ := exists_of_bind_eq_ok hrun
      obtain ⟨_, s₃, -, hrun⟩ := exists_of_bind_eq_ok hrun
      exact attribute?_of_setAttribute_eq_ok hrun
  cases f with
  | scalar slot type default =>
    cases type with
    | string => exact attribute?_of_setAttribute_eq_ok hrun
    | _ => rcases hreleased with h | h <;> cases h
  | nested slot inner => rcases hreleased with h | h <;> cases h
  | array slot handler => exact hhandled (hreleased.resolve_right fun h => by cases h) hrun
  | custom slot handler => exact hhandled (hreleased.resolve_right fun h => by cases h) hrun

/-- Where a record has been released, null stands in the place of a value that was released. -/
theorem LiesIn.at?_of_releaseAll_eq_ok (hf : LiesIn fields path f)
    (hreleased : f.release?.isSome = true ∨ f.type = .string) (hseparate : Separate fields)
    (hinside : AllEvery SeparateInside fields) {t : Session}
    (hrun : releaseAll fields s = .ok () t) {n : String} {w : Value}
    (hw : t.record.at? (path ++ [n]) = some w) :
    t.record.at? (path ++ [f.slot.name]) = some .null := by
  induction hf generalizing s t with
  | @here fields f hmem =>
    rw [releaseAll_eq_each] at hrun
    obtain ⟨s₁, t₁, harrives, hstep⟩ := exists_arrives_of_ok hmem hrun
    have hend := (harrives.attribute?_eq spares_release_of_notMem hseparate.fields_nodup
      (hseparate.exclusive hmem)).2
    rw [after_of_ok hrun, after_of_ok hstep] at hend
    rw [List.nil_append, Value.at?_singleton, hend]
    exact attribute?_of_release_eq_ok hreleased hstep
  | @inside fields inner slot path f hmem hf ih =>
    have hinner := allEvery_iff.1 hinside _ hmem
    have hexclusive : Exclusive fields (nested slot inner) slot.name := hseparate.exclusive hmem
    rw [releaseAll_eq_each] at hrun
    obtain ⟨s₁, t₁, harrives, hstep⟩ := exists_arrives_of_ok hmem hrun
    have hend :=
      (harrives.attribute?_eq spares_release_of_notMem hseparate.fields_nodup hexclusive).2
    rw [after_of_ok hrun] at hend
    rw [List.cons_append, Value.at?_cons, hend] at hw ⊢
    obtain ⟨v, -, hvalue, hok⟩ | ⟨hnull, hvalue⟩ := release_nested_cases slot inner s₁
    · obtain ⟨t', hrun'⟩ := hok t₁ hstep
      rw [after_of_ok hrun'] at hvalue
      rw [hvalue] at hw ⊢
      exact ih hreleased hinner.1 hinner.2 hrun' hw
    · -- Null has no attributes, so there is nothing inside it.
      rw [hvalue] at hw
      rw [Value.attributeOrNull] at hnull
      cases hheld : s₁.record.attribute? slot.name with
      | none =>
        rw [hheld] at hw
        cases hw
      | some v =>
        rw [hheld] at hw hnull
        cases v with
        | null => cases (Value.at?_concat_eq_none (fun _ => rfl) path n).symm.trans hw
        | _ => cases hnull

end Field

namespace Descriptor

variable {d : Descriptor} {dict : ObjectId} {s : Session}

/-- What it takes for a failure of decoding to leave the key of a field marked as present: the field
has been decoded. If not even the initial values could be given, the key has been marked from
before, and its field has not got its initial value. -/
def LeavesMark (d : Descriptor) (dict : ObjectId) (s : Session) (path : List String) (f : Field)
    (tracker : String) : Prop :=
  match Field.initialiseAll d.fields s with
  | .ok () s₀ => Field.Passes d.fields dict s₀ path f
  | .error _ _ =>
    Field.Unreached d.fields s path f ∧ s.record.at? (path ++ [tracker]) = some (.bool true)

/-- The marks in the record in which decoding has failed. -/
theorem marked_fill_iff (hnodup : (Field.names d.fields).Nodup)
    (hdistinct : Field.AllEvery Field.DistinctInside d.fields) {path : List String} {f : Field}
    (hf : Field.LiesIn d.fields path f) {tracker : String}
    (htracker : f.slot.tracker? = some tracker) :
    (after (d.fill dict) s).record.at? (path ++ [tracker]) = some (.bool true) ↔
      d.LeavesMark dict s path f tracker := by
  have hinitial := hf.marked_initialiseAll_iff htracker hnodup hdistinct s
  rw [LeavesMark]
  cases hrun : Field.initialiseAll d.fields s with
  | error failure s₀ =>
    rw [after_of_error hrun] at hinitial
    rw [after_of_error (show d.fill dict s = _ from bind_of_error hrun _)]
    exact hinitial
  | ok _ s₀ =>
    rw [after_of_ok hrun] at hinitial
    have hfill : d.fill dict s = Field.decodeAll dict d.fields s₀ := bind_of_ok hrun _
    rw [after, hfill, ← after]
    refine hf.marked_decodeAll_iff htracker hnodup hdistinct dict fun h => ?_
    -- Every field has got its initial value, so no key is marked as present.
    obtain ⟨⟨g, hg, -, hnever⟩, -⟩ := hinitial.1 h
    rw [Field.initialiseAll_eq_each] at hrun
    obtain ⟨s₁, -, harrives, -⟩ := Field.exists_arrives_of_ok hg hrun
    exact hnever s₁ harrives

/-- **Marks after a failure.** A dictionary is decoded into a record, whatever attributes that has
and whatever callbacks do, and decoding fails. Then the key of a field, at any level, is marked as
present if and only if the field had been decoded by then; or, if the initial values could not be
given, if its field had not got one and the key was marked before. With the mark, null stands in the
place of a string and of each value with a callback to release it, unless such a callback fails. -/
theorem marked_after_failure_iff (hnodup : (Field.names d.fields).Nodup)
    (hdistinct : Field.AllEvery Field.DistinctInside d.fields)
    (hdict : s.store.heap.kind dict = .dict) {path : List String} {f : Field}
    (hf : Field.LiesIn d.fields path f) {tracker : String}
    (htracker : f.slot.tracker? = some tracker) {fresh : Bool} {failure : Failure} {s' : Session}
    (hfail : d.decode dict fresh s = .error failure s') :
    ∃ cause reached, d.fill dict (s.opened fresh) = .error cause reached ∧
      s' = after d.release reached ∧
      (s'.record.at? (path ++ [tracker]) = some (.bool true) ↔
        d.LeavesMark dict (s.opened fresh) path f tracker) ∧
      (d.release reached = .ok () s' → f.release?.isSome = true ∨ f.type = .string →
        s'.record.at? (path ++ [tracker]) = some (.bool true) →
          s'.record.at? (path ++ [f.slot.name]) = some .null) := by
  have hseparate := Field.Separate.of_nodup hnodup
  have hinside := Field.AllEvery.imp Field.SeparateInside.of_distinct d.fields hdistinct
  rw [decode_eq_tryCatch_opened hdict] at hfail
  cases hfill : d.fill dict (s.opened fresh) with
  | ok _ given =>
    rw [tryCatch_of_ok hfill] at hfail
    cases hfail
  | error cause reached =>
    rw [tryCatch_of_error hfill] at hfail
    have hreleased : s' = after d.release reached := by
      cases hrelease : d.release reached with
      | ok _ t =>
        rw [bind_of_ok hrelease] at hfail
        cases hfail
        exact (after_of_ok hrelease).symm
      | error failure' t =>
        rw [bind_of_error hrelease] at hfail
        cases hfail
        exact (after_of_error hrelease).symm
    refine ⟨cause, reached, rfl, hreleased, ?_, fun hrelease hvalue hmarked =>
      hf.at?_of_releaseAll_eq_ok hvalue hseparate hinside hrelease hmarked⟩
    rw [hreleased, show d.release = Field.releaseAll d.fields from rfl,
      hf.at?_after_releaseAll htracker hseparate hinside reached, ← after_of_error hfill]
    exact marked_fill_iff hnodup hdistinct hf htracker

/-- A descriptor of a ware: its name and the number of pieces, which is required. -/
def ware : Descriptor where
  fields :=
    [.scalar ⟨"name", "name", some "has_name", false, 0⟩ .string .null,
      .scalar ⟨"pieces", "pieces", none, true, 0⟩ .uint64 (.int 0)]
  nodup_keys := by decide
  distinctKeys := by decide

/-- The dictionary of a ware without a number of pieces, and its part. -/
def wareHeap : Heap where
  objects := #[⟨1, .dict (Dict.empty.add "name" 1)⟩, ⟨1, .string "bolt"⟩]
  live := 2

/-- A ware is refused for its missing number of pieces. Its name has been released by then and is
marked as present. -/
theorem marked_after_failure_iff_ware :
    (Field.names ware.fields).Nodup ∧ Field.AllEvery Field.DistinctInside ware.fields ∧
    wareHeap.kind 0 = .dict ∧
    ∃ s', ware.decode 0 true ⟨.null, ⟨wareHeap, #[]⟩, []⟩ =
        .error (.decode (.missingKey "pieces") (some "pieces")) s' ∧
      s'.record.attribute? "has_name" = some (.bool true) ∧
      s'.record.attribute? "name" = some .null := by
  have hnodup : (Field.names ware.fields).Nodup := by decide
  have hdistinct : Field.AllEvery Field.DistinctInside ware.fields := ⟨trivial, trivial, trivial⟩
  have hdict : wareHeap.kind 0 = .dict := by decide
  obtain ⟨s', hfail⟩ : ∃ s', ware.decode 0 true ⟨.null, ⟨wareHeap, #[]⟩, []⟩ =
      .error (.decode (.missingKey "pieces") (some "pieces")) s' :=
    ⟨_, rfl⟩
  have hname : Field.LiesIn ware.fields []
      (.scalar ⟨"name", "name", some "has_name", false, 0⟩ .string .null) :=
    .here List.mem_cons_self
  obtain ⟨cause, reached, hfill, hreleased, hiff, hnull⟩ :=
    marked_after_failure_iff hnodup hdistinct hdict hname (show _ = some "has_name" by decide) hfail
  have hpasses : ware.LeavesMark 0 (Session.opened ⟨.null, ⟨wareHeap, #[]⟩, []⟩ true) []
      (.scalar ⟨"name", "name", some "has_name", false, 0⟩ .string .null) "has_name" :=
    ⟨0, _, 1, _, .here ⟨[], _, rfl, rfl⟩, rfl, rfl⟩
  have hmarked := hiff.2 hpasses
  have hrelease : ware.release reached = .ok () s' := by
    cases hfill
    rw [hreleased]
    rfl
  exact ⟨hnodup, hdistinct, hdict, s', hfail, (Value.at?_singleton ..).symm.trans hmarked,
    (Value.at?_singleton ..).symm.trans (hnull hrelease (.inr rfl) hmarked)⟩

end Descriptor

end PropertyList

import PropertyList.Proofs.Record.Levels

/-!
# Clearing records

Releasing a record hands the values that need it to their callbacks and leaves null in their place.
It goes over every field of the record, and of the records in it, whatever has been made of the
record before: an attribute may have no value yet, and a record may be missing. Where all is null
already nothing happens.

## Main definitions

* `Field.Cleared`, a value of which nothing is left to release
* `Field.Handed`, `Field.AllHanded`, the calls that release values

## Main results

* `Field.exists_releaseAll` : releasing a record.
* `Field.exists_releaseAll_of_cleared` : releasing it again.
* `Field.LiesIn.releasedAt_eq` : what has been released of each attribute.
-/

namespace PropertyList

open SessionM

/-- A call on the way to a record in which nothing is called back. -/
def Call.Silent (c : Call) : Prop :=
  c.Every fun _ => False

namespace Field

/-! ### What releasing does -/

/-- The values of an attribute that are to be released: the one that it has, unless it is null. -/
def toRelease (v? : Option Value) : List Value :=
  v?.toList.filter fun v => !v.isNull

/-- Null stands where a value would have to be released, and in the place of a string. -/
def Cleared (f : Field) (v? : Option Value) : Prop :=
  f.release?.isSome = true ∨ f.type = .string → v? = some .null

/-- Whether `calls` release a value with the callback of a field, if it has one. -/
def HandsOver (f : Field) (v? : Option Value) (calls : List Call) : Prop :=
  ∃ store inner, calls =
    if f.release?.isSome then (toRelease v?).map fun v => .release f.slot.name v store inner else []

theorem toRelease_of_isNull {v? : Option Value} (h : (v?.getD .null).isNull = true) :
    toRelease v? = [] := by
  cases v? with
  | none => rfl
  | some v =>
    rw [Option.getD_some] at h
    simp [toRelease, h]

theorem toRelease_of_not_isNull {v? : Option Value} (h : (v?.getD .null).isNull = false) :
    toRelease v? = [v?.getD .null] := by
  cases v? with
  | none => cases h
  | some v =>
    rw [Option.getD_some] at h
    simp [toRelease, h]

/-- The values to be released tell which value an attribute has, where none is as good as null. -/
theorem toRelease_inj {v? w? : Option Value} :
    toRelease v? = toRelease w? ↔ v?.getD .null = w?.getD .null := by
  have hnull {v : Value} (h : v.isNull = true) : v = .null := by
    cases v with
    | null => rfl
    | _ => cases h
  constructor
  · intro h
    cases hv : (v?.getD .null).isNull <;> cases hw : (w?.getD .null).isNull
    · rw [toRelease_of_not_isNull hv, toRelease_of_not_isNull hw] at h
      exact List.singleton_inj.1 h
    · rw [toRelease_of_not_isNull hv, toRelease_of_isNull hw] at h
      cases h
    · rw [toRelease_of_isNull hv, toRelease_of_not_isNull hw] at h
      cases h
    · rw [hnull hv, hnull hw]
  · intro h
    cases hv : (v?.getD .null).isNull with
    | true => rw [toRelease_of_isNull hv, toRelease_of_isNull (h ▸ hv)]
    | false => rw [toRelease_of_not_isNull hv, toRelease_of_not_isNull (h ▸ hv), h]

mutual

/-- Whether `calls` release the value of a field, with `v?` the value before and `v'?` the one
after. -/
def Handed : Field → (v? v'? : Option Value) → (calls : List Call) → Prop
  | scalar slot type default, v?, _, calls => (scalar slot type default).HandsOver v? calls
  | nested slot fields, v?, v'?, calls =>
    v? = none ∧ v'? = none ∧ calls = [] ∨
      ∃ attributes attributes' inner, v? = some (.record attributes) ∧
        v'? = some (.record attributes') ∧ calls = [.within slot.name inner] ∧
        AllHanded attributes attributes' fields inner
  | array slot handler, v?, _, calls => (array slot handler).HandsOver v? calls
  | custom slot handler, v?, _, calls => (custom slot handler).HandsOver v? calls

/-- Whether `calls` release the values of fields, one field after the other. -/
def AllHanded (attributes attributes' : List (String × Value)) : List Field → List Call → Prop
  | [], calls => calls = []
  | f :: fields, calls =>
    ∃ own rest, calls = own ++ rest ∧
      f.Handed (attributes.lookup f.slot.name) (attributes'.lookup f.slot.name) own ∧
      AllHanded attributes attributes' fields rest

end

/-- The values before are those of the fields. -/
theorem AllHanded.congr {attributes attributes₁ attributes' : List (String × Value)}
    {fields : List Field} {calls : List Call} (h : AllHanded attributes₁ attributes' fields calls)
    (hsame : ∀ f ∈ fields, attributes₁.lookup f.slot.name = attributes.lookup f.slot.name) :
    AllHanded attributes attributes' fields calls := by
  induction fields generalizing calls with
  | nil => exact h
  | cons f fields ih =>
    obtain ⟨hf, hfields⟩ := List.forall_mem_cons.1 hsame
    obtain ⟨own, rest, rfl, hown, hrest⟩ := h
    exact ⟨own, rest, rfl, hf ▸ hown, ih hrest hfields⟩

/-! ### Releasing -/

section Runs

variable {attributes : List (String × Value)} {store : Store} {calls : List Call}

theorem run_valueOrNull {name : String} {v : Value}
    (hv : (attributes.lookup name).getD .null = v) :
    valueOrNull name ⟨.record attributes, store, calls⟩ =
      .ok v ⟨.record attributes, store, calls⟩ := by
  rw [← hv]
  rfl

/-- Giving an attribute the value that it has changes nothing. -/
theorem run_setAttribute_self {name : String} {v : Value} (hv : attributes.lookup name = some v) :
    setAttribute name v ⟨.record attributes, store, calls⟩ =
      .ok () ⟨.record attributes, store, calls⟩ := by
  have hrun : setAttribute name v ⟨.record attributes, store, calls⟩ =
      .ok () ⟨.record (setEntry name v attributes), store, calls⟩ := rfl
  rwa [setEntry_eq_self hv] at hrun

theorem run_call {note : List Call → Call} {callback : Callback Unit} {trace : Trace}
    (hrun : callback ⟨store, []⟩ = .ok () trace) :
    call note callback ⟨.record attributes, store, calls⟩ =
      .ok () ⟨.record attributes, trace.store, calls ++ [note trace.calls]⟩ := by
  simp only [call, hrun]

/-- Nothing is done for a record that is missing. -/
theorem release_nested_of_none {slot : Slot} (inner : List Field)
    (hlookup : attributes.lookup slot.name = none) :
    (nested slot inner).release ⟨.record attributes, store, calls⟩ =
      .ok () ⟨.record attributes, store, calls⟩ := by
  have hnull : (attributes.lookup slot.name).getD .null = .null := by rw [hlookup]; rfl
  exact bind_of_ok (run_valueOrNull hnull) _

/-- A record in an attribute is released, and what is left of it stays in the attribute. -/
theorem release_nested_of_record {slot : Slot} {inner : List Field}
    {held left : List (String × Value)} {store' : Store} {called : List Call}
    (hlookup : attributes.lookup slot.name = some (.record held))
    (hinner : releaseAll inner ⟨.record held, store, []⟩ = .ok () ⟨.record left, store', called⟩) :
    (nested slot inner).release ⟨.record attributes, store, calls⟩ =
      .ok () ⟨.record (setEntry slot.name (.record left) attributes), store',
        calls ++ [.within slot.name called]⟩ := by
  have hv : (attributes.lookup slot.name).getD .null = .record held := by rw [hlookup]; rfl
  have hwithin : within slot.name (.record held) (releaseAll inner)
      ⟨.record attributes, store, calls⟩ =
        .ok () ⟨.record (setEntry slot.name (.record left) attributes), store',
          calls ++ [.within slot.name called]⟩ := by
    simp only [within, hinner]
    rfl
  exact (bind_of_ok (run_valueOrNull hv) _).trans hwithin

/-- Releasing a value with callbacks hands it over, unless it is null, and leaves null. -/
theorem exists_releaseHandled {f : Field} {handler : Handler}
    (hhandler : f.release? = handler.release) (htype : f.type ≠ .string)
    (hsucceeds : f.ReleaseSucceeds) :
    ∃ attributes' store' own,
      releaseHandled f.slot handler ⟨.record attributes, store, calls⟩ =
        .ok () ⟨.record attributes', store', calls ++ own⟩ ∧
      f.HandsOver (attributes.lookup f.slot.name) own ∧
      f.Cleared (attributes'.lookup f.slot.name) ∧
      ∀ n ≠ f.slot.name, attributes'.lookup n = attributes.lookup n := by
  cases hrelease : handler.release with
  | none =>
    rw [hrelease] at hhandler
    refine ⟨attributes, store, [], ?_, ⟨store, [], ?_⟩, ?_, fun _ _ => rfl⟩
    · rw [releaseHandled, hrelease, List.append_nil]
      rfl
    · rw [hhandler]
      rfl
    · rintro (h | h)
      · rw [hhandler] at h
        cases h
      · exact absurd h htype
  | some release =>
    rw [hrelease] at hhandler
    have hcleared : f.Cleared ((setEntry f.slot.name .null attributes).lookup f.slot.name) := by
      intro _
      rw [lookup_setEntry, if_pos rfl]
    have hothers (n : String) (hn : n ≠ f.slot.name) :
        (setEntry f.slot.name .null attributes).lookup n = attributes.lookup n := by
      rw [lookup_setEntry, if_neg hn]
    obtain ⟨v, hv⟩ : ∃ v, (attributes.lookup f.slot.name).getD .null = v := ⟨_, rfl⟩
    rw [releaseHandled, hrelease]
    cases hnull : v.isNull with
    | true =>
      refine ⟨_, store, [], ?_, ⟨store, [], ?_⟩, hcleared, hothers⟩
      · refine (bind_of_ok (run_valueOrNull hv) _).trans ?_
        rw [hnull, List.append_nil]
        rfl
      · rw [hhandler, toRelease_of_isNull (hv ▸ hnull)]
        rfl
    | false =>
      obtain ⟨trace, hrun⟩ := hsucceeds release hhandler v ⟨store, []⟩
      refine ⟨_, trace.store, [.release f.slot.name v store trace.calls],
        (bind_of_ok (run_valueOrNull hv) _).trans ?_, ⟨store, trace.calls, ?_⟩, hcleared, hothers⟩
      · rw [hnull]
        exact bind_of_ok (run_call hrun) _
      · rw [hhandler, toRelease_of_not_isNull (hv ▸ hnull), hv]
        rfl

end Runs

mutual

/-- **Releasing a field.** Whatever value there is, it is released and cleared, and the other
attributes stay as they are. -/
theorem exists_release : (f : Field) → f.Every SeparateInside → f.Every ReleaseSucceeds →
    ∀ {attributes : List (String × Value)} (store : Store) (calls : List Call),
    f.Filled (fun _ _ => True) (attributes.lookup f.slot.name) →
      ∃ attributes' store' own,
        f.release ⟨.record attributes, store, calls⟩ =
          .ok () ⟨.record attributes', store', calls ++ own⟩ ∧
        f.Handed (attributes.lookup f.slot.name) (attributes'.lookup f.slot.name) own ∧
        f.Filled Cleared (attributes'.lookup f.slot.name) ∧
        ∀ n ≠ f.slot.name, attributes'.lookup n = attributes.lookup n
  | scalar slot type default, _, _, attributes, store, calls, _ => by
    cases type with
    | string =>
      refine ⟨setEntry slot.name .null attributes, store, [], ?_, ⟨store, [], rfl⟩, fun _ => ?_,
        fun n hn => ?_⟩
      · rw [List.append_nil]
        rfl
      · exact (lookup_setEntry ..).trans (if_pos rfl)
      · exact (lookup_setEntry ..).trans (if_neg hn)
    | _ =>
      refine ⟨attributes, store, [], ?_, ⟨store, [], rfl⟩, ?_, fun _ _ => rfl⟩
      · rw [List.append_nil]
        rfl
      · rintro (h | h) <;> cases h
  | nested slot inner, hinside, hsucceeds, attributes, store, calls, hshaped => by
    cases hlookup : attributes.lookup slot.name with
    | none =>
      have hnone : (nested slot inner).Filled Cleared (attributes.lookup slot.name) := by
        rw [hlookup]
        exact nofun
      refine ⟨attributes, store, [], ?_, .inl ⟨hlookup, hlookup, rfl⟩, hnone, fun _ _ => rfl⟩
      rw [List.append_nil]
      exact release_nested_of_none inner hlookup
    | some v =>
      obtain ⟨held, rfl, hheld⟩ := hshaped v hlookup
      obtain ⟨left, store', called, hrun, hhanded, hcleared, -⟩ :=
        exists_releaseAll inner hinside.1.nodup hinside.2 hsucceeds.2 store [] hheld
      have hself : (setEntry slot.name (.record left) attributes).lookup slot.name =
          some (.record left) := by
        rw [lookup_setEntry, if_pos rfl]
      refine ⟨setEntry slot.name (.record left) attributes, store', [.within slot.name called],
        release_nested_of_record hlookup hrun,
        .inr ⟨held, left, called, hlookup, hself, rfl, hhanded⟩, ?_, fun n hn => ?_⟩
      · rintro w hw
        obtain rfl : Value.record left = w := Option.some.inj (hself.symm.trans hw)
        exact ⟨left, rfl, hcleared⟩
      · exact (lookup_setEntry ..).trans (if_neg hn)
  | array slot handler, _, hsucceeds, _, _, _, _ =>
    exists_releaseHandled (f := array slot handler) rfl nofun hsucceeds
  | custom slot handler, _, hsucceeds, _, _, _, _ =>
    exists_releaseHandled (f := custom slot handler) rfl nofun hsucceeds

/-- **Releasing fields.** -/
theorem exists_releaseAll : (fields : List Field) → (fields.map fun f => f.slot.name).Nodup →
    AllEvery SeparateInside fields → AllEvery ReleaseSucceeds fields →
    ∀ {attributes : List (String × Value)} (store : Store) (calls : List Call),
    AllFilled (fun _ _ => True) attributes fields →
      ∃ attributes' store' own,
        releaseAll fields ⟨.record attributes, store, calls⟩ =
          .ok () ⟨.record attributes', store', calls ++ own⟩ ∧
        AllHanded attributes attributes' fields own ∧ AllFilled Cleared attributes' fields ∧
        ∀ n, n ∉ fields.map (fun f => f.slot.name) → attributes'.lookup n = attributes.lookup n
  | [], _, _, _, attributes, store, calls, _ =>
    ⟨attributes, store, [], by rw [List.append_nil]; rfl, rfl, trivial, fun _ _ => rfl⟩
  | f :: fields, hnodup, hinside, hsucceeds, attributes, store, calls, hshaped => by
    rw [List.map_cons, List.nodup_cons] at hnodup
    obtain ⟨attributes₁, store₁, own, hrun, hhanded, hcleared, hframe⟩ :=
      exists_release f hinside.1 hsucceeds.1 store calls hshaped.1
    -- The names differ, so neither step sees what the other has changed.
    have hrest (g : Field) (hg : g ∈ fields) :
        attributes₁.lookup g.slot.name = attributes.lookup g.slot.name :=
      hframe _ fun h => hnodup.1 (h ▸ List.mem_map_of_mem hg)
    have hshaped₁ : AllFilled (fun _ _ => True) attributes₁ fields :=
      allFilled_iff.2 fun g hg => hrest g hg ▸ allFilled_iff.1 hshaped.2 g hg
    obtain ⟨attributes', store', rest, hrun', hhanded', hcleared', hframe'⟩ :=
      exists_releaseAll fields hnodup.2 hinside.2 hsucceeds.2 store₁ (calls ++ own) hshaped₁
    have hfirst := hframe' _ hnodup.1
    refine ⟨attributes', store', own ++ rest, ?_,
      ⟨own, rest, rfl, hfirst ▸ hhanded, hhanded'.congr hrest⟩, ⟨hfirst ▸ hcleared, hcleared'⟩,
      fun n hn => ?_⟩
    · rw [← List.append_assoc]
      exact (bind_of_ok hrun _).trans hrun'
    · rw [List.map_cons, List.mem_cons, not_or] at hn
      rw [hframe' n hn.2, hframe n hn.1]

end

/-! ### Releasing again -/

/-- Where null stands already, releasing a value with callbacks calls nothing back. -/
theorem releaseHandled_of_cleared {f : Field} {handler : Handler}
    (hhandler : f.release? = handler.release) {attributes : List (String × Value)} {store : Store}
    {calls : List Call} (hcleared : f.Cleared (attributes.lookup f.slot.name)) :
    releaseHandled f.slot handler ⟨.record attributes, store, calls⟩ =
      .ok () ⟨.record attributes, store, calls⟩ := by
  rw [releaseHandled]
  cases hrelease : handler.release with
  | none => rfl
  | some release =>
    have hnull : attributes.lookup f.slot.name = some .null :=
      hcleared (.inl (by rw [hhandler, hrelease]; rfl))
    have hnull' : (attributes.lookup f.slot.name).getD .null = .null := by rw [hnull]; rfl
    exact (bind_of_ok (run_valueOrNull hnull') _).trans (run_setAttribute_self hnull)

mutual

/-- Releasing a field that has been cleared changes nothing and calls nothing back. -/
theorem exists_release_of_cleared : (f : Field) →
    ∀ {attributes : List (String × Value)} (store : Store) (calls : List Call),
    f.Filled Cleared (attributes.lookup f.slot.name) →
      ∃ own, f.release ⟨.record attributes, store, calls⟩ =
          .ok () ⟨.record attributes, store, calls ++ own⟩ ∧ ∀ c ∈ own, c.Silent
  | scalar slot type default, attributes, store, calls, hcleared => by
    refine ⟨[], ?_, List.forall_mem_nil _⟩
    rw [List.append_nil]
    cases type with
    | string =>
      exact run_setAttribute_self (hcleared (.inr rfl))
    | _ => rfl
  | nested slot inner, attributes, store, calls, hcleared => by
    cases hlookup : attributes.lookup slot.name with
    | none =>
      refine ⟨[], ?_, List.forall_mem_nil _⟩
      rw [List.append_nil]
      exact release_nested_of_none inner hlookup
    | some v =>
      obtain ⟨held, rfl, hheld⟩ := hcleared v hlookup
      obtain ⟨called, hrun, hsilent⟩ := exists_releaseAll_of_cleared inner store [] hheld
      refine ⟨[.within slot.name called], (release_nested_of_record hlookup hrun).trans ?_,
        List.forall_mem_singleton.2 (.within hsilent)⟩
      rw [setEntry_eq_self hlookup, List.nil_append]
  | array slot handler, _, _, _, hcleared =>
    ⟨[], by
      rw [List.append_nil]
      exact releaseHandled_of_cleared (f := array slot handler) rfl hcleared,
      List.forall_mem_nil _⟩
  | custom slot handler, _, _, _, hcleared =>
    ⟨[], by
      rw [List.append_nil]
      exact releaseHandled_of_cleared (f := custom slot handler) rfl hcleared,
      List.forall_mem_nil _⟩

/-- Releasing fields that have been cleared changes nothing and calls nothing back. -/
theorem exists_releaseAll_of_cleared : (fields : List Field) →
    ∀ {attributes : List (String × Value)} (store : Store) (calls : List Call),
    AllFilled Cleared attributes fields →
      ∃ own, releaseAll fields ⟨.record attributes, store, calls⟩ =
          .ok () ⟨.record attributes, store, calls ++ own⟩ ∧ ∀ c ∈ own, c.Silent
  | [], _, _, _, _ => ⟨[], by rw [List.append_nil]; rfl, List.forall_mem_nil _⟩
  | f :: fields, attributes, store, calls, hcleared => by
    obtain ⟨own, hrun, hown⟩ :=
      exists_release_of_cleared f store calls hcleared.1
    obtain ⟨rest, hrun', hrest⟩ :=
      exists_releaseAll_of_cleared fields store (calls ++ own) hcleared.2
    refine ⟨own ++ rest, ?_, List.forall_mem_append.2 ⟨hown, hrest⟩⟩
    rw [← List.append_assoc]
    exact (bind_of_ok hrun _).trans hrun'

end

/-! ### The calls of each attribute -/

/-- The calls that release the value of a field are made for its attribute. -/
theorem Handed.concerns {f : Field} {v? v'? : Option Value} {calls : List Call}
    (h : f.Handed v? v'? calls) (name : String) :
    ∀ c ∈ calls, c.concerns name = (f.slot.name == name) := by
  have hleaf {f : Field} (h : f.HandsOver v? calls) :
      ∀ c ∈ calls, c.concerns name = (f.slot.name == name) := by
    obtain ⟨store, inner, rfl⟩ := h
    split
    · exact List.forall_mem_map.2 fun v _ => rfl
    · exact List.forall_mem_nil _
  cases f with
  | nested slot fields =>
    obtain ⟨-, -, rfl⟩ | ⟨_, _, inner, -, -, rfl, -⟩ := h
    · exact List.forall_mem_nil _
    · exact List.forall_mem_singleton.2 rfl
  | scalar slot type default => exact hleaf h
  | array slot handler => exact hleaf h
  | custom slot handler => exact hleaf h

/-- The calls that release fields are made for their attributes. -/
theorem AllHanded.exists_concerns {attributes attributes' : List (String × Value)}
    {fields : List Field} {calls : List Call} (h : AllHanded attributes attributes' fields calls) :
    ∀ c ∈ calls, ∃ f ∈ fields, ∀ name, c.concerns name = (f.slot.name == name) := by
  induction fields generalizing calls with
  | nil =>
    obtain rfl : calls = [] := h
    exact List.forall_mem_nil _
  | cons f fields ih =>
    obtain ⟨own, rest, rfl, hown, hrest⟩ := h
    refine List.forall_mem_append.2 ⟨fun c hc => ?_, fun c hc => ?_⟩
    · exact ⟨f, List.mem_cons_self, fun name => hown.concerns name c hc⟩
    · obtain ⟨g, hg, hconcerns⟩ := ih hrest c hc
      exact ⟨g, List.mem_cons_of_mem f hg, hconcerns⟩

/-- Of the calls that release fields, those made for one attribute release the value of its field.
-/
theorem AllHanded.filter_concerns {attributes attributes' : List (String × Value)}
    {fields : List Field} {calls : List Call} (h : AllHanded attributes attributes' fields calls)
    (hnodup : (fields.map fun f => f.slot.name).Nodup) :
    ∀ f ∈ fields, f.Handed (attributes.lookup f.slot.name) (attributes'.lookup f.slot.name)
      (calls.filter (Call.concerns f.slot.name)) := by
  induction fields generalizing calls with
  | nil => exact List.forall_mem_nil _
  | cons f fields ih =>
    obtain ⟨own, rest, rfl, hown, hrest⟩ := h
    rw [List.map_cons, List.nodup_cons] at hnodup
    have hne (g : Field) (hg : g ∈ fields) : g.slot.name ≠ f.slot.name :=
      fun h => hnodup.1 (h ▸ List.mem_map_of_mem hg)
    refine List.forall_mem_cons.2 ⟨?_, fun g hg => ?_⟩
    · have hself : own.filter (Call.concerns f.slot.name) = own :=
        List.filter_eq_self.2 fun c hc => (hown.concerns _ c hc).trans (beq_self_eq_true _)
      have hnone : rest.filter (Call.concerns f.slot.name) = [] :=
        List.filter_eq_nil_iff.2 fun c hc hconcerns => by
          obtain ⟨g, hg, hname⟩ := hrest.exists_concerns c hc
          rw [hname, beq_iff_eq] at hconcerns
          exact hne g hg hconcerns
      rwa [List.filter_append, hself, hnone, List.append_nil]
    · have hnone : own.filter (Call.concerns g.slot.name) = [] :=
        List.filter_eq_nil_iff.2 fun c hc hconcerns => by
          rw [hown.concerns _ c hc, beq_iff_eq] at hconcerns
          exact hne g hg hconcerns.symm
      rw [List.filter_append, hnone, List.nil_append]
      exact ih hrest hnodup.2 g hg

section LiesIn

variable {attributes attributes' : List (String × Value)} {fields : List Field} {calls : List Call}

/-- Of the calls that release fields, those made for the record of a field are inside one call. -/
theorem AllHanded.filter_nested (h : AllHanded attributes attributes' fields calls)
    (hnodup : (fields.map fun f => f.slot.name).Nodup) {slot : Slot} {inner : List Field}
    (hmem : nested slot inner ∈ fields) :
    attributes.lookup slot.name = none ∧ attributes'.lookup slot.name = none ∧
        calls.filter (Call.concerns slot.name) = [] ∨
      ∃ held left called, attributes.lookup slot.name = some (.record held) ∧
        attributes'.lookup slot.name = some (.record left) ∧
        calls.filter (Call.concerns slot.name) = [.within slot.name called] ∧
        AllHanded held left inner called :=
  h.filter_concerns hnodup _ hmem

variable {path : List String} {f : Field}

/-- What has been released of an attribute, at any level, is the value that it had, if it had one
that is not null. -/
theorem LiesIn.releasedAt_eq (hf : LiesIn fields path f) (hrelease : f.release?.isSome = true)
    (h : AllHanded attributes attributes' fields calls)
    (hnodup : (fields.map fun f => f.slot.name).Nodup) (hinside : AllEvery SeparateInside fields) :
    Call.releasedAt f.slot.name path calls =
      toRelease (((Value.record attributes).at? path).bind (·.attribute? f.slot.name)) := by
  induction hf generalizing attributes attributes' calls with
  | @here fields f hmem =>
    have hhanded := h.filter_concerns hnodup f hmem
    have hover : f.HandsOver (attributes.lookup f.slot.name)
        (calls.filter (Call.concerns f.slot.name)) := by
      cases f with
      | nested slot inner => cases hrelease
      | _ => exact hhanded
    obtain ⟨store, inner, hcalls⟩ := hover
    rw [Call.releasedAt, hcalls, if_pos hrelease, List.flatMap_map]
    exact List.flatMap_singleton' _
  | inside hmem _ ih =>
    have hseparate := allEvery_iff.1 hinside _ hmem
    rw [Call.releasedAt, Value.at?, Value.attribute?]
    obtain ⟨hnone, -, hcalls⟩ | ⟨held, left, called, hheld, -, hcalls, hhanded⟩ :=
      h.filter_nested hnodup hmem
    · rw [hcalls, hnone]
      exact Call.releasedAt_eq_nil (List.forall_mem_nil _)
    · rw [hcalls, hheld, List.flatMap_singleton]
      exact ih hrelease hhanded hseparate.1.nodup hseparate.2

/-- The records at every level are still there after their release. -/
theorem LiesIn.exists_at? (hf : LiesIn fields path f)
    (h : AllHanded attributes attributes' fields calls)
    (hnodup : (fields.map fun f => f.slot.name).Nodup) (hinside : AllEvery SeparateInside fields)
    {r : Value} (hr : (Value.record attributes).at? path = some r) :
    ∃ r', (Value.record attributes').at? path = some r' := by
  induction hf generalizing attributes attributes' calls with
  | here _ => exact ⟨.record attributes', rfl⟩
  | inside hmem _ ih =>
    have hseparate := allEvery_iff.1 hinside _ hmem
    rw [Value.at?, Value.attribute?] at hr ⊢
    obtain ⟨hnone, -, -⟩ | ⟨held, left, called, hheld, hleft, -, hhanded⟩ :=
      h.filter_nested hnodup hmem
    · rw [hnone] at hr
      cases hr
    · rw [hheld] at hr
      rw [hleft]
      exact ih hhanded hseparate.1.nodup hseparate.2 hr

end LiesIn

end Field

end PropertyList

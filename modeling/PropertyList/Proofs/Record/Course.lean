import PropertyList.Proofs.Record.Sparing

/-!
# The course of decoding

The fields of a record are gone through one after the other, and the fields of a record in an
attribute when that attribute is come to. What is done on a field leaves the attributes of others
alone. So a field is come to with its attributes as they were at the start, and what has been made
of them stays.

## Main definitions

* `Field.Arrives`, the session in which one of several fields is come to
* `Field.Comes`, the session in which decoding comes to a field at some level

## Main results

* `Field.Arrives.attribute?_eq`, `Field.attribute?_of_not_arrives` : what becomes of an attribute
  when fields are gone through.
* `Field.initialise_nested_cases`, `Field.release_nested_cases`, `Field.decode_nested_cases` : what
  becomes of the record in an attribute.
* `Field.Comes.attribute?_eq` : the value of a field when decoding comes to it.
* `Field.Comes.exists_decodeAll_eq_error` : where a field fails, so does decoding.
-/

namespace PropertyList

open SessionM

namespace Field

variable {n : String} {slot : Slot} {dict : ObjectId}

/-! ### Going through fields -/

/-- Does an operation on fields, one after the other. -/
def each (step : Field → SessionM Unit) : List Field → SessionM Unit
  | [] => return
  | f :: fields => do
    step f
    each step fields

/-- No other of the fields has an attribute of that name. -/
def Exclusive (fields : List Field) (f : Field) (n : String) : Prop :=
  ∀ g ∈ fields, g ≠ f → n ∉ g.slot.names

/-- Going through fields comes to one of them in a session, the one that those in front of it leave
when they succeed. -/
def Arrives (step : Field → SessionM Unit) (fields : List Field) (s : Session) (f : Field)
    (s₁ : Session) : Prop :=
  ∃ front back, fields = front ++ f :: back ∧ each step front s = .ok () s₁

theorem initialiseAll_eq_each (fields : List Field) :
    initialiseAll fields = each initialise fields := by
  induction fields with
  | nil => rfl
  | cons f fields ih => rw [initialiseAll, ih, each]

theorem decodeAll_eq_each (dict : ObjectId) (fields : List Field) :
    decodeAll dict fields = each (decode dict) fields := by
  induction fields with
  | nil => rfl
  | cons f fields ih => rw [decodeAll, ih, each]

theorem releaseAll_eq_each (fields : List Field) : releaseAll fields = each release fields := by
  induction fields with
  | nil => rfl
  | cons f fields ih => rw [releaseAll, ih, each]

theorem Separate.fields_nodup {fields : List Field} (h : Separate fields) : fields.Nodup :=
  List.Nodup.of_map _ h.nodup

theorem Separate.exclusive {fields : List Field} (h : Separate fields) {f : Field}
    (hf : f ∈ fields) : Exclusive fields f f.slot.name := by
  intro g hg hne hmem
  obtain htracker | hname := List.mem_append.1 hmem
  · exact h.tracker_ne g hg f hf (Option.mem_toList.1 htracker)
  · exact hne (h.eq_of_name_eq hg hf (List.mem_singleton.1 hname).symm)

theorem exclusive_of_nodup {fields : List Field} (h : (names fields).Nodup) {f : Field}
    (hf : f ∈ fields) (hn : n ∈ f.slot.names) : Exclusive fields f n := by
  intro g hg hne hmem
  obtain ⟨-, hdisjoint⟩ := List.nodup_flatMap.1 h
  have hsymm : Std.Symm (Function.onFun List.Disjoint fun f : Field => f.slot.names) :=
    ⟨fun _ _ h => h.symm⟩
  exact hdisjoint.forall hg hf hne hmem hn

section Steps

variable {step : Field → SessionM Unit} {fields front back : List Field} {f : Field}
  {s s₁ s₂ : Session} {failure : Failure}

theorem each_append (step : Field → SessionM Unit) (front back : List Field) :
    each step (front ++ back) = each step front >>= fun _ => each step back := by
  induction front with
  | nil => rfl
  | cons f front ih => rw [List.cons_append, each, each, ih, bind_assoc]

theorem each_append_of_ok (h : each step front s = .ok () s₁) :
    each step (front ++ back) s = each step back s₁ := by
  rw [each_append]
  exact bind_of_ok h _

theorem each_append_of_error (h : each step front s = .error failure s₁) :
    each step (front ++ back) s = .error failure s₁ := by
  rw [each_append]
  exact bind_of_error h _

theorem spares_each (h : ∀ f ∈ fields, Spares n (step f)) : Spares n (each step fields) := by
  induction fields with
  | nil => exact spares_pure ()
  | cons f fields ih =>
    obtain ⟨hf, hfields⟩ := List.forall_mem_cons.1 h
    rw [each]
    exact hf.bind fun _ => ih hfields

theorem Arrives.mem (h : Arrives step fields s f s₁) : f ∈ fields := by
  obtain ⟨front, back, rfl, -⟩ := h
  exact List.mem_append_right _ List.mem_cons_self

theorem Arrives.unique (hnodup : fields.Nodup) (h₁ : Arrives step fields s f s₁)
    (h₂ : Arrives step fields s f s₂) : s₁ = s₂ := by
  obtain ⟨front, back, rfl, hrun⟩ := h₁
  obtain ⟨front', back', heq, hrun'⟩ := h₂
  have hnotMem := (List.nodup_middle.1 hnodup).notMem
  rw [List.mem_append, not_or] at hnotMem
  obtain ⟨rfl, -⟩ := (List.append_cons_inj_of_notMem hnotMem.1 hnotMem.2).1 heq
  cases hrun.symm.trans hrun'
  rfl

/-- Where a field that is come to fails, nothing more is done. -/
theorem Arrives.each_of_error (h : Arrives step fields s f s₁)
    (hf : step f s₁ = .error failure s₂) : each step fields s = .error failure s₂ := by
  obtain ⟨front, back, rfl, hrun⟩ := h
  rw [each_append_of_ok hrun, each]
  exact bind_of_error hf _

/-- All fields are come to, one after the other, if none of them fails. -/
theorem exists_arrives_of_ok (hf : f ∈ fields) (h : each step fields s = .ok () s₂) :
    ∃ s₁ t, Arrives step fields s f s₁ ∧ step f s₁ = .ok () t := by
  obtain ⟨front, back, rfl⟩ := List.append_of_mem hf
  cases hrun : each step front s with
  | error failure t =>
    rw [each_append_of_error hrun] at h
    cases h
  | ok _ s₁ =>
    rw [each_append_of_ok hrun, each] at h
    obtain ⟨_, t, hstep, -⟩ := exists_of_bind_eq_ok h
    exact ⟨s₁, t, ⟨front, back, rfl, hrun⟩, hstep⟩

variable (hstep : ∀ g : Field, n ∉ g.slot.names → Spares n (step g)) (hnodup : fields.Nodup)
  (hexclusive : Exclusive fields f n)

include hstep hnodup hexclusive

private theorem spares_around {front back : List Field} (hfields : fields = front ++ f :: back) :
    Spares n (each step front) ∧ Spares n (each step back) := by
  subst hfields
  have hnotMem := (List.nodup_middle.1 hnodup).notMem
  rw [List.mem_append, not_or] at hnotMem
  refine ⟨spares_each fun g hg => hstep g (hexclusive g ?_ fun h => hnotMem.1 (h ▸ hg)),
    spares_each fun g hg => hstep g (hexclusive g ?_ fun h => hnotMem.2 (h ▸ hg))⟩
  · exact List.mem_append_left _ hg
  · exact List.mem_append_right _ (List.mem_cons_of_mem f hg)

/-- A field is come to with its attributes as they were at the start, and what is made of them
then stays. -/
theorem Arrives.attribute?_eq (h : Arrives step fields s f s₁) :
    s₁.record.attribute? n = s.record.attribute? n ∧
      (after (each step fields) s).record.attribute? n =
        (after (step f) s₁).record.attribute? n := by
  obtain ⟨front, back, hfields, hrun⟩ := h
  obtain ⟨hfront, hback⟩ := spares_around hstep hnodup hexclusive hfields
  refine ⟨after_of_ok hrun ▸ hfront.attribute?_eq s, ?_⟩
  rw [hfields, after, each_append_of_ok hrun, ← after]
  exact attribute?_after_bind (fun _ => hback) (step f) s₁

/-- The attributes of a field that is not come to stay as they are. -/
theorem attribute?_of_not_arrives (hf : f ∈ fields) (h : ∀ s₁, ¬ Arrives step fields s f s₁) :
    (after (each step fields) s).record.attribute? n = s.record.attribute? n := by
  obtain ⟨front, back, hfields⟩ := List.append_of_mem hf
  obtain ⟨hfront, -⟩ := spares_around hstep hnodup hexclusive hfields
  cases hrun : each step front s with
  | ok _ s₁ => exact absurd ⟨front, back, hfields, hrun⟩ (h s₁)
  | error failure t =>
    rw [hfields, after_of_error (each_append_of_error hrun)]
    exact after_of_error hrun ▸ hfront.attribute?_eq s

/-- A field is come to or it is not. -/
theorem arrives_or_not (hf : f ∈ fields) :
    (∃ s₁, Arrives step fields s f s₁ ∧ s₁.record.attribute? n = s.record.attribute? n ∧
      (after (each step fields) s).record.attribute? n =
        (after (step f) s₁).record.attribute? n) ∨
    (∀ s₁, ¬ Arrives step fields s f s₁) ∧
      (after (each step fields) s).record.attribute? n = s.record.attribute? n := by
  by_cases h : ∃ s₁, Arrives step fields s f s₁
  · obtain ⟨s₁, harrives⟩ := h
    exact .inl ⟨s₁, harrives, harrives.attribute?_eq hstep hnodup hexclusive⟩
  · have hnever := not_exists.1 h
    exact .inr ⟨hnever, attribute?_of_not_arrives hstep hnodup hexclusive hf hnever⟩

end Steps

/-! ### Making the record in an attribute -/

theorem exists_mark_eq (slot : Slot) (present : Bool) (attributes : List (String × Value))
    (store : Store) (calls : List Call) :
    ∃ attributes', mark slot present ⟨.record attributes, store, calls⟩ =
      .ok () ⟨.record attributes', store, calls⟩ := by
  rw [mark]
  cases slot.tracker? with
  | none => exact ⟨attributes, rfl⟩
  | some tracker => exact ⟨_, rfl⟩

/-- The initial value of an attribute for a record is a new record with initial values, as far as
these have been given. What is no record has no attributes. -/
theorem initialise_nested_cases (slot : Slot) (inner : List Field) (s : Session) :
    (∃ failure t, (nested slot inner).initialise s = .error failure t ∧
      ∀ n, t.record.attribute? n = none) ∨
    ∃ start : Session, start.record = .emptyRecord ∧
      (after (nested slot inner).initialise s).record.attribute? slot.name =
        some (after (initialiseAll inner) start).record ∧
      ∀ t, (nested slot inner).initialise s = .ok () t →
        ∃ t', initialiseAll inner start = .ok () t' := by
  obtain ⟨record, store, calls⟩ := s
  cases record with
  | record attributes =>
    obtain ⟨marked, hmark⟩ := exists_mark_eq slot false attributes store calls
    have hrun : (nested slot inner).initialise ⟨.record attributes, store, calls⟩ =
        within slot.name .emptyRecord (initialiseAll inner)
          ⟨.record (setEntry slot.name .emptyRecord marked), store, calls ++ [.create]⟩ :=
      bind_of_ok hmark _
    refine .inr ⟨⟨.emptyRecord, store, []⟩, rfl, ?_, fun t ht => ?_⟩
    · rw [after, hrun, ← after, after_within]
      exact (lookup_setEntry ..).trans (if_pos rfl)
    · rw [hrun] at ht
      exact exists_of_within_eq_ok ht
  | _ =>
    refine .inl ⟨.missingAttribute, ?_⟩
    unfold initialise mark
    cases slot.tracker? with
    | none => exact ⟨_, rfl, fun n => rfl⟩
    | some tracker => exact ⟨_, rfl, fun n => rfl⟩

/-- Releasing the record in an attribute releases what is there, if that is not null. -/
theorem release_nested_cases (slot : Slot) (inner : List Field) (s : Session) :
    (∃ v, s.record.attribute? slot.name = some v ∧
      (after (nested slot inner).release s).record.attribute? slot.name =
        some (after (releaseAll inner) ⟨v, s.store, []⟩).record ∧
      ∀ t, (nested slot inner).release s = .ok () t →
        ∃ t', releaseAll inner ⟨v, s.store, []⟩ = .ok () t') ∨
    (s.record.attributeOrNull slot.name).isNull = true ∧
      (after (nested slot inner).release s).record.attribute? slot.name =
        s.record.attribute? slot.name := by
  have hvalue : valueOrNull slot.name s = .ok (s.record.attributeOrNull slot.name) s := rfl
  cases hnull : (s.record.attributeOrNull slot.name).isNull with
  | true =>
    have hrun : (nested slot inner).release s = .ok () s := by
      refine (bind_of_ok hvalue _).trans ?_
      rw [hnull]
      rfl
    exact .inr ⟨rfl, by rw [after_of_ok hrun]⟩
  | false =>
    rw [Value.attributeOrNull] at hvalue hnull
    cases hheld : s.record.attribute? slot.name with
    | none =>
      rw [hheld] at hnull
      cases hnull
    | some v =>
      rw [hheld, Option.getD_some] at hvalue hnull
      have hrun : (nested slot inner).release s = within slot.name v (releaseAll inner) s := by
        refine (bind_of_ok hvalue _).trans ?_
        rw [hnull]
        rfl
      refine .inl ⟨v, rfl, ?_, fun t ht => ?_⟩
      · rw [after, hrun, ← after, after_within]
        exact Value.attribute?_getD_setAttribute?_self hheld
      · rw [hrun] at ht
        exact exists_of_within_eq_ok ht

/-! ### Decoding a key -/

section Key

variable {s s₁ : Session} {id : ObjectId} {failure : Failure} {decoding : ObjectId → SessionM Unit}
  {x y : SessionM Unit}

theorem decodeKey_of_none (hentry : s.store.heap.entry? (some dict) slot.key = none) :
    decodeKey slot dict decoding s =
      if slot.required then .error (.decode (.missingKey slot.key) (some slot.key)) s
      else .ok () s := by
  refine (bind_of_ok (show heap s = .ok s.store.heap s from rfl) _).trans ?_
  rw [show (s.store.heap.dict? dict).bind _ = none from hentry]
  dsimp only
  split <;> rfl

theorem decodeKey_of_some (hentry : s.store.heap.entry? (some dict) slot.key = some id) :
    decodeKey slot dict decoding s = decodeMarked slot (decoding id) s := by
  refine (bind_of_ok (show heap s = .ok s.store.heap s from rfl) _).trans ?_
  rw [show (s.store.heap.dict? dict).bind _ = some id from hentry]

theorem after_decodeKey_of_none (hentry : s.store.heap.entry? (some dict) slot.key = none) :
    after (decodeKey slot dict decoding) s = s := by
  rw [after, decodeKey_of_none hentry]
  split_ifs <;> rfl

/-- A key whose object has been decoded is marked as present. -/
theorem decodeMarked_of_ok (hx : x s = .ok () s₁) :
    decodeMarked slot x s = mark slot true s₁ :=
  bind_of_ok (tryCatch_of_ok hx _) _

/-- A key whose object cannot be decoded is marked as absent, or not marked at all. -/
theorem exists_decodeMarked_of_error (slot : Slot) (hx : x s = .error failure s₁) :
    ∃ failure' s₂, decodeMarked slot x s = .error failure' s₂ ∧
      (s₂ = s₁ ∨ s₂ = after (mark slot false) s₁) := by
  have hcatch := tryCatch_of_error hx fun failure => do
    if failure.isDecodeFault then
      mark slot false
      throw (failure.blame slot.key)
    else throw failure
  cases hfault : failure.isDecodeFault with
  | false =>
    rw [hfault] at hcatch
    exact ⟨failure, s₁, bind_of_error hcatch _, .inl rfl⟩
  | true =>
    rw [hfault] at hcatch
    cases hmark : mark slot false s₁ with
    | error failure' t =>
      refine ⟨failure', t, bind_of_error (hcatch.trans (bind_of_error hmark _)) _, .inr ?_⟩
      rw [after_of_error hmark]
    | ok _ t =>
      refine ⟨_, t, bind_of_error (hcatch.trans (bind_of_ok hmark _)) _, .inr ?_⟩
      rw [after_of_ok hmark]

/-- A key whose object cannot be decoded leaves the value of its attribute as decoding has left
it. -/
theorem exists_decodeMarked_eq_error (slot : Slot) (hx : x s = .error failure s₁) :
    ∃ failure' s₂, decodeMarked slot x s = .error failure' s₂ ∧
      s₂.record.attribute? slot.name = s₁.record.attribute? slot.name := by
  obtain ⟨failure', s₂, hmarked, hs₂⟩ := exists_decodeMarked_of_error slot hx
  refine ⟨failure', s₂, hmarked, ?_⟩
  obtain rfl | rfl := hs₂
  · rfl
  · exact (spares_mark slot.tracker?_ne_name false).attribute?_eq s₁

/-- Marking the key leaves the value of the attribute as decoding has left it. -/
theorem attribute?_after_decodeMarked (slot : Slot) (x : SessionM Unit) (s : Session) :
    (after (decodeMarked slot x) s).record.attribute? slot.name =
      (after x s).record.attribute? slot.name := by
  cases hx : x s with
  | ok _ s₁ =>
    rw [after, decodeMarked_of_ok hx, ← after, after_of_ok hx]
    exact (spares_mark slot.tracker?_ne_name true).attribute?_eq s₁
  | error failure s₁ =>
    obtain ⟨failure', s₂, hmarked, hkept⟩ := exists_decodeMarked_eq_error slot hx
    rw [after_of_error hmarked, after_of_error hx, hkept]

theorem decodeMarked_congr (h : x s = y s) : decodeMarked slot x s = decodeMarked slot y s := by
  have hcatch (handler : Failure → SessionM Unit) :
      tryCatch x handler s = tryCatch y handler s := by
    cases hx : x s with
    | ok _ t => rw [tryCatch_of_ok hx, tryCatch_of_ok (h ▸ hx)]
    | error failure t => rw [tryCatch_of_error hx, tryCatch_of_error (h ▸ hx)]
  simp only [decodeMarked, bind, EStateM.bind, hcatch]

/-- Only a dictionary is decoded into a record. -/
theorem decode_nested_eq_ite (inner : List Field)
    (hentry : s.store.heap.entry? (some dict) slot.key = some id) :
    (nested slot inner).decode dict s = decodeMarked slot
      (if s.store.heap.kind id = .dict then
        valueOf slot.name >>= fun v => within slot.name v (decodeAll id inner)
      else wrongKind .dict id) s :=
  (decodeKey_of_some hentry).trans
    (decodeMarked_congr (bind_of_ok (show heap s = .ok s.store.heap s from rfl) _))

/-- The dictionary under the key of a record is decoded into the record. -/
theorem decode_nested_eq {inner : List Field} {held : Value}
    (hentry : s.store.heap.entry? (some dict) slot.key = some id)
    (hkind : s.store.heap.kind id = .dict) (hheld : s.record.attribute? slot.name = some held) :
    (nested slot inner).decode dict s =
      decodeMarked slot (within slot.name held (decodeAll id inner)) s := by
  rw [decode_nested_eq_ite inner hentry, if_pos hkind]
  exact decodeMarked_congr (bind_of_ok (reads_valueOf s.store hheld s.calls) _)

/-- The items of the array under the key are decoded, on top of the value of the attribute. -/
theorem decode_array_eq {handler : ArrayHandler} {items : List ObjectId}
    (hentry : s.store.heap.entry? (some dict) slot.key = some id)
    (hitems : s.store.heap.array? id = some items) :
    (array slot handler).decode dict s = decodeMarked slot
      (decodeItems slot.name handler items 0 (s.record.attributeOrNull slot.name) >>=
        setAttribute slot.name) s := by
  refine (decodeKey_of_some hentry).trans (decodeMarked_congr ?_)
  refine (bind_of_ok (show heap s = .ok s.store.heap s from rfl) _).trans ?_
  rw [hitems]
  exact bind_of_ok
    (show valueOrNull slot.name s = .ok (s.record.attributeOrNull slot.name) s from rfl) _


/-- Decoding either goes on in the record that an attribute has, or leaves the attribute as it
is. -/
theorem decode_nested_cases (slot : Slot) (inner : List Field) (dict : ObjectId) (s : Session) :
    (∃ id held, s.store.heap.entry? (some dict) slot.key = some id ∧
      s.store.heap.kind id = .dict ∧ s.record.attribute? slot.name = some held ∧
      (after ((nested slot inner).decode dict) s).record.attribute? slot.name =
        some (after (decodeAll id inner) ⟨held, s.store, []⟩).record) ∨
    (∀ id, s.store.heap.entry? (some dict) slot.key = some id → s.store.heap.kind id = .dict →
        s.record.attribute? slot.name = none) ∧
      (after ((nested slot inner).decode dict) s).record.attribute? slot.name =
        s.record.attribute? slot.name := by
  cases hentry : s.store.heap.entry? (some dict) slot.key with
  | none =>
    refine .inr ⟨fun id h => ?_,
      congrArg (fun s => s.record.attribute? slot.name) (after_decodeKey_of_none hentry)⟩
    cases h
  | some id =>
    have hdecode {x : SessionM Unit}
        (hx : (nested slot inner).decode dict s = decodeMarked slot x s) :
        (after ((nested slot inner).decode dict) s).record.attribute? slot.name =
          (after x s).record.attribute? slot.name := by
      rw [after, hx, ← after, attribute?_after_decodeMarked]
    by_cases hkind : s.store.heap.kind id = .dict
    · cases hheld : s.record.attribute? slot.name with
      | none =>
        refine .inr ⟨fun _ _ _ => rfl, (hdecode (decode_nested_eq_ite inner hentry)).trans ?_⟩
        rw [if_pos hkind, after_of_error (bind_of_error (valueOf_of_none hheld) _), hheld]
      | some held =>
        refine .inl ⟨id, held, rfl, hkind, rfl, ?_⟩
        rw [hdecode (decode_nested_eq hentry hkind hheld), after_within]
        exact Value.attribute?_getD_setAttribute?_self hheld
    · refine .inr ⟨fun id' h hkind' => ?_, (hdecode (decode_nested_eq_ite inner hentry)).trans ?_⟩
      · obtain rfl := Option.some.inj h
        exact absurd hkind' hkind
      · rw [if_neg hkind]
        rfl

end Key

/-! ### Coming to a field -/

/-- Decoding a dictionary into a record comes to a field, in the record or in one at a level below
it, with the dictionary that is decoded there and the session in which that is done. -/
inductive Comes :
    List Field → ObjectId → Session → List String → Field → ObjectId → Session → Prop
  | here {fields : List Field} {dict : ObjectId} {s : Session} {f : Field} {s' : Session}
      (harrives : Arrives (decode dict) fields s f s') : Comes fields dict s [] f dict s'
  | inside {fields : List Field} {dict : ObjectId} {s : Session} {slot : Slot} {inner : List Field}
      {s₁ : Session} {id : ObjectId} {held : Value} {path : List String} {f : Field}
      {dict' : ObjectId} {s' : Session}
      (harrives : Arrives (decode dict) fields s (nested slot inner) s₁)
      (hentry : s₁.store.heap.entry? (some dict) slot.key = some id)
      (hkind : s₁.store.heap.kind id = .dict) (hheld : s₁.record.attribute? slot.name = some held)
      (hinner : Comes inner id ⟨held, s₁.store, []⟩ path f dict' s') :
      Comes fields dict s (slot.name :: path) f dict' s'

section Comes

variable {fields : List Field} {f : Field} {path : List String} {dict' : ObjectId} {s s' : Session}

theorem Comes.liesIn (h : Comes fields dict s path f dict' s') : LiesIn fields path f := by
  induction h with
  | here harrives => exact .here harrives.mem
  | inside harrives _ _ _ _ ih => exact .inside harrives.mem ih

/-- A field inside another is come to from that one. -/
theorem Comes.exists_of_cons {slot : Slot} {inner : List Field}
    (h : Comes fields dict s (slot.name :: path) f dict' s') (hseparate : Separate fields)
    (hmem : nested slot inner ∈ fields) :
    ∃ s₁ id held, Arrives (decode dict) fields s (nested slot inner) s₁ ∧
      s₁.store.heap.entry? (some dict) slot.key = some id ∧ s₁.store.heap.kind id = .dict ∧
      s₁.record.attribute? slot.name = some held ∧
      Comes inner id ⟨held, s₁.store, []⟩ path f dict' s' := by
  generalize hpath : slot.name :: path = p at h
  cases h with
  | here _ => cases hpath
  | inside harrives hentry hkind hheld hinner =>
    obtain ⟨hname, rfl⟩ := List.cons.inj hpath
    obtain ⟨⟩ := hseparate.eq_of_name_eq hmem harrives.mem hname
    exact ⟨_, _, _, harrives, hentry, hkind, hheld, hinner⟩

/-- A field is come to with its value as it was at the start. -/
theorem Comes.attribute?_eq (h : Comes fields dict s path f dict' s') (hseparate : Separate fields)
    (hinside : AllEvery SeparateInside fields) :
    s'.record.attribute? f.slot.name = s.record.at? (path ++ [f.slot.name]) := by
  have hstart {fields : List Field} {dict : ObjectId} {s s₁ : Session} {f : Field}
      (hseparate : Separate fields) (h : Arrives (decode dict) fields s f s₁) :
      s₁.record.attribute? f.slot.name = s.record.attribute? f.slot.name :=
    (h.attribute?_eq (fun g => spares_decode dict g) hseparate.fields_nodup
      (hseparate.exclusive h.mem)).1
  induction h with
  | here harrives => exact (hstart hseparate harrives).trans (Value.at?_singleton ..).symm
  | @inside _ _ s slot _ _ _ held _ _ _ _ harrives _ _ hheld _ ih =>
    have hinner := allEvery_iff.1 hinside _ harrives.mem
    have hsame : s.record.attribute? slot.name = some held :=
      (hstart hseparate harrives).symm.trans hheld
    rw [List.cons_append, Value.at?_cons, hsame]
    exact ih hinner.1 hinner.2

/-- Where a field fails that decoding comes to, decoding fails, with the record of the field as the
field has left it. -/
theorem Comes.exists_decodeAll_eq_error (h : Comes fields dict s path f dict' s')
    {failure : Failure} {s₂ : Session} (hf : f.decode dict' s' = .error failure s₂) :
    ∃ failure' t, decodeAll dict fields s = .error failure' t ∧
      t.record.at? path = some s₂.record := by
  induction h with
  | here harrives => exact ⟨failure, s₂, decodeAll_eq_each .. ▸ harrives.each_of_error hf, rfl⟩
  | @inside fields dict s slot inner s₁ id held path f dict' s' harrives hentry hkind hheld _ ih =>
    obtain ⟨failure₁, t, hrun, ht⟩ := ih hf
    have hwithin : within slot.name held (decodeAll id inner) s₁ =
        .error failure₁ (rejoin s₁.record s₁.calls slot.name t) := by
      simp only [within, hrun]
    obtain ⟨failure₂, t', hmarked, hkept⟩ := exists_decodeMarked_eq_error slot hwithin
    refine ⟨failure₂, t', ?_, ?_⟩
    · rw [decodeAll_eq_each]
      exact harrives.each_of_error ((decode_nested_eq hentry hkind hheld).trans hmarked)
    · rw [Value.at?_cons, hkept.trans (Value.attribute?_getD_setAttribute?_self hheld)]
      exact ht

end Comes

end Field

end PropertyList

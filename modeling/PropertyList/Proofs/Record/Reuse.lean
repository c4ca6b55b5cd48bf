import PropertyList.Proofs.Record.ReleaseOnce

/-!
# Decoding into records that have been used

A record may be decoded into again and again. What it has been used for before plays no part: the
fields give every attribute of theirs an initial value before anything is decoded, and from then on
only those attributes are looked at. So decoding does to a used record what it does to a new one,
and the attributes that no field names stay as they are. A `charbuf` without an initial value is the
one exception: it *keeps* the value that the record has.

The work on the used record is compared with that on a new one, operation by operation. An operation
that looks only at attributes on which the two agree *respects* the agreement.

## Main definitions

* `Alike`, `Respects`
* `Field.kept`, the attributes that keep their values
* `Session.Overlays`, the agreement of a used record with a new one

## Main results

* `Descriptor.alike_decode` : decoding into a used record and into a new one.
* `Descriptor.decode_forgets`
-/

namespace PropertyList

/-! ### Operations that respect a relation of states -/

section Respects

variable {ε σ α β : Type} {R : σ → σ → Prop}

/-- Two outcomes give the same result or fail in the same way, in states that are related. -/
def Alike (R : σ → σ → Prop) : EStateM.Result ε σ α → EStateM.Result ε σ α → Prop
  | .ok a s, .ok b t => a = b ∧ R s t
  | .error e s, .error e' t => e = e' ∧ R s t
  | .ok _ _, .error _ _ | .error _ _, .ok _ _ => False

/-- An operation has outcomes that are alike in states that are related. -/
def Respects (R : σ → σ → Prop) (x : EStateM ε σ α) : Prop :=
  ∀ s t, R s t → Alike R (x s) (x t)

/-- Outcomes that are alike are both results or both failures. -/
theorem Alike.cases {x y : EStateM.Result ε σ α} (h : Alike R x y) :
    (∃ a s t, x = .ok a s ∧ y = .ok a t ∧ R s t) ∨
      ∃ e s t, x = .error e s ∧ y = .error e t ∧ R s t := by
  match x, y, h with
  | .ok a s, .ok _ t, ⟨rfl, h⟩ => exact .inl ⟨a, s, t, rfl, rfl, h⟩
  | .error e s, .error _ t, ⟨rfl, h⟩ => exact .inr ⟨e, s, t, rfl, rfl, h⟩

theorem respects_pure (a : α) : Respects R (pure a : EStateM ε σ α) :=
  fun _ _ h => ⟨rfl, h⟩

theorem respects_throw (e : ε) : Respects R (throw e : EStateM ε σ α) :=
  fun _ _ h => ⟨rfl, h⟩

/-- What follows on results that are alike starts in states that are related. -/
theorem Alike.bind {x y : EStateM ε σ α} {s t : σ} (h : Alike R (x s) (y t))
    {f g : α → EStateM ε σ β} (hf : ∀ a s t, R s t → Alike R (f a s) (g a t)) :
    Alike R ((x >>= f) s) ((y >>= g) t) := by
  obtain ⟨a, s', t', hx, hy, h'⟩ | ⟨e, s', t', hx, hy, h'⟩ := h.cases
  · rw [bind_of_ok hx, bind_of_ok hy]
    exact hf a s' t' h'
  · have hfail {x : EStateM ε σ α} {s s' : σ} (hx : x s = .error e s') (f : α → EStateM ε σ β) :
        (x >>= f) s = .error e s' := by
      simp only [Bind.bind, EStateM.bind, hx]
    rw [hfail hx, hfail hy]
    exact ⟨rfl, h'⟩

theorem Respects.bind {x : EStateM ε σ α} {f : α → EStateM ε σ β} (hx : Respects R x)
    (hf : ∀ a, Respects R (f a)) : Respects R (x >>= f) :=
  fun s t h => (hx s t h).bind fun a s' t' h' => hf a s' t' h'

/-- Failures that are alike are dealt with in states that are related. -/
theorem Alike.tryCatch {x y : EStateM ε σ α} {s t : σ} (h : Alike R (x s) (y t))
    {handler : ε → EStateM ε σ α} (hhandler : ∀ e, Respects R (handler e)) :
    Alike R (tryCatch x handler s) (tryCatch y handler t) := by
  obtain ⟨a, s', t', hx, hy, h'⟩ | ⟨e, s', t', hx, hy, h'⟩ := h.cases
  · rw [tryCatch_of_ok hx, tryCatch_of_ok hy]
    exact ⟨rfl, h'⟩
  · rw [tryCatch_of_error hx, tryCatch_of_error hy]
    exact hhandler e s' t' h'

theorem Respects.tryCatch {x : EStateM ε σ α} {handler : ε → EStateM ε σ α} (hx : Respects R x)
    (hhandler : ∀ e, Respects R (handler e)) : Respects R (tryCatch x handler) :=
  fun s t h => (hx s t h).tryCatch hhandler

end Respects

/-! ### A used record and a new one -/

open SessionM

/-- The record of `s` shows what the record of `t` has, and what `old` has where the record of `t`
has nothing. The attributes in `names` are among those that the record of `t` has. Nothing is said
of those in `kept`. -/
structure Session.Overlays (names kept : List String) (old : Value) (s t : Session) : Prop where
  store_eq : s.store = t.store
  isRecord : ∃ attributes attributes', s.record = .record attributes ∧
    t.record = .record attributes'
  isSome : ∀ n ∈ names, (t.record.attribute? n).isSome
  attribute? : ∀ n ∉ kept,
    s.record.attribute? n = (t.record.attribute? n).or (old.attribute? n)

section Session

variable {names kept : List String} {old : Value} {α : Type}

/-- An attribute that the new record has is the same in the used one. -/
theorem Session.Overlays.attribute?_eq {s t : Session} (h : s.Overlays names kept old t)
    {name : String} (hname : name ∈ names) (hkept : name ∉ kept) :
    s.record.attribute? name = t.record.attribute? name := by
  rw [h.attribute? name hkept, Option.or_of_isSome (h.isSome name hname)]

/-- Both records get a value under the same name. -/
theorem Session.Overlays.set {attributes attributes' : List (String × Value)} {s t : Session}
    (h : s.Overlays names kept old t) (hs : s.record = .record attributes)
    (ht : t.record = .record attributes') (name : String) (value : Value) (store : Store)
    (calls calls' : List Call) :
    Session.Overlays names kept old ⟨.record (setEntry name value attributes), store, calls⟩
      ⟨.record (setEntry name value attributes'), store, calls'⟩ := by
  obtain ⟨-, -, hsome, hattribute⟩ := h
  rw [hs, ht] at hattribute
  rw [ht] at hsome
  refine ⟨rfl, ⟨_, _, rfl, rfl⟩, fun n hn => ?_, fun n hn => ?_⟩
  · simp only [Value.attribute?, lookup_setEntry] at hsome ⊢
    split
    · rfl
    · exact hsome n hn
  · simp only [Value.attribute?, lookup_setEntry] at hattribute ⊢
    split
    · rfl
    · exact hattribute n hn

theorem respects_setAttribute (name : String) (value : Value) :
    Respects (Session.Overlays names kept old) (setAttribute name value) := by
  rintro ⟨_, store, calls⟩ ⟨_, store', calls'⟩ h
  obtain ⟨a, b, hs, ht⟩ := h.isRecord
  obtain rfl : store = store' := h.store_eq
  have hset := h.set hs ht name value store calls calls'
  obtain rfl : _ = Value.record a := hs
  obtain rfl : _ = Value.record b := ht
  exact ⟨rfl, hset⟩

theorem respects_ofExcept (result : Except Failure α) :
    Respects (Session.Overlays names kept old) (ofExcept result : SessionM α) := by
  cases result with
  | ok a => exact respects_pure a
  | error failure => exact respects_throw failure

theorem respects_heap_bind {k : Heap → SessionM α}
    (hk : ∀ h, Respects (Session.Overlays names kept old) (k h)) :
    Respects (Session.Overlays names kept old) (heap >>= k) := by
  intro s t h
  change Alike _ (k s.store.heap s) (k t.store.heap t)
  rw [h.store_eq]
  exact hk t.store.heap s t h

theorem respects_valueOf {name : String} (hname : name ∈ names) (hkept : name ∉ kept) :
    Respects (Session.Overlays names kept old) (valueOf name) := by
  intro s t h
  have hsame := h.attribute?_eq hname hkept
  have hsome {v : Value} (s : Session) (hv : s.record.attribute? name = some v) :
      valueOf name s = .ok v s :=
    reads_valueOf s.store hv s.calls
  cases hvalue : t.record.attribute? name with
  | none =>
    rw [valueOf_of_none hvalue, valueOf_of_none (hsame.trans hvalue)]
    exact ⟨rfl, h⟩
  | some v =>
    rw [hsome t hvalue, hsome s (hsame.trans hvalue)]
    exact ⟨rfl, h⟩

theorem respects_valueOrNull {name : String} (hname : name ∈ names) (hkept : name ∉ kept) :
    Respects (Session.Overlays names kept old) (valueOrNull name) := by
  intro s t h
  change Alike _ (.ok ((s.record.attribute? name).getD .null) s) _
  rw [h.attribute?_eq hname hkept]
  exact ⟨rfl, h⟩

/-- Work on the same value does the same, whatever record has it. -/
theorem respects_within (name : String) (value : Value) (work : SessionM Unit) :
    Respects (Session.Overlays names kept old) (within name value work) := by
  rintro ⟨_, store, calls⟩ ⟨_, store', calls'⟩ h
  obtain ⟨a, b, hs, ht⟩ := h.isRecord
  obtain rfl : store = store' := h.store_eq
  have hset (inner : Session) := h.set hs ht name inner.record inner.store
    (calls ++ [.within name inner.calls]) (calls' ++ [.within name inner.calls])
  obtain rfl : _ = Value.record a := hs
  obtain rfl : _ = Value.record b := ht
  rw [within, within]
  cases work ⟨value, store, []⟩ with
  | ok _ inner => exact ⟨rfl, hset inner⟩
  | error failure inner => exact ⟨rfl, hset inner⟩

end Session

/-! ### Decoding and releasing -/

namespace Field

section Respects

variable {names kept : List String} {old : Value} {f : Field} {fields : List Field}

theorem respects_mark (slot : Slot) (present : Bool) :
    Respects (Session.Overlays names kept old) (mark slot present) := by
  rw [mark]
  cases slot.tracker? with
  | none => exact respects_pure ()
  | some tracker => exact respects_setAttribute tracker _

theorem respects_wrongKind (expected : ObjectKind) (id : ObjectId) :
    Respects (Session.Overlays names kept old) (wrongKind expected id : SessionM Unit) :=
  respects_heap_bind fun _ => respects_throw _

theorem respects_decodeKey (slot : Slot) (dict : ObjectId) {decoding : ObjectId → SessionM Unit}
    (hdecoding : ∀ id, Respects (Session.Overlays names kept old) (decoding id)) :
    Respects (Session.Overlays names kept old) (decodeKey slot dict decoding) := by
  refine respects_heap_bind fun h => ?_
  split
  · refine ((hdecoding _).tryCatch fun failure => ?_).bind fun _ => respects_mark slot true
    split
    · exact (respects_mark slot false).bind fun _ => respects_throw _
    · exact respects_throw failure
  · split
    · exact respects_throw _
    · exact respects_pure ()

/-- The work on the attribute of a regular field looks at nothing but a record in it. -/
theorem respects_decode (dict : ObjectId) (hf : f.Regular)
    (hnested : ∀ slot inner, f = nested slot inner → slot.name ∈ names ∧ slot.name ∉ kept) :
    Respects (Session.Overlays names kept old) (f.decode dict) := by
  cases f with
  | scalar slot type default =>
    exact respects_decodeKey slot dict fun id => respects_heap_bind fun h =>
      (respects_ofExcept _).bind fun v => respects_setAttribute slot.name v
  | nested slot inner =>
    obtain ⟨hname, hkept⟩ := hnested slot inner rfl
    refine respects_decodeKey slot dict fun id => respects_heap_bind fun h => ?_
    split
    · exact (respects_valueOf hname hkept).bind fun v => respects_within slot.name v _
    · exact respects_wrongKind .dict id
  | array _ _ => exact hf.elim
  | custom _ _ => exact hf.elim

theorem respects_release (hf : f.Regular)
    (hnested : ∀ slot inner, f = nested slot inner → slot.name ∈ names ∧ slot.name ∉ kept) :
    Respects (Session.Overlays names kept old) f.release := by
  cases f with
  | scalar slot type default =>
    cases type with
    | string => exact respects_setAttribute slot.name .null
    | _ => exact respects_pure ()
  | nested slot inner =>
    obtain ⟨hname, hkept⟩ := hnested slot inner rfl
    refine (respects_valueOrNull hname hkept).bind fun v => ?_
    split
    · exact respects_pure ()
    · exact respects_within slot.name v _
  | array _ _ => exact hf.elim
  | custom _ _ => exact hf.elim

theorem respects_decodeAll (dict : ObjectId) (hfields : AllRegular fields)
    (hnested : ∀ slot inner, nested slot inner ∈ fields → slot.name ∈ names ∧ slot.name ∉ kept) :
    Respects (Session.Overlays names kept old) (decodeAll dict fields) := by
  induction fields with
  | nil => exact respects_pure ()
  | cons f fields ih =>
    refine (respects_decode dict hfields.1 fun slot inner hf => ?_).bind fun _ =>
      ih hfields.2 fun slot inner hmem => hnested slot inner (List.mem_cons_of_mem f hmem)
    exact hnested slot inner (hf ▸ List.mem_cons_self)

theorem respects_releaseAll (hfields : AllRegular fields)
    (hnested : ∀ slot inner, nested slot inner ∈ fields → slot.name ∈ names ∧ slot.name ∉ kept) :
    Respects (Session.Overlays names kept old) (releaseAll fields) := by
  induction fields with
  | nil => exact respects_pure ()
  | cons f fields ih =>
    refine (respects_release hfields.1 fun slot inner hf => ?_).bind fun _ =>
      ih hfields.2 fun slot inner hmem => hnested slot inner (List.mem_cons_of_mem f hmem)
    exact hnested slot inner (hf ▸ List.mem_cons_self)

end Respects

/-! ### Initial values -/

/-- The attribute that keeps a value which is there: that of a `charbuf` without an initial value.
-/
def kept? : Field → Option String
  | scalar slot (.charbuf _) .null => some slot.name
  | _ => none

/-- The attributes of fields that keep a value which is there. -/
def kept (fields : List Field) : List String :=
  fields.filterMap kept?

theorem isSome_lookup_iff {entries : List (String × Value)} {n : String} :
    (entries.lookup n).isSome ↔ n ∈ entries.map Prod.fst := by
  rw [List.lookup_isSome_iff, List.mem_map]
  exact exists_congr fun entry => and_congr_right fun _ => beq_iff_eq.trans eq_comm

/-- Releasing changes values and no names. -/
theorem map_fst_releasedAll (fields : List Field) (entries : List (String × Value)) :
    (releasedAll fields entries).map Prod.fst = entries.map Prod.fst := by
  induction fields generalizing entries with
  | nil => rfl
  | cons f fields ih =>
    rw [releasedAll, ih, List.map_map]
    refine List.map_congr_left fun entry _ => ?_
    dsimp only [Function.comp]
    split <;> rfl

theorem name_eq_of_kept? {f : Field} {name : String} (h : f.kept? = some name) :
    f.slot.name = name := by
  unfold kept? at h
  split at h
  · exact Option.some.inj h
  · cases h

/-- The record of a field is no value that is kept. -/
theorem name_notMem_kept {fields : List Field} (hnodup : (names fields).Nodup) {slot : Slot}
    {inner : List Field} (hmem : nested slot inner ∈ fields) : slot.name ∉ kept fields := by
  intro hkept
  obtain ⟨g, hg, hname⟩ := List.mem_filterMap.1 hkept
  have hslot : g.slot.name = slot.name := name_eq_of_kept? hname
  obtain rfl := (Separate.of_nodup hnodup).eq_of_name_eq hg hmem hslot
  cases hname

/-- A mark is no value that is kept. -/
theorem tracker_notMem_kept {fields : List Field} (hnodup : (names fields).Nodup) {f : Field}
    (hf : f ∈ fields) {tracker : String} (htracker : f.slot.tracker? = some tracker) :
    tracker ∉ kept fields := by
  intro hkept
  obtain ⟨g, hg, hname⟩ := List.mem_filterMap.1 hkept
  obtain rfl : g.slot.name = tracker := name_eq_of_kept? hname
  exact (Separate.of_nodup hnodup).tracker_ne f hf g hg htracker

theorem lookup_entries (slot : Slot) (present : Bool) (value : Value) (n : String) :
    (slot.entries present value).lookup n =
      if n = slot.name then some value
      else if slot.tracker? = some n then some (.bool present) else none := by
  rw [Slot.entries, Slot.marks]
  cases htracker : slot.tracker? with
  | none => grind [List.lookup]
  | some tracker =>
    have hne : tracker ≠ slot.name := by
      simpa using (Option.filter_eq_some_iff.1 htracker).2
    grind [List.lookup]

/-- Marking the key changes nothing but the attribute that tracks it. -/
theorem exists_turns_mark (slot : Slot) (present : Bool) (store : Store)
    (attributes : List (String × Value)) :
    ∃ attributes', Turns (mark slot present) store (.record attributes) (.record attributes') ∧
      ∀ n, attributes'.lookup n =
        if slot.tracker? = some n then some (.bool present) else attributes.lookup n := by
  rw [mark]
  cases slot.tracker? with
  | none =>
    exact ⟨attributes, turns_pure store _, fun n => (if_neg (Option.some_ne_none n).symm).symm⟩
  | some tracker =>
    refine ⟨_, turns_setAttribute tracker _ store attributes, fun n => ?_⟩
    rw [lookup_setEntry]
    exact if_congr ⟨fun h => congrArg some h.symm, fun h => (Option.some.inj h).symm⟩ rfl rfl

/-- A scalar gives its attribute the initial value, unless the attribute keeps its value. -/
theorem exists_turns_initialiseScalar {slot : Slot} {type : ScalarType} {default : Value}
    (hadmits : type.Admits default) (store : Store) (attributes : List (String × Value)) :
    ∃ attributes', Turns (initialiseScalar slot type default) store (.record attributes)
        (.record attributes') ∧
      ∀ n, (scalar slot type default).kept? ≠ some n → attributes'.lookup n =
        if n = slot.name then some (type.initial default) else attributes.lookup n := by
  have hset (value : Value) := turns_setAttribute slot.name value store attributes
  have hlookup (value : Value) (n : String) := lookup_setEntry slot.name value attributes n
  cases type with
  | charbuf length =>
    cases default with
    | null =>
      have hread := reads_valueOrNull slot.name store (.record attributes)
      cases hnull : ((Value.record attributes).attributeOrNull slot.name).isNull with
      | true =>
        refine ⟨_, hread.turns ?_, fun n _ => hlookup (.text []) n⟩
        rw [if_pos hnull]
        exact hset _
      | false =>
        refine ⟨attributes, hread.turns ?_, fun n hn => ?_⟩
        · rw [if_neg (by rw [hnull]; exact Bool.false_ne_true)]
          exact turns_pure store _
        · exact (if_neg fun h => hn (congrArg some h.symm)).symm
    | text t =>
      have hlength : Scalar.checkLength length t = .ok () :=
        if_neg (Int.not_lt.2 hadmits)
      refine ⟨_, ?_, fun n _ => hlookup (.text t) n⟩
      rw [initialiseScalar]
      simp only [hlength, Except.mapError]
      exact hset _
    | _ => exact hadmits.elim
  | _ => exact ⟨_, hset default, fun n _ => hlookup default n⟩

/-- A regular field puts its initial entries over what the record has. -/
theorem exists_turns_initialise {f : Field} (hf : f.Regular) (store : Store)
    (given : List (String × Value)) :
    ∃ made, Turns f.initialise store (.record given) (.record made) ∧
      ∀ n, f.kept? ≠ some n → made.lookup n =
        ((f.slot.entries false (f.value store.heap none)).lookup n).or (given.lookup n) := by
  obtain ⟨marked, hmark, hmarked⟩ := exists_turns_mark f.slot false store given
  have hlookup {made : List (String × Value)} {n : String} {value : Value}
      (h : made.lookup n = if n = f.slot.name then some value else marked.lookup n) :
      made.lookup n = ((f.slot.entries false value).lookup n).or (given.lookup n) := by
    rw [h, hmarked, lookup_entries]
    split
    · rfl
    · split <;> rfl
  cases f with
  | scalar slot type default =>
    obtain ⟨made, hinit, hmade⟩ := exists_turns_initialiseScalar hf store marked
    exact ⟨made, hmark.seq hinit, fun n hn => hlookup (hmade n hn)⟩
  | nested slot inner =>
    have hinner : Turns (initialiseAll inner) store .emptyRecord
        (.record (attributes store.heap none inner)) :=
      turns_initialiseAll store inner hf.2 hf.1 [] (List.disjoint_nil_right _)
    have hcreate : Turns (modify fun s => { s with calls := s.calls ++ [.create] }) store
        (.record marked) (.record marked) :=
      fun calls => ⟨calls ++ [.create], rfl⟩
    refine ⟨_, hmark.seq (hcreate.seq
      ((turns_setAttribute slot.name .emptyRecord store marked).seq
        (hinner.leaves.within slot.name _).turns)), fun n _ => hlookup ?_⟩
    have htwice (v w : Value) : (setEntry slot.name w (setEntry slot.name v marked)).lookup n =
        if n = slot.name then some w else marked.lookup n := by
      rw [lookup_setEntry, lookup_setEntry]
      split_ifs <;> rfl
    exact htwice _ _
  | array _ _ => exact hf.elim
  | custom _ _ => exact hf.elim

/-- Regular fields put their initial entries over what the record has. -/
theorem exists_turns_initialiseAll (store : Store) {fields : List Field}
    (hfields : AllRegular fields) (hnodup : (names fields).Nodup) (given : List (String × Value)) :
    ∃ made, Turns (initialiseAll fields) store (.record given) (.record made) ∧
      ∀ n ∉ kept fields, made.lookup n =
        ((attributes store.heap none fields).lookup n).or (given.lookup n) := by
  induction fields generalizing given with
  | nil => exact ⟨given, turns_pure store _, fun n _ => rfl⟩
  | cons f fields ih =>
    rw [names, List.flatMap_cons] at hnodup
    obtain ⟨first, hfirst, hlookup⟩ := exists_turns_initialise hfields.1 store given
    obtain ⟨made, hrest, hmade⟩ := ih hfields.2 hnodup.of_append_right first
    refine ⟨made, hfirst.seq hrest, fun n hn => ?_⟩
    have hkept : f.kept? ≠ some n ∧ n ∉ kept fields := by
      refine ⟨fun h => hn ?_, fun h => hn ?_⟩
      · exact List.mem_filterMap.2 ⟨f, List.mem_cons_self, h⟩
      · obtain ⟨g, hg, hname⟩ := List.mem_filterMap.1 h
        exact List.mem_filterMap.2 ⟨g, List.mem_cons_of_mem f hg, hname⟩
    rw [hmade n hkept.2, hlookup n hkept.1, attributes, List.lookup_append]
    by_cases hmem : n ∈ f.slot.names
    · -- The fields that follow have attributes of their own.
      have hnone : (attributes store.heap none fields).lookup n = none := by
        refine lookup_of_notMem fun h => ?_
        rw [map_fst_attributes] at h
        exact List.disjoint_of_nodup_append hnodup hmem h
      rw [hnone, Option.none_or, Option.or_none]
      rfl
    · have hnone : (f.slot.entries (store.heap.entry? none f.slot.key).isSome
          (f.value store.heap (store.heap.entry? none f.slot.key))).lookup n = none :=
        lookup_of_notMem fun h => hmem (Slot.map_fst_entries f.slot _ _ ▸ h)
      have hnone' : (f.slot.entries false (f.value store.heap none)).lookup n = none :=
        lookup_of_notMem fun h => hmem (Slot.map_fst_entries f.slot _ _ ▸ h)
      rw [hnone, hnone', Option.none_or, Option.none_or]

end Field

/-! ### Decoding -/

namespace Descriptor

variable {d : Descriptor} {dict : ObjectId} {store : Store}

/-- **A used record and a new one.** Decoding into them gives the same result or fails in the same
way, and what it leaves of the used record is what it leaves of the new one, over what there was. -/
theorem alike_decode (hd : d.Regular) (hdict : store.heap.kind dict = .dict)
    (given : List (String × Value)) (calls calls' : List Call) :
    Alike (Session.Overlays (Field.names d.fields) (Field.kept d.fields) (.record given))
      (d.decode dict false ⟨.record given, store, calls⟩)
      (d.decode dict false ⟨.emptyRecord, store, calls'⟩) := by
  have hnested (slot : Slot) (inner : List Field) (hmem : .nested slot inner ∈ d.fields) :
      slot.name ∈ Field.names d.fields ∧ slot.name ∉ Field.kept d.fields :=
    ⟨List.mem_flatMap.2 ⟨_, hmem, Slot.name_mem_names _⟩,
      Field.name_notMem_kept hd.1 hmem⟩
  obtain ⟨made, hused, hmade⟩ :=
    Field.exists_turns_initialiseAll store hd.2 hd.1 given
  have hnew : Turns (Field.initialiseAll d.fields) store .emptyRecord
      (.record (Field.attributes store.heap none d.fields)) :=
    Field.turns_initialiseAll store d.fields hd.2 hd.1 [] (List.disjoint_nil_right _)
  obtain ⟨called, hused⟩ := hused calls
  obtain ⟨called', hnew⟩ := hnew calls'
  rw [decode_eq_tryCatch_opened hdict, decode_eq_tryCatch_opened hdict]
  refine Alike.tryCatch ?_ fun failure =>
    (Field.respects_releaseAll hd.2 hnested).bind fun _ => respects_throw failure
  rw [fill, Session.opened, Session.opened, if_neg Bool.false_ne_true, if_neg Bool.false_ne_true,
    bind_of_ok hused, bind_of_ok hnew]
  refine Field.respects_decodeAll dict hd.2 hnested _ _ ⟨rfl, ⟨_, _, rfl, rfl⟩, fun n hn => ?_,
    hmade⟩
  rw [← Field.map_fst_attributes store.heap none] at hn
  exact Field.isSome_lookup_iff.2 hn

/-- **What is left of a used record.** Decoding ends in the failure of the first field that fails,
and leaves what it leaves of a new record, over what there was. -/
theorem exists_decode_given (hd : d.Regular) (hdict : store.heap.kind dict = .dict)
    (given : List (String × Value)) (calls : List Call) :
    ∃ left called,
      (d.decode dict false ⟨.record given, store, calls⟩ =
        match Field.firstFailure? store.heap dict d.fields with
        | none => .ok () ⟨.record left, store, called⟩
        | some failure => .error failure ⟨.record left, store, called⟩) ∧
      ∀ n ∉ Field.kept d.fields, left.lookup n =
        ((d.recordLeft store.heap dict).attribute? n).or (given.lookup n) := by
  obtain ⟨called, hnew⟩ := leaves_decode hd hdict (.inr rfl : false = true ∨ _) calls
  have hleft {s : Session} (h : s.Overlays (Field.names d.fields) (Field.kept d.fields)
      (.record given) ⟨d.recordLeft store.heap dict, store, called⟩) :
      ∃ left called, s = ⟨.record left, store, called⟩ ∧ ∀ n ∉ Field.kept d.fields,
        left.lookup n = ((d.recordLeft store.heap dict).attribute? n).or (given.lookup n) := by
    obtain ⟨record, store', called'⟩ := s
    obtain ⟨rfl, ⟨left, _, rfl, -⟩, -, hattribute⟩ := h
    exact ⟨left, called', rfl, hattribute⟩
  have halike := alike_decode hd hdict given calls calls
  rw [hnew] at halike
  cases hfailure : Field.firstFailure? store.heap dict d.fields with
  | none =>
    rw [hfailure] at halike
    obtain ⟨_, s, _, hused, ⟨⟩, hover⟩ | ⟨_, _, _, _, ⟨⟩, _⟩ := halike.cases
    obtain ⟨left, called', rfl, hattribute⟩ := hleft hover
    exact ⟨left, called', hused, hattribute⟩
  | some failure =>
    rw [hfailure] at halike
    obtain ⟨_, _, _, _, ⟨⟩, _⟩ | ⟨_, s, _, hused, ⟨⟩, hover⟩ := halike.cases
    obtain ⟨left, called', rfl, hattribute⟩ := hleft hover
    exact ⟨left, called', hused, hattribute⟩

/-- What decoding leaves of a new record has the attributes of the fields and no others. -/
theorem isSome_attribute?_recordLeft (hd : d.Regular) (h : Heap) (dict : ObjectId) (n : String) :
    ((d.recordLeft h dict).attribute? n).isSome ↔ n ∈ Field.names d.fields := by
  have hreached := (Field.allLaidOut_reachedAll h hd.2 dict).map_fst
  rw [← hreached, recordLeft, Value.attribute?]
  split_ifs
  · exact Field.isSome_lookup_iff
  · rw [← Field.map_fst_releasedAll d.fields]
    exact Field.isSome_lookup_iff

/-- **What decoding leaves of any record.** Decoding ends in the failure of the first field that
fails, and what it leaves of a new record can be seen in the record that it leaves. -/
theorem exists_decode_eq (hd : d.Regular) {s : Session} (hdict : s.store.heap.kind dict = .dict)
    {fresh : Bool} (hrecord : fresh = true ∨ ∃ given, s.record = .record given) :
    ∃ s', (d.decode dict fresh s = match Field.firstFailure? s.store.heap dict d.fields with
        | none => .ok () s'
        | some failure => .error failure s') ∧
      ∀ n ∉ Field.kept d.fields, ∀ v, (d.recordLeft s.store.heap dict).attribute? n = some v →
        s'.record.attribute? n = some v := by
  obtain ⟨record, store, calls⟩ := s
  cases fresh with
  | true =>
    obtain ⟨called, hrun⟩ := leaves_decode hd hdict (.inl rfl) calls
    refine ⟨⟨d.recordLeft store.heap dict, store, called⟩, hrun.trans ?_, fun n _ v hv => hv⟩
    cases Field.firstFailure? store.heap dict d.fields <;> rfl
  | false =>
    obtain ⟨given, rfl⟩ := hrecord.resolve_left Bool.false_ne_true
    obtain ⟨left, called, hrun, hleft⟩ := exists_decode_given hd hdict given calls
    refine ⟨⟨.record left, store, called⟩, hrun, fun n hn v hv => ?_⟩
    exact (hleft n hn).trans (by rw [hv, Option.some_or])

/-- Each `charbuf` of the record has an initial value, so that no attribute keeps what it has. -/
theorem kept_eq_nil (hdefault : ∀ slot length default,
    .scalar slot (.charbuf length) default ∈ d.fields → default ≠ .null) :
    Field.kept d.fields = [] := by
  refine List.filterMap_eq_nil_iff.2 fun f hf => ?_
  unfold Field.kept?
  split
  · exact absurd rfl (hdefault _ _ _ hf)
  · rfl

/-- **Decoding into a used record leaves nothing stale.** Two records with any attributes are
decoded into from the same dictionary. Both succeed or both fail in the same way, and then they have
the same values for all attributes of the fields, those of records in them included. The other
attributes are as they were. -/
theorem decode_forgets (hd : d.Regular)
    (hdefault : ∀ slot length default,
      .scalar slot (.charbuf length) default ∈ d.fields → default ≠ .null)
    (hdict : store.heap.kind dict = .dict) (given₁ given₂ : List (String × Value))
    (calls₁ calls₂ : List Call) :
    ∃ s₁ s₂,
      (d.decode dict false ⟨.record given₁, store, calls₁⟩ = .ok () s₁ ∧
          d.decode dict false ⟨.record given₂, store, calls₂⟩ = .ok () s₂ ∨
        ∃ failure, d.decode dict false ⟨.record given₁, store, calls₁⟩ = .error failure s₁ ∧
          d.decode dict false ⟨.record given₂, store, calls₂⟩ = .error failure s₂) ∧
      s₁.store = s₂.store ∧
      (∀ n ∈ Field.names d.fields, ∃ v,
        s₁.record.attribute? n = some v ∧ s₂.record.attribute? n = some v) ∧
      ∀ n ∉ Field.names d.fields,
        s₁.record.attribute? n = (Value.record given₁).attribute? n ∧
          s₂.record.attribute? n = (Value.record given₂).attribute? n := by
  obtain ⟨left₁, called₁, hrun₁, hleft₁⟩ := exists_decode_given hd hdict given₁ calls₁
  obtain ⟨left₂, called₂, hrun₂, hleft₂⟩ := exists_decode_given hd hdict given₂ calls₂
  rw [kept_eq_nil hdefault] at hleft₁ hleft₂
  have hnames (n : String) := isSome_attribute?_recordLeft hd store.heap dict n
  refine ⟨⟨.record left₁, store, called₁⟩, ⟨.record left₂, store, called₂⟩, ?_, rfl,
    fun n hn => ?_, fun n hn => ?_⟩
  · rw [hrun₁, hrun₂]
    cases Field.firstFailure? store.heap dict d.fields with
    | none => exact .inl ⟨rfl, rfl⟩
    | some failure => exact .inr ⟨failure, rfl, rfl⟩
  · obtain ⟨v, hv⟩ := Option.isSome_iff_exists.1 ((hnames n).2 hn)
    refine ⟨v, (hleft₁ n List.not_mem_nil).trans ?_, (hleft₂ n List.not_mem_nil).trans ?_⟩
    · rw [hv, Option.some_or]
    · rw [hv, Option.some_or]
  · have hnone : (d.recordLeft store.heap dict).attribute? n = none :=
      Option.not_isSome_iff_eq_none.1 fun h => hn ((hnames n).1 h)
    refine ⟨(hleft₁ n List.not_mem_nil).trans ?_, (hleft₂ n List.not_mem_nil).trans ?_⟩
    · rw [hnone, Option.none_or]
      rfl
    · rw [hnone, Option.none_or]
      rfl

/-- A descriptor of an index card: a shelf mark of at most seven bytes and, in a record of its own,
the number of pages. -/
def card : Descriptor where
  fields :=
    [.scalar ⟨"mark", "mark", some "has_mark", false, 8⟩ (.charbuf 8) (.text "none"),
      .nested ⟨"extent", "extent", some "has_extent", false, 0⟩
        [.scalar ⟨"pages", "pages", none, true, 0⟩ .int64 (.int 0)]]
  nodup_keys := by decide
  distinctKeys := by decide

/-- The dictionary of an index card whose number of pages is missing, and its parts. -/
def cardHeap : Heap where
  objects :=
    #[⟨1, .dict ((Dict.empty.add "mark" 1).add "extent" 2)⟩, ⟨1, .string "PR6019"⟩,
      ⟨1, .dict Dict.empty⟩]
  live := 3

/-- An index card that has been used, with an owner, and a new one are both left with the shelf mark
of the dictionary that is refused, and the owner stays. -/
theorem decode_forgets_card :
    card.Regular ∧ (∀ slot length default,
      .scalar slot (.charbuf length) default ∈ card.fields → default ≠ .null) ∧
    cardHeap.kind 0 = .dict ∧
    ∃ failure s₁ s₂,
      card.decode 0 false ⟨.record [("owner", .text "Joyce"), ("has_mark", .bool false),
        ("extent", .record [("pages", .int 730)])], ⟨cardHeap, #[]⟩, []⟩ = .error failure s₁ ∧
      card.decode 0 false ⟨.record [], ⟨cardHeap, #[]⟩, []⟩ = .error failure s₂ ∧
      (∃ v, s₁.record.attribute? "mark" = some v ∧ s₂.record.attribute? "mark" = some v) ∧
      s₁.record.attribute? "owner" = some (.text "Joyce") ∧
      s₂.record.attribute? "owner" = none := by
  have hfits : ((Text.ofString "none").encode.length : Int) + 1 ≤ 8 := by decide
  have hd : card.Regular := ⟨by decide, hfits, ⟨by decide, trivial, trivial⟩, trivial⟩
  have hdefault (slot : Slot) (length : Int) (default : Value)
      (h : .scalar slot (.charbuf length) default ∈ card.fields) : default ≠ .null := by
    rcases List.mem_cons.1 h with h | h
    · cases h
      exact nofun
    · cases List.mem_singleton.1 h
  have hdict : cardHeap.kind 0 = .dict := by decide
  have hfails : (match card.decode 0 false ⟨.record [], ⟨cardHeap, #[]⟩, []⟩ with
    | .ok _ _ => false
    | .error _ _ => true) = true := rfl
  obtain ⟨s₁, s₂, houtcome, -, hnamed, hothers⟩ := @decode_forgets card 0 ⟨cardHeap, #[]⟩ hd
    hdefault hdict [("owner", .text "Joyce"), ("has_mark", .bool false),
      ("extent", .record [("pages", .int 730)])] [] [] []
  obtain ⟨-, hok⟩ | ⟨failure, hrun₁, hrun₂⟩ := houtcome
  · rw [hok] at hfails
    cases hfails
  · obtain ⟨howner₁, howner₂⟩ := hothers "owner" (by decide)
    exact ⟨hd, hdefault, hdict, failure, s₁, s₂, hrun₁, hrun₂, hnamed "mark" (by decide),
      howner₁, howner₂⟩

end Descriptor

end PropertyList

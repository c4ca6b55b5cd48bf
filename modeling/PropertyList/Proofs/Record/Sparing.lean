import PropertyList.Proofs.Record.Filling
import PropertyList.Record.Release

/-!
# Attributes that are left alone

An operation *spares* an attribute if it leaves it as it is, whatever callbacks do and whether or
not the operation fails. Whatever is done on a field spares every attribute that is not the field's
own, and releasing a field spares the marks of keys as well.

## Main definitions

* `SessionM.Spares`

## Main results

* `Field.spares_initialise`, `Field.spares_decode`, `Field.spares_release`
-/

namespace PropertyList

open SessionM

/-! ### Values -/

namespace Value

variable {r v : Value} {name n : String}

theorem attribute?_of_setAttribute? {r' : Value} (h : r.setAttribute? name v = some r')
    (n : String) : r'.attribute? n = if n = name then some v else r.attribute? n := by
  cases r with
  | record attributes =>
    obtain rfl := Option.some.inj h
    exact lookup_setEntry name v attributes n
  | _ => cases h

/-- Where an attribute gets a value, if it can have one, the others stay as they are. -/
theorem attribute?_getD_setAttribute? (hn : n ≠ name) :
    ((r.setAttribute? name v).getD r).attribute? n = r.attribute? n := by
  cases hset : r.setAttribute? name v with
  | none => rfl
  | some r' => rw [Option.getD_some, attribute?_of_setAttribute? hset, if_neg hn]

theorem attribute?_getD_setAttribute?_self {held : Value} (h : r.attribute? n = some held) :
    ((r.setAttribute? name v).getD r).attribute? name = some v := by
  cases r with
  | record attributes => exact (lookup_setEntry ..).trans (if_pos rfl)
  | _ => cases h

@[simp] theorem at?_singleton (r : Value) (name : String) : r.at? [name] = r.attribute? name :=
  Option.bind_fun_some (r.attribute? name)

theorem at?_cons (r : Value) (name : String) (path : List String) :
    r.at? (name :: path) = (r.attribute? name).bind (·.at? path) :=
  rfl

/-- Nothing can be found in what has no attributes. -/
theorem at?_concat_eq_none (h : ∀ n, r.attribute? n = none) (path : List String) (name : String) :
    r.at? (path ++ [name]) = none := by
  cases path with
  | nil => exact (at?_singleton r name).trans (h name)
  | cons n path => rw [List.cons_append, at?_cons, h n, Option.bind_none]

end Value

namespace SessionM

variable {α β : Type} {n name : String}

/-- Whether an operation leaves an attribute of the record as it is, also where it fails. -/
def Spares (n : String) (x : SessionM α) : Prop :=
  ∀ v?, Preserves (fun s => s.record.attribute? n = v?) x

theorem Spares.attribute?_eq {x : SessionM α} (hx : Spares n x) (s : Session) :
    (after x s).record.attribute? n = s.record.attribute? n :=
  hx _ s rfl

theorem Spares.bind {x : SessionM α} {k : α → SessionM β} (hx : Spares n x)
    (hk : ∀ a, Spares n (k a)) : Spares n (x >>= k) :=
  fun v? => (hx v?).bind fun a => hk a v?

/-- What follows on an operation does not matter if it leaves the attribute alone. -/
theorem attribute?_after_bind {k : α → SessionM β} (hk : ∀ a, Spares n (k a)) (x : SessionM α)
    (s : Session) :
    (after (x >>= k) s).record.attribute? n = (after x s).record.attribute? n := by
  cases hx : x s with
  | ok a t =>
    rw [after, bind_of_ok hx, ← after, after_of_ok hx]
    exact (hk a).attribute?_eq t
  | error failure t => rw [after_of_error (bind_of_error hx k), after_of_error hx]

theorem spares_pure (a : α) : Spares n (pure a) :=
  fun _ => preserves_pure a

theorem spares_throw (failure : Failure) : Spares n (throw failure : SessionM α) :=
  fun _ => preserves_throw failure

theorem spares_ofExcept (result : Except Failure α) : Spares n (ofExcept result) :=
  fun _ => Field.preserves_ofExcept result

theorem spares_heap_bind {k : Heap → SessionM α} (hk : ∀ h, Spares n (k h)) :
    Spares n (heap >>= k) :=
  fun v? => Field.preserves_heap_bind fun h => hk h v?

theorem spares_valueOrNull_bind {k : Value → SessionM α} (hk : ∀ v, Spares n (k v)) :
    Spares n (valueOrNull name >>= k) :=
  fun v? => Field.preserves_valueOrNull_bind fun v => hk v v?

theorem spares_valueOf_bind {k : Value → SessionM α} (hk : ∀ v, Spares n (k v)) :
    Spares n (valueOf name >>= k) := by
  refine Spares.bind (fun v? => preserves_get_bind fun s _ => ?_) hk
  cases s.record.attribute? name with
  | none => exact preserves_throw _
  | some v => exact preserves_pure v

theorem spares_call (note : List Call → Call) (callback : Callback α) :
    Spares n (call note callback) := by
  intro v? s hs
  rwa [Field.after_call]

/-- The record after an attribute has got a value, or cannot have one. -/
theorem record_after_setAttribute (name : String) (v : Value) (s : Session) :
    (after (setAttribute name v) s).record = (s.record.setAttribute? name v).getD s.record := by
  obtain ⟨record, store, calls⟩ := s
  cases record <;> rfl

theorem attribute?_of_setAttribute_eq_ok {v : Value} {s t : Session}
    (h : setAttribute name v s = .ok () t) : t.record.attribute? name = some v := by
  obtain ⟨record, store, calls⟩ := s
  cases record with
  | record attributes =>
    cases h
    exact (lookup_setEntry ..).trans (if_pos rfl)
  | _ => cases h

theorem spares_setAttribute (hn : n ≠ name) (v : Value) : Spares n (setAttribute name v) := by
  intro v? s hs
  rw [record_after_setAttribute, Value.attribute?_getD_setAttribute? hn, hs]

/-- Work on the value of an attribute leaves the other attributes as they are. -/
theorem spares_within (hn : n ≠ name) (v : Value) (work : SessionM Unit) :
    Spares n (within name v work) := by
  intro v? s hs
  rw [Field.after_within]
  exact (Value.attribute?_getD_setAttribute? hn).trans hs

end SessionM

namespace Field

variable {n : String} {slot : Slot} {dict : ObjectId}

theorem spares_mark (hn : slot.tracker? ≠ some n) (present : Bool) :
    Spares n (mark slot present) := by
  rw [mark]
  cases htracker : slot.tracker? with
  | none => exact spares_pure ()
  | some tracker =>
    exact spares_setAttribute (fun h => hn (htracker.trans (congrArg some h.symm))) _

theorem spares_decodeKey (hn : slot.tracker? ≠ some n) {decoding : ObjectId → SessionM Unit}
    (hdecoding : ∀ id, Spares n (decoding id)) : Spares n (decodeKey slot dict decoding) := by
  refine spares_heap_bind fun h => ?_
  split
  · refine Spares.bind (fun v? => (hdecoding _ v?).tryCatch fun failure => ?_) fun _ =>
      spares_mark hn true
    split
    · exact (spares_mark hn false).bind (fun _ => spares_throw _) v?
    · exact preserves_throw failure
  · split
    · exact spares_throw _
    · exact spares_pure ()

theorem spares_decodeItems (name : String) (handler : ArrayHandler) (items : List ObjectId)
    (i : Nat) (value : Value) : Spares n (decodeItems name handler items i value) := by
  induction items generalizing i value with
  | nil => exact spares_pure value
  | cons item items ih => exact (spares_call _ _).bind fun value => ih (i + 1) value

theorem spares_initialiseHandled (hn : n ≠ slot.name) (handler : Handler) :
    Spares n (initialiseHandled slot handler) := by
  rw [initialiseHandled]
  cases handler.init with
  | none => exact spares_pure ()
  | some init => exact (spares_call _ init).bind fun _ => spares_setAttribute hn _

theorem spares_initialiseScalar (hn : n ≠ slot.name) (type : ScalarType) (default : Value) :
    Spares n (initialiseScalar slot type default) := by
  cases type with
  | charbuf length =>
    cases default with
    | null =>
      refine spares_valueOrNull_bind fun v => ?_
      split
      · exact spares_setAttribute hn _
      · exact spares_pure ()
    | text t => exact (spares_ofExcept _).bind fun _ => spares_setAttribute hn _
    | _ => exact spares_throw _
  | _ => exact spares_setAttribute hn default

/-- A field marks its key as absent before it gets its initial value. -/
theorem exists_initialise_eq (f : Field) :
    ∃ rest, f.initialise = (mark f.slot false >>= fun _ => rest) ∧
      ∀ n ≠ f.slot.name, Spares n rest := by
  cases f with
  | scalar slot type default =>
    exact ⟨_, rfl, fun n hn => spares_initialiseScalar hn type default⟩
  | nested slot inner =>
    exact ⟨_, rfl, fun n hn => Spares.bind (fun _ => preserves_modify fun _ hs => hs) fun _ =>
      (spares_setAttribute hn _).bind fun _ => spares_within hn _ _⟩
  | array slot handler => exact ⟨_, rfl, fun n hn => spares_initialiseHandled hn _⟩
  | custom slot handler => exact ⟨_, rfl, fun n hn => spares_initialiseHandled hn _⟩

/-- A field decodes the object under its key, and does nothing besides marking the key. -/
theorem exists_decode_eq (f : Field) (dict : ObjectId) :
    ∃ decoding, f.decode dict = decodeKey f.slot dict decoding ∧
      ∀ id, ∀ n ≠ f.slot.name, Spares n (decoding id) := by
  cases f with
  | scalar slot type default =>
    exact ⟨_, rfl, fun id n hn => spares_heap_bind fun _ => (spares_ofExcept _).bind fun _ =>
      spares_setAttribute hn _⟩
  | nested slot inner =>
    refine ⟨_, rfl, fun id n hn => spares_heap_bind fun h => ?_⟩
    split
    · exact spares_valueOf_bind fun v => spares_within hn v _
    · exact spares_heap_bind fun _ => spares_throw _
  | array slot handler =>
    refine ⟨_, rfl, fun id n hn => spares_heap_bind fun h => ?_⟩
    split
    · exact spares_heap_bind fun _ => spares_throw _
    · exact spares_valueOrNull_bind fun v => (spares_decodeItems _ _ _ _ v).bind fun _ =>
        spares_setAttribute hn _
  | custom slot handler =>
    exact ⟨_, rfl, fun id n hn => spares_valueOrNull_bind fun v => (spares_call _ _).bind fun _ =>
      spares_setAttribute hn _⟩

theorem ne_of_notMem_names (hn : n ∉ slot.names) : n ≠ slot.name ∧ slot.tracker? ≠ some n :=
  ⟨fun h => hn (h ▸ slot.name_mem_names), fun h => hn (Slot.mem_names_of_tracker? h)⟩

/-- Giving a field its initial value leaves the attributes of others as they are. -/
theorem spares_initialise (f : Field) (hn : n ∉ f.slot.names) : Spares n f.initialise := by
  obtain ⟨hname, htracker⟩ := ne_of_notMem_names hn
  obtain ⟨rest, hrest, hspares⟩ := f.exists_initialise_eq
  rw [hrest]
  exact (spares_mark htracker false).bind fun _ => hspares n hname

/-- Decoding a field leaves the attributes of others as they are. -/
theorem spares_decode (dict : ObjectId) (f : Field) (hn : n ∉ f.slot.names) :
    Spares n (f.decode dict) := by
  obtain ⟨hname, htracker⟩ := ne_of_notMem_names hn
  obtain ⟨decoding, hdecode, hspares⟩ := f.exists_decode_eq dict
  rw [hdecode]
  exact spares_decodeKey htracker fun id => hspares id n hname

theorem spares_releaseHandled (hn : n ≠ slot.name) (handler : Handler) :
    Spares n (releaseHandled slot handler) := by
  rw [releaseHandled]
  cases handler.release with
  | none => exact spares_pure ()
  | some release =>
    refine spares_valueOrNull_bind fun v => ?_
    have hset := spares_setAttribute hn .null
    split
    · exact hset
    · exact fun v? => preserves_get_bind fun s _ => ((spares_call _ _).bind fun _ => hset) v?

/-- Releasing a field leaves the marks of keys and the values of others as they are. -/
theorem spares_release (f : Field) (hn : n ≠ f.slot.name) : Spares n f.release := by
  cases f with
  | scalar slot type default =>
    cases type with
    | string => exact spares_setAttribute hn .null
    | _ => exact spares_pure ()
  | nested slot inner =>
    refine spares_valueOrNull_bind fun v => ?_
    split
    · exact spares_pure ()
    · exact spares_within hn v _
  | array slot handler => exact spares_releaseHandled hn _
  | custom slot handler => exact spares_releaseHandled hn _

theorem spares_release_of_notMem (f : Field) (hn : n ∉ f.slot.names) : Spares n f.release :=
  spares_release f (ne_of_notMem_names hn).1

end Field

end PropertyList

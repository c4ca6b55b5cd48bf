import PropertyList.Proofs.Preservation
import PropertyList.Proofs.Record.Levels
import PropertyList.Record.Decode

/-!
# Records while they are filled

A record is filled by giving it its initial values and by decoding a dictionary. This may fail
anywhere, and it may have made anything of a value that is left to callbacks. But whatever has been
reached, an attribute for a record has no value or a record of the same kind, and no value has been
released.

## Main definitions

* `Field.Filling`

## Main results

* `Field.preserves_initialiseAll`, `Field.preserves_decodeAll`
-/

namespace PropertyList

open SessionM

namespace Field

/-- The state of a record that is being filled. The values for records are records, at every level,
and nothing has been released after the calls `before`. -/
structure Filling (fields : List Field) (before : List Call) (s : Session) : Prop where
  shaped : ∃ attributes, s.record = .record attributes ∧
    AllFilled (fun _ _ => True) attributes fields
  unreleased : ∃ calls, s.calls = before ++ calls ∧ ∀ c ∈ calls, c.Every Call.Inert

variable {fields : List Field} {before : List Call} {α : Type}

/-- Nothing is wrong where there are no values yet. -/
theorem allFilled_nil (fields : List Field) : AllFilled (fun _ _ => True) [] fields :=
  allFilled_iff.2 fun f _ => by
    cases f with
    | nested slot inner => exact nofun
    | _ => trivial

/-- A record without attributes can be filled. -/
theorem filling_emptyRecord (fields : List Field) (store : Store) {before own : List Call}
    (hown : ∀ c ∈ own, c.Inert) : Filling fields before ⟨.emptyRecord, store, before ++ own⟩ where
  shaped := ⟨[], rfl, allFilled_nil fields⟩
  unreleased := ⟨own, rfl, fun c hc => .self (hown c hc)⟩

/-! ### Operations on a session -/

section Session

variable {I : Session → Prop}

theorem preserves_ofExcept (result : Except Failure α) :
    Preserves I (ofExcept result : SessionM α) := by
  cases result with
  | ok a => exact preserves_pure a
  | error failure => exact preserves_throw failure

theorem preserves_heap_bind {k : Heap → SessionM α} (hk : ∀ h, Preserves I (k h)) :
    Preserves I (heap >>= k) :=
  fun s hs => hk s.store.heap s hs

theorem preserves_valueOrNull_bind {name : String} {k : Value → SessionM α}
    (hk : ∀ v, Preserves I (k v)) : Preserves I (valueOrNull name >>= k) :=
  fun s hs => hk (s.record.attributeOrNull name) s hs

/-- A callback works on the store and is noted. -/
theorem after_call (note : List Call → Call) (callback : Callback α) (s : Session) :
    after (call note callback) s =
      ⟨s.record, (after callback ⟨s.store, []⟩).store,
        s.calls ++ [note (after callback ⟨s.store, []⟩).calls]⟩ := by
  rw [after, after, call]
  cases callback ⟨s.store, []⟩ <;> rfl

/-- The value that has been worked on is put back into its attribute. -/
theorem after_within (name : String) (value : Value) (work : SessionM Unit) (s : Session) :
    after (within name value work) s =
      rejoin s.record s.calls name (after work ⟨value, s.store, []⟩) := by
  rw [after, after, within]
  cases work ⟨value, s.store, []⟩ <;> rfl

theorem exists_of_within_eq_ok {name : String} {value : Value} {work : SessionM Unit}
    {s t : Session} (h : within name value work s = .ok () t) :
    ∃ t', work ⟨value, s.store, []⟩ = .ok () t' := by
  cases hwork : work ⟨value, s.store, []⟩ with
  | ok _ t' => exact ⟨t', rfl⟩
  | error failure t' =>
    simp only [within, hwork] at h
    cases h

end Session

theorem Filling.note {record : Value} {store : Store} {calls : List Call}
    (h : Filling fields before ⟨record, store, calls⟩) {c : Call} (hc : c.Every Call.Inert)
    (store' : Store) : Filling fields before ⟨record, store', calls ++ [c]⟩ := by
  obtain ⟨hshaped, own, hcalls, hown⟩ := h
  refine ⟨hshaped, own ++ [c], ?_, List.forall_mem_append.2 ⟨hown, List.forall_mem_singleton.2 hc⟩⟩
  rw [← List.append_assoc]
  exact congrArg (· ++ [c]) hcalls

theorem Filling.set {attributes : List (String × Value)} {store : Store} {calls : List Call}
    (h : Filling fields before ⟨.record attributes, store, calls⟩) {name : String} {value : Value}
    (hvalue : ∀ f ∈ fields, f.slot.name = name → f.Filled (fun _ _ => True) (some value)) :
    Filling fields before ⟨.record (setEntry name value attributes), store, calls⟩ := by
  obtain ⟨⟨_, ⟨⟩, hshaped⟩, hcalls⟩ := h
  refine ⟨⟨_, rfl, allFilled_iff.2 fun f hf => ?_⟩, hcalls⟩
  rw [lookup_setEntry]
  split
  · exact hvalue f hf ‹_›
  · exact allFilled_iff.1 hshaped f hf

theorem preserves_setAttribute {name : String} {value : Value}
    (hvalue : ∀ f ∈ fields, f.slot.name = name → f.Filled (fun _ _ => True) (some value)) :
    Preserves (Filling fields before) (setAttribute name value) := by
  rintro ⟨_, store, calls⟩ h
  obtain ⟨⟨attributes, rfl, -⟩, -⟩ := id h
  exact h.set hvalue

theorem preserves_call {note : List Call → Call} (hnote : ∀ inner, (note inner).Inert)
    (callback : Callback α) : Preserves (Filling fields before) (call note callback) := by
  intro s h
  rw [after_call]
  exact h.note (.self (hnote _)) _

/-- What is done with the value of an attribute may make use of what is known of it. -/
theorem preserves_valueOf_bind {name : String} {k : Value → SessionM α}
    (hk : ∀ s, Filling fields before s → ∀ v, s.record.attribute? name = some v →
      Preserves (Filling fields before) (k v)) :
    Preserves (Filling fields before) (valueOf name >>= k) := by
  intro s hs
  cases hv : s.record.attribute? name with
  | none => rwa [after_of_error (bind_of_error (valueOf_of_none hv) k)]
  | some v =>
    rw [after, show _ = k v s from bind_of_ok (reads_valueOf s.store hv s.calls) k]
    exact hk s hs v hv s hs

/-- What is done with the record in an attribute keeps to the fields of that record. -/
theorem preserves_within (hseparate : Separate fields) {slot : Slot} {inner : List Field}
    (hf : nested slot inner ∈ fields) {v : Value}
    (hv : (nested slot inner).Filled (fun _ _ => True) (some v)) {work : SessionM Unit}
    (hwork : Preserves (Filling inner []) work) :
    Preserves (Filling fields before) (within slot.name v work) := by
  rintro ⟨_, store, calls⟩ h
  obtain ⟨⟨attributes, rfl, -⟩, -⟩ := id h
  obtain ⟨held, rfl, hheld⟩ := hv v rfl
  obtain ⟨⟨left, hleft, hshaped⟩, own, hown, hinert⟩ :=
    hwork ⟨.record held, store, []⟩ ⟨⟨held, rfl, hheld⟩, [], rfl, List.forall_mem_nil _⟩
  rw [after_within, rejoin, hleft, hown, List.nil_append]
  refine (h.note (.within hinert) _).set fun g hg hname => ?_
  obtain rfl := hseparate.eq_of_name_eq hg hf hname
  rintro _ ⟨⟩
  exact ⟨left, rfl, hshaped⟩

/-! ### Initial values -/

section Fields

variable {f : Field} (hseparate : Separate fields) (hf : f ∈ fields)

include hseparate hf

/-- The attribute of a field may get any value of the shape of the field. -/
theorem preserves_setOwn {v : Value} (hv : f.Filled (fun _ _ => True) (some v)) :
    Preserves (Filling fields before) (setAttribute f.slot.name v) :=
  preserves_setAttribute fun _ hg hname => (hseparate.eq_of_name_eq hg hf hname).symm ▸ hv

theorem preserves_mark (present : Bool) :
    Preserves (Filling fields before) (mark f.slot present) := by
  rw [mark]
  cases htracker : f.slot.tracker? with
  | none => exact preserves_pure ()
  | some tracker =>
    refine preserves_setAttribute fun g hg hname => ?_
    exact absurd (hname ▸ htracker) (hseparate.tracker_ne f hf g hg)

theorem preserves_decodeMarked {decoding : SessionM Unit}
    (hdecoding : Preserves (Filling fields before) decoding) :
    Preserves (Filling fields before) (decodeMarked f.slot decoding) := by
  refine (hdecoding.tryCatch fun failure => ?_).bind fun _ => preserves_mark hseparate hf true
  split
  · exact (preserves_mark hseparate hf false).bind fun _ => preserves_throw _
  · exact preserves_throw failure

theorem preserves_decodeKey (dict : ObjectId) {decoding : ObjectId → SessionM Unit}
    (hdecoding : ∀ id, Preserves (Filling fields before) (decoding id)) :
    Preserves (Filling fields before) (decodeKey f.slot dict decoding) := by
  refine preserves_heap_bind fun h => ?_
  split
  · exact preserves_decodeMarked hseparate hf (hdecoding _)
  · split
    · exact preserves_throw _
    · exact preserves_pure ()

end Fields

section Attribute

variable {slot : Slot} (hset : ∀ v, Preserves (Filling fields before) (setAttribute slot.name v))

include hset

theorem preserves_initialiseScalar (type : ScalarType) (default : Value) :
    Preserves (Filling fields before) (initialiseScalar slot type default) := by
  cases type with
  | charbuf length =>
    cases default with
    | null =>
      refine preserves_valueOrNull_bind fun v => ?_
      split
      · exact hset _
      · exact preserves_pure ()
    | text t => exact (preserves_ofExcept _).bind fun _ => hset _
    | _ => exact preserves_throw _
  | _ => exact hset default

theorem preserves_initialiseHandled (handler : Handler) :
    Preserves (Filling fields before) (initialiseHandled slot handler) := by
  rw [initialiseHandled]
  cases handler.init with
  | none => exact preserves_pure ()
  | some init => exact (preserves_call (fun _ => ⟨rfl, rfl⟩) init).bind hset

end Attribute

mutual

/-- Giving a field its initial value keeps the record one that is being filled. -/
theorem preserves_initialise : (f : Field) → f.Every SeparateInside →
    ∀ {fields : List Field} {before : List Call}, Separate fields → f ∈ fields →
      Preserves (Filling fields before) f.initialise
  | scalar slot type default, _, _, _, hseparate, hf =>
    (preserves_mark hseparate hf false).bind fun _ =>
      preserves_initialiseScalar (fun _ => preserves_setOwn hseparate hf trivial) type default
  | nested slot inner, hinside, fields, before, hseparate, hf => by
    have hempty : (nested slot inner).Filled (fun _ _ => True) (some .emptyRecord) := by
      rintro _ ⟨⟩
      exact ⟨[], rfl, allFilled_nil inner⟩
    refine (preserves_mark hseparate hf false).bind fun _ =>
      (preserves_modify fun s hs => hs.note (.self ⟨rfl, rfl⟩) _).bind fun _ =>
        (preserves_setOwn hseparate hf hempty).bind fun _ => ?_
    exact preserves_within hseparate hf hempty
      (preserves_initialiseAll inner hinside.2 hinside.1 fun _ hg => hg)
  | array slot handler, _, _, _, hseparate, hf =>
    (preserves_mark hseparate hf false).bind fun _ =>
      preserves_initialiseHandled (fun _ => preserves_setOwn hseparate hf trivial) _
  | custom slot handler, _, _, _, hseparate, hf =>
    (preserves_mark hseparate hf false).bind fun _ =>
      preserves_initialiseHandled (fun _ => preserves_setOwn hseparate hf trivial) _

/-- Giving some of the fields their initial values keeps the record one that is being filled. -/
theorem preserves_initialiseAll : (part : List Field) → AllEvery SeparateInside part →
    ∀ {fields : List Field} {before : List Call}, Separate fields → part ⊆ fields →
      Preserves (Filling fields before) (initialiseAll part)
  | [], _, _, _, _, _ => preserves_pure ()
  | f :: part, hinside, _, _, hseparate, hsub =>
    (preserves_initialise f hinside.1 hseparate (hsub List.mem_cons_self)).bind fun _ =>
      preserves_initialiseAll part hinside.2 hseparate fun _ hg => hsub (List.mem_cons_of_mem f hg)

end

/-! ### Initial values of a record in any state -/

section Opened

variable {done : List Field} {f : Field}

/-- A field that has no fields of its own adds nothing to what is known of a record. -/
theorem Filling.append_leaf {s : Session} (h : Filling done before s)
    (hleaf : ∀ slot inner, f ≠ nested slot inner) : Filling (done ++ [f]) before s := by
  obtain ⟨⟨attributes, hrecord, hshaped⟩, hcalls⟩ := h
  refine ⟨⟨attributes, hrecord, allFilled_iff.2 (List.forall_mem_append.2
    ⟨allFilled_iff.1 hshaped, List.forall_mem_singleton.2 ?_⟩)⟩, hcalls⟩
  cases f with
  | nested slot inner => exact absurd rfl (hleaf slot inner)
  | _ => trivial

/-- A record that gets a new record in an attribute is one that is being filled with that, too. -/
theorem ends_setAttribute_emptyRecord {slot : Slot} {inner : List Field}
    (hseparate : Separate (done ++ [nested slot inner])) {s : Session}
    (h : Filling done before s) :
    Ends (setAttribute slot.name .emptyRecord) s
      (fun _ => Filling (done ++ [nested slot inner]) before) fun _ _ => True := by
  obtain ⟨_, store, calls⟩ := s
  obtain ⟨⟨attributes, rfl, hshaped⟩, hcalls⟩ := h
  refine ends_of_ok rfl ⟨⟨_, rfl, allFilled_iff.2 fun g hg => ?_⟩, hcalls⟩
  rw [lookup_setEntry]
  split
  · obtain rfl : g = nested slot inner :=
      hseparate.eq_of_name_eq hg (List.mem_append_right _ (List.mem_singleton_self _)) ‹_›
    rintro _ ⟨⟩
    exact ⟨[], rfl, allFilled_nil inner⟩
  · rcases List.mem_append.1 hg with hg | hg
    · exact allFilled_iff.1 hshaped g hg
    · obtain rfl := List.mem_singleton.1 hg
      contradiction

/-- Once a field has its initial value, the record is one that is being filled with the field. -/
theorem ends_initialise (hinside : f.Every SeparateInside) (hseparate : Separate (done ++ [f]))
    {s : Session} (h : Filling done before s) :
    Ends f.initialise s (fun _ => Filling (done ++ [f]) before) fun _ _ => True := by
  have hf : f ∈ done ++ [f] := List.mem_append_right _ (List.mem_singleton_self f)
  cases f with
  | nested slot inner =>
    have hmark : Preserves (Filling done before) (mark slot false) := by
      rw [mark]
      cases htracker : slot.tracker? with
      | none => exact preserves_pure ()
      | some tracker =>
        refine preserves_setAttribute fun g hg hname => ?_
        exact absurd (hname ▸ htracker)
          (hseparate.tracker_ne _ hf g (List.mem_append_left _ hg))
    have hempty : (nested slot inner).Filled (fun _ _ => True) (some .emptyRecord) := by
      rintro _ ⟨⟩
      exact ⟨[], rfl, allFilled_nil inner⟩
    refine (hmark.ends h).bind fun _ s hs => ?_
    refine ((preserves_modify fun s hs => hs.note (.self ⟨rfl, rfl⟩) _).ends hs).bind
      fun _ s hs => ?_
    refine (ends_setAttribute_emptyRecord hseparate hs).bind fun _ s hs => ?_
    exact (preserves_within hseparate hf hempty
      (preserves_initialiseAll inner hinside.2 hinside.1 fun _ hg => hg)).ends hs
  | _ =>
    exact (preserves_initialise _ hinside hseparate hf).ends (h.append_leaf fun _ _ h => by cases h)

theorem ends_initialiseAll {part : List Field} (hinside : AllEvery SeparateInside part)
    (hseparate : Separate (done ++ part)) {s : Session} (h : Filling done before s) :
    Ends (initialiseAll part) s (fun _ => Filling (done ++ part) before) fun _ _ => True := by
  induction part generalizing done s with
  | nil => exact ends_pure (by rwa [List.append_nil])
  | cons f part ih =>
    rw [List.append_cons] at hseparate ⊢
    exact (ends_initialise hinside.1 (hseparate.of_append_left) h).bind fun _ s hs =>
      ih hinside.2 hseparate hs

/-- Whatever attributes a record has, with initial values it is one that is being filled. -/
theorem filling_of_initialiseAll (hinside : AllEvery SeparateInside fields)
    (hseparate : Separate fields) {given : List (String × Value)} {store : Store}
    {before own : List Call} (hown : ∀ c ∈ own, c.Inert) {s' : Session}
    (hrun : initialiseAll fields ⟨.record given, store, before ++ own⟩ = .ok () s') :
    Filling fields before s' := by
  have hstart : Filling [] before ⟨.record given, store, before ++ own⟩ :=
    ⟨⟨given, rfl, trivial⟩, own, rfl, fun c hc => .self (hown c hc)⟩
  have hends := ends_initialiseAll hinside ((List.nil_append fields).symm ▸ hseparate) hstart
  exact hends.of_eq_ok hrun

end Opened

/-! ### Decoding -/

theorem preserves_wrongKind (expected : ObjectKind) (id : ObjectId) :
    Preserves (Filling fields before) (wrongKind expected id : SessionM α) :=
  preserves_heap_bind fun _ => preserves_throw _

theorem preserves_decodeItems (name : String) (handler : ArrayHandler) (items : List ObjectId)
    (i : Nat) (value : Value) :
    Preserves (Filling fields before) (decodeItems name handler items i value) := by
  induction items generalizing i value with
  | nil => exact preserves_pure value
  | cons item items ih =>
    exact (preserves_call (fun _ => ⟨rfl, rfl⟩) _).bind fun value => ih (i + 1) value

mutual

/-- Decoding a field keeps the record one that is being filled. -/
theorem preserves_decode (dict : ObjectId) : (f : Field) → f.Every SeparateInside →
    ∀ {fields : List Field} {before : List Call}, Separate fields → f ∈ fields →
      Preserves (Filling fields before) (f.decode dict)
  | scalar slot type default, _, _, _, hseparate, hf =>
    preserves_decodeKey hseparate hf dict fun id =>
      preserves_heap_bind fun h => (preserves_ofExcept _).bind fun _ =>
        preserves_setOwn hseparate hf trivial
  | nested slot inner, hinside, fields, before, hseparate, hf => by
    refine preserves_decodeKey hseparate hf dict fun id => preserves_heap_bind fun h => ?_
    split
    · refine preserves_valueOf_bind fun s hs v hv => preserves_within hseparate hf ?_
        (preserves_decodeAll id inner hinside.2 hinside.1 fun _ hg => hg)
      obtain ⟨⟨attributes, hrecord, hshaped⟩, -⟩ := hs
      rw [hrecord] at hv
      exact hv ▸ allFilled_iff.1 hshaped _ hf
    · exact preserves_wrongKind .dict id
  | array slot handler, _, _, _, hseparate, hf => by
    refine preserves_decodeKey hseparate hf dict fun id => preserves_heap_bind fun h => ?_
    split
    · exact preserves_wrongKind .array id
    · exact preserves_valueOrNull_bind fun v => (preserves_decodeItems _ _ _ _ v).bind fun _ =>
        preserves_setOwn hseparate hf trivial
  | custom slot handler, _, _, _, hseparate, hf =>
    preserves_decodeKey hseparate hf dict fun id => preserves_valueOrNull_bind fun v =>
      (preserves_call (fun _ => ⟨rfl, rfl⟩) _).bind fun _ => preserves_setOwn hseparate hf trivial

/-- Decoding some of the fields keeps the record one that is being filled. -/
theorem preserves_decodeAll (dict : ObjectId) : (part : List Field) →
    AllEvery SeparateInside part → ∀ {fields : List Field} {before : List Call},
      Separate fields → part ⊆ fields → Preserves (Filling fields before) (decodeAll dict part)
  | [], _, _, _, _, _ => preserves_pure ()
  | f :: part, hinside, _, _, hseparate, hsub =>
    (preserves_decode dict f hinside.1 hseparate (hsub List.mem_cons_self)).bind fun _ =>
      preserves_decodeAll dict part hinside.2 hseparate fun _ hg =>
        hsub (List.mem_cons_of_mem f hg)

end

end Field

end PropertyList

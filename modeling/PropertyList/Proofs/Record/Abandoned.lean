import PropertyList.Proofs.Record.Course
import PropertyList.Proofs.Record.ReleaseOnce

/-!
# Arrays that are abandoned

The items of an array are decoded one after the other, each on top of what has been made of the
items before it, and the attribute gets what has been made of all of them. If an item fails, the
attribute still has its initial value, and this is the value that is released. What has been made of
the items in front is given up with it only where it is the initial value itself, changed in place.

## Main definitions

* `Field.init?`, the callback that makes the initial value of a field

## Main results

* `Field.LiesIn.exists_init` : the initial values at every level.
* `Field.exists_decode_array_eq_error` : an array with an item that fails.
* `Descriptor.item_failure_releases_initial`
-/

namespace PropertyList

open SessionM

namespace Field

/-! ### Initial values -/

/-- The callback that makes the initial value of a field. -/
def init? : Field → Option (Callback Value)
  | scalar _ _ _ | nested _ _ => none
  | array _ handler => handler.init
  | custom _ handler => handler.init

theorem exists_init_of_initialiseHandled {slot : Slot} {handler : Handler}
    {init : Callback Value} (hinit : handler.init = some init) {s t : Session}
    (hrun : (mark slot false >>= fun _ => initialiseHandled slot handler) s = .ok () t) :
    ∃ v trace trace', init trace = .ok v trace' ∧ t.record.attribute? slot.name = some v := by
  obtain ⟨_, s₁, -, hhandled⟩ := exists_of_bind_eq_ok hrun
  rw [initialiseHandled, hinit] at hhandled
  obtain ⟨v, s₂, hcall, hset⟩ := exists_of_bind_eq_ok hhandled
  obtain ⟨trace, trace', htrace⟩ : ∃ trace trace', init trace = .ok v trace' := by
    cases htrace : init ⟨s₁.store, []⟩ with
    | ok w trace' =>
      simp only [call, htrace] at hcall
      cases hcall
      exact ⟨_, trace', htrace⟩
    | error failure trace' =>
      simp only [call, htrace] at hcall
      cases hcall
  exact ⟨v, trace, trace', htrace, attribute?_of_setAttribute_eq_ok hset⟩

variable {fields : List Field} {path : List String} {f : Field} {s t : Session}

/-- With initial values given to a record, each attribute has the value that the callback for it
has made. -/
theorem LiesIn.exists_init (hf : LiesIn fields path f) {init : Callback Value}
    (hinit : f.init? = some init) (hseparate : Separate fields)
    (hinside : AllEvery SeparateInside fields) (hrun : initialiseAll fields s = .ok () t) :
    ∃ v trace trace', init trace = .ok v trace' ∧
      t.record.at? (path ++ [f.slot.name]) = some v := by
  -- The attribute of a field is as the field has left it when it was come to.
  have hown {fields : List Field} {f : Field} {s t : Session} (hf : f ∈ fields)
      (hseparate : Separate fields) (hrun : initialiseAll fields s = .ok () t) :
      ∃ s₁ t₁, f.initialise s₁ = .ok () t₁ ∧
        t.record.attribute? f.slot.name = t₁.record.attribute? f.slot.name := by
    rw [initialiseAll_eq_each] at hrun
    obtain ⟨s₁, t₁, harrives, hstep⟩ := exists_arrives_of_ok hf hrun
    refine ⟨s₁, t₁, hstep, ?_⟩
    rw [← after_of_ok hrun, ← after_of_ok hstep]
    exact (harrives.attribute?_eq spares_initialise hseparate.fields_nodup
      (hseparate.exclusive hf)).2
  induction hf generalizing s t with
  | @here fields f hmem =>
    obtain ⟨s₁, t₁, hstep, heq⟩ := hown hmem hseparate hrun
    rw [List.nil_append, Value.at?_singleton, heq]
    cases f with
    | array slot handler => exact exists_init_of_initialiseHandled hinit hstep
    | custom slot handler => exact exists_init_of_initialiseHandled hinit hstep
    | _ => cases hinit
  | @inside fields inner slot path f hmem _ ih =>
    obtain ⟨s₁, t₁, hstep, heq⟩ := hown hmem hseparate hrun
    have hinner := allEvery_iff.1 hinside _ hmem
    obtain ⟨failure, t', hfail, -⟩ | ⟨start, -, hvalue, hok⟩ :=
      initialise_nested_cases slot inner s₁
    · cases hstep.symm.trans hfail
    · obtain ⟨t', hinner'⟩ := hok t₁ hstep
      rw [after_of_ok hstep, after_of_ok hinner'] at hvalue
      rw [List.cons_append, Value.at?_cons,
        show t.record.attribute? slot.name = some t'.record from heq.trans hvalue]
      exact ih hinit hinner.1 hinner.2 hinner'

/-! ### Items -/

section Items

variable {name : String} {handler : ArrayHandler} {done rest : List ObjectId} {item : ObjectId}
  {v value : Value} {failure : Failure} {trace : Trace}

theorem decodeItems_append_of_ok {i : Nat}
    (hdone : decodeItems name handler done i v s = .ok value t) :
    decodeItems name handler (done ++ rest) i v s =
      decodeItems name handler rest (i + done.length) value t := by
  induction done generalizing i v s with
  | nil =>
    cases hdone
    rfl
  | cons item done ih =>
    rw [List.cons_append, decodeItems]
    rw [decodeItems] at hdone
    obtain ⟨v₁, s₁, hitem, hdone⟩ := exists_of_bind_eq_ok hdone
    rw [bind_of_ok hitem, ih hdone, List.length_cons, Nat.add_right_comm, Nat.add_assoc]

/-- An item that fails is the last one that is decoded. -/
theorem exists_decodeItems_eq_error (rest : List ObjectId)
    (hdone : decodeItems name handler done 0 v s = .ok value t)
    (hitem : handler.decodeItem item done.length value ⟨t.store, []⟩ = .error failure trace) :
    ∃ t', decodeItems name handler (done ++ item :: rest) 0 v s = .error failure t' := by
  rw [decodeItems_append_of_ok hdone, Nat.zero_add, decodeItems]
  have hcall : call (.decode name) (handler.decodeItem item done.length value) t =
      .error failure ⟨t.record, trace.store, t.calls ++ [.decode name trace.calls]⟩ := by
    simp only [call, hitem]
  exact ⟨_, bind_of_error hcall _⟩

/-- An array with an item that fails leaves its attribute as it is. -/
theorem exists_decode_array_eq_error {slot : Slot} {dict id : ObjectId}
    (hentry : s.store.heap.entry? (some dict) slot.key = some id)
    (hitems : s.store.heap.array? id = some (done ++ item :: rest))
    (hdone : decodeItems slot.name handler done 0 (s.record.attributeOrNull slot.name) s =
      .ok value t)
    (hitem : handler.decodeItem item done.length value ⟨t.store, []⟩ = .error failure trace) :
    ∃ failure' s', (array slot handler).decode dict s = .error failure' s' ∧
      s'.record.attribute? slot.name = s.record.attribute? slot.name := by
  obtain ⟨s₁, hrun⟩ := exists_decodeItems_eq_error rest hdone hitem
  have hspared := (spares_decodeItems (n := slot.name) slot.name handler (done ++ item :: rest) 0
    (s.record.attributeOrNull slot.name)).attribute?_eq s
  rw [after_of_error hrun] at hspared
  obtain ⟨failure', s', hmarked, hkept⟩ :=
    exists_decodeMarked_eq_error slot (bind_of_error hrun (setAttribute slot.name))
  exact ⟨failure', s', (decode_array_eq hentry hitems).trans hmarked, hkept.trans hspared⟩

end Items

end Field

namespace Descriptor

variable {d : Descriptor} {dict : ObjectId} {s : Session}

/-- **An item that fails.** Decoding comes to an array with a callback that releases its value, at
some level. Its items are decoded up to one for which the callback fails, and `value` is what has
been made of those in front of it. Then decoding fails, and what is released of the attribute is its
initial value, with which the first item was decoded. So `value` is released only if it is that
value, and nothing is released in its place if that value is null. -/
theorem item_failure_releases_initial (hseparate : Field.Separate d.fields)
    (hinside : Field.AllEvery Field.SeparateInside d.fields)
    (hsucceeds : Field.AllEvery Field.ReleaseSucceeds d.fields)
    (hdict : s.store.heap.kind dict = .dict) {fresh : Bool}
    (hrecord : fresh = true ∨ ∃ given, s.record = .record given) {s₀ : Session}
    (hinitial : Field.initialiseAll d.fields (s.opened fresh) = .ok () s₀) {path : List String}
    {slot : Slot} {handler : ArrayHandler} {dict' : ObjectId} {s₁ : Session}
    (hcomes : Field.Comes d.fields dict s₀ path (.array slot handler) dict' s₁)
    (hrelease : handler.release.isSome = true) {id : ObjectId}
    (hentry : s₁.store.heap.entry? (some dict') slot.key = some id) {done rest : List ObjectId}
    {item : ObjectId} (hitems : s₁.store.heap.array? id = some (done ++ item :: rest))
    {value : Value} {s₂ : Session}
    (hdone : Field.decodeItems slot.name handler done 0 (s₁.record.attributeOrNull slot.name) s₁ =
      .ok value s₂) {failure : Failure} {trace : Trace}
    (hitem : handler.decodeItem item done.length value ⟨s₂.store, []⟩ = .error failure trace) :
    ∃ failure' s' calls,
      d.decode dict fresh s = .error failure' s' ∧ s'.calls = s.calls ++ calls ∧
      Call.releasedAt slot.name path calls =
        Field.toRelease (s₀.record.at? (path ++ [slot.name])) ∧
      (∀ init, handler.init = some init → ∃ v trace trace', init trace = .ok v trace' ∧
        s₀.record.at? (path ++ [slot.name]) = some v) ∧
      (Call.releasedAt slot.name path calls = Field.toRelease (some value) ↔
        value = s₁.record.attributeOrNull slot.name) := by
  obtain ⟨given, own, hopened, hown⟩ := exists_opened_eq hrecord
  have hinitialised : Field.Filling d.fields s.calls s₀ :=
    Field.filling_of_initialiseAll hinside hseparate hown (hopened ▸ hinitial)
  obtain ⟨failure₁, t₁, hdecode, hkept⟩ :=
    Field.exists_decode_array_eq_error hentry hitems hdone hitem
  obtain ⟨failure₂, t, hall, hat⟩ := hcomes.exists_decodeAll_eq_error hdecode
  have hfilling : Field.Filling d.fields s.calls t :=
    after_of_error hall ▸
      Field.preserves_decodeAll dict d.fields hinside hseparate (fun _ hf => hf) _ hinitialised
  obtain ⟨s', calls, hrun, hcalls, hgiven, -⟩ :=
    exists_release_of_filling hseparate hinside hsucceeds hfilling
  have hfill : d.fill dict (s.opened fresh) = .error failure₂ t :=
    (bind_of_ok hinitial _).trans hall
  have hstart : s₁.record.attribute? slot.name = s₀.record.at? (path ++ [slot.name]) :=
    hcomes.attribute?_eq hseparate hinside
  have hreleased : Call.releasedAt slot.name path calls =
      Field.toRelease (s₀.record.at? (path ++ [slot.name])) := by
    refine (hgiven.released hcomes.liesIn hrelease).trans ?_
    rw [hat, Option.bind_some, ← hstart, ← hkept]
    rfl
  refine ⟨failure₂, s', calls, ?_, hcalls, hreleased,
    fun init hinit => hcomes.liesIn.exists_init hinit hseparate hinside hinitial, ?_⟩
  · rw [decode_eq_tryCatch_opened hdict, tryCatch_of_error hfill, bind_of_ok hrun]
    rfl
  · rw [hreleased, ← hstart, Field.toRelease_inj]
    exact eq_comm

/-- A descriptor of tags, of which the last one counts. -/
def tagged : Descriptor where
  fields :=
    [.array ⟨"tags", "tags", none, false, 0⟩
      { ArrayHandler.lastString with init := some (Callback.make (.list [])) }]
  nodup_keys := by decide
  distinctKeys := by decide

/-- A dictionary with two tags, the second of which is no text, and its parts. -/
def taggedHeap : Heap where
  objects :=
    #[⟨1, .dict (Dict.empty.add "tags" 1)⟩, ⟨1, .array [3, 2]⟩, ⟨1, .string "heavy"⟩,
      ⟨1, .array []⟩]
  live := 4

/-- What has been made of the first tag is a list of its own, and it is lost. -/
theorem item_failure_releases_initial_tagged :
    Field.Separate tagged.fields ∧ Field.AllEvery Field.SeparateInside tagged.fields ∧
    Field.AllEvery Field.ReleaseSucceeds tagged.fields ∧ taggedHeap.kind 0 = .dict ∧
    ∃ failure s', tagged.decode 0 true ⟨.null, ⟨taggedHeap, #[]⟩, []⟩ = .error failure s' ∧
      Call.releasedAt "tags" [] s'.calls = [.list 0] ∧
      Call.releasedAt "tags" [] s'.calls ≠ Field.toRelease (some (.list 1)) := by
  have hseparate : Field.Separate tagged.fields := ⟨by decide, by decide⟩
  have hinside : Field.AllEvery Field.SeparateInside tagged.fields := ⟨trivial, trivial⟩
  have hsucceeds : Field.AllEvery Field.ReleaseSucceeds tagged.fields := by
    refine ⟨?_, trivial⟩
    rintro _ ⟨⟩ v trace
    exact ⟨trace, rfl⟩
  have hdict : taggedHeap.kind 0 = .dict := by decide
  -- The first tag, at 2, is a text, and the second one, at 3, is an array.
  obtain ⟨failure, s', calls, hdecode, hcalls, hreleased, -, hiff⟩ :=
    item_failure_releases_initial (s := ⟨.null, ⟨taggedHeap, #[]⟩, []⟩) hseparate hinside hsucceeds
      hdict (.inl (rfl : true = true)) rfl (.here ⟨[], [], rfl, rfl⟩) rfl
      (show taggedHeap.entry? (some 0) "tags" = some 1 by decide)
      (show taggedHeap.array? 1 = some ([2] ++ 3 :: []) by decide) rfl rfl
  obtain rfl : s'.calls = calls := hcalls
  exact ⟨hseparate, hinside, hsucceeds, hdict, failure, s', hdecode, hreleased,
    fun h => by cases hiff.1 h⟩

end Descriptor

end PropertyList

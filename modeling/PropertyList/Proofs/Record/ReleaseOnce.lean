import PropertyList.Proofs.Record.Clearing
import PropertyList.Proofs.Record.Filling
import PropertyList.Record.Handlers

/-!
# Values are released once

A dictionary is decoded into a record, and what has been decoded is given up again: by decoding
itself where it fails, at whatever point, and otherwise by whoever holds the record. Each value of a
field that has a callback for it is released exactly once then, in the record and in the records in
it. After that there is nothing left to release.

## Main definitions

* `Session.opened`, `Descriptor.fill`, decoding up to the point where something is released
* `Field.GivenUp`, what it means that the values of a record have been released once
* `Descriptor.Settled`, a record that can be released any number of times to no effect

## Main results

* `Descriptor.releases_once`
-/

namespace PropertyList

open SessionM

/-- Whether a record with the values of `before` has been given up, with `calls` being all the calls
made, and `after` is what it has become. Of each field with a callback for it, at every level, the
value has been released once, or not at all if there was none or it was null. Null stands in its
place, and in the place of each string. -/
structure Field.GivenUp (fields : List Field) (before after : Value) (calls : List Call) :
    Prop where
  released : ∀ {path f}, LiesIn fields path f → f.release?.isSome = true →
    Call.releasedAt f.slot.name path calls =
      toRelease ((before.at? path).bind (·.attribute? f.slot.name))
  cleared : ∀ {path f}, LiesIn fields path f → f.release?.isSome = true ∨ f.type = .string →
    ∀ r, before.at? path = some r →
      ∃ r', after.at? path = some r' ∧ r'.attribute? f.slot.name = some .null

/-- The session in which a record is filled: that of a new record if `fresh` holds. -/
def Session.opened (s : Session) (fresh : Bool) : Session :=
  if fresh then ⟨.emptyRecord, s.store, s.calls ++ [.create]⟩ else s

/-- Opening a session makes no more than a call that neither releases anything nor leads to a
record. -/
theorem exists_opened_eq {s : Session} {fresh : Bool}
    (hrecord : fresh = true ∨ ∃ given, s.record = .record given) :
    ∃ given own, s.opened fresh = ⟨.record given, s.store, s.calls ++ own⟩ ∧
      ∀ c ∈ own, c.Inert := by
  obtain ⟨record, store, calls⟩ := s
  cases fresh with
  | true => exact ⟨[], [.create], rfl, List.forall_mem_singleton.2 ⟨rfl, rfl⟩⟩
  | false =>
    obtain ⟨given, rfl⟩ := hrecord.resolve_left Bool.false_ne_true
    exact ⟨given, [], congrArg (Session.mk _ store) (List.append_nil calls).symm,
      List.forall_mem_nil _⟩

namespace Descriptor

/-- Fills a record from a dictionary, as decoding does it. -/
def fill (d : Descriptor) (dict : ObjectId) : SessionM Unit := do
  Field.initialiseAll d.fields
  Field.decodeAll dict d.fields

/-- Releases the record of the session a number of times. -/
def releaseTimes (d : Descriptor) : Nat → SessionM Unit
  | 0 => return
  | n + 1 => do
    d.release
    d.releaseTimes n

/-- Releasing the record of a session any number of times changes neither the record nor the store,
and nothing is called back. -/
def Settled (d : Descriptor) (s : Session) : Prop :=
  ∀ n, ∃ calls, d.releaseTimes n s = .ok () ⟨s.record, s.store, s.calls ++ calls⟩ ∧
    ∀ c ∈ calls, c.Silent

variable {d : Descriptor} {dict : ObjectId} {s : Session}

/-- Decoding fills a new record or the given one, and releases what it has filled on a failure. -/
theorem decode_eq_tryCatch_opened (hdict : s.store.heap.kind dict = .dict) (fresh : Bool) :
    d.decode dict fresh s =
      tryCatch (d.fill dict) (fun failure => d.release >>= fun _ => throw failure)
        (s.opened fresh) := by
  obtain ⟨record, store, calls⟩ := s
  refine (bind_of_ok (reads_heap store record calls) _).trans ?_
  rw [if_neg (not_not_intro hdict)]
  cases fresh <;> rfl

/-- Decoding fills a new record, or the given one if it has no attributes, and releases what it has
filled on a failure. -/
theorem decode_eq_tryCatch (hdict : s.store.heap.kind dict = .dict) {fresh : Bool}
    (hfresh : fresh = true ∨ s.record = .emptyRecord) :
    d.decode dict fresh s =
      tryCatch (d.fill dict) (fun failure => d.release >>= fun _ => throw failure)
        ⟨.emptyRecord, s.store, s.calls ++ if fresh then [.create] else []⟩ := by
  rw [decode_eq_tryCatch_opened hdict]
  obtain ⟨record, store, calls⟩ := s
  cases fresh with
  | true => rfl
  | false =>
    obtain rfl : record = .emptyRecord := hfresh.resolve_left Bool.false_ne_true
    exact congrArg (tryCatch (d.fill dict) fun failure => d.release >>= fun _ => throw failure)
      (congrArg (Session.mk .emptyRecord store) (List.append_nil calls).symm)

/-- A record that has been cleared is settled. -/
theorem settled_of_cleared {attributes : List (String × Value)} (store : Store) (calls : List Call)
    (hcleared : Field.AllFilled Field.Cleared attributes d.fields) :
    d.Settled ⟨.record attributes, store, calls⟩ := by
  intro n
  induction n generalizing calls with
  | zero => exact ⟨[], by rw [List.append_nil]; rfl, List.forall_mem_nil _⟩
  | succ n ih =>
    obtain ⟨own, hrun, hown⟩ :=
      Field.exists_releaseAll_of_cleared d.fields store calls hcleared
    obtain ⟨rest, hrun', hrest⟩ := ih (calls ++ own)
    refine ⟨own ++ rest, ?_, List.forall_mem_append.2 ⟨hown, hrest⟩⟩
    rw [← List.append_assoc]
    exact (bind_of_ok hrun _).trans hrun'

/-- A record that is being filled can be given up at any time. -/
theorem exists_release_of_filling (hseparate : Field.Separate d.fields)
    (hinside : Field.AllEvery Field.SeparateInside d.fields)
    (hsucceeds : Field.AllEvery Field.ReleaseSucceeds d.fields) {before : List Call}
    (h : Field.Filling d.fields before s) :
    ∃ s' calls, d.release s = .ok () s' ∧ s'.calls = before ++ calls ∧
      Field.GivenUp d.fields s.record s'.record calls ∧ d.Settled s' := by
  obtain ⟨record, store, called⟩ := s
  obtain ⟨⟨attributes, rfl, hshaped⟩, own, rfl, hinert⟩ := h
  obtain ⟨attributes', store', rest, hrun, hhanded, hcleared, -⟩ :=
    Field.exists_releaseAll d.fields hseparate.nodup hinside hsucceeds store (before ++ own) hshaped
  refine ⟨_, own ++ rest, hrun, List.append_assoc .., ⟨fun {path f} hf hrelease => ?_,
    fun {path f} hf hclear r hr => ?_⟩, settled_of_cleared _ _ hcleared⟩
  · rw [Call.releasedAt_append, Call.releasedAt_eq_nil hinert, List.nil_append]
    exact hf.releasedAt_eq hrelease hhanded hseparate.nodup hinside
  · obtain ⟨r', hr'⟩ := hf.exists_at? hhanded hseparate.nodup hinside hr
    refine ⟨r', hr', hf.of_allFilled ?_ hcleared hr' hclear⟩
    rintro slot inner rfl
    rcases hclear with h | h <;> cases h

/-- **Decoded values are released exactly once.** A dictionary is decoded into a record without
attributes, new or given, with callbacks that may do anything but fail to release a value. If
decoding fails, at whatever point of filling the record, what has been reached by then is given up.
If it succeeds, the record is given up when it is released. Releasing it any further has no effect
in either case. -/
theorem releases_once (hseparate : Field.Separate d.fields)
    (hinside : Field.AllEvery Field.SeparateInside d.fields)
    (hsucceeds : Field.AllEvery Field.ReleaseSucceeds d.fields)
    (hdict : s.store.heap.kind dict = .dict) {fresh : Bool}
    (hfresh : fresh = true ∨ s.record = .emptyRecord) :
    match d.decode dict fresh s with
    | .ok () given =>
      ∃ s' calls, d.release given = .ok () s' ∧ s'.calls = s.calls ++ calls ∧
        Field.GivenUp d.fields given.record s'.record calls ∧ d.Settled s'
    | .error failure s' =>
      ∃ reached calls,
        d.fill dict ⟨.emptyRecord, s.store, s.calls ++ if fresh then [.create] else []⟩ =
          .error failure reached ∧
        s'.calls = s.calls ++ calls ∧ Field.GivenUp d.fields reached.record s'.record calls ∧
        d.Settled s' := by
  have hcreate : ∀ c ∈ (if fresh then [.create] else [] : List Call), c.Inert := by
    cases fresh with
    | true => exact List.forall_mem_singleton.2 ⟨rfl, rfl⟩
    | false => exact List.forall_mem_nil _
  have hpreserves : Preserves (Field.Filling d.fields s.calls) (d.fill dict) :=
    (Field.preserves_initialiseAll d.fields hinside hseparate fun _ hf => hf).bind fun _ =>
      Field.preserves_decodeAll dict d.fields hinside hseparate fun _ hf => hf
  have hfilling := hpreserves _ (Field.filling_emptyRecord d.fields s.store hcreate)
  rw [decode_eq_tryCatch hdict hfresh]
  cases hrun : d.fill dict ⟨.emptyRecord, s.store, s.calls ++ if fresh then [.create] else []⟩ with
  | ok _ given =>
    rw [tryCatch_of_ok hrun]
    rw [after_of_ok hrun] at hfilling
    exact exists_release_of_filling hseparate hinside hsucceeds hfilling
  | error failure reached =>
    rw [after_of_error hrun] at hfilling
    obtain ⟨s', calls, hrelease, hcalls, hgiven, hsettled⟩ :=
      exists_release_of_filling hseparate hinside hsucceeds hfilling
    rw [tryCatch_of_error hrun, bind_of_ok hrelease]
    exact ⟨reached, calls, rfl, hcalls, hgiven, hsettled⟩

/-- A descriptor of a parcel: a label, the tags and a note on its content, and its weight. -/
def parcel : Descriptor where
  fields :=
    [.custom ⟨"label", "label", none, false, 0⟩ .string,
      .nested ⟨"content", "content", none, false, 0⟩
        [.array ⟨"tags", "tags", none, false, 0⟩ .strings,
          .scalar ⟨"note", "note", none, false, 0⟩ .string .null],
      .scalar ⟨"weight", "weight", none, true, 0⟩ .uint64 (.int 0)]
  nodup_keys := by decide
  distinctKeys := by decide

/-- The dictionary of a parcel without a weight, and its parts. -/
def parcelHeap : Heap where
  objects :=
    #[⟨1, .dict ((Dict.empty.add "label" 1).add "content" 2)⟩, ⟨1, .string "books"⟩,
      ⟨1, .dict (Dict.empty.add "tags" 3)⟩, ⟨1, .array [4]⟩, ⟨1, .string "heavy"⟩]
  live := 5

/-- A parcel without a weight is refused. Its label and its tags have been decoded by then, and they
are released. -/
theorem releases_once_parcel :
    Field.Separate parcel.fields ∧ Field.AllEvery Field.SeparateInside parcel.fields ∧
    Field.AllEvery Field.ReleaseSucceeds parcel.fields ∧ parcelHeap.kind 0 = .dict ∧
    ∃ failure s', parcel.decode 0 true ⟨.null, ⟨parcelHeap, #[]⟩, []⟩ = .error failure s' ∧
      Call.releasedAt "label" [] s'.calls = [.text "books"] ∧
      Call.releasedAt "tags" ["content"] s'.calls = [.list 0] ∧
      s'.record.attribute? "label" = some .null ∧ parcel.Settled s' := by
  have hseparate : Field.Separate parcel.fields := ⟨by decide, by decide⟩
  have hinside : Field.AllEvery Field.SeparateInside parcel.fields :=
    ⟨trivial, ⟨⟨by decide, by decide⟩, trivial, trivial, trivial⟩, trivial, trivial⟩
  have hsucceeds : Field.AllEvery Field.ReleaseSucceeds parcel.fields := by
    refine ⟨?_, ⟨nofun, ?_, nofun, trivial⟩, nofun, trivial⟩
    · rintro _ ⟨⟩ v trace
      exact ⟨trace, rfl⟩
    · rintro _ ⟨⟩ v trace
      exact ⟨trace, rfl⟩
  have hdict : parcelHeap.kind 0 = .dict := by decide
  have hlabel : Field.LiesIn parcel.fields []
      (.custom ⟨"label", "label", none, false, 0⟩ .string) :=
    .here List.mem_cons_self
  have htags : Field.LiesIn parcel.fields ["content"]
      (.array ⟨"tags", "tags", none, false, 0⟩ .strings) :=
    .inside (List.mem_cons_of_mem _ List.mem_cons_self) (.here List.mem_cons_self)
  refine ⟨hseparate, hinside, hsucceeds, hdict, ?_⟩
  have hreleases := releases_once (s := ⟨.null, ⟨parcelHeap, #[]⟩, []⟩) hseparate hinside hsucceeds
    hdict (.inl (rfl : true = true))
  have hfill : (match parcel.fill 0 ⟨.emptyRecord, ⟨parcelHeap, #[]⟩, [.create]⟩ with
    | .ok _ _ => none
    | .error _ reached => some (reached.record.attribute? "label",
        (reached.record.at? ["content"]).bind (·.attribute? "tags"))) =
      some (some (.text "books"), some (.list 0)) := rfl
  have hfails : (match parcel.decode 0 true ⟨.null, ⟨parcelHeap, #[]⟩, []⟩ with
    | .ok _ _ => false
    | .error _ _ => true) = true := rfl
  cases hdecode : parcel.decode 0 true ⟨.null, ⟨parcelHeap, #[]⟩, []⟩ with
  | ok _ given =>
    rw [hdecode] at hfails
    cases hfails
  | error failure s' =>
    rw [hdecode] at hreleases
    obtain ⟨reached, calls, hreached, hcalls, hgiven, hsettled⟩ := hreleases
    rw [show parcel.fill 0 ⟨.emptyRecord, ⟨parcelHeap, #[]⟩, [.create]⟩ = _ from hreached] at hfill
    obtain ⟨hlabelled, htagged⟩ := Prod.mk.inj (Option.some.inj hfill)
    obtain rfl : s'.calls = calls := hcalls
    refine ⟨failure, s', rfl, (hgiven.released hlabel rfl).trans ?_,
      (hgiven.released htags rfl).trans ?_, ?_, hsettled⟩
    · exact congrArg Field.toRelease hlabelled
    · exact congrArg Field.toRelease htagged
    · obtain ⟨_, ⟨⟩, hnull⟩ := hgiven.cleared hlabel (.inl rfl) _ rfl
      exact hnull

end Descriptor

end PropertyList

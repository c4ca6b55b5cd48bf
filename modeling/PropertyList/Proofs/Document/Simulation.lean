import PropertyList.Document.Parse
import PropertyList.Proofs.Document.Draft
import PropertyList.Proofs.Heap.Holding
import PropertyList.Proofs.Token.Lexing

/-!
# The automaton and its drafts

A configuration of the automaton carries a draft: the references on its stack are held to the
values of the draft, its frames are the open containers, and it waits for the same. Reacting to a
token, the automaton comes to carry the next draft, or it fails with the error that the draft
gives rise to. Either way it owns exactly the objects that its stack holds, so that nothing is
lost when the stack is given back.

## Main definitions

* `Machine.Carries`, the relation of configurations and drafts
* `Agrees`, the same for outcomes

## Main results

* `Machine.agrees_step` : one token.
* `Machine.agrees_consume` : all tokens.
-/

namespace PropertyList

/-- The frames of open containers, given the objects that they and the pending keys are. -/
def Hole.frames : List Hole → List ObjectId → List Frame
  | item _ :: holes, array :: ids => .array array :: frames holes ids
  | entry _ _ :: holes, _ :: dict :: ids => .dict dict :: frames holes ids
  | _, _ => []

/-- The frames of a draft, given the objects that its values are. -/
def Draft.frames : Draft → List ObjectId → List Frame
  | value holes, ids => Hole.frames holes ids
  | keyOrClose _ holes, dict :: ids => .dict dict :: Hole.frames holes ids
  | equals _ _ holes, _ :: dict :: ids => .dict dict :: Hole.frames holes ids
  | itemOrClose _ holes, array :: ids => .array array :: Hole.frames holes ids
  | filled (.item _ :: holes) _, array :: ids => .array array :: Hole.frames holes ids
  | filled (.entry _ _ :: holes) _, dict :: ids => .dict dict :: Hole.frames holes ids
  | _, _ => []

/-- A configuration carries a draft if it holds the values of the draft and nothing else that was
not in the heap before, and has the frames and the state of the draft. -/
structure Machine.Carries (base : Heap) (m : Machine) (d : Draft) : Prop where
  holds : ∃ feet, base.Holds m.heap m.stack d.trees feet
  frames_eq : m.frames = d.frames m.stack
  state_eq : m.state = d.state

/-- An outcome of the automaton agrees with one for drafts if it carries the draft, or fails with
the same error and holds what its stack refers to. -/
def Agrees (base : Heap) : EStateM.Result ParseError Machine Unit → Except ParseError Draft → Prop
  | .ok () m, .ok d => m.Carries base d
  | .error e m, .error e' => e = e' ∧ ∃ ts feet, base.Holds m.heap m.stack ts feet
  | _, _ => False

namespace Machine

variable {base h h₁ h' : Heap} {stack ids : List ObjectId} {frames : List Frame} {state : State}
  {position : Position}

/-! ### Actions -/

section Actions

variable {value key : ObjectId}

theorem attach_dict {dict : ObjectId} {k : Text} (hkey : h.string? key = some k)
    (hadd : Heap.add dict k value h = .ok true h₁)
    (hrelease : Heap.releaseAll [key, value] h₁ = .ok () h') :
    attach position ⟨h, value :: key :: stack, .dict dict :: frames, state⟩ =
      .ok () ⟨h', stack, .dict dict :: frames, .entryEnd⟩ := by
  simp [attach, pop, stringValue, onHeap, await, hkey, hadd, hrelease, bind, EStateM.bind, get,
    getThe, MonadStateOf.get, EStateM.get, modify, modifyGet, MonadStateOf.modifyGet,
    EStateM.modifyGet, pure, EStateM.pure, tryFinally, MonadFinally.tryFinally', Functor.map,
    EStateM.map]

theorem attach_dict_of_refused {dict : ObjectId} {k : Text} (hkey : h.string? key = some k)
    (hadd : Heap.add dict k value h = .ok false h₁)
    (hrelease : Heap.releaseAll [key, value] h₁ = .ok () h') :
    attach position ⟨h, value :: key :: stack, .dict dict :: frames, state⟩ =
      .error (.duplicateKey k position) ⟨h', stack, .dict dict :: frames, state⟩ := by
  simp [attach, pop, stringValue, onHeap, hkey, hadd, hrelease, bind, EStateM.bind, get, getThe,
    MonadStateOf.get, EStateM.get, modify, modifyGet, MonadStateOf.modifyGet, EStateM.modifyGet,
    pure, EStateM.pure, tryFinally, MonadFinally.tryFinally', Functor.map, EStateM.map, throw,
    throwThe, MonadExceptOf.throw, EStateM.throw]

theorem attach_array {array : ObjectId} (hpush : Heap.push array value h = .ok () h₁)
    (hrelease : Heap.release value h₁ = .ok () h') :
    attach position ⟨h, value :: stack, .array array :: frames, state⟩ =
      .ok () ⟨h', stack, .array array :: frames, .itemEnd⟩ := by
  simp [attach, pop, onHeap, await, hpush, hrelease, bind, EStateM.bind, get, getThe,
    MonadStateOf.get, EStateM.get, modify, modifyGet, MonadStateOf.modifyGet, EStateM.modifyGet,
    pure, EStateM.pure, tryFinally, MonadFinally.tryFinally', Functor.map, EStateM.map]

theorem startValue_of_string? {t : PlacedToken} {s : Text} (hs : t.token.string? = some s) :
    startValue t ⟨h, stack, frames, state⟩ =
      attach t.position ⟨h.insert (.string s), h.objects.size :: stack, frames, state⟩ := by
  obtain ⟨token, position⟩ := t
  cases token <;> cases hs <;> rfl

end Actions

/-! ### Completed values -/

variable {holes : List Hole} {v : Tree} {feet : List ObjectId} {value : ObjectId}

/-- A completed value is handed over to the innermost container, unless its key is not new. -/
theorem agrees_attach (hh : base.Holds h (value :: ids) (v :: holes.flatMap Hole.trees) feet) :
    Agrees base (attach position ⟨h, value :: ids, Hole.frames holes ids, state⟩)
      ((Draft.filled holes v).checked position) := by
  obtain ⟨_, _, -, -, hs⟩ := Heap.ownsAll_cons.1 hh.owns
  match holes with
  | [] =>
    cases hs with
    | nil => exact ⟨⟨feet, hh⟩, rfl, rfl⟩
  | .item before :: holes =>
    obtain ⟨array, ids, _, rfl, -⟩ := hs.exists_cons
    obtain ⟨h₁, h', feet', hpush, hrelease, hh'⟩ := hh.push_item
    rw [Hole.frames, attach_array hpush hrelease]
    exact ⟨⟨feet', hh'⟩, rfl, rfl⟩
  | .entry before k :: holes =>
    obtain ⟨key, _, _, rfl, hs'⟩ := hs.exists_cons
    obtain ⟨dict, ids, _, rfl, -⟩ := hs'.exists_cons
    by_cases hk : k ∈ before.map (·.1)
    · obtain ⟨h', feet', hadd, hrelease, hh'⟩ := hh.refuse_entry hk
      rw [Hole.frames, attach_dict_of_refused hh.string?_eq hadd hrelease, Draft.checked,
        Draft.clash?, if_pos hk]
      exact ⟨rfl, _, feet', hh'⟩
    · obtain ⟨h₁, h', feet', hadd, hrelease, hh'⟩ := hh.add_entry hk
      rw [Hole.frames, attach_dict hh.string?_eq hadd hrelease, Draft.checked, Draft.clash?,
        if_neg hk]
      exact ⟨⟨feet', hh'⟩, rfl, rfl⟩

/-- The first token of a value puts an object on the stack. -/
theorem agrees_startValue (hh : base.Holds h stack (holes.flatMap Hole.trees) feet)
    {t : PlacedToken} {d : Draft} (hd : Draft.Starts holes t.token d) :
    Agrees base (startValue t ⟨h, stack, Hole.frames holes stack, state⟩)
      (d.checked t.position) := by
  obtain ⟨token, position⟩ := t
  cases hd with
  | string hs =>
    rw [startValue_of_string? hs]
    exact agrees_attach (hh.insert (.string Heap.object_insert_self))
  | dict => exact ⟨⟨_, hh.insert_dict⟩, rfl, rfl⟩
  | array => exact ⟨⟨_, hh.insert (.array Heap.object_insert_self .nil)⟩, rfl, rfl⟩

/-! ### Tokens -/

/-- A token that cannot follow is refused, and nothing changes. -/
theorem step_of_advance_eq_none {m : Machine} {d : Draft} {t : PlacedToken}
    (hadvance : d.advance t.token = none) (hstate : m.state = d.state) (hd : d.state ≠ .done) :
    step t m = .error (.unexpected d.missing t) m := by
  obtain ⟨token, position⟩ := t
  obtain ⟨heap, stack, frames, state⟩ := m
  obtain rfl : state = d.state := hstate
  cases d with
  | filled holes v =>
    rcases holes with _ | ⟨_ | _, holes⟩ <;> rcases token with mark | _ | _ | _ <;>
      first | rfl | cases hadvance | (cases mark <;> first | rfl | cases hadvance)
  | done root => exact absurd rfl hd
  | _ =>
    rcases token with mark | _ | _ | _ <;>
      first | rfl | cases hadvance | (cases mark <;> first | rfl | cases hadvance)

/-- The automaton reacts to a token that can follow as the draft does. -/
theorem agrees_step_of_advances {m : Machine} {d d' : Draft} {t : PlacedToken}
    (hm : m.Carries base d) (hd : Draft.Advances d t.token d') :
    Agrees base (step t m) (d'.checked t.position) := by
  obtain ⟨token, position⟩ := t
  obtain ⟨heap, stack, frames, state⟩ := m
  obtain ⟨⟨feet, hh⟩, hframes, hstate⟩ := hm
  obtain rfl : frames = d.frames stack := hframes
  obtain rfl : state = d.state := hstate
  replace hh : base.Holds heap stack d.trees feet := hh
  cases hd with
  | value h => exact agrees_startValue hh h
  | closeDict entries holes =>
    obtain ⟨dict, ids, _, rfl, -⟩ := hh.owns.exists_cons
    exact agrees_attach hh
  | key h entries holes =>
    obtain ⟨dict, ids, _, rfl, -⟩ := hh.owns.exists_cons
    cases token <;> cases h <;>
      exact ⟨⟨_, hh.insert (.string Heap.object_insert_self)⟩, rfl, rfl⟩
  | equals entries key holes =>
    obtain ⟨_, _, _, rfl, hs⟩ := hh.owns.exists_cons
    obtain ⟨dict, ids, _, rfl, -⟩ := hs.exists_cons
    exact ⟨⟨feet, hh⟩, rfl, rfl⟩
  | closeArray items holes =>
    obtain ⟨array, ids, _, rfl, -⟩ := hh.owns.exists_cons
    exact agrees_attach hh
  | @item items holes _ _ h =>
    obtain ⟨array, ids, _, rfl, -⟩ := hh.owns.exists_cons
    have hstart : Agrees base (startValue ⟨token, position⟩ ⟨heap, array :: ids,
        Hole.frames (.item items :: holes) (array :: ids), .itemOrClose⟩) (d'.checked position) :=
      agrees_startValue hh h
    cases h with
    | string h => cases token <;> first | exact hstart | cases h
    | dict => exact hstart
    | array => exact hstart
  | comma before holes v =>
    obtain ⟨array, ids, _, rfl, -⟩ := hh.owns.exists_cons
    exact ⟨⟨feet, hh⟩, rfl, rfl⟩
  | semicolon before key holes v =>
    obtain ⟨dict, ids, _, rfl, -⟩ := hh.owns.exists_cons
    exact ⟨⟨feet, hh⟩, rfl, rfl⟩
  | close hole holes v =>
    obtain ⟨container, ids, _, rfl, -⟩ := hh.owns.exists_cons
    cases hole <;> exact agrees_attach hh
  | rootSemicolon root => exact ⟨⟨feet, hh⟩, rfl, rfl⟩
  | rootEnding root => exact ⟨⟨feet, hh⟩, rfl, rfl⟩
  | ending root => exact ⟨⟨feet, hh⟩, rfl, rfl⟩

/-- **The automaton reacts as its draft does.** -/
theorem agrees_step {m : Machine} {d : Draft} (hm : m.Carries base d) (hd : d.state ≠ .done)
    (t : PlacedToken) : Agrees base (step t m) (d.react t) := by
  unfold Draft.react
  cases hadvance : d.advance t.token with
  | none =>
    rw [step_of_advance_eq_none hadvance hm.state_eq hd]
    exact ⟨rfl, _, hm.holds⟩
  | some d' => exact agrees_step_of_advances hm (Draft.advance_eq_some_iff.1 hadvance)

/-! ### Sequences of tokens -/

/-- What agrees goes on to what agrees. -/
theorem agrees_bind {act next : MachineM Unit} {m : Machine} {x : Except ParseError Draft}
    {go : Draft → Except ParseError Draft} (h : Agrees base (act m) x)
    (hgo : ∀ m' d, x = .ok d → m'.Carries base d → Agrees base (next m') (go d)) :
    Agrees base ((do act; next : MachineM Unit) m) (x >>= go) := by
  simp only [bind, EStateM.bind]
  cases hact : act m with
  | ok _ m' =>
    rw [hact] at h
    cases x with
    | ok d => exact hgo m' d rfl h
    | error e => exact h.elim
  | error e m' =>
    rw [hact] at h
    cases x with
    | ok d => exact h.elim
    | error e' => exact h

/-- **The automaton reads as its draft does.** -/
theorem agrees_consume {ts : List PlacedToken} {error : Option LexError}
    (hts : TokenStream ts error)
    {m : Machine} {d : Draft} (hm : m.Carries base d) (hd : d.state ≠ .done) :
    Agrees base (consume ts error m) (d.run ts error) := by
  induction hts generalizing m d with
  | failed e => exact ⟨rfl, _, hm.holds⟩
  | ended position =>
    rw [consume, Draft.run]
    exact agrees_bind (agrees_step hm hd _) fun m' d' _ hm' => hm'
  | cons ht hts ih =>
    rw [consume, Draft.run]
    refine agrees_bind (agrees_step hm hd _) fun m' d' hreact hm' => ih hm' fun hdone => ?_
    obtain ⟨root, rfl⟩ := Draft.eq_done_of_state hdone
    obtain ⟨hadvance, -⟩ := Draft.react_eq_ok_iff.1 hreact
    exact ht (Draft.advance_eq_some_iff.1 hadvance).eq_ending

theorem carries_initial (base : Heap) : (initial base).Carries base (.value []) :=
  ⟨⟨[], .refl base⟩, rfl, rfl⟩

end Machine

end PropertyList

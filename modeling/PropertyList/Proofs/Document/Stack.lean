import PropertyList.Proofs.Document.Parse
import PropertyList.Proofs.Outcome

/-!
# The stack of the automaton

Between two tokens the stack of the automaton is made up of the open containers in their order, each
dictionary with the key of the entry being read above it as long as the value of the entry is not
complete. After the last closing bracket the root alone is left. The objects on the stack have
nothing to do with one another: each is referred to from nowhere but the stack, and none is part of
another one.

So an object that is taken from the stack is there, a key is a string, and a document that has been
read to its end leaves one object.

## Main definitions

* `Heap.Stacked`, `Heap.Laid`, how the stack is made up
* `Machine.Apart`, `Machine.Disciplined`

## Main results

* `Machine.Carries.disciplined`
* `Machine.ends_step`, `Machine.carries_of_consume`
* `Machine.stack_disciplined`
-/

namespace PropertyList

/-- Where nothing but a value may follow, it is the root or the value of an entry. In an array the
bracket may follow as well. -/
def Draft.InEntry : Draft → Prop
  | value (.item _ :: _) => False
  | _ => True

theorem Draft.Starts.inEntry {holes : List Hole} {t : Token} {d : Draft}
    (h : Draft.Starts holes t d) : d.InEntry := by
  cases h <;> trivial

theorem Draft.Advances.inEntry {d d' : Draft} {t : Token} (h : Draft.Advances d t d') :
    d'.InEntry := by
  cases h with
  | value h => exact h.inEntry
  | item h => exact h.inEntry
  | _ => trivial

/-- A token that is refused cannot follow or repeats a key. -/
theorem Draft.react_eq_error {d : Draft} {t : PlacedToken} {e : ParseError}
    (h : d.react t = .error e) :
    (∃ state, e = .unexpected state t) ∨ ∃ key, e = .duplicateKey key t.position := by
  unfold react checked at h
  cases hadvance : d.advance t.token with
  | none =>
    rw [hadvance] at h
    exact .inl ⟨_, (Except.error.inj h).symm⟩
  | some d' =>
    rw [hadvance] at h
    cases hclash : d'.clash? with
    | none => simp [hclash] at h
    | some key =>
      simp only [hclash] at h
      exact .inr ⟨key, (Except.error.inj h).symm⟩

namespace Heap

/-! ### The make-up of the stack -/

/-- The objects, the last one first, are open containers, the innermost first, inside each of which
something is being read: the value of an entry in a dictionary, the key of which is pending above
it, or an item in an array. -/
inductive Stacked (h : Heap) : List Frame → List ObjectId → Prop
  | nil : Stacked h [] []
  | array {array : ObjectId} {frames : List Frame} {ids : List ObjectId}
      (harray : h.kind array = .array) (hs : Stacked h frames ids) :
      Stacked h (.array array :: frames) (array :: ids)
  | dict {key dict : ObjectId} {frames : List Frame} {ids : List ObjectId}
      (hkey : h.kind key = .string) (hdict : h.kind dict = .dict) (hs : Stacked h frames ids) :
      Stacked h (.dict dict :: frames) (key :: dict :: ids)

/-- How the stack is made up in a state, with the open containers `frames`. -/
inductive Laid (h : Heap) : State → List Frame → List ObjectId → Prop
  /-- Nothing has been read. -/
  | start : Laid h .value [] []
  /-- The value of an entry is to follow, or the equals sign in front of it. -/
  | pending {state : State} {dict : ObjectId} {frames : List Frame} {ids : List ObjectId}
      (hstate : state = .value ∨ state = .equals) (hs : h.Stacked (.dict dict :: frames) ids) :
      Laid h state (.dict dict :: frames) ids
  /-- No entry of the innermost dictionary is being read, so that no key is above it. -/
  | dict {state : State} {dict : ObjectId} {frames : List Frame} {ids : List ObjectId}
      (hstate : state = .keyOrClose ∨ state = .entryEnd) (hdict : h.kind dict = .dict)
      (hs : h.Stacked frames ids) : Laid h state (.dict dict :: frames) (dict :: ids)
  | array {state : State} {array : ObjectId} {frames : List Frame} {ids : List ObjectId}
      (hstate : state = .itemOrClose ∨ state = .itemEnd)
      (hs : h.Stacked (.array array :: frames) ids) : Laid h state (.array array :: frames) ids
  | root {state : State} (hstate : state = .documentEnd ∨ state = .ending ∨ state = .done)
      (root : ObjectId) : Laid h state [] [root]

variable {h : Heap} {ids feet : List ObjectId} {ts : List Tree}

/-- The values of open containers are stacked. -/
theorem OwnsAll.stacked {holes : List Hole} (hs : h.OwnsAll ids (holes.flatMap Hole.trees) feet) :
    h.Stacked (Hole.frames holes ids) ids := by
  induction holes generalizing ids feet with
  | nil =>
    cases hs with
    | nil => exact .nil
  | cons hole holes ih =>
    cases hole with
    | item before =>
      cases hs with
      | cons ho hs => exact .array ho.kind_eq_array (ih hs)
    | entry before key =>
      cases hs with
      | cons hkey hs =>
        cases hs with
        | cons ho hs => exact .dict hkey.kind_eq_string ho.kind_eq_dict (ih hs)

/-- A single value is all that is on the stack. -/
private theorem OwnsAll.laid_root {root : Tree} (hs : h.OwnsAll ids [root] feet) {state : State}
    (hstate : state = .documentEnd ∨ state = .ending ∨ state = .done) : h.Laid state [] ids := by
  cases hs with
  | cons _ hs =>
    cases hs with
    | nil => exact .root hstate _

/-- The values of a draft are laid out as the draft requires. -/
theorem OwnsAll.laid {d : Draft} (hd : d.InEntry) (hs : h.OwnsAll ids d.trees feet) :
    h.Laid d.state (d.frames ids) ids := by
  cases d with
  | value holes =>
    have hs' : h.OwnsAll ids (holes.flatMap Hole.trees) feet := hs
    match holes with
    | [] =>
      cases hs with
      | nil => exact .start
    | .item before :: holes => exact hd.elim
    | .entry before key :: holes =>
      cases hs with
      | cons _ hs =>
        cases hs with
        | cons _ hs => exact .pending (.inl rfl) hs'.stacked
  | keyOrClose entries holes =>
    cases hs with
    | cons ho hs => exact .dict (.inl rfl) ho.kind_eq_dict hs.stacked
  | equals entries key holes =>
    have hs' : h.OwnsAll ids ((Hole.entry entries key :: holes).flatMap Hole.trees) feet := hs
    cases hs with
    | cons _ hs =>
      cases hs with
      | cons _ hs => exact .pending (.inr rfl) hs'.stacked
  | itemOrClose items holes =>
    cases hs with
    | cons ho hs => exact .array (.inl rfl) (.array ho.kind_eq_array hs.stacked)
  | filled holes v =>
    match holes with
    | [] => exact hs.laid_root (.inl rfl)
    | .item before :: holes =>
      cases hs with
      | cons ho hs => exact .array (.inr rfl) (.array ho.kind_eq_array hs.stacked)
    | .entry before key :: holes =>
      cases hs with
      | cons ho hs => exact .dict (.inr rfl) ho.kind_eq_dict hs.stacked
  | ending root => exact hs.laid_root (.inr (.inl rfl))
  | done root => exact hs.laid_root (.inr (.inr rfl))

end Heap

namespace Machine

variable {base : Heap} {m : Machine} {d : Draft}

/-- The objects on the stack are different, there is one reference to each of them, and none is
reached from a part of another one or of itself. -/
structure Apart (m : Machine) : Prop where
  nodup : m.stack.Nodup
  refs_eq_one : ∀ id ∈ m.stack, (m.heap.object id).refs = 1
  not_reaches : ∀ i ∈ m.stack, ∀ part ∈ (m.heap.object i).content.parts, ∀ j ∈ m.stack,
    ¬ m.heap.Reaches part j

/-- A configuration is disciplined if its stack is made up as its state and the open containers
require, of objects that have nothing to do with one another. -/
structure Disciplined (m : Machine) : Prop extends Apart m where
  laid : m.heap.Laid m.state m.frames m.stack

theorem apart_of_holds {ts : List Tree} {feet : List ObjectId}
    (hh : base.Holds m.heap m.stack ts feet) : m.Apart := by
  obtain ⟨hnodup, hreaches⟩ := hh.owns.apart hh.nodup
  exact ⟨hnodup, fun id hid => hh.owns.refs_eq_one id (hh.owns.subset hid), hreaches⟩

/-- What carries a draft is disciplined. -/
theorem Carries.disciplined (hm : m.Carries base d) (hd : d.InEntry) : m.Disciplined := by
  obtain ⟨⟨feet, hh⟩, hframes, hstate⟩ := hm
  refine ⟨apart_of_holds hh, ?_⟩
  rw [hframes, hstate]
  exact hh.owns.laid hd

/-! ### Runs -/

/-- A complete document takes no notice of further tokens. -/
theorem step_of_done (hm : m.state = .done) (t : PlacedToken) : step t m = .ok () m := by
  obtain ⟨heap, stack, frames, state⟩ := m
  obtain rfl : state = .done := hm
  rfl

/-- A token is taken, or refused for one of two reasons. In either case the objects on the stack are
apart. -/
theorem ends_step (hm : m.Carries base d) (hd : d.InEntry) (t : PlacedToken) :
    Ends (step t) m (fun _ m' => ∃ d', m'.Carries base d' ∧ d'.InEntry)
      fun e m' => ((∃ state, e = .unexpected state t) ∨ ∃ key, e = .duplicateKey key t.position) ∧
        m'.Apart := by
  by_cases hdone : d.state = .done
  · exact ends_of_ok (step_of_done (hm.state_eq.trans hdone) t) ⟨d, hm, hd⟩
  have hagrees := agrees_step hm hdone t
  cases hstep : step t m with
  | ok _ m' =>
    rw [hstep] at hagrees
    cases hreact : d.react t with
    | error e => exact (hreact ▸ hagrees : Agrees base (.ok () m') (.error e)).elim
    | ok d' =>
      rw [hreact] at hagrees
      obtain ⟨hadvance, -⟩ := Draft.react_eq_ok_iff.1 hreact
      exact ends_of_ok hstep ⟨d', hagrees, (Draft.advance_eq_some_iff.1 hadvance).inEntry⟩
  | error e m' =>
    rw [hstep] at hagrees
    cases hreact : d.react t with
    | ok d' => exact (hreact ▸ hagrees : Agrees base (.error e m') (.ok d')).elim
    | error e' =>
      rw [hreact] at hagrees
      obtain ⟨rfl, ts, feet, hh⟩ := hagrees
      exact ends_of_error hstep ⟨Draft.react_eq_error hreact, apart_of_holds hh⟩

/-- **What has been read so far is carried.** -/
theorem carries_of_consume {ts : List PlacedToken} {m' : Machine} (hm : m.Carries base d)
    (hd : d.InEntry) (hrun : consume ts none m = .ok () m') :
    ∃ d', m'.Carries base d' ∧ d'.InEntry := by
  induction ts generalizing m d with
  | nil =>
    cases hrun
    exact ⟨d, hm, hd⟩
  | cons t ts ih =>
    obtain ⟨_, m₁, hstep, hrest⟩ := exists_of_bind_eq_ok hrun
    obtain ⟨d₁, hm₁, hd₁⟩ := (ends_step hm hd t).of_eq_ok hstep
    exact ih hm₁ hd₁ hrest

/-- **The stack is disciplined.** Whatever tokens are read, the configuration between two of them
has the open containers on its stack in their order, with the pending key above each dictionary an
entry of which is being read, and nothing but the root when they are all closed. There is one
reference to each object on the stack, and none is part of another one. So a token is either taken
or refused because it cannot follow or repeats a key: no object is looked for in vain, and no key is
anything but a string. Nor is a document ever refused for what its tokens have left on the stack.
-/
theorem stack_disciplined (h : Heap) :
    (∀ (ts : List PlacedToken) (m : Machine), consume ts none (initial h) = .ok () m →
      m.Disciplined ∧
      ∀ t, (∃ m', step t m = .ok () m' ∧ m'.Disciplined) ∨
        ∃ e m', step t m = .error e m' ∧ m'.Apart ∧
          ((∃ state, e = .unexpected state t) ∨ ∃ key, e = .duplicateKey key t.position)) ∧
    ∀ (text : Text) (objects : Nat) (h' : Heap),
      Document.parse text h ≠ .error (.unbalanced objects) h' := by
  refine ⟨fun ts m hrun => ?_, fun text objects h' hparse => ?_⟩
  · obtain ⟨d, hm, hd⟩ := carries_of_consume (carries_initial h) trivial hrun
    refine ⟨hm.disciplined hd, fun t => ?_⟩
    obtain ⟨_, m', hstep, d', hm', hd'⟩ | ⟨e, m', hstep, he, hm'⟩ :=
      ends_iff.1 (ends_step hm hd t)
    · exact .inl ⟨m', hstep, hm'.disciplined hd'⟩
    · exact .inr ⟨e, m', hstep, hm', he⟩
  · have houtcome := Document.outcome_parse text h
    rw [hparse] at houtcome
    obtain _ | ⟨hread, -⟩ := houtcome
    obtain ⟨_, he⟩ | ⟨_, _, he⟩ | ⟨_, _, he⟩ := Draft.run_eq_error hread <;> cases he

/-- In `{a=(` an array is being read as the value of an entry. -/
theorem stack_disciplined_pending_key :
    let tokens : List PlacedToken := [⟨.mark .openBrace, ⟨1, 1⟩⟩, ⟨.word "a", ⟨1, 2⟩⟩,
      ⟨.mark .equals, ⟨1, 3⟩⟩, ⟨.mark .openParen, ⟨1, 4⟩⟩]
    ∃ m, consume tokens none (initial .empty) = .ok () m ∧ m.frames = [.array 2, .dict 0] ∧
      m.stack = [2, 1, 0] ∧ m.Disciplined := by
  intro tokens
  obtain ⟨m, hrun, hframes, hstack⟩ : ∃ m, consume tokens none (initial .empty) = .ok () m ∧
      m.frames = [.array 2, .dict 0] ∧ m.stack = [2, 1, 0] := ⟨_, rfl, rfl, rfl⟩
  exact ⟨m, hrun, hframes, hstack, ((stack_disciplined .empty).1 tokens m hrun).1⟩

end Machine

end PropertyList

import PropertyList.Proofs.Document.Derivation
import PropertyList.Proofs.Document.Simulation

/-!
# Parsing

Parsing a document runs the automaton on its tokens, and the automaton carries a draft. So a
document is accepted exactly if its tokens are derived from the grammar and no dictionary has a
key twice. The root then is an object of its own, owned by the caller. A document that is refused
leaves nothing behind.

## Main definitions

* `Document.read`, what the tokens of a document make of the empty draft
* `Document.Outcome`, the results of parsing

## Main results

* `Document.outcome_parse`
* `Document.parse_iff_derivable` : what is accepted, and with which tree.
* `Document.parse_leaks_nothing` : what becomes of the objects.
-/

namespace PropertyList.Document

variable {t : Text} {h : Heap}

/-- What the tokens of a document make of the empty draft. -/
def read (t : Text) : Except ParseError Draft :=
  (Draft.value []).run t.scan.tokens t.scan.error

/-- What can be read is derived from the grammar and repeats no key. -/
theorem read_eq_ok_iff {d : Draft} :
    read t = .ok d ↔ t.scan.error = none ∧
      ∃ D, d = .done D ∧ DocumentTokens (t.scan.tokens.map (·.token)) D ∧ D.UniqueKeys := by
  simp only [← Draft.completes_value_nil]
  exact Draft.run_eq_ok_iff (tokenStream_scan t) fun _ ht => absurd ht List.not_mem_nil

/-- What is derived from the grammar is read unless it repeats a key. -/
theorem read_eq_ok {D : Tree} (herror : t.scan.error = none)
    (hD : DocumentTokens (t.scan.tokens.map (·.token)) D) (hunique : D.UniqueKeys) :
    read t = .ok (.done D) :=
  read_eq_ok_iff.2 ⟨herror, D, rfl, hD, hunique⟩

/-- What is derived from the grammar is refused for a repeated key alone. -/
theorem exists_read_eq_duplicateKey {D : Tree} (herror : t.scan.error = none)
    (hD : DocumentTokens (t.scan.tokens.map (·.token)) D) (hrepeats : ¬ D.UniqueKeys) :
    ∃ key position, read t = .error (.duplicateKey key position) := by
  have hcompletes := Draft.completes_value_nil.2 hD
  rcases hcompletes.run_eq with hrun | hrun
  · rw [← herror] at hrun
    obtain ⟨-, D', hdone, -, hunique⟩ := read_eq_ok_iff.1 hrun
    cases hdone
    exact absurd hunique hrepeats
  · rw [← herror] at hrun
    exact hrun

/-- The results of parsing: the root of what is read, which the caller owns, or the error that
reading gives rise to, with everything destroyed that was allocated. -/
inductive Outcome (t : Text) (h : Heap) : EStateM.Result ParseError Heap ObjectId → Prop
  | accepted {D : Tree} {root : ObjectId} {h' : Heap} {feet : List ObjectId}
      (hread : read t = .ok (.done D)) (hh : h.Holds h' [root] [D] feet) : Outcome t h (.ok root h')
  | refused {e : ParseError} {h' : Heap} (hread : read t = .error e) (hh : h.Holds h' [] [] []) :
      Outcome t h (.error e h')

/-- **Parsing is reading.** -/
theorem outcome_parse (t : Text) (h : Heap) : Outcome t h (parse t h) := by
  have hagrees := Machine.agrees_consume (tokenStream_scan t) (Machine.carries_initial h)
    (by decide)
  change Agrees h _ (read t) at hagrees
  unfold parse
  cases hconsume : Machine.consume t.scan.tokens t.scan.error (.initial h) with
  | ok _ m =>
    rw [hconsume] at hagrees
    obtain ⟨h', stack, frames, state⟩ := m
    cases hread : read t with
    | error e => exact (hread ▸ hagrees : Agrees h (.ok () _) (.error e)).elim
    | ok d =>
      rw [hread] at hagrees
      obtain ⟨-, D, rfl, -⟩ := read_eq_ok_iff.1 hread
      obtain ⟨⟨feet, hh⟩, -, -⟩ := hagrees
      obtain ⟨root, ids, _, rfl, hs⟩ := hh.owns.exists_cons
      cases hs with
      | nil => exact .accepted hread hh
  | error e m =>
    rw [hconsume] at hagrees
    cases hread : read t with
    | ok d => exact (hread ▸ hagrees : Agrees h (.error e m) (.ok d)).elim
    | error e' =>
      rw [hread] at hagrees
      obtain ⟨rfl, ts, feet, hh⟩ := hagrees
      obtain ⟨h', hrelease, hh'⟩ := hh.releaseAll
      simp only [refuse, hrelease]
      exact .refused hread hh'

/-- The root of a document shows what has been read. -/
theorem tree_eq_arrange {D : Tree} {root : ObjectId} {h' : Heap} {feet : List ObjectId}
    (hread : read t = .ok (.done D)) (hh : h.Holds h' [root] [D] feet) :
    h'.tree root = D.arrange := by
  obtain ⟨-, D', hD, -, hunique⟩ := read_eq_ok_iff.1 hread
  obtain rfl : D = D' := by cases hD; rfl
  obtain ⟨foot, rest, rfl, ho, hnil⟩ := Heap.ownsAll_cons.1 hh.owns
  exact ho.tree_eq (List.nodup_append'.1 hh.nodup).1 hunique

/-- What can be read is the tree of the root of the document, in the order of reading. -/
theorem exists_parse_iff {T : Tree} :
    (∃ root h', parse t h = .ok root h' ∧ h'.tree root = T) ↔
      ∃ D, read t = .ok (.done D) ∧ T = D.arrange := by
  have houtcome := outcome_parse t h
  constructor
  · rintro ⟨root, h', hparse, rfl⟩
    rw [hparse] at houtcome
    obtain ⟨hread, hh⟩ := houtcome
    exact ⟨_, hread, tree_eq_arrange hread hh⟩
  · rintro ⟨D, hread, rfl⟩
    cases hparse : parse t h with
    | ok root h' =>
      rw [hparse] at houtcome
      obtain ⟨hread', hh⟩ := houtcome
      rw [hread] at hread'
      cases hread'
      exact ⟨root, h', rfl, tree_eq_arrange hread hh⟩
    | error e h' =>
      rw [hparse] at houtcome
      obtain _ | ⟨hread', -⟩ := houtcome
      rw [hread] at hread'
      cases hread'

theorem exists_parse_eq_error {e : ParseError} (hread : read t = .error e) (h : Heap) :
    ∃ h', parse t h = .error e h' := by
  have houtcome := outcome_parse t h
  cases hparse : parse t h with
  | ok root h' =>
    rw [hparse] at houtcome
    obtain ⟨hread', -⟩ := houtcome
    rw [hread] at hread'
    cases hread'
  | error e' h' =>
    rw [hparse] at houtcome
    obtain _ | ⟨hread', -⟩ := houtcome
    rw [hread] at hread'
    cases hread'
    exact ⟨h', rfl⟩

/-- **What is accepted.** A document has a root with the tree `T` exactly if its tokens are derived
from the grammar, in no dictionary of the derivation is a key repeated, and `T` is the tree that
the derivation denotes. In every other case parsing fails for one of three reasons. -/
theorem parse_iff_derivable (t : Text) (h : Heap) :
    (∀ T, (∃ root h', parse t h = .ok root h' ∧ h'.tree root = T) ↔
      t.scan.error = none ∧ ∃ D, DocumentTokens (t.scan.tokens.map (·.token)) D ∧ D.UniqueKeys ∧
        T = D.arrange) ∧
    ((∃ root h', parse t h = .ok root h') ∨
      ∃ e h', parse t h = .error e h' ∧
        ((∃ l, e = .lexical l) ∨ (∃ state found, e = .unexpected state found) ∨
          ∃ key position, e = .duplicateKey key position)) := by
  refine ⟨fun T => ?_, ?_⟩
  · rw [exists_parse_iff]
    simp only [read_eq_ok_iff, Draft.done.injEq]
    constructor
    · rintro ⟨D, ⟨herror, _, rfl, hD, hunique⟩, hT⟩
      exact ⟨herror, D, hD, hunique, hT⟩
    · rintro ⟨herror, D, hD, hunique, hT⟩
      exact ⟨D, ⟨herror, D, rfl, hD, hunique⟩, hT⟩
  · have houtcome := outcome_parse t h
    cases hparse : parse t h with
    | ok root h' => exact Or.inl ⟨root, h', rfl⟩
    | error e h' =>
      rw [hparse] at houtcome
      obtain _ | ⟨hread, -⟩ := houtcome
      exact Or.inr ⟨e, h', rfl, Draft.run_eq_error hread⟩

/-- **Parsing leaks nothing.** If a document is accepted, the objects in use are those from before
and one for each value of the tree of the root. There is one reference to each of these, and giving
back the reference to the root destroys them all. If a document is refused, everything that was
allocated is destroyed, and no reference has been given back that was not held. -/
theorem parse_leaks_nothing (t : Text) (h : Heap) :
    match parse t h with
    | .ok root h' =>
      ∃ nodes : List ObjectId, nodes.Nodup ∧ (∀ id, id ∈ nodes ↔ h'.Reaches root id) ∧
        nodes.length = (h'.tree root).size ∧ h'.live = h.live + nodes.length ∧
        (∀ id ∈ nodes, (h'.object id).refs = 1) ∧
        ∃ h'', Heap.release root h' = .ok () h'' ∧ h''.live = h.live ∧
          ∀ id ∈ nodes, h''.destroyed id
    | .error e h' =>
      h'.live = h.live ∧ (∀ id, h.objects.size ≤ id → h'.destroyed id) ∧ ∀ m, e ≠ .misuse m := by
  have houtcome := outcome_parse t h
  cases hparse : parse t h with
  | ok root h' =>
    rw [hparse] at houtcome
    obtain ⟨hread, hh⟩ := houtcome
    obtain ⟨nodes, _, rfl, ho, hnil⟩ := Heap.ownsAll_cons.1 hh.owns
    cases hnil
    have hnodup := (List.nodup_append'.1 hh.nodup).1
    have hlive := hh.live_eq
    rw [List.append_nil] at hlive
    obtain ⟨h'', hrelease, hr⟩ := ho.release hnodup
    refine ⟨nodes, hnodup, fun id => ho.mem_iff_reaches, ?_, hlive, ho.refs_eq_one, h'', hrelease,
      ?_, fun id hid => beq_iff_eq.2 (hr.refs_eq_zero id hid)⟩
    · rw [tree_eq_arrange hread hh, Tree.size_arrange, ho.length_eq]
    · rw [hr.live_eq, hlive, Nat.add_sub_cancel]
  | error e h' =>
    rw [hparse] at houtcome
    obtain _ | ⟨hread, hh⟩ := houtcome
    refine ⟨hh.live_eq, fun id hid => beq_iff_eq.2 (hh.refs_eq_zero id hid List.not_mem_nil), ?_⟩
    rintro m rfl
    rcases Draft.run_eq_error hread with ⟨_, h⟩ | ⟨_, _, h⟩ | ⟨_, _, h⟩ <;> cases h

end PropertyList.Document

import PropertyList.Proofs.Document.Building
import PropertyList.Proofs.Heap.Accounts

/-!
# Clients

A client works with objects and keeps a list of the references that it holds. It gets a reference
to each object that it creates or parses and to each object that it takes one to, and it gives back
a reference by releasing the object.

A client keeps the rules if it works with objects in use only and gives back what it holds. Then no
operation ever meets a destroyed object, and the references that an object counts are those that
the client holds and those that containers in use hold. It does not matter which objects share
their parts, nor whether a container comes to hold itself.

## Main definitions

* `Operation.run`, an operation with its result
* `Client`, `Client.perform`, `Client.run`
* `Client.MayPerform`, `Client.Obeys`, the rules

## Main results

* `Client.exists_tree_eq_iff_ordered`
* `Client.references_balance`
-/

namespace PropertyList

/-- Performs an operation on a heap, of which a misuse is an error like any other. -/
def Document.onHeap {α : Type} (operation : HeapM α) : Document.ParseM α :=
  EStateM.adaptExcept .misuse operation

namespace Operation

open Document (onHeap)

/-- Performs an operation. The result is the object to which it gives a reference, if it gives
one. -/
def run : Operation → Document.ParseM (Option ObjectId)
  | string value => some <$> onHeap (Heap.allocate (.string value))
  | dict => some <$> onHeap (Heap.allocate (.dict .empty))
  | array => some <$> onHeap (Heap.allocate (.array []))
  | parse t => some <$> Document.parse t
  | retain id => (fun _ => some id) <$> onHeap (Heap.retain id)
  | release id => (fun _ => none) <$> onHeap (Heap.release id)
  | add container key value => (fun _ => none) <$> onHeap (Heap.add container key value)
  | push container item => (fun _ => none) <$> onHeap (Heap.push container item)

/-- The references that are left of those held when an operation has given back one of them. -/
def rest (held : List ObjectId) : Operation → List ObjectId
  | release id => held.erase id
  | _ => held

end Operation

private theorem after_map {ε σ α β : Type} (f : α → β) (x : EStateM ε σ α) (s : σ) :
    after (f <$> x) s = after x s := by
  simp only [after, Functor.map, EStateM.map]
  cases x s <;> rfl

private theorem Document.after_onHeap {α : Type} (operation : HeapM α) (h : Heap) :
    after (onHeap operation) h = after operation h := by
  simp only [after, onHeap, EStateM.adaptExcept]
  cases operation h <;> rfl

/-- An operation leaves the same heap whether or not its result is looked at. -/
theorem Operation.after_run (o : Operation) (h : Heap) : after o.run h = o.perform h := by
  cases o with
  | parse t => exact after_map some _ h
  | _ => exact (after_map _ _ h).trans (Document.after_onHeap _ h)

/-- A heap and the references that somebody holds to its objects. -/
structure Client where
  heap : Heap
  held : List ObjectId

namespace Client

/-- A client without objects. -/
def new : Client := ⟨.empty, []⟩

/-- The client after an operation. -/
def perform (c : Client) (o : Operation) : Client :=
  match o.run c.heap with
  | .ok result h => ⟨h, result.toList ++ o.rest c.held⟩
  | .error _ h => ⟨h, c.held⟩

/-- The client after a sequence of operations. -/
def run (c : Client) (operations : List Operation) : Client :=
  operations.foldl perform c

/-- The operations that keep the rules: those on objects in use, and giving back a reference that
is held. -/
def MayPerform (c : Client) : Operation → Prop
  | .string _ | .dict | .array | .parse _ => True
  | .retain id => c.heap.destroyed id = false
  | .release id => id ∈ c.held
  | .add container _ value => c.heap.destroyed container = false ∧ c.heap.destroyed value = false
  | .push container item => c.heap.destroyed container = false ∧ c.heap.destroyed item = false

instance (c : Client) : (o : Operation) → Decidable (c.MayPerform o)
  | .string _ | .dict | .array | .parse _ => inferInstanceAs (Decidable True)
  | .retain id => inferInstanceAs (Decidable (c.heap.destroyed id = false))
  | .release id => inferInstanceAs (Decidable (id ∈ c.held))
  | .add container _ value =>
    inferInstanceAs (Decidable (c.heap.destroyed container = false ∧ c.heap.destroyed value = false))
  | .push container item =>
    inferInstanceAs (Decidable (c.heap.destroyed container = false ∧ c.heap.destroyed item = false))

/-- Whether every operation of a sequence keeps the rules when it is its turn. -/
def Obeys (c : Client) : List Operation → Prop
  | [] => True
  | o :: operations => c.MayPerform o ∧ (c.perform o).Obeys operations

instance decidableObeys : (c : Client) → (operations : List Operation) →
    Decidable (c.Obeys operations)
  | _, [] => inferInstanceAs (Decidable True)
  | c, o :: operations => @instDecidableAnd _ _ _ (decidableObeys (c.perform o) operations)

variable {c : Client} {o : Operation} {operations : List Operation}

/-- The heap does not depend on what its client holds. -/
theorem heap_run (operations : List Operation) :
    (new.run operations).heap = Heap.build operations := by
  induction operations using List.reverseRecOn with
  | nil => rfl
  | append_singleton operations o ih =>
    have hheap (c : Client) : (c.perform o).heap = o.perform c.heap := by
      rw [← o.after_run, perform, after]
      cases o.run c.heap <;> rfl
    rw [Client.run, List.foldl_append, Heap.build, List.foldl_append]
    exact (hheap _).trans (congrArg o.perform ih)

/-- The trees of a client's objects, whether or not it keeps the rules, are the ordered trees. -/
theorem exists_tree_eq_iff_ordered {t : Tree} :
    (∃ operations id, (new.run operations).heap.tree id = t) ↔ t.Ordered := by
  simp only [heap_run]
  exact Tree.built_iff_ordered

/-- The accounts of a heap balance with the references that its client holds. -/
def Balanced (c : Client) : Prop :=
  c.heap.Accounts (fun id => c.held.count id) 0

theorem balanced_new : new.Balanced := .empty

/-! ### One operation -/

/-- A misuse is not among the reasons for refusing a document. -/
private theorem ne_misuse_of_read {t : Text} {e : ParseError} (hread : Document.read t = .error e)
    (m : Misuse) : e ≠ .misuse m := by
  rintro rfl
  rcases Draft.run_eq_error hread with ⟨_, h⟩ | ⟨_, _, h⟩ | ⟨_, _, h⟩ <;> cases h

/-- An object that is not destroyed has references. -/
private theorem refs_ne_zero {h : Heap} {id : ObjectId} (hid : h.destroyed id = false) :
    (h.object id).refs ≠ 0 := by
  simpa [Heap.destroyed] using hid

private theorem count_cons_eq (id : ObjectId) (held : List ObjectId) (i : ObjectId) :
    (id :: held).count i = (if i = id then 1 else 0) + held.count i := by
  rw [List.count_cons, Nat.add_comm]
  simp only [beq_iff_eq, @eq_comm _ i]

private theorem map_onHeap_eq_ok {α β : Type} {f : α → β} {operation : HeapM α} {a : α}
    {h h' : Heap} (hok : operation h = .ok a h') :
    (f <$> Document.onHeap operation) h = .ok (f a) h' := by
  simp [Functor.map, EStateM.map, Document.onHeap, EStateM.adaptExcept, hok]

/-- What an operation that keeps the rules does: it gives a result, and the accounts balance with
the references that the client then holds, or it parses a document that is refused, and they
balance with those that the client held before. -/
theorem Balanced.run_eq (hc : c.Balanced) (ho : c.MayPerform o) :
    (∃ result h, o.run c.heap = .ok result h ∧
      Balanced ⟨h, result.toList ++ o.rest c.held⟩) ∨
    ∃ t e h, o = .parse t ∧ o.run c.heap = .error e h ∧ (∀ m, e ≠ .misuse m) ∧
      Balanced ⟨h, c.held⟩ := by
  have hcreate {content : Content} (hparts : content.parts = []) :
      Balanced ⟨c.heap.insert content, c.heap.objects.size :: c.held⟩ :=
    (hc.insert hparts).congr (count_cons_eq _ c.held)
  cases o with
  | string value => exact Or.inl ⟨_, _, rfl, hcreate rfl⟩
  | dict => exact Or.inl ⟨_, _, rfl, hcreate rfl⟩
  | array => exact Or.inl ⟨_, _, rfl, hcreate rfl⟩
  | parse t =>
    have houtcome := Document.outcome_parse t c.heap
    cases hparse : Document.parse t c.heap with
    | ok root h =>
      rw [hparse] at houtcome
      obtain ⟨-, hh⟩ := houtcome
      refine Or.inl ⟨some root, h, ?_, (hh.accounts hc).congr fun i => ?_⟩
      · simp only [Operation.run, Functor.map, EStateM.map, hparse]
      · show List.count i ([root] ++ c.held) = _
        rw [List.count_append]
    | error e h =>
      rw [hparse] at houtcome
      obtain _ | ⟨hread, hh⟩ := houtcome
      refine Or.inr ⟨t, e, h, rfl, ?_, ne_misuse_of_read hread, (hh.accounts hc).congr fun i => ?_⟩
      · simp only [Operation.run, Functor.map, EStateM.map, hparse]
      · rw [List.count_nil, Nat.zero_add]
  | retain id =>
    obtain ⟨h, hretain, ha, -⟩ := hc.retain (refs_ne_zero ho)
    exact Or.inl ⟨some id, h, map_onHeap_eq_ok hretain, ha.congr (count_cons_eq id c.held)⟩
  | release id =>
    have hclaims : c.heap.Accounts
        (fun i => (if i = id then 1 else 0) + (c.held.erase id).count i) 0 :=
      Heap.Accounts.congr hc fun i => by
        rw [← count_cons_eq, (List.perm_cons_erase ho).count_eq]
    obtain ⟨h, hrelease, ha⟩ := hclaims.release
    exact Or.inl ⟨none, h, map_onHeap_eq_ok hrelease, ha⟩
  | add container key value =>
    obtain ⟨added, h, hadd, ha⟩ := hc.add key (refs_ne_zero ho.1) (refs_ne_zero ho.2)
    exact Or.inl ⟨none, h, map_onHeap_eq_ok hadd, ha⟩
  | push container item =>
    obtain ⟨h, hpush, ha⟩ := hc.push (refs_ne_zero ho.1) (refs_ne_zero ho.2)
    exact Or.inl ⟨none, h, map_onHeap_eq_ok hpush, ha⟩

theorem Balanced.perform (hc : c.Balanced) (ho : c.MayPerform o) : (c.perform o).Balanced := by
  rw [Client.perform]
  rcases hc.run_eq ho with ⟨result, h, hrun, hb⟩ | ⟨t, e, h, -, hrun, -, hb⟩
  · rw [hrun]
    exact hb
  · rw [hrun]
    exact hb

/-! ### Sequences of operations -/

/-- What keeps the rules can be cut in two. -/
theorem obeys_append {before later : List Operation} :
    c.Obeys (before ++ later) ↔ c.Obeys before ∧ (c.run before).Obeys later := by
  induction before generalizing c with
  | nil => exact (and_iff_right trivial).symm
  | cons o before ih =>
    rw [List.cons_append, Obeys, Obeys, ih, and_assoc]
    rfl

theorem Balanced.run (hc : c.Balanced) (h : c.Obeys operations) : (c.run operations).Balanced := by
  induction operations generalizing c with
  | nil => exact hc
  | cons o operations ih => exact ih (hc.perform h.1) h.2

/-- The references and the objects of a client are in order. -/
structure InOrder (c : Client) : Prop where
  /-- An object counts the references that the client holds to it and its positions in containers
  in use. -/
  refs_eq : ∀ id, (c.heap.object id).refs = c.held.count id + c.heap.positions id
  /-- An object is destroyed exactly if there are none of either. -/
  destroyed_iff : ∀ id, c.heap.destroyed id ↔ c.held.count id + c.heap.positions id = 0
  /-- The parts of an object in use are in use. -/
  parts_in_use : ∀ id, ¬ c.heap.destroyed id →
    ∀ part ∈ (c.heap.object id).content.parts, ¬ c.heap.destroyed part
  /-- The heap counts the objects in use. -/
  live_eq : c.heap.live = c.heap.population

theorem Balanced.inOrder (hc : c.Balanced) : c.InOrder where
  refs_eq := hc.refs_eq
  destroyed_iff id := by
    rw [← hc.refs_eq id]
    exact beq_iff_eq
  parts_in_use id hid part hpart hdestroyed := by
    have hrefs := hc.refs_eq part
    have hpositions := Heap.positions_pos (mt beq_iff_eq.2 hid) hpart
    rw [beq_iff_eq.1 hdestroyed] at hrefs
    omega
  live_eq := hc.live_eq

/-- **The references balance.** Let a client keep the rules from the beginning. Then none of its
operations meets a destroyed object: each gives a result, unless it parses a document that is
refused. After each operation the references and the objects are in order. -/
theorem references_balance (before : List Operation) (o : Operation) (later : List Operation)
    (h : new.Obeys (before ++ o :: later)) :
    ((∃ result h', o.run (new.run before).heap = .ok result h') ∨
      ∃ t e h', o = .parse t ∧ o.run (new.run before).heap = .error e h' ∧ ∀ m, e ≠ .misuse m) ∧
    (new.run (before ++ [o])).InOrder := by
  obtain ⟨hbefore, ho, -⟩ := obeys_append.1 h
  have hb : (new.run before).Balanced := balanced_new.run hbefore
  have hc : (new.run (before ++ [o])).Balanced := by
    rw [Client.run, List.foldl_append]
    exact hb.perform ho
  refine ⟨?_, hc.inOrder⟩
  rcases hb.run_eq ho with ⟨result, h', hrun, -⟩ | ⟨t, e, h', ht, hrun, hmisuse, -⟩
  · exact Or.inl ⟨result, h', hrun⟩
  · exact Or.inr ⟨t, e, h', ht, hrun, hmisuse⟩

/-- An item that an array holds twice is kept by the array and goes with it. -/
theorem references_balance_shared_item :
    new.Obeys [.array, .string [], .push 0 1, .push 0 1, .release 1, .release 0] ∧
    ((new.run [.array, .string [], .push 0 1, .push 0 1, .release 1]).heap.object 1).refs = 2 ∧
    (new.run [.array, .string [], .push 0 1, .push 0 1, .release 1, .release 0]).heap.destroyed 1 ∧
    (new.run [.array, .string [], .push 0 1, .push 0 1, .release 1, .release 0]).heap.live = 0 := by
  have hobeys : new.Obeys
      [.array, .string [], .push 0 1, .push 0 1, .release 1, .release 0] := by decide +kernel
  obtain ⟨-, hkept⟩ := references_balance [.array, .string [], .push 0 1, .push 0 1] (.release 1)
    [.release 0] hobeys
  obtain ⟨-, hgone⟩ := references_balance [.array, .string [], .push 0 1, .push 0 1, .release 1]
    (.release 0) [] hobeys
  exact ⟨hobeys, (hkept.refs_eq 1).trans (by decide +kernel),
    (hgone.destroyed_iff 1).2 (by decide +kernel), hgone.live_eq.trans (by decide +kernel)⟩

end Client

end PropertyList

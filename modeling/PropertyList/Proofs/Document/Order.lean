import PropertyList.Document.Parse
import PropertyList.Proofs.Heap.Order

/-!
# Parsing and the order of reading

The automaton changes the heap by the operations on objects alone. So parsing a document, whether
it is accepted or refused, leaves a heap on which all objects are shown in the order of reading.

## Main results

* `Document.preserves_parse`
-/

namespace PropertyList

namespace Machine

/-- Whether the heap of a configuration is well keyed. -/
def WellKeyed (m : Machine) : Prop :=
  m.heap.WellKeyed

/-- The automaton performs operations on its heap as they are. -/
theorem preserves_onHeap {α : Type} {operation : HeapM α}
    (ho : Preserves Heap.WellKeyed operation) : Preserves WellKeyed (onHeap operation) := by
  rintro ⟨h, stack, frames, state⟩ hh
  have hafter : (after (onHeap operation) ⟨h, stack, frames, state⟩).heap = after operation h := by
    simp only [after, onHeap]
    cases operation h <;> rfl
  unfold WellKeyed
  rw [hafter]
  exact ho h hh

theorem preserves_await (state : State) : Preserves WellKeyed (await state) :=
  preserves_modify fun _ hm => hm

theorem preserves_create {c : Content} (hc : c.WellKeyed) : Preserves WellKeyed (create c) := by
  refine (preserves_onHeap (Heap.preserves_allocate hc)).bind fun id => ?_
  refine Preserves.bind (preserves_modify ?_) fun _ => preserves_pure id
  exact fun _ hm => hm

theorem preserves_pop : Preserves WellKeyed pop := by
  refine preserves_get_bind fun m _ => ?_
  cases m.stack with
  | nil => exact preserves_throw _
  | cons id stack =>
    refine Preserves.bind (preserves_modify ?_) fun _ => preserves_pure id
    exact fun _ hm => hm

theorem preserves_stringValue (id : ObjectId) : Preserves WellKeyed (stringValue id) := by
  refine preserves_get_bind fun m _ => ?_
  cases m.heap.string? id with
  | none => exact preserves_throw _
  | some text => exact preserves_pure text

theorem preserves_attach (position : Position) : Preserves WellKeyed (attach position) := by
  refine preserves_get_bind fun m _ => ?_
  match m.frames with
  | [] => exact preserves_await .documentEnd
  | .dict dict :: _ =>
    refine preserves_pop.bind fun value => preserves_pop.bind fun key => ?_
    have hadd : Preserves WellKeyed (do
        let text ← stringValue key
        unless ← onHeap (Heap.add dict text value) do
          throw (.duplicateKey text position)) := by
      refine (preserves_stringValue key).bind fun text => ?_
      refine (preserves_onHeap (Heap.preserves_add dict text value)).bind fun added => ?_
      cases added with
      | true => exact preserves_pure ()
      | false => exact preserves_throw _
    have hrelease := preserves_onHeap (Heap.preserves_releaseAll [key, value])
    exact (hadd.tryFinally hrelease).bind fun _ => preserves_await .entryEnd
  | .array array :: _ =>
    refine preserves_pop.bind fun value => ?_
    have hpush := preserves_onHeap (Heap.preserves_push array value)
    have hrelease := preserves_onHeap (Heap.preserves_release value)
    exact (hpush.tryFinally hrelease).bind fun _ => preserves_await .itemEnd

theorem preserves_startValue (t : PlacedToken) : Preserves WellKeyed (startValue t) := by
  have hstring (s : Text) :
      Preserves WellKeyed (do let _ ← create (.string s); attach t.position) :=
    (preserves_create (Content.wellKeyed_string s)).bind fun _ => preserves_attach t.position
  have hopen {c : Content} (hc : c.WellKeyed) (frame : ObjectId → Frame) (state : State) :
      Preserves WellKeyed (do
        let id ← create c
        modify fun m => { m with frames := frame id :: m.frames, state := state }) := by
    refine (preserves_create hc).bind fun _ => preserves_modify ?_
    exact fun _ hm => hm
  unfold startValue
  split
  · exact hstring _
  · exact hstring _
  · exact hopen Content.wellKeyed_empty .dict .keyOrClose
  · exact hopen (Content.wellKeyed_array []) .array .itemOrClose
  · exact preserves_throw _

theorem preserves_close (position : Position) : Preserves WellKeyed (close position) := by
  refine preserves_get_bind fun m _ => ?_
  cases m.frames with
  | nil => exact preserves_throw _
  | cons frame frames =>
    refine Preserves.bind (preserves_modify ?_) fun _ => preserves_attach position
    exact fun _ hm => hm

theorem preserves_step (t : PlacedToken) : Preserves WellKeyed (step t) := by
  have hkey (s : Text) : Preserves WellKeyed (do let _ ← create (.string s); await .equals) :=
    (preserves_create (Content.wellKeyed_string s)).bind fun _ => preserves_await .equals
  refine preserves_get_bind fun m _ => ?_
  split
  · exact preserves_startValue t
  · exact preserves_close t.position
  · exact hkey _
  · exact hkey _
  · exact preserves_await .value
  · exact preserves_await .keyOrClose
  · exact preserves_close t.position
  · exact preserves_close t.position
  · exact preserves_startValue t
  · exact preserves_await .itemOrClose
  · exact preserves_close t.position
  · exact preserves_await .ending
  · exact preserves_await .done
  · exact preserves_await .done
  · exact preserves_pure ()
  · exact preserves_throw _

theorem preserves_consume (ts : List PlacedToken) (error : Option LexError) :
    Preserves WellKeyed (consume ts error) := by
  induction ts with
  | nil =>
    cases error with
    | none => exact preserves_pure ()
    | some e => exact preserves_throw _
  | cons t ts ih => exact (preserves_step t).bind fun _ => ih

end Machine

namespace Document

theorem preserves_refuse {α : Type} (stack : List ObjectId) (e : ParseError) :
    Preserves Heap.WellKeyed (refuse stack e : ParseM α) := by
  intro h hh
  have hafter : after (refuse stack e : ParseM α) h = after (Heap.releaseAll stack) h := by
    simp only [after, refuse]
    cases Heap.releaseAll stack h <;> rfl
  rw [hafter]
  exact Heap.preserves_releaseAll stack h hh

/-- **Parsing keeps heaps well keyed**, whether a document is accepted or refused. -/
theorem preserves_parse (t : Text) : Preserves Heap.WellKeyed (parse t) := by
  intro h hh
  have hconsume := Machine.preserves_consume t.scan.tokens t.scan.error (.initial h) hh
  have hrefuse (stack : List ObjectId) (e : ParseError) (h : Heap) (hh : h.WellKeyed) :
      (after (refuse stack e : ParseM ObjectId) h).WellKeyed := preserves_refuse stack e h hh
  cases hrun : Machine.consume t.scan.tokens t.scan.error (.initial h) with
  | ok _ m =>
    rw [after_of_ok hrun] at hconsume
    obtain ⟨h', stack, frames, state⟩ := m
    have hh' : h'.WellKeyed := hconsume
    match stack with
    | [] => simpa only [after, parse, hrun] using hrefuse [] _ h' hh'
    | [root] => simpa only [after, parse, hrun] using hh'
    | root :: id :: ids =>
      simpa only [after, parse, hrun] using hrefuse (root :: id :: ids) _ h' hh'
  | error e m =>
    rw [after_of_error hrun] at hconsume
    simpa only [after, parse, hrun] using hrefuse m.stack e m.heap hconsume

end Document

end PropertyList

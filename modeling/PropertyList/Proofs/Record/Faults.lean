import PropertyList.Proofs.Record.Meaning
import PropertyList.Proofs.Scalar.Faults

/-!
# What a failed decoding reports

Decoding that fails reports a fault of the data, blamed on the key of a field at some level. It does
so unless the first field that fails has a text that stumbles (`ScalarType.Stumbles`): then it ends
in a number that is not converted, which is blamed on nothing.

## Main definitions

* `Field.allKeys`, the keys of fields at all levels
* `Field.Stumbles`, `Field.FirstStumbles`

## Main results

* `Field.due_refusal?`, `Field.due_firstFailure?`
* `Descriptor.decode_reports`
-/

namespace PropertyList

open Failure

/-! ### What is due -/

namespace Failure

variable {accepted accepted' stumbles stumbles' : Prop} {blamed blamed' : Option Text → Prop}
  {failure? : Option Failure}

theorem Due.congr (h : Due accepted stumbles blamed failure?) (haccepted : accepted ↔ accepted')
    (hstumbles : stumbles ↔ stumbles') (hblamed : ∀ key, blamed key → blamed' key) :
    Due accepted' stumbles' blamed' failure? := by
  rw [← propext haccepted, ← propext hstumbles]
  cases failure? with
  | none => exact h
  | some failure =>
    cases failure with
    | decode fault key => exact ⟨h.1, h.2.1, hblamed key h.2.2⟩
    | number fault => exact h
    | _ => exact h.elim

/-- A fault that a field passes on is blamed on its key if it has not been blamed on another. -/
theorem Due.passOn (h : Due accepted stumbles blamed failure?) (key : Text) :
    Due accepted stumbles (fun blame => ∃ k, blame = some k ∧ (k = key ∨ blamed (some k)))
      (failure?.map (·.passOn key)) := by
  cases failure? with
  | none => exact h
  | some failure =>
    cases failure with
    | decode fault blame =>
      cases blame with
      | none => exact ⟨h.1, h.2.1, key, rfl, .inl rfl⟩
      | some k => exact ⟨h.1, h.2.1, k, rfl, .inr h.2.2⟩
    | number fault => exact h
    | _ => exact h.elim

end Failure

namespace Field

/-! ### Keys and texts at all levels -/

mutual

/-- The keys of the fields inside a field, at all levels. -/
def innerKeys : Field → List Text
  | scalar _ _ _ => []
  | nested _ fields => allKeys fields
  | array _ _ | custom _ _ => []

/-- The keys of fields at all levels. -/
def allKeys : List Field → List Text
  | [] => []
  | f :: fields => f.key :: (f.innerKeys ++ allKeys fields)

end

mutual

/-- Whether the first thing that is wrong with an object for a field is a text that stumbles. -/
def Stumbles (h : Heap) (id : ObjectId) : Field → Prop
  | scalar _ type _ => type.StumblesAt h id
  | nested _ fields => h.kind id = .dict ∧ FirstStumbles h id fields
  | array _ _ | custom _ _ => False

/-- Whether the first thing that is wrong with a dictionary for fields is a text that stumbles. -/
def FirstStumbles (h : Heap) (dict : ObjectId) : List Field → Prop
  | [] => False
  | f :: fields =>
    (∃ id, h.entry? (some dict) f.slot.key = some id ∧ f.Stumbles h id) ∨
      f.Accepts h dict ∧ FirstStumbles h dict fields

end

variable {h : Heap} {dict id : ObjectId} {f : Field} {fields : List Field}

/-! ### The first failure -/

/-- What a field fails with is due if what it refuses an object with is. -/
theorem due_failure? (dict : ObjectId) (hf : ∀ id, Due (f.Takes h id) (f.Stumbles h id)
      (fun blame => ∀ k, blame = some k → k ∈ f.innerKeys) (f.refusal? h id)) :
    Due (f.Accepts h dict) (∃ id, h.entry? (some dict) f.slot.key = some id ∧ f.Stumbles h id)
      (fun blame => ∃ k, blame = some k ∧ k ∈ f.key :: f.innerKeys) (f.failure? h dict) := by
  unfold failure? Slot.failure?
  cases hentry : h.entry? (some dict) f.slot.key with
  | none =>
    have hnone : ¬ ∃ id, none = some id ∧ f.Stumbles h id := by
      rintro ⟨_, ⟨⟩, -⟩
    rw [accepts_of_none hentry]
    cases f.slot.required with
    | true => exact ⟨nofun, hnone, f.key, rfl, List.mem_cons_self⟩
    | false => exact ⟨rfl, hnone⟩
  | some id =>
    refine ((hf id).passOn f.slot.key).congr (accepts_of_some hentry).symm ?_ ?_
    · exact ⟨fun h => ⟨id, rfl, h⟩, fun ⟨id', hid, h⟩ => Option.some.inj hid ▸ h⟩
    · rintro _ ⟨k, rfl, rfl | hk⟩
      · exact ⟨_, rfl, List.mem_cons_self⟩
      · exact ⟨k, rfl, List.mem_cons_of_mem _ (hk k rfl)⟩

theorem due_firstFailure?_of_forall
    (hfields : ∀ f ∈ fields, ∀ id, Due (f.Takes h id) (f.Stumbles h id)
      (fun blame => ∀ k, blame = some k → k ∈ f.innerKeys) (f.refusal? h id)) :
    Due (AllAccept h dict fields) (FirstStumbles h dict fields)
      (fun blame => ∃ k, blame = some k ∧ k ∈ allKeys fields) (firstFailure? h dict fields) := by
  induction fields with
  | nil => exact ⟨trivial, not_false⟩
  | cons f fields ih =>
    obtain ⟨hf, hfields⟩ := List.forall_mem_cons.1 hfields
    have hfirst := due_failure? dict hf
    rw [firstFailure?_cons]
    cases hfailure : f.failure? h dict with
    | none =>
      rw [hfailure] at hfirst
      refine (ih hfields).congr ?_ ?_ ?_
      · rw [allAccept_cons, and_iff_right hfirst.1]
      · rw [FirstStumbles, or_iff_right hfirst.2, and_iff_right hfirst.1]
      · rintro _ ⟨k, rfl, hk⟩
        exact ⟨k, rfl, List.mem_cons_of_mem _ (List.mem_append_right _ hk)⟩
    | some failure =>
      -- The walk ends here: no text further on is looked at, so none of them stumbles.
      rw [hfailure] at hfirst
      rw [Option.some_or]
      cases failure with
      | decode fault blame =>
        obtain ⟨hrefused, hsteady, k, rfl, hk⟩ := hfirst
        refine ⟨fun h => hrefused h.1, ?_, k, rfl, ?_⟩
        · rintro (h | h)
          · exact hsteady h
          · exact hrefused h.1
        · exact List.mem_append_left (allKeys fields) hk
      | number fault => exact ⟨fun h => hfirst.1 h.1, .inl hfirst.2⟩
      | _ => exact hfirst.elim

/-- What an object is refused with is due. -/
theorem due_refusal? (f : Field) (hf : f.Regular) : ∀ id, Due (f.Takes h id) (f.Stumbles h id)
    (fun blame => ∀ k, blame = some k → k ∈ f.innerKeys) (f.refusal? h id) := by
  induction f, hf using regular_induction with
  | scalar slot type default _ =>
    intro id
    have hrefusal : (scalar slot type default).refusal? h id = of? (Scalar.decode type h id) := by
      rw [refusal?]
      cases Scalar.decode type h id <;> rfl
    rw [hrefusal]
    exact (Scalar.due_decode type h id).congr Iff.rfl Iff.rfl (by rintro _ rfl k ⟨⟩)
  | nested slot fields _ _ ih =>
    intro id
    by_cases hkind : h.kind id = .dict
    · rw [refusal?_nested hkind]
      refine (due_firstFailure?_of_forall ih).congr (and_iff_right hkind).symm
        (and_iff_right hkind).symm ?_
      rintro _ ⟨k, rfl, hk⟩ _ ⟨⟩
      exact hk
    · rw [refusal?, if_neg hkind]
      exact ⟨fun h => hkind h.1, fun h => hkind h.1, nofun⟩

/-- What decoding a dictionary for regular fields ends in is due. -/
theorem due_firstFailure? (h : Heap) (dict : ObjectId) (hfields : AllRegular fields) :
    Due (AllAccept h dict fields) (FirstStumbles h dict fields)
      (fun blame => ∃ k, blame = some k ∧ k ∈ allKeys fields) (firstFailure? h dict fields) :=
  due_firstFailure?_of_forall fun f hf => due_refusal? f (allRegular_iff.1 hfields f hf)

end Field

/-! ### Descriptors -/

namespace Descriptor

variable {d : Descriptor} {dict : ObjectId}

/-- Decoding a scalar gives a value or reports a fault of the data, unless the object is a string
that stumbles, and then it ends in a number that is not converted. Decoding a dictionary gives a
record or reports a fault of the data, blamed on the key of a field, unless the first thing that is
wrong with the dictionary is a string that stumbles, and then it ends in such a number too. -/
theorem decode_reports (hd : d.Regular) {s : Session} (hdict : s.store.heap.kind dict = .dict)
    {fresh : Bool} (hfresh : fresh = true ∨ s.record = .emptyRecord) :
    (∀ (type : ScalarType) (h : Heap) (id : ObjectId),
      ¬ type.StumblesAt h id ∧ ((∃ v, Scalar.decode type h id = .ok v) ∨
          ∃ fault, Scalar.decode type h id = .error (.decode fault none)) ∨
        type.StumblesAt h id ∧ ∃ fault, Scalar.decode type h id = .error (.number fault)) ∧
    (¬ Field.FirstStumbles s.store.heap dict d.fields ∧
        ((∃ s', d.decode dict fresh s = .ok () s') ∨
          ∃ fault key s', d.decode dict fresh s = .error (.decode fault (some key)) s' ∧
            key ∈ Field.allKeys d.fields) ∨
      Field.FirstStumbles s.store.heap dict d.fields ∧
        ∃ fault s', d.decode dict fresh s = .error (.number fault) s') := by
  constructor
  · intro type h id
    have hdue := Scalar.due_decode type h id
    cases hdecode : Scalar.decode type h id with
    | ok v =>
      rw [hdecode] at hdue
      exact .inl ⟨hdue.2, .inl ⟨v, rfl⟩⟩
    | error failure =>
      rw [hdecode] at hdue
      cases failure with
      | decode fault key =>
        obtain ⟨-, hsteady, rfl⟩ := hdue
        exact .inl ⟨hsteady, .inr ⟨fault, rfl⟩⟩
      | number fault => exact .inr ⟨hdue.2, fault, rfl⟩
      | _ => exact hdue.elim
  · obtain ⟨r, store, calls⟩ := s
    obtain ⟨calls', hrun⟩ := leaves_decode hd hdict hfresh calls
    have hdue := Field.due_firstFailure? store.heap dict hd.2
    cases hfailure : Field.firstFailure? store.heap dict d.fields with
    | none =>
      rw [hfailure] at hdue hrun
      exact .inl ⟨hdue.2, .inl ⟨_, hrun⟩⟩
    | some failure =>
      rw [hfailure] at hdue hrun
      cases failure with
      | decode fault blame =>
        obtain ⟨-, hsteady, key, rfl, hkey⟩ := hdue
        exact .inl ⟨hsteady, .inr ⟨fault, key, _, hrun, hkey⟩⟩
      | number fault => exact .inr ⟨hdue.2, fault, _, hrun⟩
      | _ => exact hdue.elim

/-- A descriptor of a weather station: its number and, in a record of its own, the speed of the
wind. -/
def station : Descriptor where
  fields :=
    [.scalar ⟨"number", "number", none, true, 0⟩ .uint64 (.int 0),
      .nested ⟨"wind", "wind", some "has_wind", false, 0⟩
        [.scalar ⟨"speed", "speed", none, true, 0⟩ .double (.int 0)]]
  nodup_keys := by decide
  distinctKeys := by decide

/-- The dictionary of a weather station with an infinite wind, spelled with a dotless i. -/
def stationHeap : Heap where
  objects :=
    #[⟨1, .dict ((Dict.empty.add "number" 1).add "wind" 2)⟩, ⟨1, .string "7"⟩,
      ⟨1, .dict (Dict.empty.add "speed" 3)⟩, ⟨1, .string " +\u0131nf"⟩]
  live := 4

/-- An infinite wind that is spelled with a dotless i is not reported as a fault of the data. -/
theorem decode_reports_station :
    station.Regular ∧ stationHeap.kind 0 = .dict ∧
    (∃ fault, Scalar.decode .double stationHeap 3 = .error (.number fault)) ∧
    ∃ fault s', station.decode 0 true ⟨.null, ⟨stationHeap, #[]⟩, []⟩ =
      .error (.number fault) s' := by
  have hd : station.Regular := ⟨by decide, trivial, ⟨by decide, trivial, trivial⟩, trivial⟩
  have hdict : stationHeap.kind 0 = .dict := by decide
  have hspeed : ScalarType.StumblesAt .double stationHeap 3 :=
    ⟨" +\u0131nf", rfl, .inl (by decide), .char '\u0131', by decide, .inr rfl⟩
  have hentry : stationHeap.entry? (some 0) "number" = some 1 := rfl
  have hnumber : Scalar.decode .uint64 stationHeap 1 = .ok (.int 7) := rfl
  have hfirst : Field.FirstStumbles stationHeap 0 station.fields :=
    .inr ⟨(Field.accepts_of_some hentry).2 ⟨_, hnumber⟩,
      .inl ⟨2, rfl, by decide, .inl ⟨3, rfl, hspeed⟩⟩⟩
  obtain ⟨hscalar, hrecord⟩ :=
    decode_reports (s := ⟨.null, ⟨stationHeap, #[]⟩, []⟩) hd hdict (.inl rfl)
  exact ⟨hd, hdict, ((hscalar .double stationHeap 3).resolve_left fun h => h.1 hspeed).2,
    (hrecord.resolve_left fun h => h.1 hfirst).2⟩

end Descriptor

end PropertyList

import Mathlib.Data.List.Basic
import PropertyList.Proofs.Outcome
import PropertyList.Record.Initial

/-!
# Work on the attributes of records

A record is worked on attribute by attribute. An operation *turns* one record into another if it
succeeds and leaves the store as it is, whatever calls have been made before. More generally it
*leaves* a record behind, with the failure that it ends in or with none. The entries that a slot has
in a record are those of its tracker, if there is one, and of its name.

## Main definitions

* `SessionM.Turns`, `SessionM.TurnsIf`, `SessionM.Leaves`, `SessionM.Reads`
* `Slot.names`, `Slot.entries`

## Main results

* `SessionM.Turns.seq_leaves`, `SessionM.Leaves.within`, `SessionM.Leaves.tryCatch`
* `Slot.turns_setAttribute`, `Slot.leaves_within`, `Slot.turns_mark`
-/

namespace PropertyList

/-! ### Entries -/

section setEntry

variable {name : String} {value old : Value} {pre post : List (String × Value)}

/-- A new name goes to the end. -/
theorem setEntry_of_notMem (hname : name ∉ pre.map Prod.fst) (value : Value) :
    setEntry name value pre = pre ++ [(name, value)] := by
  induction pre with
  | nil => rfl
  | cons entry pre ih =>
    rw [List.map_cons, List.mem_cons, not_or] at hname
    rw [setEntry, if_neg (Ne.symm hname.1), ih hname.2, List.cons_append]

/-- A name that is there gets another value. -/
theorem setEntry_append_cons (hname : name ∉ pre.map Prod.fst) :
    setEntry name value (pre ++ (name, old) :: post) = pre ++ (name, value) :: post := by
  induction pre with
  | nil => rw [List.nil_append, setEntry, if_pos rfl, List.nil_append]
  | cons entry pre ih =>
    rw [List.map_cons, List.mem_cons, not_or] at hname
    rw [List.cons_append, setEntry, if_neg (Ne.symm hname.1), ih hname.2, List.cons_append]

theorem lookup_append_cons (hname : name ∉ pre.map Prod.fst) :
    (pre ++ (name, value) :: post).lookup name = some value := by
  induction pre with
  | nil => rw [List.nil_append, List.lookup_cons_self]
  | cons entry pre ih =>
    rw [List.map_cons, List.mem_cons, not_or] at hname
    rw [List.cons_append, List.lookup_cons, beq_false_of_ne hname.1]
    exact ih hname.2

/-- Under the name there is the new value, and under the others what was there. -/
theorem lookup_setEntry (name : String) (value : Value) (entries : List (String × Value))
    (n : String) :
    (setEntry name value entries).lookup n = if n = name then some value else entries.lookup n := by
  induction entries with
  | nil => grind [setEntry]
  | cons entry entries ih => grind [setEntry]

/-- Putting the value under a name that is there already changes nothing. -/
theorem setEntry_eq_self {entries : List (String × Value)} (h : entries.lookup name = some value) :
    setEntry name value entries = entries := by
  fun_induction setEntry name value entries with
  | case1 => cases h
  | case2 v entries =>
    rw [List.lookup_cons_self] at h
    rw [Option.some.inj h]
  | case3 m v entries hm ih =>
    rw [List.lookup_cons, beq_false_of_ne (Ne.symm hm)] at h
    rw [ih h]

end setEntry

/-- Nothing is looked up under a name that is not there. -/
theorem lookup_of_notMem {α β : Type} [BEq α] [LawfulBEq α] {l : List (α × β)} {a : α}
    (ha : a ∉ l.map Prod.fst) : l.lookup a = none :=
  List.lookup_eq_none_iff.2 fun _ he => bne_iff_ne.2 fun h => ha (h ▸ List.mem_map_of_mem he)

/-! ### Operations -/

namespace SessionM

variable {α : Type} {P : Prop} {x y : SessionM Unit} {store : Store} {r r₁ r₂ : Value}
  {failure : Failure} {failure? : Option Failure}

/-- An operation succeeds on a record, with another as the result, and leaves the store as it is. -/
def Turns (x : SessionM Unit) (store : Store) (r r' : Value) : Prop :=
  ∀ calls, ∃ calls', x ⟨r, store, calls⟩ = .ok () ⟨r', store, calls'⟩

/-- An operation fails on a record. -/
def Fails (x : SessionM α) (store : Store) (r : Value) : Prop :=
  ∀ calls, ∃ failure s, x ⟨r, store, calls⟩ = .error failure s

/-- An operation succeeds under a condition, with another record as the result, and fails without
it. -/
structure TurnsIf (P : Prop) (x : SessionM Unit) (store : Store) (r r' : Value) : Prop where
  turns : P → Turns x store r r'
  fails : ¬ P → Fails x store r

/-- An operation ends in a failure, or in none, and leaves another record and the same store. -/
def Leaves (x : SessionM Unit) (store : Store) (r : Value) (failure? : Option Failure)
    (r' : Value) : Prop :=
  ∀ calls, ∃ calls', x ⟨r, store, calls⟩ = match failure? with
    | none => .ok () ⟨r', store, calls'⟩
    | some failure => .error failure ⟨r', store, calls'⟩

theorem Turns.leaves (hx : Turns x store r r₁) : Leaves x store r none r₁ :=
  hx

theorem Leaves.turns (hx : Leaves x store r none r₁) : Turns x store r r₁ :=
  hx

/-- An operation that ends in no failure under a condition only succeeds if the condition holds. -/
theorem Leaves.turnsIf (hx : Leaves x store r failure? r₁) (hP : P ↔ failure? = none)
    (hr : P → r₁ = r₂) : TurnsIf P x store r r₂ where
  turns h := by
    rw [hP.1 h, hr h] at hx
    exact hx
  fails h calls := by
    cases failure? with
    | none => exact absurd (hP.2 rfl) h
    | some failure =>
      obtain ⟨calls', hx⟩ := hx calls
      exact ⟨failure, _, hx⟩

/-- An operation that succeeds under a condition and fails without it succeeds exactly if the
condition holds. -/
theorem TurnsIf.exists_ok_iff (hx : TurnsIf P x store r r₁) (calls : List Call) :
    (∃ s, x ⟨r, store, calls⟩ = .ok () s) ↔ P := by
  constructor
  · rintro ⟨s, hs⟩
    by_contra hP
    obtain ⟨failure, s', hfail⟩ := hx.fails hP calls
    rw [hs] at hfail
    cases hfail
  · intro hP
    obtain ⟨calls', hs⟩ := hx.turns hP calls
    exact ⟨_, hs⟩

/-- What follows on success goes on with the record that has been left. -/
theorem Turns.seq_leaves (hx : Turns x store r r₁) (hy : Leaves y store r₁ failure? r₂) :
    Leaves (x >>= fun _ => y) store r failure? r₂ := by
  intro calls
  obtain ⟨calls₁, hx⟩ := hx calls
  obtain ⟨calls₂, hy⟩ := hy calls₁
  exact ⟨calls₂, by simpa only [bind, EStateM.bind, hx] using hy⟩

theorem Turns.seq (hx : Turns x store r r₁) (hy : Turns y store r₁ r₂) :
    Turns (x >>= fun _ => y) store r r₂ :=
  hx.seq_leaves hy.leaves

/-- What follows on a failure is passed over. -/
theorem Leaves.seq_of_some (hx : Leaves x store r (some failure) r₁) (y : Unit → SessionM Unit) :
    Leaves (x >>= y) store r (some failure) r₁ := by
  intro calls
  obtain ⟨calls₁, hx⟩ := hx calls
  exact ⟨calls₁, by simp only [bind, EStateM.bind, hx]⟩

/-- An operation gives a value and leaves the record and the store as they are. -/
def Reads (x : SessionM α) (store : Store) (r : Value) (a : α) : Prop :=
  ∀ calls, x ⟨r, store, calls⟩ = .ok a ⟨r, store, calls⟩

theorem Reads.leaves {x : SessionM α} {y : α → SessionM Unit} {a : α} (hx : Reads x store r a)
    (hy : Leaves (y a) store r failure? r₁) : Leaves (x >>= y) store r failure? r₁ := by
  intro calls
  obtain ⟨calls', hy⟩ := hy calls
  exact ⟨calls', by simpa only [bind, EStateM.bind, hx calls] using hy⟩

theorem Reads.turns {x : SessionM α} {y : α → SessionM Unit} {a : α} (hx : Reads x store r a)
    (hy : Turns (y a) store r r₁) : Turns (x >>= y) store r r₁ :=
  hx.leaves hy.leaves

theorem reads_heap (store : Store) (r : Value) : Reads heap store r store.heap :=
  fun _ => rfl

theorem reads_valueOrNull (name : String) (store : Store) (r : Value) :
    Reads (valueOrNull name) store r (r.attributeOrNull name) :=
  fun _ => rfl

theorem reads_valueOf {name : String} {value : Value} (store : Store)
    (hvalue : r.attribute? name = some value) : Reads (valueOf name) store r value := by
  intro calls
  have hget : (get : SessionM Session) ⟨r, store, calls⟩ =
      .ok ⟨r, store, calls⟩ ⟨r, store, calls⟩ :=
    rfl
  simp only [valueOf, bind, EStateM.bind, hget, hvalue]
  rfl

theorem valueOf_of_none {name : String} {s : Session} (hvalue : s.record.attribute? name = none) :
    valueOf name s = .error .missingAttribute s := by
  have hget : (get : SessionM Session) s = .ok s s := rfl
  simp only [valueOf, bind, EStateM.bind, hget, hvalue]
  rfl

theorem reads_ofExcept {result : Except Failure α} {a : α} (hresult : result = .ok a)
    (store : Store) (r : Value) : Reads (ofExcept result : SessionM α) store r a := by
  rw [hresult]
  exact fun _ => rfl

theorem turns_pure (store : Store) (r : Value) : Turns (pure ()) store r r :=
  fun calls => ⟨calls, rfl⟩

theorem leaves_throw (failure : Failure) (store : Store) (r : Value) :
    Leaves (throw failure) store r (some failure) r :=
  fun calls => ⟨calls, rfl⟩

theorem turns_setAttribute (name : String) (value : Value) (store : Store)
    (attributes : List (String × Value)) :
    Turns (setAttribute name value) store (.record attributes)
      (.record (setEntry name value attributes)) :=
  fun calls => ⟨calls, rfl⟩

/-- Work on the value of an attribute leaves another value in the attribute. -/
theorem Leaves.within {value value' : Value} (hx : Leaves x store value failure? value')
    (name : String) (attributes : List (String × Value)) :
    Leaves (within name value x) store (.record attributes) failure?
      (.record (setEntry name value' attributes)) := by
  intro calls
  obtain ⟨calls', hx⟩ := hx []
  refine ⟨calls ++ [.within name calls'], ?_⟩
  cases failure? with
  | none => simp only [SessionM.within, hx]; rfl
  | some failure => simp only [SessionM.within, hx]; rfl

theorem Turns.tryCatch (hx : Turns x store r r₁) (handler : Failure → SessionM Unit) :
    Turns (tryCatch x handler) store r r₁ := by
  intro calls
  obtain ⟨calls', hx⟩ := hx calls
  exact ⟨calls', tryCatch_of_ok hx handler⟩

/-- A failure is dealt with where the record was left. -/
theorem Leaves.tryCatch (hx : Leaves x store r (some failure) r₁)
    {handler : Failure → SessionM Unit} (hhandler : Leaves (handler failure) store r₁ failure? r₂) :
    Leaves (tryCatch x handler) store r failure? r₂ := by
  intro calls
  obtain ⟨calls₁, hx⟩ := hx calls
  obtain ⟨calls₂, hhandler⟩ := hhandler calls₁
  exact ⟨calls₂, (tryCatch_of_error hx handler).trans hhandler⟩

end SessionM

/-! ### Slots -/

namespace Slot

variable {slot : Slot} {present : Bool} {value : Value} {pre post : List (String × Value)}

/-- The attributes of a slot: the one that tracks the key, if there is one, and the one with the
value. -/
def names (slot : Slot) : List String :=
  slot.tracker?.toList ++ [slot.name]

/-- The attribute of the value does not track the key. -/
theorem tracker?_ne_name (slot : Slot) : slot.tracker? ≠ some slot.name :=
  fun h => absurd (Option.filter_eq_some_iff.1 h).2 (by simp)

theorem name_mem_names (slot : Slot) : slot.name ∈ slot.names :=
  List.mem_append_right _ (List.mem_singleton_self _)

theorem mem_names_of_tracker? {slot : Slot} {tracker : String}
    (htracker : slot.tracker? = some tracker) : tracker ∈ slot.names := by
  refine List.mem_append_left _ ?_
  rw [htracker]
  exact List.mem_singleton_self _

/-- The entry of the attribute that tracks the key. -/
def marks (slot : Slot) (present : Bool) : List (String × Value) :=
  slot.tracker?.toList.map fun tracker => (tracker, Value.bool present)

/-- The entries of a slot in a record. -/
def entries (slot : Slot) (present : Bool) (value : Value) : List (String × Value) :=
  slot.marks present ++ [(slot.name, value)]

theorem map_fst_marks (slot : Slot) (present : Bool) :
    (slot.marks present).map Prod.fst = slot.tracker?.toList := by
  rw [marks, List.map_map]
  exact List.map_id _

theorem map_fst_entries (slot : Slot) (present : Bool) (value : Value) :
    (slot.entries present value).map Prod.fst = slot.names := by
  rw [entries, List.map_append, map_fst_marks]
  rfl

theorem append_entries (slot : Slot) (present : Bool) (value : Value)
    (pre post : List (String × Value)) :
    pre ++ slot.entries present value ++ post =
      (pre ++ slot.marks present) ++ (slot.name, value) :: post := by
  rw [entries, ← List.append_assoc, List.append_assoc, List.singleton_append]

/-- The attribute of the value is not the one that tracks the key. -/
theorem name_notMem_marks (hpre : slot.names.Disjoint (pre.map Prod.fst)) (present : Bool) :
    slot.name ∉ (pre ++ slot.marks present).map Prod.fst := by
  rw [List.map_append, map_fst_marks, List.mem_append, not_or]
  refine ⟨hpre (List.mem_append_right _ (List.mem_singleton_self _)), fun hmem => ?_⟩
  exact slot.tracker?_ne_name (Option.mem_toList.1 hmem)

theorem tracker_notMem (hpre : slot.names.Disjoint (pre.map Prod.fst)) {tracker : String}
    (htracker : slot.tracker? = some tracker) : tracker ∉ pre.map Prod.fst := by
  refine hpre (List.mem_append_left _ ?_)
  rw [htracker]
  exact List.mem_singleton_self _

theorem attribute?_name (hpre : slot.names.Disjoint (pre.map Prod.fst)) :
    (Value.record (pre ++ slot.entries present value ++ post)).attribute? slot.name =
      some value := by
  rw [Value.attribute?, append_entries, lookup_append_cons (name_notMem_marks hpre present)]

theorem attribute?_tracker (hpre : slot.names.Disjoint (pre.map Prod.fst)) {tracker : String}
    (htracker : slot.tracker? = some tracker) :
    (Value.record (pre ++ slot.entries present value ++ post)).attribute? tracker =
      some (.bool present) := by
  rw [Value.attribute?, entries, marks, htracker, List.append_assoc]
  exact lookup_append_cons (tracker_notMem hpre htracker)

/-- The attribute of the value gets another one. -/
theorem turns_setAttribute (hpre : slot.names.Disjoint (pre.map Prod.fst)) (value' : Value)
    (store : Store) :
    SessionM.Turns (SessionM.setAttribute slot.name value') store
      (.record (pre ++ slot.entries present value ++ post))
      (.record (pre ++ slot.entries present value' ++ post)) := by
  have hturns := SessionM.turns_setAttribute slot.name value' store
    (pre ++ slot.entries present value ++ post)
  rwa [append_entries, setEntry_append_cons (name_notMem_marks hpre present), ← append_entries,
    ← append_entries] at hturns

/-- Work on the value of the attribute leaves another value in it. -/
theorem leaves_within (hpre : slot.names.Disjoint (pre.map Prod.fst)) {x : SessionM Unit}
    {store : Store} {value value' old : Value} {failure? : Option Failure}
    (hx : SessionM.Leaves x store value failure? value') :
    SessionM.Leaves (SessionM.within slot.name value x) store
      (.record (pre ++ slot.entries present old ++ post)) failure?
      (.record (pre ++ slot.entries present value' ++ post)) := by
  have hwithin := hx.within slot.name (pre ++ slot.entries present old ++ post)
  rwa [append_entries, setEntry_append_cons (name_notMem_marks hpre present), ← append_entries,
    ← append_entries] at hwithin

/-- Marking the key sets the attribute that tracks it. -/
theorem turns_mark (hpre : slot.names.Disjoint (pre.map Prod.fst)) (present' : Bool)
    (store : Store) :
    SessionM.Turns (Field.mark slot present') store
      (.record (pre ++ slot.entries present value ++ post))
      (.record (pre ++ slot.entries present' value ++ post)) := by
  rw [Field.mark, entries, entries, marks, marks]
  cases htracker : slot.tracker? with
  | none => exact SessionM.turns_pure store _
  | some tracker =>
    have hturns := SessionM.turns_setAttribute tracker (.bool present') store
      (pre ++ (tracker, .bool present) :: ((slot.name, value) :: post))
    rw [setEntry_append_cons (tracker_notMem hpre htracker)] at hturns
    simpa using hturns

/-- Marking the key for the first time makes an attribute that tracks it. -/
theorem turns_mark_new (hpre : slot.names.Disjoint (pre.map Prod.fst)) (present : Bool)
    (store : Store) :
    SessionM.Turns (Field.mark slot present) store (.record pre)
      (.record (pre ++ slot.marks present)) := by
  rw [Field.mark, marks]
  cases htracker : slot.tracker? with
  | none =>
    rw [Option.toList_none, List.map_nil, List.append_nil]
    exact SessionM.turns_pure store _
  | some tracker =>
    have hturns := SessionM.turns_setAttribute tracker (.bool present) store pre
    rwa [setEntry_of_notMem (tracker_notMem hpre htracker)] at hturns

/-- Giving the attribute of the value its first value makes it. -/
theorem turns_setAttribute_new (hpre : slot.names.Disjoint (pre.map Prod.fst)) (value : Value)
    (store : Store) :
    SessionM.Turns (SessionM.setAttribute slot.name value) store
      (.record (pre ++ slot.marks present)) (.record (pre ++ slot.entries present value)) := by
  have hturns := SessionM.turns_setAttribute slot.name value store (pre ++ slot.marks present)
  rwa [setEntry_of_notMem (name_notMem_marks hpre present), List.append_assoc] at hturns

end Slot

end PropertyList

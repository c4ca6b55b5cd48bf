import PropertyList.Proofs.Record.Encoding
import PropertyList.Proofs.Scalar.Canonical

/-!
# Enumerations and back

A number is written as the name of its first entry, and a name is read as the number of its first
entry. A field takes any table that has an entry at all, so that names may be repeated as well as
numbers. A number then comes back from its name only where the first entry of the one is the first
entry of the other: such an entry *leads*.

## Main definitions

* `EnumTable.Leads`
* `EnumTable.Recodes`, reading a string and writing what has been read

## Main results

* `EnumTable.leads_iff`
* `Declaration.enum_back_iff`
-/

namespace PropertyList

namespace EnumTable

variable {table : EnumTable} {name : Text} {n : Int}

/-- An entry leads if no earlier entry has its name or its number. -/
def Leads (table : EnumTable) (name : Text) (n : Int) : Prop :=
  ∃ earlier later, table = earlier ++ (name, n) :: later ∧ name ∉ earlier.map Prod.fst ∧
    n ∉ earlier.map Prod.snd

theorem leads_cons {entry : Text × Int} :
    Leads (entry :: table) name n ↔
      entry = (name, n) ∨ (entry.1 ≠ name ∧ entry.2 ≠ n ∧ Leads table name n) := by
  constructor
  · rintro ⟨earlier, later, htable, hname, hn⟩
    cases earlier with
    | nil => exact .inl (List.cons.inj htable).1
    | cons first earlier =>
      obtain ⟨rfl, rfl⟩ := List.cons.inj htable
      rw [List.map_cons, List.mem_cons, not_or] at hname hn
      exact .inr ⟨Ne.symm hname.1, Ne.symm hn.1, earlier, later, rfl, hname.2, hn.2⟩
  · rintro (rfl | ⟨hname, hn, earlier, later, rfl, hname', hn'⟩)
    · exact ⟨[], table, rfl, List.not_mem_nil, List.not_mem_nil⟩
    · refine ⟨entry :: earlier, later, rfl, ?_, ?_⟩ <;> rw [List.map_cons, List.mem_cons, not_or]
      · exact ⟨hname.symm, hname'⟩
      · exact ⟨hn.symm, hn'⟩

/-- An entry leads if it is the first one with its name and the first one with its number. -/
theorem leads_iff :
    table.Leads name n ↔ table.lookup name = some n ∧
      table.find? (fun entry => entry.2 = n) = some (name, n) := by
  induction table with
  | nil => exact iff_of_false (fun ⟨_, _, h, _⟩ => List.append_ne_nil_of_right_ne_nil _
      (List.cons_ne_nil _ _) h.symm) fun h => nomatch h.1
  | cons entry table ih =>
    obtain ⟨name', n'⟩ := entry
    rw [leads_cons, ih, List.lookup_cons, List.find?_cons]
    by_cases hname : name = name'
    · subst hname
      by_cases hn : n' = n <;> simp [hn]
    · have hbeq : (name == name') = false := beq_eq_false_iff_ne.2 hname
      by_cases hn : n' = n <;> simp [Ne.symm hname, hn, hbeq, and_comm]

/-- Where the first entry with a number has a name, the number belongs to a leading entry if the
name is read as it. -/
theorem exists_leads_iff (hfind : table.find? (fun entry => entry.2 = n) = some (name, n)) :
    (∃ name', table.Leads name' n) ↔ table.lookup name = some n := by
  constructor
  · rintro ⟨name', hleads⟩
    obtain ⟨hlookup, hfind'⟩ := leads_iff.1 hleads
    rw [hfind] at hfind'
    cases hfind'
    exact hlookup
  · exact fun hlookup => ⟨name, leads_iff.2 ⟨hlookup, hfind⟩⟩

/-- Where no name is repeated, every number belongs to a leading entry. -/
theorem exists_leads (hnames : (table.map Prod.fst).Nodup) (hn : n ∈ table.map Prod.snd) :
    ∃ name, table.Leads name n := by
  obtain ⟨name, hfind⟩ := Scalar.exists_find?_eq_some hn
  exact ⟨name, leads_iff.2 ⟨Dict.lookup_of_mem hnames (List.mem_of_find?_eq_some hfind), hfind⟩⟩

/-! ### Strings for numbers -/

/-- The string `id` is read as the number `n`, for which the string `id'` with the text `t` is
then made. -/
structure Recodes (table : EnumTable) (s : Store) (id : ObjectId) (n : Int) (s' : Store)
    (id' : ObjectId) (t : Text) : Prop where
  decode_eq : Scalar.decode (.enum table) s.heap id = .ok (.int n)
  encode_eq : Field.encodeScalar (.enum table) (.int n) s = .ok id' s'
  string?_eq : s'.heap.string? id' = some t

/-- A number is written as the first name that it has. -/
theorem exists_encodeScalar (hn : n ∈ table.map Prod.snd) (s : Store) :
    ∃ name s' id, table.find? (fun entry => entry.2 = n) = some (name, n) ∧
      Field.encodeScalar (.enum table) (.int n) s = .ok id s' ∧
        s'.heap.string? id = some name := by
  obtain ⟨name, hfind⟩ := Scalar.exists_find?_eq_some hn
  have hconforms : (ScalarType.enum table).Conforms (.int n) := hn
  have hwrite : Scalar.write (.enum table) s (.int n) = .ok name := by
    rw [Scalar.write_eq_canonical hconforms, ScalarType.canonical, hfind]
    rfl
  refine ⟨name, _, _, hfind, Field.encodeScalar_of_write hwrite, ?_⟩
  rw [Heap.string?, Heap.object_insert_self]

/-- A name is read as the number of its first entry. -/
theorem decode_eq_of_lookup {h : Heap} {id : ObjectId} (hstring : h.string? id = some name)
    (hlookup : table.lookup name = some n) :
    Scalar.decode (.enum table) h id = .ok (.int n) := by
  rw [Scalar.decode_of_string? hstring]
  exact congrArg (Except.map Value.int) (Scalar.value_eq_ok_iff.2 hlookup)

theorem exists_lookup (hname : name ∈ table.map Prod.fst) :
    ∃ n, table.lookup name = some n ∧ n ∈ table.map Prod.snd := by
  obtain ⟨n, hn⟩ := Scalar.exists_value_eq_ok hname
  have hlookup := Scalar.value_eq_ok_iff.1 hn
  exact ⟨n, hlookup, List.mem_map_of_mem (Scalar.mem_of_lookup_eq_some hlookup)⟩

/-- A name is read as a number and written again, possibly as another name. -/
theorem exists_recodes {s : Store} {id : ObjectId} (hname : name ∈ table.map Prod.fst)
    (hstring : s.heap.string? id = some name) :
    ∃ n t s' id', table.lookup name = some n ∧
      table.find? (fun entry => entry.2 = n) = some (t, n) ∧ table.Recodes s id n s' id' t := by
  obtain ⟨n, hlookup, hn⟩ := exists_lookup hname
  obtain ⟨t, s', id', hfind, hencode, hstring'⟩ := exists_encodeScalar hn s
  exact ⟨n, t, s', id', hlookup, hfind, decode_eq_of_lookup hstring hlookup, hencode, hstring'⟩

end EnumTable

open EnumTable

/-- **When an enumeration survives encoding.** A field takes every table that has an entry. Each of
its numbers is encoded, and what it is encoded as is decoded, namely to the same number if and only
if the number belongs to a leading entry; where no name is repeated, all numbers do. Each of the
names can be decoded and encoded twice over, and the second time changes nothing if and only if a
leading entry has the name that is there after the first. -/
theorem Declaration.enum_back_iff (d : Declaration) (htype : d.type = .enum) (s : Store) :
    (∀ f, d.field = .ok f ↔
      d.slot.key ≠ [] ∧ d.table ≠ [] ∧ f = .scalar d.slot (.enum d.table) d.default) ∧
    (∀ n ∈ d.table.map Prod.snd, ∃ s' id m,
      Field.encodeScalar (.enum d.table) (.int n) s = .ok id s' ∧
        Scalar.decode (.enum d.table) s'.heap id = .ok (.int m) ∧
          (m = n ↔ ∃ name, d.table.Leads name n)) ∧
    ((d.table.map Prod.fst).Nodup →
      ∀ n ∈ d.table.map Prod.snd, ∃ name, d.table.Leads name n) ∧
    ∀ name ∈ d.table.map Prod.fst, ∀ id, s.heap.string? id = some name →
      ∃ n₁ s₁ id₁ t₁ n₂ s₂ id₂ t₂, d.table.Recodes s id n₁ s₁ id₁ t₁ ∧
        d.table.Recodes s₁ id₁ n₂ s₂ id₂ t₂ ∧ (t₂ = t₁ ↔ ∃ n, d.table.Leads t₁ n) := by
  refine ⟨fun f => ?_, fun n hn => ?_, fun hnames n hn => exists_leads hnames hn,
    fun name hname id hstring => ?_⟩
  · simp only [field, htype, List.isEmpty_iff]
    split_ifs with hkey htable
    · exact iff_of_false nofun fun h => h.1 hkey
    · exact iff_of_false nofun fun h => h.2.1 htable
    · rw [Except.ok.injEq, eq_comm]
      exact ⟨fun h => ⟨hkey, htable, h⟩, fun h => h.2.2⟩
  · obtain ⟨name, s', id, hfind, hencode, hstring⟩ := exists_encodeScalar hn s
    obtain ⟨m, hlookup, -⟩ := exists_lookup
      (List.mem_map_of_mem (List.mem_of_find?_eq_some hfind))
    refine ⟨s', id, m, hencode, decode_eq_of_lookup hstring hlookup, ?_⟩
    rw [exists_leads_iff hfind, hlookup, Option.some.injEq]
  · obtain ⟨n₁, t₁, s₁, id₁, -, hfind₁, hrecodes₁⟩ := exists_recodes hname hstring
    obtain ⟨n₂, t₂, s₂, id₂, hlookup₂, hfind₂, hrecodes₂⟩ := exists_recodes
      (List.mem_map_of_mem (List.mem_of_find?_eq_some hfind₁)) hrecodes₁.string?_eq
    refine ⟨n₁, s₁, id₁, t₁, n₂, s₂, id₂, t₂, hrecodes₁, hrecodes₂, fun heq => ?_, ?_⟩
    · subst heq
      exact ⟨n₂, leads_iff.2 ⟨hlookup₂, hfind₂⟩⟩
    · rintro ⟨n, hleads⟩
      obtain ⟨hlookup, hfind⟩ := leads_iff.1 hleads
      rw [hlookup₂] at hlookup
      cases hlookup
      rw [hfind₂] at hfind
      cases hfind
      rfl

/-- In a table with one name for two numbers the second number is encoded as the name and comes back
as the first one. -/
theorem Declaration.not_enum_back_repeated_name :
    ∃ (d : Declaration) (f : Field) (s : Store) (id : ObjectId) (m : Int),
      d.table = ([("a", 1), ("a", 2)] : EnumTable) ∧ d.field = .ok f ∧
        Field.encodeScalar (.enum d.table) (.int 2) .empty = .ok id s ∧
          Scalar.decode (.enum d.table) s.heap id = .ok (.int m) ∧ m ≠ 2 := by
  let d : Declaration := ⟨.enum, ⟨"e", "e", none, false, 0⟩, .int 0, [("a", 1), ("a", 2)], none,
    none, none⟩
  obtain ⟨hfield, hback, -, -⟩ := enum_back_iff d rfl .empty
  obtain ⟨s, id, m, hencode, hdecode, hm⟩ := hback 2 (by decide)
  refine ⟨d, _, s, id, m, rfl, (hfield _).2 ⟨by decide, by decide, rfl⟩, hencode, hdecode, ?_⟩
  rw [ne_eq, hm]
  rintro ⟨name, hleads⟩
  obtain ⟨hlookup, hfind⟩ := leads_iff.1 hleads
  cases hfind
  exact absurd hlookup (by decide)

end PropertyList

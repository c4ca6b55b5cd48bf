import PropertyList.Proofs.Record.Encoding

/-!
# The entries of a record in a store

Which entries a record has may depend on the store, since an object or a list may count as true in
one store and not in another. While a record is encoded the store only grows, so that everything
that is there to begin with counts as it did. What encoding comes to can therefore be computed from
the store in which it starts, if the objects that the record refers to are there.

## Main definitions

* `Store.Extends`, `Value.Within`
* `Field.tree?`, `Field.entries?`, what comes of encoding

## Main results

* `Value.isTrue_of_extends`, `Scalar.write_eq_ok_iff`
* `Field.allWritten_of_entries?`
* `Descriptor.ends_encode_entries`
-/

namespace PropertyList

/-! ### Stores that grow -/

/-- A store has all that another one has, and possibly more objects. -/
structure Store.Extends (s s' : Store) : Prop where
  lists_eq : s'.lists = s.lists
  size_le : s.heap.objects.size ≤ s'.heap.objects.size
  object_eq : ∀ i < s.heap.objects.size, s'.heap.object i = s.heap.object i

theorem Store.Extends.refl (s : Store) : s.Extends s :=
  ⟨rfl, Nat.le_refl _, fun _ _ => rfl⟩

/-- What is held has been added to what was there. -/
theorem Store.Extends.of_holds {s s' : Store} {base : Heap} {ids : List ObjectId} {ts : List Tree}
    {feet : List ObjectId} (hbase : s.Extends ⟨base, s.lists⟩) (hlists : s'.lists = s.lists)
    (hh : base.Holds s'.heap ids ts feet) : s.Extends s' where
  lists_eq := hlists
  size_le := Nat.le_trans hbase.size_le hh.size_le
  object_eq i hi := (hh.object_eq i (Nat.lt_of_lt_of_le hi hbase.size_le)).trans
    (hbase.object_eq i hi)

/-- What is owned stays owned. -/
theorem Store.Extends.owns {s s' : Store} (hs : s.Extends s') {id : ObjectId} {t : Tree}
    {foot : List ObjectId} (ho : s.heap.Owns id t foot) : s'.heap.Owns id t foot :=
  ho.frame fun i hi =>
    hs.object_eq i (Heap.lt_size_of_refs (by rw [ho.refs_eq_one i hi]; exact Nat.one_pos))

namespace Value

mutual

/-- Whether the objects that a value refers to, itself or in a record, are there. -/
def Within (h : Heap) : Value → Prop
  | object id => id < h.objects.size
  | record attributes => AllWithin h attributes
  | null | bool _ | int _ | double _ | text _ | list _ => True

/-- Whether the objects that the attributes of a record refer to are there. -/
def AllWithin (h : Heap) : List (String × Value) → Prop
  | [] => True
  | (_, v) :: attributes => v.Within h ∧ AllWithin h attributes

end

variable {h : Heap} {s s' : Store} {v record : Value}

theorem allWithin_iff {attributes : List (String × Value)} :
    AllWithin h attributes ↔ ∀ entry ∈ attributes, entry.2.Within h := by
  induction attributes with
  | nil => simp [AllWithin]
  | cons entry attributes ih => rw [AllWithin, ih, List.forall_mem_cons]

theorem Within.attribute (hrecord : record.Within h) {name : String}
    (hv : record.attribute? name = some v) : v.Within h := by
  cases record with
  | record attributes =>
    obtain ⟨front, rest, rfl, -⟩ := List.lookup_eq_some_iff.1 hv
    exact allWithin_iff.1 hrecord _ (List.mem_append_right _ List.mem_cons_self)
  | _ => cases hv

/-- In a store that has grown a value counts as it did. -/
theorem isTrue_of_extends (hs : s.Extends s') (hv : v.Within s.heap) :
    v.isTrue s' = v.isTrue s := by
  cases v with
  | list id => rw [isTrue, isTrue, Store.items, Store.items, hs.lists_eq]
  | object id => rw [isTrue, isTrue, hs.object_eq id hv]
  | _ => rfl

end Value

namespace Scalar

variable {s s' : Store} {v : Value} {t : Text}

private theorem bind_eq_ok_iff {ε α β : Type} {x : Except ε α} {f : α → Except ε β} {b : β} :
    (x >>= f) = .ok b ↔ ∃ a, x = .ok a ∧ f a = .ok b := by
  cases x with
  | error e => exact iff_of_false nofun nofun
  | ok a => exact ⟨fun h => ⟨a, rfl, h⟩, fun ⟨_, h, hb⟩ => Except.ok.inj h ▸ hb⟩

/-! The store has a say in failures alone. -/

theorem checkRange_eq_ok_iff (s s' : Store) {type : Text} {low high : Int} :
    checkRange s type low high v = .ok () ↔ checkRange s' type low high v = .ok () := by
  unfold checkRange
  split
  · split_ifs <;> simp
  · simp

theorem writeInteger_eq_ok_iff (s s' : Store) {type : Text} {low high : Int} :
    writeInteger s type low high v = .ok t ↔ writeInteger s' type low high v = .ok t := by
  unfold writeInteger
  rw [bind_eq_ok_iff, bind_eq_ok_iff]
  exact exists_congr fun _ => and_congr_left fun _ => checkRange_eq_ok_iff s s'

theorem writeArgb32_eq_ok_iff (s s' : Store) :
    writeArgb32 s v = .ok t ↔ writeArgb32 s' v = .ok t := by
  unfold writeArgb32
  rw [bind_eq_ok_iff, bind_eq_ok_iff]
  exact exists_congr fun _ => and_congr_left fun _ => checkRange_eq_ok_iff s s'

theorem toDouble_eq_ok_iff (s s' : Store) {x : Double} :
    toDouble s v = .ok x ↔ toDouble s' v = .ok x := by
  cases v with
  | null | list | record | object => exact iff_of_false nofun nofun
  | _ => exact Iff.rfl

theorem name_eq_ok_iff (s s' : Store) {table : EnumTable} :
    table.name s v = .ok t ↔ table.name s' v = .ok t := by
  unfold EnumTable.name
  split
  · exact Iff.rfl
  · exact iff_of_false nofun nofun

theorem writeString_eq_ok_iff (s s' : Store) :
    writeString s v = .ok t ↔ writeString s' v = .ok t := by
  cases v with
  | bool | int | double | list | record | object => exact iff_of_false nofun nofun
  | _ => exact Iff.rfl

/-- What a value is written as depends on the store only as far as the value counts as true. -/
theorem write_eq_ok_iff (htrue : v.isTrue s' = v.isTrue s) {type : ScalarType} :
    write type s' v = .ok t ↔ write type s v = .ok t := by
  cases type with
  | uint64 | int64 => exact writeInteger_eq_ok_iff s' s
  | double =>
    constructor <;> intro hwrite <;> obtain ⟨x, hx, rfl⟩ := exists_of_map_eq_ok hwrite
    · exact congrArg (Except.map Double.toText) ((toDouble_eq_ok_iff s' s).1 hx)
    · exact congrArg (Except.map Double.toText) ((toDouble_eq_ok_iff s' s).2 hx)
  | argb32 => exact writeArgb32_eq_ok_iff s' s
  | bool =>
    rw [write, write, htrue]
    exact name_eq_ok_iff s' s
  | enum table => exact name_eq_ok_iff s' s
  | string => exact writeString_eq_ok_iff s' s
  | charbuf length => exact writeString_eq_ok_iff s' s

end Scalar

/-! ### Entries -/

/-- The entries that a record has for a slot, with `tree?` telling what values are written as: none
if the key is marked as absent, and otherwise one. -/
def Slot.entry? (slot : Slot) (s : Store) (record : Value) (tree? : Value → Option Tree) :
    Option (List (Text × Tree)) :=
  match slot.mark? s record with
  | none => none
  | some false => some []
  | some true => (record.attribute? slot.name).bind fun v => (tree? v).map fun t => [(slot.key, t)]

namespace Slot

variable {slot : Slot} {s : Store} {record : Value} {tree? : Value → Option Tree}

theorem entry?_eq_some_iff {own : List (Text × Tree)} :
    slot.entry? s record tree? = some own ↔
      slot.mark? s record = some false ∧ own = [] ∨ slot.mark? s record = some true ∧
        ∃ v t, record.attribute? slot.name = some v ∧ tree? v = some t ∧
          own = [(slot.key, t)] := by
  unfold entry?
  cases hmark : slot.mark? s record with
  | none => simp
  | some present =>
    cases present with
    | false => simp [eq_comm]
    | true =>
      simp only [Option.bind_eq_some_iff, Option.map_eq_some_iff, Option.some.injEq,
        Bool.true_eq_false, false_and, false_or, true_and]
      constructor
      · rintro ⟨v, hv, t, ht, rfl⟩
        exact ⟨v, t, hv, ht, rfl⟩
      · rintro ⟨v, t, hv, ht, rfl⟩
        exact ⟨v, hv, t, ht, rfl⟩

theorem entry?_eq_none_iff :
    slot.entry? s record tree? = none ↔
      slot.mark? s record = none ∨ slot.mark? s record = some true ∧
        ∀ v, record.attribute? slot.name = some v → tree? v = none := by
  unfold entry?
  cases hmark : slot.mark? s record with
  | none => simp
  | some present => cases present <;> simp [Option.bind_eq_none_iff]

theorem map_fst_sublist_of_entry? {own : List (Text × Tree)}
    (h : slot.entry? s record tree? = some own) : (own.map (·.1)).Sublist [slot.key] := by
  obtain ⟨-, rfl⟩ | ⟨-, v, t, -, -, rfl⟩ := entry?_eq_some_iff.1 h
  · exact List.nil_sublist _
  · exact List.Sublist.refl _

/-- In a store that has grown a mark counts as it did. -/
theorem mark?_of_extends {s' : Store} (hs : s.Extends s') (hrecord : record.Within s.heap) :
    slot.mark? s' record = slot.mark? s record := by
  unfold mark?
  split
  · rfl
  · exact Option.map_congr fun mark hmark =>
      Value.isTrue_of_extends hs (hrecord.attribute hmark)

end Slot

namespace Field

mutual

/-- The tree that the value of a field is written as in a store. -/
def tree? (s : Store) : Field → Value → Option Tree
  | scalar _ type _, v => (Scalar.write type s v).toOption.map .string
  | nested _ fields, v => (entries? s v fields).map .dict
  | array _ _, _ | custom _ _, _ => none

/-- The entries that a record has for fields in a store, with those of the fields one after the
other. -/
def entries? (s : Store) (record : Value) : List Field → Option (List (Text × Tree))
  | [] => some []
  | f :: fields =>
    (f.slot.entry? s record (f.tree? s)).bind fun own =>
      (entries? s record fields).map (own ++ ·)

end

variable {s : Store} {record : Value}

theorem tree?_scalar_eq_some_iff {slot : Slot} {type : ScalarType} {default v : Value} {t : Tree} :
    (scalar slot type default).tree? s v = some t ↔
      ∃ text, Scalar.write type s v = .ok text ∧ t = .string text := by
  rw [tree?]
  cases Scalar.write type s v <;> simp [Except.toOption, eq_comm]

theorem entries?_cons_eq_some_iff {f : Field} {fields : List Field}
    {entries : List (Text × Tree)} :
    entries? s record (f :: fields) = some entries ↔
      ∃ own rest, entries = own ++ rest ∧ f.slot.entry? s record (f.tree? s) = some own ∧
        entries? s record fields = some rest := by
  rw [entries?, Option.bind_eq_some_iff]
  simp only [Option.map_eq_some_iff]
  constructor
  · rintro ⟨own, hown, rest, hrest, rfl⟩
    exact ⟨own, rest, rfl, hown, hrest⟩
  · rintro ⟨own, rest, rfl, hown, hrest⟩
    exact ⟨own, hown, rest, hrest, rfl⟩

theorem entries?_cons_eq_none_iff {f : Field} {fields : List Field} :
    entries? s record (f :: fields) = none ↔
      f.slot.entry? s record (f.tree? s) = none ∨ entries? s record fields = none := by
  rw [entries?]
  cases f.slot.entry? s record (f.tree? s) <;> simp

mutual

/-- What a value is written as in one store it can be written as. -/
theorem writtenAs_of_tree? : (f : Field) → ∀ {v : Value} {t : Tree}, f.tree? s v = some t →
    f.WrittenAs v t
  | scalar _ _ _, _, _, h => by
    obtain ⟨text, hwrite, rfl⟩ := tree?_scalar_eq_some_iff.1 h
    exact ⟨s, text, hwrite, rfl⟩
  | nested _ fields, _, _, h => by
    rw [tree?] at h
    obtain ⟨entries, hentries, rfl⟩ := Option.map_eq_some_iff.1 h
    exact ⟨entries, allWritten_of_entries? fields hentries, rfl⟩
  | array _ _, _, _, h => by
    rw [tree?] at h
    cases h
  | custom _ _, _, _, h => by
    rw [tree?] at h
    cases h

/-- The entries that a record has in one store can be written. -/
theorem allWritten_of_entries? : (fields : List Field) →
    ∀ {record : Value} {entries : List (Text × Tree)}, entries? s record fields = some entries →
      AllWritten record fields entries
  | [], _, _, h => by
    rw [entries?] at h
    exact (Option.some.inj h).symm
  | f :: fields, _, _, h => by
    obtain ⟨own, rest, rfl, hown, hrest⟩ := entries?_cons_eq_some_iff.1 h
    refine ⟨own, rest, rfl, ?_, allWritten_of_entries? fields hrest⟩
    obtain hnone | ⟨hmark, v, t, hv, ht, rfl⟩ := Slot.entry?_eq_some_iff.1 hown
    · exact Slot.adds_of_mark? (.inl hnone)
    · exact Slot.adds_of_mark? (.inr ⟨hmark, v, t, hv, writtenAs_of_tree? f ht, rfl⟩)

end

/-! ### Encoding -/

section Encoding

variable {base : Heap} {s₁ : Store} {dict : ObjectId} {entries : List (Text × Tree)}
  {ids : List ObjectId} {ts : List Tree} {feet : List ObjectId}

/-- Adding the value of a field comes to what it is written as in the store in which encoding the
whole record has started. -/
theorem ends_addEncoded_entry {slot : Slot} {tree? : Value → Option Tree}
    {encoding : Value → StoreM ObjectId} (hs : s.Extends s₁) (hrecord : record.Within s.heap)
    (hkey : slot.key ∉ entries.map (·.1))
    (hh : Heap.Holds base s₁.heap (dict :: ids) (.dict entries :: ts) feet)
    (hencoding : ∀ v, record.attribute? slot.name = some v → Ends (encoding v) s₁
      (fun id s₂ => ∃ t feet', tree? v = some t ∧ s₂.lists = s₁.lists ∧
        Heap.Holds base s₂.heap (id :: dict :: ids) (t :: .dict entries :: ts) feet')
      (fun _ s₂ => tree? v = none ∧ s₂.lists = s₁.lists ∧
        ∃ feet', Heap.Holds base s₂.heap (dict :: ids) (.dict entries :: ts) feet')) :
    Ends (addEncoded slot dict record encoding) s₁
      (fun _ s₂ => ∃ own feet', slot.entry? s record tree? = some own ∧ s₂.lists = s₁.lists ∧
        Heap.Holds base s₂.heap (dict :: ids) (.dict (entries ++ own) :: ts) feet')
      (fun _ s₂ => slot.entry? s record tree? = none ∧ s₂.lists = s₁.lists ∧
        ∃ feet', Heap.Holds base s₂.heap ids ts feet') := by
  refine (ends_addEncoded (fun v t => tree? v = some t) (fun v => tree? v = none) hkey hh
    hencoding).mono ?_ ?_
  · rintro _ s₂ ⟨own, feet', hown, hrest⟩
    rw [Slot.mark?_of_extends hs hrecord] at hown
    exact ⟨own, feet', Slot.entry?_eq_some_iff.2 hown, hrest⟩
  · rintro _ s₂ ⟨hfails, hrest⟩
    rw [Slot.mark?_of_extends hs hrecord] at hfails
    exact ⟨Slot.entry?_eq_none_iff.2 hfails, hrest⟩

/-- A string is made for what a scalar is written as in the store in which encoding the whole
record has started. -/
theorem ends_encodeScalar_tree {slot : Slot} {type : ScalarType} {default v : Value}
    (hs : s.Extends s₁) (hv : v.Within s.heap) (hh : Heap.Holds base s₁.heap ids ts feet) :
    Ends (encodeScalar type v) s₁
      (fun id s₂ => ∃ t feet', (scalar slot type default).tree? s v = some t ∧
        s₂.lists = s₁.lists ∧ Heap.Holds base s₂.heap (id :: ids) (t :: ts) feet')
      (fun _ s₂ => (scalar slot type default).tree? s v = none ∧ s₂.lists = s₁.lists ∧
        ∃ feet', Heap.Holds base s₂.heap ids ts feet') := by
  have htrue := Value.isTrue_of_extends hs hv
  refine (ends_encodeScalar type v hh).mono ?_ ?_
  · rintro id s₂ ⟨text, feet', hwrite, hrest⟩
    exact ⟨.string text, feet',
      tree?_scalar_eq_some_iff.2 ⟨text, (Scalar.write_eq_ok_iff htrue).1 hwrite, rfl⟩, hrest⟩
  · rintro _ s₂ ⟨rfl, hwrite⟩
    refine ⟨Option.eq_none_iff_forall_ne_some.2 fun t ht => ?_, rfl, feet, hh⟩
    obtain ⟨text, htext, -⟩ := tree?_scalar_eq_some_iff.1 ht
    exact hwrite text ((Scalar.write_eq_ok_iff htrue).2 htext)

end Encoding

mutual

/-- Encoding a field comes to what its value is written as in the store in which encoding the whole
record has started. -/
theorem ends_encode_entry {base : Heap} (hbase : s.Extends ⟨base, s.lists⟩) (dict : ObjectId)
    (f : Field) (hplain : f.Every NoCallbacks) (hkeyed : f.Every DistinctKeys) {record : Value}
    (hrecord : record.Within s.heap) {s₁ : Store} (hlists : s₁.lists = s.lists)
    {entries : List (Text × Tree)} {ids : List ObjectId} {ts : List Tree} {feet : List ObjectId}
    (hkey : f.key ∉ entries.map (·.1))
    (hh : Heap.Holds base s₁.heap (dict :: ids) (.dict entries :: ts) feet) :
    Ends (f.encode dict record) s₁
      (fun _ s₂ => ∃ own feet', f.slot.entry? s record (f.tree? s) = some own ∧
        s₂.lists = s₁.lists ∧
        Heap.Holds base s₂.heap (dict :: ids) (.dict (entries ++ own) :: ts) feet')
      (fun _ s₂ => f.slot.entry? s record (f.tree? s) = none ∧ s₂.lists = s₁.lists ∧
        ∃ feet', Heap.Holds base s₂.heap ids ts feet') := by
  have hs : s.Extends s₁ := .of_holds hbase hlists hh
  match f with
  | scalar slot type default =>
    exact ends_addEncoded_entry hs hrecord hkey hh fun v hv =>
      ends_encodeScalar_tree hs (hrecord.attribute hv) hh
  | nested slot fields =>
    refine ends_addEncoded_entry hs hrecord hkey hh fun v hv => ?_
    refine ends_allocate_dict hh fun id s' _ hlists' hinner =>
      ((ends_encodeAll_entries hbase id fields hplain.2 hkeyed.1 hkeyed.2 (hrecord.attribute hv)
        (hlists'.trans hlists) (List.disjoint_nil_right _) hinner).mono (fun _ _ h => h) ?_).bind ?_
    · rintro _ s₂ ⟨hnone, hlists₂, hh₂⟩
      exact ⟨by rw [tree?, hnone, Option.map_none], hlists₂.trans hlists', hh₂⟩
    · rintro _ s₂ ⟨inner, feet', hwritten, hlists₂, hh₂⟩
      exact ends_of_ok rfl ⟨.dict inner, feet', by rw [tree?, hwritten, Option.map_some],
        hlists₂.trans hlists', hh₂⟩
  | array _ _ => exact hplain.elim
  | custom _ _ => exact hplain.elim

/-- Encoding fields comes to what their values are written as in the store in which encoding the
whole record has started. -/
theorem ends_encodeAll_entries {base : Heap} (hbase : s.Extends ⟨base, s.lists⟩)
    (dict : ObjectId) (fields : List Field) (hplain : AllEvery NoCallbacks fields)
    (hnodup : (fields.map key).Nodup) (hkeyed : AllEvery DistinctKeys fields) {record : Value}
    (hrecord : record.Within s.heap) {s₁ : Store} (hlists : s₁.lists = s.lists)
    {entries : List (Text × Tree)} {ids : List ObjectId} {ts : List Tree} {feet : List ObjectId}
    (hdisjoint : (fields.map key).Disjoint (entries.map (·.1)))
    (hh : Heap.Holds base s₁.heap (dict :: ids) (.dict entries :: ts) feet) :
    Ends (encodeAll dict record fields) s₁
      (fun _ s₂ => ∃ own feet', entries? s record fields = some own ∧ s₂.lists = s₁.lists ∧
        Heap.Holds base s₂.heap (dict :: ids) (.dict (entries ++ own) :: ts) feet')
      (fun _ s₂ => entries? s record fields = none ∧ s₂.lists = s₁.lists ∧
        ∃ feet', Heap.Holds base s₂.heap ids ts feet') := by
  match fields with
  | [] => exact ends_of_ok rfl ⟨[], feet, by rw [entries?], rfl, by rwa [List.append_nil]⟩
  | f :: fields =>
    rw [List.map_cons, List.nodup_cons] at hnodup
    rw [List.map_cons, List.disjoint_cons_left] at hdisjoint
    refine ((ends_encode_entry hbase dict f hplain.1 hkeyed.1 hrecord hlists hdisjoint.1 hh).mono
      (fun _ _ h => h) ?_).bind ?_
    · rintro _ s₂ ⟨hnone, hrest⟩
      exact ⟨entries?_cons_eq_none_iff.2 (.inl hnone), hrest⟩
    · rintro _ s₂ ⟨own, feet', hown, hlists₂, hh₂⟩
      refine (ends_encodeAll_entries hbase dict fields hplain.2 hnodup.2 hkeyed.2 hrecord
        (hlists₂.trans hlists) (disjoint_append_keys hnodup.1 hdisjoint.2
          (Slot.map_fst_sublist_of_entry? hown)) hh₂).mono ?_ ?_
      · rintro _ s₃ ⟨rest, feet'', hrest, hlists₃, hh₃⟩
        rw [List.append_assoc] at hh₃
        exact ⟨own ++ rest, feet'', entries?_cons_eq_some_iff.2 ⟨own, rest, rfl, hown, hrest⟩,
          hlists₃.trans hlists₂, hh₃⟩
      · rintro _ s₃ ⟨hnone, hlists₃, hh₃⟩
        exact ⟨entries?_cons_eq_none_iff.2 (.inr hnone), hlists₃.trans hlists₂, hh₃⟩

end

end Field

/-- **What encoding comes to can be computed.** In a store that has grown out of another one, in
which the objects of the record are there, encoding gives a dictionary with the entries that the
record has in the other one, or fails if it has none. -/
theorem Descriptor.ends_encode_entries {d : Descriptor}
    (hplain : Field.AllEvery Field.NoCallbacks d.fields) {s s₁ : Store} (hs : s.Extends s₁)
    {record : Value} (hrecord : record.Within s.heap) :
    Ends (d.encode record) s₁
      (fun id s₂ => ∃ entries feet, Field.entries? s record d.fields = some entries ∧
        s₂.lists = s₁.lists ∧ Heap.Holds s₁.heap s₂.heap [id] [.dict entries] feet)
      (fun _ _ => Field.entries? s record d.fields = none) := by
  have hbase : s.Extends ⟨s₁.heap, s.lists⟩ := ⟨rfl, hs.size_le, hs.object_eq⟩
  refine Field.ends_allocate_dict (Heap.Holds.refl s₁.heap) fun id s' _ hlists hinner =>
    ((Field.ends_encodeAll_entries hbase id d.fields hplain d.nodup_keys d.distinctKeys hrecord
      (hlists.trans hs.lists_eq) (List.disjoint_nil_right _) hinner).mono
      (fun _ _ h => h) ?_).bind ?_
  · rintro _ s₂ ⟨hnone, -⟩
    exact hnone
  · rintro _ s₂ ⟨entries, feet, hentries, hlists', hh⟩
    exact ends_of_ok rfl ⟨entries, feet, hentries, hlists'.trans hlists, hh⟩

end PropertyList

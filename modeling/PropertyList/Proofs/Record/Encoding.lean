import PropertyList.Proofs.Heap.Holding
import PropertyList.Proofs.Outcome
import PropertyList.Proofs.Record.Fields
import PropertyList.Record.Encode

/-!
# The meaning of encoding

Encoding adds the values of fields to a new dictionary, field by field. While it goes on nothing is
held but the dictionaries that are being filled, one inside the other, and a failure gives these
back. What comes of it is a tree with an entry for every field that is not marked as absent: the
text that a scalar is written as, or the dictionary of a record.

Whether a mark counts as true, and what is written, may depend on the store. A record may hold any
values, so nothing is known about the store in which they were looked at.

## Main definitions

* `Slot.mark?`, `Slot.Counts`, `Slot.Tells`, what the mark of a slot says
* `Field.WrittenAs`, `Field.AllWritten`, what comes of encoding
* `Field.Writable`, `Field.AllWritable`, a condition under which it succeeds

## Main results

* `Field.ends_encode`, `Field.ends_encodeAll`
* `Descriptor.ends_encode`, `Descriptor.ends_encode_of_noCallbacks`
-/

namespace PropertyList

/-! ### Marks -/

namespace Slot

/-- Whether the mark of a key in a record counts as `present`. Without a mark it counts as present.
-/
def Counts (slot : Slot) (record : Value) (present : Bool) : Prop :=
  match slot.tracker? with
  | none => present = true
  | some tracker => ∃ mark s, record.attribute? tracker = some mark ∧ mark.isTrue s = present

/-- What the mark of a key in a record counts as in a store, if it can be looked up. Without a mark
the key is present. -/
def mark? (slot : Slot) (s : Store) (record : Value) : Option Bool :=
  match slot.tracker? with
  | none => some true
  | some tracker => (record.attribute? tracker).map (·.isTrue s)

/-- Whether the mark of a key in a record is the truth value `present`. Without a mark a key is
present. -/
def Tells (slot : Slot) (record : Value) (present : Bool) : Prop :=
  match slot.tracker? with
  | none => present = true
  | some tracker => record.attribute? tracker = some (.bool present)

/-- Whether the mark of a key can be looked up in a record. -/
def CanTell (slot : Slot) (record : Value) : Prop :=
  ∀ tracker, slot.tracker? = some tracker → (record.attribute? tracker).isSome = true

/-- Whether a record can have the entries `own` for a slot, with `writes` telling what values are
written as: it has none if the key is marked as absent, and otherwise one. -/
def Adds (slot : Slot) (record : Value) (writes : Value → Tree → Prop) (own : List (Text × Tree)) :
    Prop :=
  slot.Counts record false ∧ own = [] ∨
    slot.Counts record true ∧
      ∃ v t, record.attribute? slot.name = some v ∧ writes v t ∧ own = [(slot.key, t)]

/-- Whether a record is sure to have its entries for a slot, with `can` telling which values are
written: the mark can be looked up, and there is such a value unless the key is sure to be marked as
absent. -/
def CanAdd (slot : Slot) (record : Value) (can : Value → Prop) : Prop :=
  slot.CanTell record ∧
    (slot.Counts record true → ∃ v, record.attribute? slot.name = some v ∧ can v)

theorem counts_of_mark? {slot : Slot} {s : Store} {record : Value} {present : Bool}
    (hmark : slot.mark? s record = some present) : slot.Counts record present := by
  unfold mark? at hmark
  unfold Counts
  cases htracker : slot.tracker? with
  | none =>
    simp only [htracker] at hmark
    exact (Option.some.inj hmark).symm
  | some tracker =>
    simp only [htracker] at hmark
    obtain ⟨mark, hlookup, htrue⟩ := Option.map_eq_some_iff.1 hmark
    exact ⟨mark, s, hlookup, htrue⟩

theorem not_canTell_of_mark? {slot : Slot} {s : Store} {record : Value}
    (hmark : slot.mark? s record = none) : ¬ slot.CanTell record := by
  intro hcan
  unfold mark? at hmark
  cases htracker : slot.tracker? with
  | none => simp only [htracker, reduceCtorEq] at hmark
  | some tracker =>
    simp only [htracker, Option.map_eq_none_iff] at hmark
    have hsome := hcan tracker htracker
    rw [hmark] at hsome
    cases hsome

/-- What has been added in one store can be had. -/
theorem adds_of_mark? {slot : Slot} {s : Store} {record : Value} {writes : Value → Tree → Prop}
    {own : List (Text × Tree)}
    (h : slot.mark? s record = some false ∧ own = [] ∨ slot.mark? s record = some true ∧
      ∃ v t, record.attribute? slot.name = some v ∧ writes v t ∧ own = [(slot.key, t)]) :
    slot.Adds record writes own := by
  obtain ⟨hmark, hown⟩ | ⟨hmark, hown⟩ := h
  · exact .inl ⟨counts_of_mark? hmark, hown⟩
  · exact .inr ⟨counts_of_mark? hmark, hown⟩

/-- What cannot be added in one store is not sure to be. -/
theorem not_canAdd_of_mark? {slot : Slot} {s : Store} {record : Value} {can : Value → Prop}
    (h : slot.mark? s record = none ∨ slot.mark? s record = some true ∧
      ∀ v, record.attribute? slot.name = some v → ¬ can v) : ¬ slot.CanAdd record can := by
  rintro ⟨htell, hcan⟩
  obtain hmark | ⟨hmark, hfails⟩ := h
  · exact not_canTell_of_mark? hmark htell
  · obtain ⟨v, hv, hv'⟩ := hcan (counts_of_mark? hmark)
    exact hfails v hv hv'

theorem Adds.map_fst_sublist {slot : Slot} {record : Value} {writes : Value → Tree → Prop}
    {own : List (Text × Tree)} (h : slot.Adds record writes own) :
    (own.map (·.1)).Sublist [slot.key] := by
  obtain ⟨-, rfl⟩ | ⟨-, v, t, -, -, rfl⟩ := h
  · exact List.nil_sublist _
  · exact List.Sublist.refl _

end Slot

namespace Field

/-! ### What comes of encoding -/

mutual

/-- Whether the value of a field can be written as a tree, in some store. -/
def WrittenAs : Field → Value → Tree → Prop
  | scalar _ type _, v, t => ∃ s text, Scalar.write type s v = .ok text ∧ t = .string text
  | nested _ fields, v, t => ∃ entries, AllWritten v fields entries ∧ t = .dict entries
  | array _ _, _, _ | custom _ _, _, _ => False

/-- Whether a record can be written as entries, with those of the fields one after the other. -/
def AllWritten (record : Value) : List Field → List (Text × Tree) → Prop
  | [], entries => entries = []
  | f :: fields, entries =>
    ∃ own rest, entries = own ++ rest ∧ f.slot.Adds record f.WrittenAs own ∧
      AllWritten record fields rest

end

mutual

/-- Whether the value of a field is written in every store. -/
def Writable : Field → Value → Prop
  | scalar _ type _, v => ∀ s, ∃ text, Scalar.write type s v = .ok text
  | nested _ fields, v => AllWritable v fields
  | array _ _, _ | custom _ _, _ => False

/-- Whether a record is written in every store. -/
def AllWritable (record : Value) : List Field → Prop
  | [] => True
  | f :: fields =>
    f.slot.CanAdd record f.Writable ∧ AllWritable record fields

end

/-! ### Steps of encoding -/

section Steps

open StoreM

variable {base : Heap} {s : Store} {dict : ObjectId} {ids : List ObjectId} {ts : List Tree}
  {entries : List (Text × Tree)} {feet : List ObjectId} {slot : Slot} {record : Value}

theorem ends_encodedAttribute (record : Value) (name : String) (s : Store) :
    Ends (encodedAttribute record name) s
      (fun v s' => s' = s ∧ record.attribute? name = some v)
      (fun _ s' => s' = s ∧ record.attribute? name = none) := by
  rw [encodedAttribute]
  cases h : record.attribute? name with
  | none => exact ends_throw ⟨rfl, rfl⟩
  | some v => exact ends_pure ⟨rfl, rfl⟩

theorem ends_isMarkedAbsent (slot : Slot) (record : Value) (s : Store) :
    Ends (isMarkedAbsent slot record) s
      (fun absent s' => s' = s ∧ slot.mark? s record = some !absent)
      (fun _ s' => s' = s ∧ slot.mark? s record = none) := by
  cases htracker : slot.tracker? with
  | none =>
    simp only [isMarkedAbsent, Slot.mark?, htracker]
    exact ends_pure ⟨rfl, rfl⟩
  | some tracker =>
    simp only [isMarkedAbsent, Slot.mark?, htracker]
    refine ((ends_encodedAttribute record tracker s).mono (fun _ _ h => h) ?_).bind ?_
    · rintro _ _ ⟨rfl, hnone⟩
      exact ⟨rfl, Option.map_eq_none_iff.2 hnone⟩
    · rintro mark _ ⟨rfl, hmark⟩
      exact ends_of_ok rfl ⟨rfl, by rw [hmark, Option.map_some, Bool.not_not]⟩

/-- An object in the heap of a store is worked on. -/
theorem onHeap_of_ok {α : Type} {operation : HeapM α} {a : α} {h' : Heap}
    (hrun : operation s.heap = .ok a h') :
    StoreM.onHeap operation s = .ok a { s with heap := h' } := by
  simp only [StoreM.onHeap, hrun]

/-- A value that can be written is encoded as a string. -/
theorem encodeScalar_of_write {type : ScalarType} {v : Value} {text : Text}
    (hwrite : Scalar.write type s v = .ok text) :
    encodeScalar type v s =
      .ok s.heap.objects.size { s with heap := s.heap.insert (.string text) } := by
  have hrun : encodeScalar type v s =
      (ofExcept (Scalar.write type s v) >>= fun t =>
        onHeap (Heap.allocate (.string t)) : StoreM ObjectId) s := rfl
  rw [hrun, hwrite]
  rfl

theorem encodeScalar_of_write_error {type : ScalarType} {v : Value} {failure : Failure}
    (hwrite : Scalar.write type s v = .error failure) :
    encodeScalar type v s = .error failure s := by
  have hrun : encodeScalar type v s =
      (ofExcept (Scalar.write type s v) >>= fun t =>
        onHeap (Heap.allocate (.string t)) : StoreM ObjectId) s := rfl
  rw [hrun, hwrite]
  rfl

theorem ends_encodeScalar (type : ScalarType) (v : Value)
    (hh : Heap.Holds base s.heap ids ts feet) :
    Ends (encodeScalar type v) s
      (fun id s' => ∃ text feet', Scalar.write type s v = .ok text ∧ s'.lists = s.lists ∧
        Heap.Holds base s'.heap (id :: ids) (.string text :: ts) feet')
      (fun _ s' => s' = s ∧ ∀ text, Scalar.write type s v ≠ .ok text) := by
  cases hwrite : Scalar.write type s v with
  | error failure =>
    exact ends_of_error (encodeScalar_of_write_error hwrite) ⟨rfl, fun text h => by cases h⟩
  | ok text =>
    exact ends_of_ok (encodeScalar_of_write hwrite)
      ⟨text, _, rfl, rfl, hh.insert (c := .string text) (.string Heap.object_insert_self)⟩

/-- Whatever is done with a new dictionary starts with the dictionary held, without entries. -/
theorem ends_allocate_dict {α : Type} {work : ObjectId → StoreM α} {P : α → Store → Prop}
    {Q : Failure → Store → Prop} (hh : Heap.Holds base s.heap ids ts feet)
    (hwork : ∀ dict s' feet', s'.lists = s.lists →
      Heap.Holds base s'.heap (dict :: ids) (.dict [] :: ts) feet' → Ends (work dict) s' P Q) :
    Ends (onHeap (Heap.allocate (.dict .empty)) >>= work) s P Q := by
  have hallocate : onHeap (Heap.allocate (.dict .empty)) s =
      .ok s.heap.objects.size ⟨s.heap.insert (.dict .empty), s.lists⟩ := rfl
  exact ends_bind_of_ok hallocate (hwork _ _ _ rfl hh.insert_dict)

/-- A new object is handed over to a dictionary under a new key. -/
theorem exists_addNew {value : ObjectId} {t : Tree} {key : Text}
    (hh : Heap.Holds base s.heap (value :: dict :: ids) (t :: .dict entries :: ts) feet)
    (hkey : key ∉ entries.map (·.1)) :
    ∃ s' feet', addNew dict key value s = .ok () s' ∧ s'.lists = s.lists ∧
      Heap.Holds base s'.heap (dict :: ids) (.dict (entries ++ [(key, t)]) :: ts) feet' := by
  obtain ⟨h₁, h', feet', hadd, hrelease, hh'⟩ := hh.add_value hkey
  have hadd' := onHeap_of_ok hadd
  refine ⟨⟨h', s.lists⟩, feet',
    tryFinally_of_ok ?_ (onHeap_of_ok (s := ⟨h₁, s.lists⟩) hrelease), rfl, hh'⟩
  simp only [bind, EStateM.bind, hadd']
  rfl

/-- Adding the value of a field gives the dictionary its entries for the field, or gives the
dictionary back. The mark is looked at in the store in which adding starts. -/
theorem ends_addEncoded {encoding : Value → StoreM ObjectId} (writes : Value → Tree → Prop)
    (fails : Value → Prop) (hkey : slot.key ∉ entries.map (·.1))
    (hh : Heap.Holds base s.heap (dict :: ids) (.dict entries :: ts) feet)
    (hencoding : ∀ v, record.attribute? slot.name = some v → Ends (encoding v) s
      (fun id s' => ∃ t feet', writes v t ∧ s'.lists = s.lists ∧
        Heap.Holds base s'.heap (id :: dict :: ids) (t :: .dict entries :: ts) feet')
      (fun _ s' => fails v ∧ s'.lists = s.lists ∧
        ∃ feet', Heap.Holds base s'.heap (dict :: ids) (.dict entries :: ts) feet')) :
    Ends (addEncoded slot dict record encoding) s
      (fun _ s' => ∃ own feet',
        (slot.mark? s record = some false ∧ own = [] ∨ slot.mark? s record = some true ∧
          ∃ v t, record.attribute? slot.name = some v ∧ writes v t ∧ own = [(slot.key, t)]) ∧
        s'.lists = s.lists ∧
        Heap.Holds base s'.heap (dict :: ids) (.dict (entries ++ own) :: ts) feet')
      (fun _ s' =>
        (slot.mark? s record = none ∨ slot.mark? s record = some true ∧
          ∀ v, record.attribute? slot.name = some v → fails v) ∧
        s'.lists = s.lists ∧ ∃ feet', Heap.Holds base s'.heap ids ts feet') := by
  refine Ends.tryCatch (Q := fun _ s' =>
    (slot.mark? s record = none ∨ slot.mark? s record = some true ∧
      ∀ v, record.attribute? slot.name = some v → fails v) ∧
    s'.lists = s.lists ∧
    ∃ feet', Heap.Holds base s'.heap (dict :: ids) (.dict entries :: ts) feet') ?_ ?_
  · refine ((ends_isMarkedAbsent slot record s).mono (fun _ _ h => h) ?_).bind ?_
    · rintro _ _ ⟨rfl, hmark⟩
      exact ⟨.inl hmark, rfl, feet, hh⟩
    · rintro absent _ ⟨rfl, hmark⟩
      cases absent with
      | true => exact ends_of_ok rfl ⟨[], feet, .inl ⟨hmark, rfl⟩, rfl, by rwa [List.append_nil]⟩
      | false =>
        refine ((ends_encodedAttribute record slot.name _).mono (fun _ _ h => h) ?_).bind ?_
        · rintro _ _ ⟨rfl, hnone⟩
          refine ⟨.inr ⟨hmark, fun v hv => ?_⟩, rfl, feet, hh⟩
          rw [hnone] at hv
          cases hv
        · rintro v _ ⟨rfl, hv⟩
          refine ((hencoding v hv).mono (fun _ _ h => h) ?_).bind ?_
          · rintro _ s' ⟨hfails, hlists, hh'⟩
            refine ⟨.inr ⟨hmark, fun w hw => ?_⟩, hlists, hh'⟩
            exact Option.some.inj (hv.symm.trans hw) ▸ hfails
          · rintro id s' ⟨t, feet', hwrites, hlists, hh'⟩
            obtain ⟨s'', feet'', hadd, hlists', hh''⟩ := exists_addNew hh' hkey
            exact ends_of_ok hadd ⟨_, feet'', .inr ⟨hmark, v, t, hv, hwrites, rfl⟩,
              hlists'.trans hlists, hh''⟩
  · -- Whichever step failed, the dictionary is held still, and it is given back here.
    rintro failure s' ⟨hfails, hlists, feet', hh'⟩
    obtain ⟨h'', feet'', hrelease, hh''⟩ := hh'.release_first
    exact ends_bind_of_ok (onHeap_of_ok hrelease) (ends_throw ⟨hfails, hlists, feet'', hh''⟩)

end Steps

/-! ### Encoding fields -/

variable {base : Heap} {ts : List Tree} {ids : List ObjectId}

/-- The keys of the entries are those of some of the fields, in the same order. -/
theorem AllWritten.map_fst_sublist {record : Value} {fields : List Field}
    {entries : List (Text × Tree)} (h : AllWritten record fields entries) :
    (entries.map (·.1)).Sublist (fields.map key) := by
  induction fields generalizing entries with
  | nil =>
    rw [AllWritten] at h
    rw [h]
    exact List.Sublist.refl _
  | cons f fields ih =>
    obtain ⟨own, rest, rfl, hown, hrest⟩ := h
    rw [List.map_append, List.map_cons]
    exact hown.map_fst_sublist.append (ih hrest)

/-- The keys of further fields are not those of the entries of the fields before them. -/
theorem disjoint_append_keys {k : Text} {keys : List Text} {entries own : List (Text × Tree)}
    (hk : k ∉ keys) (hkeys : keys.Disjoint (entries.map (·.1)))
    (hown : (own.map (·.1)).Sublist [k]) : keys.Disjoint ((entries ++ own).map (·.1)) := by
  rw [List.map_append, List.disjoint_append_right]
  refine ⟨hkeys, fun l hl hl' => hk ?_⟩
  obtain rfl : l = k := List.mem_singleton.1 (hown.subset hl')
  exact hl

mutual

/-- Encoding a field gives the dictionary its entries for the field, or gives the dictionary back.
-/
theorem ends_encode (dict : ObjectId) (record : Value) : (f : Field) → f.Every NoCallbacks →
    f.Every DistinctKeys →
    ∀ {s : Store} {entries : List (Text × Tree)} {ids : List ObjectId} {ts : List Tree}
      {feet : List ObjectId},
    f.key ∉ entries.map (·.1) →
    Heap.Holds base s.heap (dict :: ids) (.dict entries :: ts) feet →
      Ends (f.encode dict record) s
        (fun _ s' => ∃ own feet', f.slot.Adds record f.WrittenAs own ∧ s'.lists = s.lists ∧
          Heap.Holds base s'.heap (dict :: ids) (.dict (entries ++ own) :: ts) feet')
        (fun _ s' => ¬ f.slot.CanAdd record f.Writable ∧ s'.lists = s.lists ∧
          ∃ feet', Heap.Holds base s'.heap ids ts feet')
  | scalar slot type default, _, _, s, entries, ids, ts, feet, hkey, hh => by
    refine (ends_addEncoded (WrittenAs (scalar slot type default))
      (fun v => ¬ Writable (scalar slot type default) v) hkey hh fun v _ =>
        (ends_encodeScalar type v hh).mono ?_ ?_).mono ?_ ?_
    · rintro id s' ⟨text, feet', hwrite, hlists, hh'⟩
      exact ⟨.string text, feet', ⟨s, text, hwrite, rfl⟩, hlists, hh'⟩
    · rintro _ s' ⟨rfl, hwrite⟩
      refine ⟨fun hcan => ?_, rfl, feet, hh⟩
      obtain ⟨text, htext⟩ := hcan s'
      exact hwrite text htext
    · exact fun _ s' ⟨own, feet', hown, hrest⟩ => ⟨own, feet', Slot.adds_of_mark? hown, hrest⟩
    · exact fun _ s' ⟨hfails, hrest⟩ => ⟨Slot.not_canAdd_of_mark? hfails, hrest⟩
  | nested slot fields, hf, hkeyed, s, entries, ids, ts, feet, hkey, hh => by
    refine (ends_addEncoded (WrittenAs (nested slot fields))
      (fun v => ¬ Writable (nested slot fields) v) hkey hh fun v _ => ?_).mono ?_ ?_
    · refine ends_allocate_dict hh fun id s₁ _ hlists hinner => ?_
      refine ((ends_encodeAll id v fields hf.2 hkeyed.1 hkeyed.2 (List.disjoint_nil_right _)
        hinner).mono (fun _ _ h => h) ?_).bind ?_
      · rintro _ s' ⟨hcan, hlists', hh'⟩
        exact ⟨hcan, hlists'.trans hlists, hh'⟩
      · rintro _ s' ⟨inner, feet', hwritten, hlists', hh'⟩
        exact ends_of_ok rfl ⟨.dict inner, feet', ⟨inner, hwritten, rfl⟩, hlists'.trans hlists, hh'⟩
    · exact fun _ s' ⟨own, feet', hown, hrest⟩ => ⟨own, feet', Slot.adds_of_mark? hown, hrest⟩
    · exact fun _ s' ⟨hfails, hrest⟩ => ⟨Slot.not_canAdd_of_mark? hfails, hrest⟩
  | array _ _, hf, _, _, _, _, _, _, _, _ => hf.elim
  | custom _ _, hf, _, _, _, _, _, _, _, _ => hf.elim

/-- Encoding fields gives the dictionary their entries, or gives the dictionary back. -/
theorem ends_encodeAll (dict : ObjectId) (record : Value) : (fields : List Field) →
    AllEvery NoCallbacks fields → (fields.map key).Nodup → AllEvery DistinctKeys fields →
    ∀ {s : Store} {entries : List (Text × Tree)} {ids : List ObjectId} {ts : List Tree}
      {feet : List ObjectId},
    (fields.map key).Disjoint (entries.map (·.1)) →
    Heap.Holds base s.heap (dict :: ids) (.dict entries :: ts) feet →
      Ends (encodeAll dict record fields) s
        (fun _ s' => ∃ own feet', AllWritten record fields own ∧ s'.lists = s.lists ∧
          Heap.Holds base s'.heap (dict :: ids) (.dict (entries ++ own) :: ts) feet')
        (fun _ s' => ¬ AllWritable record fields ∧ s'.lists = s.lists ∧
          ∃ feet', Heap.Holds base s'.heap ids ts feet')
  | [], _, _, _, s, entries, ids, ts, feet, _, hh => by
    exact ends_of_ok rfl ⟨[], feet, rfl, rfl, by rwa [List.append_nil]⟩
  | f :: fields, hplain, hnodup, hkeyed, s, entries, ids, ts, feet, hdisjoint, hh => by
    rw [List.map_cons, List.nodup_cons] at hnodup
    rw [List.map_cons, List.disjoint_cons_left] at hdisjoint
    refine ((ends_encode dict record f hplain.1 hkeyed.1 hdisjoint.1 hh).mono
      (fun _ _ h => h) ?_).bind ?_
    · rintro _ s' ⟨hcan, hh'⟩
      exact ⟨fun h => hcan h.1, hh'⟩
    · rintro _ s' ⟨own, feet', hown, hlists, hh'⟩
      have hdisjoint' := disjoint_append_keys hnodup.1 hdisjoint.2 hown.map_fst_sublist
      refine (ends_encodeAll dict record fields hplain.2 hnodup.2 hkeyed.2 hdisjoint' hh').mono
        ?_ ?_
      · rintro _ s'' ⟨rest, feet'', hrest, hlists', hh''⟩
        rw [List.append_assoc] at hh''
        exact ⟨own ++ rest, feet'', ⟨own, rest, rfl, hown, hrest⟩, hlists'.trans hlists, hh''⟩
      · rintro _ s'' ⟨hcan, hlists', hh''⟩
        exact ⟨fun h => hcan h.2, hlists'.trans hlists, hh''⟩

end

end Field

namespace Descriptor

variable {d : Descriptor}

/-- Encoding a record without callbacks gives a dictionary to which the only reference is held, or
nothing. -/
theorem ends_encode_of_noCallbacks (hplain : Field.AllEvery Field.NoCallbacks d.fields)
    (record : Value) (s : Store) :
    Ends (d.encode record) s
      (fun id s' => ∃ entries feet, Field.AllWritten record d.fields entries ∧
        Heap.Holds s.heap s'.heap [id] [.dict entries] feet)
      (fun _ s' => ¬ Field.AllWritable record d.fields ∧ Heap.Holds s.heap s'.heap [] [] []) := by
  refine Field.ends_allocate_dict (Heap.Holds.refl s.heap) fun id s₁ _ _ hinner =>
    ((Field.ends_encodeAll id record d.fields hplain d.nodup_keys d.distinctKeys
      (List.disjoint_nil_right _) hinner).mono (fun _ _ h => h) ?_).bind ?_
  · rintro _ s' ⟨hcan, -, feet, hh⟩
    cases hh.owns
    exact ⟨hcan, hh⟩
  · rintro _ s' ⟨entries, feet, hwritten, -, hh⟩
    exact ends_of_ok rfl ⟨entries, feet, hwritten, hh⟩

theorem Regular.allEvery_noCallbacks (hd : d.Regular) :
    Field.AllEvery Field.NoCallbacks d.fields :=
  Field.allEvery_iff.2 fun f hf => Field.every_noCallbacks f (Field.allRegular_iff.1 hd.2 f hf)

/-- Encoding a record of regular fields gives a dictionary to which the only reference is held, or
nothing. -/
theorem ends_encode (hd : d.Regular) (record : Value) (s : Store) :
    Ends (d.encode record) s
      (fun id s' => ∃ entries feet, Field.AllWritten record d.fields entries ∧
        Heap.Holds s.heap s'.heap [id] [.dict entries] feet)
      (fun _ s' => ¬ Field.AllWritable record d.fields ∧ Heap.Holds s.heap s'.heap [] [] []) :=
  ends_encode_of_noCallbacks hd.allEvery_noCallbacks record s

end Descriptor

end PropertyList

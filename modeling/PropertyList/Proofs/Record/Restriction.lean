import PropertyList.Proofs.Record.RoundTrip

/-!
# Decoding and encoding again

Where every key has a mark, a record that has been decoded tells which keys were there. Encoding it
gives the dictionary that was decoded, *restricted* to the keys that the descriptor names, with
every scalar in its canonical text. Decoding that dictionary gives the same record.

## Main definitions

* `Field.Marked`
* `Field.restrict`, `Field.restrictAll`

## Main results

* `Descriptor.encode_decode_same_restriction`
-/

namespace PropertyList

namespace Field

/-- The presence of the key of a field is tracked. -/
def Marked (f : Field) : Prop :=
  f.slot.tracker?.isSome = true

mutual

/-- What an object for a field is restricted to: the canonical text of the value that a string
stands for, or a dictionary restricted to the fields of a record. -/
def restrict (h : Heap) (id : ObjectId) : Field → Tree
  | scalar _ type _ => .string (type.canonical ((Scalar.decode type h id).toOption.getD .null))
  | nested _ fields => .dict (restrictAll h id fields)
  | array _ _ | custom _ _ => .string []

/-- The entries of a dictionary under the keys of fields, in the order of the fields. -/
def restrictAll (h : Heap) (dict : ObjectId) : List Field → List (Text × Tree)
  | [] => []
  | f :: fields =>
    ((h.entry? (some dict) f.slot.key).map fun id => (f.slot.key, f.restrict h id)).toList
      ++ restrictAll h dict fields

end

variable {h h' : Heap} {id dict : ObjectId} {fields : List Field} {foot : List ObjectId}

/-! ### The keys of a restriction -/

theorem map_fst_restrictAll_sublist :
    ((restrictAll h dict fields).map (·.1)).Sublist (fields.map key) := by
  induction fields with
  | nil => exact List.Sublist.refl _
  | cons f fields ih =>
    rw [restrictAll, List.map_append, List.map_cons]
    cases h.entry? (some dict) f.slot.key with
    | none => exact ih.cons _
    | some id => exact ih.cons_cons _

/-- Under the key of a field there is what the object under the key is restricted to. -/
theorem lookup_restrictAll (hkeys : (fields.map key).Nodup) :
    ∀ f ∈ fields, (restrictAll h dict fields).lookup f.key =
      (h.entry? (some dict) f.slot.key).map fun id => f.restrict h id := by
  induction fields with
  | nil => exact fun f hf => absurd hf List.not_mem_nil
  | cons f fields ih =>
    rw [List.map_cons, List.nodup_cons] at hkeys
    refine List.forall_mem_cons.2 ⟨?_, fun g hg => ?_⟩
    · have hnone : (restrictAll h dict fields).lookup f.key = none :=
        lookup_of_notMem fun h => hkeys.1 (map_fst_restrictAll_sublist.subset h)
      rw [restrictAll, List.lookup_append, hnone, Option.or_none]
      cases h.entry? (some dict) f.slot.key with
      | none => rfl
      | some id => exact List.lookup_cons_self
    · have hne : (g.key == f.key) = false :=
        beq_false_of_ne fun h => hkeys.1 (h ▸ List.mem_map_of_mem hg)
      rw [restrictAll, List.lookup_append, ← ih hkeys.2 g hg]
      cases h.entry? (some dict) f.slot.key with
      | none => exact Option.none_or
      | some id =>
        rw [Option.map_some, Option.toList_some, List.lookup_cons, show f.slot.key = f.key from rfl,
          hne]
        exact Option.none_or

theorem uniqueKeys_restrictAll (hkeys : (fields.map key).Nodup)
    (hfields : ∀ f ∈ fields, ∀ id, (f.restrict h id).UniqueKeys) (dict : ObjectId) :
    (Tree.dict (restrictAll h dict fields)).UniqueKeys := by
  refine Tree.uniqueKeys_dict.2 ⟨hkeys.sublist map_fst_restrictAll_sublist, ?_⟩
  clear hkeys
  induction fields with
  | nil => exact fun e he => absurd he List.not_mem_nil
  | cons f fields ih =>
    obtain ⟨hf, hfields⟩ := List.forall_mem_cons.1 hfields
    rw [restrictAll]
    refine List.forall_mem_append.2 ⟨fun e he => ?_, ih hfields⟩
    obtain ⟨id, -, rfl⟩ := Option.map_eq_some_iff.1 (Option.mem_toList.1 he)
    exact hf id

/-- A restriction has different keys at every level. -/
theorem uniqueKeys_restrict (f : Field) (hf : f.Regular) :
    f.Every DistinctKeys → ∀ id, (f.restrict h id).UniqueKeys := by
  induction f, hf using regular_induction with
  | scalar slot type default _ => exact fun _ id keys hk => absurd hk List.not_mem_nil
  | nested slot fields hnodup hfields ih =>
    exact fun hkeys id => uniqueKeys_restrictAll hkeys.1
      (fun f hf => ih f hf (allEvery_iff.1 hkeys.2 f hf)) id

/-! ### Writing a record that has been decoded -/

/-- The marks of a record that has been decoded tell which keys were there. -/
theorem AllHold.tells {record : Value} (hrecord : AllHold h (some dict) fields record)
    (hmarked : ∀ f ∈ fields, f.Marked) :
    ∀ f ∈ fields, f.slot.Tells record (h.entry? (some dict) f.slot.key).isSome ∧
      ∃ v, record.attribute? f.slot.name = some v ∧
        f.Holds h (h.entry? (some dict) f.slot.key) v := by
  induction fields with
  | nil => exact fun f hf => absurd hf List.not_mem_nil
  | cons f fields ih =>
    obtain ⟨hvalue, hmark, hrest⟩ := hrecord
    obtain ⟨hf, hfields⟩ := List.forall_mem_cons.1 hmarked
    refine List.forall_mem_cons.2 ⟨⟨?_, hvalue⟩, ih hrest hfields⟩
    obtain ⟨tracker, htracker⟩ := Option.isSome_iff_exists.1 hf
    unfold Slot.Tells
    rw [htracker]
    exact hmark tracker htracker

/-- What is written for a record that has been decoded is what the dictionary is restricted to. -/
theorem eq_restrictAll_of_allWritten {record : Value} {entries : List (Text × Tree)}
    (hfields : ∀ f ∈ fields, ∀ id v t, f.Holds h (some id) v → f.WrittenAs v t →
      t = f.restrict h id)
    (hmarked : ∀ f ∈ fields, f.Marked) (hrecord : AllHold h (some dict) fields record)
    (hwritten : AllWritten record fields entries) : entries = restrictAll h dict fields := by
  have hlooked := hrecord.tells hmarked
  clear hmarked hrecord
  induction fields generalizing entries with
  | nil => exact hwritten
  | cons f fields ih =>
    obtain ⟨own, rest, rfl, hown, hrest⟩ := hwritten
    obtain ⟨⟨htells, v, hv, hholds⟩, hlooked⟩ := List.forall_mem_cons.1 hlooked
    obtain ⟨hf, hfields⟩ := List.forall_mem_cons.1 hfields
    rw [restrictAll, ih hfields hrest hlooked]
    congr 1
    cases hentry : h.entry? (some dict) f.slot.key with
    | none =>
      obtain ⟨-, rfl⟩ | ⟨hcounts, -⟩ := hown
      · rfl
      · rw [hentry] at htells
        exact absurd (htells.counts_iff.1 hcounts) nofun
    | some id =>
      rw [hentry] at htells hholds
      obtain ⟨hcounts, -⟩ | ⟨-, w, t, hw, ht, rfl⟩ := hown
      · exact absurd (htells.counts_iff.1 hcounts) nofun
      · obtain rfl : v = w := Option.some.inj (hv.symm.trans hw)
        rw [hf id v t hholds ht]
        rfl

/-- What is written for a value that has been decoded is what its object is restricted to. -/
theorem eq_restrict_of_writtenAs (f : Field) (hf : f.Regular) :
    f.Every Marked → ∀ id v t, f.Holds h (some id) v → f.WrittenAs v t → t = f.restrict h id := by
  induction f, hf using regular_induction with
  | scalar slot type default _ =>
    rintro - id v t hholds ⟨s, text, hwrite, rfl⟩
    have hdecode : Scalar.decode type h id = .ok v := hholds
    rw [Scalar.write_eq_canonical (Scalar.conforms_of_decode hdecode) s] at hwrite
    rw [restrict, hdecode, ← Except.ok.inj hwrite]
    rfl
  | nested slot fields _ hfields ih =>
    rintro hmarked id v t hholds ⟨entries, hwritten, rfl⟩
    have hmarked' := allEvery_iff.1 hmarked.2
    rw [restrict, eq_restrictAll_of_allWritten (fun f hf => ih f hf (hmarked' f hf))
      (fun f hf => (hmarked' f hf).self) hholds.2 hwritten]

/-- A record that has been decoded conforms. -/
theorem allConform_of_allHold {record : Value}
    (hfields : ∀ f ∈ fields, ∀ id v, f.Holds h (some id) v → f.Takes h id → f.Conforms v)
    (hmarked : ∀ f ∈ fields, f.Marked) (hrecord : AllHold h (some dict) fields record)
    (haccept : AllAccept h dict fields) : AllConform fields record := by
  refine allConform_iff.2 fun f hf => ?_
  obtain ⟨htells, v, hv, hholds⟩ := hrecord.tells hmarked f hf
  obtain ⟨hrequired, htakes⟩ := allAccept_iff.1 haccept f hf
  refine ⟨_, htells, hrequired, fun hpresent => ⟨v, hv, ?_⟩⟩
  obtain ⟨id, hentry⟩ := Option.isSome_iff_exists.1 hpresent
  rw [hentry] at hholds
  exact hfields f hf id v hholds (htakes id hentry)

/-- A value that has been decoded conforms. -/
theorem conforms_of_holds (f : Field) (hf : f.Regular) :
    f.Every Marked → ∀ id v, f.Holds h (some id) v → f.Takes h id → f.Conforms v := by
  induction f, hf using regular_induction with
  | scalar slot type default _ => exact fun _ id v hholds _ => Scalar.conforms_of_decode hholds
  | nested slot fields _ _ ih =>
    intro hmarked id v hholds htakes
    have hmarked' := allEvery_iff.1 hmarked.2
    exact ⟨by rw [hholds.1]; rfl, allConform_of_allHold (fun f hf => ih f hf (hmarked' f hf))
      (fun f hf => (hmarked' f hf).self) hholds.2 htakes.2⟩

/-! ### Decoding a restriction -/

/-- A dictionary that is owned and holds what another has been restricted to is accepted as the
other is, and gives the same record. -/
theorem attributes_restrictAll (hregular : ∀ f ∈ fields, f.Regular)
    (hkeys : (fields.map key).Nodup)
    (hfields : ∀ f ∈ fields, ∀ i j foot, f.Takes h i → h'.Owns j (f.restrict h i) foot →
      f.Takes h' j ∧ f.value h' (some j) = f.value h (some i))
    (haccept : AllAccept h dict fields)
    (howns : h'.Owns id (.dict (restrictAll h dict fields)) foot) :
    AllAccept h' id fields ∧ attributes h' (some id) fields = attributes h (some dict) fields := by
  have hfield : ∀ f ∈ fields, f.Accepts h' id ∧
      (h'.entry? (some id) f.slot.key).isSome = (h.entry? (some dict) f.slot.key).isSome ∧
        f.value h' (h'.entry? (some id) f.slot.key) =
          f.value h (h.entry? (some dict) f.slot.key) := by
    intro f hf
    have haccepts := allAccept_iff.1 haccept f hf
    have hlookup : (restrictAll h dict fields).lookup f.key = _ := lookup_restrictAll hkeys f hf
    cases hentry : h.entry? (some dict) f.slot.key with
    | none =>
      rw [hentry] at hlookup
      have hentry' : h'.entry? (some id) f.slot.key = none := howns.entry?_eq_none hlookup
      rw [accepts_of_none hentry', hentry']
      exact ⟨(accepts_of_none hentry).1 haccepts, rfl,
        (value_none h' f (hregular f hf)).trans (value_none h f (hregular f hf)).symm⟩
    | some i =>
      rw [hentry] at hlookup
      obtain ⟨j, foot', hentry', hj⟩ := howns.exists_entry? hlookup
      obtain ⟨htakes', hvalue⟩ :=
        hfields f hf i j foot' ((accepts_of_some hentry).1 haccepts) hj
      rw [accepts_of_some hentry', show h'.entry? (some id) f.slot.key = some j from hentry']
      exact ⟨htakes', rfl, hvalue⟩
  exact ⟨allAccept_iff.2 fun f hf => (hfield f hf).1, attributes_congr fun f hf => (hfield f hf).2⟩

/-- What an object is restricted to stands for the same value. -/
theorem value_restrict (f : Field) (hf : f.Regular) : f.Every DistinctKeys → f.Every DistinctNames →
    ∀ i j foot, f.Takes h i → h'.Owns j (f.restrict h i) foot →
      f.Takes h' j ∧ f.value h' (some j) = f.value h (some i) := by
  induction f, hf using regular_induction with
  | scalar slot type default _ =>
    rintro - hnames i j foot ⟨v, hdecode⟩ howns
    rw [restrict, hdecode] at howns
    have hdecode' : Scalar.decode type h' j = .ok v :=
      (Scalar.decode_of_string? howns.string?_eq).trans
        (Scalar.read_canonical hnames (Scalar.conforms_of_decode hdecode))
    refine ⟨⟨v, hdecode'⟩, ?_⟩
    rw [value, value, hdecode, hdecode']
  | nested slot fields _ hfields ih =>
    rintro hkeys hnames i j foot ⟨hkind, haccept⟩ howns
    obtain ⟨haccept', hsame⟩ := attributes_restrictAll (allRegular_iff.1 hfields) hkeys.1
      (fun f hf => ih f hf (allEvery_iff.1 hkeys.2 f hf) (allEvery_iff.1 hnames.2 f hf)) haccept
      howns
    exact ⟨⟨howns.kind_eq_dict, haccept'⟩, congrArg Value.record hsame⟩

end Field

/-! ### Descriptors -/

namespace Descriptor

/-- Where every key has a mark, encoding a record that has been decoded gives a dictionary that
equals the one that was decoded, restricted to the keys of the descriptor at every level and with
canonical texts for its scalars, and decoding that dictionary gives the record again. -/
theorem encode_decode_same_restriction {d : Descriptor} (hd : d.Regular)
    (hnames : Field.AllEvery Field.DistinctNames d.fields)
    (hmarked : Field.AllEvery Field.Marked d.fields) {s s' : Session} {dict : ObjectId}
    (hdict : s.store.heap.kind dict = .dict) {fresh : Bool}
    (hfresh : fresh = true ∨ s.record = .emptyRecord)
    (hdecode : d.decode dict fresh s = .ok () s') :
    ∃ id store, d.encode s'.record s'.store = .ok id store ∧
      (store.heap.tree id).same (.dict (Field.restrictAll s.store.heap dict d.fields)) = true ∧
        ∀ (s₁ : Session) (fresh₁ : Bool), s₁.store = store →
          fresh₁ = true ∨ s₁.record = .emptyRecord →
            ∃ s₂, d.decode id fresh₁ s₁ = .ok () s₂ ∧ s₂.record = s'.record := by
  have hregular := Field.allRegular_iff.1 hd.2
  have hkeys := Field.allEvery_iff.1 d.distinctKeys
  have hnames' := Field.allEvery_iff.1 hnames
  have hmarked' := Field.allEvery_iff.1 hmarked
  obtain ⟨r, store, calls⟩ := s
  have hturns := turnsIf_decode hd hdict hfresh
  have haccept := (hturns.exists_ok_iff calls).1 ⟨s', hdecode⟩
  obtain ⟨calls', hrun⟩ := hturns.turns haccept calls
  rw [hdecode] at hrun
  cases hrun
  have hhold := Field.allHold_attributes store.heap d.fields hd.2 hd.1 (some dict)
    (fun id hid => Option.some.inj hid ▸ haccept) [] (List.disjoint_nil_right _)
  rw [List.nil_append] at hhold
  obtain ⟨id, store', hencode, entries, feet, hwritten, hh⟩ | ⟨_, _, -, hcan, -⟩ :=
    ends_iff.1 (ends_encode hd (.record (Field.attributes store.heap (some dict) d.fields)) store)
  · obtain rfl := Field.eq_restrictAll_of_allWritten
      (fun f hf => Field.eq_restrict_of_writtenAs f (hregular f hf) (hmarked' f hf))
      (fun f hf => (hmarked' f hf).self) hhold hwritten
    obtain ⟨foot, howns, hnodup⟩ := hh.owns_first
    have hunique : (Tree.dict (Field.restrictAll store.heap dict d.fields)).UniqueKeys :=
      Field.uniqueKeys_restrictAll d.nodup_keys
        (fun f hf => Field.uniqueKeys_restrict f (hregular f hf) (hkeys f hf)) dict
    refine ⟨id, store', hencode, ?_, ?_⟩
    · rw [howns.tree_eq hnodup hunique]
      exact Tree.same_arrange hunique
    · rintro ⟨r₁, _, calls₁⟩ fresh₁ rfl hfresh₁
      obtain ⟨haccept', hsame⟩ := Field.attributes_restrictAll hregular d.nodup_keys
        (fun f hf => Field.value_restrict f (hregular f hf) (hkeys f hf) (hnames' f hf)) haccept
        howns
      obtain ⟨calls₂, hrun⟩ :=
        (turnsIf_decode hd howns.kind_eq_dict hfresh₁).turns haccept' calls₁
      exact ⟨_, hrun, congrArg Value.record hsame⟩
  · exact absurd (Field.allWritable_of_allConform
      (fun f hf => Field.writable_of_conforms f (hregular f hf))
      (Field.allConform_of_allHold
        (fun f hf => Field.conforms_of_holds f (hregular f hf) (hmarked' f hf))
        (fun f hf => (hmarked' f hf).self) hhold haccept)) hcan

/-- A descriptor of a gauge: its level and, in a record of its own, the colour of its lamp. -/
def gauge : Descriptor where
  fields :=
    [.scalar ⟨"level", "level", some "has_level", true, 0⟩ .int64 (.int 0),
      .nested ⟨"lamp", "lamp", some "has_lamp", false, 0⟩
        [.scalar ⟨"color", "color", some "has_color", false, 0⟩ .argb32 (.int 0)]]
  nodup_keys := by decide
  distinctKeys := by decide

/-- The dictionary of a gauge with a level, a lamp and a note, and its parts. -/
def gaugeHeap : Heap where
  objects :=
    #[⟨1, .dict (((Dict.empty.add "note" 4).add "level" 1).add "lamp" 2)⟩, ⟨1, .string " +007 "⟩,
      ⟨1, .dict (Dict.empty.add "color" 3)⟩, ⟨1, .string "argb32:FF00aa00"⟩, ⟨1, .string "spare"⟩]
  live := 5

/-- A gauge that has been decoded is encoded without its note and with canonical texts. -/
theorem encode_decode_gauge :
    gauge.Regular ∧ Field.AllEvery Field.DistinctNames gauge.fields ∧
    Field.AllEvery Field.Marked gauge.fields ∧ gaugeHeap.kind 0 = .dict ∧
    ∃ s' id store s₂, gauge.decode 0 true ⟨.null, ⟨gaugeHeap, #[]⟩, []⟩ = .ok () s' ∧
      gauge.encode s'.record s'.store = .ok id store ∧
      (store.heap.tree id).same (.dict [("level", .string "7"),
        ("lamp", .dict [("color", .string "argb32:ff00aa00")])]) = true ∧
      gauge.decode id true ⟨.null, store, []⟩ = .ok () s₂ ∧ s₂.record = s'.record := by
  have hd : gauge.Regular := ⟨by decide, trivial, ⟨by decide, trivial, trivial⟩, trivial⟩
  have hnames : Field.AllEvery Field.DistinctNames gauge.fields :=
    ⟨trivial, ⟨trivial, trivial, trivial⟩, trivial⟩
  have hmarked : Field.AllEvery Field.Marked gauge.fields :=
    ⟨rfl, ⟨rfl, rfl, trivial⟩, trivial⟩
  have hdict : gaugeHeap.kind 0 = .dict := by decide
  have hlevel : Scalar.decode .int64 gaugeHeap 1 = .ok (.int 7) := rfl
  have hcolor : Scalar.decode .argb32 gaugeHeap 3 = .ok (.int 0xFF00AA00) := rfl
  have haccept : Field.AllAccept gaugeHeap 0 gauge.fields := by
    refine ⟨⟨fun _ => by decide, ?_⟩, ⟨nofun, ?_⟩, trivial⟩
    · rintro _ ⟨⟩
      exact ⟨_, hlevel⟩
    · rintro _ ⟨⟩
      refine ⟨by decide, ⟨nofun, ?_⟩, trivial⟩
      rintro _ ⟨⟩
      exact ⟨_, hcolor⟩
  have hturns := @turnsIf_decode gauge 0 ⟨gaugeHeap, #[]⟩ hd hdict true .null (.inl rfl)
  obtain ⟨s', hs'⟩ := (hturns.exists_ok_iff []).2 haccept
  obtain ⟨id, store, hencode, hsame, hagain⟩ :=
    encode_decode_same_restriction hd hnames hmarked hdict (.inl rfl) hs'
  obtain ⟨s₂, hs₂, hrecord⟩ := hagain ⟨.null, store, []⟩ true rfl (.inl rfl)
  exact ⟨hd, hnames, hmarked, hdict, s', id, store, s₂, hs', hencode, hsame, hs₂, hrecord⟩

end Descriptor

end PropertyList

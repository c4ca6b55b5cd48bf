import PropertyList.Proofs.Record.Allocation
import PropertyList.Proofs.Record.Entries

/-!
# The order of fields

The fields of a record may be listed in any order, and so may those of the records in it. Each field
has a key and attributes of its own: it reads what is under its key, sets its own attributes, and
adds an entry under its key. So the order has no part in whether a dictionary is decoded or a record
is encoded, nor in what comes of it, except that attributes are made and entries are added in
another order.

What a field comes to is compared with the same field in the other order by induction over the
fields inside it. From there it is carried over to lists of fields in two steps: the fields are
exchanged one by one for those with their own fields in the other order, and these are rearranged.

## Main definitions

* `Field.Reorders`, `Field.ReordersAll`
* `Value.Matches`, equality up to the order of attributes

## Main results

* `Field.takes_iff_of_reorders`, `Field.matches_value`
* `Field.rel_tree?`, `Field.ReordersAll.rel_entries?`
* `Descriptor.exists_decode_iff_of_reordersAll`, `Descriptor.exists_encode_iff_of_reordersAll`
* `Descriptor.order_irrelevant`
-/

namespace PropertyList

namespace Field

mutual

/-- Whether two fields differ in nothing but the order of the fields of the records in them. -/
def Reorders : Field → Field → Prop
  | scalar slot type default, g => g = scalar slot type default
  | nested slot fields, g => ∃ others, g = nested slot others ∧ ReordersAll fields others
  | array slot handler, g => g = array slot handler
  | custom slot handler, g => g = custom slot handler

/-- Whether the same fields are listed in any other order, up to the order of the fields of the
records in them. -/
def ReordersAll : List Field → List Field → Prop
  | [], others => others = []
  | f :: fields, others =>
    ∃ g rest, others.Perm (g :: rest) ∧ f.Reorders g ∧ ReordersAll fields rest

end

/-- Fields are rearranged, and then the fields of each record in them are. -/
theorem reordersAll_iff {fields others : List Field} :
    ReordersAll fields others ↔
      ∃ arranged, others.Perm arranged ∧ List.Forall₂ Reorders fields arranged := by
  induction fields generalizing others with
  | nil =>
    rw [ReordersAll]
    constructor
    · rintro rfl
      exact ⟨[], .refl _, .nil⟩
    · rintro ⟨arranged, hperm, harranged⟩
      cases harranged
      exact hperm.eq_nil
  | cons f fields ih =>
    rw [ReordersAll]
    constructor
    · rintro ⟨g, rest, hperm, hfirst, hrest⟩
      obtain ⟨arranged, hperm', harranged⟩ := ih.1 hrest
      exact ⟨g :: arranged, hperm.trans (hperm'.cons g), .cons hfirst harranged⟩
    · rintro ⟨arranged, hperm, harranged⟩
      cases harranged with
      | cons hfirst hrest => exact ⟨_, _, hperm, hfirst, ih.2 ⟨_, .refl _, hrest⟩⟩

variable {f g : Field} {fields others : List Field}

theorem Reorders.slot_eq (h : f.Reorders g) : g.slot = f.slot := by
  cases f with
  | nested slot fields =>
    obtain ⟨others, rfl, -⟩ := h
    rfl
  | _ =>
    obtain rfl := h
    rfl

theorem ReordersAll.perm_slots (h : ReordersAll fields others) :
    (fields.map slot).Perm (others.map slot) := by
  obtain ⟨arranged, hperm, harranged⟩ := reordersAll_iff.1 h
  have hslots : fields.map slot = arranged.map slot := by
    clear hperm h
    induction harranged with
    | nil => rfl
    | cons hfirst _ ih => rw [List.map_cons, List.map_cons, hfirst.slot_eq, ih]
  rw [hslots]
  exact (hperm.map slot).symm

theorem ReordersAll.perm_names (h : ReordersAll fields others) :
    (names fields).Perm (names others) := by
  have hnames (fields : List Field) : names fields = (fields.map slot).flatMap Slot.names := by
    rw [List.flatMap_map]
    rfl
  rw [hnames, hnames]
  exact h.perm_slots.flatMap_right _

theorem ReordersAll.perm_keys (h : ReordersAll fields others) :
    (fields.map key).Perm (others.map key) := by
  have hkeys (fields : List Field) : fields.map key = (fields.map slot).map Slot.key := by
    rw [List.map_map]
    rfl
  rw [hkeys, hkeys]
  exact h.perm_slots.map _

/-- Each field is listed among the others. -/
theorem ReordersAll.exists_right (h : ReordersAll fields others) :
    ∀ f ∈ fields, ∃ g ∈ others, f.Reorders g := by
  induction fields generalizing others with
  | nil => exact fun f hf => absurd hf List.not_mem_nil
  | cons f fields ih =>
    obtain ⟨g, rest, hperm, hfirst, hrest⟩ := h
    refine List.forall_mem_cons.2 ⟨⟨g, hperm.mem_iff.2 List.mem_cons_self, hfirst⟩,
      fun f' hf' => ?_⟩
    obtain ⟨g', hg', hreorders⟩ := ih hrest f' hf'
    exact ⟨g', hperm.mem_iff.2 (List.mem_cons_of_mem _ hg'), hreorders⟩

/-- No others are listed. -/
theorem ReordersAll.exists_left (h : ReordersAll fields others) :
    ∀ g ∈ others, ∃ f ∈ fields, f.Reorders g := by
  induction fields generalizing others with
  | nil =>
    obtain rfl : others = [] := h
    exact fun g hg => absurd hg List.not_mem_nil
  | cons f fields ih =>
    obtain ⟨g, rest, hperm, hfirst, hrest⟩ := h
    intro g' hg'
    obtain rfl | hg' := List.mem_cons.1 (hperm.mem_iff.1 hg')
    · exact ⟨f, List.mem_cons_self, hfirst⟩
    · obtain ⟨f', hf', hreorders⟩ := ih hrest g' hg'
      exact ⟨f', List.mem_cons_of_mem _ hf', hreorders⟩

/-- Fields in another order are regular as well. -/
theorem Reorders.regular (hf : f.Regular) (h : f.Reorders g) : g.Regular := by
  induction f, hf using regular_induction generalizing g with
  | scalar slot type default hadmits =>
    obtain rfl := h
    exact hadmits
  | nested slot fields hnodup hfields ih =>
    obtain ⟨others, rfl, h⟩ := h
    refine ⟨h.perm_names.nodup_iff.1 hnodup, allRegular_iff.2 fun g hg => ?_⟩
    obtain ⟨f, hf, hfg⟩ := h.exists_left g hg
    exact ih f hf hfg

theorem ReordersAll.regular (hfields : AllRegular fields) (h : ReordersAll fields others) :
    AllRegular others := by
  refine allRegular_iff.2 fun g hg => ?_
  obtain ⟨f, hf, hfg⟩ := h.exists_left g hg
  exact hfg.regular (allRegular_iff.1 hfields f hf)

/-! ### Decoding -/

theorem Reorders.accepts_iff {h : Heap} {dict : ObjectId} (hfg : f.Reorders g)
    (htakes : ∀ id, f.Takes h id ↔ g.Takes h id) : f.Accepts h dict ↔ g.Accepts h dict := by
  rw [Accepts, Accepts, hfg.slot_eq]
  exact and_congr_right fun _ => forall₂_congr fun id _ => htakes id

/-- Fields in another order accept the same dictionaries. -/
theorem ReordersAll.allAccept_iff {h : Heap} {dict : ObjectId}
    (hreorders : ReordersAll fields others)
    (htakes : ∀ f ∈ fields, ∀ g, f.Reorders g → ∀ id, f.Takes h id ↔ g.Takes h id) :
    AllAccept h dict fields ↔ AllAccept h dict others := by
  rw [Field.allAccept_iff, Field.allAccept_iff]
  constructor
  · intro haccept g hg
    obtain ⟨f, hf, hfg⟩ := hreorders.exists_left g hg
    exact (hfg.accepts_iff (htakes f hf g hfg)).1 (haccept f hf)
  · intro haccept f hf
    obtain ⟨g, hg, hfg⟩ := hreorders.exists_right f hf
    exact (hfg.accepts_iff (htakes f hf g hfg)).2 (haccept g hg)

/-- A field takes the same objects if the fields of records are in another order. -/
theorem takes_iff_of_reorders (hf : f.Regular) (hfg : f.Reorders g) (h : Heap) (id : ObjectId) :
    f.Takes h id ↔ g.Takes h id := by
  induction f, hf using regular_induction generalizing g id with
  | scalar slot type default hadmits =>
    obtain rfl := hfg
    exact Iff.rfl
  | nested slot fields hnodup hfields ih =>
    obtain ⟨others, rfl, hreorders⟩ := hfg
    exact and_congr_right fun _ => hreorders.allAccept_iff fun f hf g hfg id => ih f hf hfg id

end Field

namespace Value

mutual

/-- Whether two values are the same up to the order of the attributes of records, at every level. -/
def Matches : Value → Value → Prop
  | record attributes, w =>
    w = record attributes ∨ ∃ others, w = record others ∧
      (attributes.map Prod.fst).Perm (others.map Prod.fst) ∧ AllMatch attributes others
  | v, w => w = v

/-- Whether each attribute is among the others, with the same value up to the order of the
attributes of records. -/
def AllMatch : List (String × Value) → List (String × Value) → Prop
  | [], _ => True
  | (name, v) :: attributes, others =>
    (∃ w, others.lookup name = some w ∧ v.Matches w) ∧ AllMatch attributes others

end

theorem Matches.refl (v : Value) : v.Matches v := by
  cases v with
  | record attributes => exact .inl rfl
  | _ => rfl

theorem allMatch_iff {attributes others : List (String × Value)} :
    AllMatch attributes others ↔
      ∀ entry ∈ attributes, ∃ w, others.lookup entry.1 = some w ∧ entry.2.Matches w := by
  induction attributes with
  | nil => simp [AllMatch]
  | cons entry attributes ih => rw [AllMatch, ih, List.forall_mem_cons]

end Value

namespace Field

variable {f g : Field} {fields others : List Field}

/-- The attributes of fields are the entries of their slots. -/
theorem mem_attributes_iff {h : Heap} {dict : Option ObjectId} {entry : String × Value} :
    entry ∈ attributes h dict fields ↔ ∃ f ∈ fields,
      entry ∈ f.slot.entries (h.entry? dict f.slot.key).isSome
        (f.value h (h.entry? dict f.slot.key)) := by
  induction fields with
  | nil => simp [attributes]
  | cons f fields ih => rw [attributes, List.mem_append, ih, List.exists_mem_cons_iff]

/-- Fields in another order make the same attributes. -/
theorem ReordersAll.allMatch_attributes {h : Heap} {dict : Option ObjectId}
    (hreorders : ReordersAll fields others) (hnodup : (names others).Nodup)
    (hvalue : ∀ f ∈ fields, ∀ g, f.Reorders g → ∀ source,
      (f.value h source).Matches (g.value h source)) :
    Value.AllMatch (attributes h dict fields) (attributes h dict others) := by
  refine Value.allMatch_iff.2 fun entry hentry => ?_
  obtain ⟨f, hf, hentry⟩ := mem_attributes_iff.1 hentry
  obtain ⟨g, hg, hfg⟩ := hreorders.exists_right f hf
  obtain ⟨hname, htracker⟩ :=
    attribute?_attributes h dict hnodup [] (List.disjoint_nil_right _) g hg
  rw [hfg.slot_eq] at hname htracker
  obtain hmark | hentry := List.mem_append.1 hentry
  · obtain ⟨tracker, htracked, rfl⟩ := List.mem_map.1 hmark
    exact ⟨_, htracker tracker (Option.mem_toList.1 htracked), .refl _⟩
  · obtain rfl := List.mem_singleton.1 hentry
    exact ⟨_, hname, hvalue f hf g hfg _⟩

/-- What is under a key comes to the same value if the fields of records are in another order. -/
theorem matches_value (hf : f.Regular) (hfg : f.Reorders g) (h : Heap)
    (source : Option ObjectId) : (f.value h source).Matches (g.value h source) := by
  induction f, hf using regular_induction generalizing g source with
  | scalar slot type default hadmits =>
    obtain rfl := hfg
    exact .refl _
  | nested slot fields hnodup hfields ih =>
    obtain ⟨others, rfl, hreorders⟩ := hfg
    refine .inr ⟨attributes h source others, rfl, ?_,
      hreorders.allMatch_attributes (hreorders.perm_names.nodup_iff.1 hnodup)
        fun f hf g hfg source => ih f hf hfg source⟩
    rw [map_fst_attributes, map_fst_attributes]
    exact hreorders.perm_names

/-! ### Encoding -/

variable {s : Store} {record : Value}

/-- What is written under the key of a field is the same as what is written otherwise. -/
def SameEntry (e e' : Text × Tree) : Prop :=
  e.1 = e'.1 ∧ e.2.same e'.2

theorem Reorders.rel_entry? (hfg : f.Reorders g)
    (htree : ∀ v, Option.Rel (fun t u => t.same u) (f.tree? s v) (g.tree? s v)) (record : Value) :
    Option.Rel (List.Forall₂ SameEntry) (f.slot.entry? s record (f.tree? s))
      (g.slot.entry? s record (g.tree? s)) := by
  rw [Slot.entry?, Slot.entry?, hfg.slot_eq]
  cases f.slot.mark? s record with
  | none => exact .none
  | some present =>
    cases present with
    | false => exact .some .nil
    | true =>
      cases record.attribute? f.slot.name with
      | none => exact .none
      | some v =>
        have hv := htree v
        simp only [Option.bind_some]
        cases hf : f.tree? s v <;> cases hg : g.tree? s v <;> rw [hf, hg] at hv <;> cases hv
        · exact .none
        · exact .some (.cons ⟨rfl, ‹_›⟩ .nil)

/-- Fields that are matched one by one have the same entries, one by one. -/
theorem rel_entries?_of_forall₂ (hreorders : List.Forall₂ Reorders fields others)
    (htree : ∀ f ∈ fields, ∀ g, f.Reorders g → ∀ v,
      Option.Rel (fun t u => t.same u) (f.tree? s v) (g.tree? s v)) (record : Value) :
    Option.Rel (List.Forall₂ SameEntry) (entries? s record fields) (entries? s record others) := by
  induction hreorders with
  | nil =>
    rw [entries?]
    exact .some .nil
  | cons hfirst _ ih =>
    obtain ⟨hf, hfields⟩ := List.forall_mem_cons.1 htree
    have hown := hfirst.rel_entry? (hf _ hfirst) record
    have hrest := ih hfields
    rw [entries?, entries?]
    generalize Slot.entry? _ s record _ = own at hown ⊢
    generalize Slot.entry? _ s record _ = own' at hown ⊢
    generalize entries? s record _ = rest at hrest ⊢
    generalize entries? s record _ = rest' at hrest ⊢
    cases hown with
    | none => exact .none
    | some hown =>
      cases hrest with
      | none => exact .none
      | some hrest => exact .some (List.rel_append hown hrest)

/-- Fields that are listed in another order have their entries in another order. -/
theorem exists_perm_entries? (hperm : fields.Perm others) {entries : List (Text × Tree)}
    (h : entries? s record fields = some entries) :
    ∃ entries', entries? s record others = some entries' ∧ entries.Perm entries' := by
  induction hperm generalizing entries with
  | nil => exact ⟨entries, h, .refl _⟩
  | cons f _ ih =>
    obtain ⟨own, rest, rfl, hown, hrest⟩ := entries?_cons_eq_some_iff.1 h
    obtain ⟨rest', hrest', hperm⟩ := ih hrest
    exact ⟨own ++ rest', entries?_cons_eq_some_iff.2 ⟨own, rest', rfl, hown, hrest'⟩,
      hperm.append_left own⟩
  | swap f g fields =>
    obtain ⟨own, _, rfl, hown, hfields⟩ := entries?_cons_eq_some_iff.1 h
    obtain ⟨own', rest, rfl, hown', hrest⟩ := entries?_cons_eq_some_iff.1 hfields
    refine ⟨own' ++ (own ++ rest), entries?_cons_eq_some_iff.2 ⟨own', _, rfl, hown',
      entries?_cons_eq_some_iff.2 ⟨own, rest, rfl, hown, hrest⟩⟩, ?_⟩
    rw [← List.append_assoc, ← List.append_assoc]
    exact List.perm_append_comm.append_right rest
  | trans _ _ ih ih' =>
    obtain ⟨entries', h', hperm⟩ := ih h
    obtain ⟨entries'', h'', hperm'⟩ := ih' h'
    exact ⟨entries'', h'', hperm.trans hperm'⟩

/-- Entries with different keys that are matched one by one, and then listed in another order, make
the same dictionary. -/
theorem same_dict_of_perm {entries others arranged : List (Text × Tree)}
    (hsame : List.Forall₂ SameEntry entries arranged) (hperm : others.Perm arranged)
    (hnodup : (others.map (·.1)).Nodup) : (Tree.dict entries).same (.dict others) := by
  refine Tree.same_dict_iff.2 ⟨hsame.length_eq.trans hperm.length_eq.symm, fun e he => ?_⟩
  obtain ⟨i, hi, rfl⟩ := List.mem_iff_getElem.1 he
  have hi' : i < arranged.length := hsame.length_eq ▸ hi
  obtain ⟨hkey, hvalue⟩ : SameEntry entries[i] arranged[i] := hsame.get hi hi'
  rw [hkey]
  exact ⟨arranged[i].2, Dict.lookup_of_mem hnodup (hperm.mem_iff.2 (List.getElem_mem hi')), hvalue⟩

/-- Fields in another order have the same entries, up to their order. -/
theorem ReordersAll.rel_entries? (hreorders : ReordersAll fields others)
    (hnodup : (fields.map key).Nodup)
    (htree : ∀ f ∈ fields, ∀ g, f.Reorders g → ∀ v,
      Option.Rel (fun t u => t.same u) (f.tree? s v) (g.tree? s v)) (record : Value) :
    Option.Rel (fun entries entries' => (Tree.dict entries).same (.dict entries'))
      (entries? s record fields) (entries? s record others) := by
  obtain ⟨arranged, hperm, harranged⟩ := reordersAll_iff.1 hreorders
  have hrel := rel_entries?_of_forall₂ harranged htree record
  cases hothers : entries? s record others with
  | none =>
    have hnone : entries? s record arranged = none := by
      refine Option.eq_none_iff_forall_ne_some.2 fun entries hentries => ?_
      obtain ⟨entries', hentries', -⟩ := exists_perm_entries? hperm.symm hentries
      rw [hothers] at hentries'
      cases hentries'
    rw [hnone] at hrel
    cases hfields : entries? s record fields with
    | none => exact .none
    | some entries =>
      rw [hfields] at hrel
      cases hrel
  | some entries' =>
    obtain ⟨_, harranged', hentries⟩ := exists_perm_entries? hperm hothers
    -- Since no field has the key of another one, an entry is found by its key wherever it stands.
    have hdistinct : (entries'.map (·.1)).Nodup :=
      (hreorders.perm_keys.nodup_iff.1 hnodup).sublist
        (allWritten_of_entries? others hothers).map_fst_sublist
    rw [harranged'] at hrel
    cases hfields : entries? s record fields with
    | none =>
      rw [hfields] at hrel
      cases hrel
    | some entries =>
      rw [hfields] at hrel
      cases hrel with
      | some hsame => exact .some (same_dict_of_perm hsame hentries hdistinct)

/-- A value is written as the same tree if the fields of records are in another order. -/
theorem rel_tree? (hf : f.Regular) (hkeyed : f.Every DistinctKeys) (hfg : f.Reorders g)
    (s : Store) (v : Value) :
    Option.Rel (fun t u => t.same u) (f.tree? s v) (g.tree? s v) := by
  induction f, hf using regular_induction generalizing g v with
  | scalar slot type default hadmits =>
    obtain rfl := hfg
    rw [tree?]
    cases (Scalar.write type s v).toOption with
    | none => exact .none
    | some text => exact .some (beq_self_eq_true text)
  | nested slot fields hnodup hfields ih =>
    obtain ⟨others, rfl, hreorders⟩ := hfg
    have hrel := hreorders.rel_entries? hkeyed.1 (fun f hf g hfg v =>
      ih f hf (allEvery_iff.1 hkeyed.2 f hf) hfg v) v
    rw [tree?, tree?]
    generalize entries? s v fields = entries at hrel ⊢
    generalize entries? s v others = entries' at hrel ⊢
    cases hrel with
    | none => exact .none
    | some hsame => exact .some hsame

end Field

/-! ### Descriptors -/

namespace Descriptor

variable {d d' : Descriptor}

theorem Regular.of_reordersAll (hd : d.Regular)
    (h : Field.ReordersAll d.fields d'.fields) : d'.Regular :=
  ⟨h.perm_names.nodup_iff.1 hd.1, h.regular hd.2⟩

/-- Descriptors with the fields in another order decode the same dictionaries. -/
theorem exists_decode_iff_of_reordersAll (hd : d.Regular)
    (h : Field.ReordersAll d.fields d'.fields) {dict : ObjectId} {s : Session} {fresh : Bool}
    (hdict : s.store.heap.kind dict = .dict) (hfresh : fresh = true ∨ s.record = .emptyRecord) :
    (∃ s', d.decode dict fresh s = .ok () s') ↔ ∃ s', d'.decode dict fresh s = .ok () s' := by
  rw [(turnsIf_decode hd hdict hfresh).exists_ok_iff s.calls,
    (turnsIf_decode (hd.of_reordersAll h) hdict hfresh).exists_ok_iff s.calls]
  exact h.allAccept_iff fun f hf g hfg id =>
    Field.takes_iff_of_reorders (Field.allRegular_iff.1 hd.2 f hf) hfg _ id

/-- The record that a dictionary is decoded into has the attributes of its fields. -/
theorem record_eq_of_decode (hd : d.Regular) {dict : ObjectId} {s s' : Session} {fresh : Bool}
    (hdict : s.store.heap.kind dict = .dict) (hfresh : fresh = true ∨ s.record = .emptyRecord)
    (hdecode : d.decode dict fresh s = .ok () s') :
    s'.record = .record (Field.attributes s.store.heap (some dict) d.fields) := by
  have hturns := turnsIf_decode hd hdict hfresh
  obtain ⟨calls, hrun⟩ := hturns.turns ((hturns.exists_ok_iff s.calls).1 ⟨s', hdecode⟩) s.calls
  cases hdecode.symm.trans hrun
  rfl

/-- Descriptors with the fields in another order decode a dictionary into the same record, up to
the order of attributes. -/
theorem matches_decode_of_reordersAll (hd : d.Regular)
    (h : Field.ReordersAll d.fields d'.fields) {dict : ObjectId} {s s₁ s₂ : Session} {fresh : Bool}
    (hdict : s.store.heap.kind dict = .dict) (hfresh : fresh = true ∨ s.record = .emptyRecord)
    (hdecode : d.decode dict fresh s = .ok () s₁) (hdecode' : d'.decode dict fresh s = .ok () s₂) :
    s₁.record.Matches s₂.record := by
  have hd' := hd.of_reordersAll h
  rw [record_eq_of_decode hd hdict hfresh hdecode, record_eq_of_decode hd' hdict hfresh hdecode']
  refine .inr ⟨_, rfl, ?_, h.allMatch_attributes hd'.1 fun f hf g hfg source =>
    Field.matches_value (Field.allRegular_iff.1 hd.2 f hf) hfg _ source⟩
  rw [Field.map_fst_attributes, Field.map_fst_attributes]
  exact h.perm_names

/-- A record that is encoded has entries, and the dictionary made owns what they have been written
as. -/
theorem owns_of_encode (hd : d.Regular)
    {s s₁ s₂ : Store} (hs : s.Extends s₁) {record : Value} (hrecord : record.Within s.heap)
    {id : ObjectId} (hencode : d.encode record s₁ = .ok id s₂) :
    ∃ entries foot, Field.entries? s record d.fields = some entries ∧
      (Tree.dict entries).UniqueKeys ∧ s₂.heap.Owns id (.dict entries) foot ∧ foot.Nodup ∧
      s₁.Extends s₂ := by
  obtain ⟨entries, feet, hentries, hlists, hh⟩ :=
    (ends_encode_entries hd.allEvery_noCallbacks hs hrecord).of_eq_ok hencode
  obtain ⟨foot, howns, hnodup⟩ := hh.owns_first
  exact ⟨entries, foot, hentries,
    (Field.allWritten_of_entries? d.fields hentries).uniqueKeys d.nodup_keys d.distinctKeys,
    howns, hnodup,
    .of_holds (.refl s₁) hlists hh⟩

/-- Encoding succeeds if and only if the record has entries. -/
theorem exists_encode_iff (hd : d.Regular)
    {s s₁ : Store} (hs : s.Extends s₁) {record : Value} (hrecord : record.Within s.heap) :
    (∃ id s₂, d.encode record s₁ = .ok id s₂) ↔
      (Field.entries? s record d.fields).isSome = true := by
  obtain ⟨id, s₂, hencode, entries, feet, hentries, -⟩ | ⟨failure, s₂, hencode, hnone⟩ :=
    ends_iff.1 (ends_encode_entries hd.allEvery_noCallbacks hs hrecord)
  · rw [hentries]
    exact iff_of_true ⟨id, s₂, hencode⟩ rfl
  · rw [hnone, hencode]
    exact iff_of_false nofun nofun

/-- Encoding only adds to the store, and what is added to it afterwards leaves the tree of the
dictionary as it is. -/
theorem extends_of_encode (hd : d.Regular)
    {s s₁ s₂ : Store} (hs : s.Extends s₁) {record : Value} (hrecord : record.Within s.heap)
    {id : ObjectId} (hencode : d.encode record s₁ = .ok id s₂) :
    s₁.Extends s₂ ∧ ∀ s₃, s₂.Extends s₃ → s₃.heap.tree id = s₂.heap.tree id := by
  obtain ⟨entries, foot, -, hunique, howns, hnodup, hs₂⟩ :=
    owns_of_encode hd hs hrecord hencode
  refine ⟨hs₂, fun s₃ hs₃ => ?_⟩
  rw [howns.tree_eq hnodup hunique, (hs₃.owns howns).tree_eq hnodup hunique]

theorem rel_entries?_of_reordersAll (hd : d.Regular)
    (h : Field.ReordersAll d.fields d'.fields) (s : Store) (record : Value) :
    Option.Rel (fun entries entries' => (Tree.dict entries).same (.dict entries'))
      (Field.entries? s record d.fields) (Field.entries? s record d'.fields) :=
  h.rel_entries? d.nodup_keys (fun f hf _ hfg v =>
    Field.rel_tree? (Field.allRegular_iff.1 hd.2 f hf) (Field.allEvery_iff.1 d.distinctKeys f hf) hfg s v)
    record

/-- Descriptors with the fields in another order encode the same records, also in stores to which
something has been added. -/
theorem exists_encode_iff_of_reordersAll (hd : d.Regular)
    (h : Field.ReordersAll d.fields d'.fields) {s s₁ s₂ : Store} (hs₁ : s.Extends s₁)
    (hs₂ : s.Extends s₂) {record : Value} (hrecord : record.Within s.heap) :
    (∃ id s', d.encode record s₁ = .ok id s') ↔ ∃ id s', d'.encode record s₂ = .ok id s' := by
  have hrel := rel_entries?_of_reordersAll hd h s record
  rw [exists_encode_iff hd hs₁ hrecord,
    exists_encode_iff (hd.of_reordersAll h) hs₂ hrecord]
  generalize Field.entries? s record d.fields = entries at hrel ⊢
  generalize Field.entries? s record d'.fields = entries' at hrel ⊢
  cases hrel <;> exact Iff.rfl

/-- The dictionaries that they make are equal. -/
theorem same_encode_of_reordersAll (hd : d.Regular)
    (h : Field.ReordersAll d.fields d'.fields) {s s₁ s₁' s₂ s₂' : Store} (hs₁ : s.Extends s₁)
    (hs₂ : s.Extends s₂) {record : Value} (hrecord : record.Within s.heap) {id id' : ObjectId}
    (hencode : d.encode record s₁ = .ok id s₁') (hencode' : d'.encode record s₂ = .ok id' s₂') :
    (s₁'.heap.tree id).same (s₂'.heap.tree id') := by
  have hrel := rel_entries?_of_reordersAll hd h s record
  obtain ⟨entries, foot, hentries, hunique, howns, hnodup, -⟩ :=
    owns_of_encode hd hs₁ hrecord hencode
  obtain ⟨entries', foot', hentries', hunique', howns', hnodup', -⟩ :=
    owns_of_encode (hd.of_reordersAll h) hs₂ hrecord hencode'
  rw [hentries, hentries'] at hrel
  cases hrel with
  | some hsame =>
    rw [howns.tree_eq hnodup hunique, howns'.tree_eq hnodup' hunique']
    exact Tree.same_arrange_arrange hunique hunique' hsame

/-- **The order of fields does not matter.** For two descriptors of scalars and records that list
the same fields in different orders, at any level, a dictionary can be decoded with both of them or
with neither, and then into records with the same attributes and the same values at every level; and
a record can be encoded with both of them or with neither, and then the dictionaries are equal,
whether the second one is made beside the first one or instead of it. -/
theorem order_irrelevant (hd : d.Regular)
    (h : Field.ReordersAll d.fields d'.fields) :
    (∀ (dict : ObjectId) (s : Session) (fresh : Bool), s.store.heap.kind dict = .dict →
      fresh = true ∨ s.record = .emptyRecord →
        ((∃ s₁, d.decode dict fresh s = .ok () s₁) ↔ ∃ s₂, d'.decode dict fresh s = .ok () s₂) ∧
        ∀ s₁ s₂, d.decode dict fresh s = .ok () s₁ → d'.decode dict fresh s = .ok () s₂ →
          s₁.record.Matches s₂.record) ∧
    ∀ (record : Value) (s : Store), record.Within s.heap →
      ((∃ id s₁, d.encode record s = .ok id s₁) ↔ ∃ id s₂, d'.encode record s = .ok id s₂) ∧
      ∀ id s₁, d.encode record s = .ok id s₁ →
        (∀ id' s₂, d'.encode record s = .ok id' s₂ →
          (s₁.heap.tree id).same (s₂.heap.tree id')) ∧
        ∃ id' s₂, d'.encode record s₁ = .ok id' s₂ ∧
          (s₂.heap.tree id).same (s₂.heap.tree id') := by
  refine ⟨fun dict s fresh hdict hfresh =>
    ⟨exists_decode_iff_of_reordersAll hd h hdict hfresh, fun s₁ s₂ hdecode hdecode' =>
      matches_decode_of_reordersAll hd h hdict hfresh hdecode hdecode'⟩,
    fun record s hrecord => ?_⟩
  have hs : s.Extends s := .refl s
  refine ⟨exists_encode_iff_of_reordersAll hd h hs hs hrecord, fun id s₁ hencode =>
    ⟨fun id' s₂ hencode' =>
      same_encode_of_reordersAll hd h hs hs hrecord hencode hencode', ?_⟩⟩
  obtain ⟨hs₁, htree⟩ := extends_of_encode hd hs hrecord hencode
  obtain ⟨id', s₂, hencode'⟩ :=
    (exists_encode_iff_of_reordersAll hd h hs hs₁ hrecord).1 ⟨id, s₁, hencode⟩
  obtain ⟨hs₂, -⟩ :=
    extends_of_encode (hd.of_reordersAll h) hs₁ hrecord hencode'
  refine ⟨id', s₂, hencode', ?_⟩
  -- The first dictionary is still what it was when the second one has been made.
  rw [htree s₂ hs₂]
  exact same_encode_of_reordersAll hd h hs hs₁ hrecord hencode hencode'

/-- A descriptor of a crate: its weight and, in a record of its own, its width and its height. -/
def crate : Descriptor where
  fields :=
    [.scalar ⟨"weight", "weight", some "has_weight", false, 0⟩ .uint64 (.int 0),
      .nested ⟨"size", "size", none, true, 0⟩
        [.scalar ⟨"width", "width", none, true, 0⟩ .int64 (.int 1),
          .scalar ⟨"height", "height", none, true, 0⟩ .int64 (.int 1)]]
  nodup_keys := by decide
  distinctKeys := by decide

/-- The descriptor of a crate the other way round. -/
def crateReversed : Descriptor where
  fields :=
    [.nested ⟨"size", "size", none, true, 0⟩
        [.scalar ⟨"height", "height", none, true, 0⟩ .int64 (.int 1),
          .scalar ⟨"width", "width", none, true, 0⟩ .int64 (.int 1)],
      .scalar ⟨"weight", "weight", some "has_weight", false, 0⟩ .uint64 (.int 0)]
  nodup_keys := by decide
  distinctKeys := by decide

/-- The dictionary of a crate of unknown weight, and its parts. -/
def crateHeap : Heap where
  objects :=
    #[⟨1, .dict (Dict.empty.add "size" 1)⟩,
      ⟨1, .dict ((Dict.empty.add "height" 2).add "width" 3)⟩, ⟨1, .string "15"⟩, ⟨1, .string "20"⟩]
  live := 4

/-- A crate of weight three. -/
def filledCrate : Value :=
  .record [("has_weight", .bool true), ("weight", .int 3),
    ("size", .record [("width", .int 20), ("height", .int 15)])]

/-- A crate is decoded and encoded the other way round as well, with its attributes in the order of
the fields. -/
theorem order_irrelevant_crate :
    crate.Regular ∧ Field.ReordersAll crate.fields crateReversed.fields ∧
    crateHeap.kind 0 = .dict ∧ filledCrate.Within Heap.empty ∧
    (∃ s₁ s₂, crate.decode 0 true ⟨.null, ⟨crateHeap, #[]⟩, []⟩ = .ok () s₁ ∧
      crateReversed.decode 0 true ⟨.null, ⟨crateHeap, #[]⟩, []⟩ = .ok () s₂ ∧
      s₁.record.names? = some ["has_weight", "weight", "size"] ∧
      s₂.record.names? = some ["size", "has_weight", "weight"] ∧
      s₁.record.Matches s₂.record) ∧
    ∃ id s₁ id' s₂, crate.encode filledCrate .empty = .ok id s₁ ∧
      crateReversed.encode filledCrate s₁ = .ok id' s₂ ∧
      (s₂.heap.tree id).same (s₂.heap.tree id') := by
  have hd : crate.Regular :=
    ⟨by decide, trivial, ⟨by decide, trivial, trivial, trivial⟩, trivial⟩
  have hreversed : Field.ReordersAll crate.fields crateReversed.fields :=
    ⟨_, _, .swap _ _ _, rfl, _, _, .refl _,
      ⟨_, rfl, _, _, .swap _ _ _, rfl, _, _, .refl _, rfl, rfl⟩, rfl⟩
  have hdict : crateHeap.kind 0 = .dict := rfl
  have hwithin : filledCrate.Within Heap.empty :=
    ⟨trivial, trivial, ⟨trivial, trivial, trivial⟩, trivial⟩
  obtain ⟨hdecoding, hencoding⟩ := order_irrelevant hd hreversed
  refine ⟨hd, hreversed, hdict, hwithin, ?_, ?_⟩
  · obtain ⟨hiff, hmatches⟩ :=
      hdecoding 0 ⟨.null, ⟨crateHeap, #[]⟩, []⟩ true hdict (.inl rfl)
    have hrun : (crate.decode 0 true).run' ⟨.null, ⟨crateHeap, #[]⟩, []⟩ = some () := by
      decide +kernel
    cases hdecode : crate.decode 0 true ⟨.null, ⟨crateHeap, #[]⟩, []⟩ with
    | error failure s₁ =>
      rw [EStateM.run', EStateM.run, hdecode] at hrun
      cases hrun
    | ok _ s₁ =>
      obtain ⟨s₂, hdecode'⟩ := hiff.1 ⟨s₁, hdecode⟩
      refine ⟨s₁, s₂, rfl, hdecode', ?_, ?_, hmatches s₁ s₂ hdecode hdecode'⟩
      · rw [record_eq_of_decode hd hdict (.inl rfl) hdecode]
        exact congrArg some (Field.map_fst_attributes _ _ _)
      · rw [record_eq_of_decode (hd.of_reordersAll hreversed) hdict (.inl rfl) hdecode']
        exact congrArg some (Field.map_fst_attributes _ _ _)
  · obtain ⟨id, s₁, hencode⟩ :=
      (exists_encode_iff hd (.refl .empty) hwithin).2 (by decide +kernel)
    obtain ⟨-, hsame⟩ := hencoding filledCrate .empty hwithin
    obtain ⟨-, id', s₂, hencode', htrees⟩ := hsame id s₁ hencode
    exact ⟨id, s₁, id', s₂, hencode, hencode', htrees⟩

end Descriptor

end PropertyList

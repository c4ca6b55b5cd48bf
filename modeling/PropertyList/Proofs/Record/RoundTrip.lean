import PropertyList.Proofs.Record.Written

/-!
# Encoding and decoding again

A record *conforms* to fields if its marks are truth values and the attributes that are not marked
as absent have values of the types of their fields. Such a record is encoded, and decoding the
dictionary gives its values back, apart from those of the absent keys, which have their initial
values again.

A record with other values may be encoded as well. Then its dictionary can be decoded unless it has
a text that does not fit its buffer, since the length of a `charbuf` is not looked at when a record
is encoded.

## Main definitions

* `Field.Conforms`, `Field.AllConform`
* `Field.Restores`, `Field.AllRestore`, what encoding and decoding again comes to
* `Field.Fits`, `Field.AllFit`, dictionaries whose texts fit their buffers

## Main results

* `Descriptor.decode_encode`
* `Descriptor.exists_decode_encode_iff`
-/

namespace PropertyList

/-! ### Marks -/

namespace Slot

variable {slot : Slot} {record : Value} {present : Bool}

theorem Tells.counts_iff (htells : slot.Tells record present) {b : Bool} :
    slot.Counts record b ↔ b = present := by
  unfold Tells at htells
  unfold Counts
  cases htracker : slot.tracker? with
  | none =>
    rw [htracker] at htells
    rw [show present = true from htells]
  | some tracker =>
    rw [htracker] at htells
    refine ⟨?_, fun hb => ⟨.bool present, .empty, htells, hb.symm⟩⟩
    rintro ⟨mark, s, hmark, hb⟩
    rw [show record.attribute? tracker = some (.bool present) from htells] at hmark
    rw [← hb, ← Option.some.inj hmark]
    rfl

theorem Tells.canTell (htells : slot.Tells record present) : slot.CanTell record := by
  intro tracker htracker
  unfold Tells at htells
  rw [htracker] at htells
  rw [show record.attribute? tracker = some (.bool present) from htells]
  rfl

/-- Another record with the same mark tells the same. -/
theorem Tells.of_mark {record' : Value} (htells : slot.Tells record present)
    (hmark : ∀ tracker, slot.tracker? = some tracker →
      record'.attribute? tracker = some (.bool present)) : slot.Tells record' present := by
  unfold Tells at htells ⊢
  cases htracker : slot.tracker? with
  | none =>
    rw [htracker] at htells
    exact htells
  | some tracker => exact hmark tracker htracker

end Slot

namespace Field

/-! ### Conforming records -/

mutual

/-- Whether a value is one of a field: a value of the type of a scalar, or a record that conforms to
the fields of a record. -/
def Conforms : Field → Value → Prop
  | scalar _ type _, v => type.Conforms v
  | nested _ fields, v => v.names?.isSome = true ∧ AllConform fields v
  | array _ _, _ | custom _ _, _ => False

/-- Whether the marks of a record are truth values, with keys that are required marked as present,
and the attributes that are not marked as absent have values of their fields. -/
def AllConform : List Field → Value → Prop
  | [], _ => True
  | f :: fields, record =>
    (∃ present, f.slot.Tells record present ∧ (f.slot.required = true → present = true) ∧
      (present = true → ∃ v, record.attribute? f.slot.name = some v ∧ f.Conforms v)) ∧
    AllConform fields record

end

mutual

/-- Whether `v'` is what comes of a value `v` of a field: the value itself for a scalar, and a
record with the attributes of its fields and no others for a record. -/
def Restores : Field → Value → Value → Prop
  | scalar _ _ _, v, v' => v' = v
  | nested _ fields, v, v' => v'.names? = some (names fields) ∧ AllRestore fields v v'
  | array _ _, _, _ | custom _ _, _, _ => False

/-- Whether a record has the marks of another, what comes of its values where these are not marked
as absent, and the initial values where they are. -/
def AllRestore : List Field → Value → Value → Prop
  | [], _, _ => True
  | f :: fields, record, record' =>
    (∃ present v', f.slot.Tells record present ∧ f.slot.Tells record' present ∧
      record'.attribute? f.slot.name = some v' ∧
        if present then ∃ v, record.attribute? f.slot.name = some v ∧ f.Restores v v'
        else v' = f.initial) ∧
    AllRestore fields record record'

end

theorem allConform_iff {fields : List Field} {record : Value} :
    AllConform fields record ↔ ∀ f ∈ fields, ∃ present, f.slot.Tells record present ∧
      (f.slot.required = true → present = true) ∧
        (present = true → ∃ v, record.attribute? f.slot.name = some v ∧ f.Conforms v) := by
  induction fields with
  | nil => simp [AllConform]
  | cons f fields ih => rw [AllConform, List.forall_mem_cons, ih]

theorem allRestore_iff {fields : List Field} {record record' : Value} :
    AllRestore fields record record' ↔ ∀ f ∈ fields, ∃ present v', f.slot.Tells record present ∧
      f.slot.Tells record' present ∧ record'.attribute? f.slot.name = some v' ∧
        if present then ∃ v, record.attribute? f.slot.name = some v ∧ f.Restores v v'
        else v' = f.initial := by
  induction fields with
  | nil => simp [AllRestore]
  | cons f fields ih => rw [AllRestore, List.forall_mem_cons, ih]

theorem allWritable_iff {fields : List Field} {record : Value} :
    AllWritable record fields ↔ ∀ f ∈ fields, f.slot.CanAdd record f.Writable := by
  induction fields with
  | nil => simp [AllWritable]
  | cons f fields ih => rw [AllWritable, List.forall_mem_cons, ih]

theorem allWritable_of_allConform {fields : List Field} {record : Value}
    (hfields : ∀ f ∈ fields, ∀ v, f.Conforms v → f.Writable v)
    (hrecord : AllConform fields record) : AllWritable record fields := by
  refine allWritable_iff.2 fun f hf => ?_
  obtain ⟨present, htells, -, hvalue⟩ := allConform_iff.1 hrecord f hf
  refine ⟨htells.canTell, fun hcounts => ?_⟩
  obtain ⟨v, hv, hconforms⟩ := hvalue (htells.counts_iff.1 hcounts).symm
  exact ⟨v, hv, hfields f hf v hconforms⟩

/-- A value that conforms is written. -/
theorem writable_of_conforms (f : Field) (hf : f.Regular) : ∀ v, f.Conforms v → f.Writable v := by
  induction f, hf using regular_induction with
  | scalar slot type default _ =>
    exact fun v hv s => ⟨_, Scalar.write_eq_canonical hv s⟩
  | nested slot fields _ _ ih =>
    exact fun v hv => allWritable_of_allConform ih hv.2

/-! ### Reading records back -/

variable {h : Heap} {id : ObjectId} {foot : List ObjectId}

/-- A dictionary that has been written for a conforming record is accepted, and gives it back. -/
theorem allRestore_attributes {fields : List Field} {record : Value} {entries : List (Text × Tree)}
    (hregular : ∀ f ∈ fields, f.Regular) (hnodup : (names fields).Nodup)
    (hkeys : (fields.map key).Nodup)
    (hfields : ∀ f ∈ fields, ∀ v t i foot, f.Conforms v → f.WrittenAs v t → h.Owns i t foot →
      f.Takes h i ∧ f.Restores v (f.value h (some i)))
    (hrecord : AllConform fields record) (hwritten : AllWritten record fields entries)
    (howns : h.Owns id (.dict entries) foot) :
    AllAccept h id fields ∧
      AllRestore fields record (.record (attributes h (some id) fields)) := by
  have hfield : ∀ f ∈ fields, f.Accepts h id ∧
      ∃ present v', f.slot.Tells record present ∧
        f.slot.Tells (.record (attributes h (some id) fields)) present ∧
          (Value.record (attributes h (some id) fields)).attribute? f.slot.name = some v' ∧
            if present then ∃ v, record.attribute? f.slot.name = some v ∧ f.Restores v v'
            else v' = f.initial := by
    intro f hf
    obtain ⟨present, htells, hrequired, hvalue⟩ := allConform_iff.1 hrecord f hf
    obtain ⟨hname, hmark⟩ := attribute?_attributes h (some id) hnodup []
      (List.disjoint_nil_right _) f hf
    rw [List.nil_append] at hname hmark
    obtain ⟨hcounts, hentry⟩ | ⟨hcounts, v, t, i, foot', hv, ht, hentry, howns'⟩ :=
      hwritten.entry?_cases hkeys howns f hf
    · obtain rfl : false = present := htells.counts_iff.1 hcounts
      rw [hentry] at hname hmark
      have hoptional : f.slot.required = false :=
        Bool.eq_false_iff.2 fun h => Bool.false_ne_true (hrequired h)
      refine ⟨(accepts_of_none hentry).2 hoptional, false, _, htells, htells.of_mark hmark, hname,
        ?_⟩
      rw [if_neg Bool.false_ne_true]
      exact value_none h f (hregular f hf)
    · obtain rfl : true = present := htells.counts_iff.1 hcounts
      obtain ⟨w, hw, hconforms⟩ := hvalue rfl
      obtain rfl : w = v := Option.some.inj (hw.symm.trans hv)
      obtain ⟨htakes, hrestores⟩ := hfields f hf w t i foot' hconforms ht howns'
      rw [hentry] at hname hmark
      refine ⟨(accepts_of_some hentry).2 htakes, true, _, htells, htells.of_mark hmark, hname, ?_⟩
      rw [if_pos rfl]
      exact ⟨w, hv, hrestores⟩
  exact ⟨allAccept_iff.2 fun f hf => (hfield f hf).1, allRestore_iff.2 fun f hf => (hfield f hf).2⟩

/-- What has been written for a value that conforms stands for the value. -/
theorem restores_value (f : Field) (hf : f.Regular) : f.Every DistinctKeys → f.Every DistinctNames →
    ∀ v t i foot, f.Conforms v → f.WrittenAs v t → h.Owns i t foot →
      f.Takes h i ∧ f.Restores v (f.value h (some i)) := by
  induction f, hf using regular_induction with
  | scalar slot type default _ =>
    rintro - hnames v t i foot hv ⟨s, text, hwrite, rfl⟩ howns
    rw [Scalar.write_eq_canonical hv s] at hwrite
    cases hwrite
    have hdecode : Scalar.decode type h i = .ok v :=
      (Scalar.decode_of_string? howns.string?_eq).trans (Scalar.read_canonical hnames hv)
    refine ⟨⟨v, hdecode⟩, ?_⟩
    rw [Restores, value, hdecode]
    rfl
  | nested slot fields hnodup hfields ih =>
    rintro hkeys hnames v t i foot hv ⟨entries, hwritten, rfl⟩ howns
    obtain ⟨haccept, hrestore⟩ := allRestore_attributes (allRegular_iff.1 hfields) hnodup hkeys.1
      (fun f hf => ih f hf (allEvery_iff.1 hkeys.2 f hf) (allEvery_iff.1 hnames.2 f hf))
      hv.2 hwritten howns
    exact ⟨⟨howns.kind_eq_dict, haccept⟩, congrArg some (map_fst_attributes h (some i) fields),
      hrestore⟩

/-! ### Texts that fit -/

/-- A key that is required has no mark. -/
def UnmarkedIfRequired (f : Field) : Prop :=
  f.slot.required = true → f.slot.tracker? = none

mutual

/-- Whether the texts of an object for a field fit their buffers. -/
def Fits (h : Heap) (id : ObjectId) : Field → Prop
  | scalar _ type _ => ∀ t, h.string? id = some t → type.Fits t
  | nested _ fields => AllFit h id fields
  | array _ _ | custom _ _ => True

/-- Whether the texts of a dictionary for fields fit their buffers. -/
def AllFit (h : Heap) (dict : ObjectId) : List Field → Prop
  | [] => True
  | f :: fields =>
    (∀ id, h.entry? (some dict) f.slot.key = some id → f.Fits h id) ∧ AllFit h dict fields

end

theorem allFit_iff {dict : ObjectId} {fields : List Field} :
    AllFit h dict fields ↔
      ∀ f ∈ fields, ∀ id, h.entry? (some dict) f.slot.key = some id → f.Fits h id := by
  induction fields with
  | nil => simp [AllFit]
  | cons f fields ih => rw [AllFit, List.forall_mem_cons, ih]

/-- A dictionary that has been written is accepted if its texts fit. -/
theorem allAccept_iff_allFit {fields : List Field} {record : Value} {entries : List (Text × Tree)}
    (hkeys : (fields.map key).Nodup) (hrequired : ∀ f ∈ fields, f.UnmarkedIfRequired)
    (hfields : ∀ f ∈ fields, ∀ v t i foot, f.WrittenAs v t → h.Owns i t foot →
      (f.Takes h i ↔ f.Fits h i))
    (hwritten : AllWritten record fields entries) (howns : h.Owns id (.dict entries) foot) :
    AllAccept h id fields ↔ AllFit h id fields := by
  rw [allAccept_iff, allFit_iff]
  refine forall₂_congr fun f hf => ?_
  obtain ⟨hcounts, hentry⟩ | ⟨hcounts, v, t, i, foot', -, ht, hentry, howns'⟩ :=
    hwritten.entry?_cases hkeys howns f hf
  · have hoptional : f.slot.required = false := by
      -- The key has been left out because of its mark, and required keys have none.
      refine Bool.eq_false_iff.2 fun h => ?_
      unfold Slot.Counts at hcounts
      rw [hrequired f hf h] at hcounts
      cases hcounts
    rw [accepts_of_none hentry, hentry]
    exact iff_of_true hoptional nofun
  · rw [accepts_of_some hentry, hentry, hfields f hf v t i foot' ht howns']
    exact ⟨fun h j hj => Option.some.inj hj ▸ h, fun h => h i rfl⟩

/-- What has been written for a value is accepted if its texts fit. -/
theorem takes_iff_fits (f : Field) (hf : f.Regular) :
    f.Every DistinctKeys → f.Every UnmarkedIfRequired → ∀ v t i foot, f.WrittenAs v t →
      h.Owns i t foot → (f.Takes h i ↔ f.Fits h i) := by
  induction f, hf using regular_induction with
  | scalar slot type default _ =>
    rintro - - v t i foot ⟨s, text, hwrite, rfl⟩ howns
    rw [Takes, Fits, Scalar.decode_of_string? howns.string?_eq,
      Scalar.exists_read_iff_of_write hwrite, howns.string?_eq]
    exact ⟨fun h t ht => Option.some.inj ht ▸ h, fun h => h text rfl⟩
  | nested slot fields hnodup hfields ih =>
    rintro hkeys hrequired v t i foot ⟨entries, hwritten, rfl⟩ howns
    have hrequired' := allEvery_iff.1 hrequired.2
    rw [Takes, Fits, and_iff_right howns.kind_eq_dict]
    exact allAccept_iff_allFit hkeys.1 (fun f hf => (hrequired' f hf).self)
      (fun f hf => ih f hf (allEvery_iff.1 hkeys.2 f hf) (hrequired' f hf)) hwritten howns

end Field

/-! ### Descriptors -/

namespace Descriptor

variable {d : Descriptor} {record : Value}

/-- A record that conforms to a descriptor is encoded, and decoding the dictionary gives it back:
the marks are the same, the values that are not marked as absent are the same at every level, and
the values that are marked as absent are the initial ones. -/
theorem decode_encode (hd : d.Regular) (hnames : Field.AllEvery Field.DistinctNames d.fields)
    (hrecord : Field.AllConform d.fields record) (store : Store) :
    ∃ id store', d.encode record store = .ok id store' ∧
      ∀ (s : Session) (fresh : Bool), s.store = store' → fresh = true ∨ s.record = .emptyRecord →
        ∃ s', d.decode id fresh s = .ok () s' ∧ s'.store = store' ∧
          s'.record.names? = some (Field.names d.fields) ∧
            Field.AllRestore d.fields record s'.record := by
  have hregular := Field.allRegular_iff.1 hd.2
  obtain ⟨id, store', hencode, entries, feet, hwritten, hh⟩ |
      ⟨_, _, -, hcan, -⟩ := ends_iff.1 (ends_encode hd record store)
  · obtain ⟨foot, howns, -⟩ := hh.owns_first
    obtain ⟨haccept, hrestore⟩ := Field.allRestore_attributes hregular hd.1 d.nodup_keys
      (fun f hf => Field.restores_value f (hregular f hf) (Field.allEvery_iff.1 d.distinctKeys f hf)
        (Field.allEvery_iff.1 hnames f hf)) hrecord hwritten howns
    refine ⟨id, store', hencode, ?_⟩
    rintro ⟨r, _, calls⟩ fresh rfl hfresh
    obtain ⟨calls', hdecode⟩ :=
      (turnsIf_decode hd howns.kind_eq_dict hfresh).turns haccept calls
    exact ⟨_, hdecode, rfl, congrArg some (Field.map_fst_attributes _ _ _), hrestore⟩
  · exact absurd (Field.allWritable_of_allConform
      (fun f hf => Field.writable_of_conforms f (hregular f hf)) hrecord) hcan

/-- A book without a shelf mark, the number of whose copies is not known. -/
def ulysses : Value :=
  .record [("title", .text "Ulysses"), ("mark", .text []), ("has_copies", .bool false),
    ("copies", .null), ("has_extent", .bool true), ("extent", .record [("pages", .int 730)])]

/-- A book that has been encoded and decoded again has its title and its extent, and it has one copy
if the number of its copies was not known. -/
theorem decode_encode_ulysses :
    book.Regular ∧ Field.AllEvery Field.DistinctNames book.fields ∧
    Field.AllConform book.fields ulysses ∧
    ∃ id store s', book.encode ulysses .empty = .ok id store ∧
      book.decode id true ⟨.null, store, []⟩ = .ok () s' ∧
      s'.record.attribute? "title" = some (.text "Ulysses") ∧
      s'.record.attribute? "has_copies" = some (.bool false) ∧
      s'.record.attribute? "copies" = some (.int 1) ∧
      ∃ extent, s'.record.attribute? "extent" = some extent ∧
        extent.attribute? "pages" = some (.int 730) := by
  have hnames : Field.AllEvery Field.DistinctNames book.fields :=
    ⟨trivial, trivial, trivial, ⟨trivial, trivial, trivial⟩, trivial⟩
  have hrecord : Field.AllConform book.fields ulysses := by
    have hmark : ((Text.encode []).length : Int) + 1 ≤ 8 := by decide
    have hpages : Scalar.int64Min ≤ 730 ∧ 730 ≤ Scalar.int64Max := by decide
    exact ⟨⟨true, rfl, fun _ => rfl, fun _ => ⟨_, rfl, trivial⟩⟩,
      ⟨true, rfl, fun _ => rfl, fun _ => ⟨_, rfl, hmark⟩⟩, ⟨false, rfl, nofun, nofun⟩,
      ⟨true, rfl, fun _ => rfl, fun _ => ⟨_, rfl, rfl,
        ⟨true, rfl, fun _ => rfl, fun _ => ⟨_, rfl, hpages⟩⟩, trivial⟩⟩, trivial⟩
  obtain ⟨id, store, hencode, hdecode⟩ := decode_encode book_regular hnames hrecord .empty
  obtain ⟨s', hs', -, -, ⟨present, title, rfl, -, htitle, hrestored⟩, -,
    ⟨counted, copies, hcounted, hmark, hcopies, hinitial⟩,
    ⟨measured, extent, hmeasured, -, hextent, hmeasures⟩, -⟩ :=
    hdecode ⟨.null, store, []⟩ true rfl (.inl rfl)
  obtain ⟨_, htold, hrestored⟩ := hrestored
  obtain rfl : Value.text "Ulysses" = _ := Option.some.inj htold
  obtain rfl : title = .text "Ulysses" := hrestored
  obtain rfl : false = counted := Value.bool.inj (Option.some.inj hcounted)
  obtain rfl : copies = .int 1 := hinitial
  obtain rfl : true = measured := Value.bool.inj (Option.some.inj hmeasured)
  obtain ⟨_, hgiven, -, ⟨present, pages, rfl, -, hpaged, hrestored⟩, -⟩ := hmeasures
  obtain rfl : Value.record [("pages", .int 730)] = _ := Option.some.inj hgiven
  obtain ⟨_, hcount, hrestored⟩ := hrestored
  obtain rfl : Value.int 730 = _ := Option.some.inj hcount
  obtain rfl : pages = .int 730 := hrestored
  exact ⟨book_regular, hnames, hrecord, id, store, s', hencode, hs', htitle, hmark, hcopies, extent,
    hextent, hpaged⟩

/-- Where no key that is required has a mark, the dictionary of a record, whatever its values, can
be decoded if and only if the texts that have been written for a `charbuf` fit their buffers. -/
theorem exists_decode_encode_iff (hd : d.Regular)
    (hrequired : Field.AllEvery Field.UnmarkedIfRequired d.fields) {store store' : Store}
    {id : ObjectId} (hencode : d.encode record store = .ok id store') {s : Session}
    (hs : s.store = store') {fresh : Bool} (hfresh : fresh = true ∨ s.record = .emptyRecord) :
    (∃ s', d.decode id fresh s = .ok () s') ↔ Field.AllFit store'.heap id d.fields := by
  obtain ⟨entries, feet, hwritten, hh⟩ := (ends_encode hd record store).of_eq_ok hencode
  obtain ⟨foot, howns, -⟩ := hh.owns_first
  have hrequired' := Field.allEvery_iff.1 hrequired
  obtain ⟨r, store', calls⟩ := s
  subst hs
  rw [(turnsIf_decode hd howns.kind_eq_dict hfresh).exists_ok_iff calls]
  exact Field.allAccept_iff_allFit d.nodup_keys (fun f hf => (hrequired' f hf).self)
    (fun f hf => Field.takes_iff_fits f (Field.allRegular_iff.1 hd.2 f hf)
      (Field.allEvery_iff.1 d.distinctKeys f hf) (hrequired' f hf)) hwritten howns

/-- A descriptor of a label of at most three bytes. -/
def label : Descriptor where
  fields := [.scalar ⟨"text", "text", none, false, 4⟩ (.charbuf 4) .null]
  nodup_keys := by decide
  distinctKeys := by decide

/-- A label of four bytes is encoded, and its dictionary cannot be decoded. -/
theorem not_exists_decode_encode_label :
    label.Regular ∧ Field.AllEvery Field.UnmarkedIfRequired label.fields ∧
    ∃ id store, label.encode (.record [("text", .text "abcd")]) .empty = .ok id store ∧
      ¬ ∃ s', label.decode id true ⟨.null, store, []⟩ = .ok () s' := by
  have hd : label.Regular := ⟨by decide, trivial, trivial⟩
  have hrequired : Field.AllEvery Field.UnmarkedIfRequired label.fields := ⟨fun _ => rfl, trivial⟩
  have hwritable : Field.AllWritable (.record [("text", .text "abcd")]) label.fields :=
    ⟨⟨nofun, fun _ => ⟨_, rfl, fun _ => ⟨_, rfl⟩⟩⟩, trivial⟩
  obtain ⟨id, store, hencode, entries, feet, hwritten, hh⟩ | ⟨_, _, -, hcan, -⟩ :=
    ends_iff.1 (ends_encode hd (.record [("text", .text "abcd")]) .empty)
  · refine ⟨hd, hrequired, id, store, hencode, fun hdecode => ?_⟩
    obtain ⟨hfits, -⟩ := (exists_decode_encode_iff hd hrequired hencode
      (s := ⟨.null, store, []⟩) rfl (.inl rfl)).1 hdecode
    obtain ⟨foot, howns, -⟩ := hh.owns_first
    obtain ⟨hcounts, -⟩ | ⟨-, _, _, i, _, hv, ⟨_, _, hwrite, rfl⟩, hentry, hi⟩ :=
      hwritten.entry?_cases label.nodup_keys howns _ (List.mem_singleton_self _)
    · cases hcounts
    · obtain rfl : Value.text "abcd" = _ := Option.some.inj hv
      obtain rfl : Text.ofString "abcd" = _ := Except.ok.inj hwrite
      have hlong : ¬ ((Text.encode "abcd").length : Int) + 1 ≤ 4 := by decide
      exact hlong (hfits i hentry _ hi.string?_eq)
  · exact absurd hwritable hcan

end Descriptor

end PropertyList

import PropertyList.Proofs.Record.Walk

/-!
# The meaning of decoding

Decoding goes over the fields twice, first to give every attribute its initial value and then to
decode what the dictionary has. What comes of it can be said field by field: the attribute holds the
value of the object under the key if there is one, and otherwise the initial value, and the
attribute that tracks the key tells which. It succeeds exactly if every field accepts the
dictionary: a required key is there, and an object that is there stands for a value of the type of
the field.

If a field fails, decoding ends in its failure, and what has been decoded is released.

## Main definitions

* `Descriptor.Regular`
* `Descriptor.recordLeft`, the record that decoding leaves behind

## Main results

* `Descriptor.leaves_decode`, `Descriptor.turnsIf_decode`
* `Descriptor.decode_spec`
-/

namespace PropertyList

open SessionM

namespace Field

/-! ### What comes of it -/

mutual

theorem holds_value (h : Heap) : (f : Field) → f.Regular → ∀ source : Option ObjectId,
    (∀ id, source = some id → f.Takes h id) → f.Holds h source (f.value h source)
  | scalar _ type default, _, none, _ => rfl
  | scalar _ type default, _, some id, htakes => by
    obtain ⟨v, hv⟩ := htakes id rfl
    rw [Holds, value, hv]
    rfl
  | nested _ fields, hf, source, htakes =>
    ⟨congrArg some (map_fst_attributes h source fields),
      allHold_attributes h fields hf.2 hf.1 source (fun id hid => (htakes id hid).2) []
        (List.disjoint_nil_right _)⟩
  | array _ _, hf, _, _ => hf.elim
  | custom _ _, hf, _, _ => hf.elim

theorem allHold_attributes (h : Heap) : (fields : List Field) → AllRegular fields →
    (names fields).Nodup → ∀ dict : Option ObjectId,
    (∀ id, dict = some id → AllAccept h id fields) → ∀ pre : List (String × Value),
    (names fields).Disjoint (pre.map Prod.fst) →
      AllHold h dict fields (.record (pre ++ attributes h dict fields))
  | [], _, _, _, _, _, _ => trivial
  | f :: fields, hfields, hnodup, dict, haccept, pre, hpre => by
    obtain ⟨hf, hfields⟩ := hfields
    have hdisjoint := disjoint_cons hnodup hpre (h.entry? dict f.slot.key).isSome
      (f.value h (h.entry? dict f.slot.key))
    have hvalue := holds_value h f hf (h.entry? dict f.slot.key) fun id hid => by
      cases dict with
      | none => cases hid
      | some dict => exact (haccept dict rfl).1.2 id hid
    have hrest := allHold_attributes h fields hfields hdisjoint.1 dict
      (fun id hid => (haccept id hid).2) _ hdisjoint.2.2
    rw [attributes, ← List.append_assoc]
    exact ⟨⟨_, f.slot.attribute?_name hdisjoint.2.1, hvalue⟩,
      fun tracker htracker => f.slot.attribute?_tracker hdisjoint.2.1 htracker, hrest⟩

end

end Field

/-! ### Descriptors -/

namespace Descriptor

/-- Whether a descriptor has regular fields, with attributes that differ from one another. -/
def Regular (d : Descriptor) : Prop :=
  (Field.names d.fields).Nodup ∧ Field.AllRegular d.fields

variable {d : Descriptor} {dict : ObjectId} {store : Store}

/-- The record that decoding a dictionary leaves behind: what has been decoded, which is released if
decoding has failed. -/
def recordLeft (d : Descriptor) (h : Heap) (dict : ObjectId) : Value :=
  .record (if Field.firstFailure? h dict d.fields = none then Field.reachedAll h dict d.fields
    else Field.releasedAll d.fields (Field.reachedAll h dict d.fields))

/-- Decoding into a record without attributes, new or given, ends in the failure of the first field
that fails. -/
theorem leaves_decode (hd : d.Regular) (hdict : store.heap.kind dict = .dict) {fresh : Bool}
    {r : Value} (hfresh : fresh = true ∨ r = .emptyRecord) :
    Leaves (d.decode dict fresh) store r (Field.firstFailure? store.heap dict d.fields)
      (d.recordLeft store.heap dict) := by
  have hinit : Turns (Field.initialiseAll d.fields) store .emptyRecord
      (.record (Field.attributes store.heap none d.fields)) :=
    Field.turns_initialiseAll store d.fields hd.2 hd.1 [] (List.disjoint_nil_right _)
  have hwalk := hinit.seq_leaves
    (Field.leaves_decodeAll store dict d.fields hd.2 hd.1 [] (List.disjoint_nil_right _))
  have hwork : Leaves
      (tryCatch (Field.initialiseAll d.fields >>= fun _ => Field.decodeAll dict d.fields)
        fun failure => Field.releaseAll d.fields >>= fun _ => throw failure) store .emptyRecord
      (Field.firstFailure? store.heap dict d.fields) (d.recordLeft store.heap dict) := by
    rw [recordLeft]
    cases hfailure : Field.firstFailure? store.heap dict d.fields with
    | none =>
      rw [hfailure] at hwalk
      rw [if_pos rfl]
      exact hwalk.turns.tryCatch _
    | some failure =>
      have hrelease := Field.turns_releaseAll store d.fields hd.2 hd.1 [] _
        (List.disjoint_nil_right _) (Field.allLaidOut_reachedAll store.heap hd.2 dict)
      rw [hfailure] at hwalk
      rw [if_neg nofun]
      exact hwalk.tryCatch (hrelease.seq_leaves (leaves_throw failure store _))
  refine (reads_heap store r).leaves ?_
  rw [if_neg (not_not_intro hdict)]
  cases fresh with
  | true =>
    have hcreate : Turns create store r .emptyRecord := fun calls => ⟨calls ++ [.create], rfl⟩
    exact hcreate.seq_leaves hwork
  | false =>
    obtain rfl : r = .emptyRecord := hfresh.resolve_left Bool.false_ne_true
    exact hwork

/-- Decoding makes the record out of one without attributes, new or given. -/
theorem turnsIf_decode (hd : d.Regular) (hdict : store.heap.kind dict = .dict) {fresh : Bool}
    {r : Value} (hfresh : fresh = true ∨ r = .emptyRecord) :
    TurnsIf (Field.AllAccept store.heap dict d.fields) (d.decode dict fresh) store r
      (.record (Field.attributes store.heap (some dict) d.fields)) := by
  have hnone := Field.firstFailure?_eq_none_iff store.heap dict hd.2
  refine (leaves_decode hd hdict hfresh).turnsIf hnone.symm fun haccept => ?_
  rw [recordLeft, if_pos (hnone.2 haccept), Field.reachedAll_eq_attributes hd.2 haccept]

/-- Decoding a dictionary into a record without attributes, new or given, succeeds exactly if every
required key is there and everything that is there stands for a value of its field, at every level.
The record then has the attributes of the fields, with the values of what is there and the initial
values of what is not, and with marks for the keys that are there. -/
theorem decode_spec (hd : d.Regular) {s : Session} (hdict : s.store.heap.kind dict = .dict)
    {fresh : Bool} (hfresh : fresh = true ∨ s.record = .emptyRecord) :
    ((∃ s', d.decode dict fresh s = .ok () s') ↔
        Field.AllAccept s.store.heap dict d.fields) ∧
      ∀ s', d.decode dict fresh s = .ok () s' →
        s'.store = s.store ∧ s'.record.names? = some (Field.names d.fields) ∧
          Field.AllHold s.store.heap (some dict) d.fields s'.record := by
  obtain ⟨r, store, calls⟩ := s
  have hdecode := turnsIf_decode hd hdict hfresh
  have haccept (s' : Session) (hs' : d.decode dict fresh ⟨r, store, calls⟩ = .ok () s') :
      Field.AllAccept store.heap dict d.fields := by
    by_contra hrefuse
    obtain ⟨failure, s₁, hfail⟩ := hdecode.fails hrefuse calls
    rw [hs'] at hfail
    cases hfail
  refine ⟨⟨fun ⟨s', hs'⟩ => haccept s' hs', fun h => ?_⟩, fun s' hs' => ?_⟩
  · obtain ⟨calls', hs'⟩ := hdecode.turns h calls
    exact ⟨_, hs'⟩
  · have h := haccept s' hs'
    obtain ⟨calls', hturn⟩ := hdecode.turns h calls
    rw [hs'] at hturn
    cases hturn
    refine ⟨rfl, congrArg some (Field.map_fst_attributes store.heap (some dict) d.fields), ?_⟩
    exact Field.allHold_attributes store.heap d.fields hd.2 hd.1 (some dict)
      (fun id hid => Option.some.inj hid ▸ h) [] (List.disjoint_nil_right _)

/-- A descriptor of a book: a title, a shelf mark of at most seven bytes, the number of copies and,
in a record of its own, the number of pages. -/
def book : Descriptor where
  fields :=
    [.scalar ⟨"title", "title", none, true, 0⟩ .string .null,
      .scalar ⟨"mark", "mark", none, false, 8⟩ (.charbuf 8) .null,
      .scalar ⟨"copies", "copies", some "has_copies", false, 0⟩ .uint64 (.int 1),
      .nested ⟨"extent", "extent", some "has_extent", false, 0⟩
        [.scalar ⟨"pages", "pages", none, true, 0⟩ .int64 (.int 0)]]
  nodup_keys := by decide
  distinctKeys := by decide

theorem book_regular : book.Regular :=
  ⟨by decide, trivial, trivial, trivial, ⟨by decide, trivial, trivial⟩, trivial⟩

/-- The dictionary of a book with a title and an extent, and its parts. -/
def bookHeap : Heap where
  objects :=
    #[⟨1, .dict ((Dict.empty.add "title" 1).add "extent" 2)⟩, ⟨1, .string "Ulysses"⟩,
      ⟨1, .dict (Dict.empty.add "pages" 3)⟩, ⟨1, .string " 730"⟩]
  live := 4

/-- A book without a mark and without a number of copies has an empty mark and one copy. -/
theorem decode_spec_book :
    book.Regular ∧ bookHeap.kind 0 = .dict ∧
    ∃ s', book.decode 0 true ⟨.null, ⟨bookHeap, #[]⟩, []⟩ = .ok () s' ∧
      s'.record.attribute? "title" = some (.text "Ulysses") ∧
      s'.record.attribute? "mark" = some (.text []) ∧
      s'.record.attribute? "copies" = some (.int 1) ∧
      s'.record.attribute? "has_copies" = some (.bool false) ∧
      s'.record.attribute? "has_extent" = some (.bool true) ∧
      ∃ extent, s'.record.attribute? "extent" = some extent ∧
        extent.attribute? "pages" = some (.int 730) := by
  have hd := book_regular
  have hdict : bookHeap.kind 0 = .dict := by decide
  have htitle : Scalar.decode .string bookHeap 1 = .ok (.text "Ulysses") := rfl
  have hpages : Scalar.decode .int64 bookHeap 3 = .ok (.int 730) := rfl
  have haccept : Field.AllAccept bookHeap 0 book.fields := by
    refine ⟨⟨fun _ => by decide, ?_⟩, ⟨nofun, nofun⟩, ⟨nofun, nofun⟩, ⟨nofun, ?_⟩, trivial⟩
    · rintro _ ⟨⟩
      exact ⟨_, htitle⟩
    · rintro _ ⟨⟩
      refine ⟨by decide, ⟨fun _ => by decide, ?_⟩, trivial⟩
      rintro _ ⟨⟩
      exact ⟨_, hpages⟩
  obtain ⟨hiff, hholds⟩ := decode_spec (s := ⟨.null, ⟨bookHeap, #[]⟩, []⟩) hd hdict (.inl rfl)
  obtain ⟨s', hs'⟩ := hiff.2 haccept
  obtain ⟨-, -, ⟨title, htitled, hread⟩, -, ⟨_, hmark, rfl⟩, -, ⟨_, hcopies, rfl⟩, hnoCopies,
    ⟨extent, hextent, -, ⟨pages, hpaged, hcount⟩, -⟩, hhasExtent, -⟩ := hholds s' hs'
  obtain rfl : title = .text "Ulysses" := Except.ok.inj (hread.symm.trans htitle)
  obtain rfl : pages = .int 730 := Except.ok.inj (hcount.symm.trans hpages)
  exact ⟨hd, hdict, s', hs', htitled, hmark, hcopies, hnoCopies _ (by decide),
    hhasExtent _ (by decide), extent, hextent, hpaged⟩

end Descriptor

end PropertyList

import PropertyList.Proofs.Buffer.Writing
import PropertyList.Proofs.Document.Building

/-!
# Writing and parsing

The bytes of a rendering are read as the rendering of the recoded tree, and a rendering is a
document that denotes the tree rendered. So what has been written is parsed as the recoding of what
was there, unless keys collide.

A string changes only if stray bytes in it come to spell a character. The bytes of a document never
do so where they stand, but a backslash between them is dropped: a quoted string of the bytes
`C3 5C A9` has the value of two stray bytes, which are written side by side and read back as one
character. Where this character is a key of the same dictionary, what was written is refused.

## Main results

* `Document.parseBytes_dump` : parsing what has been written.
* `Document.parse_dump_parse_iff` : writing and parsing what has been parsed.
-/

namespace PropertyList.Document

variable {t : Tree} {indent level initial max : Int}

/-! ### The bytes of a rendering -/

private theorem decode_encode_render (t : Tree) (indent level : Int) :
    Text.decode (t.render indent level).encode = t.recode.render indent level :=
  t.recode_render level

/-- The bytes of an ordered tree without colliding keys are a document with the recoded tree. -/
theorem exists_parseBytes_encode_render (ht : t.Ordered) (hc : ¬ t.Colliding) (indent level : Int)
    (h : Heap) :
    ∃ root h', parseBytes (t.render indent level).encode h = .ok root h' ∧
      h'.tree root = t.recode := by
  have hordered := Tree.ordered_recode ht hc
  obtain ⟨hdocument, herror⟩ := t.recode.documentTokens_scan_render indent level
  rw [parseBytes, decode_encode_render, exists_parse_iff]
  exact ⟨t.recode, read_eq_ok herror hdocument hordered.uniqueKeys,
    (Tree.arrange_eq_self hordered).symm⟩

/-- The bytes of a tree with colliding keys are refused. -/
theorem parseBytes_encode_render_of_colliding (ht : t.UniqueKeys) (hc : t.Colliding)
    (indent level : Int) (h : Heap) :
    ∃ key position h',
      parseBytes (t.render indent level).encode h = .error (.duplicateKey key position) h' := by
  have hrepeats : ¬ t.recode.UniqueKeys := fun h => (Tree.uniqueKeys_recode_iff ht).1 h hc
  obtain ⟨hdocument, herror⟩ := t.recode.documentTokens_scan_render indent level
  obtain ⟨key, position, hread⟩ := exists_read_eq_duplicateKey herror hdocument hrepeats
  obtain ⟨h', hparse⟩ := exists_parse_eq_error hread h
  rw [parseBytes, decode_encode_render]
  exact ⟨key, position, h', hparse⟩

/-- A recoded tree is equal to the tree it came from only if nothing was recoded. -/
private theorem same_recode_iff (ht : t.Ordered) (hc : ¬ t.Colliding) :
    t.recode.same t ↔ t.Stable := by
  rw [Tree.same_iff_eq (Tree.ordered_recode ht hc) Tree.not_colliding_recode ht,
    Tree.recode_eq_self_iff]

/-- What can be told of the tree that the bytes of a tree are read back as. -/
private theorem parseBytes_encode_render_iff (ht : t.Ordered) (indent level : Int) (h : Heap) :
    (∃ root h', parseBytes (t.render indent level).encode h = .ok root h' ∧
      (h'.tree root).same t) ↔ t.Stable := by
  by_cases hc : t.Colliding
  · obtain ⟨key, position, h', hparse⟩ :=
      parseBytes_encode_render_of_colliding ht.uniqueKeys hc indent level h
    refine iff_of_false ?_ fun hs => hs.not_colliding hc
    rintro ⟨root, h', hok, -⟩
    rw [hparse] at hok
    cases hok
  · obtain ⟨root, h', hparse, htree⟩ := exists_parseBytes_encode_render ht hc indent level h
    rw [← same_recode_iff ht hc]
    constructor
    · rintro ⟨root', h'', hok, hsame⟩
      rw [hparse] at hok
      cases hok
      rwa [htree] at hsame
    · intro hsame
      exact ⟨root, h', hparse, by rwa [htree]⟩

/-! ### Parsing what has been written -/

/-- **Parsing what has been written.** Let an object, however it was built, be written. The bytes
are refused for a repeated key if different keys of a dictionary have the same bytes. Otherwise
they are the document of the recoded tree, which is written with the same bytes again. The tree
itself is read back exactly if every key and value is read back as itself. -/
theorem parseBytes_dump (ht : t.Built) {bytes : Bytes}
    (hbytes : t.dump indent level initial max = .ok bytes) (h : Heap) :
    (t.Colliding → ∃ key position h',
      parseBytes bytes h = .error (.duplicateKey key position) h') ∧
    (¬ t.Colliding → ∃ root h', parseBytes bytes h = .ok root h' ∧ h'.tree root = t.recode ∧
      (h'.tree root).dump indent level initial max = .ok bytes) ∧
    ((∃ root h', parseBytes bytes h = .ok root h' ∧ (h'.tree root).same t) ↔ t.Stable) := by
  replace ht := Tree.built_iff_ordered.1 ht
  obtain ⟨-, -, -, rfl⟩ := Tree.dump_eq_ok_iff.1 hbytes
  refine ⟨fun hc => parseBytes_encode_render_of_colliding ht.uniqueKeys hc indent level h,
    fun hc => ?_, parseBytes_encode_render_iff ht indent level h⟩
  obtain ⟨root, h', hparse, htree⟩ := exists_parseBytes_encode_render ht hc indent level h
  refine ⟨root, h', hparse, htree, ?_⟩
  rw [htree, Tree.dump_recode]
  exact hbytes

/-- Two stray bytes come back as a character. -/
theorem parseBytes_dump_two_strays :
    Tree.dump (.array [.string [.stray 0x43, .stray 0x29], .dict []]) 1 0 1 64 = .ok
      [0x28, 0x0A, 0x20, 0x22, 0xC3, 0xA9, 0x22, 0x2C, 0x0A, 0x20, 0x7B, 0x7D, 0x0A, 0x29] ∧
    ∃ root h', parseBytes [0x28, 0x0A, 0x20, 0x22, 0xC3, 0xA9, 0x22, 0x2C, 0x0A, 0x20, 0x7B, 0x7D,
        0x0A, 0x29] .empty = .ok root h' ∧
      h'.tree root = .array [.string [.char 'é'], .dict []] := by
  have hdump : Tree.dump (.array [.string [.stray 0x43, .stray 0x29], .dict []]) 1 0 1 64 = .ok
      [0x28, 0x0A, 0x20, 0x22, 0xC3, 0xA9, 0x22, 0x2C, 0x0A, 0x20, 0x7B, 0x7D, 0x0A, 0x29] :=
    Tree.dump_eq_ok_iff.2 ⟨⟨by decide, by decide, by decide⟩, by decide, by decide, by decide⟩
  have hbuilt : (Tree.array [.string [.stray 0x43, .stray 0x29], .dict []]).Built :=
    Tree.built_iff_ordered.2 (by decide)
  obtain ⟨root, h', hparse, htree, -⟩ := (parseBytes_dump hbuilt hdump .empty).2.1 (by decide)
  exact ⟨hdump, root, h', hparse, htree.trans (by decide +kernel)⟩

/-! ### Writing what has been parsed -/

/-- The root of a document lists the entries of its dictionaries in the order of reading. -/
theorem ordered_of_parse {text : Text} {h h' : Heap} {root : ObjectId}
    (hparse : parse text h = .ok root h') : (h'.tree root).Ordered := by
  obtain ⟨D, hread, htree⟩ := exists_parse_iff.1 ⟨root, h', hparse, rfl⟩
  obtain ⟨-, D', hD, -, hunique⟩ := read_eq_ok_iff.1 hread
  cases hD
  rw [htree]
  exact Tree.ordered_arrange hunique

/-- **Writing and parsing what has been parsed.** The tree of a document is written, and parsed to
an equal tree, exactly if every key and value is read back as itself, and the rendering has line
breaks that can be written and is no longer than a buffer can be. -/
theorem parse_dump_parse_iff {document : Bytes} {h h' : Heap} {root : ObjectId}
    (hparse : parseBytes document h = .ok root h') (n : Int) (g : Heap) :
    (∃ bytes root' g', (h'.tree root).dump n 0 1024 Buffer.unbounded = .ok bytes ∧
      parseBytes bytes g = .ok root' g' ∧ (g'.tree root').same (h'.tree root)) ↔
    (h'.tree root).Stable ∧ (h'.tree root).Writable n 0 ∧
      ((h'.tree root).render n 0).encode.length ≤ Buffer.unbounded := by
  have hordered := ordered_of_parse hparse
  have hcapacities : Buffer.AreCapacities 1024 Buffer.unbounded :=
    ⟨by decide, by decide, by decide⟩
  have hiff := parseBytes_encode_render_iff hordered n 0 g
  constructor
  · rintro ⟨bytes, root', g', hdump, hback⟩
    obtain ⟨-, hwritable, hle, rfl⟩ := Tree.dump_eq_ok_iff.1 hdump
    exact ⟨hiff.1 ⟨root', g', hback⟩, hwritable, Int.ofNat_le.1 hle⟩
  · rintro ⟨hstable, hwritable, hle⟩
    obtain ⟨root', g', hback⟩ := hiff.2 hstable
    have hdump := Tree.dump_eq_ok_iff.2 ⟨hcapacities, hwritable, Int.ofNat_le.2 hle, rfl⟩
    exact ⟨_, root', g', hdump, hback⟩

/-- The keys of a document may come to collide where a backslash is dropped. -/
theorem not_parse_dump_parse_colliding_keys :
    ∃ root h', parseBytes [0x7B, 0x22, 0xC3, 0xA9, 0x22, 0x3D, 0x61, 0x3B,
        0x22, 0xC3, 0x5C, 0xA9, 0x22, 0x3D, 0x62, 0x7D] .empty = .ok root h' ∧
      h'.tree root = .dict [([.char 'é'], .string [.char 'a']),
        ([.stray 0x43, .stray 0x29], .string [.char 'b'])] ∧
      ¬ ∃ bytes root' g', (h'.tree root).dump 0 0 1024 Buffer.unbounded = .ok bytes ∧
        parseBytes bytes .empty = .ok root' g' ∧ (g'.tree root').same (h'.tree root) := by
  have hscan : (Text.decode [0x7B, 0x22, 0xC3, 0xA9, 0x22, 0x3D, 0x61, 0x3B,
      0x22, 0xC3, 0x5C, 0xA9, 0x22, 0x3D, 0x62, 0x7D]).scan.tokens.map (·.token) =
        Token.mark .openBrace :: ([Token.quoted [.char 'é'], .mark .equals, .word [.char 'a']] ++
          Token.mark .semicolon :: [Token.quoted [.stray 0x43, .stray 0x29], .mark .equals,
            .word [.char 'b']] ++ []) ++ [Token.mark .closeBrace] ++ [] ++ [Token.ending] := by
    decide +kernel
  have hentries : Separated (EntryTokens ValueTokens) .semicolon _ _ :=
    .cons (.intro (k := .quoted [.char 'é']) rfl (.string (t := .word [.char 'a']) rfl))
      (.one (.intro (k := .quoted [.stray 0x43, .stray 0x29]) rfl
        (.string (t := .word [.char 'b']) rfl)))
  have hdocument := DocumentTokens.intro (.dict (.filled hentries (Or.inl rfl))) (Or.inl rfl)
  rw [← hscan] at hdocument
  obtain ⟨root, h', hparse, htree⟩ := exists_parse_iff.2
    ⟨_, read_eq_ok (by decide +kernel) hdocument (by decide),
      (Tree.arrange_eq_self (by decide)).symm⟩
  refine ⟨root, h', hparse, htree, fun hround => ?_⟩
  have hstable := ((parse_dump_parse_iff hparse 0 .empty).1 hround).1
  rw [htree] at hstable
  exact absurd hstable (by decide +kernel)

end PropertyList.Document

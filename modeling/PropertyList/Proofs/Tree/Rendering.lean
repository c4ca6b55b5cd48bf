import PropertyList.Proofs.Text.Quoting
import PropertyList.Proofs.Tree.Order
import PropertyList.Tree.Rendering

/-!
# Renderings and recoding

Every piece of a rendering ends with an ASCII point, so no stray byte of a piece meets one of the
next piece. The rendering is therefore recoded piece by piece, which gives the rendering of the
recoded tree (`recode_render`): recoding a tree changes the strings of its rendering and none of
its bytes.

## Main results

* `Piece.bytes_recode`, `Tree.pieces_recode`
* `Tree.recode_render`
-/

namespace PropertyList

namespace Piece

/-- The piece with its text recoded. -/
def recode : Piece → Piece
  | text t => text t.recode
  | lineBreak blanks => lineBreak blanks

private theorem isAscii_of_mem_content_lineBreak {blanks : Int} :
    ∀ p ∈ (lineBreak blanks).content, p.isAscii := by
  intro p hp
  rcases List.mem_cons.1 hp with rfl | hp
  · decide
  · rw [List.eq_of_mem_replicate hp]
    decide

theorem content_recode (p : Piece) : p.recode.content = p.content.recode := by
  cases p with
  | text t => rfl
  | lineBreak blanks => exact (Text.recode_of_isAscii isAscii_of_mem_content_lineBreak).symm

theorem bytes_recode (p : Piece) : p.recode.bytes = p.bytes := by
  rw [bytes, content_recode, Text.encode_recode, bytes]

theorem blanks_recode (p : Piece) : p.recode.blanks = p.blanks := by
  cases p <;> rfl

theorem isOversized_recode (p : Piece) : p.recode.isOversized = p.isOversized := by
  cases p <;> rfl

/-- A piece is sealed when its text is. -/
def Sealed (p : Piece) : Prop :=
  p.content.Sealed

theorem sealed_lineBreak (blanks : Int) : (lineBreak blanks).Sealed :=
  Text.sealed_of_isAscii isAscii_of_mem_content_lineBreak

theorem sealed_char {p : Point} (hp : p.isAscii) : (text [p]).Sealed :=
  Text.sealed_append_singleton [] hp

theorem recode_char {p : Point} (hp : p.isAscii) : (text [p]).recode = text [p] := by
  rw [recode, Text.recode_cons hp, Text.recode_nil]

end Piece

theorem sealed_of_mem_lineBreak {indent level : Int} :
    ∀ p ∈ lineBreak indent level, p.Sealed := by
  intro p hp
  unfold lineBreak at hp
  split_ifs at hp
  · exact absurd hp List.not_mem_nil
  · rw [List.mem_singleton.1 hp]
    exact Piece.sealed_lineBreak _

theorem map_recode_lineBreak (indent level : Int) :
    (lineBreak indent level).map Piece.recode = lineBreak indent level := by
  unfold lineBreak
  split_ifs <;> rfl

private theorem recode_key (key : Text) :
    Text.recode (key.quote ++ [Point.char ' ', .char '=', .char ' ']) =
      key.recode.quote ++ [Point.char ' ', .char '=', .char ' '] := by
  have hequals :
      Text.recode [.char ' ', .char '=', .char ' '] = [.char ' ', .char '=', .char ' '] :=
    Text.recode_of_isAscii (by decide)
  rw [Text.sealed_quote, Text.recode_quote, hequals]

private theorem sealed_key (key : Text) :
    (Piece.text (key.quote ++ [.char ' ', .char '=', .char ' '])).Sealed := by
  have hspace : (Point.char ' ').isAscii := by decide
  have h := Text.sealed_append_singleton (key.quote ++ [Point.char ' ', Point.char '=']) hspace
  rwa [List.append_assoc] at h

namespace Tree

variable {indent : Int}

/-! ### The pieces of containers -/

/-- The pieces of an array are its brackets around the pieces of its items. -/
theorem pieces_array (level : Int) (items : List Tree) :
    (array items).pieces indent level =
      .text [.char '('] :: itemPieces indent (level + 1) items
        ++ (if items.isEmpty then [] else lineBreak indent level) ++ [.text [.char ')']] := by
  cases items <;> rfl

/-- The pieces of a dictionary are its brackets around the pieces of its entries. -/
theorem pieces_dict (level : Int) (entries : List (Text × Tree)) :
    (dict entries).pieces indent level =
      .text [.char '{'] :: entryPieces indent (level + 1) entries
        ++ (if entries.isEmpty then [] else lineBreak indent level) ++ [.text [.char '}']] := by
  cases entries <;> rfl

/-! ### Recoding -/

private theorem itemPieces_recode {items : List Tree}
    (ih : ∀ t ∈ items, ∀ level,
      t.recode.pieces indent level = (t.pieces indent level).map Piece.recode) (level : Int) :
    itemPieces indent level (items.map recode) =
      (itemPieces indent level items).map Piece.recode := by
  induction items with
  | nil => rfl
  | cons t ts ihs =>
    have hcomma : (Piece.text [.char ',']).recode = .text [.char ','] :=
      Piece.recode_char (by decide)
    have htail := ihs fun u hu => ih u (List.mem_cons_of_mem _ hu)
    rw [List.map_cons, itemPieces, itemPieces, ih t List.mem_cons_self, htail, List.isEmpty_map]
    simp only [List.map_append, map_recode_lineBreak]
    split_ifs <;> simp [hcomma]

private theorem entryPieces_recode {entries : List (Text × Tree)}
    (ih : ∀ e ∈ entries, ∀ level,
      e.2.recode.pieces indent level = (e.2.pieces indent level).map Piece.recode) (level : Int) :
    entryPieces indent level (entries.map fun e => (e.1.recode, e.2.recode)) =
      (entryPieces indent level entries).map Piece.recode := by
  induction entries with
  | nil => rfl
  | cons e es ihs =>
    have hsemicolon : (Piece.text [.char ';']).recode = .text [.char ';'] :=
      Piece.recode_char (by decide)
    have htail := ihs fun f hf => ih f (List.mem_cons_of_mem _ hf)
    rw [List.map_cons, entryPieces, entryPieces, ih e List.mem_cons_self, htail]
    simp only [List.map_append, List.map_cons, map_recode_lineBreak, hsemicolon]
    rw [Piece.recode, recode_key]

/-- Recoding a tree recodes the pieces of its rendering. -/
theorem pieces_recode (t : Tree) (level : Int) :
    t.recode.pieces indent level = (t.pieces indent level).map Piece.recode := by
  induction t generalizing level with
  | string s =>
    rw [recode, mapTexts_string, pieces, pieces, ← Text.recode_quote]
    rfl
  | array items ih =>
    have hopen : (Piece.text [.char '(']).recode = .text [.char '('] :=
      Piece.recode_char (by decide)
    have hclose : (Piece.text [.char ')']).recode = .text [.char ')'] :=
      Piece.recode_char (by decide)
    rw [recode, mapTexts_array, pieces_array, pieces_array]
    change _ :: itemPieces indent (level + 1) (items.map recode) ++ _ ++ _ = _
    rw [itemPieces_recode ih, List.isEmpty_map]
    split_ifs <;> simp [hopen, hclose, map_recode_lineBreak]
  | dict entries ih =>
    have hopen : (Piece.text [.char '{']).recode = .text [.char '{'] :=
      Piece.recode_char (by decide)
    have hclose : (Piece.text [.char '}']).recode = .text [.char '}'] :=
      Piece.recode_char (by decide)
    rw [recode, mapTexts_dict, pieces_dict, pieces_dict]
    change _ :: entryPieces indent (level + 1) (entries.map fun e => (e.1.recode, e.2.recode))
      ++ _ ++ _ = _
    rw [entryPieces_recode ih, List.isEmpty_map]
    split_ifs <;> simp [hopen, hclose, map_recode_lineBreak]

private theorem sealed_of_mem_itemPieces {items : List Tree}
    (ih : ∀ t ∈ items, ∀ level, ∀ p ∈ t.pieces indent level, p.Sealed) (level : Int) :
    ∀ p ∈ itemPieces indent level items, p.Sealed := by
  induction items with
  | nil => exact fun p hp => absurd hp List.not_mem_nil
  | cons t ts ihs =>
    have htail := ihs fun u hu => ih u (List.mem_cons_of_mem _ hu)
    intro p hp
    simp only [itemPieces, List.mem_append] at hp
    rcases hp with ((hp | hp) | hp) | hp
    · exact sealed_of_mem_lineBreak p hp
    · exact ih t List.mem_cons_self level p hp
    · split_ifs at hp
      · exact absurd hp List.not_mem_nil
      · rw [List.mem_singleton.1 hp]
        exact Piece.sealed_char (by decide)
    · exact htail p hp

private theorem sealed_of_mem_entryPieces {entries : List (Text × Tree)}
    (ih : ∀ e ∈ entries, ∀ level, ∀ p ∈ e.2.pieces indent level, p.Sealed) (level : Int) :
    ∀ p ∈ entryPieces indent level entries, p.Sealed := by
  induction entries with
  | nil => exact fun p hp => absurd hp List.not_mem_nil
  | cons e es ihs =>
    have htail := ihs fun f hf => ih f (List.mem_cons_of_mem _ hf)
    intro p hp
    simp only [entryPieces, List.mem_append, List.mem_cons] at hp
    rcases hp with (hp | rfl | hp) | rfl | hp
    · exact sealed_of_mem_lineBreak p hp
    · exact sealed_key e.1
    · exact ih e List.mem_cons_self level p hp
    · exact Piece.sealed_char (by decide)
    · exact htail p hp

/-- Every piece of a rendering is recoded on its own. -/
theorem sealed_of_mem_pieces (t : Tree) (level : Int) :
    ∀ p ∈ t.pieces indent level, p.Sealed := by
  induction t generalizing level with
  | string s =>
    intro p hp
    rw [List.mem_singleton.1 hp]
    exact Text.sealed_quote s
  | array items ih =>
    intro p hp
    simp only [pieces_array, List.mem_append, List.mem_cons, List.not_mem_nil, or_false] at hp
    rcases hp with ((rfl | hp) | hp) | rfl
    · exact Piece.sealed_char (by decide)
    · exact sealed_of_mem_itemPieces ih _ p hp
    · split_ifs at hp
      · exact absurd hp List.not_mem_nil
      · exact sealed_of_mem_lineBreak p hp
    · exact Piece.sealed_char (by decide)
  | dict entries ih =>
    intro p hp
    simp only [pieces_dict, List.mem_append, List.mem_cons, List.not_mem_nil, or_false] at hp
    rcases hp with ((rfl | hp) | hp) | rfl
    · exact Piece.sealed_char (by decide)
    · exact sealed_of_mem_entryPieces ih _ p hp
    · split_ifs at hp
      · exact absurd hp List.not_mem_nil
      · exact sealed_of_mem_lineBreak p hp
    · exact Piece.sealed_char (by decide)

/-- **A rendering is recoded string by string.** -/
theorem recode_render (t : Tree) (level : Int) :
    (t.render indent level).recode = t.recode.render indent level := by
  rw [render, render, Text.recode_flatMap_of_sealed (t.sealed_of_mem_pieces level), pieces_recode,
    List.flatMap_map]
  exact List.flatMap_congr fun p _ => (Piece.content_recode p).symm

end Tree

end PropertyList

import PropertyList.Proofs.Document.Grammar
import PropertyList.Proofs.Token.Lexing
import PropertyList.Proofs.Tree.Rendering

/-!
# Renderings are documents

The tokens of a rendering are a document that denotes the tree rendered. Line breaks add nothing
to them, and every string is followed by a space, a mark or a line break, so that no word runs on.

## Main results

* `Tree.exists_lexes_render`
* `Tree.documentTokens_scan_render`
-/

namespace PropertyList.Tree

variable {indent : Int}

private theorem isSpace_of_mem_lineBreak {level : Int} :
    ∀ p ∈ (lineBreak indent level).flatMap Piece.content, p.isSpace := by
  intro p hp
  unfold lineBreak at hp
  split_ifs at hp
  · exact absurd hp List.not_mem_nil
  · rw [List.flatMap_singleton] at hp
    rcases List.mem_cons.1 hp with rfl | hp
    · decide
    · rw [List.eq_of_mem_replicate hp]
      decide

/-- A mark may close a container behind a line break. -/
private theorem lexes_closing (empty : Bool) (indent level : Int) (m : Mark) :
    Lexes ((if empty then [] else lineBreak indent level).flatMap Piece.content ++ [.char m.char])
      [.mark m] := by
  refine (lexes_mark m).spaces ?_
  cases empty
  · exact isSpace_of_mem_lineBreak
  · exact fun p hp => absurd hp List.not_mem_nil

private theorem endsWord_closing (empty : Bool) (indent level : Int) (m : Mark) :
    Text.EndsWord
      ((if empty then [] else lineBreak indent level).flatMap Piece.content ++ [.char m.char]) := by
  refine Text.EndsWord.append (Text.endsWord_of_isSpace ?_) (Text.endsWord_mark m [])
  cases empty
  · exact isSpace_of_mem_lineBreak
  · exact fun p hp => absurd hp List.not_mem_nil

private theorem exists_lexes_itemPieces {items : List Tree} {level : Int}
    (ih : ∀ t ∈ items, ∃ tokens, ValueTokens tokens t ∧ Lexes (t.render indent level) tokens) :
    ∃ tokens, Listing ValueTokens .comma tokens items ∧
      Lexes ((itemPieces indent level items).flatMap Piece.content) tokens := by
  induction items with
  | nil => exact ⟨[], .empty, lexes_nil⟩
  | cons t ts ihs =>
    obtain ⟨tokens, hvalue, hlexes⟩ := ih t List.mem_cons_self
    obtain ⟨others, hlisting, hothers⟩ := ihs fun u hu => ih u (List.mem_cons_of_mem t hu)
    simp only [itemPieces, List.flatMap_append, List.append_assoc]
    cases ts with
    | nil =>
      refine ⟨tokens ++ [], .cons hvalue .nil, Lexes.spaces isSpace_of_mem_lineBreak ?_⟩
      exact hlexes.append lexes_nil Text.endsWord_nil
    | cons u us =>
      refine ⟨tokens ++ .mark .comma :: others, .cons hvalue (.mark hlisting),
        Lexes.spaces isSpace_of_mem_lineBreak ?_⟩
      exact hlexes.append (hothers.mark .comma) (Text.endsWord_mark .comma _)

private theorem exists_lexes_entryPieces {entries : List (Text × Tree)} {level : Int}
    (ih : ∀ e ∈ entries, ∃ tokens, ValueTokens tokens e.2 ∧
      Lexes (e.2.render indent level) tokens) :
    ∃ tokens, Listing (EntryTokens ValueTokens) .semicolon tokens entries ∧
      Lexes ((entryPieces indent level entries).flatMap Piece.content) tokens := by
  induction entries with
  | nil => exact ⟨[], .empty, lexes_nil⟩
  | cons e es ihs =>
    obtain ⟨tokens, hvalue, hlexes⟩ := ih e List.mem_cons_self
    obtain ⟨others, hlisting, hothers⟩ := ihs fun f hf => ih f (List.mem_cons_of_mem e hf)
    have hvalues := hlexes.append (hothers.mark .semicolon) (Text.endsWord_mark .semicolon _)
    have hspace : (Point.char ' ').isSpace := by decide
    have hequals := ((hvalues.space hspace).mark .equals).space hspace
    refine ⟨.ofText e.1 :: .mark .equals :: tokens ++ .mark .semicolon :: others,
      .cons (.intro (Token.string?_ofText e.1) hvalue) (.mark hlisting), ?_⟩
    simp only [entryPieces, List.flatMap_append, List.flatMap_cons, List.append_assoc]
    refine Lexes.spaces isSpace_of_mem_lineBreak ?_
    rw [Piece.content, List.append_assoc]
    exact (lexes_quote e.1).append hequals (Text.endsWord_cons (by decide) _)

/-- The rendering of a tree has tokens that denote the tree. -/
theorem exists_lexes_render (t : Tree) (level : Int) :
    ∃ tokens, ValueTokens tokens t ∧ Lexes (t.render indent level) tokens := by
  induction t generalizing level with
  | string s =>
    refine ⟨[.ofText s], .string (Token.string?_ofText s), ?_⟩
    rw [render, pieces, List.flatMap_singleton]
    exact lexes_quote s
  | array items ih =>
    obtain ⟨tokens, hlisting, hlexes⟩ :=
      exists_lexes_itemPieces fun t ht => ih t ht (level + 1)
    refine ⟨_, .array hlisting, ?_⟩
    have hclosed := hlexes.append (lexes_closing items.isEmpty indent level .closeParen)
      (endsWord_closing items.isEmpty indent level .closeParen)
    rw [render, pieces_array]
    simpa [Piece.content, Mark.char] using hclosed.mark .openParen
  | dict entries ih =>
    obtain ⟨tokens, hlisting, hlexes⟩ :=
      exists_lexes_entryPieces fun e he => ih e he (level + 1)
    refine ⟨_, .dict hlisting, ?_⟩
    have hclosed := hlexes.append (lexes_closing entries.isEmpty indent level .closeBrace)
      (endsWord_closing entries.isEmpty indent level .closeBrace)
    rw [render, pieces_dict]
    simpa [Piece.content, Mark.char] using hclosed.mark .openBrace

/-- **A rendering is a document.** It is cut into tokens without an error, and its tokens denote
the tree rendered. -/
theorem documentTokens_scan_render (t : Tree) (indent level : Int) :
    DocumentTokens ((t.render indent level).scan.tokens.map (·.token)) t ∧
      (t.render indent level).scan.error = none := by
  obtain ⟨tokens, hvalue, hlexes⟩ :
      ∃ tokens, ValueTokens tokens t ∧ Lexes (t.render indent level) tokens :=
    t.exists_lexes_render level
  obtain ⟨htokens, herror⟩ := hlexes.scan
  rw [htokens, ← List.append_nil tokens]
  exact ⟨.intro hvalue (Or.inl rfl), herror⟩

end PropertyList.Tree

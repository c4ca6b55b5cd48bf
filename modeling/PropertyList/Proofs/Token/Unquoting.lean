import PropertyList.Proofs.Token.Positions

/-!
# Reading written strings back

A string is written as a bare word or between quotation marks, and what is read at its front is one
token, which stands for the string again. For a bare word this depends on what follows, since a word
is as long as it can be, and for a quoted string it does not.

To say what a single token takes, and where it leaves off, a text is read with a *cursor*, which is
a place in a document together with the text from there on. The cursor passes over blanks up to the
next token, yields it and stands behind it. At the end of the input it yields the ending and stays
where it is. Scanning is nothing else than reading with a cursor again and again, up to the ending
or to an error.

## Main definitions

* `Cursor`, `Cursor.next`
* `Text.replaceAll`, the replacement of one point throughout a text

## Main results

* `scanFrom_eq_next` : scanning goes from token to token.
* `Text.quote_eq_replaceAll` : escapes are made by two replacements, the backslashes first.
* `lexeme_quote_iff` : what may follow a written string.
* `quote_append_inj` : two written strings that start the same text are the same string.
* `scan_quote_of_cutUpTo` : a written string in the midst of a document.
* `quoting_undone`
-/

namespace PropertyList

/-! ### One token at a time -/

/-- A place in a document and the text from there on. -/
structure Cursor where
  position : Position
  rest : Text
  deriving DecidableEq, Repr

namespace Cursor

/-- The next token behind a cursor, and the cursor behind that token. -/
def next (c : Cursor) : Except LexError (PlacedToken × Cursor) :=
  match _h : front c.rest with
  | .ending => .ok (⟨.ending, c.position⟩, c)
  | .fault f => .error ⟨f, c.position⟩
  | .blank taken rest => next ⟨c.position.advance taken, rest⟩
  | .lexeme token taken rest => .ok (⟨token, c.position⟩, ⟨c.position.advance taken, rest⟩)
  termination_by c.rest.length
  decreasing_by exact length_rest_lt_of_front (by rw [‹front c.rest = _›]; rfl)

theorem next_of_lexeme {c : Cursor} {taken rest : Text} {token : Token}
    (h : front c.rest = .lexeme token taken rest) :
    c.next = .ok (⟨token, c.position⟩, ⟨c.position.advance taken, rest⟩) := by
  rw [next]
  split <;> simp_all

end Cursor

/-- **Scanning goes from token to token.** What is scanned behind a cursor is its next token and
what is scanned behind that one, unless the token is the ending or there is an error in its
place. -/
theorem scanFrom_eq_next (c : Cursor) :
    scanFrom c.position c.rest =
      match c.next with
      | .error e => ⟨[], some e⟩
      | .ok (token, after) =>
        if token.token = .ending then ⟨[token], none⟩
        else
          ⟨token :: (scanFrom after.position after.rest).tokens,
            (scanFrom after.position after.rest).error⟩ := by
  fun_induction Cursor.next c with
  | case1 c hfront =>
    rw [eq_nil_of_front hfront, scanFrom_nil]
    rfl
  | case2 c f hfront => exact scanFrom_of_fault hfront c.position
  | case3 c taken rest hfront ih => rw [scanFrom_of_blank hfront, ih]
  | case4 c token taken rest hfront =>
    rw [scanFrom_of_lexeme hfront]
    exact (if_neg (ne_ending_of_front hfront)).symm

theorem scanFrom_of_next {c after : Cursor} {token : PlacedToken} (h : c.next = .ok (token, after))
    (htoken : token.token ≠ .ending) :
    scanFrom c.position c.rest =
      ⟨token :: (scanFrom after.position after.rest).tokens,
        (scanFrom after.position after.rest).error⟩ := by
  rw [scanFrom_eq_next, h]
  exact if_neg htoken

/-! ### Two replacements -/

namespace Text

/-- The text with `new` in the place of every point `old`. -/
def replaceAll (t : Text) (old : Point) (new : Text) : Text :=
  t.flatMap fun p => if p = old then new else [p]

/-- The second replacement finds no quotation mark in what the first one has put in, and the
backslashes that it puts in itself are not doubled any more. -/
theorem flatMap_escape_eq_replaceAll (t : Text) :
    t.flatMap Point.escape =
      (t.replaceAll (.char '\\') [.char '\\', .char '\\']).replaceAll (.char '"')
        [.char '\\', .char '"'] := by
  rw [replaceAll, replaceAll, List.flatMap_assoc]
  refine List.flatMap_congr fun p _ => ?_
  by_cases hslash : p = .char '\\'
  · rw [hslash]
    rfl
  · rw [if_neg hslash, List.flatMap_singleton, Point.escape]
    by_cases hquote : p = .char '"'
    · rw [if_pos hquote, if_pos (Or.inl hquote), hquote]
    · rw [if_neg hquote, if_neg (not_or.2 ⟨hquote, hslash⟩)]

/-- A string that is no bare word is written by doubling its backslashes first, and by putting
backslashes in front of its quotation marks then. -/
theorem quote_eq_replaceAll (t : Text) :
    t.quote =
      if t.isBareWord then t
      else
        .char '"' ::
            (t.replaceAll (.char '\\') [.char '\\', .char '\\']).replaceAll (.char '"')
              [.char '\\', .char '"'] ++
          [.char '"'] := by
  rw [quote, flatMap_escape_eq_replaceAll]

/-- In the other order the backslash in front of a quotation mark would be doubled, and the mark
would close the string. -/
example :
    (replaceAll [.char '"'] (.char '"') [.char '\\', .char '"']).replaceAll (.char '\\')
        [.char '\\', .char '\\'] = [.char '\\', .char '\\', .char '"'] := by
  decide

end Text

/-! ### Written strings as lexemes -/

theorem Token.ofText_eq_or (v : Text) : ofText v = .word v ∨ ofText v = .quoted v := by
  unfold ofText
  split
  · exact Or.inl rfl
  · exact Or.inr rfl

theorem Token.ofText_ne_ending (v : Text) : ofText v ≠ .ending := by
  rcases ofText_eq_or v with h | h <;> rw [h] <;> rintro ⟨⟩

/-- **What may follow a written string.** A quoted string is a lexeme in front of anything, and a
bare word is one exactly in front of what ends a word. -/
theorem lexeme_quote_iff {v rest : Text} :
    Lexeme rest (.ofText v) v.quote ↔ (v.isBareWord → rest.EndsWord) := by
  constructor
  · intro h hv
    rw [Text.quote_of_isBareWord hv, Token.ofText, if_pos hv] at h
    cases h with
    | word _ _ hend => exact hend
  · exact fun hrest => lexeme_of_front (front_quote_append hrest)

section

variable {v rest : Text} (hrest : v.isBareWord → rest.EndsWord)

include hrest

/-- A cursor in front of a written string yields the string and stands behind it. -/
theorem Cursor.next_quote (pos : Position) :
    Cursor.next ⟨pos, v.quote ++ rest⟩ =
      .ok (⟨.ofText v, pos⟩, ⟨pos.advance v.quote, rest⟩) :=
  next_of_lexeme (front_quote_append hrest)

/-- **A written string in the midst of a document.** Where what is in front of a written string is
cut into tiles, scanning yields the string at its place and goes on behind it. -/
theorem scan_quote_of_cutUpTo {before : Text} {tiles : List Tile}
    (h : CutUpTo (v.quote ++ rest) (before ++ (v.quote ++ rest)) tiles) :
    (before ++ (v.quote ++ rest)).scan =
      ⟨Tile.placeBehind [] tiles ++ ⟨.ofText v, .behind before⟩ ::
          (scanFrom (.behind (before ++ v.quote)) rest).tokens,
        (scanFrom (.behind (before ++ v.quote)) rest).error⟩ := by
  have hbefore : before = tiles.flatMap Tile.text := List.append_cancel_right h.eq_append
  have hstart : Position.start.advance before = .behind before := Position.advance_behind [] before
  have hplace : Tile.place .start tiles = Tile.placeBehind [] tiles := Tile.place_behind [] tiles
  have hquote := scanFrom_of_next (Cursor.next_quote hrest (.behind before))
    (Token.ofText_ne_ending v)
  rw [Position.advance_behind] at hquote
  rw [Text.scan, h.scanFrom_eq, ← hbefore, hstart, hplace, hquote]

end

/-! ### Reading back -/

/-- Two written strings that start the same text are the same string, and the same text follows
them. -/
theorem quote_append_inj {v w rest others : Text} (hrest : v.isBareWord → rest.EndsWord)
    (hothers : w.isBareWord → others.EndsWord) (h : v.quote ++ rest = w.quote ++ others) :
    v = w ∧ rest = others := by
  have hfront := front_quote_append hrest
  rw [h, front_quote_append hothers] at hfront
  obtain ⟨htoken, -, hafter⟩ := Front.lexeme.inj hfront
  have hstring := congrArg Token.string? htoken
  rw [Token.string?_ofText, Token.string?_ofText] at hstring
  exact ⟨(Option.some.inj hstring).symm, hafter.symm⟩

/-- **Quoting is undone by scanning.** Whatever a string consists of, and whatever follows its
written form without running on from a word, the next token there is the string, as a word or
quoted, and the cursor comes to stand right behind the written form. Different strings are
therefore written differently. -/
theorem quoting_undone :
    (∀ (pos : Position) (v rest : Text), rest.EndsWord →
      ∃ token : Token, (token = .word v ∨ token = .quoted v) ∧
        Cursor.next ⟨pos, v.quote ++ rest⟩ =
          .ok (⟨token, pos⟩, ⟨pos.advance v.quote, rest⟩)) ∧
      Function.Injective Text.quote := by
  constructor
  · intro pos v rest hrest
    exact ⟨.ofText v, Token.ofText_eq_or v, Cursor.next_quote (fun _ => hrest) pos⟩
  · intro v w h
    have happend : v.quote ++ [] = w.quote ++ [] := congrArg (· ++ []) h
    exact (quote_append_inj (fun _ => Text.endsWord_nil) (fun _ => Text.endsWord_nil) happend).1

/-- A string of a stray byte, a line feed, both escapes and what looks like a comment, in front of
a slash. -/
theorem quoting_undone_escapes :
    let v : Text := [.stray 0x69, .char '\n', .char '\\', .char '"', .char '/', .char '*']
    Text.EndsWord [.char '/'] ∧
      (∃ token : Token, (token = .word v ∨ token = .quoted v) ∧
        Cursor.next ⟨.start, v.quote ++ [.char '/']⟩ =
          .ok (⟨token, .start⟩, ⟨⟨2, 8⟩, [.char '/']⟩)) := by
  have hend : Text.EndsWord [.char '/'] := Text.endsWord_cons (by decide) []
  exact ⟨hend, quoting_undone.1 .start _ _ hend⟩

end PropertyList

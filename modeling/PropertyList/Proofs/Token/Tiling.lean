import PropertyList.Proofs.Token.Lexing

/-!
# Texts as sequences of tiles

Scanning takes a text apart from left to right. What it comes to can be said without a scanner: the
text is a sequence of *tiles*, each of them a blank or a lexeme, which leave nothing out and do not
overlap. A blank is a run of spaces or a comment, and a lexeme is a mark, a word or a quoted string.
Runs and words end where no space and no point of a word follows, a comment ends where it can be
closed first, and a quoted string ends at the first quotation mark that no backslash passes.

Of each tile it is told by the text at hand what it is and where it ends. A text is therefore cut
into tiles in one way at most, and its tokens are the lexemes of the cut.

## Main definitions

* `Unescapes`, what a quoted string stands for
* `Comment`, `Lexeme`, `Tile.StandsBefore`, the tiles that may stand in front of a text
* `Cut`, the ways to cut a text into tiles
* `CutUpTo`, the ways to cut the front of a text, and `Tile.place`, the tokens of tiles with their
  positions

## Main results

* `Lexeme.front_eq`, `lexeme_of_front`, `Comment.front_eq`, `comment_or_space_of_front` : lexemes
  and comments are what scanning takes.
* `Tile.StandsBefore.unique`, `Cut.unique`
* `CutUpTo.scanFrom_eq`, `exists_cutUpTo`
* `Cut.scanFrom_eq`, `exists_cut_of_scanFrom`
* `tokens_tile` : which texts are cut to their end, and into which tokens.
-/

namespace PropertyList

/-! ### Tiles -/

/-- What stands between quotation marks and the string that it stands for: a backslash is left out
and passes the point after it, whatever that is, and no other quotation mark may stand there. -/
inductive Unescapes : Text → Text → Prop
  | nil : Unescapes [] []
  | plain {p : Point} {inside value : Text} (hquote : p ≠ .char '"') (hslash : p ≠ .char '\\')
      (h : Unescapes inside value) : Unescapes (p :: inside) (p :: value)
  | passed (p : Point) {inside value : Text} (h : Unescapes inside value) :
      Unescapes (.char '\\' :: p :: inside) (p :: value)

/-- The comments that may stand in front of `rest`. -/
inductive Comment (rest : Text) : Text → Prop
  /-- From a slash and an asterisk to the first asterisk and slash behind them. -/
  | block {inside : Text} (h : ¬ [.char '*', .char '/'] <:+: inside ++ [.char '*']) :
      Comment rest (.char '/' :: .char '*' :: inside ++ [.char '*', .char '/'])
  /-- From two slashes to the first line feed. -/
  | line {inside : Text} (h : .char '\n' ∉ inside) :
      Comment rest (.char '/' :: .char '/' :: inside ++ [.char '\n'])
  /-- From two slashes to the end of the text. -/
  | lastLine {inside : Text} (h : .char '\n' ∉ inside) (hrest : rest = []) :
      Comment rest (.char '/' :: .char '/' :: inside)

/-- The lexemes that may stand in front of `rest`, and their tokens. -/
inductive Lexeme (rest : Text) : Token → Text → Prop
  | mark (m : Mark) : Lexeme rest (.mark m) [.char m.char]
  /-- A word is as long as it can be. -/
  | word {w : Text} (hne : w ≠ []) (hw : ∀ p ∈ w, p.isWord) (hend : rest.EndsWord) :
      Lexeme rest (.word w) w
  | quoted {inside value : Text} (h : Unescapes inside value) :
      Lexeme rest (.quoted value) (.char '"' :: inside ++ [.char '"'])

/-- A piece of a text. -/
inductive Tile where
  | blank (text : Text)
  | lexeme (token : Token) (text : Text)

namespace Tile

/-- The text of a tile. -/
def text : Tile → Text
  | blank text | lexeme _ text => text

/-- The token of a tile. -/
def token? : Tile → Option Token
  | blank _ => none
  | lexeme token _ => some token

/-- The tiles that may stand in front of `rest`. -/
inductive StandsBefore (rest : Text) : Tile → Prop
  /-- A run of spaces is as long as it can be. -/
  | spaces {run : Text} (hne : run ≠ []) (hrun : ∀ p ∈ run, p.isSpace)
      (hend : ∀ p ∈ rest.head?, ¬ p.isSpace) : StandsBefore rest (.blank run)
  | comment {text : Text} (h : Comment rest text) : StandsBefore rest (.blank text)
  | lexeme {token : Token} {text : Text} (h : Lexeme rest token text) :
      StandsBefore rest (.lexeme token text)

end Tile

/-- The ways to cut a text into tiles. -/
inductive Cut : Text → List Tile → Prop
  | nil : Cut [] []
  | cons {tile : Tile} {rest : Text} {tiles : List Tile} (h : tile.StandsBefore rest)
      (hs : Cut rest tiles) : Cut (tile.text ++ rest) (tile :: tiles)

/-- The ways to cut a text into tiles up to the text `rest` at its end. -/
inductive CutUpTo (rest : Text) : Text → List Tile → Prop
  | nil : CutUpTo rest rest []
  | cons {tile : Tile} {t : Text} {tiles : List Tile} (h : tile.StandsBefore t)
      (hs : CutUpTo rest t tiles) : CutUpTo rest (tile.text ++ t) (tile :: tiles)

theorem cutUpTo_nil_iff {t : Text} {tiles : List Tile} : CutUpTo [] t tiles ↔ Cut t tiles := by
  constructor
  · intro h
    induction h with
    | nil => exact .nil
    | cons h _ ih => exact .cons h ih
  · intro h
    induction h with
    | nil => exact .nil
    | cons h _ ih => exact .cons h ih

/-- Tiles leave nothing out. -/
theorem CutUpTo.eq_append {rest t : Text} {tiles : List Tile} (h : CutUpTo rest t tiles) :
    t = tiles.flatMap Tile.text ++ rest := by
  induction h with
  | nil => rfl
  | cons _ _ ih => rw [List.flatMap_cons, List.append_assoc, ← ih]

/-- The tokens of tiles of which the first stands at `pos`. -/
def Tile.place (pos : Position) : List Tile → List PlacedToken
  | [] => []
  | .blank text :: tiles => place (pos.advance text) tiles
  | .lexeme token text :: tiles => ⟨token, pos⟩ :: place (pos.advance text) tiles

theorem Tile.map_token_place (pos : Position) (tiles : List Tile) :
    (place pos tiles).map (·.token) = tiles.filterMap token? := by
  induction tiles generalizing pos with
  | nil => rfl
  | cons tile tiles ih =>
    cases tile with
    | blank text => exact ih _
    | lexeme token text => exact congrArg (token :: ·) (ih _)

/-! ### Where comments and quoted strings end -/

theorem splitComment_append {inside : Text}
    (h : ¬ [.char '*', .char '/'] <:+: inside ++ [.char '*']) (rest : Text) :
    splitComment (inside ++ .char '*' :: .char '/' :: rest) =
      some (inside ++ [.char '*', .char '/'], rest) := by
  induction inside with
  | nil => rfl
  | cons p inside ih =>
    rw [List.cons_append, List.infix_cons_iff, not_or] at h
    have hopen : ∀ after : Text, p = .char '*' →
        inside ++ .char '*' :: .char '/' :: rest ≠ .char '/' :: after := by
      rintro after rfl heq
      refine h.1 ?_
      cases inside with
      | nil => cases heq
      | cons q inside =>
        obtain ⟨rfl, -⟩ := List.cons.inj heq
        exact ⟨inside ++ [.char '*'], rfl⟩
    rw [List.cons_append, splitComment, ih h.2]
    · rfl
    · exact hopen

theorem exists_inside_of_splitComment {t taken rest : Text}
    (h : splitComment t = some (taken, rest)) :
    ∃ inside, taken = inside ++ [.char '*', .char '/'] ∧
      ¬ [.char '*', .char '/'] <:+: inside ++ [.char '*'] := by
  fun_induction splitComment t generalizing taken rest with
  | case1 => cases h
  | case2 t =>
    obtain ⟨rfl, -⟩ := Prod.mk.inj (Option.some.inj h)
    exact ⟨[], rfl, by decide⟩
  | case3 p t hopen ih =>
    obtain ⟨⟨taken', rest'⟩, hsplit, hcut⟩ := Option.map_eq_some_iff.1 h
    obtain ⟨rfl, rfl⟩ := Prod.mk.inj hcut
    obtain ⟨inside, rfl, hnot⟩ := ih hsplit
    refine ⟨p :: inside, rfl, ?_⟩
    rw [List.cons_append, List.infix_cons_iff, not_or]
    refine ⟨?_, hnot⟩
    rintro ⟨after, hafter⟩
    obtain ⟨rfl, htail⟩ := List.cons.inj hafter
    have ht := inside_append_after_of_splitComment hsplit
    cases inside with
    | nil => cases htail
    | cons q inside =>
      obtain ⟨rfl, -⟩ := List.cons.inj htail
      exact hopen _ rfl ht.symm

theorem splitLine_append_feed {inside : Text} (h : .char '\n' ∉ inside) (rest : Text) :
    splitLine (inside ++ .char '\n' :: rest) = (inside ++ [.char '\n'], rest) := by
  induction inside with
  | nil => rfl
  | cons p inside ih =>
    obtain ⟨hp, hinside⟩ := not_or.1 (mt List.mem_cons.2 h)
    rw [List.cons_append, splitLine, if_neg (Ne.symm hp), ih hinside]
    rfl

theorem splitLine_of_notMem {inside : Text} (h : .char '\n' ∉ inside) :
    splitLine inside = (inside, []) := by
  induction inside with
  | nil => rfl
  | cons p inside ih =>
    obtain ⟨hp, hinside⟩ := not_or.1 (mt List.mem_cons.2 h)
    rw [splitLine, if_neg (Ne.symm hp), ih hinside]

theorem splitLine_cases (t : Text) :
    (∃ inside, .char '\n' ∉ inside ∧ (splitLine t).1 = inside ++ [.char '\n']) ∨
      .char '\n' ∉ (splitLine t).1 ∧ (splitLine t).2 = [] := by
  induction t with
  | nil => exact Or.inr ⟨List.not_mem_nil, rfl⟩
  | cons p t ih =>
    by_cases hp : p = .char '\n'
    · rw [splitLine, if_pos hp, hp]
      exact Or.inl ⟨[], List.not_mem_nil, rfl⟩
    · rw [splitLine, if_neg hp]
      rcases ih with ⟨inside, hinside, htaken⟩ | ⟨hinside, hrest⟩
      · exact Or.inl ⟨p :: inside, List.not_mem_cons_of_ne_of_not_mem (Ne.symm hp) hinside,
          by rw [htaken]; rfl⟩
      · exact Or.inr ⟨List.not_mem_cons_of_ne_of_not_mem (Ne.symm hp) hinside, hrest⟩

theorem Unescapes.splitQuoted_eq {inside value : Text} (h : Unescapes inside value) (rest : Text) :
    splitQuoted (inside ++ .char '"' :: rest) = some (value, inside ++ [.char '"'], rest) := by
  induction h with
  | nil => rfl
  | plain hquote hslash h ih =>
    rw [List.cons_append, splitQuoted, if_neg hslash, ih]
    · rfl
    · exact fun h => hquote h
    · exact fun _ _ h _ => hslash h
  | passed p h ih =>
    rw [List.cons_append, List.cons_append, splitQuoted, ih]
    rfl

theorem exists_unescapes_of_splitQuoted {t value taken rest : Text}
    (h : splitQuoted t = some (value, taken, rest)) :
    ∃ inside, taken = inside ++ [.char '"'] ∧ Unescapes inside value := by
  fun_induction splitQuoted t generalizing value taken rest with
  | case1 => cases h
  | case2 t =>
    simp only [Option.some.injEq, Prod.mk.injEq] at h
    obtain ⟨rfl, rfl, rfl⟩ := h
    exact ⟨[], rfl, .nil⟩
  | case3 p t ih =>
    obtain ⟨⟨value', taken', rest'⟩, hsplit, hcut⟩ := Option.map_eq_some_iff.1 h
    simp only [Prod.mk.injEq] at hcut
    obtain ⟨rfl, rfl, rfl⟩ := hcut
    obtain ⟨inside, rfl, hinside⟩ := ih hsplit
    exact ⟨_, rfl, .passed p hinside⟩
  | case4 => cases h
  | case5 p t hquote _ hslash ih =>
    obtain ⟨⟨value', taken', rest'⟩, hsplit, hcut⟩ := Option.map_eq_some_iff.1 h
    simp only [Prod.mk.injEq] at hcut
    obtain ⟨rfl, rfl, rfl⟩ := hcut
    obtain ⟨inside, rfl, hinside⟩ := ih hsplit
    exact ⟨_, rfl, .plain (fun h => hquote h) hslash hinside⟩

/-! ### What scanning takes -/

theorem Comment.front_eq {rest text : Text} (h : Comment rest text) :
    front (text ++ rest) = .blank text rest := by
  cases h with
  | @block inside h =>
    have hsplit := splitComment_append h rest
    simp only [List.cons_append, List.append_assoc, List.nil_append, front, hsplit]
  | @line inside h =>
    have hsplit := splitLine_append_feed h rest
    simp only [List.cons_append, List.append_assoc, List.nil_append, front, hsplit]
  | @lastLine inside h hrest =>
    have hsplit := splitLine_of_notMem h
    simp only [hrest, List.append_nil, front, hsplit]

theorem Lexeme.front_eq {rest text : Text} {token : Token} (h : Lexeme rest token text) :
    front (text ++ rest) = .lexeme token text rest := by
  cases h with
  | mark m => exact front_mark m rest
  | word hne hw hend =>
    obtain ⟨p, w, rfl⟩ := List.exists_cons_of_ne_nil hne
    obtain ⟨hp, hw⟩ := List.forall_mem_cons.1 hw
    obtain ⟨htake, hdrop⟩ := span_run hw hend
    rw [List.cons_append, front_of_isWord hp, htake, hdrop]
  | quoted h =>
    have hsplit := h.splitQuoted_eq rest
    simp only [List.cons_append, List.append_assoc, List.nil_append, front, hsplit]

/-- A run ends in front of something that does not belong to it. -/
theorem not_of_mem_head?_dropWhile {f : Point → Bool} {t : Text} {p : Point}
    (hp : p ∈ (t.dropWhile f).head?) : ¬ f p := by
  rw [← List.find?_not_eq_head?_dropWhile] at hp
  simpa using List.find?_some hp

theorem lexeme_of_front {t taken rest : Text} {token : Token} :
    front t = .lexeme token taken rest → Lexeme rest token taken := by
  fun_cases front t with
  | case5 t value inside after hsplit =>
    intro h
    obtain ⟨rfl, rfl, rfl⟩ := Front.lexeme.inj h
    obtain ⟨inside, rfl, hinside⟩ := exists_unescapes_of_splitQuoted hsplit
    exact .quoted hinside
  | case8 p t _ _ _ _ m hm =>
    intro h
    obtain ⟨rfl, rfl, rfl⟩ := Front.lexeme.inj h
    rw [Mark.ofPoint?] at hm
    have hp := List.find?_some hm
    obtain rfl : p = .char m.char := of_decide_eq_true hp
    exact .mark m
  | case9 p t _ _ _ _ _ hp =>
    intro h
    obtain ⟨rfl, rfl, rfl⟩ := Front.lexeme.inj h
    refine .word (List.cons_ne_nil _ _) ?_ fun q hq => not_of_mem_head?_dropWhile hq
    exact List.forall_mem_cons.2 ⟨hp, fun q hq => List.mem_takeWhile_imp hq⟩
  | case1 | case2 | case3 | case4 | case6 | case7 | case10 => rintro ⟨⟩

/-- A blank at the front of a text is a comment or a single space. -/
theorem comment_or_space_of_front {t taken rest : Text} :
    front t = .blank taken rest → Comment rest taken ∨ ∃ p : Point, p.isSpace ∧ taken = [p] := by
  fun_cases front t with
  | case2 t inside after hsplit =>
    intro h
    obtain ⟨rfl, rfl⟩ := Front.blank.inj h
    obtain ⟨inside, rfl, hinside⟩ := exists_inside_of_splitComment hsplit
    exact Or.inl (.block hinside)
  | case4 t =>
    intro h
    obtain ⟨rfl, rfl⟩ := Front.blank.inj h
    rcases splitLine_cases t with ⟨inside, hinside, htaken⟩ | ⟨hinside, hrest⟩
    · rw [htaken]
      exact Or.inl (.line hinside)
    · exact Or.inl (.lastLine hinside hrest)
  | case7 p t _ _ _ hp =>
    intro h
    obtain ⟨rfl, rfl⟩ := Front.blank.inj h
    exact Or.inr ⟨p, hp, rfl⟩
  | case1 | case3 | case5 | case6 | case8 | case9 | case10 => rintro ⟨⟩

/-! ### Where tiles end -/

namespace Tile

/-- The cut that takes a tile, if the tile is no run of spaces. -/
def front (rest : Text) : Tile → Front
  | blank text => .blank text rest
  | lexeme token text => .lexeme token text rest

theorem front_inj {tile other : Tile} {rest rest' : Text}
    (h : tile.front rest = other.front rest') : tile = other ∧ rest = rest' := by
  cases tile <;> cases other <;> simp_all [front]

end Tile

theorem Comment.exists_cons {rest text : Text} (h : Comment rest text) :
    ∃ p after, text = p :: after ∧ ¬ p.isSpace := by
  cases h <;> exact ⟨_, _, rfl, by decide⟩

theorem Lexeme.exists_cons {rest text : Text} {token : Token} (h : Lexeme rest token text) :
    ∃ p after, text = p :: after ∧ ¬ p.isSpace := by
  cases h with
  | mark m => exact ⟨_, _, rfl, by cases m <;> decide⟩
  | word hne hw hend =>
    obtain ⟨p, after, rfl⟩ := List.exists_cons_of_ne_nil hne
    exact ⟨p, after, rfl, fun hspace =>
      Point.not_isWord_of_isSpace hspace (hw p List.mem_cons_self)⟩
  | quoted h => exact ⟨_, _, rfl, by decide⟩

/-- What tells a tile from the text at hand: where spaces come first they are taken to the last,
and everywhere else the tile is what scanning takes. -/
theorem Tile.StandsBefore.eq_or {tile : Tile} {rest : Text} (h : tile.StandsBefore rest) :
    ((tile.text ++ rest).takeWhile Point.isSpace ≠ [] ∧
        tile = .blank ((tile.text ++ rest).takeWhile Point.isSpace) ∧
        rest = (tile.text ++ rest).dropWhile Point.isSpace) ∨
      (tile.text ++ rest).takeWhile Point.isSpace = [] ∧
        PropertyList.front (tile.text ++ rest) = tile.front rest := by
  have hmiss : ∀ text : Text, (∃ p after, text = p :: after ∧ ¬ p.isSpace) →
      (text ++ rest).takeWhile Point.isSpace = [] := by
    rintro text ⟨p, after, rfl, hp⟩
    exact List.takeWhile_cons_of_neg hp
  cases h with
  | spaces hne hrun hend =>
    obtain ⟨htake, hdrop⟩ := span_run hrun hend
    refine Or.inl ⟨?_, ?_, hdrop.symm⟩
    · exact htake.symm ▸ hne
    · exact congrArg Tile.blank htake.symm
  | comment h => exact Or.inr ⟨hmiss _ h.exists_cons, h.front_eq⟩
  | lexeme h => exact Or.inr ⟨hmiss _ h.exists_cons, h.front_eq⟩

theorem Tile.StandsBefore.unique {tile other : Tile} {rest rest' : Text}
    (h : tile.StandsBefore rest) (h' : other.StandsBefore rest')
    (heq : tile.text ++ rest = other.text ++ rest') : tile = other ∧ rest = rest' := by
  have h := h.eq_or
  have h' := h'.eq_or
  rw [heq] at h
  rcases h with ⟨hne, htile, hrest⟩ | ⟨hnil, hfront⟩ <;>
    rcases h' with ⟨hne', hother, hrest'⟩ | ⟨hnil', hfront'⟩
  · exact ⟨htile.trans hother.symm, hrest.trans hrest'.symm⟩
  · exact absurd hnil' hne
  · exact absurd hnil hne'
  · exact front_inj (hfront.symm.trans hfront')

theorem Tile.StandsBefore.text_ne_nil {tile : Tile} {rest : Text} (h : tile.StandsBefore rest) :
    tile.text ≠ [] := by
  cases h with
  | spaces hne hrun hend => exact hne
  | comment h =>
    obtain ⟨p, after, rfl, -⟩ := h.exists_cons
    exact List.cons_ne_nil p after
  | lexeme h =>
    obtain ⟨p, after, rfl, -⟩ := h.exists_cons
    exact List.cons_ne_nil p after

/-- A text is cut in one way at most. -/
theorem Cut.unique {t : Text} {tiles others : List Tile} (h : Cut t tiles) (h' : Cut t others) :
    tiles = others := by
  induction h generalizing others with
  | nil =>
    generalize hempty : ([] : Text) = t at h'
    cases h' with
    | nil => rfl
    | cons h hs => exact absurd (List.append_eq_nil_iff.1 hempty.symm).1 h.text_ne_nil
  | @cons tile rest tiles h hs ih =>
    generalize heq : tile.text ++ rest = t at h'
    cases h' with
    | nil => exact absurd (List.append_eq_nil_iff.1 heq).1 h.text_ne_nil
    | cons h' hs' =>
      obtain ⟨rfl, rfl⟩ := h.unique h' heq
      rw [ih hs']

/-! ### Cuts and tokens -/

theorem scanFrom_spaces {run : Text} (hrun : ∀ p ∈ run, p.isSpace) (rest : Text) (pos : Position) :
    scanFrom pos (run ++ rest) = scanFrom (pos.advance run) rest := by
  induction run generalizing pos with
  | nil => rfl
  | cons p run ih =>
    obtain ⟨hp, hrun⟩ := List.forall_mem_cons.1 hrun
    rw [List.cons_append, scanFrom_of_blank (front_space hp (run ++ rest)), ih hrun]
    rfl

/-- Scanning takes the tiles at the front of a text and goes on behind them. -/
theorem CutUpTo.scanFrom_eq {rest t : Text} {tiles : List Tile} (h : CutUpTo rest t tiles)
    (pos : Position) :
    scanFrom pos t =
      ⟨Tile.place pos tiles ++ (scanFrom (pos.advance (tiles.flatMap Tile.text)) rest).tokens,
        (scanFrom (pos.advance (tiles.flatMap Tile.text)) rest).error⟩ := by
  induction h generalizing pos with
  | nil => rfl
  | @cons tile t tiles h hs ih =>
    have hadvance : pos.advance ((tile :: tiles).flatMap Tile.text) =
        (pos.advance tile.text).advance (tiles.flatMap Tile.text) := List.foldl_append
    rw [hadvance]
    cases h with
    | spaces hne hrun hend =>
      rw [Tile.text, scanFrom_spaces hrun, ih]
      rfl
    | comment h =>
      rw [Tile.text, scanFrom_of_blank h.front_eq, ih]
      rfl
    | lexeme h =>
      rw [Tile.text, scanFrom_of_lexeme h.front_eq, ih]
      rfl

/-- A text that is cut into tiles is scanned to its end. -/
theorem Cut.scanFrom_eq {t : Text} {tiles : List Tile} (h : Cut t tiles) (pos : Position) :
    (scanFrom pos t).tokens.map (·.token) = tiles.filterMap Tile.token? ++ [.ending] ∧
      (scanFrom pos t).error = none := by
  rw [(cutUpTo_nil_iff.2 h).scanFrom_eq, scanFrom_nil, List.map_append, Tile.map_token_place]
  exact ⟨rfl, rfl⟩

/-- A space before a text that is cut up to something else makes a run with the spaces that come
first. -/
theorem CutUpTo.exists_space_cons {p : Point} (hp : p.isSpace) {rest t : Text} {tiles : List Tile}
    (h : CutUpTo rest t tiles) (hrest : ∀ q ∈ rest.head?, ¬ q.isSpace) :
    ∃ tiles', CutUpTo rest (p :: t) tiles' := by
  have halone : (∀ q ∈ t.head?, ¬ q.isSpace) → ∃ tiles', CutUpTo rest (p :: t) tiles' := fun hend =>
    ⟨.blank [p] :: tiles, .cons (.spaces (List.cons_ne_nil p []) (by simpa using hp) hend) h⟩
  have hfront : ∀ text after : Text, (∃ q later, text = q :: later ∧ ¬ q.isSpace) →
      ∀ q ∈ (text ++ after).head?, ¬ q.isSpace := by
    rintro text after ⟨q, later, rfl, hspace⟩ r hr
    exact Option.some.inj hr ▸ hspace
  cases h with
  | nil => exact halone hrest
  | @cons tile t tiles h hs =>
    cases h with
    | spaces hne hrun hend =>
      exact ⟨_, .cons (.spaces (List.cons_ne_nil p _) (List.forall_mem_cons.2 ⟨hp, hrun⟩) hend) hs⟩
    | comment h => exact halone (hfront _ _ h.exists_cons)
    | lexeme h => exact halone (hfront _ _ h.exists_cons)

/-- A text of which nothing can be taken does not start with a space. -/
theorem not_isSpace_of_split?_eq_none {t : Text} (h : (front t).split? = none) :
    ∀ p ∈ t.head?, ¬ p.isSpace := by
  cases t with
  | nil => exact fun p hp => absurd hp (by simp)
  | cons p t =>
    intro q hq hspace
    rw [← Option.some.inj hq] at hspace
    rw [front_space hspace] at h
    cases h

/-- Every text is cut up to something of which nothing can be taken. -/
theorem exists_cutUpTo (t : Text) :
    ∃ rest tiles, CutUpTo rest t tiles ∧ (front rest).split? = none := by
  generalize Position.start = pos
  fun_induction scanFrom pos t with
  | case1 pos t hfront => exact ⟨t, [], .nil, by rw [hfront]; rfl⟩
  | case2 pos t f hfront => exact ⟨t, [], .nil, by rw [hfront]; rfl⟩
  | case3 pos t taken rest hfront ih =>
    obtain ⟨last, tiles, htiles, hlast⟩ := ih
    obtain ⟨-, rfl⟩ := taken_append_rest_of_front (congrArg Front.split? hfront)
    rcases comment_or_space_of_front hfront with hcomment | ⟨p, hp, rfl⟩
    · exact ⟨last, _, .cons (.comment hcomment) htiles, hlast⟩
    · obtain ⟨tiles', htiles'⟩ := htiles.exists_space_cons hp (not_isSpace_of_split?_eq_none hlast)
      exact ⟨last, tiles', htiles', hlast⟩
  | case4 pos t token taken rest hfront later ih =>
    obtain ⟨last, tiles, htiles, hlast⟩ := ih
    obtain ⟨-, rfl⟩ := taken_append_rest_of_front (congrArg Front.split? hfront)
    exact ⟨last, _, .cons (.lexeme (lexeme_of_front hfront)) htiles, hlast⟩

/-- A text that is scanned to its end is cut into tiles. -/
theorem exists_cut_of_scanFrom {pos : Position} {t : Text}
    (herror : (scanFrom pos t).error = none) : ∃ tiles, Cut t tiles := by
  obtain ⟨rest, tiles, htiles, hrest⟩ := exists_cutUpTo t
  rw [htiles.scanFrom_eq] at herror
  cases hfront : front rest with
  | blank taken after => rw [hfront] at hrest; cases hrest
  | lexeme token taken after => rw [hfront] at hrest; cases hrest
  | fault f => rw [scanFrom_of_fault hfront] at herror; cases herror
  | ending =>
    rw [eq_nil_of_front hfront, cutUpTo_nil_iff] at htiles
    exact ⟨tiles, htiles⟩

/-- **Tokens tile the text.** A text is scanned without an error exactly when it can be cut into
tiles. There is then one such cut, and the tokens are its lexemes, with the end of the input
behind them. -/
theorem tokens_tile (t : Text) :
    (t.scan.error = none ↔ ∃ tiles, Cut t tiles) ∧
      ∀ tiles, Cut t tiles →
        (∀ others, Cut t others → others = tiles) ∧
          t.scan.tokens.map (·.token) = tiles.filterMap Tile.token? ++ [.ending] := by
  refine ⟨⟨exists_cut_of_scanFrom, ?_⟩, ?_⟩
  · rintro ⟨tiles, htiles⟩
    exact (htiles.scanFrom_eq .start).2
  · intro tiles htiles
    exact ⟨fun others hothers => hothers.unique htiles, (htiles.scanFrom_eq .start).1⟩

/-- A comment in which a string seems to open, and a string in which a comment seems to. -/
example : (Text.scan "a/*\"*/\"//\\\"\"b").tokens.map (·.token) =
    [.word "a", .quoted "//\"", .word "b", .ending] := by decide +kernel

end PropertyList

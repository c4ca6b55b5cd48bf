import Mathlib.Data.List.DropRight
import PropertyList.Proofs.Token.Tiling

/-!
# Where tokens stand

Scanning keeps the position at which it has arrived, and moves it on over every stretch that it
takes: spaces, comments, quoted strings with line feeds in them. Where a token stands can be said
without that: its line counts the line feeds in front of it, and its column the points between the
last of them and the token. The same holds for the place at which scanning fails, which is the
opening of what is not closed, or the point that starts nothing.

## Main definitions

* `Position.behind`, the place behind a text
* `Tile.placeBehind`, the tokens of tiles, each at the place behind what is in front of it
* `Obstructs`, what keeps a text from being cut

## Main results

* `Position.advance_behind` : moving on keeps to the count.
* `front_eq_fault_iff` : scanning fails where something obstructs it.
* `positions_exact`
-/

namespace PropertyList

namespace Position

/-- The place behind a text. Its line is one more than the number of line feeds, and its column one
more than the number of points behind the last of them. -/
def behind (t : Text) : Position where
  line := 1 + t.count (.char '\n')
  column := 1 + (t.rtakeWhile (· != .char '\n')).length

theorem step_behind (t : Text) (p : Point) : (behind t).step p = behind (t ++ [p]) := by
  by_cases hp : p = .char '\n'
  · rw [step, if_pos hp, hp, behind, behind, List.count_append, List.count_singleton_self,
      List.rtakeWhile_concat_neg _ _ _ (by simp), List.length_nil, Nat.add_assoc]
  · rw [step, if_neg hp, behind, behind, List.count_append,
      List.count_eq_zero.2 (mt List.mem_singleton.1 (Ne.symm hp)), List.rtakeWhile_concat_pos _ _ _
        (by simpa using hp), List.length_append]
    rfl

/-- Moving on over a text leads to the place behind it, whatever came before. -/
theorem advance_behind (t u : Text) : (behind t).advance u = behind (t ++ u) := by
  induction u generalizing t with
  | nil => rw [List.append_nil]; rfl
  | cons p u ih =>
    rw [List.append_cons, ← ih, ← step_behind]
    rfl

end Position

namespace Tile

/-- The tokens of tiles that come behind the text `before`, each at the place behind all that is in
front of it. -/
def placeBehind (before : Text) : List Tile → List PlacedToken
  | [] => []
  | .blank text :: tiles => placeBehind (before ++ text) tiles
  | .lexeme token text :: tiles =>
    ⟨token, .behind before⟩ :: placeBehind (before ++ text) tiles

theorem place_behind (before : Text) (tiles : List Tile) :
    place (.behind before) tiles = placeBehind before tiles := by
  induction tiles generalizing before with
  | nil => rfl
  | cons tile tiles ih =>
    cases tile with
    | blank text => rw [place, placeBehind, Position.advance_behind, ih]
    | lexeme token text => rw [place, placeBehind, Position.advance_behind, ih]

end Tile

/-- What is at the front of a text that keeps it from being cut. -/
inductive Obstructs : LexFault → Text → Prop
  /-- A comment that is not closed. -/
  | comment {t : Text} (h : ¬ [.char '*', .char '/'] <:+: t) :
      Obstructs .unterminatedComment (.char '/' :: .char '*' :: t)
  /-- A quoted string that is not closed. -/
  | quote {t : Text} (h : ∀ inside value, Unescapes inside value → ¬ inside ++ [.char '"'] <+: t) :
      Obstructs .unterminatedQuote (.char '"' :: t)
  /-- A point that is no space and no mark, stands in no word and opens nothing. -/
  | point {p : Point} {t : Text} (hspace : ¬ p.isSpace) (hmark : ∀ m : Mark, p ≠ .char m.char)
      (hword : ¬ p.isWord) (hquote : p ≠ .char '"')
      (hslash : p = .char '/' → ∀ q ∈ t.head?, q ≠ .char '*' ∧ q ≠ .char '/') :
      Obstructs (.unexpected p) (p :: t)

theorem splitComment_eq_none_iff {t : Text} :
    splitComment t = none ↔ ¬ [.char '*', .char '/'] <:+: t := by
  constructor
  · fun_induction splitComment t with
    | case1 => exact fun _ => by decide
    | case2 => rintro ⟨⟩
    | case3 p t hopen ih =>
      intro hnone
      rw [List.infix_cons_iff, not_or]
      refine ⟨?_, ih (Option.map_eq_none_iff.1 hnone)⟩
      rintro ⟨after, hafter⟩
      obtain ⟨rfl, htail⟩ := List.cons.inj hafter
      exact hopen after rfl htail.symm
  · intro hinfix
    rw [Option.eq_none_iff_forall_ne_some]
    rintro ⟨taken, rest⟩ hsplit
    obtain ⟨inside, rfl, -⟩ := exists_inside_of_splitComment hsplit
    exact hinfix ⟨inside, rest, inside_append_after_of_splitComment hsplit⟩

theorem splitQuoted_eq_none_iff {t : Text} :
    splitQuoted t = none ↔
      ∀ inside value, Unescapes inside value → ¬ inside ++ [.char '"'] <+: t := by
  constructor
  · rintro hnone inside value hinside ⟨rest, rfl⟩
    rw [List.append_assoc, List.singleton_append, hinside.splitQuoted_eq] at hnone
    cases hnone
  · intro hopen
    rw [Option.eq_none_iff_forall_ne_some]
    rintro ⟨value, taken, rest⟩ hsplit
    obtain ⟨inside, rfl, hinside⟩ := exists_unescapes_of_splitQuoted hsplit
    exact hopen inside value hinside ⟨rest, inside_append_after_of_splitQuoted hsplit⟩

theorem Mark.ofPoint?_eq_none_iff {p : Point} :
    ofPoint? p = none ↔ ∀ m : Mark, p ≠ .char m.char := by
  rw [ofPoint?, List.find?_eq_none]
  simp only [decide_eq_true_eq]
  refine ⟨fun h m => h m ?_, fun h m _ => h m⟩
  cases m <;> decide

/-- **Scanning fails where something obstructs it.** -/
theorem front_eq_fault_iff {t : Text} {f : LexFault} : front t = .fault f ↔ Obstructs f t := by
  constructor
  · fun_cases front t with
    | case3 t hsplit =>
      rintro ⟨⟩
      exact .comment (splitComment_eq_none_iff.1 hsplit)
    | case6 t hsplit =>
      rintro ⟨⟩
      exact .quote (splitQuoted_eq_none_iff.1 hsplit)
    | case10 p t hblock hline hquote hspace hmark hword =>
      rintro ⟨⟩
      refine .point hspace (Mark.ofPoint?_eq_none_iff.1 hmark) hword (fun h => hquote h) ?_
      rintro rfl q hq
      cases t with
      | nil => cases hq
      | cons r t =>
        obtain rfl : r = q := Option.some.inj hq
        exact ⟨fun h => hblock t rfl (by rw [h]), fun h => hline t rfl (by rw [h])⟩
    | case1 | case2 | case4 | case5 | case7 | case8 | case9 => rintro ⟨⟩
  · rintro (⟨h⟩ | ⟨h⟩ | ⟨hspace, hmark, hword, hquote, hslash⟩)
    · rw [front, splitComment_eq_none_iff.2 h]
    · rw [front, splitQuoted_eq_none_iff.2 h]
    · rw [front, if_neg hspace, Mark.ofPoint?_eq_none_iff.2 hmark]
      · exact if_neg hword
      · rintro rest hp rfl
        exact (hslash hp _ rfl).1 rfl
      · rintro rest hp rfl
        exact (hslash hp _ rfl).2 rfl
      · exact fun h => hquote h

/-- **Positions are exact.** Take a text that is cut into tiles, to its end or up to something that
obstructs scanning. Every token that is yielded then stands behind what is in front of its first
point, the end of the input behind the whole text, and the error behind what is in front of the
obstruction. Every text is cut in one of these ways. -/
theorem positions_exact (t : Text) :
    (∀ tiles, Cut t tiles →
      t.scan = ⟨Tile.placeBehind [] tiles ++ [⟨.ending, .behind t⟩], none⟩) ∧
    (∀ before rest tiles f, t = before ++ rest → CutUpTo rest t tiles → Obstructs f rest →
      t.scan = ⟨Tile.placeBehind [] tiles, some ⟨f, .behind before⟩⟩) ∧
    ((∃ tiles, Cut t tiles) ∨
      ∃ before rest tiles f, t = before ++ rest ∧ CutUpTo rest t tiles ∧ Obstructs f rest) := by
  have hplace (tiles : List Tile) : Tile.place .start tiles = Tile.placeBehind [] tiles :=
    Tile.place_behind [] tiles
  have hadvance (before : Text) : Position.start.advance before = .behind before :=
    Position.advance_behind [] before
  refine ⟨fun tiles htiles => ?_, fun before rest tiles f ht htiles hf => ?_, ?_⟩
  · have hend := (cutUpTo_nil_iff.2 htiles).eq_append
    rw [List.append_nil] at hend
    rw [Text.scan, (cutUpTo_nil_iff.2 htiles).scanFrom_eq, scanFrom_nil, ← hend, hplace, hadvance]
  · have hbefore : before = tiles.flatMap Tile.text :=
      List.append_cancel_right (ht.symm.trans htiles.eq_append)
    rw [Text.scan, htiles.scanFrom_eq, scanFrom_of_fault (front_eq_fault_iff.2 hf), ← hbefore,
      hplace, hadvance, List.append_nil]
  · obtain ⟨rest, tiles, htiles, hrest⟩ := exists_cutUpTo t
    cases hfront : front rest with
    | blank taken after => rw [hfront] at hrest; cases hrest
    | lexeme token taken after => rw [hfront] at hrest; cases hrest
    | fault f =>
      exact Or.inr ⟨_, rest, tiles, f, htiles.eq_append, htiles, front_eq_fault_iff.1 hfront⟩
    | ending =>
      rw [eq_nil_of_front hfront, cutUpTo_nil_iff] at htiles
      exact Or.inl ⟨tiles, htiles⟩

example : ("a/*\n\n*/ \"\n\" b" : Text).scan.tokens.map PlacedToken.position =
    [⟨1, 1⟩, ⟨3, 4⟩, ⟨4, 3⟩, ⟨4, 4⟩] := by
  decide +kernel

end PropertyList

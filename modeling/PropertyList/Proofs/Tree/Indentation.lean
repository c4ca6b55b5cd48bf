import PropertyList.Proofs.Tree.Segments

/-!
# Indentation

A rendering with an indentation is the rendering on one line with line breaks put in, one wherever
the line can be broken. How many blanks a break has depends on its depth.

## Main definitions

* `Bytes.breakLine`

## Main results

* `Tree.writable_iff`, `Tree.breakLine_line`
* `Tree.dump_indented_iff`
-/

namespace PropertyList

namespace Bytes

open Segment (breakAt)

/-- Line breaks put in front of some of the bytes: `breaks` tells the depth of the break in front of
a byte, and `lineBreak` how the break of a depth is written. -/
def breakLine (lineBreak : Nat → Bytes) : (breaks : Nat → Option Nat) → Bytes → Bytes
  | _, [] => []
  | breaks, b :: bytes =>
    (breaks 0).elim [] lineBreak ++ b :: breakLine lineBreak (fun i => breaks (i + 1)) bytes

variable {lineBreak : Nat → Bytes}

theorem breakLine_append (breaks : Nat → Option Nat) (bytes rest : Bytes) :
    breakLine lineBreak breaks (bytes ++ rest) = breakLine lineBreak breaks bytes ++
      breakLine lineBreak (fun i => breaks (bytes.length + i)) rest := by
  induction bytes generalizing breaks with
  | nil => simp only [List.nil_append, breakLine, List.length_nil, Nat.zero_add]
  | cons b bytes ih =>
    rw [List.cons_append, breakLine, breakLine, ih, List.append_assoc, List.cons_append,
      List.length_cons]
    simp only [Nat.add_right_comm]

theorem breakLine_of_none {breaks : Nat → Option Nat} {bytes : Bytes}
    (hnone : ∀ i < bytes.length, breaks i = none) : breakLine lineBreak breaks bytes = bytes := by
  induction bytes generalizing breaks with
  | nil => rfl
  | cons b bytes ih =>
    rw [breakLine, hnone 0 (Nat.zero_lt_succ _),
      ih fun i hi => hnone (i + 1) (Nat.succ_lt_succ hi)]
    rfl

theorem length_le_length_breakLine (breaks : Nat → Option Nat) (bytes : Bytes) :
    bytes.length ≤ (breakLine lineBreak breaks bytes).length := by
  induction bytes generalizing breaks with
  | nil => exact Nat.zero_le _
  | cons b bytes ih =>
    have hle := ih fun i => breaks (i + 1)
    rw [breakLine, List.length_append, List.length_cons, List.length_cons]
    omega

/-- With its line broken each segment has its break in front of it. -/
theorem breakLine_line {segments : List Segment} (hne : ∀ s ∈ segments, s.bytes ≠ []) :
    breakLine lineBreak (breakAt segments) (Segment.line segments) =
      segments.flatMap fun s => s.depth?.elim [] lineBreak ++ s.bytes := by
  induction segments with
  | nil => rfl
  | cons s segments ih =>
    obtain ⟨hs, hne⟩ := List.forall_mem_cons.1 hne
    obtain ⟨b, bytes, hbytes⟩ := List.exists_cons_of_ne_nil hs
    have hhead : breakLine lineBreak (breakAt (s :: segments)) s.bytes =
        s.depth?.elim [] lineBreak ++ s.bytes := by
      have hfirst : breakAt (s :: segments) 0 = s.depth? := by
        rw [breakAt, if_pos (List.length_pos_iff.2 hs), if_pos rfl]
      have hrest (i : Nat) (hi : i < bytes.length) : breakAt (s :: segments) (i + 1) = none := by
        rw [breakAt, hbytes, List.length_cons, if_pos (by omega), if_neg (by omega)]
      rw [hbytes, breakLine, hfirst, breakLine_of_none hrest]
    have htail (i : Nat) : breakAt (s :: segments) (s.bytes.length + i) = breakAt segments i := by
      rw [breakAt, if_neg (by omega), Nat.add_sub_cancel_left]
    rw [Segment.line_cons, breakLine_append, hhead, List.flatMap_cons]
    simp only [htail, ih hne]

end Bytes

namespace Tree

variable {t : Tree} {before : Bytes} {d : Nat} {indent level : Int}

/-! ### Renderings -/

/-- A tree is rendered segment by segment. -/
theorem encode_render_eq (t : Tree) (indent level : Int) :
    (t.render indent level).encode = (t.segments none 0).flatMap fun s =>
      s.depth?.elim [] (fun d => (lineBreak indent (level + d)).flatMap Piece.bytes) ++
        s.bytes := by
  rw [encode_render, pieces_eq, List.flatMap_assoc]
  refine List.flatMap_congr fun s _ => ?_
  rw [Segment.pieces, List.flatMap_append, List.flatMap_singleton]
  cases s.depth? <;> rfl

/-- On one line the level plays no part. -/
theorem encode_render_zero (t : Tree) (level : Int) : (t.render 0 level).encode = t.line := by
  rw [encode_render_eq, ← line_segments t none 0, Segment.line]
  refine List.flatMap_congr fun s _ => ?_
  cases s.depth? <;> rfl

/-- The pieces of a tree are texts, and the line breaks of its marks. -/
theorem mem_pieces_cases {p : Piece} (hp : p ∈ t.pieces indent level) :
    (∃ text, p = .text text) ∨
      ∃ before d, t.Breaks before d ∧ p ∈ lineBreak indent (level + d) := by
  rw [pieces_eq] at hp
  obtain ⟨⟨depth?, text⟩, hs, hp⟩ := List.mem_flatMap.1 hp
  rw [Segment.pieces, List.mem_append, List.mem_singleton] at hp
  obtain hp | rfl := hp
  · cases depth? with
    | none => exact absurd hp List.not_mem_nil
    | some d =>
      obtain ⟨before, hmarked⟩ := Segment.exists_markedAt_iff.2 ⟨_, hs, rfl⟩
      exact .inr ⟨before, d, markedAt_iff_breaks.1 hmarked, hp⟩
  · exact .inl ⟨text, rfl⟩

theorem lineBreak_subset_pieces (h : t.Breaks before d) :
    lineBreak indent (level + d) ⊆ t.pieces indent level := by
  obtain ⟨s, hs, hdepth⟩ :=
    Segment.exists_markedAt_iff.1 ⟨before, markedAt_iff_breaks.2 h⟩
  intro p hp
  rw [pieces_eq]
  refine List.mem_flatMap.2 ⟨s, hs, ?_⟩
  rw [Segment.pieces, hdepth]
  exact List.mem_append_left _ hp

/-- On one line every tree can be written. -/
theorem writable_zero (t : Tree) (level : Int) : t.Writable 0 level := by
  intro p hp
  obtain ⟨text, rfl⟩ | ⟨_, _, -, hp⟩ := mem_pieces_cases hp
  · rfl
  · exact absurd hp List.not_mem_nil

/-- A tree can be written if the blanks of each of its line breaks can be counted in 64 bits. -/
theorem writable_iff (hindent : indent ≠ 0) :
    t.Writable indent level ↔ ∀ before d, t.Breaks before d →
      -0x8000000000000000 ≤ indent * (level + d) ∧ indent * (level + d) < 0x8000000000000000 := by
  have hbreak (d : Nat) :
      (Piece.lineBreak (indent * (level + d))).isOversized = false ↔
        -0x8000000000000000 ≤ indent * (level + d) ∧
          indent * (level + d) < 0x8000000000000000 := by
    rw [Piece.isOversized, Bool.or_eq_false_iff, decide_eq_false_iff_not, decide_eq_false_iff_not,
      Int.not_lt, Int.not_le]
  constructor
  · intro ht before d h
    refine (hbreak d).1 (ht _ (lineBreak_subset_pieces h ?_))
    rw [lineBreak, if_neg hindent]
    exact List.mem_singleton_self _
  · intro h p hp
    obtain ⟨text, rfl⟩ | ⟨before, d, hbreaks, hp⟩ := mem_pieces_cases hp
    · rfl
    · rw [lineBreak, if_neg hindent] at hp
      rw [List.mem_singleton.1 hp]
      exact (hbreak d).2 (h before d hbreaks)

/-- **The line of a tree with its breaks put in is its rendering.** -/
theorem breakLine_line (hindent : indent ≠ 0) :
    Bytes.breakLine (fun d => 10 :: List.replicate (indent * (level + d)).toNat 32)
        (Segment.breakAt (t.segments none 0)) t.line =
      (t.render indent level).encode := by
  rw [← line_segments t none 0, Bytes.breakLine_line (t.bytes_ne_nil_of_mem_segments none 0),
    encode_render_eq]
  refine List.flatMap_congr fun s _ => ?_
  cases s.depth? with
  | none => rfl
  | some d =>
    rw [Option.elim_some, Option.elim_some, lineBreak, if_neg hindent, List.flatMap_singleton,
      Piece.bytes_lineBreak]

/-- Inside a string there are no breaks. -/
theorem Quotes.breakAt_eq_none {s : Text} (h : t.Quotes before s) {i : Nat} (hpos : 0 < i)
    (hlt : i < s.quote.encode.length) :
    Segment.breakAt (t.segments none 0) (before.length + i) = none := by
  cases h with
  | value h =>
    obtain ⟨first, front, rest, hsegments, rfl⟩ := h.exists_segments
    rw [hsegments, segments, List.append_assoc]
    exact Segment.breakAt_inside hpos hlt
  | @key before d earlier later key u h =>
    obtain ⟨first, front, rest, hsegments, rfl⟩ := h.exists_segments
    obtain ⟨front', rest', hentry, hfront'⟩ := exists_segments_entry first d earlier later (s, u)
    have hlt' : i < (Segment.bytes ⟨some (d + 1), keyText s⟩).length := by
      rw [Segment.bytes, keyText, Text.encode_append, List.length_append]
      omega
    have hsplit : t.segments none 0 = (front ++ front') ++ ⟨some (d + 1), keyText s⟩ ::
        (u.segments none (d + 1) ++ (rest' ++ rest)) := by
      rw [hsegments, hentry]
      simp only [List.append_assoc, List.cons_append]
    rw [hsplit, ← hfront', ← Segment.line_append]
    exact Segment.breakAt_inside hpos hlt'

/-- Inside an empty container there is no break. -/
theorem Has.breakAt_eq_none (h : t.Has before d (.array []) ∨ t.Has before d (.dict [])) :
    Segment.breakAt (t.segments none 0) (before.length + 1) = none := by
  obtain h | h := h
  · obtain ⟨first, front, rest, hsegments, rfl⟩ := h.exists_segments
    rw [hsegments, List.append_assoc, Segment.breakAt_append]
    rfl
  · obtain ⟨first, front, rest, hsegments, rfl⟩ := h.exists_segments
    rw [hsegments, List.append_assoc, Segment.breakAt_append]
    rfl

/-- **Indentation puts line breaks in and does nothing else.** The places of the breaks are those in
front of the items, the entries and the closing brackets of the containers that are not empty; no
break is inside a string or an empty container. With an indentation the bytes of a tree are those on
one line with a line feed and the blanks of its depth in each of these places. A tree that has bytes
on one line has them with an indentation as well, unless a break has a number of blanks that is no
64-bit number or the bytes exceed the maximum. -/
theorem dump_indented_iff (t : Tree) :
    ∃ breaks : Nat → Option Nat,
      (∀ i d, breaks i = some d ↔ ∃ before, t.Breaks before d ∧ before.length = i) ∧
      (∀ before s, t.Quotes before s → ∀ i, 0 < i → i < s.quote.encode.length →
        breaks (before.length + i) = none) ∧
      (∀ before d, t.Has before d (.array []) ∨ t.Has before d (.dict []) →
        breaks (before.length + 1) = none) ∧
      ∀ indent level initial max : Int, indent ≠ 0 → ∀ bytes,
        t.dump indent level initial max = .ok bytes ↔
          (∀ i d, breaks i = some d → -0x8000000000000000 ≤ indent * (level + d) ∧
            indent * (level + d) < 0x8000000000000000) ∧
          bytes.length ≤ max ∧
          ∃ flat, t.dump 0 level initial max = .ok flat ∧
            bytes = Bytes.breakLine
              (fun d => 10 :: List.replicate (indent * (level + d)).toNat 32) breaks flat := by
  have hbreaks (i d : Nat) : Segment.breakAt (t.segments none 0) i = some d ↔
      ∃ before, t.Breaks before d ∧ before.length = i := by
    rw [Segment.breakAt_eq_some_iff (t.bytes_ne_nil_of_mem_segments none 0)]
    simp only [markedAt_iff_breaks]
  refine ⟨Segment.breakAt (t.segments none 0), hbreaks, fun before s h i hpos hlt =>
    h.breakAt_eq_none hpos hlt, fun before d h => Has.breakAt_eq_none h,
    fun indent level initial max hindent bytes => ?_⟩
  have hwritable : t.Writable indent level ↔
      ∀ i d, Segment.breakAt (t.segments none 0) i = some d →
        -0x8000000000000000 ≤ indent * (level + d) ∧
          indent * (level + d) < 0x8000000000000000 := by
    rw [writable_iff hindent]
    simp only [hbreaks]
    exact ⟨fun h i d ⟨before, hb, _⟩ => h before d hb, fun h before d hb => h _ d ⟨before, hb, rfl⟩⟩
  rw [dump_eq_ok_iff, ← hwritable, ← breakLine_line hindent]
  constructor
  · rintro ⟨hcapacities, ht, hle, rfl⟩
    refine ⟨ht, hle, t.line, dump_eq_ok_iff.2 ⟨hcapacities, t.writable_zero level, ?_,
      (t.encode_render_zero level).symm⟩, rfl⟩
    exact Int.le_trans (Int.ofNat_le.2 (Bytes.length_le_length_breakLine _ _)) hle
  · rintro ⟨ht, hle, flat, hflat, rfl⟩
    obtain ⟨hcapacities, -, -, rfl⟩ := dump_eq_ok_iff.1 hflat
    rw [encode_render_zero] at hle ⊢
    exact ⟨hcapacities, ht, hle, rfl⟩

/-- Two levels, with two blanks for each. -/
theorem dump_indented_nested :
    (2 : Int) ≠ 0 ∧
    (dict [("a", array [string "b"])]).dump 2 0 64 64 =
      .ok (Text.encode "\x7b\n  a = (\n    b\n  );\n\x7d") ∧
    ∃ (breaks : Nat → Option Nat) (flat : Bytes),
      (dict [("a", array [string "b"])]).dump 0 0 64 64 = .ok flat ∧
      Text.encode "\x7b\n  a = (\n    b\n  );\n\x7d" = Bytes.breakLine
        (fun d => 10 :: List.replicate (2 * (0 + (d : Int))).toNat 32) breaks flat := by
  have hdump : (dict [("a", array [string "b"])]).dump 2 0 64 64 =
      .ok (Text.encode "\x7b\n  a = (\n    b\n  );\n\x7d") :=
    dump_eq_ok_iff.2 ⟨⟨by decide, by decide, by decide⟩, by decide, by decide, by decide⟩
  obtain ⟨breaks, -, -, -, hindented⟩ := dump_indented_iff (dict [("a", array [string "b"])])
  obtain ⟨-, -, flat, hflat, hbytes⟩ := (hindented 2 0 64 64 (by decide) _).1 hdump
  exact ⟨by decide, hdump, breaks, flat, hflat, hbytes⟩

/-- An array of one string has bytes on one line, and none with an indentation whose line breaks
cannot be written. -/
theorem not_dump_indented_oversized :
    (array [string "a"]).dump 0 0 1024 Buffer.unbounded = .ok (Text.encode "(a)") ∧
    (-10 ^ 30 : Int) ≠ 0 ∧
    (array [string "a"]).dump (-10 ^ 30) 0 1024 Buffer.unbounded = .error (.buffer .oversized) := by
  have hcapacities : Buffer.AreCapacities 1024 Buffer.unbounded :=
    ⟨by decide, by decide, by decide⟩
  exact ⟨dump_eq_ok_iff.2 ⟨hcapacities, by decide, by decide, by decide⟩, by decide,
    dump_eq hcapacities⟩

end Tree

end PropertyList

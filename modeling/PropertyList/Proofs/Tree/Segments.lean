import PropertyList.Proofs.Buffer.Writing

/-!
# Where lines can be broken

A tree on one line is a row of segments: brackets, separators and strings. In front of every entry,
every item and the closing bracket of every container that is not empty the line can be broken. How
many containers are open there is the depth of the break, which the segment behind it is marked
with.

The pieces of a rendering are those of the segments, whatever the indentation and the level, with a
line break in front of each segment that is marked.

## Main definitions

* `Tree.Has`, where the values of a tree stand in its line
* `Tree.Breaks`, where the line can be broken, and `Tree.Quotes`, where its strings are
* `Tree.segments`, `Segment.MarkedAt`

## Main results

* `Tree.pieces_eq_flatMap_segments`, `Tree.line_segments`
* `Tree.Has.exists_segments`, `Tree.markedAt_iff_breaks`
-/

namespace PropertyList

namespace Tree

/-- The bytes of a tree on one line. -/
def line (t : Tree) : Bytes :=
  (t.render 0 0).encode

/-! ### Places in a line -/

/-- What stands in front of an item in the line of its array. -/
def upToItem (earlier : List Tree) : Bytes :=
  Text.encode [.char '('] ++ earlier.flatMap fun t => t.line ++ Text.encode [.char ',']

/-- A key and its equals sign. -/
def keyText (key : Text) : Text :=
  key.quote ++ [.char ' ', .char '=', .char ' ']

/-- What stands in front of an entry in the line of its dictionary. -/
def upToEntry (earlier : List (Text × Tree)) : Bytes :=
  Text.encode [.char '\x7b'] ++ earlier.flatMap fun e =>
    (keyText e.1).encode ++ e.2.line ++ Text.encode [.char ';']

/-- The value `u` is a part of the tree, and stands behind the bytes `before` in its line, with
`depth` containers open around it. -/
inductive Has (t : Tree) : (before : Bytes) → (depth : Nat) → (u : Tree) → Prop
  | root : Has t [] 0 t
  | item {before : Bytes} {depth : Nat} {earlier later : List Tree} {u : Tree}
      (h : Has t before depth (.array (earlier ++ u :: later))) :
      Has t (before ++ upToItem earlier) (depth + 1) u
  | value {before : Bytes} {depth : Nat} {earlier later : List (Text × Tree)} {key : Text}
      {u : Tree} (h : Has t before depth (.dict (earlier ++ (key, u) :: later))) :
      Has t (before ++ upToEntry earlier ++ (keyText key).encode) (depth + 1) u

/-- Behind the bytes `before` the line of the tree can be broken: what follows is an item, an entry
or the closing bracket of a container that is not empty, with `depth` containers open around the
item, the entry or the whole container. -/
inductive Breaks (t : Tree) : (before : Bytes) → (depth : Nat) → Prop
  | item {before : Bytes} {depth : Nat} {earlier later : List Tree} {u : Tree}
      (h : t.Has before depth (.array (earlier ++ u :: later))) :
      Breaks t (before ++ upToItem earlier) (depth + 1)
  | entry {before : Bytes} {depth : Nat} {earlier later : List (Text × Tree)} {e : Text × Tree}
      (h : t.Has before depth (.dict (earlier ++ e :: later))) :
      Breaks t (before ++ upToEntry earlier) (depth + 1)
  | closeArray {before : Bytes} {depth : Nat} {items : List Tree}
      (h : t.Has before depth (.array items)) (hitems : items ≠ []) :
      Breaks t (before ++ (array items).line.dropLast) depth
  | closeDict {before : Bytes} {depth : Nat} {entries : List (Text × Tree)}
      (h : t.Has before depth (.dict entries)) (hentries : entries ≠ []) :
      Breaks t (before ++ (dict entries).line.dropLast) depth

/-- The string `s` is written behind the bytes `before`, as a value or as a key. -/
inductive Quotes (t : Tree) : (before : Bytes) → (s : Text) → Prop
  | value {before : Bytes} {depth : Nat} {s : Text} (h : t.Has before depth (.string s)) :
      Quotes t before s
  | key {before : Bytes} {depth : Nat} {earlier later : List (Text × Tree)} {key : Text} {u : Tree}
      (h : t.Has before depth (.dict (earlier ++ (key, u) :: later))) :
      Quotes t (before ++ upToEntry earlier) key

end Tree

/-! ### Segments -/

/-- A text with the depth of the line break in front of it. -/
structure Segment where
  depth? : Option Nat
  text : Text

namespace Segment

/-- The bytes of a segment on one line. -/
def bytes (s : Segment) : Bytes :=
  s.text.encode

/-- The pieces of a segment of a tree that stands at `level`. -/
def pieces (indent level : Int) (s : Segment) : List Piece :=
  s.depth?.elim [] (fun d => lineBreak indent (level + d)) ++ [.text s.text]

/-- The segments on one line. -/
def line (segments : List Segment) : Bytes :=
  segments.flatMap bytes

/-- Behind the bytes `before` there is a segment with a line break of a depth in front of it. -/
inductive MarkedAt : List Segment → (before : Bytes) → (depth : Nat) → Prop
  | head {depth : Nat} {text : Text} {segments : List Segment} :
      MarkedAt (⟨some depth, text⟩ :: segments) [] depth
  | tail {s : Segment} {segments : List Segment} {before : Bytes} {depth : Nat}
      (h : MarkedAt segments before depth) : MarkedAt (s :: segments) (s.bytes ++ before) depth

/-- The depth of the line break in front of a byte. -/
def breakAt : List Segment → Nat → Option Nat
  | [], _ => none
  | s :: segments, i =>
    if i < s.bytes.length then if i = 0 then s.depth? else none
    else breakAt segments (i - s.bytes.length)

variable {s : Segment} {segments front : List Segment} {before : Bytes} {d : Nat}

theorem line_cons : line (s :: segments) = s.bytes ++ line segments := rfl

theorem line_append : line (front ++ segments) = line front ++ line segments :=
  List.flatMap_append

theorem markedAt_cons :
    MarkedAt (s :: segments) before d ↔
      (s.depth? = some d ∧ before = []) ∨
        ∃ before', before = s.bytes ++ before' ∧ MarkedAt segments before' d := by
  constructor
  · rintro (_ | h)
    · exact .inl ⟨rfl, rfl⟩
    · exact .inr ⟨_, rfl, h⟩
  · rintro (⟨hdepth, rfl⟩ | ⟨before', rfl, h⟩)
    · obtain ⟨depth?, text⟩ := s
      obtain rfl : depth? = some d := hdepth
      exact .head
    · exact .tail h

theorem markedAt_append :
    MarkedAt (front ++ segments) before d ↔
      MarkedAt front before d ∨
        ∃ before', before = line front ++ before' ∧ MarkedAt segments before' d := by
  induction front generalizing before with
  | nil =>
    constructor
    · exact fun h => .inr ⟨before, rfl, h⟩
    · rintro (h | ⟨_, rfl, h⟩)
      · cases h
      · exact h
  | cons s front ih =>
    rw [List.cons_append, markedAt_cons, markedAt_cons, line_cons]
    simp only [ih]
    constructor
    · rintro (h | ⟨_, rfl, h | ⟨before', rfl, h⟩⟩)
      · exact .inl (.inl h)
      · exact .inl (.inr ⟨_, rfl, h⟩)
      · exact .inr ⟨before', by rw [List.append_assoc], h⟩
    · rintro ((h | ⟨before', rfl, h⟩) | ⟨before', rfl, h⟩)
      · exact .inl h
      · exact .inr ⟨_, rfl, .inl h⟩
      · exact .inr ⟨_, by rw [List.append_assoc], .inr ⟨_, rfl, h⟩⟩

theorem exists_markedAt_iff :
    (∃ before, MarkedAt segments before d) ↔ ∃ s ∈ segments, s.depth? = some d := by
  induction segments with
  | nil => exact iff_of_false (fun ⟨_, h⟩ => nomatch h) fun ⟨_, h, _⟩ => List.not_mem_nil h
  | cons s segments ih =>
    rw [List.exists_mem_cons_iff, ← ih]
    simp only [markedAt_cons]
    constructor
    · rintro ⟨_, ⟨h, -⟩ | ⟨before, -, h⟩⟩
      · exact .inl h
      · exact .inr ⟨before, h⟩
    · rintro (h | ⟨before, h⟩)
      · exact ⟨[], .inl ⟨h, rfl⟩⟩
      · exact ⟨_, .inr ⟨before, rfl, h⟩⟩

/-- Where no segment is empty, the breaks are where the segments are marked. -/
theorem breakAt_eq_some_iff (hne : ∀ s ∈ segments, s.bytes ≠ []) {i : Nat} :
    breakAt segments i = some d ↔ ∃ before, MarkedAt segments before d ∧ before.length = i := by
  induction segments generalizing i with
  | nil => exact iff_of_false nofun fun ⟨_, h, _⟩ => nomatch h
  | cons s segments ih =>
    obtain ⟨hs, hne⟩ := List.forall_mem_cons.1 hne
    have hpos : 0 < s.bytes.length := List.length_pos_iff.2 hs
    rw [breakAt]
    simp only [markedAt_cons]
    split_ifs with hlt hzero
    · subst hzero
      constructor
      · exact fun h => ⟨[], .inl ⟨h, rfl⟩, rfl⟩
      · rintro ⟨_, ⟨h, -⟩ | ⟨before, rfl, h⟩, hlength⟩
        · exact h
        · rw [List.length_append] at hlength
          omega
    · refine iff_of_false nofun ?_
      rintro ⟨_, ⟨-, rfl⟩ | ⟨before, rfl, h⟩, hlength⟩
      · exact hzero hlength.symm
      · rw [List.length_append] at hlength
        omega
    · rw [ih hne]
      constructor
      · rintro ⟨before, h, hlength⟩
        refine ⟨_, .inr ⟨before, rfl, h⟩, ?_⟩
        rw [List.length_append]
        omega
      · rintro ⟨_, ⟨-, rfl⟩ | ⟨before, rfl, h⟩, hlength⟩
        · exact absurd hpos (by rw [List.length_nil] at hlength; omega)
        · rw [List.length_append] at hlength
          exact ⟨before, h, by omega⟩

theorem breakAt_append (i : Nat) :
    breakAt (front ++ segments) ((line front).length + i) = breakAt segments i := by
  induction front with
  | nil => rw [List.nil_append, line, List.flatMap_nil, List.length_nil, Nat.zero_add]
  | cons s front ih =>
    rw [List.cons_append, breakAt, line_cons, List.length_append, if_neg (by omega),
      show s.bytes.length + (line front).length + i - s.bytes.length = (line front).length + i by
        omega, ih]

/-- Inside a segment there are no breaks. -/
theorem breakAt_inside {i : Nat} (hpos : 0 < i) (hlt : i < s.bytes.length) :
    breakAt (front ++ s :: segments) ((line front).length + i) = none := by
  rw [breakAt_append, breakAt, if_pos hlt, if_neg (by omega)]

end Segment

namespace Tree

open Segment (MarkedAt)

/-! ### The segments of a tree -/

mutual

/-- The segments of a tree with `depth` containers open around it. There may be a line break in
front of it. -/
def segments (first : Option Nat) (depth : Nat) : Tree → List Segment
  | string s => [⟨first, s.quote⟩]
  | array items =>
    ⟨first, [.char '(']⟩ :: itemSegments (depth + 1) items
      ++ [⟨if items.isEmpty then none else some depth, [.char ')']⟩]
  | dict entries =>
    ⟨first, [.char '\x7b']⟩ :: entrySegments (depth + 1) entries
      ++ [⟨if entries.isEmpty then none else some depth, [.char '\x7d']⟩]

/-- The segments of the items of an array. -/
def itemSegments (depth : Nat) : List Tree → List Segment
  | [] => []
  | t :: ts =>
    t.segments (some depth) depth ++ (if ts.isEmpty then [] else [⟨none, [.char ',']⟩])
      ++ itemSegments depth ts

/-- The segments of the entries of a dictionary. -/
def entrySegments (depth : Nat) : List (Text × Tree) → List Segment
  | [] => []
  | (key, t) :: entries =>
    ⟨some depth, keyText key⟩ :: t.segments none depth
      ++ ⟨none, [.char ';']⟩ :: entrySegments depth entries

end

theorem segments_array {first : Option Nat} {depth : Nat} {items : List Tree} :
    (array items).segments first depth = ⟨first, [.char '(']⟩ :: itemSegments (depth + 1) items
      ++ [⟨if items.isEmpty then none else some depth, [.char ')']⟩] := by
  rw [segments]

theorem segments_dict {first : Option Nat} {depth : Nat} {entries : List (Text × Tree)} :
    (dict entries).segments first depth =
      ⟨first, [.char '\x7b']⟩ :: entrySegments (depth + 1) entries
        ++ [⟨if entries.isEmpty then none else some depth, [.char '\x7d']⟩] := by
  rw [segments]

section Pieces

variable (indent level : Int)

private theorem itemPieces_eq {items : List Tree}
    (ih : ∀ t ∈ items, ∀ (first : Option Nat) (depth : Nat),
      first.elim [] (fun d => lineBreak indent (level + d)) ++ t.pieces indent (level + depth) =
        (t.segments first depth).flatMap (Segment.pieces indent level)) (depth : Nat) :
    itemPieces indent (level + depth) items =
      (itemSegments depth items).flatMap (Segment.pieces indent level) := by
  induction items with
  | nil => rfl
  | cons t ts ihs =>
    rw [itemPieces, itemSegments, List.flatMap_append, List.flatMap_append,
      ← ih t List.mem_cons_self, ihs fun u hu => ih u (List.mem_cons_of_mem _ hu)]
    split_ifs <;> rfl

private theorem entryPieces_eq {entries : List (Text × Tree)}
    (ih : ∀ e ∈ entries, ∀ (first : Option Nat) (depth : Nat),
      first.elim [] (fun d => lineBreak indent (level + d)) ++ e.2.pieces indent (level + depth) =
        (e.2.segments first depth).flatMap (Segment.pieces indent level)) (depth : Nat) :
    entryPieces indent (level + depth) entries =
      (entrySegments depth entries).flatMap (Segment.pieces indent level) := by
  induction entries with
  | nil => rfl
  | cons e es ihs =>
    have hvalue := ih e List.mem_cons_self none depth
    rw [Option.elim_none, List.nil_append] at hvalue
    rw [entryPieces, entrySegments, List.flatMap_append, List.flatMap_cons, List.flatMap_cons,
      ← hvalue, ihs fun f hf => ih f (List.mem_cons_of_mem _ hf)]
    simp only [Segment.pieces, Option.elim_some, Option.elim_none, keyText, List.append_assoc,
      List.cons_append, List.nil_append]

/-- The pieces of a tree are those of its segments. -/
theorem pieces_eq_flatMap_segments (t : Tree) (first : Option Nat) (depth : Nat) :
    first.elim [] (fun d => lineBreak indent (level + d)) ++ t.pieces indent (level + depth) =
      (t.segments first depth).flatMap (Segment.pieces indent level) := by
  induction t generalizing first depth with
  | string s => rw [segments, pieces, List.flatMap_singleton, Segment.pieces]
  | array items ih =>
    have hitems := itemPieces_eq indent level ih (depth + 1)
    rw [Nat.cast_succ, ← Int.add_assoc] at hitems
    rw [pieces_array, segments, List.flatMap_append, List.flatMap_cons, ← hitems]
    cases items <;> simp [Segment.pieces]
  | dict entries ih =>
    have hentries := entryPieces_eq indent level ih (depth + 1)
    rw [Nat.cast_succ, ← Int.add_assoc] at hentries
    rw [pieces_dict, segments, List.flatMap_append, List.flatMap_cons, ← hentries]
    cases entries <;> simp [Segment.pieces]

end Pieces

/-- The pieces of a whole tree. -/
theorem pieces_eq (t : Tree) (indent level : Int) :
    t.pieces indent level = (t.segments none 0).flatMap (Segment.pieces indent level) := by
  have hpieces := pieces_eq_flatMap_segments indent level t none 0
  rwa [Option.elim_none, List.nil_append, Nat.cast_zero, Int.add_zero] at hpieces

/-- The segments of a tree make up its line, wherever it stands. -/
theorem line_segments (t : Tree) (first : Option Nat) (depth : Nat) :
    Segment.line (t.segments first depth) = t.line := by
  have hpieces := pieces_eq_flatMap_segments 0 (-depth) t first depth
  have hflat : (t.pieces 0 0).flatMap Piece.bytes =
      ((t.segments first depth).flatMap (Segment.pieces 0 (-depth))).flatMap Piece.bytes := by
    rw [← hpieces, Int.add_left_neg]
    cases first <;> rfl
  rw [line, encode_render, hflat, List.flatMap_assoc, Segment.line]
  refine List.flatMap_congr fun s _ => ?_
  obtain ⟨_ | d, text⟩ := s
  · exact (List.append_nil _).symm
  · exact (List.append_nil _).symm

private theorem encode_bracket_ne_nil (p : Point) : Text.encode [p] ≠ [] :=
  fun h => List.cons_ne_nil _ _ (Text.encode_eq_nil_iff.1 h)

/-- A segment of a tree has bytes. -/
theorem bytes_ne_nil_of_mem_segments (t : Tree) (first : Option Nat) (depth : Nat) :
    ∀ s ∈ t.segments first depth, s.bytes ≠ [] := by
  have hkey (key : Text) : (keyText key).encode ≠ [] := fun h =>
    List.append_ne_nil_of_right_ne_nil _ (List.cons_ne_nil _ _) (Text.encode_eq_nil_iff.1 h)
  induction t generalizing first depth with
  | string s =>
    rw [segments]
    exact List.forall_mem_singleton.2 fun h => s.quote_ne_nil (Text.encode_eq_nil_iff.1 h)
  | array items ih =>
    have hitems : ∀ s ∈ itemSegments (depth + 1) items, s.bytes ≠ [] := by
      induction items with
      | nil => exact fun s hs => absurd hs List.not_mem_nil
      | cons t ts ihs =>
        rw [itemSegments]
        refine List.forall_mem_append.2 ⟨List.forall_mem_append.2 ⟨ih t List.mem_cons_self _ _, ?_⟩,
          ihs fun u hu => ih u (List.mem_cons_of_mem _ hu)⟩
        split_ifs
        · exact fun s hs => absurd hs List.not_mem_nil
        · exact List.forall_mem_singleton.2 (encode_bracket_ne_nil _)
    rw [segments]
    exact List.forall_mem_append.2 ⟨List.forall_mem_cons.2 ⟨encode_bracket_ne_nil _, hitems⟩,
      List.forall_mem_singleton.2 (encode_bracket_ne_nil _)⟩
  | dict entries ih =>
    have hentries : ∀ s ∈ entrySegments (depth + 1) entries, s.bytes ≠ [] := by
      induction entries with
      | nil => exact fun s hs => absurd hs List.not_mem_nil
      | cons e es ihs =>
        rw [entrySegments]
        exact List.forall_mem_append.2 ⟨List.forall_mem_cons.2 ⟨hkey e.1,
          ih e List.mem_cons_self _ _⟩, List.forall_mem_cons.2 ⟨encode_bracket_ne_nil _,
            ihs fun f hf => ih f (List.mem_cons_of_mem _ hf)⟩⟩
    rw [segments]
    exact List.forall_mem_append.2 ⟨List.forall_mem_cons.2 ⟨encode_bracket_ne_nil _, hentries⟩,
      List.forall_mem_singleton.2 (encode_bracket_ne_nil _)⟩

theorem exists_segments_eq_cons (t : Tree) (first : Option Nat) (depth : Nat) :
    ∃ text rest, t.segments first depth = ⟨first, text⟩ :: rest := by
  cases t <;> exact ⟨_, _, rfl⟩

/-! ### The segments of parts -/

private theorem isEmpty_append_cons {α : Type} (l l' : List α) (a : α) :
    (l ++ a :: l').isEmpty = false := by
  cases l <;> rfl

private theorem exists_itemSegments (depth : Nat) (earlier later : List Tree) (u : Tree) :
    ∃ front rest, itemSegments depth (earlier ++ u :: later) =
        front ++ u.segments (some depth) depth ++ rest ∧
      Segment.line front = earlier.flatMap fun t => t.line ++ Text.encode [.char ','] := by
  induction earlier with
  | nil => exact ⟨[], _, List.append_assoc _ _ _, rfl⟩
  | cons t ts ih =>
    obtain ⟨front, rest, hsegments, hfront⟩ := ih
    refine ⟨t.segments (some depth) depth ++ [⟨none, [.char ',']⟩] ++ front, rest, ?_, ?_⟩
    · rw [List.cons_append, itemSegments, hsegments]
      simp only [isEmpty_append_cons, Bool.false_eq_true, if_false, List.append_assoc]
    · rw [Segment.line_append, Segment.line_append, line_segments, hfront, List.flatMap_cons]
      rfl

/-- The segments of an item stand behind what is in front of it in its array, and may have a line
break in front of them. -/
theorem exists_segments_item (first : Option Nat) (depth : Nat) (earlier later : List Tree)
    (u : Tree) :
    ∃ front rest, (array (earlier ++ u :: later)).segments first depth =
        front ++ u.segments (some (depth + 1)) (depth + 1) ++ rest ∧
      Segment.line front = upToItem earlier := by
  obtain ⟨front, rest, hsegments, hfront⟩ := exists_itemSegments (depth + 1) earlier later u
  refine ⟨⟨first, [.char '(']⟩ :: front, rest ++ [⟨some depth, [.char ')']⟩], ?_, ?_⟩
  · rw [segments, hsegments]
    simp only [isEmpty_append_cons, Bool.false_eq_true, if_false, List.append_assoc,
      List.cons_append]
  · rw [Segment.line_cons, hfront]
    rfl

private theorem exists_entrySegments (depth : Nat) (earlier later : List (Text × Tree))
    (e : Text × Tree) :
    ∃ front rest, entrySegments depth (earlier ++ e :: later) =
        front ++ ⟨some depth, keyText e.1⟩ :: e.2.segments none depth ++ rest ∧
      Segment.line front = earlier.flatMap fun e =>
        (keyText e.1).encode ++ e.2.line ++ Text.encode [.char ';'] := by
  induction earlier with
  | nil => exact ⟨[], _, rfl, rfl⟩
  | cons e' es ih =>
    obtain ⟨front, rest, hsegments, hfront⟩ := ih
    refine ⟨⟨some depth, keyText e'.1⟩ :: e'.2.segments none depth ++ ⟨none, [.char ';']⟩ :: front,
      rest, ?_, ?_⟩
    · rw [List.cons_append, entrySegments, hsegments]
      simp only [List.append_assoc, List.cons_append]
    · rw [Segment.line_append, Segment.line_cons, Segment.line_cons, line_segments, hfront,
        List.flatMap_cons]
      simp only [List.append_assoc]
      rfl

/-- The segments of an entry stand behind what is in front of it in its dictionary, with a line
break in front of the key. -/
theorem exists_segments_entry (first : Option Nat) (depth : Nat)
    (earlier later : List (Text × Tree)) (e : Text × Tree) :
    ∃ front rest, (dict (earlier ++ e :: later)).segments first depth =
        front ++ ⟨some (depth + 1), keyText e.1⟩ :: e.2.segments none (depth + 1) ++ rest ∧
      Segment.line front = upToEntry earlier := by
  obtain ⟨front, rest, hsegments, hfront⟩ := exists_entrySegments (depth + 1) earlier later e
  refine ⟨⟨first, [.char '\x7b']⟩ :: front, rest ++ [⟨some depth, [.char '\x7d']⟩], ?_, ?_⟩
  · rw [segments, hsegments]
    simp only [isEmpty_append_cons, Bool.false_eq_true, if_false, List.append_assoc,
      List.cons_append]
  · rw [Segment.line_cons, hfront]
    rfl

variable {t u : Tree} {before : Bytes} {d : Nat}

/-- The segments of a part stand together among those of the tree. -/
theorem Has.exists_segments (h : t.Has before d u) :
    ∃ first front rest, t.segments none 0 = front ++ u.segments first d ++ rest ∧
      Segment.line front = before := by
  induction h with
  | root => exact ⟨none, [], [], (List.append_nil _).symm, rfl⟩
  | @item before d earlier later u h ih =>
    obtain ⟨first, front, rest, hsegments, rfl⟩ := ih
    obtain ⟨front', rest', hitem, hfront'⟩ := exists_segments_item first d earlier later u
    refine ⟨some (d + 1), front ++ front', rest' ++ rest, ?_, ?_⟩
    · rw [hsegments, hitem]
      simp only [List.append_assoc]
    · rw [Segment.line_append, hfront']
  | @value before d earlier later key u h ih =>
    obtain ⟨first, front, rest, hsegments, rfl⟩ := ih
    obtain ⟨front', rest', hentry, hfront'⟩ := exists_segments_entry first d earlier later (key, u)
    refine ⟨none, front ++ front' ++ [⟨some (d + 1), keyText key⟩], rest' ++ rest, ?_, ?_⟩
    · rw [hsegments, hentry]
      simp only [List.append_assoc, List.cons_append, List.nil_append]
    · rw [Segment.line_append, Segment.line_append, hfront']
      exact congrArg _ (List.append_nil _)

/-! ### Marks and breaks -/

theorem markedAt_segments (t : Tree) (depth : Nat) :
    MarkedAt (t.segments (some d) depth) [] d := by
  obtain ⟨text, rest, hsegments⟩ := t.exists_segments_eq_cons (some d) depth
  rw [hsegments]
  exact .head

/-- The closing bracket of a container is the end of its line. -/
theorem dropLast_line {front : List Segment} {first depth? : Option Nat} {p : Point}
    (hp : p.encode.length = 1) (hsegments : u.segments first d = front ++ [⟨depth?, [p]⟩]) :
    u.line.dropLast = Segment.line front := by
  obtain ⟨byte, hbyte⟩ := List.length_eq_one_iff.1 hp
  have hclose : Segment.line [⟨depth?, [p]⟩] = [byte] := by
    rw [Segment.line, List.flatMap_singleton, Segment.bytes, Text.encode_cons, hbyte]
    rfl
  rw [← line_segments u first d, hsegments, Segment.line_append, hclose, List.dropLast_concat]

private theorem markedAt_close {front : List Segment} {first : Option Nat} {p : Point}
    (hp : p.encode.length = 1) (hsegments : u.segments first d = front ++ [⟨some d, [p]⟩]) :
    MarkedAt (u.segments first d) u.line.dropLast d := by
  rw [dropLast_line hp hsegments, hsegments, Segment.markedAt_append]
  exact .inr ⟨[], (List.append_nil _).symm, .head⟩

private theorem Has.markedAt {b : Bytes} {n : Nat} (h : t.Has before d u)
    (hmarked : ∀ first, MarkedAt (u.segments first d) b n) :
    MarkedAt (t.segments none 0) (before ++ b) n := by
  obtain ⟨first, front, rest, hsegments, rfl⟩ := h.exists_segments
  rw [hsegments, List.append_assoc, Segment.markedAt_append]
  exact .inr ⟨b, rfl, Segment.markedAt_append.2 (.inl (hmarked first))⟩

/-- Where the line can be broken a segment is marked. -/
theorem Breaks.markedAt (h : t.Breaks before d) : MarkedAt (t.segments none 0) before d := by
  cases h with
  | @item before d earlier later u h =>
    refine h.markedAt fun first => ?_
    obtain ⟨front, rest, hsegments, hfront⟩ := exists_segments_item first d earlier later u
    rw [hsegments, ← hfront, List.append_assoc, Segment.markedAt_append]
    exact .inr ⟨[], (List.append_nil _).symm, Segment.markedAt_append.2
      (.inl (u.markedAt_segments _))⟩
  | @entry before d earlier later e h =>
    refine h.markedAt fun first => ?_
    obtain ⟨front, rest, hsegments, hfront⟩ := exists_segments_entry first d earlier later e
    rw [hsegments, ← hfront, List.append_assoc, Segment.markedAt_append]
    exact .inr ⟨[], (List.append_nil _).symm, .head⟩
  | @closeArray before _ items h hitems =>
    refine h.markedAt fun first => ?_
    have hsegments : (array items).segments first d = ⟨first, [.char '(']⟩ ::
        itemSegments (d + 1) items ++ [⟨some d, [.char ')']⟩] := by
      rw [segments, if_neg (by rwa [List.isEmpty_iff])]
    exact markedAt_close (by decide) hsegments
  | @closeDict before _ entries h hentries =>
    refine h.markedAt fun first => ?_
    have hsegments : (dict entries).segments first d = ⟨first, [.char '\x7b']⟩ ::
        entrySegments (d + 1) entries ++ [⟨some d, [.char '\x7d']⟩] := by
      rw [segments, if_neg (by rwa [List.isEmpty_iff])]
    exact markedAt_close (by decide) hsegments

/-- A mark among the items of an array is one of an item. -/
private theorem exists_of_markedAt_itemSegments {depth : Nat} {items : List Tree} {b : Bytes}
    (h : MarkedAt (itemSegments depth items) b d) :
    ∃ earlier u later b', items = earlier ++ u :: later ∧
      b = (earlier.flatMap fun t => t.line ++ Text.encode [.char ',']) ++ b' ∧
        MarkedAt (u.segments (some depth) depth) b' d := by
  induction items generalizing b with
  | nil => cases h
  | cons t ts ih =>
    rw [itemSegments, Segment.markedAt_append, Segment.markedAt_append] at h
    obtain (h | ⟨b', rfl, h⟩) | ⟨b', rfl, h⟩ := h
    · exact ⟨[], t, ts, b, rfl, rfl, h⟩
    · split_ifs at h
      · cases h
      · rcases Segment.markedAt_cons.1 h with ⟨h, -⟩ | ⟨_, -, h⟩ <;> cases h
    · obtain ⟨earlier, u, later, b'', rfl, rfl, hmarked⟩ := ih h
      refine ⟨t :: earlier, u, later, b'', rfl, ?_, hmarked⟩
      rw [Segment.line_append, line_segments, List.flatMap_cons]
      simp only [isEmpty_append_cons, Bool.false_eq_true, if_false, List.append_assoc]
      rfl

/-- A mark among the entries of a dictionary is one of a key or one inside a value. -/
private theorem exists_of_markedAt_entrySegments {depth : Nat} {entries : List (Text × Tree)}
    {b : Bytes} (h : MarkedAt (entrySegments depth entries) b d) :
    ∃ earlier e later b', entries = earlier ++ e :: later ∧
      b = (earlier.flatMap fun e =>
        (keyText e.1).encode ++ e.2.line ++ Text.encode [.char ';']) ++ b' ∧
      ((depth = d ∧ b' = []) ∨ ∃ b'', b' = (keyText e.1).encode ++ b'' ∧
        MarkedAt (e.2.segments none depth) b'' d) := by
  induction entries generalizing b with
  | nil => cases h
  | cons e es ih =>
    rw [entrySegments, List.cons_append, Segment.markedAt_cons, Option.some.injEq] at h
    obtain ⟨hdepth, rfl⟩ | ⟨b₁, rfl, h⟩ := h
    · exact ⟨[], e, es, [], rfl, rfl, .inl ⟨hdepth, rfl⟩⟩
    rw [Segment.markedAt_append] at h
    obtain h | ⟨b₂, rfl, h⟩ := h
    · exact ⟨[], e, es, _, rfl, rfl, .inr ⟨b₁, rfl, h⟩⟩
    obtain ⟨hsemicolon, -⟩ | ⟨b₃, rfl, hrest⟩ := Segment.markedAt_cons.1 h
    · cases hsemicolon
    obtain ⟨earlier, e', later, b', rfl, rfl, hmarked⟩ := ih hrest
    refine ⟨e :: earlier, e', later, b', rfl, ?_, hmarked⟩
    rw [line_segments, List.flatMap_cons]
    simp only [List.append_assoc]
    rfl

/-- Only a closing bracket with a mark is marked. -/
private theorem eq_of_markedAt_close {depth? : Option Nat} {text : Text} {b : Bytes}
    (h : MarkedAt [⟨depth?, text⟩] b d) : depth? = some d ∧ b = [] := by
  obtain h | ⟨_, -, h⟩ := Segment.markedAt_cons.1 h
  · exact h
  · cases h

/-- **A mark in a part of the tree is where the line can be broken**, unless it is in front of the
whole part. -/
theorem Has.breaks_of_markedAt (h : t.Has before d u) {first : Option Nat} {b : Bytes} {n : Nat}
    (hmarked : MarkedAt (u.segments first d) b n) :
    (first = some n ∧ b = []) ∨ t.Breaks (before ++ b) n := by
  induction u generalizing before d first b with
  | string s => exact .inl (eq_of_markedAt_close hmarked)
  | array items ih =>
    rw [segments, Segment.markedAt_append, Segment.markedAt_cons] at hmarked
    obtain (hfirst | ⟨b₁, rfl, hitem⟩) | ⟨b₁, rfl, hclose⟩ := hmarked
    · exact .inl hfirst
    · obtain ⟨earlier, u, later, b₂, rfl, rfl, hu⟩ := exists_of_markedAt_itemSegments hitem
      right
      have hplace : before ++ (Segment.bytes ⟨first, [.char '(']⟩ ++
          ((earlier.flatMap fun t => t.line ++ Text.encode [.char ',']) ++ b₂)) =
            before ++ upToItem earlier ++ b₂ := by
        rw [upToItem, List.append_assoc, List.append_assoc]
        rfl
      rw [hplace]
      obtain ⟨hdepth, rfl⟩ | hbreaks :=
        ih u (List.mem_append_right _ List.mem_cons_self) h.item hu
      · cases hdepth
        rw [List.append_nil]
        exact .item h
      · exact hbreaks
    · obtain ⟨hdepth, rfl⟩ := eq_of_markedAt_close hclose
      split_ifs at hdepth with hitems
      cases hdepth
      rw [List.append_nil, ← dropLast_line (by decide) segments_array]
      exact .inr (.closeArray h fun hnil => hitems (List.isEmpty_iff.2 hnil))
  | dict entries ih =>
    rw [segments, Segment.markedAt_append, Segment.markedAt_cons] at hmarked
    obtain (hfirst | ⟨b₁, rfl, hentry⟩) | ⟨b₁, rfl, hclose⟩ := hmarked
    · exact .inl hfirst
    · obtain ⟨earlier, e, later, b₂, rfl, rfl, he⟩ := exists_of_markedAt_entrySegments hentry
      right
      have hplace : before ++ (Segment.bytes ⟨first, [.char '\x7b']⟩ ++
          ((earlier.flatMap fun e =>
            (keyText e.1).encode ++ e.2.line ++ Text.encode [.char ';']) ++ b₂)) =
              before ++ upToEntry earlier ++ b₂ := by
        rw [upToEntry, List.append_assoc, List.append_assoc]
        rfl
      rw [hplace]
      obtain ⟨rfl, rfl⟩ | ⟨b₃, rfl, hvalue⟩ := he
      · rw [List.append_nil]
        exact .entry h
      · obtain ⟨hnone, -⟩ | hbreaks :=
          ih e (List.mem_append_right _ List.mem_cons_self) h.value hvalue
        · cases hnone
        · rwa [← List.append_assoc]
    · obtain ⟨hdepth, rfl⟩ := eq_of_markedAt_close hclose
      split_ifs at hdepth with hentries
      cases hdepth
      rw [List.append_nil, ← dropLast_line (by decide) segments_dict]
      exact .inr (.closeDict h fun hnil => hentries (List.isEmpty_iff.2 hnil))

/-- The marks are where the line can be broken. -/
theorem markedAt_iff_breaks : MarkedAt (t.segments none 0) before d ↔ t.Breaks before d := by
  refine ⟨fun h => ?_, Breaks.markedAt⟩
  obtain ⟨hnone, -⟩ | hbreaks := Has.root.breaks_of_markedAt h
  · cases hnone
  · exact hbreaks

end Tree

end PropertyList

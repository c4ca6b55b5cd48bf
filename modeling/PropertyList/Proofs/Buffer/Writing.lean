import PropertyList.Buffer.Writing
import PropertyList.Proofs.Buffer.BoundedBytes
import PropertyList.Proofs.Tree.Rendering

/-!
# Writing trees

A tree of which all line breaks can be written is written if its rendering fits, and the buffer
then contains the rendering behind what it contained before; otherwise the buffer is as it was. A
line break that cannot be written breaks the writing off, if what is in front of it fits. A buffer
that may be enlarged comes to be large enough unless its maximum is too small. So the bytes of a tree
are its rendering, whatever the capacity is to begin with.

Nothing but the bytes of the pieces counts, and these are the same for a tree and its recoding.

## Main definitions

* `Tree.Writable`, `Tree.front`
* `BoundedBytes.write`, `Buffer.AreCapacities`

## Main results

* `Buffer.Shows.write`, `Buffer.Shows.writeGrowing`
* `Tree.dump_eq`, `Tree.dump_eq_ok_iff`
* `Tree.dump_recode`
-/

namespace PropertyList

namespace Piece

/-- The bytes of the pieces in front of the first that cannot be written. -/
def front (pieces : List Piece) : Bytes :=
  (pieces.takeWhile fun p => !p.isOversized).flatMap bytes

variable {p : Piece} {pieces : List Piece}

theorem front_cons (hp : p.isOversized = false) : front (p :: pieces) = p.bytes ++ front pieces := by
  rw [front, List.takeWhile_cons_of_pos (by rw [hp]; rfl), List.flatMap_cons]
  rfl

theorem front_cons_of_oversized (hp : p.isOversized = true) : front (p :: pieces) = [] := by
  rw [front, List.takeWhile_cons_of_neg (by rw [hp]; exact Bool.false_ne_true)]
  rfl

theorem front_eq_flatMap (hpieces : ∀ p ∈ pieces, p.isOversized = false) :
    front pieces = pieces.flatMap bytes := by
  rw [front, List.takeWhile_eq_self_iff.2 fun p hp => by rw [hpieces p hp]; rfl]

/-- A line break is written as a line feed and its blanks. -/
theorem bytes_lineBreak (blanks : Int) :
    (lineBreak blanks).bytes = 10 :: List.replicate blanks.toNat 32 := by
  have hspace : (Point.char ' ').encode = [32] := by decide
  have hfeed : (Point.char '\n').encode = [10] := by decide
  rw [bytes, content, Text.encode_cons, hfeed, Text.encode, List.flatMap_replicate, hspace,
    List.flatten_replicate_singleton]
  rfl

theorem length_bytes_lineBreak (blanks : Int) :
    (lineBreak blanks).bytes.length = blanks.toNat + 1 := by
  rw [bytes_lineBreak, List.length_cons, List.length_replicate]

theorem blanks_le_length (p : Piece) : p.blanks ≤ p.bytes.length := by
  cases p with
  | text t => exact Nat.zero_le _
  | lineBreak blanks =>
    rw [Piece.blanks, length_bytes_lineBreak]
    omega

end Piece

namespace Tree

variable {t : Tree} {indent level : Int}

/-- Whether no line break in a tree that stands at `level` has a number of blanks that is no
64-bit number. -/
def Writable (t : Tree) (indent level : Int) : Prop :=
  ∀ p ∈ t.pieces indent level, p.isOversized = false

instance (t : Tree) (indent level : Int) : Decidable (t.Writable indent level) :=
  inferInstanceAs (Decidable (∀ p ∈ t.pieces indent level, p.isOversized = false))

theorem encode_render (t : Tree) (indent level : Int) :
    (t.render indent level).encode = (t.pieces indent level).flatMap Piece.bytes := by
  rw [render, Text.encode, List.flatMap_assoc]
  rfl

/-- What is written of a tree before a line break that cannot be written. -/
def front (t : Tree) (indent level : Int) : Bytes :=
  Piece.front (t.pieces indent level)

theorem front_eq (ht : t.Writable indent level) :
    t.front indent level = (t.render indent level).encode := by
  rw [front, Piece.front_eq_flatMap ht, encode_render]

end Tree

/-- Writes a tree that stands at `level` if it fits, up to a line break that cannot be written. -/
def BoundedBytes.write (v : BoundedBytes) (indent level : Int) (t : Tree) :
    BoundedBytes × WriteOutcome :=
  if hle : v.bytes.length + (t.front indent level).length ≤ v.capacity then
    (v.extend (t.front indent level) hle,
      if t.Writable indent level then .written else .oversized)
  else (v, .full)

namespace Buffer

/-- The capacities that a buffer can be given. -/
def AreCapacities (initial max : Int) : Prop :=
  0 < initial ∧ initial ≤ max ∧ initial ≤ unbounded

variable {b : Buffer} {v : BoundedBytes}

/-! ### Pieces -/

theorem Shows.offerPiece_of_le (h : b.Shows v) {p : Piece} (hp : p.isOversized = false)
    (hle : v.bytes.length + p.bytes.length ≤ v.capacity) :
    ∃ b', b.offerPiece p = (b', .written) ∧ b'.Shows (v.extend p.bytes hle) := by
  obtain ⟨hoffered, hshows⟩ := h.offer p.bytes
  rw [BoundedBytes.append, dif_pos hle] at hoffered hshows
  have hblanks : ¬ b.capacity < b.length + p.blanks := by
    have := p.blanks_le_length
    rw [h.length_eq, h.capacity_eq]
    omega
  rw [offerPiece, hp, if_neg Bool.false_ne_true, if_neg hblanks]
  cases hoffer : b.offer p.bytes with
  | mk b' offered =>
    rw [hoffer] at hoffered hshows
    obtain rfl : offered = true := hoffered
    exact ⟨b', rfl, hshows⟩

theorem Shows.offerPiece_of_lt (h : b.Shows v) {p : Piece} (hp : p.isOversized = false)
    (hlt : v.capacity < v.bytes.length + p.bytes.length) : b.offerPiece p = (b, .full) := by
  rw [offerPiece, hp, if_neg Bool.false_ne_true, h.contains.offer_of_lt (h.capacity_eq ▸ hlt)]
  split_ifs <;> rfl

/-- Pieces that fit are appended, up to one that cannot be written. -/
theorem Shows.offerAll_of_le (h : b.Shows v) {pieces : List Piece}
    (hle : v.bytes.length + (Piece.front pieces).length ≤ v.capacity) :
    ∃ b' v', b.offerAll pieces =
        (b', if ∀ p ∈ pieces, p.isOversized = false then .written else .oversized) ∧
      b'.Shows v' ∧ v'.bytes = v.bytes ++ Piece.front pieces ∧ v'.capacity = v.capacity ∧
      v'.maxCapacity = v.maxCapacity := by
  induction pieces generalizing b v with
  | nil => exact ⟨b, v, rfl, h, (List.append_nil _).symm, rfl, rfl⟩
  | cons p pieces ih =>
    cases hp : p.isOversized with
    | true =>
      rw [Piece.front_cons_of_oversized hp, List.append_nil]
      refine ⟨b, v, ?_, h, rfl, rfl, rfl⟩
      rw [offerAll, offerPiece, if_pos hp, if_neg]
      exact fun hpieces => Bool.false_ne_true ((hpieces p List.mem_cons_self).symm.trans hp)
    | false =>
      rw [Piece.front_cons hp, List.length_append] at hle
      obtain ⟨b₁, hoffer, h₁⟩ := h.offerPiece_of_le hp (by omega)
      obtain ⟨b', v', hoffers, h', hbytes, hcapacity, hmax⟩ := ih h₁ (by
        show (v.bytes ++ p.bytes).length + _ ≤ v.capacity
        rw [List.length_append]
        omega)
      refine ⟨b', v', ?_, h', ?_, hcapacity, hmax⟩
      · rw [offerAll, hoffer]
        simpa only [List.forall_mem_cons, hp, true_and] using hoffers
      · rw [hbytes, Piece.front_cons hp, ← List.append_assoc]
        rfl

/-- Of pieces that do not fit some of the first are appended. -/
theorem Shows.offerAll_of_lt (h : b.Shows v) {pieces : List Piece}
    (hlt : v.capacity < v.bytes.length + (Piece.front pieces).length) :
    ∃ b' v' more, b.offerAll pieces = (b', .full) ∧ b'.Shows v' ∧ v'.bytes = v.bytes ++ more ∧
      v'.capacity = v.capacity ∧ v'.maxCapacity = v.maxCapacity := by
  induction pieces generalizing b v with
  | nil => exact absurd hlt (Nat.not_lt.2 v.length_le)
  | cons p pieces ih =>
    cases hp : p.isOversized with
    | true =>
      rw [Piece.front_cons_of_oversized hp] at hlt
      exact absurd hlt (Nat.not_lt.2 v.length_le)
    | false =>
      rw [Piece.front_cons hp, List.length_append] at hlt
      by_cases hfits : v.bytes.length + p.bytes.length ≤ v.capacity
      · obtain ⟨b₁, hoffer, h₁⟩ := h.offerPiece_of_le hp hfits
        obtain ⟨b', v', more, hoffers, h', hbytes, hcapacity, hmax⟩ := ih h₁ (by
          show v.capacity < (v.bytes ++ p.bytes).length + _
          rw [List.length_append]
          omega)
        refine ⟨b', v', p.bytes ++ more, ?_, h', ?_, hcapacity, hmax⟩
        · rw [offerAll, hoffer]
          exact hoffers
        · rw [hbytes, ← List.append_assoc]
          rfl
      · refine ⟨b, v, [], ?_, h, (List.append_nil _).symm, rfl, rfl⟩
        rw [offerAll, h.offerPiece_of_lt hp (Nat.not_le.1 hfits)]

/-! ### Trees -/

variable {t : Tree} {indent level : Int}

/-- **A tree is written as a whole or not at all**, line breaks that cannot be written apart. -/
theorem Shows.write (h : b.Shows v) (indent level : Int) (t : Tree) :
    Refines (b.write indent level t) (v.write indent level t) := by
  rw [Buffer.write, BoundedBytes.write]
  split_ifs with hle ht
  · obtain ⟨b', v', hoffers, h', hbytes, hcapacity, hmax⟩ := h.offerAll_of_le hle
    obtain rfl : v' = v.extend (t.front indent level) hle :=
      BoundedBytes.ext hbytes hcapacity hmax
    have ht' : ∀ p ∈ t.pieces indent level, p.isOversized = false := ht
    rw [hoffers, if_pos ht']
    exact ⟨rfl, h'⟩
  · obtain ⟨b', v', hoffers, h', hbytes, hcapacity, hmax⟩ := h.offerAll_of_le hle
    obtain rfl : v' = v.extend (t.front indent level) hle :=
      BoundedBytes.ext hbytes hcapacity hmax
    have ht' : ¬ ∀ p ∈ t.pieces indent level, p.isOversized = false := ht
    rw [hoffers, if_neg ht']
    exact ⟨rfl, h'⟩
  · obtain ⟨b', v', more, hoffers, h', hbytes, hcapacity, hmax⟩ :=
      h.offerAll_of_lt (Nat.not_le.1 hle)
    rw [hoffers]
    exact ⟨rfl, h.truncate h' hbytes hcapacity hmax⟩

/-! ### Growing -/

/-- A tree is written if it fits into the maximum, however often the buffer is enlarged. -/
theorem Shows.writeGrowing (h : b.Shows v) (indent level : Int) (t : Tree) :
    if v.maxCapacity < v.bytes.length + (t.front indent level).length then
      (b.writeGrowing indent level t).2 = .full
    else
      (b.writeGrowing indent level t).2 =
          (if t.Writable indent level then .written else .oversized) ∧
        (b.writeGrowing indent level t).1.value = .ok (v.bytes ++ t.front indent level) := by
  induction hslack : v.maxCapacity - v.capacity using Nat.strongRecOn generalizing b v with
  | ind n ih =>
    have hcapacity := v.capacity_le
    obtain ⟨houtcome, hshows⟩ := h.write indent level t
    rw [Buffer.writeGrowing]
    unfold BoundedBytes.write at houtcome hshows
    split_ifs at houtcome hshows with hle ht
    · rw [if_neg (by omega), if_neg (by rw [houtcome]; exact fun h => by cases h), if_pos ht]
      exact ⟨houtcome, hshows.value_eq⟩
    · rw [if_neg (by omega), if_neg (by rw [houtcome]; exact fun h => by cases h), if_neg ht]
      exact ⟨houtcome, hshows.value_eq⟩
    · have hshows' : (b.write indent level t).1.Shows v := hshows
      obtain ⟨hgrown, hlarger⟩ := hshows'.grow
      rw [if_pos houtcome]
      unfold BoundedBytes.grow at hgrown hlarger
      split_ifs at hgrown hlarger with hlt
      · have hpos := v.capacity_pos (by omega)
        have hslack' : v.maxCapacity - min (2 * v.capacity) v.maxCapacity < n := by omega
        have hrest := ih _ hslack' hlarger rfl
        rw [dif_pos hgrown]
        exact hrest
      · rw [dif_neg (by rw [hgrown]; exact Bool.false_ne_true), if_pos (by omega)]
        exact houtcome

/-! ### Recoding -/

theorem offerPiece_recode (b : Buffer) (p : Piece) : b.offerPiece p.recode = b.offerPiece p := by
  rw [offerPiece, offerPiece, p.isOversized_recode, p.blanks_recode, p.bytes_recode]

theorem offerAll_map_recode (b : Buffer) (pieces : List Piece) :
    b.offerAll (pieces.map Piece.recode) = b.offerAll pieces := by
  induction pieces generalizing b with
  | nil => rfl
  | cons p pieces ih =>
    rw [List.map_cons, offerAll, offerAll, offerPiece_recode]
    simp only [ih]

theorem write_recode (b : Buffer) (indent level : Int) (t : Tree) :
    b.write indent level t.recode = b.write indent level t := by
  rw [write, write, Tree.pieces_recode, offerAll_map_recode]

theorem writeGrowing_recode (b : Buffer) (indent level : Int) (t : Tree) :
    b.writeGrowing indent level t.recode = b.writeGrowing indent level t := by
  fun_induction writeGrowing b indent level t with
  | case1 b written hfull grown hgrow ih =>
    rw [writeGrowing]
    simp only [write_recode]
    rw [if_pos hfull, dif_pos hgrow]
    exact ih
  | case2 b written hfull grown hgrow =>
    rw [writeGrowing]
    simp only [write_recode]
    rw [if_pos hfull, dif_neg hgrow]
  | case3 b written hfull =>
    rw [writeGrowing]
    simp only [write_recode]
    rw [if_neg hfull]

end Buffer

namespace Tree

variable {t : Tree} {indent level initial max : Int}

private theorem create_eq_ok (h : Buffer.AreCapacities initial max) :
    Buffer.create initial max = .ok ⟨some #[], 0, initial.toNat, max.toNat, false⟩ := by
  obtain ⟨hpos, hle, hbound⟩ := h
  rw [Buffer.create, if_neg (by omega), if_neg (by omega)]

private theorem exists_create_eq_error (h : ¬ Buffer.AreCapacities initial max) :
    ∃ e, Buffer.create initial max = .error e := by
  unfold Buffer.AreCapacities at h
  unfold Buffer.create
  split_ifs
  · exact ⟨_, rfl⟩
  · exact ⟨_, rfl⟩
  · omega

/-- The bytes of a tree do not depend on the capacity there is to begin with. -/
theorem dump_eq (hcapacities : Buffer.AreCapacities initial max) :
    t.dump indent level initial max =
      if max < (t.front indent level).length then .error (.full max)
      else if t.Writable indent level then .ok (t.render indent level).encode
      else .error (.buffer .oversized) := by
  have hcreate := create_eq_ok hcapacities
  obtain ⟨v, hshows, hbytes, -⟩ := Buffer.IsNew.shows (Or.inl ⟨initial, max, hcreate⟩)
  have hmax : max.toNat = v.maxCapacity := hshows.maxCapacity_eq
  have hpos : 0 < max := Int.lt_of_lt_of_le hcapacities.1 hcapacities.2.1
  have hwrite := hshows.writeGrowing indent level t
  rw [← hmax, hbytes, List.length_nil, Nat.zero_add, List.nil_append] at hwrite
  rw [dump, hcreate]
  simp only [Except.mapError, bind, Except.bind]
  generalize Buffer.writeGrowing _ indent level t = written at hwrite ⊢
  obtain ⟨b, outcome⟩ := written
  by_cases hlong : max < (t.front indent level).length
  · rw [if_pos (by omega)] at hwrite
    obtain rfl : outcome = .full := hwrite
    rw [if_pos hlong]
    rfl
  · rw [if_neg (by omega)] at hwrite
    obtain ⟨houtcome, hvalue⟩ := hwrite
    rw [if_neg hlong]
    by_cases ht : t.Writable indent level
    · rw [if_pos ht] at houtcome ⊢
      obtain rfl : outcome = .written := houtcome
      simp only [hvalue, front_eq ht]
    · rw [if_neg ht] at houtcome ⊢
      obtain rfl : outcome = .oversized := houtcome
      rfl

/-- **The bytes of a tree are its rendering.** A tree has bytes exactly if the capacities are in
order, all its line breaks can be written and its rendering is no longer than the maximum. -/
theorem dump_eq_ok_iff {bytes : Bytes} :
    t.dump indent level initial max = .ok bytes ↔
      Buffer.AreCapacities initial max ∧ t.Writable indent level ∧ bytes.length ≤ max ∧
        bytes = (t.render indent level).encode := by
  by_cases hcapacities : Buffer.AreCapacities initial max
  · rw [dump_eq hcapacities]
    by_cases ht : t.Writable indent level
    · rw [front_eq ht, if_pos ht]
      by_cases hlong : max < (t.render indent level).encode.length
      · rw [if_pos hlong]
        constructor
        · intro h
          cases h
        · rintro ⟨-, -, hle, rfl⟩
          exact absurd hlong (Int.not_lt.2 hle)
      · rw [if_neg hlong]
        constructor
        · intro h
          obtain rfl := Except.ok.inj h
          exact ⟨hcapacities, ht, Int.not_lt.1 hlong, rfl⟩
        · rintro ⟨-, -, -, rfl⟩
          rfl
    · rw [if_neg ht]
      refine ⟨fun h => ?_, fun h => absurd h.2.1 ht⟩
      split_ifs at h
  · obtain ⟨e, hcreate⟩ := exists_create_eq_error hcapacities
    rw [dump, hcreate]
    refine ⟨fun h => ?_, fun h => absurd h.1 hcapacities⟩
    cases h

/-- Writing depends on the bytes of the strings alone. -/
theorem dump_recode (t : Tree) (indent level initial max : Int) :
    t.recode.dump indent level initial max = t.dump indent level initial max := by
  simp only [dump, Buffer.writeGrowing_recode]

end Tree

end PropertyList

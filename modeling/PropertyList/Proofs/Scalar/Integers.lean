import PropertyList.Proofs.Number.Positional
import PropertyList.Proofs.Scalar.Canonical

/-!
# The languages of integers

Three of the scalar types are integers. The texts that spell them are given by their grammar:
blanks, a sign, digits and blanks, or a tag and eight hexadecimal digits. A text is read if it
spells an integer in the range of its type, and is refused otherwise. Every integer in the range is
written as its canonical text, which is the only one that has nothing in it that could be left out.

A text with more digits than are converted is none of the texts considered here.

## Main definitions

* `IntegerType`, `IntegerType.InRange`
* `IntegerType.Spells`, the integers that texts spell
* `IntegerType.Canonical`, the canonical texts
* `IntegerType.Reads`, what reading is to give
* `Scalar.recode`, reading a text and writing what was read

## Main results

* `IntegerType.reads_decode`
* `IntegerType.eq_canonical`, `IntegerType.canonical_canonical`
* `IntegerType.integers_exact`
-/

namespace PropertyList

open Positional

/-! ### Grammar -/

/-- The scalar types that are integers. -/
inductive IntegerType where
  | uint64
  | int64
  | argb32
  deriving DecidableEq, Repr

/-- What may stand before the digits of an integer. -/
inductive Sign where
  | none
  | plus
  | minus
  deriving DecidableEq, Repr

namespace Sign

def text : Sign → Text
  | none => []
  | plus => [.char '+']
  | minus => [.char '-']

/-- The integer with a sign and an absolute value. -/
def apply : Sign → Nat → Int
  | minus, n => -n
  | none, n | plus, n => n

/-- Whether a sign is a minus sign. -/
def negative : Sign → Bool
  | minus => true
  | none | plus => false

end Sign

namespace IntegerType

def scalar : IntegerType → ScalarType
  | uint64 => .uint64
  | int64 => .int64
  | argb32 => .argb32

/-- The name of a type in messages about its range. -/
def name : IntegerType → Text
  | uint64 => "uint64"
  | int64 => "int64"
  | argb32 => "argb32"

/-- The name of a type in messages about its syntax. -/
def label : IntegerType → Text
  | uint64 => "uint64"
  | int64 => "int64"
  | argb32 => "argb32 color"

/-- Whether an integer is one of a type. -/
def InRange : IntegerType → Int → Prop
  | uint64, n => 0 ≤ n ∧ n ≤ 2 ^ 64 - 1
  | int64, n => -2 ^ 63 ≤ n ∧ n ≤ 2 ^ 63 - 1
  | argb32, n => 0 ≤ n ∧ n ≤ 2 ^ 32 - 1

/-- The signs that decimal digits of a type may have. Colours have no decimal digits. -/
def signs : IntegerType → List Sign
  | uint64 => [.none]
  | int64 => [.none, .plus, .minus]
  | argb32 => []

/-- The integers that texts spell, whether or not they are in the range of the type. -/
inductive Spells (type : IntegerType) : Text → Int → Prop
  | decimal {before after t : Text} {sign : Sign} {digits : List (Fin 10)}
      (hbefore : ∀ p ∈ before, Scalar.isBlank p = true)
      (hafter : ∀ p ∈ after, Scalar.isBlank p = true) (hsign : sign ∈ type.signs)
      (hne : digits ≠ []) (ht : List.Forall₂ SpellsDigit t digits) :
      Spells type (before ++ (sign.text ++ t) ++ after) (sign.apply (value digits))
  | colour {t : Text} {digits : List (Fin 16)} (htype : type = .argb32)
      (hlength : digits.length = 8) (ht : List.Forall₂ SpellsDigit t digits) :
      Spells type ("argb32:" ++ t) (value digits)

/-- The texts of integers without blanks, plus signs, leading zeros and upper-case letters, of which
only those of negative integers have a minus sign. -/
inductive Canonical (type : IntegerType) : Text → Int → Prop
  | decimal {sign : Sign} {digits : List (Fin 10)} (hsign : sign ∈ type.signs)
      (hplus : sign ≠ .plus) (hminus : sign = .minus → value digits ≠ 0) (hne : digits ≠ [])
      (hzero : NoLeadingZero digits) :
      Canonical type (sign.text ++ spell digits) (sign.apply (value digits))
  | colour {digits : List (Fin 16)} (htype : type = .argb32) (hlength : digits.length = 8) :
      Canonical type ("argb32:" ++ spell digits) (value digits)

/-- What reading a text is to give: the integer that the text spells if it is in the range of the
type, and otherwise a fault of the data that carries the text. -/
structure Reads (type : IntegerType) (t : Text) (result : Except Failure Value) : Prop where
  ok_iff : ∀ v, result = .ok v ↔ ∃ n, v = .int n ∧ type.Spells t n ∧ type.InRange n
  malformed : (∀ n, ¬ type.Spells t n) →
    result = .error (.decode (.malformed type.label t) none)
  outOfRange : ∀ n, type.Spells t n → ¬ type.InRange n →
    result = .error (.decode (.outOfRange type.name t) none)

end IntegerType

namespace Scalar

/-- Reads a text and writes what was read. -/
def recode (type : ScalarType) (s : Store) (t : Text) : Except Failure Text := do
  write type s (← read type t)

end Scalar

/-! ### Decimal numerals -/

namespace Numeral

variable {t u : Text} {digits : List (Fin 10)} {negative : Bool} {sign : Sign}

theorem readsDigits_digit? : ReadsDigits 10 digit? := by
  intro p n
  constructor
  · intro hp
    cases p with
    | stray low => cases hp
    | char c =>
      simp only [digit?] at hp
      split_ifs at hp with hc
      cases hp
      exact exists_spellsDigit_of_isDigit (Nat.le_refl 10) hc
  · rintro ⟨d, rfl, rfl | rfl⟩ <;> revert d <;> decide

theorem isDigits_iff : isDigits t = true ↔
    ∃ digits : List (Fin 10), digits ≠ [] ∧ List.Forall₂ SpellsDigit t digits := by
  have hempty {digits : List (Fin 10)} (ht : List.Forall₂ SpellsDigit t digits) :
      t = [] ↔ digits = [] := by
    rw [← List.length_eq_zero_iff, ← List.length_eq_zero_iff, ht.length_eq]
  rw [isDigits, Bool.and_eq_true, Bool.not_eq_true', List.isEmpty_eq_false_iff, List.all_eq_true]
  constructor
  · rintro ⟨hne, hall⟩
    obtain ⟨digits, ht⟩ := readsDigits_digit?.exists_digits_iff.1 hall
    exact ⟨digits, mt (hempty ht).2 hne, ht⟩
  · rintro ⟨digits, hne, ht⟩
    exact ⟨mt (hempty ht).1 hne, readsDigits_digit?.exists_digits_iff.2 ⟨digits, ht⟩⟩

theorem readNatural_eq_value (ht : List.Forall₂ SpellsDigit t digits) :
    readNatural t = value digits :=
  (readsDigits_digit?.foldl_eq_value ht 0).trans (by rw [Nat.mul_zero, Nat.zero_add])

theorem integerOf_eq_apply (sign : Sign) (ht : List.Forall₂ SpellsDigit t digits) :
    integerOf sign.negative t = sign.apply (value digits) := by
  rw [integerOf, readNatural_eq_value ht]
  cases sign <;> rfl

theorem splitSign_text_append (sign : Sign) (ht : isDigits t = true) :
    splitSign (sign.text ++ t) = (sign.negative, t) := by
  cases sign with
  | none =>
    obtain ⟨digits, hne, ht⟩ := isDigits_iff.1 ht
    cases ht with
    | nil => exact absurd rfl hne
    | @cons p _ t _ hp _ =>
      exact splitSign_of_isDigit (by rw [isDigit, readsDigits_digit?.eq_some hp]; rfl) t
  | plus => rfl
  | minus => rfl

theorem exists_sign_of_splitSign (t : Text) :
    ∃ sign : Sign, sign.negative = (splitSign t).1 ∧ t = sign.text ++ (splitSign t).2 := by
  unfold splitSign
  split
  · exact ⟨.minus, rfl, rfl⟩
  · exact ⟨.plus, rfl, rfl⟩
  · exact ⟨.none, rfl, rfl⟩

theorem splitInteger?_eq_some_iff : splitInteger? t = some (negative, u) ↔
    isDigits u = true ∧ ∃ sign : Sign, sign.negative = negative ∧ t = sign.text ++ u := by
  constructor
  · intro h
    obtain ⟨sign, hsign, ht⟩ := exists_sign_of_splitSign t
    simp only [splitInteger?] at h
    split_ifs at h with hdigits
    cases h
    exact ⟨hdigits, sign, hsign, ht⟩
  · rintro ⟨hdigits, sign, rfl, rfl⟩
    rw [splitInteger?, splitSign_text_append sign hdigits]
    exact if_pos hdigits

end Numeral

/-! ### Reading -/

namespace IntegerType

variable {type : IntegerType} {t : Text} {n : Int}

/-- A text that spells nothing is refused as malformed. -/
theorem Reads.of_not_spells {result : Except Failure Value} (hspells : ∀ n, ¬ type.Spells t n)
    (hresult : result = .error (.decode (.malformed type.label t) none)) :
    type.Reads t result where
  ok_iff v := by
    rw [hresult]
    refine iff_of_false (by rintro ⟨⟩) ?_
    rintro ⟨n, -, hn, -⟩
    exact hspells n hn
  malformed _ := hresult
  outOfRange n hn := absurd hn (hspells n)

/-- A text spells one integer, and it depends on the range whether it is read. -/
theorem Reads.of_spells {result : Except Failure Value} (hspells : ∀ m, type.Spells t m ↔ n = m)
    (hin : type.InRange n → result = .ok (.int n))
    (hout : ¬ type.InRange n → result = .error (.decode (.outOfRange type.name t) none)) :
    type.Reads t result where
  ok_iff v := by
    by_cases hrange : type.InRange n
    · rw [hin hrange, Except.ok.injEq]
      constructor
      · rintro rfl
        exact ⟨n, rfl, (hspells n).2 rfl, hrange⟩
      · rintro ⟨m, rfl, hm, -⟩
        rw [(hspells m).1 hm]
    · rw [hout hrange]
      refine iff_of_false (by rintro ⟨⟩) ?_
      rintro ⟨m, -, hm, hrange'⟩
      exact hrange ((hspells m).1 hm ▸ hrange')
  malformed hnone := absurd ((hspells n).2 rfl) (hnone n)
  outOfRange m hm hrange := hout ((hspells m).1 hm ▸ hrange)

section Decimal

variable {numeral? : Text → Option (Bool × Text)}

/-- Whether a function finds the signs and digits that a decimal type admits. -/
structure Finds (type : IntegerType) (numeral? : Text → Option (Bool × Text)) : Prop where
  ne_argb32 : type ≠ .argb32
  eq_some_iff : ∀ t negative u, numeral? t = some (negative, u) ↔
    Numeral.isDigits u = true ∧ ∃ sign ∈ type.signs, sign.negative = negative ∧ t = sign.text ++ u

theorem spells_iff (hfinds : type.Finds numeral?) : type.Spells t n ↔
    ∃ negative u, numeral? (Scalar.strip t) = some (negative, u) ∧
      Numeral.integerOf negative u = n := by
  constructor
  · intro h
    cases h with
    | @decimal before after u sign digits hbefore hafter hsign hne hu =>
      have hdigits : Numeral.isDigits u = true := Numeral.isDigits_iff.2 ⟨digits, hne, hu⟩
      have hnonempty : u ≠ [] := by
        rintro rfl
        cases hdigits
      have hplain : ∀ p ∈ sign.text ++ u, Scalar.isBlank p = false := by
        refine List.forall_mem_append.2 ⟨?_, fun p hp => Scalar.isBlank_of_isDigit ?_⟩
        · cases sign <;> decide
        · exact Numeral.readsDigits_digit?.exists_digits_iff.2 ⟨digits, hu⟩ p hp
      have hstrip := Scalar.strip_append hbefore hafter
        (List.append_ne_nil_of_right_ne_nil _ hnonempty) hplain
      refine ⟨sign.negative, u, ?_, Numeral.integerOf_eq_apply sign hu⟩
      rw [hstrip]
      exact (hfinds.eq_some_iff _ _ _).2 ⟨hdigits, sign, hsign, rfl, rfl⟩
    | colour htype => exact absurd htype hfinds.ne_argb32
  · rintro ⟨negative, u, hnumeral, rfl⟩
    obtain ⟨hdigits, sign, hsign, rfl, hstrip⟩ := (hfinds.eq_some_iff _ _ _).1 hnumeral
    obtain ⟨digits, hne, hu⟩ := Numeral.isDigits_iff.1 hdigits
    obtain ⟨before, after, hbefore, hafter, ht⟩ := Scalar.exists_eq_append_strip t
    have hspells : type.Spells (before ++ (sign.text ++ u) ++ after) (sign.apply (value digits)) :=
      .decimal hbefore hafter hsign hne hu
    rwa [Numeral.integerOf_eq_apply sign hu, ht, hstrip]

/-- A text has at least the digits of its numeral. -/
theorem length_le_countP (hfinds : type.Finds numeral?) {negative : Bool} {u : Text}
    (hnumeral : numeral? (Scalar.strip t) = some (negative, u)) :
    u.length ≤ t.countP Numeral.isDigit := by
  obtain ⟨hdigits, sign, -, -, hstrip⟩ := (hfinds.eq_some_iff _ _ _).1 hnumeral
  obtain ⟨before, after, -, -, ht⟩ := Scalar.exists_eq_append_strip t
  have hall : u.countP Numeral.isDigit = u.length := by
    rw [List.countP_eq_length]
    rw [Numeral.isDigits, Bool.and_eq_true, List.all_eq_true] at hdigits
    exact hdigits.2
  rw [← hall, ht, hstrip]
  simp only [List.countP_append]
  omega

theorem reads_readInteger (hfinds : type.Finds numeral?) {low high : Int}
    (hrange : ∀ n, type.InRange n ↔ low ≤ n ∧ n ≤ high) (hlabel : type.label = type.name)
    (hfew : t.countP Numeral.isDigit ≤ digitLimit) :
    type.Reads t (Value.int <$> Scalar.readInteger type.name low high numeral? t) := by
  cases hnumeral : numeral? (Scalar.strip t) with
  | none =>
    have hresult : Scalar.readInteger type.name low high numeral? t =
        .error (.decode (.malformed type.name t) none) := by
      simp only [Scalar.readInteger, hnumeral]
      rfl
    rw [hresult, ← hlabel]
    refine .of_not_spells (fun n hn => ?_) rfl
    obtain ⟨negative, u, hsome, -⟩ := (spells_iff hfinds).1 hn
    rw [hnumeral] at hsome
    cases hsome
  | some numeral =>
    obtain ⟨negative, u⟩ := numeral
    have hconvert : Scalar.convert negative u = .ok (Numeral.integerOf negative u) :=
      if_neg (Nat.not_lt.2 ((length_le_countP hfinds hnumeral).trans hfew))
    have hspells (m : Int) : type.Spells t m ↔ Numeral.integerOf negative u = m := by
      rw [spells_iff hfinds, hnumeral]
      simp
    refine .of_spells hspells (fun hin => ?_) fun hout => ?_
    · simp only [Scalar.readInteger, hnumeral, hconvert, bind, Except.bind,
        if_pos ((hrange _).1 hin)]
      rfl
    · simp only [Scalar.readInteger, hnumeral, hconvert, bind, Except.bind,
        if_neg (mt (hrange _).2 hout)]
      rfl

end Decimal

theorem finds_uint64 :
    Finds .uint64 fun t => if Numeral.isDigits t then some (false, t) else none := by
  refine ⟨by decide, fun t negative u => ?_⟩
  constructor
  · intro h
    split_ifs at h with hdigits
    cases h
    exact ⟨hdigits, .none, List.mem_cons_self, rfl, rfl⟩
  · rintro ⟨hdigits, sign, hsign, rfl, rfl⟩
    obtain rfl : sign = .none := List.mem_singleton.1 hsign
    exact if_pos hdigits

theorem finds_int64 : Finds .int64 Numeral.splitInteger? := by
  refine ⟨by decide, fun t negative u => ?_⟩
  have hall (sign : Sign) : sign ∈ signs .int64 := by cases sign <;> decide
  rw [Numeral.splitInteger?_eq_some_iff]
  simp only [hall, true_and]

/-- Whether a text is a tag and eight hexadecimal digits. -/
def IsColour (t : Text) : Prop :=
  Scalar.colourTag.isPrefixOf t = true ∧ (t.drop Scalar.colourTag.length).length = 8 ∧
    ((t.drop Scalar.colourTag.length).all fun p => (Scalar.hexDigit? p).isSome) = true

theorem spells_argb32_iff : Spells .argb32 t n ↔
    IsColour t ∧ (Scalar.readHex 0 (t.drop Scalar.colourTag.length) : Int) = n := by
  constructor
  · intro h
    cases h with
    | decimal _ _ hsign => cases hsign
    | @colour u digits _ hlength hu =>
      have hdrop : (Scalar.colourTag ++ u).drop Scalar.colourTag.length = u := List.drop_left
      have htag := List.isPrefixOf_iff_prefix.2 (List.prefix_append Scalar.colourTag u)
      change IsColour (Scalar.colourTag ++ u) ∧
        (Scalar.readHex 0 ((Scalar.colourTag ++ u).drop _) : Int) = value digits
      rw [IsColour, hdrop]
      refine ⟨⟨htag, hu.length_eq.trans hlength, List.all_eq_true.2 ?_⟩,
        congrArg Nat.cast (Scalar.readHex_eq_value hu)⟩
      exact Scalar.readsDigits_hexDigit?.exists_digits_iff.2 ⟨digits, hu⟩
  · rintro ⟨⟨htag, hlength, hall⟩, rfl⟩
    obtain ⟨u, rfl⟩ := List.isPrefixOf_iff_prefix.1 htag
    rw [List.drop_left] at hlength hall ⊢
    obtain ⟨digits, hu⟩ :=
      Scalar.readsDigits_hexDigit?.exists_digits_iff.1 (List.all_eq_true.1 hall)
    rw [Scalar.readHex_eq_value hu]
    exact .colour rfl (hu.length_eq.symm.trans hlength) hu

theorem reads_readArgb32 (t : Text) : Reads .argb32 t (Value.int <$> Scalar.readArgb32 t) := by
  by_cases ht : IsColour t
  · have hread : Scalar.readArgb32 t =
        .ok (Scalar.readHex 0 (t.drop Scalar.colourTag.length) : Nat) := if_pos ht
    rw [hread]
    refine .of_spells (fun m => ?_) (fun _ => rfl) fun hout => ?_
    · rw [spells_argb32_iff, and_iff_right ht]
    · exact absurd (Scalar.range_of_readArgb32 hread) hout
  · have hread : Scalar.readArgb32 t = .error (.decode (.malformed "argb32 color" t) none) :=
      if_neg ht
    rw [hread]
    exact .of_not_spells (fun n hn => ht (spells_argb32_iff.1 hn).1) rfl

/-- **The language of a type.** -/
theorem reads_decode {h : Heap} {id : ObjectId} (hstring : h.string? id = some t)
    (hfew : t.countP Numeral.isDigit ≤ digitLimit) :
    type.Reads t (Scalar.decode type.scalar h id) := by
  rw [Scalar.decode_of_string? hstring]
  cases type with
  | uint64 => exact reads_readInteger finds_uint64 (fun n => Iff.rfl) rfl hfew
  | int64 => exact reads_readInteger finds_int64 (fun n => Iff.rfl) rfl hfew
  | argb32 => exact reads_readArgb32 t

/-! ### Writing -/

theorem inRange_iff_conforms : type.InRange n ↔ type.scalar.Conforms (.int n) := by
  cases type <;> exact Iff.rfl

/-- An integer is written if it is in the range of its type. -/
theorem exists_write_iff (s : Store) :
    (∃ c, Scalar.write type.scalar s (.int n) = .ok c) ↔ type.InRange n := by
  constructor
  · rintro ⟨c, hwrite⟩
    cases type with
    | uint64 | int64 => exact (Scalar.range_of_writeInteger hwrite).1
    | argb32 => exact (Scalar.range_of_writeArgb32 hwrite).1
  · intro hn
    exact ⟨_, Scalar.write_eq_canonical (inRange_iff_conforms.1 hn) s⟩

theorem distinctNames_scalar (type : IntegerType) : type.scalar.DistinctNames := by
  cases type <;> trivial

/-! ### Canonical texts -/

theorem spell_eq_ofNat {digits : List (Fin 10)} (hne : digits ≠ []) (hzero : NoLeadingZero digits) :
    spell digits = .ofNat (value digits) := by
  rw [Text.ofNat, toDigits_value (by decide) hne hzero]
  rfl

/-- A canonical text is the one that its integer is written as. -/
theorem eq_canonical (ht : type.Canonical t n) : t = type.scalar.canonical (.int n) := by
  cases ht with
  | @decimal sign digits hsign hplus hminus hne hzero =>
    have hofInt : sign.text ++ spell digits = .ofInt (sign.apply (value digits)) := by
      rw [spell_eq_ofNat hne hzero]
      cases sign with
      | none => rfl
      | plus => exact absurd rfl hplus
      | minus =>
        obtain ⟨k, hk⟩ := Nat.exists_eq_succ_of_ne_zero (hminus rfl)
        rw [hk]
        rfl
    cases type with
    | uint64 | int64 => exact hofInt
    | argb32 => cases hsign
  | @colour digits htype hlength =>
    subst htype
    have hne : digits ≠ [] := by
      rintro rfl
      cases hlength
    have hofHex : Text.ofHex 8 (value digits) = spell digits := by
      rw [← hlength, Scalar.ofHex_value hne]
    exact congrArg (Scalar.colourTag ++ ·) hofHex.symm

/-- Decimal digits without leading zeros are canonical with the sign that they need. -/
theorem exists_canonical_apply {sign : Sign} (hsign : sign ∈ type.signs) (hplus : sign ≠ .plus)
    (n : Nat) (hminus : sign = .minus → n ≠ 0) : ∃ t, type.Canonical t (sign.apply n) := by
  obtain ⟨digits, hne, hzero, rfl⟩ := exists_noLeadingZero (b := 10) (by decide) n
  exact ⟨_, .decimal hsign hplus hminus hne hzero⟩

theorem exists_canonical (hn : type.InRange n) : ∃ t, type.Canonical t n := by
  cases type with
  | uint64 =>
    have hnone : ∃ t, Canonical .uint64 t (Sign.none.apply n.toNat) :=
      exists_canonical_apply (by decide) (by decide) n.toNat (by rintro ⟨⟩)
    rwa [Sign.apply, Int.toNat_of_nonneg hn.1] at hnone
  | int64 =>
    have hnone (m : Nat) : ∃ t, Canonical .int64 t (Sign.none.apply m) :=
      exists_canonical_apply (by decide) (by decide) m (by rintro ⟨⟩)
    obtain ⟨m, rfl | rfl⟩ := n.eq_nat_or_neg
    · exact hnone m
    · rcases Nat.eq_zero_or_pos m with rfl | hm
      · exact hnone 0
      · have hminus : ∃ t, Canonical .int64 t (Sign.minus.apply m) :=
          exists_canonical_apply (by decide) (by decide) m fun _ => Nat.ne_of_gt hm
        exact hminus
  | argb32 =>
    obtain ⟨hlow, hhigh⟩ := hn
    obtain ⟨digits, hlength, hvalue⟩ :=
      exists_length_eq (b := 16) (k := 8) (n := n.toNat) (by decide) (by omega)
    have hcanonical : Canonical .argb32 ("argb32:" ++ spell digits) (value digits) :=
      .colour rfl hlength
    rw [hvalue, Int.toNat_of_nonneg hlow] at hcanonical
    exact ⟨_, hcanonical⟩

theorem canonical_canonical (hn : type.InRange n) :
    type.Canonical (type.scalar.canonical (.int n)) n := by
  obtain ⟨t, ht⟩ := exists_canonical hn
  exact eq_canonical ht ▸ ht

/-- What is read from a text of an integer type is an integer in its range. -/
theorem exists_int_of_conforms {v : Value} (hv : type.scalar.Conforms v) :
    ∃ n, v = .int n ∧ type.InRange n := by
  cases v with
  | int n => exact ⟨n, rfl, inRange_iff_conforms.2 hv⟩
  | _ => cases type <;> exact hv.elim

theorem read_canonical_int (hn : type.InRange n) :
    Scalar.read type.scalar (type.scalar.canonical (.int n)) = .ok (.int n) :=
  Scalar.read_canonical type.distinctNames_scalar (inRange_iff_conforms.1 hn)

/-- **Integer texts.** A text with few enough digits is read as the integer that it spells, if that
is in the range of the type, and is refused otherwise. An integer is written if it is in the range,
and its text is read as the integer. So every text that is read is rewritten as the one canonical
text of its integer, which is rewritten as itself. -/
theorem integers_exact (type : IntegerType) (s : Store) :
    (∀ (h : Heap) (id : ObjectId) (t : Text), h.string? id = some t →
      t.countP Numeral.isDigit ≤ digitLimit → type.Reads t (Scalar.decode type.scalar h id)) ∧
    (∀ n, ((∃ c, Scalar.write type.scalar s (.int n) = .ok c) ↔ type.InRange n) ∧
      ∀ c, Scalar.write type.scalar s (.int n) = .ok c →
        Scalar.read type.scalar c = .ok (.int n)) ∧
    ∀ t v, Scalar.read type.scalar t = .ok v → ∃ n c, v = .int n ∧
      Scalar.recode type.scalar s t = .ok c ∧ type.Canonical c n ∧
      (∀ c', type.Canonical c' n → c' = c) ∧ Scalar.recode type.scalar s c = .ok c := by
  have hwrite (n : Int) (hn : type.InRange n) : Scalar.write type.scalar s (.int n) =
      .ok (type.scalar.canonical (.int n)) :=
    Scalar.write_eq_canonical (inRange_iff_conforms.1 hn) s
  refine ⟨fun h id t => reads_decode, fun n => ⟨exists_write_iff s, fun c hc => ?_⟩,
    fun t v hread => ?_⟩
  · have hn := (exists_write_iff s).1 ⟨c, hc⟩
    rw [hwrite n hn] at hc
    cases hc
    exact read_canonical_int hn
  · obtain ⟨n, rfl, hn⟩ := exists_int_of_conforms (Scalar.conforms_of_read hread)
    refine ⟨n, _, rfl, ?_, canonical_canonical hn, fun c' => eq_canonical, ?_⟩
    · rw [Scalar.recode, hread]
      exact hwrite n hn
    · rw [Scalar.recode, read_canonical_int hn]
      exact hwrite n hn

/-- Blanks are read past, and so are zeros in front. They are gone when the integer is written. -/
theorem integers_exact_leading_zeros : ∃ (h : Heap) (t : Text), h.string? 0 = some t ∧
    t.countP Numeral.isDigit ≤ digitLimit ∧ Scalar.decode .int64 h 0 = .ok (.int (-42)) ∧
      Scalar.recode .int64 .empty t = .ok "-42" := by
  let t : Text := "\t-0042 "
  let h : Heap := ⟨#[⟨1, .string t⟩], 1⟩
  have hstring : h.string? 0 = some t := rfl
  have hfew : t.countP Numeral.isDigit ≤ digitLimit := by decide
  have hspells : Spells .int64 t (-42) := by
    have hdecimal : Spells .int64 ([.char '\t'] ++ (Sign.minus.text ++ spell [0, 0, 4, 2]) ++
        [.char ' ']) (Sign.minus.apply (value [0, 0, 4, 2])) :=
      .decimal (by decide) (by decide) (by decide) (by decide) (forall₂_spell _)
    exact hdecimal
  have hcanonical : Canonical .int64 "-42" (-42) := by
    have hdecimal : Canonical .int64 (Sign.minus.text ++ spell [4, 2])
        (Sign.minus.apply (value [4, 2])) :=
      .decimal (by decide) (by decide) (by decide) (by decide)
        (show (4 : Fin 10).val ≠ 0 by decide)
    exact hdecimal
  obtain ⟨hreads, -, hrecode⟩ := integers_exact .int64 .empty
  have hin : InRange .int64 (-42) := ⟨by decide, by decide⟩
  have hdecode := ((hreads h 0 t hstring hfew).ok_iff (.int (-42))).2 ⟨-42, rfl, hspells, hin⟩
  obtain ⟨n, c, hn, hc, -, hunique, -⟩ :=
    hrecode t _ ((Scalar.decode_of_string? hstring).symm.trans hdecode)
  cases hn
  exact ⟨h, t, hstring, hfew, hdecode, hunique "-42" hcanonical ▸ hc⟩

end IntegerType

end PropertyList

import PropertyList.Proofs.Scalar.Canonical

/-!
# Texts that are refused

A string that stands for no value of its type is refused, which is a fault of the data. Numbers are
the exception. Their syntax is looked at before they are converted, and some texts of the right
syntax are not converted: those that *stumble* are integers with more digits than the limit, and
names of infinity with an unusual i. They end in a failure of the conversion, which is no fault of
the data.

## Main definitions

* `Failure.of?`, `Failure.Due`
* `ScalarType.Stumbles`, `ScalarType.StumblesAt`

## Main results

* `Scalar.due_read`, `Scalar.due_decode`
-/

namespace PropertyList

namespace Failure

/-- The failure that there is in the place of a result. -/
def of? {α : Type} : Except Failure α → Option Failure
  | .ok _ => none
  | .error failure => some failure

/-- Whether a failure, or none, is what is due for some data: none if the data is accepted, a number
that is not converted if it stumbles, and otherwise a fault of the data, blamed on a key that may be
blamed. -/
def Due (accepted stumbles : Prop) (blamed : Option Text → Prop) : Option Failure → Prop
  | none => accepted ∧ ¬ stumbles
  | some (decode _ key) => ¬ accepted ∧ ¬ stumbles ∧ blamed key
  | some (number _) => ¬ accepted ∧ stumbles
  | some _ => False

variable {α β : Type} {accepted stumbles : Prop} {blamed : Option Text → Prop}

theorem due_of_ok {x : Except Failure α} {a : α} (hx : x = .ok a) (hstumbles : ¬ stumbles) :
    Due (∃ a, x = .ok a) stumbles blamed (of? x) := by
  subst hx
  exact ⟨⟨a, rfl⟩, hstumbles⟩

theorem due_of_decode {x : Except Failure α} {fault : DecodeFault} {key : Option Text}
    (hx : x = .error (.decode fault key)) (hstumbles : ¬ stumbles) (hkey : blamed key) :
    Due (∃ a, x = .ok a) stumbles blamed (of? x) := by
  subst hx
  exact ⟨nofun, hstumbles, hkey⟩

theorem due_of_number {x : Except Failure α} {fault : NumberFault}
    (hx : x = .error (.number fault)) (hstumbles : stumbles) :
    Due (∃ a, x = .ok a) stumbles blamed (of? x) := by
  subst hx
  exact ⟨nofun, hstumbles⟩

/-- What is made of a result has no part in what is due. -/
theorem Due.map {x : Except Failure α} (hx : Due (∃ a, x = .ok a) stumbles blamed (of? x))
    (f : α → β) : Due (∃ b, f <$> x = .ok b) stumbles blamed (of? (f <$> x)) := by
  cases x with
  | ok a => exact due_of_ok rfl hx.2
  | error failure =>
    cases failure with
    | decode fault key => exact due_of_decode rfl hx.2.1 hx.2.2
    | number fault => exact due_of_number rfl hx.2
    | _ => exact hx.elim

end Failure

open Failure Numeral

/-- Whether a text has the syntax of a type and is not converted all the same: an integer with too
many digits, or a name of infinity in which a letter that is no i counts as one. -/
def ScalarType.Stumbles : ScalarType → Text → Prop
  | uint64, t => isDigits (Scalar.strip t) = true ∧ digitLimit < (Scalar.strip t).length
  | int64, t => ∃ negative digits, splitInteger? (Scalar.strip t) = some (negative, digits) ∧
      digitLimit < digits.length
  | double, t =>
    ((splitSign (Scalar.strip t)).2.map Scalar.foldLetter = Text.ofString "inf" ∨
      (splitSign (Scalar.strip t)).2.map Scalar.foldLetter = Text.ofString "infinity") ∧
    ∃ p ∈ (splitSign (Scalar.strip t)).2, p = .char '\u0130' ∨ p = .char '\u0131'
  | _, _ => False

/-- Whether an object is a string that stumbles. -/
def ScalarType.StumblesAt (type : ScalarType) (h : Heap) (id : ObjectId) : Prop :=
  ∃ t, h.string? id = some t ∧ type.Stumbles t

namespace Scalar

variable {t : Text} {lower lower' : Point → Point}

/-! ### Integers -/

theorem due_readInteger (type : Text) (low high : Int) (numeral? : Text → Option (Bool × Text))
    (t : Text) :
    Due (∃ n, readInteger type low high numeral? t = .ok n)
      (∃ negative digits, numeral? (strip t) = some (negative, digits) ∧ digitLimit < digits.length)
      (· = none) (of? (readInteger type low high numeral? t)) := by
  cases hnumeral : numeral? (strip t) with
  | none =>
    exact due_of_decode (by simp only [readInteger, hnumeral]; rfl) (by rintro ⟨_, _, ⟨⟩, _⟩) rfl
  | some numeral =>
    obtain ⟨negative, digits⟩ := numeral
    have hread : readInteger type low high numeral? t = (do
        let n ← convert negative digits
        if low ≤ n ∧ n ≤ high then return n else throw (.decode (.outOfRange type t) none)) := by
      simp only [readInteger, hnumeral]
    by_cases hdigits : digitLimit < digits.length
    · rw [convert, if_pos hdigits] at hread
      exact due_of_number hread ⟨negative, digits, rfl, hdigits⟩
    · have hfew : ¬ ∃ negative' digits', some (negative, digits) = some (negative', digits') ∧
          digitLimit < digits'.length := by
        rintro ⟨_, _, ⟨⟩, hmany⟩
        exact hdigits hmany
      rw [convert, if_neg hdigits] at hread
      by_cases hrange : low ≤ integerOf negative digits ∧ integerOf negative digits ≤ high
      · exact due_of_ok (hread.trans (if_pos hrange)) hfew
      · exact due_of_decode (hread.trans (if_neg hrange)) hfew rfl

/-! ### Real numbers -/

theorem foldLetter_of_ne {p : Point} (hp : ¬ (p = .char '\u0130' ∨ p = .char '\u0131')) :
    foldLetter p = lowerLetter p :=
  if_neg hp

/-- Letters that are made the same make the same numbers. -/
theorem readRealBy?_congr (h : ∀ p ∈ (splitSign t).2, lower p = lower' p) :
    readRealBy? lower t = readRealBy? lower' t := by
  simp only [readRealBy?, List.map_congr_left h]

/-- A text that spells no name is a decimal number or none. -/
theorem readRealBy?_of_ne (hinf : (splitSign t).2.map lower ≠ "inf")
    (hinfinity : (splitSign t).2.map lower ≠ "infinity")
    (hnan : (splitSign t).2.map lower ≠ "nan") :
    readRealBy? lower t = readDecimal? (splitSign t).1 (splitSign t).2 := by
  simp only [readRealBy?]
  rw [if_neg (not_or.2 ⟨hinf, hinfinity⟩), if_neg hnan]

/-- Decimal numbers start with a digit or a point. -/
theorem readDecimal?_cons_eq_none {p : Point} (hdigit : isDigit p = false) (hpoint : p ≠ .char '.')
    (negative : Bool) (t : Text) : readDecimal? negative (p :: t) = none := by
  have htake : (p :: t).takeWhile isDigit = [] := List.takeWhile_cons_of_neg (by simp [hdigit])
  have hdrop : (p :: t).dropWhile isDigit = p :: t := List.dropWhile_cons_of_neg (by simp [hdigit])
  simp only [readDecimal?, htake, hdrop]
  split
  · rename_i hcons
    exact absurd (List.cons.inj hcons).1 hpoint
  · rfl

theorem foldLetter_of_isDigit {p : Point} (hp : isDigit p = true) : foldLetter p = p := by
  rw [foldLetter_of_ne, lowerLetter_of_isDigit hp]
  rintro (rfl | rfl) <;> exact absurd hp (by decide)

/-- No letter is made one with an unusual i. -/
theorem map_lowerLetter_ne {u name : Text} {p : Point} (hp : p ∈ u)
    (hunusual : p = .char '\u0130' ∨ p = .char '\u0131')
    (hname : Point.char '\u0130' ∉ name ∧ Point.char '\u0131' ∉ name) :
    u.map lowerLetter ≠ name := by
  rintro rfl
  rcases hunusual with rfl | rfl
  · exact hname.1 (List.mem_map.2 ⟨_, hp, rfl⟩)
  · exact hname.2 (List.mem_map.2 ⟨_, hp, rfl⟩)

/-- A text that has an unusual i spells no name. -/
theorem readReal?_of_mem {p : Point} (hp : p ∈ (splitSign t).2)
    (hunusual : p = .char '\u0130' ∨ p = .char '\u0131') :
    readReal? t = readDecimal? (splitSign t).1 (splitSign t).2 :=
  readRealBy?_of_ne (map_lowerLetter_ne hp hunusual (by decide))
    (map_lowerLetter_ne hp hunusual (by decide)) (map_lowerLetter_ne hp hunusual (by decide))

/-- A text that does not stumble is read as it is recognised. -/
theorem readReal?_of_not_stumbles (ht : ¬ ScalarType.Stumbles .double t) :
    readReal? (strip t) = readRealBy? foldLetter (strip t) := by
  by_cases hunusual : ∃ p ∈ (splitSign (strip t)).2, p = .char '\u0130' ∨ p = .char '\u0131'
  · have hname := not_or.1 fun h => ht ⟨h, hunusual⟩
    obtain ⟨p, hp, hi⟩ := hunusual
    rw [readReal?_of_mem hp hi, readRealBy?_of_ne hname.1 hname.2]
    -- An unusual i is folded to an i, and the name that is left has none.
    intro hnan
    have hmem : foldLetter p ∈ Text.ofString "nan" := hnan ▸ List.mem_map_of_mem hp
    rw [foldLetter, if_pos hi] at hmem
    exact absurd hmem (by decide)
  · exact readRealBy?_congr fun p hp =>
      (foldLetter_of_ne fun hi => hunusual ⟨p, hp, hi⟩).symm

/-- A text that stumbles is recognised and not read. -/
theorem readReal?_of_stumbles (ht : ScalarType.Stumbles .double t) :
    (∃ spelled, readRealBy? foldLetter (strip t) = some spelled) ∧ readReal? (strip t) = none := by
  obtain ⟨hname, p, hp, hi⟩ := ht
  refine ⟨⟨.infinity (splitSign (strip t)).1, if_pos hname⟩, ?_⟩
  -- What is recognised starts with an i, and decimal numbers do not.
  rw [readReal?_of_mem hp hi]
  obtain ⟨q, u, hcons⟩ := List.exists_cons_of_ne_nil (List.ne_nil_of_mem hp)
  have hfirst : foldLetter q = .char 'i' := by
    rw [hcons, List.map_cons] at hname
    rcases hname with h | h <;> exact (List.cons.inj h).1
  rw [hcons]
  refine readDecimal?_cons_eq_none ?_ ?_ _ u
  · rw [Bool.eq_false_iff]
    intro hdigit
    rw [foldLetter_of_isDigit hdigit] at hfirst
    rw [hfirst] at hdigit
    exact absurd hdigit (by decide)
  · rintro rfl
    exact absurd hfirst (by decide)

theorem due_readDouble (t : Text) :
    Due (∃ x, readDouble t = .ok x) (ScalarType.Stumbles .double t) (· = none)
      (of? (readDouble t)) := by
  by_cases ht : ScalarType.Stumbles .double t
  · obtain ⟨⟨spelled, hrecognised⟩, hread⟩ := readReal?_of_stumbles ht
    exact due_of_number (by simp only [readDouble, hrecognised, hread]; rfl) ht
  · have hread := readReal?_of_not_stumbles ht
    cases hrecognised : readRealBy? foldLetter (strip t) with
    | none => exact due_of_decode (by simp only [readDouble, hrecognised]; rfl) ht rfl
    | some spelled =>
      rw [hrecognised] at hread
      exact due_of_ok (by simp only [readDouble, hrecognised, hread]; rfl) ht

/-! ### All types -/

theorem due_value (table : EnumTable) (name : Text) :
    Due (∃ n, table.value (some name) = .ok n) False (· = none)
      (of? (table.value (some name))) := by
  cases hlookup : table.lookup name with
  | none => exact due_of_decode (by rw [EnumTable.value, Option.bind_some, hlookup]) not_false rfl
  | some n => exact due_of_ok (value_eq_ok_iff.2 hlookup) not_false

/-- A text is read as a value of a type, is refused as a fault of the data, or stumbles. -/
theorem due_read (type : ScalarType) (t : Text) :
    Due (∃ v, read type t = .ok v) (type.Stumbles t) (· = none) (of? (read type t)) := by
  cases type with
  | uint64 =>
    have hiff : (∃ negative digits, (if isDigits (strip t) then some (false, strip t) else none) =
        some (negative, digits) ∧ digitLimit < digits.length) ↔ ScalarType.Stumbles .uint64 t := by
      by_cases hdigits : isDigits (strip t) = true <;> simp [ScalarType.Stumbles, hdigits]
    have hinteger := due_readInteger "uint64" 0 (unsignedMax 64)
      (fun t => if isDigits t then some (false, t) else none) t
    rw [hiff] at hinteger
    exact hinteger.map Value.int
  | int64 => exact (due_readInteger _ _ _ _ t).map Value.int
  | double => exact (due_readDouble t).map Value.double
  | argb32 =>
    refine Due.map ?_ Value.int
    by_cases hdigits : colourTag.isPrefixOf t = true ∧ (t.drop colourTag.length).length = 8 ∧
        (t.drop colourTag.length).all fun p => (hexDigit? p).isSome
    · exact due_of_ok (if_pos hdigits) not_false
    · exact due_of_decode (if_neg hdigits) not_false rfl
  | bool =>
    have hmap : readBool t = (fun n : Int => n != 0) <$> boolTable.value (some t) := by
      rw [readBool]
      cases boolTable.value (some t) <;> rfl
    refine Due.map ?_ Value.bool
    rw [hmap]
    exact (due_value boolTable t).map _
  | enum table => exact (due_value table t).map Value.int
  | string => exact due_of_ok rfl not_false
  | charbuf length =>
    by_cases hlength : length < t.encode.length + 1
    · exact due_of_decode (by simp only [read, checkLength, if_pos hlength]; rfl) not_false rfl
    · exact due_of_ok (by simp only [read, checkLength, if_neg hlength]; rfl) not_false

/-- An object stands for a value of a type, is refused as a fault of the data, or stumbles. -/
theorem due_decode (type : ScalarType) (h : Heap) (id : ObjectId) :
    Due (∃ v, decode type h id = .ok v) (type.StumblesAt h id) (· = none)
      (of? (decode type h id)) := by
  cases hstring : h.string? id with
  | none =>
    refine due_of_decode (by rw [decode, stringValue, hstring]; rfl) ?_ rfl
    rintro ⟨t, ht, -⟩
    rw [hstring] at ht
    cases ht
  | some t =>
    have hiff : type.StumblesAt h id ↔ type.Stumbles t := by
      simp only [ScalarType.StumblesAt, hstring, Option.some.injEq, exists_eq_left']
    rw [decode_of_string? hstring, hiff]
    exact due_read type t

end Scalar

end PropertyList

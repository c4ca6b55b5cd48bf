import PropertyList.Proofs.Dict.Order
import PropertyList.Proofs.Scalar.Reading
import PropertyList.Scalar.Writing

/-!
# Canonical texts

A value *conforms* to a scalar type if it is one of the values that texts of the type stand for.
Each of them has one canonical text, the one that it is written as, and reading that text gives the
value back. Other values may be written as well, for what they are converted to. What is written can
always be read, except that the length of a `charbuf` is not looked at when it is written.

## Main definitions

* `ScalarType.Conforms`, `ScalarType.canonical`
* `ScalarType.DistinctNames`, `ScalarType.Fits`

## Main results

* `Scalar.conforms_of_read`, `Scalar.conforms_of_decode`
* `Scalar.write_eq_canonical`, `Scalar.read_canonical`
* `Scalar.exists_read_iff_of_write`
-/

namespace PropertyList

namespace ScalarType

/-- Whether a value is one of those that texts of a type stand for. -/
def Conforms : ScalarType → Value → Prop
  | uint64, .int n => 0 ≤ n ∧ n ≤ Scalar.unsignedMax 64
  | int64, .int n => Scalar.int64Min ≤ n ∧ n ≤ Scalar.int64Max
  | double, .double _ => True
  | argb32, .int n => 0 ≤ n ∧ n ≤ Scalar.unsignedMax 32
  | bool, .bool _ => True
  | enum table, .int n => n ∈ table.map Prod.snd
  | string, .text _ => True
  | charbuf length, .text t => t.encode.length + 1 ≤ length
  | _, _ => False

/-- The text that a value of a type is written as: a decimal numeral, a colour in lower-case digits,
the name of a truth value, the first name of a number, or the text itself. -/
def canonical : ScalarType → Value → Text
  | uint64, .int n | int64, .int n => .ofInt n
  | double, .double x => x.toText
  | argb32, .int n => Scalar.colourTag ++ .ofHex 8 n.toNat
  | bool, .bool b => if b then "True" else "False"
  | enum table, .int n => ((table.find? fun entry => entry.2 = n).map Prod.fst).getD []
  | string, .text t | charbuf _, .text t => t
  | _, _ => []

/-- Whether no name stands for two numbers. -/
def DistinctNames : ScalarType → Prop
  | enum table => (table.map Prod.fst).Nodup
  | _ => True

/-- Whether a text fits the buffer of its type, if that has one. -/
def Fits : ScalarType → Text → Prop
  | charbuf length, t => t.encode.length + 1 ≤ length
  | _, _ => True

end ScalarType

/-- What a function is applied to has been given. -/
theorem exists_of_map_eq_ok {ε α β : Type} {f : α → β} {x : Except ε α} {b : β}
    (h : f <$> x = .ok b) : ∃ a, x = .ok a ∧ f a = b := by
  cases x with
  | error e => cases h
  | ok a => exact ⟨a, rfl, Except.ok.inj h⟩

namespace Double

private theorem le_natCast_div {m k : Nat} {a : Int} (hk : 0 < k) (ha : a * k ≤ m) :
    a ≤ (m / k : Nat) := by
  rw [Int.natCast_ediv]
  exact Int.le_ediv_of_mul_le (Int.ofNat_lt.2 hk) ha

private theorem natCast_div_le {m k : Nat} {a : Int} (hk : 0 < k) (ha : m ≤ a * k) :
    ((m / k : Nat) : Int) ≤ a := by
  rw [Int.natCast_ediv]
  exact Int.ediv_le_of_le_mul (Int.ofNat_lt.2 hk) ha

/-- A number between two integers is cut down to an integer between them. -/
theorem range_truncate {x : Double} {low high : Int} {a b : Ordering}
    (hlow : x.compareInt low = some a) (ha : a.isGE = true)
    (hhigh : x.compareInt high = some b) (hb : b.isLE = true) :
    low ≤ x.truncate ∧ x.truncate ≤ high := by
  cases x with
  | nan => cases hlow
  | signed negative rank =>
    have hpow (k : Nat) : 0 < Nat.pow 2 k := Nat.two_pow_pos k
    obtain ⟨unit, hscale, hunit⟩ : ∃ unit, Nat.pow 2 scaleBits = unit ∧ 0 < unit :=
      ⟨_, rfl, hpow scaleBits⟩
    simp only [compareInt, hscale] at hlow hhigh
    rw [truncate, hscale]
    by_cases hinfinite : rank.val = infinityRank
    · -- Infinity is below or above every integer.
      rw [if_pos hinfinite, Option.some.injEq] at hlow hhigh
      rw [← hhigh] at hb
      rw [← hlow] at ha
      cases negative
      · cases hb
      · cases ha
    rw [if_neg hinfinite, Option.some.injEq] at hlow hhigh
    subst hlow hhigh
    split_ifs at ha hb ⊢ with hnegative
    · rw [Std.isGE_compare] at ha
      rw [Std.isLE_compare] at hb
      have hle := natCast_div_le (m := rankValue rank) (a := -low) hunit
        (by rw [Int.neg_mul]; omega)
      have hge := le_natCast_div (m := rankValue rank) (a := -high) hunit
        (by rw [Int.neg_mul]; omega)
      omega
    · rw [Std.isGE_compare] at ha
      rw [Std.isLE_compare] at hb
      exact ⟨le_natCast_div hunit ha, natCast_div_le hunit hb⟩

end Double

namespace Scalar

variable {type : ScalarType} {v : Value} {s : Store} {t : Text} {table : EnumTable} {n : Int}

/-! ### Ranges -/

theorem checkRange_int {low high : Int} (hn : low ≤ n ∧ n ≤ high) (s : Store) (type : Text) :
    checkRange s type low high (.int n) = .ok () := by
  have hlow : (compare n low).isGE = true := Std.isGE_compare.2 hn.1
  have hhigh : (compare n high).isLE = true := Std.isLE_compare.2 hn.2
  simp only [checkRange, Value.compareInt?, Value.int?, Option.map_some, Option.any_some, hlow,
    hhigh, Bool.and_self, if_true]

/-- A value that is not out of range is cut down to an integer that is not out of range either. -/
theorem range_toInteger {low high : Int} {type : Text}
    (hv : checkRange s type low high v = .ok ()) : low ≤ toInteger v ∧ toInteger v ≤ high := by
  simp only [checkRange] at hv
  split at hv
  · rename_i fromLow fromHigh hlow hhigh
    split_ifs at hv with hrange
    rw [Bool.and_eq_true, Option.any_eq_true, Option.any_eq_true] at hrange
    obtain ⟨⟨a, rfl, ha⟩, b, rfl, hb⟩ := hrange
    cases v with
    | double x => exact Double.range_truncate (Option.some.inj hlow) ha (Option.some.inj hhigh) hb
    | bool c =>
      cases hlow
      cases hhigh
      exact ⟨Std.isGE_compare.1 ha, Std.isLE_compare.1 hb⟩
    | int m =>
      cases hlow
      cases hhigh
      exact ⟨Std.isGE_compare.1 ha, Std.isLE_compare.1 hb⟩
    | _ => cases hlow
  · cases hv

/-! ### Tables of names -/

theorem value_eq_ok_iff {name : Text} :
    table.value (some name) = .ok n ↔ table.lookup name = some n := by
  rw [EnumTable.value, Option.bind_some]
  cases table.lookup name <;> simp

theorem mem_of_lookup_eq_some {α : Type} {l : List (Text × α)} {key : Text} {a : α}
    (h : l.lookup key = some a) : (key, a) ∈ l := by
  obtain ⟨l₁, l₂, rfl, -⟩ := List.lookup_eq_some_iff.1 h
  simp

theorem exists_value_eq_ok {name : Text} (hname : name ∈ table.map Prod.fst) :
    ∃ n, table.value (some name) = .ok n := by
  cases hlookup : table.lookup name with
  | none =>
    obtain ⟨entry, hentry, rfl⟩ := List.mem_map.1 hname
    exact absurd rfl (bne_iff_ne.1 (List.lookup_eq_none_iff.1 hlookup entry hentry))
  | some n => exact ⟨n, value_eq_ok_iff.2 hlookup⟩

theorem equalsInt_int (m : Int) : (Value.int n).equalsInt m = decide (m = n) := by
  have hcompare : (Value.int n).compareInt? m = some (some (compare n m)) := rfl
  rw [Value.equalsInt, hcompare, Bool.eq_iff_iff, beq_iff_eq, Option.some.injEq, Option.some.injEq,
    compare_eq_iff_eq, decide_eq_true_iff, eq_comm]

/-- A number of a table has a first entry. -/
theorem exists_find?_eq_some (hn : n ∈ table.map Prod.snd) :
    ∃ name, table.find? (fun entry => entry.2 = n) = some (name, n) := by
  obtain ⟨entry, hentry, hn⟩ := List.mem_map.1 hn
  have hsome : (table.find? fun entry => entry.2 = n).isSome :=
    List.find?_isSome.2 ⟨entry, hentry, decide_eq_true hn⟩
  obtain ⟨⟨name, m⟩, hfind⟩ := Option.isSome_iff_exists.1 hsome
  obtain rfl : m = n := by simpa using List.find?_some hfind
  exact ⟨name, hfind⟩

/-! ### Reading -/

theorem read_charbuf_eq_ok_iff {length : Int} :
    read (.charbuf length) t = .ok v ↔ t.encode.length + 1 ≤ length ∧ v = .text t := by
  rw [read, checkLength, ← Int.not_lt]
  split_ifs with hlength
  · exact iff_of_false (by rintro ⟨⟩) fun h => h.1 hlength
  · refine ⟨fun h => ⟨hlength, ?_⟩, fun h => congrArg Except.ok h.2.symm⟩
    cases h
    rfl

/-- What is read from a text is a value of its type. -/
theorem conforms_of_read (hread : read type t = .ok v) : type.Conforms v := by
  cases type with
  | uint64 | int64 =>
    obtain ⟨n, hn, rfl⟩ := exists_of_map_eq_ok hread
    exact range_of_readInteger hn
  | double =>
    obtain ⟨x, -, rfl⟩ := exists_of_map_eq_ok hread
    trivial
  | argb32 =>
    obtain ⟨n, hn, rfl⟩ := exists_of_map_eq_ok hread
    exact range_of_readArgb32 hn
  | bool =>
    obtain ⟨b, -, rfl⟩ := exists_of_map_eq_ok hread
    trivial
  | enum table =>
    obtain ⟨n, hn, rfl⟩ := exists_of_map_eq_ok hread
    exact List.mem_map.2 ⟨_, mem_of_lookup_eq_some (value_eq_ok_iff.1 hn), rfl⟩
  | string =>
    cases hread
    trivial
  | charbuf length =>
    obtain ⟨hlength, rfl⟩ := read_charbuf_eq_ok_iff.1 hread
    exact hlength

/-- What an object stands for is a value of its type. -/
theorem conforms_of_decode {h : Heap} {id : ObjectId} (hdecode : decode type h id = .ok v) :
    type.Conforms v := by
  rw [decode] at hdecode
  cases hstring : stringValue h id with
  | error failure =>
    rw [hstring] at hdecode
    cases hdecode
  | ok t =>
    rw [hstring] at hdecode
    exact conforms_of_read hdecode

/-- A string stands for what its text is read as. -/
theorem decode_of_string? {h : Heap} {id : ObjectId} (hstring : h.string? id = some t) :
    decode type h id = read type t := by
  rw [decode, stringValue, hstring]
  rfl

/-- **A value is read back from its canonical text.** -/
theorem read_canonical (hnames : type.DistinctNames) (hv : type.Conforms v) :
    read type (type.canonical v) = .ok v := by
  cases type with
  | uint64 =>
    cases v with
    | int n => exact congrArg (Except.map Value.int) (readUint64_ofInt hv)
    | _ => exact hv.elim
  | int64 =>
    cases v with
    | int n => exact congrArg (Except.map Value.int) (readInt64_ofInt hv)
    | _ => exact hv.elim
  | double =>
    cases v with
    | double x => exact congrArg (Except.map Value.double) (readDouble_toText x)
    | _ => exact hv.elim
  | argb32 =>
    cases v with
    | int n => exact congrArg (Except.map Value.int) (readArgb32_ofHex hv)
    | _ => exact hv.elim
  | bool =>
    cases v with
    | bool b => cases b <;> rfl
    | _ => exact hv.elim
  | enum table =>
    cases v with
    | int n =>
      obtain ⟨name, hfind⟩ := exists_find?_eq_some hv
      -- No other entry has the name, so the first entry with the name is this one.
      have hlookup : table.lookup name = some n :=
        Dict.lookup_of_mem hnames (List.mem_of_find?_eq_some hfind)
      rw [ScalarType.canonical, hfind]
      exact congrArg (Except.map Value.int) (value_eq_ok_iff.2 hlookup)
    | _ => exact hv.elim
  | string =>
    cases v with
    | text t => rfl
    | _ => exact hv.elim
  | charbuf length =>
    cases v with
    | text t => exact read_charbuf_eq_ok_iff.2 ⟨hv, rfl⟩
    | _ => exact hv.elim

/-! ### Writing -/

/-- **A value of a type is written as its canonical text.** -/
theorem write_eq_canonical (hv : type.Conforms v) (s : Store) :
    write type s v = .ok (type.canonical v) := by
  cases type with
  | uint64 | int64 =>
    cases v with
    | int n =>
      simp only [write, writeInteger, checkRange_int hv]
      rfl
    | _ => exact hv.elim
  | double =>
    cases v with
    | double x => rfl
    | _ => exact hv.elim
  | argb32 =>
    cases v with
    | int n =>
      simp only [write, writeArgb32, checkRange_int hv]
      rfl
    | _ => exact hv.elim
  | bool =>
    cases v with
    | bool b => cases b <;> rfl
    | _ => exact hv.elim
  | enum table =>
    cases v with
    | int n =>
      obtain ⟨name, hfind⟩ := exists_find?_eq_some hv
      have hname : table.find? (fun entry => (Value.int n).equalsInt entry.2) = some (name, n) := by
        simpa only [equalsInt_int] using hfind
      rw [write, EnumTable.name, hname, ScalarType.canonical, hfind]
      rfl
    | _ => exact hv.elim
  | string | charbuf =>
    cases v with
    | text t => rfl
    | _ => exact hv.elim

theorem range_of_writeInteger {name : Text} {low high : Int}
    (hwrite : writeInteger s name low high v = .ok t) :
    (low ≤ toInteger v ∧ toInteger v ≤ high) ∧ t = .ofInt (toInteger v) := by
  cases hrange : checkRange s name low high v with
  | error failure => simp only [writeInteger, hrange, bind, Except.bind, reduceCtorEq] at hwrite
  | ok _ =>
    simp only [writeInteger, hrange, bind, Except.bind] at hwrite
    cases hwrite
    exact ⟨range_toInteger hrange, rfl⟩

theorem range_of_writeArgb32 (hwrite : writeArgb32 s v = .ok t) :
    (0 ≤ toInteger v ∧ toInteger v ≤ unsignedMax 32) ∧
      t = colourTag ++ .ofHex 8 (toInteger v).toNat := by
  cases hrange : checkRange s "argb32" 0 (unsignedMax 32) v with
  | error failure => simp only [writeArgb32, hrange, bind, Except.bind, reduceCtorEq] at hwrite
  | ok _ =>
    have hn := range_toInteger hrange
    simp only [writeArgb32, hrange, bind, Except.bind] at hwrite
    cases v with
    | bool | int =>
      cases hwrite
      exact ⟨hn, rfl⟩
    | _ => cases hwrite

theorem exists_of_name {name : Text} (hname : table.name s v = .ok name) :
    name ∈ table.map Prod.fst := by
  rw [EnumTable.name] at hname
  split at hname
  · rename_i entry hfind
    cases hname
    exact List.mem_map_of_mem (List.mem_of_find?_eq_some hfind)
  · cases hname

/-- **What is written can be read**, whatever value it has been written for, unless it is a text
that does not fit its buffer. -/
theorem exists_read_iff_of_write (hwrite : write type s v = .ok t) :
    (∃ w, read type t = .ok w) ↔ type.Fits t := by
  cases type with
  | uint64 =>
    obtain ⟨hn, rfl⟩ := range_of_writeInteger hwrite
    exact iff_of_true ⟨_, read_canonical (v := .int (toInteger v)) trivial hn⟩ trivial
  | int64 =>
    obtain ⟨hn, rfl⟩ := range_of_writeInteger hwrite
    exact iff_of_true ⟨_, read_canonical (v := .int (toInteger v)) trivial hn⟩ trivial
  | double =>
    obtain ⟨x, -, rfl⟩ := exists_of_map_eq_ok hwrite
    exact iff_of_true ⟨_, read_canonical (v := .double x) trivial trivial⟩ trivial
  | argb32 =>
    obtain ⟨hn, rfl⟩ := range_of_writeArgb32 hwrite
    exact iff_of_true ⟨_, read_canonical (v := .int (toInteger v)) trivial hn⟩ trivial
  | bool =>
    obtain ⟨n, hn⟩ := exists_value_eq_ok (exists_of_name hwrite)
    refine iff_of_true ⟨.bool (n != 0), ?_⟩ trivial
    simp only [read, readBool, hn]
    rfl
  | enum table =>
    obtain ⟨n, hn⟩ := exists_value_eq_ok (exists_of_name hwrite)
    exact iff_of_true ⟨_, congrArg (Except.map Value.int) hn⟩ trivial
  | string => exact iff_of_true ⟨_, rfl⟩ trivial
  | charbuf length =>
    exact ⟨fun ⟨w, hw⟩ => (read_charbuf_eq_ok_iff.1 hw).1,
      fun hfits => ⟨.text t, read_charbuf_eq_ok_iff.2 ⟨hfits, rfl⟩⟩⟩

end Scalar

end PropertyList

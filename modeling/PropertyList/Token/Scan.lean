import PropertyList.Token.Basic

/-!
# Cutting a text into tokens

A text is cut from left to right into *blanks* and *lexemes*. A blank is a space, a tab, a
carriage return, a line feed, a comment from a slash and an asterisk to the first asterisk and
slash after them, or a comment from two slashes through the end of the line. A lexeme is a
punctuation mark, a word as long as it can be, or a quoted string, in which a backslash takes the
next point as it stands.

`front` makes one cut and `Text.scan` makes them all. A text that cannot be cut to its end has
tokens up to the place where scanning fails.

## Main definitions

* `Front`, `front`
* `LexError`, `Scan`, `Text.scan`

## Main results

* `taken_append_rest_of_front`: a cut neither skips nor repeats anything
-/

namespace PropertyList

/-- Whether a point separates tokens and does nothing else. -/
def Point.isSpace (p : Point) : Bool :=
  p ∈ [.char ' ', .char '\t', .char '\r', .char '\n']

/-- Whether a point may stand in a word. -/
def Point.isWord : Point → Bool
  | .char c => c.isAlphanum || c == '_' || c == '.' || c == '$'
  | .stray _ => false

/-- Splits the text after the opening of a comment behind the first asterisk and slash. -/
def splitComment : Text → Option (Text × Text)
  | [] => none
  | .char '*' :: .char '/' :: rest => some ([.char '*', .char '/'], rest)
  | p :: rest => (splitComment rest).map fun cut => (p :: cut.1, cut.2)

/-- Splits a text behind its first line feed. -/
def splitLine : Text → Text × Text
  | [] => ([], [])
  | p :: rest =>
    if p = .char '\n' then ([p], rest)
    else (p :: (splitLine rest).1, (splitLine rest).2)

/-- Splits the text after a quotation mark behind the mark that closes the string. The first
component is the string: a backslash is left out and the point after it is kept as it stands. -/
def splitQuoted : Text → Option (Text × Text × Text)
  | [] => none
  | .char '"' :: rest => some ([], [.char '"'], rest)
  | .char '\\' :: p :: rest =>
    (splitQuoted rest).map fun cut => (p :: cut.1, .char '\\' :: p :: cut.2.1, cut.2.2)
  | p :: rest =>
    if p = .char '\\' then none
    else (splitQuoted rest).map fun cut => (p :: cut.1, p :: cut.2.1, cut.2.2)

/-- Why a text cannot be cut. -/
inductive LexFault where
  | unterminatedComment
  | unterminatedQuote
  /-- A point that starts neither a blank nor a lexeme. -/
  | unexpected (p : Point)
  deriving DecidableEq, Repr

/-- A fault and the position of the opening or the point at fault. -/
structure LexError where
  fault : LexFault
  position : Position
  deriving DecidableEq, Repr

/-- The wording of a fault. -/
def LexFault.message : LexFault → Text
  | unterminatedComment => "unterminated comment"
  | unterminatedQuote => "unterminated quoted string"
  | unexpected p => "unexpected character " ++ Text.display [p]

/-- The message of a lexical error. -/
def LexError.message (e : LexError) : Text :=
  e.position.message e.fault.message

/-- What a text starts with. -/
inductive Front where
  /-- A blank `taken`, followed by `rest`. -/
  | blank (taken rest : Text)
  /-- A token written as `taken`, followed by `rest`. -/
  | lexeme (token : Token) (taken rest : Text)
  /-- Neither. -/
  | fault (f : LexFault)
  /-- Nothing: the text is empty. -/
  | ending
  deriving DecidableEq, Repr

/-- The first cut of a text. -/
def front : Text → Front
  | [] => .ending
  | .char '/' :: .char '*' :: rest =>
    match splitComment rest with
    | some (inside, after) => .blank (.char '/' :: .char '*' :: inside) after
    | none => .fault .unterminatedComment
  | .char '/' :: .char '/' :: rest =>
    .blank (.char '/' :: .char '/' :: (splitLine rest).1) (splitLine rest).2
  | .char '"' :: rest =>
    match splitQuoted rest with
    | some (value, inside, after) => .lexeme (.quoted value) (.char '"' :: inside) after
    | none => .fault .unterminatedQuote
  | p :: rest =>
    if p.isSpace then .blank [p] rest
    else
      match Mark.ofPoint? p with
      | some m => .lexeme (.mark m) [p] rest
      | none =>
        if p.isWord then
          .lexeme (.word (p :: rest.takeWhile Point.isWord)) (p :: rest.takeWhile Point.isWord)
            (rest.dropWhile Point.isWord)
        else .fault (.unexpected p)

/-- The stretch that a cut takes and the text after it. -/
def Front.split? : Front → Option (Text × Text)
  | blank taken rest | lexeme _ taken rest => some (taken, rest)
  | fault _ | ending => none

theorem inside_append_after_of_splitComment {t inside after : Text}
    (h : splitComment t = some (inside, after)) : inside ++ after = t := by
  fun_induction splitComment t generalizing inside after with
  | case1 => simp at h
  | case2 rest =>
    obtain ⟨rfl, rfl⟩ := Prod.mk.inj (Option.some.inj h)
    rfl
  | case3 p rest _ ih =>
    obtain ⟨cut, hs, he⟩ := Option.map_eq_some_iff.1 h
    obtain ⟨rfl, rfl⟩ := Prod.mk.inj he
    simp [ih hs]

theorem splitLine_append (t : Text) : (splitLine t).1 ++ (splitLine t).2 = t := by
  fun_induction splitLine t <;> simp_all

theorem inside_append_after_of_splitQuoted {t value inside after : Text}
    (h : splitQuoted t = some (value, inside, after)) : inside ++ after = t := by
  fun_induction splitQuoted t generalizing value inside after with
  | case1 => simp at h
  | case2 rest =>
    simp only [Option.some.injEq, Prod.mk.injEq] at h
    obtain ⟨rfl, rfl, rfl⟩ := h
    rfl
  | case3 p rest ih =>
    obtain ⟨cut, hs, he⟩ := Option.map_eq_some_iff.1 h
    simp only [Prod.mk.injEq] at he
    obtain ⟨rfl, rfl, rfl⟩ := he
    simp [ih hs]
  | case4 => simp at h
  | case5 p rest _ _ _ ih =>
    obtain ⟨cut, hs, he⟩ := Option.map_eq_some_iff.1 h
    simp only [Prod.mk.injEq] at he
    obtain ⟨rfl, rfl, rfl⟩ := he
    simp [ih hs]

/-- A cut takes a non-empty stretch, and what it takes and leaves make up the text. -/
theorem taken_append_rest_of_front {t taken rest : Text}
    (h : (front t).split? = some (taken, rest)) : taken ≠ [] ∧ taken ++ rest = t := by
  unfold front at h
  split at h
  · simp [Front.split?] at h
  · split at h
    · simp only [Front.split?, Option.some.injEq, Prod.mk.injEq] at h
      obtain ⟨rfl, rfl⟩ := h
      simp [inside_append_after_of_splitComment ‹_›]
    · simp [Front.split?] at h
  · simp only [Front.split?, Option.some.injEq, Prod.mk.injEq] at h
    obtain ⟨rfl, rfl⟩ := h
    simp [splitLine_append]
  · split at h
    · simp only [Front.split?, Option.some.injEq, Prod.mk.injEq] at h
      obtain ⟨rfl, rfl⟩ := h
      simp [inside_append_after_of_splitQuoted ‹_›]
    · simp [Front.split?] at h
  · split at h <;> try split at h <;> try split at h
    all_goals
      simp only [Front.split?, Option.some.injEq, Prod.mk.injEq, reduceCtorEq] at h
      try
        obtain ⟨rfl, rfl⟩ := h
        simp [List.takeWhile_append_dropWhile]

theorem length_rest_lt_of_front {t taken rest : Text}
    (h : (front t).split? = some (taken, rest)) : rest.length < t.length := by
  obtain ⟨hne, rfl⟩ := taken_append_rest_of_front h
  simp [List.length_pos_iff.2 hne]

/-- The tokens of a text. The last one is the ending unless scanning failed. -/
structure Scan where
  tokens : List PlacedToken
  error : Option LexError
  deriving DecidableEq, Repr

/-- The tokens of the text that starts at `pos`. -/
def scanFrom (pos : Position) (t : Text) : Scan :=
  match _h : front t with
  | .ending => ⟨[⟨.ending, pos⟩], none⟩
  | .fault f => ⟨[], some ⟨f, pos⟩⟩
  | .blank taken rest => scanFrom (pos.advance taken) rest
  | .lexeme token taken rest =>
    let later := scanFrom (pos.advance taken) rest
    ⟨⟨token, pos⟩ :: later.tokens, later.error⟩
  termination_by t.length
  decreasing_by all_goals exact length_rest_lt_of_front (by rw [‹front t = _›]; rfl)

/-- The tokens of a document. -/
def Text.scan (t : Text) : Scan :=
  scanFrom .start t

end PropertyList

import PropertyList.Proofs.Text.Quoting

/-!
# Cutting texts piece by piece

The tokens of a text are found from left to right, and a word is as long as it can be. A stretch
of a text therefore has tokens of its own only in front of something that ends a word. Stretches
of which each is followed by such a thing are cut one after the other.

The tokens found are a *stream*: the end of the input comes last, and only where nothing fails.

## Main definitions

* `Lexes`, the tokens of a stretch of text
* `TokenStream`, the form of a sequence of tokens

## Main results

* `Lexes.append`, `lexes_quote`
* `Lexes.scan` : the tokens of a whole text.
* `tokenStream_scan`
-/

namespace PropertyList

/-! ### Cuts -/

theorem scanFrom_of_blank {t taken rest : Text} (h : front t = .blank taken rest)
    (pos : Position) : scanFrom pos t = scanFrom (pos.advance taken) rest := by
  rw [scanFrom]
  split <;> simp_all

theorem scanFrom_of_lexeme {t taken rest : Text} {token : Token}
    (h : front t = .lexeme token taken rest) (pos : Position) :
    scanFrom pos t =
      ⟨⟨token, pos⟩ :: (scanFrom (pos.advance taken) rest).tokens,
        (scanFrom (pos.advance taken) rest).error⟩ := by
  rw [scanFrom]
  split <;> simp_all

theorem scanFrom_of_fault {t : Text} {f : LexFault} (h : front t = .fault f) (pos : Position) :
    scanFrom pos t = ⟨[], some ⟨f, pos⟩⟩ := by
  rw [scanFrom]
  split <;> simp_all

theorem scanFrom_nil (pos : Position) : scanFrom pos [] = ⟨[⟨.ending, pos⟩], none⟩ := by
  rw [scanFrom]
  split <;> simp_all [front]

theorem eq_nil_of_front {t : Text} : front t = .ending → t = [] := by
  fun_cases front t <;> first | exact fun _ => rfl | rintro ⟨⟩

theorem front_space {p : Point} (hp : p.isSpace) (t : Text) : front (p :: t) = .blank [p] t := by
  have hslash : p ≠ .char '/' := fun h => absurd (h ▸ hp) (by decide)
  have hquote : p ≠ .char '"' := fun h => absurd (h ▸ hp) (by decide)
  rw [front, if_pos hp]
  · exact fun _ h _ => hslash h
  · exact fun _ h _ => hslash h
  · exact fun h => hquote h

theorem front_mark (m : Mark) (t : Text) :
    front (.char m.char :: t) = .lexeme (.mark m) [.char m.char] t := by
  cases m <;> rfl

/-! ### Stretches -/

namespace Text

theorem endsWord_nil : EndsWord [] :=
  fun _ hp => absurd hp (by simp)

theorem endsWord_cons {p : Point} (hp : ¬ p.isWord) (t : Text) : EndsWord (p :: t) :=
  fun _ hq => Option.some.inj hq ▸ hp

theorem EndsWord.append {t u : Text} (ht : t.EndsWord) (hu : u.EndsWord) : (t ++ u).EndsWord := by
  cases t with
  | nil => exact hu
  | cons p t => exact endsWord_cons (ht p rfl) (t ++ u)

/-- Marks and spaces stand in no word. -/
theorem endsWord_mark (m : Mark) (t : Text) : EndsWord (.char m.char :: t) :=
  endsWord_cons (by cases m <;> decide) t

end Text

theorem Point.not_isWord_of_isSpace {p : Point} (hp : p.isSpace) : ¬ p.isWord := by
  simp only [isSpace, decide_eq_true_eq, List.mem_cons, List.not_mem_nil, or_false] at hp
  rcases hp with rfl | rfl | rfl | rfl <;> decide

theorem Text.endsWord_of_isSpace {t : Text} (ht : ∀ p ∈ t, p.isSpace) : t.EndsWord :=
  fun p hp => Point.not_isWord_of_isSpace (ht p (List.mem_of_mem_head? hp))

/-- Whether a stretch of text has these tokens and no others wherever no word runs on behind it. -/
def Lexes (t : Text) (tokens : List Token) : Prop :=
  ∀ (pos : Position) (rest : Text), rest.EndsWord → ∃ pos' : Position,
    (scanFrom pos (t ++ rest)).tokens.map (·.token) =
        tokens ++ (scanFrom pos' rest).tokens.map (·.token) ∧
      (scanFrom pos (t ++ rest)).error = (scanFrom pos' rest).error

theorem lexes_nil : Lexes [] [] :=
  fun pos _ _ => ⟨pos, rfl, rfl⟩

theorem Lexes.append {t u : Text} {tokens others : List Token} (ht : Lexes t tokens)
    (hu : Lexes u others) (hend : u.EndsWord) : Lexes (t ++ u) (tokens ++ others) := by
  intro pos rest hr
  obtain ⟨pos', htokens, herror⟩ := ht pos (u ++ rest) (hend.append hr)
  obtain ⟨pos'', hothers, herror'⟩ := hu pos' rest hr
  refine ⟨pos'', ?_, ?_⟩
  · rw [List.append_assoc, htokens, hothers, List.append_assoc]
  · rw [List.append_assoc, herror, herror']

theorem Lexes.space {p : Point} {t : Text} {tokens : List Token} (hp : p.isSpace)
    (ht : Lexes t tokens) : Lexes (p :: t) tokens := by
  intro pos rest hr
  rw [List.cons_append, scanFrom_of_blank (front_space hp (t ++ rest))]
  exact ht _ rest hr

theorem Lexes.spaces {s t : Text} {tokens : List Token} (hs : ∀ p ∈ s, p.isSpace)
    (ht : Lexes t tokens) : Lexes (s ++ t) tokens := by
  induction s with
  | nil => exact ht
  | cons p s ih =>
    exact (ih fun q hq => hs q (List.mem_cons_of_mem p hq)).space (hs p List.mem_cons_self)

theorem Lexes.mark (m : Mark) {t : Text} {tokens : List Token} (ht : Lexes t tokens) :
    Lexes (.char m.char :: t) (.mark m :: tokens) := by
  intro pos rest hr
  obtain ⟨pos', htokens, herror⟩ := ht (pos.advance [.char m.char]) rest hr
  rw [List.cons_append, scanFrom_of_lexeme (front_mark m (t ++ rest)), List.map_cons, htokens]
  exact ⟨pos', rfl, herror⟩

theorem lexes_mark (m : Mark) : Lexes [.char m.char] [.mark m] :=
  lexes_nil.mark m

/-- A written string is one token. -/
theorem lexes_quote (s : Text) : Lexes s.quote [.ofText s] := by
  intro pos rest hr
  rw [scanFrom_of_lexeme (front_quote_append fun _ => hr)]
  exact ⟨pos.advance s.quote, rfl, rfl⟩

theorem Token.string?_ofText (s : Text) : (ofText s).string? = some s := by
  unfold ofText
  split <;> rfl

/-- A whole text has its tokens and the end of the input behind them. -/
theorem Lexes.scan {t : Text} {tokens : List Token} (h : Lexes t tokens) :
    t.scan.tokens.map (·.token) = tokens ++ [.ending] ∧ t.scan.error = none := by
  obtain ⟨pos, htokens, herror⟩ := h .start [] Text.endsWord_nil
  rw [List.append_nil, scanFrom_nil] at htokens herror
  exact ⟨htokens, herror⟩

/-! ### Streams -/

/-- The form of the result of scanning: tokens of which none is the end of the input, and then
that end or an error. -/
inductive TokenStream : List PlacedToken → Option LexError → Prop
  | ended (position : Position) : TokenStream [⟨.ending, position⟩] none
  | failed (e : LexError) : TokenStream [] (some e)
  | cons {t : PlacedToken} {ts : List PlacedToken} {error : Option LexError}
      (ht : t.token ≠ .ending) (h : TokenStream ts error) : TokenStream (t :: ts) error

/-- A lexeme is not the end of the input. -/
theorem ne_ending_of_front {t taken rest : Text} {token : Token}
    (h : front t = .lexeme token taken rest) : token ≠ .ending := by
  rintro rfl
  unfold front at h
  split at h <;> try split at h
  all_goals try split at h
  all_goals try split at h
  all_goals simp at h

theorem tokenStream_scanFrom (pos : Position) (t : Text) :
    TokenStream (scanFrom pos t).tokens (scanFrom pos t).error := by
  fun_induction scanFrom pos t with
  | case1 => exact .ended _
  | case2 => exact .failed _
  | case3 _ _ _ _ _ ih => exact ih
  | case4 pos t token taken rest h later ih => exact .cons (ne_ending_of_front h) ih

theorem tokenStream_scan (t : Text) : TokenStream t.scan.tokens t.scan.error :=
  tokenStream_scanFrom .start t

end PropertyList

import PropertyList.Proofs.Document.Parse
import PropertyList.Proofs.Document.Reading

/-!
# The first error of a document

Three things can be wrong with a document: no document can start with its tokens up to some point,
an entry is completed of which the dictionary has the key already, or scanning fails. A document is
read from left to right and no further than to the first of these, which is what is reported, at the
token that shows it. For this it takes that a token is refused only where every continuation is
hopeless: whatever draft has been come to can be completed.

## Main definitions

* `Viable`, `Repeats`, `Sound`, what may be wrong with the first tokens of a text
* `Scan.first`, `Scan.SoundUpTo`

## Main results

* `Draft.viable_iff`, `Draft.clash?_eq_some_iff_repeats` : a draft shows what is wrong with the
  tokens read.
* `Document.exists_first_error`
* `Document.parse_reports_first_error`
-/

namespace PropertyList

/-- Whether a document can start with these tokens. -/
def Viable (ts : List Token) : Prop :=
  ∃ more root, DocumentTokens (ts ++ more) root

/-- Whether tokens end with an entry that has the same key as one before it in its dictionary. -/
def Repeats (ts : List Token) (key : Text) : Prop :=
  ∃ outer listing entries entry v,
    ts = outer ++ .mark .openBrace :: (listing ++ .mark .semicolon :: entry) ∧
      Separated (EntryTokens ValueTokens) .semicolon listing entries ∧
      EntryTokens ValueTokens entry (key, v) ∧ key ∈ entries.map (·.1)

/-- Whether nothing is wrong with tokens at the last of them. -/
def Sound (ts : List Token) : Prop :=
  Viable ts ∧ ∀ key, ¬ Repeats ts key

theorem Viable.of_append {ts us : List Token} (h : Viable (ts ++ us)) : Viable ts := by
  obtain ⟨more, root, hroot⟩ := h
  exact ⟨us ++ more, root, by rwa [← List.append_assoc]⟩

/-- The first tokens of a text. -/
def Scan.first (s : Scan) (i : Nat) : List Token :=
  (s.tokens.take i).map (·.token)

/-- Whether nothing is wrong with the first tokens of a text, at none of them. -/
def Scan.SoundUpTo (s : Scan) (i : Nat) : Prop :=
  ∀ j ≤ i, Sound (s.first j)

namespace Draft

variable {d d' : Draft} {ts : List Token}

/-! ### Viable tokens -/

private theorem exists_follows (holes : List Hole) (v : Tree) :
    ∃ more root, Follows holes v more root := by
  induction holes generalizing v with
  | nil => exact ⟨[.ending], v, Or.inl rfl, rfl⟩
  | cons hole holes ih =>
    cases hole with
    | item before =>
      obtain ⟨more, root, h⟩ := ih (.array (before ++ [v]))
      exact ⟨_, root, [], [], more, rfl, .nil, h⟩
    | entry before key =>
      obtain ⟨more, root, h⟩ := ih (.dict (before ++ [(key, v)]))
      exact ⟨_, root, [], [], more, rfl, .nil, h⟩

private theorem exists_valueFollows (holes : List Hole) :
    ∃ more root, ValueFollows holes more root := by
  obtain ⟨more, root, h⟩ := exists_follows holes (.string [])
  exact ⟨_, root, [.quoted []], _, more, rfl, .string rfl, h⟩

/-- Every draft can be completed. -/
theorem exists_completes (d : Draft) : ∃ more root, d.Completes more root := by
  cases d with
  | value holes => exact exists_valueFollows holes
  | keyOrClose entries holes =>
    obtain ⟨more, root, h⟩ := exists_follows holes (.dict (entries ++ []))
    exact ⟨_, root, [], [], more, rfl, .empty, h⟩
  | equals entries key holes =>
    obtain ⟨more, root, h⟩ := exists_valueFollows (.entry entries key :: holes)
    exact ⟨_, root, more, rfl, h⟩
  | itemOrClose items holes =>
    obtain ⟨more, root, h⟩ := exists_follows holes (.array (items ++ []))
    exact ⟨_, root, [], [], more, rfl, .empty, h⟩
  | filled holes v => exact exists_follows holes v
  | ending root => exact ⟨_, root, rfl, rfl⟩
  | done root => exact ⟨_, root, rfl, rfl⟩

theorem completes_append {more : List Token} {root : Tree} :
    d.Completes (ts ++ more) root ↔ ∃ d', d.advanceAll ts = some d' ∧ d'.Completes more root := by
  induction ts generalizing d with
  | nil => simp [advanceAll_nil]
  | cons t ts ih =>
    simp only [List.cons_append, completes_cons, ih, advanceAll_cons, Option.bind_eq_some_iff]
    constructor
    · rintro ⟨d₁, hadvance, d', hts, hmore⟩
      exact ⟨d', ⟨d₁, hadvance, hts⟩, hmore⟩
    · rintro ⟨d', ⟨d₁, hadvance, hts⟩, hmore⟩
      exact ⟨d₁, hadvance, d', hts, hmore⟩

/-- **Tokens are read as far as a document can start with them.** -/
theorem viable_iff : Viable ts ↔ ∃ d, (value []).advanceAll ts = some d := by
  unfold Viable
  simp only [← completes_value_nil, completes_append]
  constructor
  · rintro ⟨more, root, d, hts, -⟩
    exact ⟨d, hts⟩
  · rintro ⟨d, hts⟩
    obtain ⟨more, root, hmore⟩ := d.exists_completes
    exact ⟨more, root, d, hts, hmore⟩

/-! ### Repeated keys -/

theorem clash?_eq_some_iff {key : Text} : d.clash? = some key ↔
    ∃ before holes v, d = filled (.entry before key :: holes) v ∧ key ∈ before.map (·.1) := by
  constructor
  · intro h
    unfold clash? at h
    split at h
    · rename_i before key' holes v
      split_ifs at h with hkey
      obtain rfl := Option.some.inj h
      exact ⟨before, holes, v, rfl, hkey⟩
    · cases h
  · rintro ⟨before, holes, v, rfl, hkey⟩
    rw [clash?, if_pos hkey]

/-- An opening brace opens a dictionary. -/
theorem eq_keyOrClose_of_advance (h : d.advance (.mark .openBrace) = some d') :
    ∃ holes, d' = keyOrClose [] holes := by
  cases d with
  | value holes => exact ⟨holes, (Option.some.inj h).symm⟩
  | itemOrClose items holes => exact ⟨.item items :: holes, (Option.some.inj h).symm⟩
  | filled holes v => rcases holes with _ | ⟨_ | _, holes⟩ <;> cases h
  | _ => cases h

/-- A repeated key is found by the token that completes its second entry. -/
theorem exists_clash_of_repeats {key : Text} (h : Repeats ts key) (hviable : Viable ts.dropLast) :
    ∃ d, (value []).advanceAll ts = some d ∧ d.clash? = some key := by
  obtain ⟨outer, listing, entries, entry, v, rfl, hs, hentry, hkey⟩ := h
  rw [List.append_cons] at hviable ⊢
  rw [List.dropLast_append_of_ne_nil (by simp)] at hviable
  obtain ⟨d₁, hd₁⟩ := viable_iff.1 hviable.of_append
  obtain ⟨d₀, -, hopen⟩ := Option.bind_eq_some_iff.1 (advanceAll_concat _ _ _ ▸ hd₁)
  obtain ⟨holes, rfl⟩ := eq_keyOrClose_of_advance hopen
  obtain ⟨init, last, rfl, hread⟩ := advanceAll_entries hs [] holes
  refine ⟨_, ?_, clash?_eq_some_iff.2 ⟨init ++ [last], holes, v, rfl, hkey⟩⟩
  rw [advanceAll_append, hd₁, Option.bind_some, advanceAll_append, hread]
  exact advanceAll_entry hentry (init ++ [last]) holes

theorem clash?_eq_some_iff_repeats (hd : (value []).advanceAll ts = some d) {key : Text} :
    d.clash? = some key ↔ Repeats ts key := by
  constructor
  · intro hclash
    obtain ⟨before, holes, v, rfl, hkey⟩ := clash?_eq_some_iff.1 hclash
    obtain ⟨_, tokens, rfl, ⟨outer, listing, k, rfl, -, hentries, hk⟩, hv⟩ := readFrom_advanceAll hd
    cases hentries with
    | empty => exact absurd hkey List.not_mem_nil
    | @filled listing _ hs =>
      exact ⟨outer, listing, before, k :: .mark .equals :: tokens, v, by simp, hs, .intro hk hv,
        hkey⟩
  · intro hrepeats
    have hviable := viable_iff.2 ⟨d, hd⟩
    obtain ⟨more, hmore⟩ := List.dropLast_prefix ts
    rw [← hmore] at hviable
    obtain ⟨d', hd', hclash⟩ := exists_clash_of_repeats hrepeats hviable.of_append
    obtain rfl := Option.some.inj (hd.symm.trans hd')
    exact hclash

theorem sound_iff : Sound ts ↔ ∃ d, (value []).advanceAll ts = some d ∧ d.clash? = none := by
  unfold Sound
  rw [viable_iff]
  constructor
  · rintro ⟨⟨d, hd⟩, hkeys⟩
    refine ⟨d, hd, Option.eq_none_iff_forall_ne_some.2 fun key hkey => ?_⟩
    exact hkeys key ((clash?_eq_some_iff_repeats hd).1 hkey)
  · rintro ⟨d, hd, hclash⟩
    refine ⟨⟨d, hd⟩, fun key hkey => ?_⟩
    rw [(clash?_eq_some_iff_repeats hd).2 hkey] at hclash
    cases hclash

end Draft

/-! ### The first error -/

namespace Document

variable {t : Text} {i : Nat} {found : PlacedToken}

theorem first_succ {s : Scan} (hfound : s.tokens[i]? = some found) :
    s.first (i + 1) = s.first i ++ [found.token] := by
  rw [Scan.first, List.take_add_one, hfound, List.map_append]
  rfl

theorem advanceAll_first_succ {s : Scan} (hfound : s.tokens[i]? = some found) {d : Draft}
    (hd : (Draft.value []).advanceAll (s.first i) = some d) :
    (Draft.value []).advanceAll (s.first (i + 1)) = d.advance found.token := by
  rw [first_succ hfound, Draft.advanceAll_concat, hd, Option.bind_some]

/-- Tokens with which nothing is wrong are read. -/
theorem exists_read_eq_run (hle : i ≤ t.scan.tokens.length) (hsound : t.scan.SoundUpTo i) :
    ∃ d, (Draft.value []).advanceAll (t.scan.first i) = some d ∧
      read t = d.run (t.scan.tokens.drop i) t.scan.error := by
  induction i with
  | zero => exact ⟨.value [], rfl, rfl⟩
  | succ i ih =>
    obtain ⟨d, hd, hread⟩ := ih (by omega) fun j hj => hsound j (by omega)
    obtain ⟨d', hd', hclash⟩ := Draft.sound_iff.1 (hsound (i + 1) (Nat.le_refl _))
    refine ⟨d', hd', ?_⟩
    have hlt : i < t.scan.tokens.length := hle
    rw [advanceAll_first_succ (List.getElem?_eq_getElem hlt) hd] at hd'
    rw [hread, List.drop_eq_getElem_cons hlt, Draft.run, Draft.react_eq_ok_iff.2 ⟨hd', hclash⟩]
    rfl

/-- In front of a token, nothing being wrong with those before it. -/
theorem exists_read_eq_react (hfound : t.scan.tokens[i]? = some found)
    (hsound : t.scan.SoundUpTo i) :
    ∃ d : Draft, (Draft.value []).advanceAll (t.scan.first (i + 1)) = d.advance found.token ∧
      ∀ e, d.react found = .error e → read t = .error e := by
  obtain ⟨hlt, rfl⟩ := List.getElem?_eq_some_iff.1 hfound
  obtain ⟨d, hd, hread⟩ := exists_read_eq_run (Nat.le_of_lt hlt) hsound
  refine ⟨d, advanceAll_first_succ hfound hd, fun e he => ?_⟩
  rw [hread, List.drop_eq_getElem_cons hlt, Draft.run, he]
  rfl

theorem exists_read_eq_unexpected (hfound : t.scan.tokens[i]? = some found)
    (hsound : t.scan.SoundUpTo i) (hbad : ¬ Viable (t.scan.first (i + 1))) :
    ∃ state, read t = .error (.unexpected state found) := by
  obtain ⟨d, hadvance, hread⟩ := exists_read_eq_react hfound hsound
  refine ⟨d.missing, hread _ ?_⟩
  rw [Draft.viable_iff, hadvance] at hbad
  rw [Draft.react, Option.eq_none_iff_forall_ne_some.2 fun d' hd' => hbad ⟨d', hd'⟩]

theorem read_eq_duplicateKey {key : Text} (hfound : t.scan.tokens[i]? = some found)
    (hsound : t.scan.SoundUpTo i) (hrepeats : Repeats (t.scan.first (i + 1)) key) :
    read t = .error (.duplicateKey key found.position) := by
  obtain ⟨d, hadvance, hread⟩ := exists_read_eq_react hfound hsound
  refine hread _ ?_
  have hviable : Viable (t.scan.first (i + 1)).dropLast := by
    rw [first_succ hfound, List.dropLast_concat]
    exact (hsound i (Nat.le_refl i)).1
  obtain ⟨d', hd', hclash⟩ := Draft.exists_clash_of_repeats hrepeats hviable
  rw [Draft.react, ← hadvance, hd']
  simp only [Draft.checked, hclash]

theorem read_eq_lexical {l : LexError} (herror : t.scan.error = some l)
    (hsound : t.scan.SoundUpTo t.scan.tokens.length) : read t = .error (.lexical l) := by
  obtain ⟨d, -, hread⟩ := exists_read_eq_run (Nat.le_refl _) hsound
  rw [hread, List.drop_length, herror]
  rfl

/-- Where something is wrong, there is a first token at which it is. -/
theorem exists_not_sound (h : ¬ t.scan.SoundUpTo t.scan.tokens.length) :
    ∃ i found, t.scan.tokens[i]? = some found ∧ t.scan.SoundUpTo i ∧
      ¬ Sound (t.scan.first (i + 1)) := by
  classical
  unfold Scan.SoundUpTo at h
  push Not at h
  obtain ⟨hle, hbad⟩ := Nat.find_spec h
  have hleast : ∀ j < Nat.find h, Sound (t.scan.first j) := fun j hj => by
    by_contra hj'
    exact Nat.find_min h hj ⟨by omega, hj'⟩
  cases hi : Nat.find h with
  | zero =>
    rw [hi] at hbad
    exact absurd (Draft.sound_iff.2 ⟨.value [], rfl, rfl⟩) hbad
  | succ i =>
    rw [hi] at hle hbad hleast
    exact ⟨i, _, List.getElem?_eq_getElem hle, fun j hj => hleast j (by omega), hbad⟩

/-- Reading fails at the first token with which something is wrong, or where scanning fails. -/
theorem exists_first_error {e : ParseError} (hread : read t = .error e) :
    (∃ l, e = .lexical l ∧ t.scan.error = some l ∧ t.scan.SoundUpTo t.scan.tokens.length) ∨
      ∃ i found, t.scan.tokens[i]? = some found ∧ t.scan.SoundUpTo i ∧
        ((∃ state, e = .unexpected state found) ∧ ¬ Viable (t.scan.first (i + 1)) ∨
          ∃ key, e = .duplicateKey key found.position ∧ Repeats (t.scan.first (i + 1)) key) := by
  by_cases hall : t.scan.SoundUpTo t.scan.tokens.length
  · obtain ⟨d, -, hrun⟩ := exists_read_eq_run (Nat.le_refl _) hall
    rw [List.drop_length, hread] at hrun
    cases herror : t.scan.error with
    | none =>
      rw [herror] at hrun
      cases hrun
    | some l =>
      rw [herror] at hrun
      exact Or.inl ⟨l, Except.error.inj hrun, rfl, hall⟩
  · obtain ⟨i, found, hfound, hsound, hbad⟩ := exists_not_sound hall
    refine Or.inr ⟨i, found, hfound, hsound, ?_⟩
    by_cases hviable : Viable (t.scan.first (i + 1))
    · obtain ⟨key, hrepeats⟩ : ∃ key, Repeats (t.scan.first (i + 1)) key := by
        by_contra hkeys
        exact hbad ⟨hviable, not_exists.1 hkeys⟩
      have hduplicate := read_eq_duplicateKey hfound hsound hrepeats
      exact Or.inr ⟨key, Except.error.inj (hread.symm.trans hduplicate), hrepeats⟩
    · obtain ⟨state, hunexpected⟩ := exists_read_eq_unexpected hfound hsound hviable
      exact Or.inl ⟨⟨state, Except.error.inj (hread.symm.trans hunexpected)⟩, hviable⟩

/-- Parsing fails where reading does, and with the same error. -/
theorem exists_parse_eq_error_iff {e : ParseError} {h : Heap} :
    (∃ h', parse t h = .error e h') ↔ read t = .error e := by
  refine ⟨?_, fun hread => exists_parse_eq_error hread h⟩
  rintro ⟨h', hparse⟩
  have houtcome := outcome_parse t h
  rw [hparse] at houtcome
  obtain _ | ⟨hread, -⟩ := houtcome
  exact hread

theorem exists_read_eq_unexpected_iff :
    (∃ state, read t = .error (.unexpected state found)) ↔
      ∃ i, t.scan.tokens[i]? = some found ∧ t.scan.SoundUpTo i ∧
        ¬ Viable (t.scan.first (i + 1)) := by
  constructor
  · rintro ⟨state, hread⟩
    rcases exists_first_error hread with ⟨l, hl, -⟩ | ⟨i, found', hfound, hsound, h | h⟩
    · cases hl
    · obtain ⟨⟨state', he⟩, hviable⟩ := h
      cases he
      exact ⟨i, hfound, hsound, hviable⟩
    · obtain ⟨key, he, -⟩ := h
      cases he
  · rintro ⟨i, hfound, hsound, hviable⟩
    exact exists_read_eq_unexpected hfound hsound hviable

theorem read_eq_duplicateKey_iff {key : Text} {position : Position} :
    read t = .error (.duplicateKey key position) ↔
      ∃ i found, t.scan.tokens[i]? = some found ∧ found.position = position ∧
        t.scan.SoundUpTo i ∧ Repeats (t.scan.first (i + 1)) key := by
  constructor
  · intro hread
    rcases exists_first_error hread with ⟨l, hl, -⟩ | ⟨i, found, hfound, hsound, h | h⟩
    · cases hl
    · obtain ⟨⟨state, he⟩, -⟩ := h
      cases he
    · obtain ⟨key', he, hrepeats⟩ := h
      cases he
      exact ⟨i, found, hfound, rfl, hsound, hrepeats⟩
  · rintro ⟨i, found, hfound, rfl, hsound, hrepeats⟩
    exact read_eq_duplicateKey hfound hsound hrepeats

theorem read_eq_lexical_iff {l : LexError} :
    read t = .error (.lexical l) ↔
      t.scan.error = some l ∧ t.scan.SoundUpTo t.scan.tokens.length := by
  constructor
  · intro hread
    rcases exists_first_error hread with ⟨l', hl, herror, hsound⟩ | ⟨i, found, -, -, h | h⟩
    · cases hl
      exact ⟨herror, hsound⟩
    · obtain ⟨⟨state, he⟩, -⟩ := h
      cases he
    · obtain ⟨key, he, -⟩ := h
      cases he
  · rintro ⟨herror, hsound⟩
    exact read_eq_lexical herror hsound

/-- **The error reported is the first one.** A token is reported as unexpected exactly if no
document can start with the tokens up to it, a key is reported as repeated at a token exactly if this
token completes an entry with a key that its dictionary has already, and a lexical error is reported
exactly if scanning fails with it, in each case with nothing wrong at any token before. Parsing fails
for no other reason. -/
theorem parse_reports_first_error (t : Text) (h : Heap) :
    (∀ found, (∃ state h', parse t h = .error (.unexpected state found) h') ↔
      ∃ i, t.scan.tokens[i]? = some found ∧ t.scan.SoundUpTo i ∧
        ¬ Viable (t.scan.first (i + 1))) ∧
    (∀ key position, (∃ h', parse t h = .error (.duplicateKey key position) h') ↔
      ∃ i found, t.scan.tokens[i]? = some found ∧ found.position = position ∧
        t.scan.SoundUpTo i ∧ Repeats (t.scan.first (i + 1)) key) ∧
    (∀ l, (∃ h', parse t h = .error (.lexical l) h') ↔
      t.scan.error = some l ∧ t.scan.SoundUpTo t.scan.tokens.length) ∧
    ∀ e h', parse t h = .error e h' →
      (∃ state found, e = .unexpected state found) ∨
        (∃ key position, e = .duplicateKey key position) ∨ ∃ l, e = .lexical l := by
  simp only [exists_parse_eq_error_iff]
  refine ⟨fun found => exists_read_eq_unexpected_iff, fun key position => read_eq_duplicateKey_iff,
    fun l => read_eq_lexical_iff, fun e h' hparse => ?_⟩
  have hread := exists_parse_eq_error_iff.1 ⟨h', hparse⟩
  rcases Draft.run_eq_error hread with hlexical | hunexpected | hduplicate
  · exact Or.inr (Or.inr hlexical)
  · exact Or.inl hunexpected
  · exact Or.inr (Or.inl hduplicate)

/-- A string that is never closed, behind an entry with a repeated key: the bracket that completes
the entry is where the document is refused. -/
example : (read "\x7ba = b; a = (c)\"").map (fun _ => ()) = .error (.duplicateKey "a" ⟨1, 15⟩) := by
  decide +kernel

end Document

end PropertyList

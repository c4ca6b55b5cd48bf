import PropertyList.Proofs.Document.Derivation

/-!
# Reading phrase by phrase

The tokens of a phrase take a draft to the next one in which the phrase is complete, whatever is
around it. Conversely a draft shows which phrases the tokens read so far are made of: opening
brackets and behind each of them the phrases that its container has already.

## Main definitions

* `Draft.advanceAll`, the draft after a sequence of tokens
* `Begun`, the phrases of a container that is still open
* `Hole.OpenedBy`, `Draft.ReadFrom`, the tokens that a draft comes of

## Main results

* `Draft.advanceAll_value`, `Draft.advanceAll_entries`
* `Draft.readFrom_advanceAll`
-/

namespace PropertyList

namespace Draft

/-- The draft after a sequence of tokens. -/
def advanceAll (d : Draft) (ts : List Token) : Option Draft :=
  ts.foldlM advance d

theorem advanceAll_nil (d : Draft) : d.advanceAll [] = some d :=
  rfl

theorem advanceAll_cons (d : Draft) (t : Token) (ts : List Token) :
    d.advanceAll (t :: ts) = (d.advance t).bind fun d' => d'.advanceAll ts :=
  List.foldlM_cons

theorem advanceAll_append (d : Draft) (ts us : List Token) :
    d.advanceAll (ts ++ us) = (d.advanceAll ts).bind fun d' => d'.advanceAll us :=
  List.foldlM_append

theorem advanceAll_concat (d : Draft) (ts : List Token) (t : Token) :
    d.advanceAll (ts ++ [t]) = (d.advanceAll ts).bind fun d' => d'.advance t := by
  rw [advanceAll_append]
  exact Option.bind_congr fun d' _ => Option.bind_fun_some _

/-- In front of a value, the end of an array is as good as a value. -/
theorem advanceAll_itemOrClose {tokens : List Token} {v : Tree} (h : ValueTokens tokens v)
    (before : List Tree) (holes : List Hole) :
    (itemOrClose before holes).advanceAll tokens =
      (value (.item before :: holes)).advanceAll tokens := by
  cases h with
  | @string t s h => cases t <;> first | rfl | cases h
  | array h => rfl
  | dict h => rfl

mutual

/-- The tokens of a value fill the hole. -/
theorem advanceAll_value {tokens : List Token} {v : Tree} : ValueTokens tokens v →
    ∀ holes, (value holes).advanceAll tokens = some (filled holes v)
  | @ValueTokens.string t s h, holes => by cases t <;> cases h <;> rfl
  | .array h, holes => advanceAll_array h holes
  | .dict h, holes => advanceAll_dict h holes

theorem advanceAll_array {tokens : List Token} {items : List Tree} :
    Listing ValueTokens .comma tokens items → ∀ holes,
      (value holes).advanceAll (.mark .openParen :: tokens ++ [.mark .closeParen]) =
        some (filled holes (.array items))
  | .empty, holes => rfl
  | @Listing.filled _ _ _ tokens trail _ hs ht, holes => by
    obtain ⟨init, last, rfl, hread⟩ := advanceAll_items hs [] holes
    show (itemOrClose [] holes).advanceAll ((tokens ++ trail) ++ [.mark .closeParen]) = _
    rw [List.append_assoc, advanceAll_append, hread]
    rcases ht with rfl | rfl <;> rfl

theorem advanceAll_dict {tokens : List Token} {entries : List (Text × Tree)} :
    Listing (EntryTokens ValueTokens) .semicolon tokens entries → ∀ holes,
      (value holes).advanceAll (.mark .openBrace :: tokens ++ [.mark .closeBrace]) =
        some (filled holes (.dict entries))
  | .empty, holes => rfl
  | @Listing.filled _ _ _ tokens trail _ hs ht, holes => by
    obtain ⟨init, last, rfl, hread⟩ := advanceAll_entries hs [] holes
    show (keyOrClose [] holes).advanceAll ((tokens ++ trail) ++ [.mark .closeBrace]) = _
    rw [List.append_assoc, advanceAll_append, hread]
    rcases ht with rfl | rfl <;> rfl

theorem advanceAll_items {tokens : List Token} {items : List Tree} :
    Separated ValueTokens .comma tokens items → ∀ before holes, ∃ init last,
      items = init ++ [last] ∧ (itemOrClose before holes).advanceAll tokens =
        some (filled (.item (before ++ init) :: holes) last)
  | @Separated.one _ _ _ tokens v h, before, holes => by
    rw [advanceAll_itemOrClose h, advanceAll_value h]
    exact ⟨[], v, rfl, by rw [List.append_nil]⟩
  | @Separated.cons _ _ _ tokens others v items h hs, before, holes => by
    obtain ⟨init, last, rfl, hread⟩ := advanceAll_items hs (before ++ [v]) holes
    refine ⟨v :: init, last, rfl, ?_⟩
    rw [advanceAll_append, advanceAll_itemOrClose h, advanceAll_value h]
    rw [List.append_assoc] at hread
    exact hread

theorem advanceAll_entries {tokens : List Token} {entries : List (Text × Tree)} :
    Separated (EntryTokens ValueTokens) .semicolon tokens entries → ∀ before holes, ∃ init last,
      entries = init ++ [last] ∧ (keyOrClose before holes).advanceAll tokens =
        some (filled (.entry (before ++ init) last.1 :: holes) last.2)
  | @Separated.one _ _ _ tokens entry h, before, holes => by
    rw [advanceAll_entry h]
    exact ⟨[], entry, rfl, by rw [List.append_nil]⟩
  | @Separated.cons _ _ _ tokens others entry entries h hs, before, holes => by
    obtain ⟨init, last, rfl, hread⟩ := advanceAll_entries hs (before ++ [entry]) holes
    refine ⟨entry :: init, last, rfl, ?_⟩
    rw [advanceAll_append, advanceAll_entry h]
    rw [List.append_assoc] at hread
    exact hread

theorem advanceAll_entry {tokens : List Token} {entry : Text × Tree} :
    EntryTokens ValueTokens tokens entry → ∀ before holes,
      (keyOrClose before holes).advanceAll tokens =
        some (filled (.entry before entry.1 :: holes) entry.2)
  | @EntryTokens.intro _ k key tokens v hk h, before, holes => by
    have hvalue := advanceAll_value h (.entry before key :: holes)
    cases k <;> cases hk <;> exact hvalue

end

end Draft

/-! ### What has been read -/

section Listings

variable {α : Type} {P : List Token → α → Prop} {m : Mark}

/-- Phrases with a mark behind each of them. -/
inductive Begun (P : List Token → α → Prop) (m : Mark) : List Token → List α → Prop
  | empty : Begun P m [] []
  | filled {tokens : List Token} {as : List α} (hs : Separated P m tokens as) :
      Begun P m (tokens ++ [.mark m]) as

theorem Separated.append_phrase {tokens others : List Token} {as : List α} {a : α}
    (hs : Separated P m tokens as) (h : P others a) :
    Separated P m (tokens ++ .mark m :: others) (as ++ [a]) := by
  induction hs with
  | one h' => exact .cons h' (.one h)
  | cons h' hs ih =>
    rw [List.append_assoc, List.cons_append]
    exact .cons h' ih

theorem Begun.append_phrase {listing tokens : List Token} {as : List α} {a : α}
    (hs : Begun P m listing as) (h : P tokens a) :
    Separated P m (listing ++ tokens) (as ++ [a]) := by
  cases hs with
  | empty => exact .one h
  | filled hs =>
    rw [List.append_assoc]
    exact hs.append_phrase h

theorem Begun.listing {listing : List Token} {as : List α} (hs : Begun P m listing as) :
    Listing P m listing as := by
  cases hs with
  | empty => exact .empty
  | filled hs => exact .filled hs (Or.inr rfl)

end Listings

/-- The tokens in front of a value in the first hole: the opening bracket of every container and
what stands in it, the outermost container first. -/
def Hole.OpenedBy : List Hole → List Token → Prop
  | [], ts => ts = []
  | .item before :: holes, ts =>
    ∃ outer listing, ts = outer ++ .mark .openParen :: listing ∧ OpenedBy holes outer ∧
      Begun ValueTokens .comma listing before
  | .entry before key :: holes, ts =>
    ∃ outer listing k, ts = outer ++ .mark .openBrace :: (listing ++ [k, .mark .equals]) ∧
      OpenedBy holes outer ∧ Begun (EntryTokens ValueTokens) .semicolon listing before ∧
      k.string? = some key

namespace Draft

variable {d d' : Draft} {ts : List Token} {holes : List Hole}

/-- The tokens that a draft comes of. Of a document that is complete nothing is said. -/
def ReadFrom : Draft → List Token → Prop
  | value holes, ts => Hole.OpenedBy holes ts
  | keyOrClose entries holes, ts =>
    ∃ outer listing, ts = outer ++ .mark .openBrace :: listing ∧ Hole.OpenedBy holes outer ∧
      Begun (EntryTokens ValueTokens) .semicolon listing entries
  | equals entries key holes, ts =>
    ∃ outer listing k, ts = outer ++ .mark .openBrace :: (listing ++ [k]) ∧
      Hole.OpenedBy holes outer ∧ Begun (EntryTokens ValueTokens) .semicolon listing entries ∧
      k.string? = some key
  | itemOrClose items holes, ts =>
    ∃ outer listing, ts = outer ++ .mark .openParen :: listing ∧ Hole.OpenedBy holes outer ∧
      Begun ValueTokens .comma listing items
  | filled holes t, ts =>
    ∃ outer tokens, ts = outer ++ tokens ∧ Hole.OpenedBy holes outer ∧ ValueTokens tokens t
  | ending _, _ | done _, _ => True

theorem Starts.readFrom {t : Token} (h : Starts holes t d) (hts : Hole.OpenedBy holes ts) :
    d.ReadFrom (ts ++ [t]) := by
  cases h with
  | string h => exact ⟨ts, [t], rfl, hts, .string h⟩
  | dict => exact ⟨ts, [], rfl, hts, .empty⟩
  | array => exact ⟨ts, [], rfl, hts, .empty⟩

/-- Reading on keeps a record of what has been read. -/
theorem Advances.readFrom {t : Token} (h : Advances d t d') (hts : d.ReadFrom ts) :
    d'.ReadFrom (ts ++ [t]) := by
  cases h with
  | value h => exact h.readFrom hts
  | closeDict entries holes =>
    obtain ⟨outer, listing, rfl, houter, hentries⟩ := hts
    exact ⟨outer, _, List.append_assoc _ _ _, houter, .dict hentries.listing⟩
  | key h entries holes =>
    obtain ⟨outer, listing, rfl, houter, hentries⟩ := hts
    exact ⟨outer, listing, t, List.append_assoc _ _ _, houter, hentries, h⟩
  | equals entries key holes =>
    obtain ⟨outer, listing, k, rfl, houter, hentries, hk⟩ := hts
    exact ⟨outer, listing, k, by simp, houter, hentries, hk⟩
  | closeArray items holes =>
    obtain ⟨outer, listing, rfl, houter, hitems⟩ := hts
    exact ⟨outer, _, List.append_assoc _ _ _, houter, .array hitems.listing⟩
  | item h => exact h.readFrom hts
  | comma before holes v =>
    obtain ⟨_, tokens, rfl, ⟨outer, listing, rfl, houter, hitems⟩, hv⟩ := hts
    exact ⟨outer, listing ++ tokens ++ [.mark .comma], by simp, houter,
      .filled (hitems.append_phrase hv)⟩
  | semicolon before key holes v =>
    obtain ⟨_, tokens, rfl, ⟨outer, listing, k, rfl, houter, hentries, hk⟩, hv⟩ := hts
    exact ⟨outer, listing ++ k :: .mark .equals :: tokens ++ [.mark .semicolon], by simp, houter,
      .filled (hentries.append_phrase (.intro hk hv))⟩
  | close hole holes v =>
    cases hole with
    | item before =>
      obtain ⟨_, tokens, rfl, ⟨outer, listing, rfl, houter, hitems⟩, hv⟩ := hts
      refine ⟨outer, _, ?_, houter,
        .array (.filled (hitems.append_phrase hv) (Or.inl rfl))⟩
      simp [Hole.bracket]
    | entry before key =>
      obtain ⟨_, tokens, rfl, ⟨outer, listing, k, rfl, houter, hentries, hk⟩, hv⟩ := hts
      refine ⟨outer, _, ?_, houter,
        .dict (.filled (hentries.append_phrase (.intro hk hv)) (Or.inl rfl))⟩
      simp [Hole.bracket]
  | rootSemicolon root => trivial
  | rootEnding root => trivial
  | ending root => trivial

theorem readFrom_advanceAll (h : (value []).advanceAll ts = some d) : d.ReadFrom ts := by
  induction ts using List.reverseRecOn generalizing d with
  | nil =>
    obtain rfl := Option.some.inj h
    rfl
  | append_singleton ts t ih =>
    rw [advanceAll_concat] at h
    obtain ⟨d₁, hts, hadvance⟩ := Option.bind_eq_some_iff.1 h
    exact (advance_eq_some_iff.1 hadvance).readFrom (ih hts)

end Draft

end PropertyList

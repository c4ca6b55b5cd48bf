import PropertyList.Proofs.Document.Draft
import PropertyList.Proofs.Document.Grammar
import PropertyList.Proofs.Token.Lexing

/-!
# Reading and deriving

A draft is completed by the tokens that the grammar allows behind what was read. Such tokens start
with one that the draft accepts and go on with tokens that complete the next draft
(`Draft.completes_cons`), so that reading a document to its end is deriving it from the grammar.

## Main definitions

* `Draft.Completes`, the tokens that complete a draft

## Main results

* `Draft.completes_value_nil` : what completes the empty draft is a document.
* `Draft.completes_cons`
* `Draft.run_eq_ok_iff` : what is read without an error.
* `Draft.Completes.run_eq` : what can go wrong with tokens that complete a draft.
-/

namespace PropertyList.Draft

/-! ### Completions -/

/-- The tokens that may follow a value in the first hole, and the root that comes of it. -/
def Follows : List Hole → Tree → List Token → Tree → Prop
  | [], t, tokens, root =>
    (tokens = [.ending] ∨ tokens = [.mark .semicolon, .ending]) ∧ root = t
  | .item before :: holes, t, tokens, root =>
    ∃ tail more rest, tokens = tail ++ .mark .closeParen :: rest ∧
      ListingTail ValueTokens .comma tail more ∧
      Follows holes (.array (before ++ t :: more)) rest root
  | .entry before key :: holes, t, tokens, root =>
    ∃ tail more rest, tokens = tail ++ .mark .closeBrace :: rest ∧
      ListingTail (EntryTokens ValueTokens) .semicolon tail more ∧
      Follows holes (.dict (before ++ (key, t) :: more)) rest root

/-- The tokens of a value in the first hole and of what may follow it. -/
def ValueFollows (holes : List Hole) (tokens : List Token) (root : Tree) : Prop :=
  ∃ first t rest, tokens = first ++ rest ∧ ValueTokens first t ∧ Follows holes t rest root

/-- The tokens that complete a draft, and the root that they complete it to. -/
def Completes : Draft → List Token → Tree → Prop
  | value holes, tokens, root => ValueFollows holes tokens root
  | keyOrClose entries holes, tokens, root =>
    ∃ listing more rest, tokens = listing ++ .mark .closeBrace :: rest ∧
      Listing (EntryTokens ValueTokens) .semicolon listing more ∧
      Follows holes (.dict (entries ++ more)) rest root
  | equals entries key holes, tokens, root =>
    ∃ rest, tokens = .mark .equals :: rest ∧ ValueFollows (.entry entries key :: holes) rest root
  | itemOrClose items holes, tokens, root =>
    ∃ listing more rest, tokens = listing ++ .mark .closeParen :: rest ∧
      Listing ValueTokens .comma listing more ∧
      Follows holes (.array (items ++ more)) rest root
  | filled holes t, tokens, root => Follows holes t tokens root
  | ending t, tokens, root => tokens = [.ending] ∧ root = t
  | done t, tokens, root => tokens = [] ∧ root = t

/-- A document is what completes the empty draft. -/
theorem completes_value_nil {tokens : List Token} {root : Tree} :
    (value []).Completes tokens root ↔ DocumentTokens tokens root := by
  constructor
  · rintro ⟨first, t, rest, rfl, h, rfl | rfl, rfl⟩
    · simpa using DocumentTokens.intro h (Or.inl rfl)
    · simpa using DocumentTokens.intro h (Or.inr rfl)
  · rintro ⟨h, rfl | rfl⟩
    · exact ⟨_, _, _, List.append_assoc _ _ _, h, Or.inl rfl, rfl⟩
    · exact ⟨_, _, _, List.append_assoc _ _ _, h, Or.inr rfl, rfl⟩

/-! ### Completions, one token at a time -/

private theorem exists_starts {holes : List Hole} {t : Token} {ts : List Token} {root : Tree}
    (h : ValueFollows holes (t :: ts) root) : ∃ d, Starts holes t d ∧ d.Completes ts root := by
  obtain ⟨first, v, rest, htokens, hvalue, hrest⟩ := h
  cases hvalue with
  | string h =>
    obtain ⟨rfl, rfl⟩ := List.cons.inj htokens
    exact ⟨_, .string h, hrest⟩
  | @array listing items h =>
    obtain ⟨rfl, rfl⟩ := List.cons.inj htokens
    exact ⟨_, .array, listing, items, rest, by simp, h, hrest⟩
  | @dict listing entries h =>
    obtain ⟨rfl, rfl⟩ := List.cons.inj htokens
    exact ⟨_, .dict, listing, entries, rest, by simp, h, hrest⟩

private theorem Starts.valueFollows {holes : List Hole} {t : Token} {d : Draft}
    (h : Starts holes t d) {ts : List Token} {root : Tree} (hd : d.Completes ts root) :
    ValueFollows holes (t :: ts) root := by
  cases h with
  | string h => exact ⟨[t], _, ts, rfl, .string h, hd⟩
  | dict =>
    obtain ⟨listing, entries, rest, rfl, h, hrest⟩ := hd
    exact ⟨_, _, rest, by simp, .dict h, hrest⟩
  | array =>
    obtain ⟨listing, items, rest, rfl, h, hrest⟩ := hd
    exact ⟨_, _, rest, by simp, .array h, hrest⟩

private theorem exists_advances_filled {holes : List Hole} {v : Tree} {t : Token}
    {ts : List Token} {root : Tree} (h : Follows holes v (t :: ts) root) :
    ∃ d, Advances (filled holes v) t d ∧ d.Completes ts root := by
  match holes with
  | [] =>
    obtain ⟨h | h, rfl⟩ := h
    · obtain ⟨rfl, rfl⟩ := List.cons.inj h
      exact ⟨_, .rootEnding _, rfl, rfl⟩
    · obtain ⟨rfl, rfl⟩ := List.cons.inj h
      exact ⟨_, .rootSemicolon _, rfl, rfl⟩
  | .item before :: holes =>
    obtain ⟨tail, more, rest, htokens, htail, hrest⟩ := h
    cases htail with
    | nil =>
      obtain ⟨rfl, rfl⟩ := List.cons.inj htokens
      exact ⟨_, .close (.item before) holes v, hrest⟩
    | mark hlisting =>
      obtain ⟨rfl, rfl⟩ := List.cons.inj htokens
      refine ⟨_, .comma before holes v, _, more, rest, rfl, hlisting, ?_⟩
      rwa [List.append_assoc]
  | .entry before key :: holes =>
    obtain ⟨tail, more, rest, htokens, htail, hrest⟩ := h
    cases htail with
    | nil =>
      obtain ⟨rfl, rfl⟩ := List.cons.inj htokens
      exact ⟨_, .close (.entry before key) holes v, hrest⟩
    | mark hlisting =>
      obtain ⟨rfl, rfl⟩ := List.cons.inj htokens
      refine ⟨_, .semicolon before key holes v, _, more, rest, rfl, hlisting, ?_⟩
      rwa [List.append_assoc]

private theorem exists_advances_keyOrClose {entries : List (Text × Tree)} {holes : List Hole}
    {t : Token} {ts : List Token} {root : Tree}
    (h : (keyOrClose entries holes).Completes (t :: ts) root) :
    ∃ d, Advances (keyOrClose entries holes) t d ∧ d.Completes ts root := by
  obtain ⟨listing, more, rest, htokens, hlisting, hrest⟩ := h
  rcases listing_iff.1 hlisting with ⟨rfl, rfl⟩ | ⟨first, tail, e, more, rfl, rfl, he, htail⟩
  · obtain ⟨rfl, rfl⟩ := List.cons.inj htokens
    rw [List.append_nil] at hrest
    exact ⟨_, .closeDict entries holes, hrest⟩
  · obtain @⟨k, key, tokens, v, hk, hvalue⟩ := he
    obtain ⟨rfl, rfl⟩ := List.cons.inj htokens
    refine ⟨_, .key hk entries holes, tokens ++ (tail ++ .mark .closeBrace :: rest), by simp,
      tokens, v, tail ++ .mark .closeBrace :: rest, rfl, hvalue, tail, more, rest, rfl, htail,
      hrest⟩

private theorem exists_advances_itemOrClose {items : List Tree} {holes : List Hole}
    {t : Token} {ts : List Token} {root : Tree}
    (h : (itemOrClose items holes).Completes (t :: ts) root) :
    ∃ d, Advances (itemOrClose items holes) t d ∧ d.Completes ts root := by
  obtain ⟨listing, more, rest, htokens, hlisting, hrest⟩ := h
  rcases listing_iff.1 hlisting with ⟨rfl, rfl⟩ | ⟨first, tail, v, more, rfl, rfl, hv, htail⟩
  · obtain ⟨rfl, rfl⟩ := List.cons.inj htokens
    rw [List.append_nil] at hrest
    exact ⟨_, .closeArray items holes, hrest⟩
  · have hvalue : ValueFollows (.item items :: holes) (t :: ts) root :=
      ⟨first, v, tail ++ .mark .closeParen :: rest, by rw [htokens, List.append_assoc], hv,
        tail, more, rest, rfl, htail, hrest⟩
    obtain ⟨d, hstarts, hd⟩ := exists_starts hvalue
    exact ⟨d, .item hstarts, hd⟩

/-- A completion starts with a token that the draft accepts. -/
private theorem exists_advances {d : Draft} {t : Token} {ts : List Token} {root : Tree}
    (h : d.Completes (t :: ts) root) : ∃ d', Advances d t d' ∧ d'.Completes ts root := by
  cases d with
  | value holes =>
    obtain ⟨d', hstarts, hd⟩ := exists_starts h
    exact ⟨d', .value hstarts, hd⟩
  | keyOrClose entries holes => exact exists_advances_keyOrClose h
  | equals entries key holes =>
    obtain ⟨rest, htokens, hrest⟩ := h
    obtain ⟨rfl, rfl⟩ := List.cons.inj htokens
    exact ⟨_, .equals entries key holes, hrest⟩
  | itemOrClose items holes => exact exists_advances_itemOrClose h
  | filled holes v => exact exists_advances_filled h
  | ending root =>
    obtain ⟨htokens, rfl⟩ := h
    obtain ⟨rfl, rfl⟩ := List.cons.inj htokens
    exact ⟨_, .ending _, rfl, rfl⟩
  | done root => exact absurd h.1 (List.cons_ne_nil t ts)

/-- A token that a draft accepts may stand in front of what completes the next draft. -/
private theorem Advances.completes {d d' : Draft} {t : Token} (h : Advances d t d')
    {ts : List Token} {root : Tree} (hd : d'.Completes ts root) : d.Completes (t :: ts) root := by
  cases h with
  | value h => exact h.valueFollows hd
  | closeDict entries holes =>
    refine ⟨[], [], ts, rfl, .empty, ?_⟩
    rwa [List.append_nil]
  | key h entries holes =>
    obtain ⟨rest, rfl, first, v, rest, rfl, hvalue, tail, more, rest, rfl, htail, hrest⟩ := hd
    exact ⟨_, _, rest, by simp, .cons (.intro h hvalue) htail, hrest⟩
  | equals entries key holes => exact ⟨ts, rfl, hd⟩
  | closeArray items holes =>
    refine ⟨[], [], ts, rfl, .empty, ?_⟩
    rwa [List.append_nil]
  | item h =>
    obtain ⟨first, v, rest, htokens, hvalue, tail, more, rest, rfl, htail, hrest⟩ :=
      h.valueFollows hd
    exact ⟨_, _, rest, by rw [htokens, List.append_assoc], .cons hvalue htail, hrest⟩
  | comma before holes v =>
    obtain ⟨listing, more, rest, rfl, hlisting, hrest⟩ := hd
    refine ⟨_, more, rest, rfl, .mark hlisting, ?_⟩
    rwa [List.append_assoc] at hrest
  | semicolon before key holes v =>
    obtain ⟨listing, more, rest, rfl, hlisting, hrest⟩ := hd
    refine ⟨_, more, rest, rfl, .mark hlisting, ?_⟩
    rwa [List.append_assoc] at hrest
  | close hole holes v => cases hole <;> exact ⟨[], [], ts, rfl, .nil, hd⟩
  | rootSemicolon root =>
    obtain ⟨rfl, rfl⟩ := hd
    exact ⟨Or.inr rfl, rfl⟩
  | rootEnding root =>
    obtain ⟨rfl, rfl⟩ := hd
    exact ⟨Or.inl rfl, rfl⟩
  | ending root =>
    obtain ⟨rfl, rfl⟩ := hd
    exact ⟨rfl, rfl⟩

/-- **Completions are read token by token.** A draft is completed by a token that it accepts and
by what completes the next draft. -/
theorem completes_cons {d : Draft} {t : Token} {ts : List Token} {root : Tree} :
    d.Completes (t :: ts) root ↔ ∃ d', d.advance t = some d' ∧ d'.Completes ts root := by
  constructor
  · intro h
    obtain ⟨d', hadvances, hd⟩ := exists_advances h
    exact ⟨d', advance_eq_some_iff.2 hadvances, hd⟩
  · rintro ⟨d', hadvance, hd⟩
    exact (advance_eq_some_iff.1 hadvance).completes hd

private theorem nil_ne_append_mark (listing : List Token) (m : Mark) (rest : List Token) :
    [] ≠ listing ++ .mark m :: rest :=
  fun h => List.cons_ne_nil _ _ (List.append_eq_nil_iff.1 h.symm).2

/-- Nothing is left to read exactly when the document is done. -/
theorem completes_nil {d : Draft} {root : Tree} : d.Completes [] root ↔ d = done root := by
  constructor
  · intro h
    cases d with
    | value holes =>
      obtain ⟨first, v, rest, hnil, hvalue, -⟩ := h
      obtain ⟨rfl, -⟩ := List.append_eq_nil_iff.1 hnil.symm
      cases hvalue
    | keyOrClose entries holes =>
      obtain ⟨listing, more, rest, hnil, -⟩ := h
      exact absurd hnil (nil_ne_append_mark _ _ _)
    | equals entries key holes =>
      obtain ⟨rest, hnil, -⟩ := h
      exact absurd hnil (nil_ne_append_mark [] _ _)
    | itemOrClose items holes =>
      obtain ⟨listing, more, rest, hnil, -⟩ := h
      exact absurd hnil (nil_ne_append_mark _ _ _)
    | filled holes v =>
      match holes with
      | [] =>
        obtain ⟨hnil | hnil, -⟩ := h
        · exact absurd hnil.symm (List.cons_ne_nil _ _)
        · exact absurd hnil.symm (List.cons_ne_nil _ _)
      | .item before :: holes =>
        obtain ⟨tail, more, rest, hnil, -⟩ := h
        exact absurd hnil (nil_ne_append_mark _ _ _)
      | .entry before key :: holes =>
        obtain ⟨tail, more, rest, hnil, -⟩ := h
        exact absurd hnil (nil_ne_append_mark _ _ _)
    | ending t => exact absurd h.1.symm (List.cons_ne_nil _ _)
    | done t => rw [h.2]
  · rintro rfl
    exact ⟨rfl, rfl⟩

/-! ### Keys -/

/-- What a dictionary starts with has no key twice if the dictionary has none. -/
private theorem uniqueKeys_dict_of_append {entries more : List (Text × Tree)}
    (h : (Tree.dict (entries ++ more)).UniqueKeys) : (Tree.dict entries).UniqueKeys := by
  obtain ⟨hnodup, hvalues⟩ := Tree.uniqueKeys_dict.1 h
  rw [List.map_append] at hnodup
  exact Tree.uniqueKeys_dict.2
    ⟨hnodup.sublist (List.sublist_append_left _ _), (List.forall_mem_append.1 hvalues).1⟩

private theorem uniqueKeys_array_of_append {items more : List Tree}
    (h : (Tree.array (items ++ more)).UniqueKeys) : (Tree.array items).UniqueKeys :=
  Tree.uniqueKeys_array.2 (List.forall_mem_append.1 (Tree.uniqueKeys_array.1 h)).1

/-- The values around a hole are part of the root. -/
private theorem uniqueKeys_of_follows {holes : List Hole} {v : Tree} {tokens : List Token}
    {root : Tree} (h : Follows holes v tokens root) (hroot : root.UniqueKeys) :
    v.UniqueKeys ∧ (filled holes v).Unique ∧ ∀ t ∈ holes.flatMap Hole.trees, t.UniqueKeys := by
  induction holes generalizing v tokens with
  | nil =>
    obtain ⟨-, rfl⟩ := h
    exact ⟨hroot, List.forall_mem_singleton.2 hroot, fun _ ht => absurd ht List.not_mem_nil⟩
  | cons hole holes ih =>
    cases hole with
    | item before =>
      obtain ⟨tail, more, rest, -, -, hrest⟩ := h
      rw [← List.singleton_append, ← List.append_assoc] at hrest
      obtain ⟨harray, -, hholes⟩ := ih hrest
      have hplug := uniqueKeys_array_of_append harray
      refine ⟨Tree.uniqueKeys_array.1 hplug v (by simp), List.forall_mem_cons.2 ⟨hplug, hholes⟩, ?_⟩
      exact List.forall_mem_cons.2 ⟨uniqueKeys_array_of_append hplug, hholes⟩
    | entry before key =>
      obtain ⟨tail, more, rest, -, -, hrest⟩ := h
      rw [← List.singleton_append, ← List.append_assoc] at hrest
      obtain ⟨hdict, -, hholes⟩ := ih hrest
      have hplug := uniqueKeys_dict_of_append hdict
      refine ⟨(Tree.uniqueKeys_dict.1 hplug).2 (key, v) (by simp),
        List.forall_mem_cons.2 ⟨hplug, hholes⟩, ?_⟩
      exact List.forall_mem_cons.2 ⟨fun _ hk => absurd hk List.not_mem_nil,
        List.forall_mem_cons.2 ⟨uniqueKeys_dict_of_append hplug, hholes⟩⟩

/-- What is completed to a root without repeated keys has no repeated keys. -/
theorem Completes.unique {d : Draft} {tokens : List Token} {root : Tree}
    (h : d.Completes tokens root) (hroot : root.UniqueKeys) : d.Unique := by
  cases d with
  | value holes =>
    obtain ⟨-, v, rest, -, -, hrest⟩ := h
    exact (uniqueKeys_of_follows hrest hroot).2.2
  | keyOrClose entries holes =>
    obtain ⟨-, more, rest, -, -, hrest⟩ := h
    obtain ⟨hdict, -, hholes⟩ := uniqueKeys_of_follows hrest hroot
    exact List.forall_mem_cons.2 ⟨uniqueKeys_dict_of_append hdict, hholes⟩
  | equals entries key holes =>
    obtain ⟨-, -, -, v, rest, -, -, hrest⟩ := h
    exact (uniqueKeys_of_follows hrest hroot).2.2
  | itemOrClose items holes =>
    obtain ⟨-, more, rest, -, -, hrest⟩ := h
    obtain ⟨harray, -, hholes⟩ := uniqueKeys_of_follows hrest hroot
    exact List.forall_mem_cons.2 ⟨uniqueKeys_array_of_append harray, hholes⟩
  | filled holes v => exact (uniqueKeys_of_follows h hroot).2.1
  | ending root =>
    obtain ⟨-, rfl⟩ := h
    exact List.forall_mem_singleton.2 hroot
  | done root =>
    obtain ⟨-, rfl⟩ := h
    exact List.forall_mem_singleton.2 hroot

/-! ### Whole documents -/

/-- **Reading is deriving.** The tokens of a text are read without an error exactly if scanning
did not fail, the tokens complete the draft, and no dictionary has a key twice. What has then been
read is the root that the tokens complete the draft to. -/
theorem run_eq_ok_iff {ts : List PlacedToken} {error : Option LexError} (hts : TokenStream ts error)
    {d d' : Draft} (hd : d.Unique) :
    d.run ts error = .ok d' ↔
      error = none ∧
        ∃ root, d' = done root ∧ d.Completes (ts.map (·.token)) root ∧ root.UniqueKeys := by
  induction hts generalizing d with
  | failed e => simp [run]
  | ended position =>
    rw [run_cons_eq_ok_iff]
    constructor
    · rintro ⟨d₁, hreact, hrun⟩
      obtain rfl := Except.ok.inj hrun
      obtain ⟨hadvance, -⟩ := react_eq_ok_iff.1 hreact
      obtain ⟨root, rfl⟩ := (advance_eq_some_iff.1 hadvance).eq_done
      have hunique := ((advance_eq_some_iff.1 hadvance).unique_iff hd).2 rfl
      exact ⟨rfl, root, rfl, completes_cons.2 ⟨_, hadvance, rfl, rfl⟩,
        hunique root (List.mem_singleton_self root)⟩
    · rintro ⟨-, root, rfl, hcompletes, -⟩
      obtain ⟨d₁, hadvance, hnil⟩ := completes_cons.1 hcompletes
      obtain ⟨root', rfl⟩ := (advance_eq_some_iff.1 hadvance).eq_done
      obtain ⟨-, rfl⟩ := hnil
      exact ⟨_, react_eq_ok_iff.2 ⟨hadvance, rfl⟩, rfl⟩
  | cons ht hts ih =>
    rw [run_cons_eq_ok_iff]
    constructor
    · rintro ⟨d₁, hreact, hrun⟩
      obtain ⟨hadvance, hclash⟩ := react_eq_ok_iff.1 hreact
      have hunique := ((advance_eq_some_iff.1 hadvance).unique_iff hd).2 hclash
      obtain ⟨rfl, root, rfl, hcompletes, hroot⟩ := (ih hunique).1 hrun
      exact ⟨rfl, root, rfl, completes_cons.2 ⟨d₁, hadvance, hcompletes⟩, hroot⟩
    · rintro ⟨rfl, root, rfl, hcompletes, hroot⟩
      obtain ⟨d₁, hadvance, hcompletes'⟩ := completes_cons.1 hcompletes
      have hunique := hcompletes'.unique hroot
      have hclash := ((advance_eq_some_iff.1 hadvance).unique_iff hd).1 hunique
      exact ⟨d₁, react_eq_ok_iff.2 ⟨hadvance, hclash⟩,
        (ih hunique).2 ⟨rfl, root, rfl, hcompletes', hroot⟩⟩

/-- Nothing but a repeated key is wrong with tokens that complete a draft. -/
theorem Completes.run_eq {d : Draft} {ts : List PlacedToken} {root : Tree}
    (h : d.Completes (ts.map (·.token)) root) :
    d.run ts none = .ok (done root) ∨
      ∃ key position, d.run ts none = .error (.duplicateKey key position) := by
  induction ts generalizing d with
  | nil =>
    rw [completes_nil.1 h]
    exact Or.inl rfl
  | cons t ts ih =>
    obtain ⟨d', hadvance, hd⟩ := completes_cons.1 h
    have hrun : d.run (t :: ts) none = (do (← d'.checked t.position).run ts none) := by
      rw [run, react, hadvance]
    rw [hrun, checked]
    cases hclash : d'.clash? with
    | some key => exact Or.inr ⟨key, t.position, rfl⟩
    | none => exact ih hd

end PropertyList.Draft

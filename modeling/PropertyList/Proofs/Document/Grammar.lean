import PropertyList.Token.Basic
import PropertyList.Tree.Basic

/-!
# The grammar of documents

The grammar is

```
document = value [";"]
value    = string | dict | array
dict     = "{" [entry {";" entry} [";"]] "}"
entry    = string "=" value
array    = "(" [value {"," value} [","]] ")"
```

A derivation denotes a tree. The items of an array and the entries of a dictionary are listed in
the order of the document, and nothing keeps a key from standing in its dictionary twice.

## Main definitions

* `Separated`, `Listing`, lists in brackets
* `ValueTokens`, `DocumentTokens`, the derivations of the grammar

## Main results

* `listing_iff` : a listing from left to right.
-/

namespace PropertyList

variable {α : Type} {P : List Token → α → Prop} {m : Mark}

/-- Phrases with a mark between neighbours, `phrase {mark phrase}`. -/
inductive Separated (P : List Token → α → Prop) (m : Mark) : List Token → List α → Prop
  | one {tokens : List Token} {a : α} (h : P tokens a) : Separated P m tokens [a]
  | cons {tokens others : List Token} {a : α} {as : List α} (h : P tokens a)
      (hs : Separated P m others as) : Separated P m (tokens ++ .mark m :: others) (a :: as)

/-- What may stand between brackets, `[phrase {mark phrase} [mark]]`. -/
inductive Listing (P : List Token → α → Prop) (m : Mark) : List Token → List α → Prop
  | empty : Listing P m [] []
  | filled {tokens trail : List Token} {as : List α} (hs : Separated P m tokens as)
      (ht : trail = [] ∨ trail = [.mark m]) : Listing P m (tokens ++ trail) as

/-- The entries of which the values are phrases, `string "=" phrase`. -/
inductive EntryTokens (P : List Token → Tree → Prop) : List Token → Text × Tree → Prop
  | intro {k : Token} {key : Text} {tokens : List Token} {t : Tree} (hk : k.string? = some key)
      (h : P tokens t) : EntryTokens P (k :: .mark .equals :: tokens) (key, t)

/-- The tokens of a value and the tree that they denote. -/
inductive ValueTokens : List Token → Tree → Prop
  | string {t : Token} {s : Text} (h : t.string? = some s) : ValueTokens [t] (.string s)
  | array {tokens : List Token} {items : List Tree} (h : Listing ValueTokens .comma tokens items) :
      ValueTokens (.mark .openParen :: tokens ++ [.mark .closeParen]) (.array items)
  | dict {tokens : List Token} {entries : List (Text × Tree)}
      (h : Listing (EntryTokens ValueTokens) .semicolon tokens entries) :
      ValueTokens (.mark .openBrace :: tokens ++ [.mark .closeBrace]) (.dict entries)

/-- The tokens of a document, the end of the input included, and the tree that they denote. -/
inductive DocumentTokens : List Token → Tree → Prop
  | intro {tokens trail : List Token} {t : Tree} (h : ValueTokens tokens t)
      (ht : trail = [] ∨ trail = [.mark .semicolon]) :
      DocumentTokens (tokens ++ trail ++ [.ending]) t

/-- What may stand behind a phrase of a listing. -/
inductive ListingTail (P : List Token → α → Prop) (m : Mark) : List Token → List α → Prop
  | nil : ListingTail P m [] []
  | mark {tokens : List Token} {as : List α} (h : Listing P m tokens as) :
      ListingTail P m (.mark m :: tokens) as

/-- A listing is nothing or a phrase and what may stand behind it. -/
theorem listing_iff {tokens : List Token} {as : List α} :
    Listing P m tokens as ↔ (tokens = [] ∧ as = []) ∨
      ∃ first tail a more, tokens = first ++ tail ∧ as = a :: more ∧ P first a ∧
        ListingTail P m tail more := by
  constructor
  · rintro (_ | ⟨hs, ht⟩)
    · exact Or.inl ⟨rfl, rfl⟩
    · refine Or.inr ?_
      cases hs with
      | one h =>
        rcases ht with rfl | rfl
        · exact ⟨_, _, _, _, rfl, rfl, h, .nil⟩
        · exact ⟨_, _, _, _, rfl, rfl, h, .mark .empty⟩
      | cons h hs =>
        exact ⟨_, _, _, _, List.append_assoc _ _ _, rfl, h, .mark (.filled hs ht)⟩
  · rintro (⟨rfl, rfl⟩ | ⟨first, tail, a, more, rfl, rfl, h, htail⟩)
    · exact .empty
    · cases htail with
      | nil => exact .filled (.one h) (Or.inl rfl)
      | mark hlisting =>
        cases hlisting with
        | empty => exact .filled (.one h) (Or.inr rfl)
        | filled hs ht =>
          have hcons := Listing.filled (.cons h hs) ht
          rwa [List.append_assoc, List.cons_append] at hcons

theorem Listing.cons {first tail : List Token} {a : α} {more : List α} (h : P first a)
    (htail : ListingTail P m tail more) : Listing P m (first ++ tail) (a :: more) :=
  listing_iff.2 (Or.inr ⟨first, tail, a, more, rfl, rfl, h, htail⟩)

end PropertyList

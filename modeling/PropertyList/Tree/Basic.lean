import PropertyList.Text.Display

/-!
# Trees

The value of a document: strings, arrays of values and dictionaries from strings to values. The
entries of a dictionary are listed in the order in which it is read. That order is decided by the
bytes of the keys, and where different keys have the same bytes by when they were added, so it is
not part of what makes two dictionaries equal.

## Main definitions

* `Tree`, with `Tree.size`, the number of values in a tree
* `Tree.same`, equality of trees up to the order of entries; `=` tells the orders apart
* `Tree.display`, the tree as messages and listings show it
-/

namespace PropertyList

/-- A property list value. -/
inductive Tree where
  | string (value : Text)
  | array (items : List Tree)
  | dict (entries : List (Text × Tree))
  deriving Inhabited

namespace Tree

mutual

/-- The number of values in a tree, keys not counted. -/
def size : Tree → Nat
  | string _ => 1
  | array items => 1 + sizeItems items
  | dict entries => 1 + sizeEntries entries

/-- The number of values in a list of items. -/
def sizeItems : List Tree → Nat
  | [] => 0
  | t :: ts => t.size + sizeItems ts

/-- The number of values in a list of entries. -/
def sizeEntries : List (Text × Tree) → Nat
  | [] => 0
  | (_, t) :: entries => t.size + sizeEntries entries

end

mutual

/-- Whether two trees are equal. Dictionaries are equal when they have the same keys with equal
values. -/
def same : Tree → Tree → Bool
  | string s, string t => s == t
  | array items, array others => sameItems items others
  | dict entries, dict others =>
    entries.length == others.length && sameEntries entries others
  | _, _ => false

/-- Whether two lists of items are equal, item by item. -/
def sameItems : List Tree → List Tree → Bool
  | [], [] => true
  | t :: ts, u :: us => t.same u && sameItems ts us
  | _, _ => false

/-- Whether every entry has an equal one under its key in `others`. -/
def sameEntries : List (Text × Tree) → List (Text × Tree) → Bool
  | [], _ => true
  | (key, t) :: entries, others =>
    (match others.lookup key with
      | some u => t.same u
      | none => false) && sameEntries entries others

end

mutual

/-- A tree as listings show it. -/
def display : Tree → Text
  | string s => "PlistString(" ++ s.display ++ ")"
  | array items => "PlistArray([" ++ Text.join ", " (displayItems items) ++ "])"
  | dict entries => "PlistDict(\x7b" ++ Text.join ", " (displayEntries entries) ++ "\x7d)"

/-- The items of an array as listings show them. -/
def displayItems : List Tree → List Text
  | [] => []
  | t :: ts => t.display :: displayItems ts

/-- The entries of a dictionary as listings show them. -/
def displayEntries : List (Text × Tree) → List Text
  | [] => []
  | (key, t) :: entries => (key.display ++ ": " ++ t.display) :: displayEntries entries

end

mutual

/-- Whether two trees are identical, the order of entries included. -/
def decEq : (t u : Tree) → Decidable (t = u)
  | string s, string t => decidable_of_iff (s = t) (by simp)
  | array ts, array us => @decidable_of_iff _ (ts = us) (by simp) (decEqItems ts us)
  | dict es, dict fs => @decidable_of_iff _ (es = fs) (by simp) (decEqEntries es fs)
  | string _, array _ | string _, dict _ | array _, string _ | array _, dict _
  | dict _, string _ | dict _, array _ => isFalse (by simp)

/-- Whether two lists of items are identical. -/
def decEqItems : (ts us : List Tree) → Decidable (ts = us)
  | [], [] => isTrue rfl
  | t :: ts, u :: us =>
    @decidable_of_iff _ (t = u ∧ ts = us) (by simp)
      (@instDecidableAnd _ _ (t.decEq u) (decEqItems ts us))
  | [], _ :: _ | _ :: _, [] => isFalse (by simp)

/-- Whether two lists of entries are identical. -/
def decEqEntries : (es fs : List (Text × Tree)) → Decidable (es = fs)
  | [], [] => isTrue rfl
  | (k, t) :: es, (l, u) :: fs =>
    @decidable_of_iff _ (k = l ∧ t = u ∧ es = fs) (by simp [and_assoc])
      (@instDecidableAnd _ _ (inferInstanceAs (Decidable (k = l)))
        (@instDecidableAnd _ _ (t.decEq u) (decEqEntries es fs)))
  | [], _ :: _ | _ :: _, [] => isFalse (by simp)

end

instance : DecidableEq Tree := decEq

end Tree

end PropertyList

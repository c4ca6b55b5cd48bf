import Mathlib
import PropertyList.Tree.Basic

/-!
# Going through trees

A tree is taken apart by induction on how its containers are nested. What is said of all strings
of a tree, or of all its dictionaries, is said of the lists that collect them.

## Main definitions

* `Tree.induction`
* `Tree.texts`, the keys and string values of a tree
* `Tree.keyLists`, the keys of each of its dictionaries
* `Tree.mapTexts`, the tree with other strings
-/

namespace PropertyList.Tree

/-- Induction over trees: a container may assume the statement of everything that it holds. -/
@[elab_as_elim, induction_eliminator]
theorem induction {motive : Tree → Prop} (string : ∀ s, motive (.string s))
    (array : ∀ items, (∀ t ∈ items, motive t) → motive (.array items))
    (dict : ∀ entries, (∀ e ∈ entries, motive e.2) → motive (.dict entries)) (t : Tree) :
    motive t :=
  @Tree.rec motive (fun items => ∀ t ∈ items, motive t)
    (fun entries => ∀ e ∈ entries, motive e.2) (fun e => motive e.2) string array dict
    (fun _ h => absurd h List.not_mem_nil) (fun _ _ ht hts => List.forall_mem_cons.2 ⟨ht, hts⟩)
    (fun _ h => absurd h List.not_mem_nil) (fun _ _ he hes => List.forall_mem_cons.2 ⟨he, hes⟩)
    (fun _ _ ht => ht) t

/-! ### Sizes -/

theorem sizeItems_eq (items : List Tree) : sizeItems items = (items.map size).sum := by
  induction items with
  | nil => rfl
  | cons t ts ih => rw [sizeItems, ih, List.map_cons, List.sum_cons]

theorem sizeEntries_eq (entries : List (Text × Tree)) :
    sizeEntries entries = (entries.map fun e => e.2.size).sum := by
  induction entries with
  | nil => rfl
  | cons e es ih => rw [sizeEntries, ih, List.map_cons, List.sum_cons]

@[simp]
theorem size_string (s : Text) : (string s).size = 1 := rfl

@[simp]
theorem size_array (items : List Tree) : (array items).size = 1 + (items.map size).sum := by
  rw [size, sizeItems_eq]

@[simp]
theorem size_dict (entries : List (Text × Tree)) :
    (dict entries).size = 1 + (entries.map fun e => e.2.size).sum := by
  rw [size, sizeEntries_eq]

/-! ### Strings -/

mutual

/-- The keys and string values of a tree. -/
def texts : Tree → List Text
  | string s => [s]
  | array items => textsItems items
  | dict entries => textsEntries entries

/-- The keys and string values of a list of items. -/
def textsItems : List Tree → List Text
  | [] => []
  | t :: ts => t.texts ++ textsItems ts

/-- The keys and string values of a list of entries. -/
def textsEntries : List (Text × Tree) → List Text
  | [] => []
  | (key, t) :: entries => key :: t.texts ++ textsEntries entries

end

@[simp]
theorem texts_string (s : Text) : (string s).texts = [s] := rfl

@[simp]
theorem texts_array (items : List Tree) : (array items).texts = items.flatMap texts := by
  rw [texts]
  induction items with
  | nil => rfl
  | cons t ts ih => rw [textsItems, ih, List.flatMap_cons]

@[simp]
theorem texts_dict (entries : List (Text × Tree)) :
    (dict entries).texts = entries.flatMap fun e => e.1 :: e.2.texts := by
  rw [texts]
  induction entries with
  | nil => rfl
  | cons e es ih => rw [textsEntries, ih, List.flatMap_cons]

/-! ### Dictionaries -/

mutual

/-- The keys of each dictionary in a tree. -/
def keyLists : Tree → List (List Text)
  | string _ => []
  | array items => keyListsItems items
  | dict entries => entries.map (·.1) :: keyListsEntries entries

/-- The keys of each dictionary in a list of items. -/
def keyListsItems : List Tree → List (List Text)
  | [] => []
  | t :: ts => t.keyLists ++ keyListsItems ts

/-- The keys of each dictionary in the values of a list of entries. -/
def keyListsEntries : List (Text × Tree) → List (List Text)
  | [] => []
  | (_, t) :: entries => t.keyLists ++ keyListsEntries entries

end

@[simp]
theorem keyLists_string (s : Text) : (string s).keyLists = [] := rfl

@[simp]
theorem keyLists_array (items : List Tree) :
    (array items).keyLists = items.flatMap keyLists := by
  rw [keyLists]
  induction items with
  | nil => rfl
  | cons t ts ih => rw [keyListsItems, ih, List.flatMap_cons]

@[simp]
theorem keyLists_dict (entries : List (Text × Tree)) :
    (dict entries).keyLists =
      entries.map (·.1) :: entries.flatMap fun e => e.2.keyLists := by
  rw [keyLists]
  congr 1
  induction entries with
  | nil => rfl
  | cons e es ih => rw [keyListsEntries, ih, List.flatMap_cons]

/-- Something holds of all dictionaries of an array exactly if it does for each item. -/
theorem forall_mem_keyLists_array {P : List Text → Prop} {items : List Tree} :
    (∀ keys ∈ (array items).keyLists, P keys) ↔ ∀ t ∈ items, ∀ keys ∈ t.keyLists, P keys := by
  simp only [keyLists_array, List.mem_flatMap, forall_exists_index, and_imp]
  exact ⟨fun h t ht keys hk => h keys t ht hk, fun h keys t ht hk => h t ht keys hk⟩

/-- Something holds of all dictionaries of a dictionary exactly if it holds of its own keys and
does so for each of its values. -/
theorem forall_mem_keyLists_dict {P : List Text → Prop} {entries : List (Text × Tree)} :
    (∀ keys ∈ (dict entries).keyLists, P keys) ↔
      P (entries.map (·.1)) ∧ ∀ e ∈ entries, ∀ keys ∈ e.2.keyLists, P keys := by
  simp only [keyLists_dict, List.forall_mem_cons, List.mem_flatMap, forall_exists_index, and_imp]
  exact and_congr_right fun _ =>
    ⟨fun h e he keys hk => h keys e he hk, fun h keys e he hk => h e he keys hk⟩

/-! ### Other strings -/

mutual

/-- The tree with `f s` in the place of every key and string value `s`. -/
def mapTexts (f : Text → Text) : Tree → Tree
  | string s => string (f s)
  | array items => array (mapTextsItems f items)
  | dict entries => dict (mapTextsEntries f entries)

/-- The items with other strings. -/
def mapTextsItems (f : Text → Text) : List Tree → List Tree
  | [] => []
  | t :: ts => t.mapTexts f :: mapTextsItems f ts

/-- The entries with other strings. -/
def mapTextsEntries (f : Text → Text) : List (Text × Tree) → List (Text × Tree)
  | [] => []
  | (key, t) :: entries => (f key, t.mapTexts f) :: mapTextsEntries f entries

end

variable {f : Text → Text}

@[simp]
theorem mapTexts_string (s : Text) : (string s).mapTexts f = string (f s) := rfl

@[simp]
theorem mapTexts_array (items : List Tree) :
    (array items).mapTexts f = array (items.map (mapTexts f)) := by
  rw [mapTexts]
  congr 1
  induction items with
  | nil => rfl
  | cons t ts ih => rw [mapTextsItems, ih, List.map_cons]

@[simp]
theorem mapTexts_dict (entries : List (Text × Tree)) :
    (dict entries).mapTexts f = dict (entries.map fun e => (f e.1, e.2.mapTexts f)) := by
  rw [mapTexts]
  congr 1
  induction entries with
  | nil => rfl
  | cons e es ih => rw [mapTextsEntries, ih, List.map_cons]

theorem keyLists_mapTexts (t : Tree) :
    (t.mapTexts f).keyLists = t.keyLists.map (List.map f) := by
  induction t with
  | string s => rfl
  | array items ih =>
    rw [mapTexts_array, keyLists_array, keyLists_array, List.flatMap_map, List.map_flatMap]
    exact List.flatMap_congr ih
  | dict entries ih =>
    rw [mapTexts_dict, keyLists_dict, keyLists_dict, List.flatMap_map, List.map_cons,
      List.map_flatMap, List.map_map, List.map_map]
    exact congrArg _ (List.flatMap_congr ih)

private theorem map_eq_self_iff {α : Type} {g : α → α} {l : List α} :
    l.map g = l ↔ ∀ a ∈ l, g a = a := by
  have h := List.map_inj_left (l := l) (f := g) (g := id)
  rwa [List.map_id] at h

/-- A tree stays as it is exactly if each of its strings does. -/
theorem mapTexts_eq_self_iff {t : Tree} : t.mapTexts f = t ↔ ∀ s ∈ t.texts, f s = s := by
  induction t with
  | string s => simp
  | array items ih =>
    rw [mapTexts_array, array.injEq, texts_array, map_eq_self_iff]
    simp only [List.mem_flatMap, forall_exists_index, and_imp]
    exact ⟨fun h s t ht hs => (ih t ht).1 (h t ht) s hs, fun h t ht => (ih t ht).2 (h · t ht)⟩
  | dict entries ih =>
    rw [mapTexts_dict, dict.injEq, texts_dict, map_eq_self_iff]
    simp only [List.mem_flatMap, List.mem_cons, forall_exists_index, and_imp]
    constructor
    · intro h s e he hs
      have heq := Prod.ext_iff.1 (h e he)
      rcases hs with rfl | hs
      · exact heq.1
      · exact (ih e he).1 heq.2 s hs
    · intro h e he
      exact Prod.ext (h e.1 e he (Or.inl rfl))
        ((ih e he).2 fun s hs => h s e he (Or.inr hs))

end PropertyList.Tree

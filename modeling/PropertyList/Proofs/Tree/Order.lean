import PropertyList.Proofs.Dict.Order
import PropertyList.Proofs.Text.Encoding
import PropertyList.Proofs.Tree.Traversal

/-!
# Trees in the order of reading

The entries of a dictionary in a tree may be listed in any order. A tree is *ordered* when they
are listed as a dictionary is read, and that is how objects are shown. Listing them so is to
*arrange* the tree.

A tree is recoded string by string. Different keys that are written with the same bytes *collide*:
they become the same key. Where no keys collide the recoding of an ordered tree is ordered, and
there is only one order of the entries, so that equality up to the order of entries is identity.

## Main definitions

* `Tree.UniqueKeys`, `Tree.Ordered`, `Tree.Colliding`, `Tree.Stable`
* `Tree.arrange`, `Tree.recode`

## Main results

* `Tree.ordered_arrange`, `Tree.arrange_eq_self`
* `Tree.uniqueKeys_recode_iff`, `Tree.ordered_recode`
* `Tree.same_iff_eq`, `Tree.same_arrange`
* `Tree.same_symm`, `Tree.same_trans`
-/

namespace PropertyList.Tree

/-- Whether no dictionary in a tree has a key twice. -/
def UniqueKeys (t : Tree) : Prop :=
  ∀ keys ∈ t.keyLists, keys.Nodup

/-- Whether every dictionary in a tree has different keys and lists them in the order of
reading. -/
def Ordered (t : Tree) : Prop :=
  ∀ keys ∈ t.keyLists, keys.Nodup ∧ keys.Pairwise fun k l => k.byBytes l

/-- Whether some dictionary in a tree has two different keys that are written with the same
bytes. -/
def Colliding (t : Tree) : Prop :=
  ∃ keys ∈ t.keyLists, ∃ k ∈ keys, ∃ l ∈ keys, k ≠ l ∧ k.encode = l.encode

/-- Whether every key and string value of a tree is read back as itself. -/
def Stable (t : Tree) : Prop :=
  ∀ s ∈ t.texts, s.recode = s

instance (t : Tree) : Decidable t.UniqueKeys :=
  inferInstanceAs (Decidable (∀ keys ∈ t.keyLists, keys.Nodup))

instance (t : Tree) : Decidable t.Ordered :=
  inferInstanceAs (Decidable (∀ keys ∈ t.keyLists, keys.Nodup ∧
    keys.Pairwise fun k l => k.byBytes l))

instance (t : Tree) : Decidable t.Colliding :=
  inferInstanceAs (Decidable (∃ keys ∈ t.keyLists, ∃ k ∈ keys, ∃ l ∈ keys, k ≠ l ∧
    k.encode = l.encode))

instance (t : Tree) : Decidable t.Stable :=
  inferInstanceAs (Decidable (∀ s ∈ t.texts, s.recode = s))

theorem Ordered.uniqueKeys {t : Tree} (h : t.Ordered) : t.UniqueKeys :=
  fun keys hk => (h keys hk).1

theorem uniqueKeys_array {items : List Tree} :
    (array items).UniqueKeys ↔ ∀ t ∈ items, t.UniqueKeys :=
  forall_mem_keyLists_array

theorem uniqueKeys_dict {entries : List (Text × Tree)} :
    (dict entries).UniqueKeys ↔
      (entries.map (·.1)).Nodup ∧ ∀ e ∈ entries, e.2.UniqueKeys :=
  forall_mem_keyLists_dict

theorem ordered_array {items : List Tree} : (array items).Ordered ↔ ∀ t ∈ items, t.Ordered :=
  forall_mem_keyLists_array

theorem ordered_dict {entries : List (Text × Tree)} :
    (dict entries).Ordered ↔
      ((entries.map (·.1)).Nodup ∧ (entries.map (·.1)).Pairwise fun k l => k.byBytes l) ∧
        ∀ e ∈ entries, e.2.Ordered :=
  forall_mem_keyLists_dict

theorem not_colliding_iff {t : Tree} :
    ¬ t.Colliding ↔ ∀ keys ∈ t.keyLists, ∀ k ∈ keys, ∀ l ∈ keys, k.encode = l.encode → k = l := by
  simp only [Colliding, not_exists, not_and]
  exact forall₂_congr fun keys _ => forall₂_congr fun k _ => forall₂_congr fun l _ =>
    ⟨fun h he => Classical.byContradiction fun hne => h hne he, fun h hne he => hne (h he)⟩

/-! ### Arranging -/

mutual

/-- The tree with the entries of each dictionary in the order of reading. -/
def arrange : Tree → Tree
  | string s => string s
  | array items => array (arrangeItems items)
  | dict entries => dict ((arrangeEntries entries).mergeSort Dict.byBytes)

/-- The items, arranged one by one. -/
def arrangeItems : List Tree → List Tree
  | [] => []
  | t :: ts => t.arrange :: arrangeItems ts

/-- The entries with arranged values. -/
def arrangeEntries : List (Text × Tree) → List (Text × Tree)
  | [] => []
  | (key, t) :: entries => (key, t.arrange) :: arrangeEntries entries

end

@[simp]
theorem arrange_string (s : Text) : (string s).arrange = string s := rfl

@[simp]
theorem arrange_array (items : List Tree) : (array items).arrange = array (items.map arrange) := by
  rw [arrange]
  congr 1
  induction items with
  | nil => rfl
  | cons t ts ih => rw [arrangeItems, ih, List.map_cons]

@[simp]
theorem arrange_dict (entries : List (Text × Tree)) :
    (dict entries).arrange =
      dict ((entries.map fun e => (e.1, e.2.arrange)).mergeSort Dict.byBytes) := by
  rw [arrange]
  congr 2
  induction entries with
  | nil => rfl
  | cons e es ih => rw [arrangeEntries, ih, List.map_cons]

/-- Arranging keeps the number of values. -/
@[simp]
theorem size_arrange (t : Tree) : t.arrange.size = t.size := by
  induction t with
  | string s => rfl
  | array items ih =>
    rw [arrange_array, size_array, size_array, List.map_map]
    exact congrArg (fun l : List Nat => 1 + l.sum) (List.map_congr_left ih)
  | dict entries ih =>
    have hperm := (List.mergeSort_perm (entries.map fun e => (e.1, e.2.arrange))
      Dict.byBytes).map fun e => e.2.size
    rw [arrange_dict, size_dict, size_dict, hperm.sum_nat, List.map_map]
    exact congrArg (fun l : List Nat => 1 + l.sum) (List.map_congr_left ih)

/-- The keys of an arranged dictionary. -/
private theorem map_fst_mergeSort (entries : List (Text × Tree)) :
    ((entries.map fun e => (e.1, e.2.arrange)).mergeSort Dict.byBytes).map (·.1) =
      (entries.map (·.1)).mergeSort Text.byBytes := by
  rw [List.map_mergeSort (r := Dict.byBytes) (s := Text.byBytes) (f := fun e : Text × Tree => e.1)
    fun _ _ _ _ => rfl, List.map_map]
  rfl

/-- Arranging a tree without repeated keys makes it ordered. -/
theorem ordered_arrange {t : Tree} (h : t.UniqueKeys) : t.arrange.Ordered := by
  induction t with
  | string s => exact fun keys hk => absurd hk List.not_mem_nil
  | array items ih =>
    rw [arrange_array, ordered_array]
    intro u hu
    obtain ⟨t, ht, rfl⟩ := List.mem_map.1 hu
    exact ih t ht (uniqueKeys_array.1 h t ht)
  | dict entries ih =>
    obtain ⟨hnodup, hvalues⟩ := uniqueKeys_dict.1 h
    rw [arrange_dict, ordered_dict, map_fst_mergeSort]
    refine ⟨⟨(List.mergeSort_perm _ _).nodup_iff.2 hnodup,
      List.pairwise_mergeSort Text.byBytes_trans Text.byBytes_total _⟩, fun f hf => ?_⟩
    obtain ⟨e, he, rfl⟩ := List.mem_map.1 (List.mem_mergeSort.1 hf)
    exact ih e he (hvalues e he)

/-- Arranging changes nothing in an ordered tree. -/
theorem arrange_eq_self {t : Tree} (h : t.Ordered) : t.arrange = t := by
  induction t with
  | string s => rfl
  | array items ih =>
    rw [arrange_array, List.map_congr_left fun t ht => ih t ht (ordered_array.1 h t ht),
      List.map_id']
  | dict entries ih =>
    obtain ⟨⟨-, hsorted⟩, hvalues⟩ := ordered_dict.1 h
    have hsame : (entries.map fun e => (e.1, e.2.arrange)) = entries.map id :=
      List.map_congr_left fun e he => Prod.ext rfl (ih e he (hvalues e he))
    have hpairwise : entries.Pairwise fun e f => Dict.byBytes e f := List.pairwise_map.1 hsorted
    rw [arrange_dict, hsame, List.map_id, List.mergeSort_of_pairwise hpairwise]

/-! ### Recoding -/

/-- The tree with every key and string value recoded. -/
def recode (t : Tree) : Tree :=
  t.mapTexts Text.recode

theorem recode_eq_self_iff {t : Tree} : t.recode = t ↔ t.Stable :=
  mapTexts_eq_self_iff

/-- The keys of a dictionary come to be the same if they collide. -/
theorem uniqueKeys_recode_iff {t : Tree} (h : t.UniqueKeys) :
    t.recode.UniqueKeys ↔ ¬ t.Colliding := by
  rw [not_colliding_iff, UniqueKeys, recode, keyLists_mapTexts, List.forall_mem_map]
  refine forall₂_congr fun keys hk => ?_
  rw [List.nodup_map_iff_inj_on (h keys hk)]
  simp only [Text.recode_eq_recode_iff]

/-- Recoding keeps the order of keys, which depends on their bytes. -/
theorem ordered_recode {t : Tree} (h : t.Ordered) (hc : ¬ t.Colliding) : t.recode.Ordered := by
  have hunique := (uniqueKeys_recode_iff h.uniqueKeys).2 hc
  intro recoded hr
  refine ⟨hunique recoded hr, ?_⟩
  rw [recode, keyLists_mapTexts] at hr
  obtain ⟨keys, hk, rfl⟩ := List.mem_map.1 hr
  refine List.pairwise_map.2 ((h keys hk).2.imp fun {k l} hkl => ?_)
  simpa only [Text.byBytes, Text.precedes, Text.encode_recode] using hkl

theorem not_colliding_recode {t : Tree} : ¬ t.recode.Colliding := by
  rw [not_colliding_iff, recode, keyLists_mapTexts, List.forall_mem_map]
  intro keys _ k hk l hl he
  obtain ⟨k, -, rfl⟩ := List.mem_map.1 hk
  obtain ⟨l, -, rfl⟩ := List.mem_map.1 hl
  rw [← Text.recode_recode k, ← Text.recode_recode l]
  exact Text.recode_eq_recode_iff.2 he

/-- Stable keys are told apart by their bytes. -/
theorem Stable.not_colliding {t : Tree} (h : t.Stable) : ¬ t.Colliding := by
  rw [← recode_eq_self_iff.2 h]
  exact not_colliding_recode

/-! ### Equality up to the order of entries -/

/-- Lists of items are equal item by item. -/
theorem sameItems_iff_eq {ts us : List Tree} (h : ∀ t ∈ ts, ∀ u ∈ us, t.same u ↔ t = u) :
    sameItems ts us ↔ ts = us := by
  induction ts generalizing us with
  | nil => cases us <;> simp [sameItems]
  | cons t ts ih =>
    cases us with
    | nil => simp [sameItems]
    | cons u us =>
      rw [sameItems, Bool.and_eq_true, h t List.mem_cons_self u List.mem_cons_self,
        ih fun t ht u hu => h t (List.mem_cons_of_mem _ ht) u (List.mem_cons_of_mem _ hu),
        List.cons.injEq]

theorem sameEntries_iff {entries others : List (Text × Tree)} :
    sameEntries entries others ↔
      ∀ e ∈ entries, ∃ u, others.lookup e.1 = some u ∧ e.2.same u := by
  induction entries with
  | nil => simp [sameEntries]
  | cons e es ih =>
    rw [sameEntries, Bool.and_eq_true, ih, List.forall_mem_cons]
    refine and_congr_left fun _ => ?_
    cases others.lookup e.1 <;> simp

/-- Where no keys collide, the order of reading leaves no choice. -/
private theorem keys_eq_of_subset {keys others : List Text} (hnodup : keys.Nodup)
    (hsorted : keys.Pairwise fun k l => k.byBytes l)
    (hsorted' : others.Pairwise fun k l => k.byBytes l)
    (hc : ∀ k ∈ keys, ∀ l ∈ keys, k.encode = l.encode → k = l)
    (hsub : keys ⊆ others) (hlen : others.length ≤ keys.length) : keys = others := by
  have hperm : keys.Perm others := (List.subperm_of_subset hnodup hsub).perm_of_length_le hlen
  refine hperm.eq_of_pairwise (fun k l hk hl hkl hlk => ?_) hsorted hsorted'
  exact hc k hk l (hperm.mem_iff.2 hl) (Text.encode_eq_of_not_precedes (Text.byBytes_iff.1 hlk)
    (Text.byBytes_iff.1 hkl))

/-- **Equality is identity where no keys collide.** Of two ordered trees that are equal up to the
order of entries, one without colliding keys is the other. -/
theorem same_iff_eq {t u : Tree} (ht : t.Ordered) (hc : ¬ t.Colliding) (hu : u.Ordered) :
    t.same u ↔ t = u := by
  rw [not_colliding_iff] at hc
  induction t generalizing u with
  | string s => cases u <;> simp [same]
  | array items ih =>
    cases u with
    | string s => simp [same]
    | dict entries => simp [same]
    | array others =>
      rw [same, array.injEq]
      exact sameItems_iff_eq fun t hmem u hmem' => ih t hmem (ordered_array.1 ht t hmem)
        (forall_mem_keyLists_array.1 hc t hmem) (ordered_array.1 hu u hmem')
  | dict entries ih =>
    cases u with
    | string s => simp [same]
    | array items => simp [same]
    | dict others =>
      obtain ⟨⟨hnodup, hsorted⟩, hvalues⟩ := ordered_dict.1 ht
      obtain ⟨⟨hnodup', hsorted'⟩, hvalues'⟩ := ordered_dict.1 hu
      obtain ⟨hck, hcv⟩ := forall_mem_keyLists_dict.1 hc
      rw [same, Bool.and_eq_true, beq_iff_eq, sameEntries_iff, dict.injEq]
      constructor
      · rintro ⟨hlen, hentries⟩
        have hsub : entries ⊆ others := by
          intro e he
          obtain ⟨u, hlookup, hsame⟩ := hentries e he
          obtain ⟨l₁, l₂, rfl, -⟩ := List.lookup_eq_some_iff.1 hlookup
          have hmem : (e.1, u) ∈ l₁ ++ (e.1, u) :: l₂ := by simp
          have heq : e.2 = u :=
            (ih e he (hvalues e he) (hcv e he) (hvalues' (e.1, u) hmem)).1 hsame
          exact heq ▸ hmem
        have hkeys := keys_eq_of_subset hnodup hsorted hsorted' hck (List.map_subset _ hsub)
          (by rw [List.length_map, List.length_map, hlen])
        rw [← Dict.filterMap_lookup hnodup' hsub, hkeys,
          Dict.filterMap_lookup hnodup' (List.Subset.refl others)]
      · rintro rfl
        exact ⟨rfl, fun e he => ⟨e.2, Dict.lookup_of_mem hnodup he,
          (ih e he (hvalues e he) (hcv e he) (hvalues e he)).2 rfl⟩⟩

/-- Arranging the entries does not make a tree a different one. -/
theorem same_arrange {t : Tree} (ht : t.UniqueKeys) : t.arrange.same t := by
  induction t with
  | string s => rw [arrange_string, same, beq_self_eq_true]
  | array items ih =>
    rw [arrange_array, same]
    have hitems := fun t hmem => ih t hmem (uniqueKeys_array.1 ht t hmem)
    clear ih ht
    induction items with
    | nil => rfl
    | cons t ts ih =>
      obtain ⟨hsame, hrest⟩ := List.forall_mem_cons.1 hitems
      rw [List.map_cons, sameItems, hsame, ih hrest]
      rfl
  | dict entries ih =>
    obtain ⟨hnodup, hvalues⟩ := uniqueKeys_dict.1 ht
    rw [arrange_dict, same, List.length_mergeSort, List.length_map, beq_self_eq_true, Bool.true_and,
      sameEntries_iff]
    intro e he
    obtain ⟨e, hmem, rfl⟩ := List.mem_map.1 (List.mem_mergeSort.1 he)
    exact ⟨e.2, Dict.lookup_of_mem hnodup hmem, ih e hmem (hvalues e hmem)⟩

theorem sameItems_iff {ts us : List Tree} :
    sameItems ts us ↔ List.Forall₂ (fun t u => t.same u) ts us := by
  induction ts generalizing us with
  | nil => cases us <;> simp [sameItems]
  | cons t ts ih =>
    cases us with
    | nil => simp [sameItems]
    | cons u us => rw [sameItems, Bool.and_eq_true, List.forall₂_cons, ih]

theorem eq_of_same_string {s : Text} {u : Tree} (h : (string s).same u) : u = string s := by
  cases u with
  | string t => rw [beq_iff_eq.1 (show (s == t) = true from h)]
  | array others => cases h
  | dict others => cases h

theorem exists_of_same_array {items : List Tree} {u : Tree} (h : (array items).same u) :
    ∃ others, u = array others ∧ List.Forall₂ (fun t u => t.same u) items others := by
  cases u with
  | string t => cases h
  | array others => exact ⟨others, rfl, sameItems_iff.1 h⟩
  | dict others => cases h

theorem same_dict_iff {entries others : List (Text × Tree)} :
    (dict entries).same (dict others) ↔ entries.length = others.length ∧
      ∀ e ∈ entries, ∃ u, others.lookup e.1 = some u ∧ e.2.same u := by
  rw [same, Bool.and_eq_true, beq_iff_eq, sameEntries_iff]

theorem exists_of_same_dict {entries : List (Text × Tree)} {u : Tree}
    (h : (dict entries).same u) : ∃ others, u = dict others := by
  cases u with
  | string t => cases h
  | array others => cases h
  | dict others => exact ⟨others, rfl⟩

theorem same_trans {t u v : Tree} (h : t.same u) (h' : u.same v) : t.same v := by
  induction t generalizing u v with
  | string s => rwa [eq_of_same_string h] at h'
  | array items ih =>
    obtain ⟨others, rfl, hitems⟩ := exists_of_same_array h
    obtain ⟨further, rfl, hothers⟩ := exists_of_same_array h'
    rw [same, sameItems_iff]
    clear h h'
    induction hitems generalizing further with
    | nil => rwa [List.forall₂_nil_left_iff] at hothers ⊢
    | cons hfirst _ ihs =>
      obtain ⟨w, ws, hw, hws, rfl⟩ := List.forall₂_cons_left_iff.1 hothers
      exact .cons (ih _ List.mem_cons_self hfirst hw)
        (ihs (fun t ht => ih t (List.mem_cons_of_mem _ ht)) ws hws)
  | dict entries ih =>
    obtain ⟨others, rfl⟩ := exists_of_same_dict h
    obtain ⟨further, rfl⟩ := exists_of_same_dict h'
    obtain ⟨hlength, hentries⟩ := same_dict_iff.1 h
    obtain ⟨hlength', hothers⟩ := same_dict_iff.1 h'
    refine same_dict_iff.2 ⟨hlength.trans hlength', fun e he => ?_⟩
    obtain ⟨u, hu, hsame⟩ := hentries e he
    obtain ⟨front, rest, rfl, -⟩ := List.lookup_eq_some_iff.1 hu
    obtain ⟨v, hv, hsame'⟩ := hothers (e.1, u) (List.mem_append_right _ List.mem_cons_self)
    exact ⟨v, hv, ih e he hsame hsame'⟩

theorem same_symm {t u : Tree} (ht : t.UniqueKeys) (hu : u.UniqueKeys) (h : t.same u) :
    u.same t := by
  induction t generalizing u with
  | string s =>
    obtain rfl := eq_of_same_string h
    exact h
  | array items ih =>
    obtain ⟨others, rfl, hitems⟩ := exists_of_same_array h
    rw [uniqueKeys_array] at ht hu
    rw [same, sameItems_iff]
    clear h
    induction hitems with
    | nil => exact .nil
    | cons hfirst _ ihs =>
      obtain ⟨ht, hts⟩ := List.forall_mem_cons.1 ht
      obtain ⟨hu, hus⟩ := List.forall_mem_cons.1 hu
      exact .cons (ih _ List.mem_cons_self ht hu hfirst)
        (ihs (fun t ht => ih t (List.mem_cons_of_mem _ ht)) hts hus)
  | dict entries ih =>
    obtain ⟨others, rfl⟩ := exists_of_same_dict h
    obtain ⟨hlength, hentries⟩ := same_dict_iff.1 h
    obtain ⟨hnodup, hvalues⟩ := uniqueKeys_dict.1 ht
    obtain ⟨hnodup', hvalues'⟩ := uniqueKeys_dict.1 hu
    have hsubset : entries.map (·.1) ⊆ others.map (·.1) := by
      refine List.forall_mem_map.2 fun e he => ?_
      obtain ⟨u, hlookup, -⟩ := hentries e he
      obtain ⟨front, rest, rfl, -⟩ := List.lookup_eq_some_iff.1 hlookup
      exact List.mem_map.2 ⟨(e.1, u), List.mem_append_right _ List.mem_cons_self, rfl⟩
    -- There are as many keys on either side, so those of the one are those of the other.
    have hkeys := (List.subperm_of_subset hnodup hsubset).perm_of_length_le
      (by rw [List.length_map, List.length_map, hlength])
    refine same_dict_iff.2 ⟨hlength.symm, fun o ho => ?_⟩
    obtain ⟨e, he, hkey⟩ := List.mem_map.1 (hkeys.mem_iff.2 (List.mem_map_of_mem ho))
    obtain ⟨u, hlookup, hsame⟩ := hentries e he
    have hvalue := Dict.lookup_of_mem hnodup' ho
    rw [← hkey, hlookup, Option.some.injEq] at hvalue
    subst hvalue
    exact ⟨e.2, hkey ▸ Dict.lookup_of_mem hnodup he,
      ih e he (hvalues e he) (hvalues' o ho) hsame⟩

/-- Trees that are equal up to the order of entries stay so when they are arranged. -/
theorem same_arrange_arrange {t u : Tree} (ht : t.UniqueKeys) (hu : u.UniqueKeys)
    (h : t.same u) : t.arrange.same u.arrange :=
  same_trans (same_arrange ht)
    (same_trans h (same_symm (ordered_arrange hu).uniqueKeys hu (same_arrange hu)))

end PropertyList.Tree

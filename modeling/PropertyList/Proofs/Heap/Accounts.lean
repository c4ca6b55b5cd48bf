import PropertyList.Proofs.Heap.Census
import PropertyList.Proofs.Heap.Holding

/-!
# Accounts of references

The accounts of a heap balance if every object counts one reference for each claim that is made to
it from outside and for each position that it has in a container in use, and if the heap counts
the objects in use. Taking a reference adds a claim, and adding an object to a container turns a
claim into a position.

Giving back a reference is performed duty by duty, and in between the accounts balance with what
the duties are still going to give back: a claim for each reference that is to be given back, and
the items of each array that is being unloaded. So no duty ever meets a destroyed object, whatever
the objects refer to. That containers may come to hold themselves is not excluded.

## Main definitions

* `Heap.Accounts`
* `Duty.owed`, `Heap.Settling`, the accounts while duties are performed

## Main results

* `Heap.Accounts.insert`, `Heap.Accounts.retain`, `Heap.Accounts.add`, `Heap.Accounts.push`
* `Heap.Accounts.release`
* `Heap.Holds.accounts`, for objects that are put together by somebody else
-/

namespace PropertyList

namespace Heap

/-- The accounts of a heap balance: `claims` are the references that are not held by containers in
use, and `leaving` is the number of destroyed objects that are still to be counted out. -/
structure Accounts (h : Heap) (claims : ObjectId → Nat) (leaving : Nat) : Prop where
  refs_eq : ∀ id, (h.object id).refs = claims id + h.positions id
  live_eq : h.live = h.population + leaving

variable {h h' : Heap} {id : ObjectId} {o : Object} {claims claims' : ObjectId → Nat} {n m : Nat}

namespace Accounts

theorem congr (ha : h.Accounts claims n) (hclaims : ∀ i, claims' i = claims i) :
    h.Accounts claims' n :=
  ⟨fun i => by rw [hclaims]; exact ha.refs_eq i, ha.live_eq⟩

/-- The accounts of the empty heap. -/
theorem empty : Heap.empty.Accounts (fun _ => 0) 0 where
  refs_eq id := by rw [object_of_le (Nat.zero_le id)]; rfl
  live_eq := rfl

/-- Replacing an object leaves the accounts balanced if its own references, its positions and the
claims change together. -/
theorem set (ha : h.Accounts claims n) (hid : id < h.objects.size)
    (hself : o.refs + claims id + (h.object id).positions id =
      (h.object id).refs + claims' id + o.positions id)
    (hothers : ∀ i, i ≠ id →
      claims i + (h.object id).positions i = claims' i + o.positions i)
    (hlive : n + (h.object id).presence = m + o.presence) :
    (h.set id o).Accounts claims' m where
  refs_eq i := by
    have hpositions : (h.set id o).positions i + (h.object id).positions i =
        h.positions i + o.positions i := total_set hid o _
    have hrefs := ha.refs_eq i
    by_cases hi : i = id
    · subst hi
      rw [object_set_self hid]
      omega
    · have := hothers i hi
      rw [object_set_of_ne hi]
      omega
  live_eq := by
    have hpopulation : (h.set id o).population + (h.object id).presence =
        h.population + o.presence := total_set hid o _
    have := ha.live_eq
    rw [live_set]
    omega

/-- A new object without parts is claimed by whoever has made it. -/
theorem insert (ha : h.Accounts claims n) {c : Content} (hc : c.parts = []) :
    (h.insert c).Accounts (fun i => (if i = h.objects.size then 1 else 0) + claims i) n where
  refs_eq i := by
    have hpositions : (h.insert c).positions i = h.positions i + Object.positions i ⟨1, c⟩ :=
      total_insert c _
    rw [Object.positions_of_succ, hc, List.count_nil] at hpositions
    have hrefs := ha.refs_eq i
    by_cases hi : i = h.objects.size
    · rw [hi, object_of_le (Nat.le_refl _)] at hrefs
      rw [if_pos hi, hpositions, hi, object_insert_self]
      change 0 = _ at hrefs
      change 1 = _
      omega
    · rw [if_neg hi, hpositions, object_insert_of_ne hi]
      omega
  live_eq := by
    have hpopulation : (h.insert c).population = h.population + Object.presence ⟨1, c⟩ :=
      total_insert c _
    rw [Object.presence_of_succ] at hpopulation
    rw [live_insert, ha.live_eq]
    omega

/-! ### Operations -/

private theorem exists_object_eq_succ (hid : (h.object id).refs ≠ 0) :
    ∃ k c, h.object id = ⟨k + 1, c⟩ := by
  obtain ⟨k, hk⟩ := Nat.exists_eq_add_one_of_ne_zero hid
  exact ⟨k, (h.object id).content, by rw [← hk]⟩

/-- Taking a reference to an object in use adds a claim and leaves what objects hold. -/
theorem retain (ha : h.Accounts claims n) (hid : (h.object id).refs ≠ 0) :
    ∃ h', Heap.retain id h = .ok () h' ∧
      h'.Accounts (fun i => (if i = id then 1 else 0) + claims i) n ∧
      ∀ i, (h'.object i).content = (h.object i).content ∧
        ((h.object i).refs ≠ 0 → (h'.object i).refs ≠ 0) := by
  obtain ⟨k, c, ho⟩ := exists_object_eq_succ hid
  have hlt : id < h.objects.size := lt_size_of_refs (Nat.pos_of_ne_zero hid)
  refine ⟨_, retain_eq ho, ha.set hlt ?_ (fun i hi => ?_) ?_, fun i => ?_⟩
  · rw [ho, if_pos rfl, Object.positions_of_succ, Object.positions_of_succ]
    dsimp only
    omega
  · rw [ho, if_neg hi, Object.positions_of_succ, Object.positions_of_succ, Nat.zero_add]
  · rw [ho, Object.presence_of_succ, Object.presence_of_succ]
  · by_cases hi : i = id
    · rw [hi, object_set_self hlt, ho]
      exact ⟨rfl, fun _ => Nat.succ_ne_zero _⟩
    · rw [object_set_of_ne hi]
      exact ⟨rfl, fun h => h⟩

/-- A claim to an object becomes a position of the object. -/
theorem setContent {value : ObjectId} {c : Content}
    (ha : h.Accounts (fun i => (if i = value then 1 else 0) + claims i) n)
    (hid : (h.object id).refs ≠ 0)
    (hc : c.parts.Perm (value :: (h.object id).content.parts)) :
    (h.setContent id c).Accounts claims n := by
  obtain ⟨k, c₀, ho⟩ := exists_object_eq_succ hid
  have hlt : id < h.objects.size := lt_size_of_refs (Nat.pos_of_ne_zero hid)
  have hcount (i : ObjectId) : c.parts.count i = c₀.parts.count i + if i = value then 1 else 0 := by
    rw [hc.count_eq, ho, List.count_cons]
    simp only [beq_iff_eq, @eq_comm _ i]
  rw [Heap.setContent, ho]
  refine ha.set hlt ?_ (fun i _ => ?_) ?_
  · rw [ho, Object.positions_of_succ, Object.positions_of_succ, hcount]
    dsimp only
    omega
  · rw [ho, Object.positions_of_succ, Object.positions_of_succ, hcount]
    omega
  · rw [ho, Object.presence_of_succ, Object.presence_of_succ]

/-- Adding an entry to a dictionary in use leaves the accounts balanced, also if the key is
refused. -/
theorem add {dict value : ObjectId} (ha : h.Accounts claims n) (key : Text)
    (hdict : (h.object dict).refs ≠ 0) (hvalue : (h.object value).refs ≠ 0) :
    ∃ added h', Heap.add dict key value h = .ok added h' ∧ h'.Accounts claims n := by
  cases hcontent : (h.object dict).content with
  | dict d =>
    cases hkey : d.contains key with
    | true => exact ⟨false, h, add_of_contains hcontent hkey, ha⟩
    | false =>
      obtain ⟨h₁, hretain, ha₁, hsame⟩ := ha.retain hvalue
      refine ⟨true, _, add_of_retain hcontent hkey hretain, ha₁.setContent ?_ ?_⟩
      · exact (hsame dict).2 hdict
      · rw [(hsame dict).1, hcontent, Content.parts, Dict.values, Dict.add, List.map_append]
        exact List.perm_append_singleton value d.values
  | _ => exact ⟨false, h, add_of_ne_dict (by simp [hcontent]), ha⟩

/-- Appending an item to an array in use leaves the accounts balanced. -/
theorem push {array item : ObjectId} (ha : h.Accounts claims n)
    (harray : (h.object array).refs ≠ 0) (hitem : (h.object item).refs ≠ 0) :
    ∃ h', Heap.push array item h = .ok () h' ∧ h'.Accounts claims n := by
  cases hcontent : (h.object array).content with
  | array reversed =>
    obtain ⟨h₁, hretain, ha₁, hsame⟩ := ha.retain hitem
    refine ⟨_, push_of_retain hcontent hretain, ha₁.setContent ?_ ?_⟩
    · exact (hsame array).2 harray
    · rw [(hsame array).1, hcontent]
      exact List.Perm.refl _
  | _ => exact ⟨h, push_of_ne_array (by simp [hcontent]), ha⟩

end Accounts

end Heap

/-! ### Giving references back -/

/-- The number of references to an object that a duty is going to give back. -/
def Duty.owed (h : Heap) (id : ObjectId) : Duty → Nat
  | release i => if id = i then 1 else 0
  | unload array => (h.object array).content.parts.count id
  | countOut => 0

/-- Counts a destroyed object that a duty is going to count out. -/
def Duty.leaving : Duty → Nat
  | release _ => 0
  | unload _ | countOut => 1

/-- The array that a duty unloads. -/
def Duty.array? : Duty → Option ObjectId
  | unload array => some array
  | release _ | countOut => none

namespace Heap

variable {h : Heap} {id : ObjectId} {o : Object} {claims : ObjectId → Nat} {n : Nat}
  {duties : List Duty}

/-- The number of references to an object that duties are going to give back. -/
def owed (h : Heap) (id : ObjectId) (duties : List Duty) : Nat :=
  (duties.map (Duty.owed h id)).sum

/-- The accounts balance with what the duties are going to give back and to count out. Arrays that
are being unloaded are destroyed, and there is one duty for each. -/
structure Settling (h : Heap) (claims : ObjectId → Nat) (duties : List Duty) : Prop where
  accounts : h.Accounts (fun i => claims i + h.owed i duties) (duties.map Duty.leaving).sum
  unloading : ∀ a ∈ duties.filterMap Duty.array?, ∃ reversed, h.object a = ⟨0, .array reversed⟩
  nodup : (duties.filterMap Duty.array?).Nodup

theorem owed_append (front : List Duty) :
    h.owed id (front ++ duties) = h.owed id front + h.owed id duties := by
  rw [owed, List.map_append, List.sum_append]
  rfl

theorem owed_map_release (ids : List ObjectId) : h.owed id (ids.map .release) = ids.count id := by
  induction ids with
  | nil => rfl
  | cons i ids ih =>
    rw [owed, List.map_cons, List.map_cons, List.sum_cons, List.count_cons, Nat.add_comm, ← ih]
    simp only [Duty.owed, beq_iff_eq, @eq_comm _ id]
    rfl

/-- What duties owe depends on no object but the arrays that they unload. -/
theorem owed_set (hid : id ∉ duties.filterMap Duty.array?) (i : ObjectId) :
    (h.set id o).owed i duties = h.owed i duties := by
  refine congrArg List.sum (List.map_congr_left fun d hd => ?_)
  cases d with
  | unload a =>
    have hne : a ≠ id := fun h => hid (List.mem_filterMap.2 ⟨_, hd, congrArg some h⟩)
    rw [Duty.owed, object_set_of_ne hne]
    rfl
  | _ => rfl

namespace Settling

/-- The duties in front are replaced by others when an object is replaced, of which the others
unload at most that object. -/
theorem set (front front' : List Duty) (hs : h.Settling claims (front ++ duties))
    (hid : id < h.objects.size) (hduties : id ∉ duties.filterMap Duty.array?)
    (hself : o.refs + h.owed id front + (h.object id).positions id =
      (h.object id).refs + (h.set id o).owed id front' + o.positions id)
    (hothers : ∀ i, i ≠ id →
      h.owed i front + (h.object id).positions i = (h.set id o).owed i front' + o.positions i)
    (hleaving : (front.map Duty.leaving).sum + (h.object id).presence =
      (front'.map Duty.leaving).sum + o.presence)
    (hfront : front'.filterMap Duty.array? = [] ∨
      front'.filterMap Duty.array? = [id] ∧ ∃ reversed, o = ⟨0, .array reversed⟩) :
    (h.set id o).Settling claims (front' ++ duties) where
  accounts := by
    refine hs.accounts.set hid ?_ (fun i hi => ?_) ?_
    · simp only [owed_append, owed_set hduties]
      omega
    · have := hothers i hi
      simp only [owed_append, owed_set hduties]
      omega
    · simp only [List.map_append, List.sum_append]
      omega
  unloading := by
    have hsame : ∀ a ∈ duties.filterMap Duty.array?,
        ∃ reversed, (h.set id o).object a = ⟨0, .array reversed⟩ := fun a ha => by
      have hne : a ≠ id := fun h => hduties (h ▸ ha)
      rw [object_set_of_ne hne]
      exact hs.unloading a (by rw [List.filterMap_append]; exact List.mem_append_right _ ha)
    rw [List.filterMap_append]
    rcases hfront with hnil | ⟨hone, ho⟩
    · rwa [hnil]
    · rw [hone]
      exact List.forall_mem_cons.2 ⟨by rwa [object_set_self hid], hsame⟩
  nodup := by
    have hnodup := hs.nodup
    rw [List.filterMap_append] at hnodup ⊢
    replace hnodup := (List.nodup_append'.1 hnodup).2.1
    rcases hfront with hnil | ⟨hone, -⟩
    · rwa [hnil]
    · rw [hone]
      exact List.nodup_cons.2 ⟨hduties, hnodup⟩

/-- An object in use is not being unloaded. -/
theorem not_unloading (hs : h.Settling claims duties) (hid : (h.object id).refs ≠ 0) :
    id ∉ duties.filterMap Duty.array? := fun hmem => by
  obtain ⟨reversed, ho⟩ := hs.unloading id hmem
  rw [ho] at hid
  exact hid rfl

/-- A reference is given back to an object that counts it. -/
theorem refs_pos (hs : h.Settling claims (.release id :: duties)) : (h.object id).refs ≠ 0 := by
  have hrefs := hs.accounts.refs_eq id
  rw [owed, List.map_cons, List.sum_cons, Duty.owed, if_pos rfl] at hrefs
  omega

theorem countOut (hs : h.Settling claims (.countOut :: duties)) :
    Settling { h with live := h.live - 1 } claims duties where
  accounts.refs_eq i := by
    have hrefs := hs.accounts.refs_eq i
    rwa [owed, List.map_cons, List.sum_cons, Duty.owed, Nat.zero_add] at hrefs
  accounts.live_eq := by
    have hlive := hs.accounts.live_eq
    rw [List.map_cons, List.sum_cons, Duty.leaving] at hlive
    change h.live - 1 = h.population + _
    omega
  unloading := hs.unloading
  nodup := hs.nodup

section Unload

variable {array : ObjectId}

theorem exists_object_eq (hs : h.Settling claims (.unload array :: duties)) :
    ∃ reversed, h.object array = ⟨0, .array reversed⟩ :=
  hs.unloading array List.mem_cons_self

/-- An array without items is only to be counted out. -/
theorem unload_nil (hs : h.Settling claims (.unload array :: duties))
    (ho : (h.object array).content = .array []) : h.Settling claims (.countOut :: duties) where
  accounts := by
    refine hs.accounts.congr fun i => ?_
    rw [owed, owed, List.map_cons, List.map_cons, List.sum_cons, List.sum_cons, Duty.owed,
      Duty.owed, ho]
    rfl
  unloading a ha := hs.unloading a (List.mem_cons_of_mem array ha)
  nodup := (List.nodup_cons.1 hs.nodup).2

/-- The last item of an array is given back before the others. -/
theorem unload_cons {item : ObjectId} {reversed : List ObjectId}
    (hs : h.Settling claims (.unload array :: duties))
    (hc : (h.object array).content = .array (item :: reversed)) :
    (h.setContent array (.array reversed)).Settling claims
      (.release item :: .unload array :: duties) := by
  obtain ⟨items, ho⟩ := hs.exists_object_eq
  obtain rfl : items = item :: reversed := by rw [ho] at hc; exact Content.array.inj hc
  have hid : array < h.objects.size := lt_size_of_weight (by
    rw [ho, Object.weight, Content.parts, List.length_cons]
    omega)
  have howed (i : ObjectId) : h.owed i [.unload array] =
      (h.set array ⟨0, .array reversed⟩).owed i [.release item, .unload array] := by
    simp only [owed, List.map_cons, List.map_nil, List.sum_cons, List.sum_nil, Duty.owed, ho,
      object_set_self hid, Content.parts, List.count_cons, beq_iff_eq, @eq_comm _ i]
    omega
  rw [setContent, ho]
  refine Settling.set [.unload array] [.release item, .unload array] hs hid
    (List.nodup_cons.1 hs.nodup).1 ?_ (fun i _ => ?_) ?_ (Or.inr ⟨rfl, reversed, rfl⟩)
  · rw [ho, howed]
    rfl
  · rw [ho, howed]
    rfl
  · rw [ho]
    rfl

end Unload

section Release

/-- What owing a reference amounts to. -/
private theorem owed_release (i : ObjectId) :
    h.owed i [.release id] = if i = id then 1 else 0 := rfl

theorem release_string {s : Text} (hs : h.Settling claims (.release id :: duties))
    (ho : h.object id = ⟨1, .string s⟩) :
    (h.set id ⟨0, .string s⟩).Settling claims (.countOut :: duties) := by
  have hid : id < h.objects.size := lt_size_of_refs (Nat.pos_of_ne_zero hs.refs_pos)
  refine Settling.set [.release id] [.countOut] hs hid
    (hs.not_unloading hs.refs_pos) ?_ (fun i hi => ?_) ?_ (Or.inl rfl)
  · rw [ho, owed_release, if_pos rfl]
    rfl
  · rw [ho, owed_release, if_neg hi]
    rfl
  · rw [ho]
    rfl

theorem release_array {reversed : List ObjectId} (hs : h.Settling claims (.release id :: duties))
    (ho : h.object id = ⟨1, .array reversed⟩) :
    (h.set id ⟨0, .array reversed⟩).Settling claims (.unload id :: duties) := by
  have hid : id < h.objects.size := lt_size_of_refs (Nat.pos_of_ne_zero hs.refs_pos)
  have howed (i : ObjectId) :
      (h.set id ⟨0, .array reversed⟩).owed i [.unload id] = reversed.count i := by
    rw [owed, List.map_singleton, List.sum_singleton, Duty.owed, object_set_self hid]
    rfl
  refine Settling.set [.release id] [.unload id] hs hid
    (hs.not_unloading hs.refs_pos) ?_ (fun i hi => ?_) ?_
    (Or.inr ⟨rfl, reversed, rfl⟩)
  · rw [ho, owed_release, if_pos rfl, howed, Object.positions_of_succ, Object.positions_of_zero]
    dsimp only [Content.parts]
    omega
  · rw [ho, owed_release, if_neg hi, howed, Object.positions_of_succ, Object.positions_of_zero,
      Nat.zero_add]
    rfl
  · rw [ho]
    rfl

theorem release_dict {d : Dict ObjectId} (hs : h.Settling claims (.release id :: duties))
    (ho : h.object id = ⟨1, .dict d⟩) :
    (h.set id ⟨0, .dict .empty⟩).Settling claims
      (d.values.map .release ++ .countOut :: duties) := by
  have hid : id < h.objects.size := lt_size_of_refs (Nat.pos_of_ne_zero hs.refs_pos)
  have howed (h' : Heap) (i : ObjectId) :
      h'.owed i (d.values.map .release ++ [.countOut]) = d.values.count i := by
    rw [owed_append, owed_map_release]
    rfl
  have harray : (d.values.map Duty.release ++ [Duty.countOut]).filterMap Duty.array? = [] := by
    rw [List.filterMap_append, List.filterMap_map]
    simp [Function.comp_def, Duty.array?]
  have hleaving : ((d.values.map Duty.release ++ [Duty.countOut]).map Duty.leaving).sum = 1 := by
    rw [List.map_append, List.map_map, List.sum_append]
    simp [Function.comp_def, Duty.leaving]
  rw [← List.singleton_append, ← List.append_assoc]
  refine Settling.set [.release id] _ hs hid
    (hs.not_unloading hs.refs_pos) ?_ (fun i hi => ?_) ?_ (Or.inl harray)
  · rw [ho, owed_release, if_pos rfl, howed, Object.positions_of_succ, Object.positions_of_zero]
    dsimp only [Content.parts]
    omega
  · rw [ho, owed_release, if_neg hi, howed, Object.positions_of_succ, Object.positions_of_zero,
      Nat.zero_add]
    rfl
  · rw [ho, hleaving]
    rfl

/-- A reference that is not the last one is given back. -/
theorem release_shared {k : Nat} {c : Content} (hs : h.Settling claims (.release id :: duties))
    (ho : h.object id = ⟨k + 2, c⟩) : (h.set id ⟨k + 1, c⟩).Settling claims duties := by
  have hid : id < h.objects.size := lt_size_of_refs (Nat.pos_of_ne_zero hs.refs_pos)
  refine Settling.set [.release id] [] hs hid
    (hs.not_unloading hs.refs_pos) ?_ (fun i hi => ?_) ?_ (Or.inl rfl)
  · rw [ho, owed_release, if_pos rfl, Object.positions_of_succ, Object.positions_of_succ]
    rfl
  · rw [ho, owed_release, if_neg hi]
    rfl
  · rw [ho]
    rfl

end Release

/-- **Duties can be performed**, and what the heap counts then is claimed from outside or has a
position. -/
theorem settle (hs : h.Settling claims duties) :
    ∃ h', h.settle duties = .ok () h' ∧ h'.Accounts claims 0 := by
  have exists_eq {h : Heap} {id : ObjectId} {c : Content} (h1 : (h.object id).refs = 1)
      (hc : (h.object id).content = c) : h.object id = ⟨1, c⟩ := by rw [← h1, ← hc]
  fun_induction Heap.settle h duties with
  | case1 h => exact ⟨h, rfl, hs.accounts⟩
  | case2 h duties ih => exact ih hs.countOut
  | case3 h array duties item reversed hc ih => exact ih (hs.unload_cons hc)
  | case4 h array duties hc ih => exact ih (hs.unload_nil hc)
  | case5 h array duties s hc ih =>
    obtain ⟨items, ho⟩ := hs.exists_object_eq
    rw [ho] at hc
    cases hc
  | case6 h array duties d hc ih =>
    obtain ⟨items, ho⟩ := hs.exists_object_eq
    rw [ho] at hc
    cases hc
  | case7 h id duties h0 => exact absurd h0 hs.refs_pos
  | case8 h id duties h0 h1 s hc ih => exact ih (hs.release_string (exists_eq h1 hc))
  | case9 h id duties h0 h1 reversed hc ih => exact ih (hs.release_array (exists_eq h1 hc))
  | case10 h id duties h0 h1 d hc ih => exact ih (hs.release_dict (exists_eq h1 hc))
  | case11 h id duties h0 h1 ih =>
    obtain ⟨k, hk⟩ : ∃ k, (h.object id).refs = k + 2 := ⟨(h.object id).refs - 2, by omega⟩
    rw [hk] at ih ⊢
    exact ih (hs.release_shared (by rw [← hk]))

end Settling

/-- A claim is given up by giving back the reference, and nothing stops on the way. -/
theorem Accounts.release
    (ha : h.Accounts (fun i => (if i = id then 1 else 0) + claims i) 0) :
    ∃ h', Heap.release id h = .ok () h' ∧ h'.Accounts claims 0 := by
  have hs : h.Settling claims [.release id] := by
    refine ⟨ha.congr fun i => ?_, fun a ha => absurd ha List.not_mem_nil, List.nodup_nil⟩
    exact Nat.add_comm (claims i) _
  exact hs.settle

/-! ### Objects put together by somebody else -/

mutual

/-- Each occurrence of an object in a footprint is that of the owned object itself or stands for a
position in an object of the footprint. -/
theorem Owns.count_eq {id : ObjectId} {t : Tree} {foot : List ObjectId} (ho : h.Owns id t foot)
    (i : ObjectId) :
    foot.count i = [id].count i + (foot.map fun j => (h.object j).content.parts.count i).sum := by
  match ho with
  | .string ho => rw [List.map_singleton, List.sum_singleton, ho]; rfl
  | .array ho hparts =>
    rw [List.count_cons, hparts.count_eq i, List.map_cons, List.sum_cons, ho, List.count_singleton,
      Nat.add_comm]
    rfl
  | @Owns.dict _ _ parts _ _ ho hkeys hparts =>
    have hvalues : (Dict.ofList parts).values = parts.map (·.2) := by
      rw [Dict.values, Dict.entries_ofList]
    rw [List.count_cons, hparts.count_eq i, List.map_cons, List.sum_cons, ho, List.count_singleton,
      Nat.add_comm, Content.parts, hvalues]

theorem OwnsAll.count_eq {ids : List ObjectId} {ts : List Tree} {feet : List ObjectId}
    (hs : h.OwnsAll ids ts feet) (i : ObjectId) :
    feet.count i = ids.count i + (feet.map fun j => (h.object j).content.parts.count i).sum := by
  match hs with
  | .nil => rfl
  | .cons ho hs =>
    have hfoot := ho.count_eq i
    have hfeet := hs.count_eq i
    rw [List.count_singleton] at hfoot
    rw [List.count_append, List.map_append, List.sum_append, List.count_cons]
    omega

end

/-- What is put together on a heap is claimed by whoever holds it. -/
theorem Holds.accounts {base : Heap} {ids : List ObjectId} {ts : List Tree} {feet : List ObjectId}
    (hh : base.Holds h ids ts feet) (ha : base.Accounts claims 0) :
    h.Accounts (fun i => ids.count i + claims i) 0 := by
  have htotal {f : Object → Nat} (hf : ∀ c, f ⟨0, c⟩ = 0) :
      h.total f = base.total f + (feet.map fun i => f (h.object i)).sum :=
    total_eq_add hf hh.size_le hh.object_eq hh.nodup
      (fun i hi => ⟨hh.le_of_mem i hi, hh.lt_size hi⟩) hh.refs_eq_zero
  refine ⟨fun i => ?_, ?_⟩
  · have hpositions : h.positions i = base.positions i +
        (feet.map fun j => (h.object j).content.parts.count i).sum := by
      rw [positions, htotal (Object.positions_of_zero i)]
      congr 2
      refine List.map_congr_left fun j hj => ?_
      rw [Object.positions, if_neg (by rw [hh.owns.refs_eq_one j hj]; exact Nat.one_ne_zero)]
    have hrefs : (h.object i).refs = (base.object i).refs + feet.count i := by
      by_cases hi : i ∈ feet
      · rw [hh.owns.refs_eq_one i hi, List.count_eq_one_of_mem hh.nodup hi,
          object_of_le (hh.le_of_mem i hi)]
        rfl
      · rw [List.count_eq_zero_of_not_mem hi]
        by_cases hlt : i < base.objects.size
        · rw [hh.object_eq i hlt, Nat.add_zero]
        · rw [hh.refs_eq_zero i (Nat.not_lt.1 hlt) hi, object_of_le (Nat.not_lt.1 hlt)]
          rfl
    rw [hrefs, hpositions, ha.refs_eq, hh.owns.count_eq i]
    omega
  · have hpopulation : h.population = base.population + feet.length := by
      rw [population, htotal Object.presence_of_zero, ← List.map_congr_left (f := fun _ => 1),
        List.map_const', List.sum_replicate_nat, Nat.mul_one]
      · rfl
      · intro j hj
        rw [Object.presence, if_neg (by rw [hh.owns.refs_eq_one j hj]; exact Nat.one_ne_zero)]
    rw [hh.live_eq, ha.live_eq, hpopulation]
    omega

end Heap

end PropertyList

import PropertyList.Proofs.Heap.Ownership

/-!
# Giving back owned objects

Giving back the reference to an owned object destroys the objects of its footprint, counts them
out and leaves all other objects as they are. Nothing stops on the way, since no object of the
footprint is met twice.

## Main definitions

* `Heap.Released`, what giving back owned objects does to a heap

## Main results

* `Heap.Owns.release`, `Heap.OwnsAll.releaseAll`
-/

namespace PropertyList.Heap

/-- The objects listed have been destroyed and `count` objects have been counted out. -/
structure Released (h : Heap) (foot : List ObjectId) (count : Nat) (h' : Heap) : Prop where
  size_eq : h'.objects.size = h.objects.size
  refs_eq_zero : ∀ i ∈ foot, (h'.object i).refs = 0
  object_eq : ∀ i, i ∉ foot → h'.object i = h.object i
  live_eq : h'.live = h.live - count

namespace Released

variable {h h₁ h₂ : Heap} {foot feet : List ObjectId} {n m : Nat}

theorem refl (h : Heap) : Released h [] 0 h :=
  ⟨rfl, fun _ hi => absurd hi List.not_mem_nil, fun _ _ => rfl, rfl⟩

/-- What is destroyed first stays destroyed. -/
theorem trans (hr : Released h foot n h₁) (hs : Released h₁ feet m h₂) :
    Released h (foot ++ feet) (n + m) h₂ where
  size_eq := hs.size_eq.trans hr.size_eq
  refs_eq_zero i hi := by
    by_cases hfeet : i ∈ feet
    · exact hs.refs_eq_zero i hfeet
    · rw [hs.object_eq i hfeet]
      exact hr.refs_eq_zero i ((List.mem_append.1 hi).resolve_right hfeet)
  object_eq i hi := by
    rw [List.mem_append, not_or] at hi
    rw [hs.object_eq i hi.2, hr.object_eq i hi.1]
  live_eq := by rw [hs.live_eq, hr.live_eq, Nat.sub_sub]

/-- The order of the objects does not matter, nor how often they are listed. -/
theorem congr (hr : Released h foot n h₁) (hmem : ∀ i, i ∈ feet ↔ i ∈ foot) :
    Released h feet n h₁ :=
  ⟨hr.size_eq, fun i hi => hr.refs_eq_zero i ((hmem i).1 hi),
    fun i hi => hr.object_eq i fun h => hi ((hmem i).2 h), hr.live_eq⟩

theorem countOut (hr : Released h foot n h₁) :
    Released h foot (n + 1) { h₁ with live := h₁.live - 1 } :=
  ⟨hr.size_eq, hr.refs_eq_zero, hr.object_eq, by rw [hr.live_eq, Nat.sub_sub]⟩

/-- An object is destroyed by leaving no reference to it. -/
theorem set {id : ObjectId} (hid : id < h.objects.size) (c : Content) :
    Released h [id] 0 (h.set id ⟨0, c⟩) where
  size_eq := size_set
  refs_eq_zero := List.forall_mem_singleton.2 (by rw [object_set_self hid])
  object_eq i hi := object_set_of_ne fun h => hi (List.mem_singleton.2 h)
  live_eq := rfl

end Released

/-! ### One object after the other -/

/-- What a tree has to satisfy for its owned objects to be given back. -/
private def Releasable (t : Tree) : Prop :=
  ∀ {h : Heap} {id : ObjectId} {foot : List ObjectId}, h.Owns id t foot → foot.Nodup →
    ∃ h', Released h foot foot.length h' ∧
      ∀ duties, h.settle (.release id :: duties) = h'.settle duties

private theorem settle_releases {ts : List Tree} (ih : ∀ t ∈ ts, Releasable t) {h : Heap}
    {ids feet : List ObjectId} (hs : h.OwnsAll ids ts feet) (hnodup : feet.Nodup) :
    ∃ h', Released h feet feet.length h' ∧
      ∀ duties, h.settle (ids.map .release ++ duties) = h'.settle duties := by
  induction ts generalizing h ids feet with
  | nil =>
    cases hs with
    | nil => exact ⟨h, .refl h, fun _ => rfl⟩
  | cons t ts ihs =>
    cases hs with
    | cons ho hs =>
      obtain ⟨hfoot, hfeet, hdisjoint⟩ := List.nodup_append'.1 hnodup
      obtain ⟨h₁, hr₁, hsettle₁⟩ := ih t List.mem_cons_self ho hfoot
      have hs₁ : h₁.OwnsAll _ ts _ :=
        hs.frame fun i hi => hr₁.object_eq i fun hmem => hdisjoint hmem hi
      obtain ⟨h₂, hr₂, hsettle₂⟩ :=
        ihs (fun u hu => ih u (List.mem_cons_of_mem t hu)) hs₁ hfeet
      refine ⟨h₂, ?_, fun duties => ?_⟩
      · rw [List.length_append]
        exact hr₁.trans hr₂
      · rw [List.map_cons, List.cons_append, hsettle₁, hsettle₂]

/-- A destroyed array gives back its items, the last one first. -/
private theorem settle_unload {ts : List Tree} (ih : ∀ t ∈ ts, Releasable t) {h : Heap}
    {id : ObjectId} {reversed feet : List ObjectId} (ho : h.object id = ⟨0, .array reversed⟩)
    (hid : id < h.objects.size) (hs : h.OwnsAll reversed ts feet) (hnodup : (id :: feet).Nodup) :
    ∃ h', Released h (id :: feet) feet.length h' ∧
      ∀ duties, h.settle (.unload id :: duties) = h'.settle (.countOut :: duties) := by
  induction ts generalizing h reversed feet with
  | nil =>
    cases hs with
    | nil =>
      refine ⟨h, ⟨rfl, List.forall_mem_singleton.2 (by rw [ho]), fun _ _ => rfl, rfl⟩, ?_⟩
      exact fun _ => settle_unload_nil (by rw [ho])
  | cons t ts ihs =>
    cases hs with
    | @cons item _ foot reversed _ feet hitem hs =>
      obtain ⟨hnotin, hparts⟩ := List.nodup_cons.1 hnodup
      obtain ⟨hfoot, hfeet, hdisjoint⟩ := List.nodup_append'.1 hparts
      rw [List.mem_append, not_or] at hnotin
      -- The array is left with its other items, then its last item goes, then the others.
      have hr₁ := Released.set hid (.array reversed)
      have hitem₁ := hitem.frame fun i hi => hr₁.object_eq i fun h =>
        hnotin.1 (List.mem_singleton.1 h ▸ hi)
      obtain ⟨h₂, hr₂, hsettle₂⟩ := ih t List.mem_cons_self hitem₁ hfoot
      have hs₂ : h₂.OwnsAll reversed ts feet := hs.frame fun i hi => by
        rw [hr₂.object_eq i fun h => hdisjoint h hi,
          hr₁.object_eq i fun h => hnotin.2 (List.mem_singleton.1 h ▸ hi)]
      have ho₂ : h₂.object id = ⟨0, .array reversed⟩ := by
        rw [hr₂.object_eq id hnotin.1, object_set_self hid]
      have hid₂ : id < h₂.objects.size := by rwa [hr₂.size_eq, hr₁.size_eq]
      obtain ⟨h₃, hr₃, hsettle₃⟩ := ihs (fun u hu => ih u (List.mem_cons_of_mem t hu)) ho₂ hid₂ hs₂
        (List.nodup_cons.2 ⟨hnotin.2, hfeet⟩)
      refine ⟨h₃, ?_, fun duties => ?_⟩
      · have hr := (hr₁.trans hr₂).trans hr₃
        rw [Nat.zero_add, ← List.length_append] at hr
        refine hr.congr fun i => ?_
        simp only [List.mem_cons, List.mem_append, List.not_mem_nil, or_false]
        tauto
      · rw [settle_unload_cons (by rw [ho]), setContent, ho, hsettle₂, hsettle₃]

/-- Every tree can be given back, by induction on how its containers are nested. -/
private theorem releasable (t : Tree) : Releasable t := by
  induction t with
  | string s =>
    intro h id foot ho hnodup
    cases ho with
    | string ho =>
      have hid : id < h.objects.size := lt_size_of_object ho
      refine ⟨_, (Released.set hid (.string s)).countOut, fun duties => ?_⟩
      rw [settle_release_string ho, settle_countOut]
  | array items ih =>
    intro h id foot ho hnodup
    cases ho with
    | @array _ reversed _ foot ho hparts =>
      obtain ⟨hnotin, -⟩ := List.nodup_cons.1 hnodup
      have hid : id < h.objects.size := lt_size_of_object ho
      have hr₁ := Released.set hid (.array reversed)
      have hparts₁ := hparts.frame fun i hi => hr₁.object_eq i fun h =>
        hnotin (List.mem_singleton.1 h ▸ hi)
      obtain ⟨h₂, hr₂, hsettle₂⟩ := settle_unload (fun t ht => ih t (List.mem_reverse.1 ht))
        (object_set_self hid) (by rwa [size_set]) hparts₁ hnodup
      refine ⟨{ h₂ with live := h₂.live - 1 }, ?_, fun duties => ?_⟩
      · have hr := (hr₁.trans hr₂).countOut
        rw [Nat.zero_add] at hr
        exact hr.congr fun i => by simp
      · rw [settle_release_array ho, hsettle₂, settle_countOut]
  | dict entries ih =>
    intro h id foot ho hnodup
    cases ho with
    | @dict _ parts _ foot ho hkeys hparts =>
      obtain ⟨hnotin, hfoot⟩ := List.nodup_cons.1 hnodup
      have hid : id < h.objects.size := lt_size_of_object ho
      have hr₁ := Released.set hid (.dict .empty)
      have hparts₁ := hparts.frame fun i hi => hr₁.object_eq i fun h =>
        hnotin (List.mem_singleton.1 h ▸ hi)
      obtain ⟨h₂, hr₂, hsettle₂⟩ := settle_releases (List.forall_mem_map.2 ih) hparts₁ hfoot
      refine ⟨{ h₂ with live := h₂.live - 1 }, ?_, fun duties => ?_⟩
      · have hr := (hr₁.trans hr₂).countOut
        rw [Nat.zero_add] at hr
        exact hr.congr fun i => by simp
      · rw [settle_release_dict ho, Dict.values, Dict.entries_ofList, hsettle₂, settle_countOut]

/-! ### References held -/

/-- **Giving back an owned object** destroys its footprint and nothing else. -/
theorem Owns.release {h : Heap} {id : ObjectId} {t : Tree} {foot : List ObjectId}
    (ho : h.Owns id t foot) (hnodup : foot.Nodup) :
    ∃ h', release id h = .ok () h' ∧ Released h foot foot.length h' := by
  obtain ⟨h', hr, hsettle⟩ := releasable t ho hnodup
  refine ⟨h', ?_, hr⟩
  rw [Heap.release, hsettle, settle_nil]

/-- Owned objects can be given back one after the other. -/
theorem OwnsAll.releaseAll {h : Heap} {ids feet : List ObjectId} {ts : List Tree}
    (hs : h.OwnsAll ids ts feet) (hnodup : feet.Nodup) :
    ∃ h', releaseAll ids h = .ok () h' ∧ Released h feet feet.length h' := by
  induction ts generalizing h ids feet with
  | nil =>
    cases hs with
    | nil => exact ⟨h, rfl, .refl h⟩
  | cons t ts ih =>
    cases hs with
    | cons ho hs =>
      obtain ⟨hfoot, hfeet, hdisjoint⟩ := List.nodup_append'.1 hnodup
      obtain ⟨h₁, hrelease, hr₁⟩ := ho.release hfoot
      have hs₁ : h₁.OwnsAll _ ts _ :=
        hs.frame fun i hi => hr₁.object_eq i fun hmem => hdisjoint hmem hi
      obtain ⟨h₂, hreleaseAll, hr₂⟩ := ih hs₁ hfeet
      refine ⟨h₂, ?_, ?_⟩
      · simp only [Heap.releaseAll, bind, EStateM.bind, hrelease, hreleaseAll]
      · rw [List.length_append]
        exact hr₁.trans hr₂

end PropertyList.Heap

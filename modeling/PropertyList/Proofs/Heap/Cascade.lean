import PropertyList.Proofs.Heap.Evolution

/-!
# Giving back references, right or wrong

Giving back the last reference to a container destroys the container, which gives back its
references to its parts in turn. When an object down there has been destroyed before, its release
is refused, and with it the destruction of every container on the way down to it is aborted. What
these containers have not given back by then is left: the items further to the front of an array,
which stay in it, and the values further on in a dictionary, which has been emptied at the start.

The relations here follow this recursion and record the references that are given back and the
containers whose destruction is aborted. A release performed duty by duty comes to the same
(`Heap.Releases.release_eq`), and so every release is described by them.

## Main definitions

* `Settlement`, how giving back references ends
* `Heap.Releases`, `Heap.Dismantles`, `Heap.Unloads`, `Heap.ReleasesAll`

## Main results

* `Heap.Releases.release_eq`, `Heap.exists_releases`
* `Heap.Releases.evolves` : how the heap evolves with a release, however it ends.
-/

namespace PropertyList

/-- How giving back references ends. -/
inductive Settlement where
  | complete
  /-- An object had been destroyed, and the destruction of these containers was aborted. -/
  | broken (misuse : Misuse) (aborted : List ObjectId)

namespace Settlement

/-- The containers whose destruction is aborted, the outermost first. -/
def aborted : Settlement → List ObjectId
  | complete => []
  | broken _ aborted => aborted

/-- Goes on with further duties unless everything has stopped. -/
def resume : Settlement → Heap → List Duty → EStateM.Result Misuse Heap Unit
  | complete, h, duties => h.settle duties
  | broken misuse _, h, _ => .error misuse h

end Settlement

theorem Content.exists_eq_string {c : Content} (hkind : c.kind = .string) : ∃ s, c = .string s := by
  cases c with
  | string s => exact ⟨s, rfl⟩
  | dict d => cases hkind
  | array reversed => cases hkind

theorem Content.exists_eq_array {c : Content} (hkind : c.kind = .array) :
    ∃ reversed, c = .array reversed := by
  cases c with
  | string s => cases hkind
  | dict d => cases hkind
  | array reversed => exact ⟨reversed, rfl⟩

namespace Heap

mutual

/-- With a reference to an object, references to the objects `given` are given back. The object is
the first of them, unless it has been destroyed. -/
inductive Releases : Heap → ObjectId → List ObjectId → Settlement → Heap → Prop
  | refused {h id} (hrefs : (h.object id).refs = 0) :
    Releases h id [] (.broken ⟨.release, h.kind id⟩ []) h
  | lowered {h id n c} (ho : h.object id = ⟨n + 2, c⟩) :
    Releases h id [id] .complete (h.set id ⟨n + 1, c⟩)
  | string {h id s} (ho : h.object id = ⟨1, .string s⟩) :
    Releases h id [id] .complete { h.set id ⟨0, .string s⟩ with live := h.live - 1 }
  | destroyed {h id c given h'} (ho : h.object id = ⟨1, c⟩)
      (hd : Dismantles (h.set id ⟨0, c⟩) id given .complete h') :
    Releases h id (id :: given) .complete { h' with live := h'.live - 1 }
  | aborted {h id c given misuse ids h'} (ho : h.object id = ⟨1, c⟩)
      (hd : Dismantles (h.set id ⟨0, c⟩) id given (.broken misuse ids) h') :
    Releases h id (id :: given) (.broken misuse (id :: ids)) h'

/-- A container without references gives back those to its parts. -/
inductive Dismantles : Heap → ObjectId → List ObjectId → Settlement → Heap → Prop
  | dict {h id d given e h'} (hc : (h.object id).content = .dict d)
      (hr : ReleasesAll (h.setContent id (.dict .empty)) d.values given e h') :
    Dismantles h id given e h'
  | array {h id reversed given e h'} (hc : (h.object id).content = .array reversed)
      (hu : Unloads h id given e h') :
    Dismantles h id given e h'

/-- An array loses its last item, and the item a reference, as long as there are items. -/
inductive Unloads : Heap → ObjectId → List ObjectId → Settlement → Heap → Prop
  | nil {h id} (hc : (h.object id).content = .array []) : Unloads h id [] .complete h
  | cons {h id item reversed given h₁ given' e h'}
      (hc : (h.object id).content = .array (item :: reversed))
      (hr : Releases (h.setContent id (.array reversed)) item given .complete h₁)
      (hu : Unloads h₁ id given' e h') :
    Unloads h id (given ++ given') e h'
  | broken {h id item reversed given misuse ids h'}
      (hc : (h.object id).content = .array (item :: reversed))
      (hr : Releases (h.setContent id (.array reversed)) item given (.broken misuse ids) h') :
    Unloads h id given (.broken misuse ids) h'

/-- One object after the other loses a reference. -/
inductive ReleasesAll : Heap → List ObjectId → List ObjectId → Settlement → Heap → Prop
  | nil {h} : ReleasesAll h [] [] .complete h
  | cons {h id ids given h₁ given' e h'} (hr : Releases h id given .complete h₁)
      (hrs : ReleasesAll h₁ ids given' e h') :
    ReleasesAll h (id :: ids) (given ++ given') e h'
  | broken {h id ids given misuse aborted h'}
      (hr : Releases h id given (.broken misuse aborted) h') :
    ReleasesAll h (id :: ids) given (.broken misuse aborted) h'

end

/-! ### How the heap evolves -/

theorem content_set_zero {h : Heap} {id : ObjectId} {c : Content} (ho : h.object id = ⟨1, c⟩) :
    ((h.set id ⟨0, c⟩).object id).content = c := by
  rw [object_set_self (lt_size_of_object ho)]

/-- Only containers are dismantled. -/
theorem Dismantles.kind_ne_string {h h' : Heap} {id : ObjectId} {c : Content}
    {given : List ObjectId} {e : Settlement} (ho : h.object id = ⟨1, c⟩)
    (hd : Dismantles (h.set id ⟨0, c⟩) id given e h') : c.kind ≠ .string := by
  rw [← content_set_zero ho]
  cases hd with
  | dict hc => rw [hc]; exact ObjectKind.noConfusion
  | array hc => rw [hc]; exact ObjectKind.noConfusion

mutual

/-- However a release ends, it takes no references, and everything it gives back or aborts is
recorded. -/
theorem Releases.evolves {h h' : Heap} {id : ObjectId} {given : List ObjectId} {e : Settlement} :
    h.Releases id given e h' → h.Evolves [] given e.aborted h'
  | .refused _ => .refl h
  | .lowered ho => evolves_lower ho
  | .string ho => evolves_string ho
  | .destroyed ho hd =>
    ((evolves_expire ho (hd.kind_ne_string ho)).trans hd.evolves).countOut
  | .aborted ho hd => (evolves_expire ho (hd.kind_ne_string ho)).trans hd.evolves

theorem Dismantles.evolves {h h' : Heap} {id : ObjectId} {given : List ObjectId} {e : Settlement} :
    h.Dismantles id given e h' → h.Evolves [] given e.aborted h'
  | .dict hc hr => (evolves_setContent (by rw [kind, hc]; rfl)).trans hr.evolves
  | .array _ hu => hu.evolves

theorem Unloads.evolves {h h' : Heap} {id : ObjectId} {given : List ObjectId} {e : Settlement} :
    h.Unloads id given e h' → h.Evolves [] given e.aborted h'
  | .nil _ => .refl h
  | .cons hc hr hu =>
    ((evolves_setContent (by rw [kind, hc]; rfl)).trans hr.evolves).trans hu.evolves
  | .broken hc hr => (evolves_setContent (by rw [kind, hc]; rfl)).trans hr.evolves

theorem ReleasesAll.evolves {h h' : Heap} {ids given : List ObjectId} {e : Settlement} :
    h.ReleasesAll ids given e h' → h.Evolves [] given e.aborted h'
  | .nil => .refl h
  | .cons hr hrs => hr.evolves.trans hrs.evolves
  | .broken hr => hr.evolves

end

/-! ### Duty by duty -/

mutual

/-- The duties that follow a release are performed if it is complete. -/
theorem Releases.settle_eq {h h' : Heap} {id : ObjectId} {given : List ObjectId} {e : Settlement}
    (duties : List Duty) :
    h.Releases id given e h' → h.settle (.release id :: duties) = e.resume h' duties
  | .refused hrefs => settle_release_destroyed hrefs
  | .lowered ho => settle_release_shared ho
  | .string ho => by
    rw [settle_release_string ho, settle_countOut]
    rfl
  | .destroyed ho hd => by
    rw [hd.settle_eq ho rfl duties, Settlement.resume, settle_countOut]
    rfl
  | .aborted ho hd => hd.settle_eq ho rfl duties

theorem Dismantles.settle_eq {base h h' : Heap} {id : ObjectId} {c : Content}
    {given : List ObjectId} {e : Settlement} (ho : base.object id = ⟨1, c⟩)
    (hbase : base.set id ⟨0, c⟩ = h) (duties : List Duty) :
    h.Dismantles id given e h' →
      base.settle (.release id :: duties) = e.resume h' (.countOut :: duties)
  | .dict hc hr => by
    have hrun := hr.settle_eq (.countOut :: duties)
    subst hbase
    rw [content_set_zero ho] at hc
    rw [settle_release_dict (hc ▸ ho), ← hrun, setContent_set (lt_size_of_object ho)]
  | .array hc hu => by
    have hrun := hu.settle_eq duties
    subst hbase
    rw [content_set_zero ho] at hc
    rw [settle_release_array (hc ▸ ho), ← hrun, hc]

theorem Unloads.settle_eq {h h' : Heap} {id : ObjectId} {given : List ObjectId} {e : Settlement}
    (duties : List Duty) :
    h.Unloads id given e h' →
      h.settle (.unload id :: duties) = e.resume h' (.countOut :: duties)
  | .nil hc => settle_unload_nil hc
  | .cons hc hr hu => by
    rw [settle_unload_cons hc, hr.settle_eq]
    exact hu.settle_eq duties
  | .broken hc hr => by
    rw [settle_unload_cons hc, hr.settle_eq]
    rfl

theorem ReleasesAll.settle_eq {h h' : Heap} {ids given : List ObjectId} {e : Settlement}
    (duties : List Duty) :
    h.ReleasesAll ids given e h' →
      h.settle (ids.map .release ++ duties) = e.resume h' duties
  | .nil => rfl
  | .cons hr hrs => by
    rw [List.map_cons, List.cons_append, hr.settle_eq]
    exact hrs.settle_eq duties
  | .broken hr => hr.settle_eq _

end

theorem Releases.release_eq {h h' : Heap} {id : ObjectId} {given : List ObjectId} {e : Settlement}
    (hr : h.Releases id given e h') : release id h = e.resume h' [] :=
  hr.settle_eq []

/-! ### Every release -/

section Weight

variable {h : Heap} {id : ObjectId} {o : Object} {c : Content}

theorem weight_set_lt (hw : o.weight < (h.object id).weight) : (h.set id o).weight < h.weight := by
  have hadd := weight_set_add h id o hw
  omega

/-- With fewer references to an object the heap is lighter. -/
theorem weight_set_refs_lt {m n : Nat} (ho : h.object id = ⟨n, c⟩) (hm : m < n) :
    (h.set id ⟨m, c⟩).weight < h.weight := by
  refine weight_set_lt ?_
  simp only [ho, Object.weight]
  omega

theorem weight_setContent_le (hc : c.parts.length ≤ (h.object id).content.parts.length) :
    (h.setContent id c).weight ≤ h.weight := by
  by_cases hid : id < h.objects.size
  · have hset := weight_set hid ⟨(h.object id).refs, c⟩
    simp only [Object.weight] at hset
    change (h.set id ⟨(h.object id).refs, c⟩).weight ≤ h.weight
    omega
  · rw [setContent_of_le (Nat.not_lt.1 hid)]

end Weight

section Lighter

/-! Heaps that are lighter than `n` are assumed to allow for every release, which leaves them no
heavier. -/

variable {n : Nat} (ih : ∀ (h : Heap) (id : ObjectId), h.weight < n →
  ∃ given e h', h.Releases id given e h' ∧ h'.weight ≤ h.weight)
include ih

private theorem exists_unloads {h : Heap} {id : ObjectId} (hn : h.weight < n)
    (hkind : h.kind id = .array) :
    ∃ given e h', h.Unloads id given e h' ∧ h'.weight ≤ h.weight := by
  induction hw : h.weight using Nat.strong_induction_on generalizing h with
  | _ w ihw =>
    obtain ⟨reversed, hc⟩ := Content.exists_eq_array hkind
    cases reversed with
    | nil => exact ⟨[], .complete, h, .nil hc, hw.le⟩
    | cons item reversed =>
      have hless : (h.setContent id (.array reversed)).weight < h.weight := by
        refine weight_set_lt ?_
        simp only [Object.weight, hc, Content.parts, List.length_cons]
        omega
      obtain ⟨given, e, h₁, hr, hw₁⟩ := ih _ item (Nat.lt_trans hless hn)
      have hless₁ : h₁.weight < h.weight := Nat.lt_of_le_of_lt hw₁ hless
      cases e with
      | complete =>
        -- whatever went on below, the array is still one
        have hkind₁ : h₁.kind id = .array :=
          (((evolves_setContent (by rw [kind, hc]; rfl)).trans hr.evolves).kind_eq id
            (lt_size_of_weight (by simp [Object.weight, hc, Content.parts]))).trans hkind
        obtain ⟨given', e, h', hu, hw'⟩ :=
          ihw _ (hw ▸ hless₁) (Nat.lt_trans hless₁ hn) hkind₁ rfl
        exact ⟨_, e, h', .cons hc hr hu, by omega⟩
      | broken misuse ids => exact ⟨given, _, h₁, .broken hc hr, by omega⟩

private theorem exists_releasesAll (ids : List ObjectId) :
    ∀ h : Heap, h.weight < n →
      ∃ given e h', h.ReleasesAll ids given e h' ∧ h'.weight ≤ h.weight := by
  induction ids with
  | nil => exact fun h _ => ⟨[], .complete, h, .nil, Nat.le_refl _⟩
  | cons id ids ihs =>
    intro h hn
    obtain ⟨given, e, h₁, hr, hw⟩ := ih h id hn
    cases e with
    | complete =>
      obtain ⟨given', e, h', hrs, hw'⟩ := ihs h₁ (Nat.lt_of_le_of_lt hw hn)
      exact ⟨_, e, h', .cons hr hrs, Nat.le_trans hw' hw⟩
    | broken misuse aborted => exact ⟨given, _, h₁, .broken hr, hw⟩

private theorem exists_dismantles {h : Heap} {id : ObjectId} (hn : h.weight < n)
    (hkind : h.kind id ≠ .string) :
    ∃ given e h', h.Dismantles id given e h' ∧ h'.weight ≤ h.weight := by
  cases hc : (h.object id).content with
  | string s => exact absurd (by rw [kind, hc]; rfl) hkind
  | dict d =>
    have hle : (h.setContent id (.dict .empty)).weight ≤ h.weight :=
      weight_setContent_le (Nat.zero_le _)
    obtain ⟨given, e, h', hr, hw⟩ := exists_releasesAll ih d.values _ (Nat.lt_of_le_of_lt hle hn)
    exact ⟨given, e, h', .dict hc hr, Nat.le_trans hw hle⟩
  | array reversed =>
    obtain ⟨given, e, h', hu, hw⟩ := exists_unloads ih hn (by rw [kind, hc]; rfl)
    exact ⟨given, e, h', .array hc hu, hw⟩

end Lighter

private theorem exists_releases_weight_le (h : Heap) (id : ObjectId) :
    ∃ given e h', h.Releases id given e h' ∧ h'.weight ≤ h.weight := by
  induction hn : h.weight using Nat.strong_induction_on generalizing h id with
  | _ n ih =>
    have hlighter (h : Heap) (id : ObjectId) (hlt : h.weight < n) := ih _ hlt h id rfl
    rcases ho : h.object id with ⟨_ | _ | k, c⟩
    · exact ⟨[], _, h, .refused (by rw [ho]), hn.le⟩
    · have hless : (h.set id ⟨0, c⟩).weight < n := hn ▸ weight_set_refs_lt ho Nat.one_pos
      by_cases hkind : c.kind = .string
      · obtain ⟨s, rfl⟩ := Content.exists_eq_string hkind
        exact ⟨[id], .complete, _, .string ho, hless.le⟩
      · obtain ⟨given, e, h', hd, hw⟩ := exists_dismantles hlighter hless
          (by rwa [kind, content_set_zero ho])
        cases e with
        | complete => exact ⟨_, _, _, .destroyed ho hd, Nat.le_trans hw hless.le⟩
        | broken misuse ids => exact ⟨_, _, _, .aborted ho hd, Nat.le_trans hw hless.le⟩
    · have hless : (h.set id ⟨k + 1, c⟩).weight < n :=
        hn ▸ weight_set_refs_lt ho (Nat.lt_succ_self _)
      exact ⟨[id], .complete, _, .lowered ho, hless.le⟩

/-- Every release comes to an end. -/
theorem exists_releases (h : Heap) (id : ObjectId) : ∃ given e h', h.Releases id given e h' := by
  obtain ⟨given, e, h', hr, -⟩ := exists_releases_weight_le h id
  exact ⟨given, e, h', hr⟩

end Heap

end PropertyList

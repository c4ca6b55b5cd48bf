import PropertyList.Proofs.Heap.Order

/-!
# Dictionaries that stay as they are

What a dictionary in use holds is changed by adding entries to it, and by nothing else. Other
objects may be created, filled, shared and given back, and references to the dictionary itself may
be taken and given back. In the end the dictionary is what it was, unless it has been destroyed.

## Main definitions

* `Heap.Steady`

## Main results

* `Heap.content_after_retain`
* `Heap.steady_allocate` and the same for the other operations
-/

namespace PropertyList.Heap

/-- Whether an object has been destroyed or is the dictionary `d`. -/
structure Steady (dict : ObjectId) (d : Dict ObjectId) (h : Heap) : Prop where
  lt_size : dict < h.objects.size
  content_eq : (h.object dict).refs = 0 ∨ (h.object dict).content = .dict d

variable {h : Heap} {dict id : ObjectId} {d : Dict ObjectId} {o : Object}

theorem steady_of_dict? (hd : h.dict? dict = some d) : h.Steady dict d := by
  have hcontent := content_eq_of_dict? hd
  refine ⟨Nat.lt_of_not_le fun hle => ?_, Or.inr hcontent⟩
  rw [object_of_le hle] at hcontent
  cases hcontent

namespace Steady

theorem content_eq_of_destroyed (hh : h.Steady dict d) (huse : h.destroyed dict = false) :
    (h.object dict).content = .dict d :=
  hh.content_eq.resolve_left fun hrefs => by simp [destroyed, hrefs] at huse

theorem set (hh : h.Steady dict d) (ho : id = dict → o.refs = 0 ∨ o.content = .dict d) :
    (h.set id o).Steady dict d := by
  refine ⟨by rw [size_set]; exact hh.lt_size, ?_⟩
  by_cases hid : id = dict
  · rw [← hid, object_set_self (hid ▸ hh.lt_size)]
    exact ho hid
  · rw [object_set_of_ne (Ne.symm hid)]
    exact hh.content_eq

/-- An object may get other content unless it is the dictionary in use. -/
theorem setContent (hh : h.Steady dict d) {c : Content}
    (hid : id = dict → (h.object dict).content = .dict d → c = .dict d) :
    (h.setContent id c).Steady dict d := by
  refine hh.set fun heq => ?_
  subst heq
  exact hh.content_eq.imp (fun hrefs => hrefs) (hid rfl)

end Steady

/-! ### Operations -/

theorem steady_allocate (c : Content) : Preserves (Steady dict d) (allocate c) := by
  intro h hh
  have hne : dict ≠ h.objects.size := Nat.ne_of_lt hh.lt_size
  change (h.insert c).Steady dict d
  refine ⟨by rw [size_insert]; exact Nat.lt_succ_of_lt hh.lt_size, ?_⟩
  rw [object_insert_of_ne hne]
  exact hh.content_eq

theorem content_after_retain (h : Heap) (id i : ObjectId) :
    ((after (retain id) h).object i).content = (h.object i).content := by
  cases ho : h.object id with
  | mk refs c =>
    cases refs with
    | zero => rw [after_of_error (retain_of_destroyed (by rw [ho]))]
    | succ n =>
      rw [after_of_ok (retain_eq ho)]
      by_cases hi : i = id
      · rw [hi, object_set_self (lt_size_of_object ho), ho]
      · rw [object_set_of_ne hi]

theorem steady_retain (id : ObjectId) : Preserves (Steady dict d) (retain id) := by
  intro h hh
  cases ho : h.object id with
  | mk refs c =>
    cases refs with
    | zero => rwa [after_of_error (retain_of_destroyed (by rw [ho]))]
    | succ n =>
      rw [after_of_ok (retain_eq ho)]
      refine hh.set fun hid => Or.inr ?_
      subst hid
      have hcontent := hh.content_eq.resolve_left (by rw [ho]; exact Nat.succ_ne_zero n)
      rwa [ho] at hcontent

theorem steady_push (array item : ObjectId) : Preserves (Steady dict d) (push array item) := by
  intro h hh
  by_cases harray : ∃ reversed, (h.object array).content = .array reversed
  · obtain ⟨reversed, hcontent⟩ := harray
    have hretained := steady_retain item h hh
    have hsame := content_after_retain h item array
    cases hretain : retain item h with
    | error misuse h₁ =>
      rw [after_of_error hretain] at hretained
      rwa [after_of_error (push_of_error hcontent hretain)]
    | ok _ h₁ =>
      rw [after_of_ok hretain] at hretained hsame
      rw [after_of_ok (push_of_retain hcontent hretain)]
      refine hretained.setContent fun hid hdict => ?_
      rw [hid] at hsame hcontent
      rw [hsame, hcontent] at hdict
      cases hdict
  · rwa [after_of_ok (push_of_ne_array (not_exists.1 harray))]

/-- Entries added to other containers do not matter. -/
theorem steady_add {container : ObjectId} (hne : container ≠ dict) (key : Text)
    (value : ObjectId) : Preserves (Steady dict d) (add container key value) := by
  refine preserves_get_bind fun h _ => ?_
  split
  · exact preserves_pure false
  · split
    · exact preserves_pure false
    · exact (steady_retain value).bind fun _ => Preserves.bind
        (preserves_modify fun h₁ hh₁ => hh₁.setContent fun heq => absurd heq hne)
        fun _ => preserves_pure true

/-- Giving references back leaves what a dictionary in use holds. -/
theorem steady_settle (duties : List Duty) :
    Preserves (Steady dict d) fun h => h.settle duties := by
  intro h hh
  simp only [after]
  fun_induction Heap.settle h duties with
  | case1 h => exact hh
  | case2 h duties ih => exact ih ⟨hh.lt_size, hh.content_eq⟩
  | case3 h array duties item reversed hc ih =>
    refine ih (hh.setContent fun harray hcontent => ?_)
    rw [harray, hcontent] at hc
    cases hc
  | case4 h array duties hc ih => exact ih hh
  | case5 h array duties s hc ih => exact ih hh
  | case6 h array duties d hc ih => exact ih hh
  | case7 h id duties h0 => exact hh
  | case8 h id duties h0 h1 s hc ih => exact ih (hh.set fun _ => Or.inl rfl)
  | case9 h id duties h0 h1 reversed hc ih => exact ih (hh.set fun _ => Or.inl rfl)
  | case10 h id duties h0 h1 d hc ih => exact ih (hh.set fun _ => Or.inl rfl)
  | case11 h id duties h0 h1 ih =>
    refine ih (hh.set fun hid => Or.inr ?_)
    subst hid
    exact hh.content_eq.resolve_left h0

theorem steady_release (id : ObjectId) : Preserves (Steady dict d) (release id) :=
  steady_settle [.release id]

end PropertyList.Heap

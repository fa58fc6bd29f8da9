import Mathlib.Data.List.Nodup

/-! # Filters and prefixes

A list whose accepted elements come first is cut by their number alone, and
two lists are equal when they select from a list without repetitions and show
the same images. The last lemma compares how often two predicates hold.
-/

namespace Lists

variable {α β : Type} {l : List α}

/-- The accepted elements are a prefix of their number exactly when none of them follows a
rejected one. -/
theorem filter_eq_take_countP_iff {p : α → Bool} :
    l.filter p = l.take (l.countP p) ↔ l.Pairwise fun a b => p b → p a := by
  induction l with
  | nil => simp
  | cons a l ih =>
    by_cases ha : p a
    · rw [List.filter_cons_of_pos ha, List.countP_cons_of_pos ha, List.take_succ_cons,
        List.cons_inj_right, ih, List.pairwise_cons]
      exact ⟨fun h => ⟨fun _ _ _ => ha, h⟩, And.right⟩
    · rw [List.filter_cons_of_neg ha, List.countP_cons_of_neg ha, List.pairwise_cons]
      rcases Nat.eq_zero_or_pos (l.countP p) with hzero | hpos
      · have hnone := List.countP_eq_zero.mp hzero
        rw [hzero, List.take_zero, List.filter_eq_nil_iff]
        refine iff_of_true hnone ⟨fun b hb hpb => absurd hpb (hnone b hb), ?_⟩
        exact List.pairwise_of_forall_mem_list fun b _ c hc hpc => absurd hpc (hnone c hc)
      · obtain ⟨b, hb, hpb⟩ := List.countP_pos_iff.mp hpos
        refine iff_of_false (fun h => ?_) fun h => ha (h.1 b hb hpb)
        have hmem : a ∈ l.filter p := by
          rw [h, ← Nat.succ_pred_eq_of_pos hpos, List.take_succ_cons]
          exact List.mem_cons_self
        exact ha (List.mem_filter.mp hmem).2

theorem forall_split_cons {P : List α → α → Prop} {a : α} :
    (∀ before b after, a :: l = before ++ b :: after → P before b) ↔
      P [] a ∧ ∀ before b after, l = before ++ b :: after → P (a :: before) b := by
  constructor
  · intro h
    exact ⟨h [] a l rfl, fun before b after hl => h (a :: before) b after (by rw [hl]; rfl)⟩
  · rintro ⟨hhead, htail⟩ before b after hl
    rcases before with _ | ⟨c, before⟩
    · obtain ⟨rfl, -⟩ := List.cons_eq_cons.mp hl
      exact hhead
    · obtain ⟨rfl, hrest⟩ := List.cons_eq_cons.mp hl
      exact htail before b after hrest

theorem mem_takeWhile_map_range' {p : β → Bool} {g : ℕ → β} {b : β} (a n : ℕ) :
    b ∈ ((List.range' a n).map g).takeWhile p ↔
      ∃ i < n, (∀ j ≤ i, p (g (a + j))) ∧ g (a + i) = b := by
  induction n generalizing a with
  | zero => exact iff_of_false List.not_mem_nil fun ⟨i, hi, _⟩ => Nat.not_lt_zero i hi
  | succ n ih =>
    rw [List.range'_succ, List.map_cons]
    by_cases ha : p (g a)
    · rw [List.takeWhile_cons_of_pos ha, List.mem_cons, ih]
      constructor
      · rintro (rfl | ⟨i, hi, hall, hb⟩)
        · refine ⟨0, n.succ_pos, fun j hj => ?_, rfl⟩
          rw [Nat.le_zero.mp hj]
          exact ha
        · refine ⟨i + 1, Nat.succ_lt_succ hi, fun j hj => ?_, by rw [← hb]; congr 1; omega⟩
          rcases j with _ | j
          · exact ha
          · have hj := hall j (Nat.le_of_succ_le_succ hj)
            rwa [Nat.add_assoc, Nat.add_comm 1] at hj
      · rintro ⟨_ | i, hi, hall, hb⟩
        · exact Or.inl hb.symm
        · refine Or.inr ⟨i, Nat.lt_of_succ_lt_succ hi, fun j hj => ?_, ?_⟩
          · rw [Nat.add_assoc, Nat.add_comm 1]
            exact hall (j + 1) (Nat.succ_le_succ hj)
          · rw [← hb, Nat.add_assoc, Nat.add_comm 1]
    · rw [List.takeWhile_cons_of_neg ha]
      exact iff_of_false List.not_mem_nil fun ⟨i, _, hall, _⟩ => ha (hall 0 (Nat.zero_le i))

theorem eq_of_map_eq {f : α → β} {l₁ l₂ : List α} (hl : (l.map f).Nodup) (h₁ : l₁ ⊆ l)
    (h₂ : l₂ ⊆ l) (h : l₁.map f = l₂.map f) : l₁ = l₂ := by
  induction l₁ generalizing l₂ with
  | nil => exact (List.map_eq_nil_iff.mp h.symm).symm
  | cons a l₁ ih =>
    obtain ⟨b, l₂, rfl, hab, htail⟩ := List.map_eq_cons_iff.mp h.symm
    obtain ⟨ha, h₁⟩ := List.cons_subset.mp h₁
    obtain ⟨hb, h₂⟩ := List.cons_subset.mp h₂
    rw [ih h₁ h₂ htail.symm, List.inj_on_of_nodup_map hl hb ha hab]

theorem countP_eq_iff {p q : α → Bool} (h : ∀ a ∈ l, p a → q a) :
    l.countP p = l.countP q ↔ ∀ a ∈ l, q a → p a := by
  induction l with
  | nil => simp
  | cons a l ih =>
    have hle := List.countP_mono_left fun b hb => h b (List.mem_cons_of_mem a hb)
    have ih := ih fun b hb => h b (List.mem_cons_of_mem a hb)
    have ha := h a List.mem_cons_self
    rw [List.forall_mem_cons, ← ih, List.countP_cons, List.countP_cons]
    by_cases hp : p a
    · simp [hp, ha hp]
    · by_cases hq : q a
      · simp [hp, hq]
        omega
      · simp [hp, hq]

end Lists

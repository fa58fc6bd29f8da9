import Mathlib.Algebra.BigOperators.Group.Finset.Piecewise
import Mathlib.Data.Int.Cast.Defs
import Mathlib.Data.List.Count
import Mathlib.Tactic.Abel

/-! # Tallies

Keys are counted one by one into the first bins of an array; a key behind the
last bin is dropped. The bins then hold the number of their keys, and all of
them together the number of the keys that found a bin.
-/

namespace Lists

variable {M : Type} [AddCommGroupWithOne M] {n : ℕ}

def tally (n : ℕ) (bins : ℕ → M) (keys : List ℕ) : ℕ → M :=
  keys.foldl (fun bins k => if k < n then Function.update bins k (bins k + 1) else bins) bins

@[simp] theorem tally_nil (bins : ℕ → M) : tally n bins [] = bins := rfl

theorem tally_cons_of_lt (bins : ℕ → M) {k : ℕ} (hk : k < n) (keys : List ℕ) :
    tally n bins (k :: keys) = tally n (Function.update bins k (bins k + 1)) keys := by
  rw [tally, List.foldl_cons, if_pos hk, tally]

theorem tally_cons_of_le (bins : ℕ → M) {k : ℕ} (hk : n ≤ k) (keys : List ℕ) :
    tally n bins (k :: keys) = tally n bins keys := by
  rw [tally, List.foldl_cons, if_neg (Nat.not_lt.mpr hk), tally]

theorem tally_append (bins : ℕ → M) (keys keys' : List ℕ) :
    tally n bins (keys ++ keys') = tally n (tally n bins keys) keys' := List.foldl_append

theorem tally_apply_of_lt (bins : ℕ → M) (keys : List ℕ) {v : ℕ} (hv : v < n) :
    tally n bins keys v = bins v + (keys.count v : M) := by
  induction keys generalizing bins with
  | nil => simp
  | cons k keys ih =>
    rcases lt_or_ge k n with hk | hk
    · rw [tally_cons_of_lt bins hk, ih]
      rcases eq_or_ne v k with rfl | hne
      · rw [Function.update_self, List.count_cons_self, Nat.cast_add, Nat.cast_one, add_assoc,
          add_comm (1 : M)]
      · rw [Function.update_of_ne hne, List.count_cons_of_ne hne.symm]
    · rw [tally_cons_of_le bins hk, ih, List.count_cons_of_ne (hv.trans_le hk).ne']

theorem tally_apply_of_le (bins : ℕ → M) (keys : List ℕ) {v : ℕ} (hv : n ≤ v) :
    tally n bins keys v = bins v := by
  induction keys generalizing bins with
  | nil => rfl
  | cons k keys ih =>
    rcases lt_or_ge k n with hk | hk
    · rw [tally_cons_of_lt bins hk, ih, Function.update_of_ne (hk.trans_le hv).ne']
    · rw [tally_cons_of_le bins hk, ih]

theorem sum_tally (bins : ℕ → M) (keys : List ℕ) : ∑ v ∈ Finset.range n, tally n bins keys v =
    ∑ v ∈ Finset.range n, bins v + (keys.countP (· < n) : M) := by
  induction keys generalizing bins with
  | nil => simp
  | cons k keys ih =>
    rcases lt_or_ge k n with hk | hk
    · rw [tally_cons_of_lt bins hk, ih, List.countP_cons_of_pos (by simpa using hk),
        Finset.sum_update_of_mem (Finset.mem_range.mpr hk), Nat.cast_add, Nat.cast_one,
        ← Finset.add_sum_erase _ _ (Finset.mem_range.mpr hk), Finset.sdiff_singleton_eq_erase]
      abel
    · rw [tally_cons_of_le bins hk, ih, List.countP_cons_of_neg (by simpa using hk)]

/-- Count the keys without a test against the end of the array. -/
def incrementAll (bins : ℕ → M) (keys : List ℕ) : ℕ → M :=
  keys.foldl (fun bins k => Function.update bins k (bins k + 1)) bins

theorem incrementAll_eq_tally (bins : ℕ → M) {keys : List ℕ} (h : ∀ k ∈ keys, k < n) :
    incrementAll bins keys = tally n bins keys := by
  induction keys generalizing bins with
  | nil => rfl
  | cons k keys ih =>
    obtain ⟨hk, hkeys⟩ := List.forall_mem_cons.mp h
    rw [tally_cons_of_lt bins hk, ← ih _ hkeys]
    rfl

theorem tally_eq_self_iff (bins : ℕ → M) {keys : List ℕ}
    (h : ∀ c ≤ keys.length, (c : M) = 0 → c = 0) :
    tally n bins keys = bins ↔ ∀ k ∈ keys, n ≤ k := by
  constructor
  · intro heq k hk
    by_contra hlt
    have hbin : bins k + (keys.count k : M) = bins k := by
      rw [← tally_apply_of_lt bins keys (Nat.lt_of_not_le hlt), heq]
    have hzero := h _ List.count_le_length (add_eq_left.mp hbin)
    exact List.count_eq_zero.mp hzero hk
  · intro hle
    funext v
    rcases lt_or_ge v n with hv | hv
    · have hnot : v ∉ keys := fun hmem => absurd (hle v hmem) (Nat.not_le.mpr hv)
      rw [tally_apply_of_lt bins keys hv, List.count_eq_zero.mpr hnot, Nat.cast_zero, add_zero]
    · exact tally_apply_of_le bins keys hv

end Lists

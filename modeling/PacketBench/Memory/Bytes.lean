import Mathlib.Data.BitVec
import Mathlib.Tactic.Ring

/-! # Little-endian byte memories

A memory gives the byte at every address. `load off n` reads the `n`-bit
little-endian word from `off` on and `store off n v` writes it back. A word of
whole bytes is determined by its bytes, so a load sees the last store that
covers it and no store to other bytes.
-/

namespace Bytes

abbrev Mem := ℕ → BitVec 8

variable {m m' : Mem} {off off' n n' : ℕ}

namespace Mem

/-- The number whose base-256 digits are the `w` bytes from `off` on, the lowest first. -/
def value (m : Mem) (off : ℕ) : ℕ → ℕ
  | 0 => 0
  | w + 1 => (m off).toNat + 256 * m.value (off + 1) w

/-- The `n`-bit little-endian word from `off` on. -/
def load (m : Mem) (off n : ℕ) : BitVec n := BitVec.ofNat n (m.value off (n / 8))

/-- Write an `n`-bit word from `off` on, the lowest byte first. -/
def store (m : Mem) (off n : ℕ) (v : BitVec n) : Mem := fun a =>
  if off ≤ a ∧ a < off + n / 8 then v.extractLsb' (8 * (a - off)) 8 else m a

def copy (m : Mem) (off k : ℕ) (bytes : Mem) : Mem := fun a =>
  if off ≤ a ∧ a < off + k then bytes (a - off) else m a

def storeWords (m : Mem) (words : List (BitVec 32)) : Mem := fun a =>
  match words[a / 4]? with
  | some w => w.extractLsb' (8 * (a % 4)) 8
  | none => m a

def swap (m : Mem) (a b n : ℕ) : Mem :=
  (m.store a n (m.load b n)).store b n (m.load a n)

theorem value_lt (m : Mem) (off w : ℕ) : m.value off w < 256 ^ w := by
  induction w generalizing off with
  | zero => simp [value]
  | succ w ih =>
    have hbyte := (m off).isLt
    have htail := ih (off + 1)
    rw [value, pow_succ]
    omega

theorem value_digit (m : Mem) {off w i : ℕ} (hi : i < w) :
    m.value off w / 256 ^ i % 256 = (m (off + i)).toNat := by
  have hbyte := (m off).isLt
  induction i generalizing off w with
  | zero =>
    obtain ⟨w, rfl⟩ := Nat.exists_eq_succ_of_ne_zero (by omega : w ≠ 0)
    rw [value, pow_zero, Nat.div_one, add_zero]
    omega
  | succ i ih =>
    obtain ⟨w, rfl⟩ := Nat.exists_eq_succ_of_ne_zero (by omega : w ≠ 0)
    rw [value, pow_succ', ← Nat.div_div_eq_div_mul,
      show ((m off).toNat + 256 * m.value (off + 1) w) / 256 = m.value (off + 1) w by omega,
      ih (by omega) (m (off + 1)).isLt, show off + 1 + i = off + (i + 1) by ring]

theorem toNat_load (hn : n % 8 = 0) : (m.load off n).toNat = m.value off (n / 8) := by
  have hlt := value_lt m off (n / 8)
  rw [show 256 = 2 ^ 8 from rfl, ← pow_mul, Nat.mul_div_cancel' (Nat.dvd_of_mod_eq_zero hn)] at hlt
  unfold load
  rw [BitVec.toNat_ofNat, Nat.mod_eq_of_lt hlt]

theorem setWidth_load_low : (m.load off 32).setWidth 16 = m.load off 16 := by
  apply BitVec.eq_of_toNat_eq
  have h₀ := (m off).isLt
  have h₁ := (m (off + 1)).isLt
  rw [BitVec.toNat_setWidth, toNat_load rfl, toNat_load rfl]
  simp only [value, Nat.reduceDiv]
  omega

theorem setWidth_load_high : (m.load off 32 >>> 16).setWidth 16 = m.load (off + 2) 16 := by
  apply BitVec.eq_of_toNat_eq
  have h₀ := (m off).isLt
  have h₁ := (m (off + 1)).isLt
  have h₂ := (m (off + 2)).isLt
  have h₃ := (m (off + 3)).isLt
  rw [BitVec.toNat_setWidth, BitVec.toNat_ushiftRight, toNat_load rfl, toNat_load rfl,
    Nat.shiftRight_eq_div_pow]
  simp only [value, Nat.reduceDiv, add_assoc, Nat.reduceAdd]
  omega

theorem load_byte : m.load off 8 = m off := by
  apply BitVec.eq_of_toNat_eq
  rw [toNat_load rfl]
  simp [value]

theorem extractLsb'_load (hn : n % 8 = 0) {i : ℕ} (hi : i < n / 8) :
    (m.load off n).extractLsb' (8 * i) 8 = m (off + i) := by
  apply BitVec.eq_of_toNat_eq
  rw [BitVec.extractLsb'_toNat, toNat_load hn, Nat.shiftRight_eq_div_pow, pow_mul]
  exact value_digit m hi

theorem word_ext (hn : n % 8 = 0) {v v' : BitVec n}
    (h : ∀ i < n / 8, v.extractLsb' (8 * i) 8 = v'.extractLsb' (8 * i) 8) : v = v' := by
  apply BitVec.eq_of_getLsbD_eq
  intro j hj
  have hb := congrArg (·.getLsbD (j % 8)) (h (j / 8) (by omega))
  have hlt : j % 8 < 8 := Nat.mod_lt _ (by omega)
  simpa only [BitVec.getLsbD_extractLsb', hlt, decide_true, Bool.true_and,
    Nat.div_add_mod] using hb

theorem value_congr {w : ℕ} (h : ∀ i < w, m (off + i) = m' (off' + i)) :
    m.value off w = m'.value off' w := by
  induction w generalizing off off' with
  | zero => rfl
  | succ w ih =>
    have hhead : m off = m' off' := h 0 (by omega)
    rw [value, value, hhead, ih fun i hi => ?_]
    simpa only [add_assoc, add_comm 1] using h (i + 1) (by omega)

theorem load_congr (h : ∀ i < n / 8, m (off + i) = m' (off' + i)) :
    m.load off n = m'.load off' n := by
  rw [load, load, value_congr h]

theorem copy_apply_of_outside (bytes : Mem) {a k : ℕ} (h : a < off ∨ off + k ≤ a) :
    m.copy off k bytes a = m a := by
  unfold copy
  rw [if_neg (by omega)]

theorem load_copy_within (bytes : Mem) {d k : ℕ} (h : d + n / 8 ≤ k) :
    (m.copy off k bytes).load (off + d) n = bytes.load d n := by
  apply load_congr
  intro i hi
  unfold copy
  rw [if_pos (by omega), Nat.add_assoc, Nat.add_sub_cancel_left]

theorem load_storeWords (words : List (BitVec 32)) (j : ℕ) :
    (m.storeWords words).load (4 * j) 32 = words[j]?.getD (m.load (4 * j) 32) := by
  have hbyte : ∀ i < 4, (4 * j + i) / 4 = j ∧ (4 * j + i) % 4 = i := by omega
  cases hw : words[j]? with
  | none =>
    refine load_congr fun i hi => ?_
    simp only [storeWords, (hbyte i hi).1, hw]
  | some w =>
    refine word_ext rfl fun i hi => ?_
    rw [extractLsb'_load rfl hi]
    simp only [storeWords, (hbyte i hi).1, (hbyte i hi).2, hw, Option.getD_some]

theorem store_apply_of_outside (v : BitVec n) {a : ℕ} (h : a < off ∨ off + n / 8 ≤ a) :
    m.store off n v a = m a := by
  unfold store
  rw [if_neg (by omega)]

theorem store_apply_add (v : BitVec n) {i : ℕ} (hi : i < n / 8) :
    m.store off n v (off + i) = v.extractLsb' (8 * i) 8 := by
  unfold store
  rw [if_pos (by omega), Nat.add_sub_cancel_left]

theorem store_store_self (v w : BitVec n) : (m.store off n v).store off n w = m.store off n w := by
  funext a
  by_cases ha : off ≤ a ∧ a < off + n / 8
  · unfold store
    rw [if_pos ha, if_pos ha]
  · have hout : a < off ∨ off + n / 8 ≤ a := by omega
    rw [store_apply_of_outside _ hout, store_apply_of_outside _ hout, store_apply_of_outside _ hout]

theorem load_store_self (hn : n % 8 = 0) (v : BitVec n) : (m.store off n v).load off n = v := by
  apply word_ext hn
  intro i hi
  rw [extractLsb'_load hn hi, store_apply_add v hi]

theorem load_store_within (hn' : n' % 8 = 0) (v : BitVec n) {d : ℕ} (h : d + n' / 8 ≤ n / 8) :
    (m.store off n v).load (off + d) n' = v.extractLsb' (8 * d) n' := by
  apply word_ext hn'
  intro i hi
  rw [extractLsb'_load hn' hi, Nat.add_assoc, store_apply_add v (by omega)]
  apply BitVec.eq_of_getLsbD_eq
  intro j hj
  have hlt : 8 * i + j < n' := by omega
  simp [hlt, Nat.mul_add, Nat.add_assoc, hj]

theorem load_store_of_disjoint (v : BitVec n) (h : off' + n' / 8 ≤ off ∨ off + n / 8 ≤ off') :
    (m.store off n v).load off' n' = m.load off' n' := by
  apply load_congr
  intro i hi
  exact store_apply_of_outside v (by omega)

theorem store_load_apply (m m' : Mem) (off off' a : ℕ) (hn : n % 8 = 0) :
    m.store off n (m'.load off' n) a =
      if off ≤ a ∧ a < off + n / 8 then m' (off' + (a - off)) else m a := by
  split_ifs with h
  · obtain ⟨i, rfl⟩ := Nat.exists_eq_add_of_le h.1
    rw [store_apply_add _ (by omega), extractLsb'_load hn (by omega), Nat.add_sub_cancel_left]
  · exact store_apply_of_outside _ (by omega)

theorem swap_apply (m : Mem) (a b c : ℕ) (hn : n % 8 = 0) : m.swap a b n c =
    if b ≤ c ∧ c < b + n / 8 then m (a + (c - b))
    else if a ≤ c ∧ c < a + n / 8 then m (b + (c - a)) else m c := by
  unfold swap
  rw [store_load_apply _ _ _ _ _ hn, store_load_apply _ _ _ _ _ hn]

theorem swap_congr {a b k : ℕ} (hn : n % 8 = 0) (ha : a + n / 8 ≤ k) (hb : b + n / 8 ≤ k)
    (h : ∀ c < k, m c = m' c) : ∀ c < k, m.swap a b n c = m'.swap a b n c := by
  intro c hc
  rw [swap_apply _ _ _ _ hn, swap_apply _ _ _ _ hn]
  split_ifs <;> exact h _ (by omega)

theorem swap_apply_of_le {a b k c : ℕ} (hn : n % 8 = 0) (ha : a + n / 8 ≤ k) (hb : b + n / 8 ≤ k)
    (hc : k ≤ c) : m.swap a b n c = m c := by
  rw [swap_apply _ _ _ _ hn, if_neg (by omega), if_neg (by omega)]

/-- Exchanging twice changes nothing. -/
theorem swap_swap (m : Mem) {a b : ℕ} (hn : n % 8 = 0) (h : a + n / 8 ≤ b ∨ b + n / 8 ≤ a) :
    (m.swap a b n).swap a b n = m := by
  ext c : 1
  rw [swap_apply _ _ _ _ hn, swap_apply _ _ _ _ hn, swap_apply _ _ _ _ hn, swap_apply _ _ _ _ hn]
  split_ifs <;> first | omega | rfl | (congr 1; omega)

theorem load_swap_left (m : Mem) {a b : ℕ} (hn : n % 8 = 0) (h : a + n / 8 ≤ b ∨ b + n / 8 ≤ a) :
    (m.swap a b n).load a n = m.load b n := by
  unfold swap
  rw [load_store_of_disjoint _ h, load_store_self hn]

theorem load_swap_right (m : Mem) {a b : ℕ} (hn : n % 8 = 0) :
    (m.swap a b n).load b n = m.load a n := by
  unfold swap
  rw [load_store_self hn]

theorem load_swap_left_within (m : Mem) {a b d : ℕ} (hn : n % 8 = 0)
    (h : a + n / 8 ≤ b ∨ b + n / 8 ≤ a) (hd : d + n' / 8 ≤ n / 8) :
    (m.swap a b n).load (a + d) n' = m.load (b + d) n' := by
  apply load_congr
  intro i hi
  rw [swap_apply _ _ _ _ hn, if_neg (by omega), if_pos (by omega)]
  congr 1
  omega

theorem load_swap_right_within (m : Mem) {a b d : ℕ} (hn : n % 8 = 0) (hd : d + n' / 8 ≤ n / 8) :
    (m.swap a b n).load (b + d) n' = m.load (a + d) n' := by
  apply load_congr
  intro i hi
  rw [swap_apply _ _ _ _ hn, if_pos (by omega)]
  congr 1
  omega

theorem load_swap_of_disjoint {a b : ℕ} (ha : off + n' / 8 ≤ a ∨ a + n / 8 ≤ off)
    (hb : off + n' / 8 ≤ b ∨ b + n / 8 ≤ off) : (m.swap a b n).load off n' = m.load off n' := by
  unfold swap
  rw [load_store_of_disjoint _ hb, load_store_of_disjoint _ ha]

theorem store_comm (v : BitVec n) (v' : BitVec n')
    (h : off + n / 8 ≤ off' ∨ off' + n' / 8 ≤ off) :
    (m.store off n v).store off' n' v' = (m.store off' n' v').store off n v := by
  funext a
  unfold store
  by_cases ha : off ≤ a ∧ a < off + n / 8
  · rw [if_pos ha, if_pos ha, if_neg (by omega)]
  · rw [if_neg ha, if_neg ha]

theorem swap_comm {a b c d : ℕ} (hac : a + n / 8 ≤ c ∨ c + n' / 8 ≤ a)
    (had : a + n / 8 ≤ d ∨ d + n' / 8 ≤ a) (hbc : b + n / 8 ≤ c ∨ c + n' / 8 ≤ b)
    (hbd : b + n / 8 ≤ d ∨ d + n' / 8 ≤ b) :
    (m.swap a b n).swap c d n' = (m.swap c d n').swap a b n := by
  have hleft : (m.swap a b n).swap c d n' =
      ((m.swap a b n).store c n' (m.load d n')).store d n' (m.load c n') := by
    rw [← load_swap_of_disjoint hac.symm hbc.symm, ← load_swap_of_disjoint had.symm hbd.symm]
    rfl
  have hright : (m.swap c d n').swap a b n =
      ((m.swap c d n').store a n (m.load b n)).store b n (m.load a n) := by
    rw [← load_swap_of_disjoint hac had, ← load_swap_of_disjoint hbc hbd]
    rfl
  rw [hleft, hright, swap, swap, store_comm _ _ hbc, store_comm _ _ hac, store_comm _ _ hbd,
    store_comm _ _ had]

end Mem

end Bytes

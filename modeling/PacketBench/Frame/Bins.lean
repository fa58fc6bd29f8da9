import PacketBench.Frame.Shared
import PacketBench.Lists.Tally

/-! # Bins shared by all cores

The cores that run `histogram` add one to the bin of each word. A list of such
operations adds to a bin the number of its keys.
-/

namespace PacketBench

open Atomics

def binOps (keys : List ℕ) : List SharedOp := keys.map fun k => .add (.slot k) 1

section BinOps

variable (keys : List ℕ)

theorem isAdd_binOps : ∀ op ∈ binOps keys, op.IsAdd := by
  intro op hop
  obtain ⟨k, -, rfl⟩ := List.mem_map.mp hop
  trivial

@[simp] theorem added_binOps (v : ℕ) :
    added (.slot v) (binOps keys) = BitVec.ofNat 32 (keys.count v) := by
  induction keys with
  | nil => rfl
  | cons k keys ih =>
    have hcons : binOps (k :: keys) = .add (.slot k) 1 :: binOps keys := rfl
    rw [hcons, added_cons, ih, Op.adds]
    by_cases h : k = v
    · subst h
      rw [if_pos rfl, List.count_cons_self, BitVec.ofNat_add, add_comm]
      rfl
    · rw [if_neg (by simpa using h), List.count_cons_of_ne h, zero_add]

@[simp] theorem added_binOps_packets : added .packets (binOps keys) = 0 := by
  induction keys with
  | nil => rfl
  | cons k keys ih => exact (congrArg (0 + ·) ih).trans (add_zero 0)

theorem mem_alone_binOps (packets : BitVec 32) (slots : ℕ → BitVec 32) :
    (alone (cells packets slots) (binOps keys)).mem =
      cells packets fun v => slots v + BitVec.ofNat 32 (keys.count v) := by
  ext c : 1
  rw [mem_alone]
  cases c with
  | packets => rw [added_binOps_packets, add_zero, cells, cells]
  | slot v => rw [added_binOps, cells, cells]

theorem log_alone_binOps (mem : Cell → BitVec 32) : (alone mem (binOps keys)).log = [] := by
  have htodo : binOps keys = binOps keys ++ [] := (List.append_nil _).symm
  exact log_run_replicate htodo (isAdd_binOps keys)

theorem incrementAll_apply (bins : ℕ → BitVec 32) (v : ℕ) :
    Lists.incrementAll bins keys v = bins v + BitVec.ofNat 32 (keys.count v) := by
  induction keys generalizing bins with
  | nil => exact (add_zero _).symm
  | cons k keys ih =>
    apply (ih _).trans
    dsimp only
    rcases eq_or_ne v k with rfl | hne
    · rw [Function.update_self, List.count_cons_self, BitVec.ofNat_add, add_assoc, add_comm 1]
      rfl
    · rw [Function.update_of_ne hne, List.count_cons_of_ne hne.symm]

end BinOps

end PacketBench

import PacketBench.Frame.Headers
import Mathlib.Data.BitVec
import Mathlib.Logic.Function.Basic

/-! # Loops over the payload

The programs that work on a payload walk over its 32-bit words from the first
one on. The words stand behind an IPv4 header without options, and a walk over
`n` of them reaches `42 + 4 * n` bytes into the frame.
-/

namespace PacketBench

open Bytes PktM

variable {σ : Type}

/-- Run `body` for the word indices below a bound, in order. -/
def forWords (body : ℕ → PktM σ Unit) : ℕ → PktM σ Unit
  | 0 => return ()
  | n + 1 => do
    forWords body n
    body n

def loadWord (payload i : ℕ) : PktM σ (BitVec 32) := load (payload + dataSizeB * i) 32

def sumWords (payload : ℕ) : ℕ → PktM σ (BitVec 32)
  | 0 => return 0
  | n + 1 => do
    let res ← sumWords payload n
    return res + (← loadWord payload n)

def Frame.wordsSum (f : Frame) (n : ℕ) : BitVec 32 := ((List.range n).map f.word).sum

def wordsReach (n : ℕ) : ℕ := if n = 0 then 0 else 42 + 4 * n

@[simp] theorem wordsReach_zero : wordsReach 0 = 0 := rfl

theorem wordsReach_succ (n : ℕ) : wordsReach (n + 1) = 42 + 4 * n + 4 := if_neg n.succ_ne_zero

theorem max_wordsReach (n : ℕ) : max (wordsReach n) (42 + 4 * n + 4) = wordsReach (n + 1) := by
  cases n with
  | zero => rfl
  | succ n =>
    rw [wordsReach_succ, wordsReach_succ]
    omega

theorem wordsReach_le {n len : ℕ} (h : 42 + 4 * n ≤ len) : wordsReach n ≤ len := by
  unfold wordsReach
  split_ifs <;> omega

@[simp] theorem Frame.wordsSum_zero (f : Frame) : f.wordsSum 0 = 0 := rfl

theorem Frame.wordsSum_succ (f : Frame) (n : ℕ) :
    f.wordsSum (n + 1) = f.wordsSum n + f.word n := by
  simp only [wordsSum, List.range_succ, List.map_append, List.map_cons, List.map_nil,
    List.sum_append, List.sum_cons, List.sum_nil, add_zero]

@[simp] theorem exec_loadWord (i : ℕ) (r : Run σ) :
    (loadWord 42 i).exec r = (r.frame.word i, r.touch (42 + 4 * i + 4)) := by rfl

theorem exec_sumWords (n : ℕ) (r : Run σ) :
    (sumWords 42 n).exec r = (r.frame.wordsSum n, r.touch (wordsReach n)) := by
  induction n with
  | zero => simp [sumWords]
  | succ n ih =>
    simp only [sumWords, exec_bind, ih, exec_loadWord, exec_pure, Run.touch_frame,
      Run.touch_touch, max_wordsReach, Frame.wordsSum_succ]

theorem exec_forWords_store {body : ℕ → PktM σ Unit} {g : Frame → ℕ → σ → σ}
    (h : ∀ i r, (body i).exec r =
      ((), (r.setStore (g r.frame i r.store)).touch (42 + 4 * i + 4))) (n : ℕ) (r : Run σ) :
    (forWords body n).exec r =
      ((), (r.setStore ((List.range n).foldl (fun s i => g r.frame i s) r.store)).touch
        (wordsReach n)) := by
  induction n with
  | zero =>
    have hself : r.setStore r.store = r := rfl
    simp [forWords, hself]
  | succ n ih =>
    rw [forWords, exec_bind, ih, h, List.range_succ, List.foldl_append]
    simp only [Run.touch_frame, Run.setStore_frame, Run.touch_store, Run.setStore_store,
      Run.touch_setStore, Run.setStore_setStore, Run.touch_touch, max_wordsReach, List.foldl_cons,
      List.foldl_nil]

def Frame.combine (f : Frame) (op : BitVec 32 → BitVec 32 → BitVec 32) (a : ℕ → BitVec 32)
    (n : ℕ) : ℕ → BitVec 32 := fun i => if i < n then op (a i) (f.word i) else a i

theorem Frame.foldl_update (f : Frame) (op : BitVec 32 → BitVec 32 → BitVec 32)
    (a : ℕ → BitVec 32) (n : ℕ) :
    (List.range n).foldl (fun a i => Function.update a i (op (a i) (f.word i))) a =
      f.combine op a n := by
  induction n with
  | zero =>
    funext i
    exact (if_neg (Nat.not_lt_zero i)).symm
  | succ n ih =>
    rw [List.range_succ, List.foldl_append, ih, List.foldl_cons, List.foldl_nil]
    funext i
    rcases lt_trichotomy i n with h | rfl | h
    · rw [Function.update_of_ne h.ne, combine, combine, if_pos h, if_pos (by omega)]
    · rw [Function.update_self, combine, combine, if_neg (lt_irrefl i), if_pos (by omega)]
    · rw [Function.update_of_ne h.ne', combine, combine, if_neg (by omega), if_neg (by omega)]

end PacketBench

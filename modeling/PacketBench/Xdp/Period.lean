import PacketBench.Arithmetic.Wrapping
import PacketBench.Xdp.Handling

/-! # Replies at every multiple of the period

`aggregate`, `reduce` and `copy_to_host` answer the frames whose ordinal among
the taken ones is a multiple of `MiB / TOT_SIZE_B`. The counter is a signed
32-bit number and overflows, but the period is a power of two.
-/

namespace PacketBench.Xdp

variable {σ : Type} {tot : ℕ} {prog : Instant → Instant → PktM (Counted σ) Verdict}
  {g : σ → Frame → σ}

def takenIn (tot : ℕ) (arrivals : List Arrival) : ℕ := arrivals.countP (Takes tot ·.frame)

/-- From a zero count on: a frame is sent back when it is taken and its ordinal completes a period,
and a rejected frame does not advance the count. -/
structure RepliesPerPeriod (tot : ℕ) (prog : Instant → Instant → PktM (Counted σ) Verdict) :
    Prop where
  verdict : ∀ data before a,
    (handleTimed prog (storeAfterTimed prog ⟨0, data⟩ before) a).1 = .tx ↔
      Takes tot a.frame ∧ miB / tot ∣ takenIn tot before + 1
  rejected : ∀ data before a, ¬ Takes tot a.frame →
    (handleTimed prog (storeAfterTimed prog ⟨0, data⟩ before) a).2.store.rxpkt =
      (storeAfterTimed prog ⟨0, data⟩ before).rxpkt

theorem completes_ofNat (htot : tot ∣ miB) (n : ℕ) :
    Completes tot (BitVec.ofNat 32 n) ↔ miB / tot ∣ n := by
  have hperiod : miB / tot ∣ 2 ^ 32 := (Nat.div_dvd_of_dvd htot).trans (by decide)
  exact Wrapping.tmod_toInt_ofNat_eq_zero_iff hperiod n

theorem takenIn_concat (before : List Arrival) (a : Arrival) :
    takenIn tot (before ++ [a]) = takenIn tot before + if Takes tot a.frame then 1 else 0 := by
  unfold takenIn
  rw [List.countP_append, List.countP_singleton]
  simp only [decide_eq_true_eq]

theorem rxpkt_storeAfterTimed (h : ∀ arrival processed, CountsWith tot (prog arrival processed) g)
    (data : σ) (arrivals : List Arrival) : (storeAfterTimed prog ⟨0, data⟩ arrivals).rxpkt =
      BitVec.ofNat 32 (takenIn tot arrivals) := by
  induction arrivals using List.reverseRecOn with
  | nil => rfl
  | append_singleton before a ih =>
    rw [storeAfterTimed, List.foldl_concat, ← storeAfterTimed, takenIn_concat, handleTimed]
    by_cases ha : Takes tot a.frame
    · rw [(h _ _).taken _ _ ha, if_pos ha, ih, BitVec.ofNat_add]
      rfl
    · rw [(h _ _).rejected _ _ ha, if_neg ha, ih, add_zero]

theorem repliesPerPeriod (htot : tot ∣ miB)
    (h : ∀ arrival processed, CountsWith tot (prog arrival processed) g) :
    RepliesPerPeriod tot prog := by
  constructor
  · intro data before a
    rw [handleTimed, (h _ _).verdict, rxpkt_storeAfterTimed h, ← completes_ofNat htot,
      BitVec.ofNat_add]
    rfl
  · intro data before a ha
    rw [handleTimed, (h _ _).rejected _ _ ha]

theorem replies_per_period (tot : ℕ) (htot : tot ∣ miB) :
    RepliesPerPeriod tot (aggregate tot) ∧
    RepliesPerPeriod tot (fun _ _ => aggregateNoT tot) ∧
    RepliesPerPeriod tot (reduce tot) ∧
    RepliesPerPeriod tot (fun _ _ => reduceNoT tot) ∧
    RepliesPerPeriod tot (copyToHost tot) ∧
    RepliesPerPeriod tot (fun _ _ => copyToHostNoT tot) := by
  have hlt : tot < 2 ^ 31 := (Nat.le_of_dvd (by decide) htot).trans_lt (by decide)
  exact ⟨repliesPerPeriod htot (countsWith_aggregate hlt),
    repliesPerPeriod htot fun _ _ => countsWith_aggregateNoT hlt,
    repliesPerPeriod htot (countsWith_reduce hlt),
    repliesPerPeriod htot fun _ _ => countsWith_reduceNoT hlt,
    repliesPerPeriod htot (countsWith_copyToHost hlt),
    repliesPerPeriod htot fun _ _ => countsWith_copyToHostNoT hlt⟩

theorem replies_per_period_totSizeB :
    RepliesPerPeriod totSizeB (aggregate totSizeB) ∧
    RepliesPerPeriod totSizeB (fun _ _ => aggregateNoT totSizeB) ∧
    RepliesPerPeriod totSizeB (reduce totSizeB) ∧
    RepliesPerPeriod totSizeB (fun _ _ => reduceNoT totSizeB) ∧
    RepliesPerPeriod totSizeB (copyToHost totSizeB) ∧
    RepliesPerPeriod totSizeB (fun _ _ => copyToHostNoT totSizeB) :=
  replies_per_period totSizeB (by decide)

end PacketBench.Xdp

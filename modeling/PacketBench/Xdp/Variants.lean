import PacketBench.Xdp.Counting

/-! # Timed and untimed variants

The variants of a counting program differ in what they do with a frame that is
counted but not sent back. That part never sends a frame back and leaves the
maps alone, so the two variants keep equal maps and send the same replies
along every sequence of frames.
-/

namespace PacketBench.Xdp

open PktM

variable {σ α : Type}

/-- Two programs that leave equal stores, send the same frames back and change those alike. -/
structure Alike (x y : PktM σ Verdict) : Prop where
  store : ∀ r, (x.exec r).2.store = (y.exec r).2.store
  verdict : ∀ r, (x.exec r).1 = .tx ↔ (y.exec r).1 = .tx
  reply : ∀ r, (x.exec r).1 = .tx → (x.exec r).2.frame = (y.exec r).2.frame

namespace Alike

variable {x y x' y' : PktM σ Verdict}

theorem refl (x : PktM σ Verdict) : Alike x x := ⟨fun _ => rfl, fun _ => Iff.rfl, fun _ _ => rfl⟩

theorem bind (z : PktM σ α) {k k' : α → PktM σ Verdict} (h : ∀ a, Alike (k a) (k' a)) :
    Alike (z >>= k) (z >>= k') where
  store _ := (h _).store _
  verdict _ := (h _).verdict _
  reply _ := (h _).reply _

theorem ite {c : Prop} [Decidable c] (hx : Alike x y) (hx' : Alike x' y') :
    Alike (if c then x else x') (if c then y else y') := by
  by_cases hc : c
  · rwa [if_pos hc, if_pos hc]
  · rwa [if_neg hc, if_neg hc]

end Alike

theorem alike_withUdp {body body' : ℕ → ℕ → ℕ → PktM σ Verdict}
    (h : Alike (body 0 14 34) (body' 0 14 34)) : Alike (withUdp body) (withUdp body') := by
  constructor <;> intro r <;> rw [exec_withUdp, exec_withUdp] <;> by_cases hudp : IsUdp r.frame
  · rw [if_pos hudp, if_pos hudp, h.store]
  · rw [if_neg hudp, if_neg hudp]
  · rw [if_pos hudp, if_pos hudp, h.verdict]
  · rw [if_neg hudp, if_neg hudp]
  · rw [if_pos hudp, if_pos hudp]
    exact h.reply _
  · rw [if_neg hudp, if_neg hudp]
    exact fun _ => rfl

theorem alike_withPayload {wrong : BitVec 32 → Bool} {udp : ℕ}
    {body body' : ℕ → BitVec 32 → PktM σ Verdict}
    (h : ∀ payload size, Alike (body payload size) (body' payload size)) :
    Alike (withPayload wrong udp body) (withPayload wrong udp body') :=
  .bind _ fun size => .ite (.refl _) (.bind _ fun _ => .ite (.refl _) (h _ size))

/-- The part of a program behind the count: no frame is sent back and the store is kept. -/
structure Quiet (x : PktM σ Verdict) : Prop where
  verdict : ∀ r, (x.exec r).1 ≠ .tx
  store : ∀ r, (x.exec r).2.store = r.store

theorem Quiet.alike {x y : PktM σ Verdict} (hx : Quiet x) (hy : Quiet y) : Alike x y where
  store r := (hx.store r).trans (hy.store r).symm
  verdict r := iff_of_false (hx.verdict r) (hy.verdict r)
  reply r h := absurd h (hx.verdict r)

theorem quiet_leave {v : Verdict} (hv : v ≠ .tx) (ip udp payload : ℕ) :
    Quiet (leave v ip udp payload : PktM σ Verdict) := ⟨fun _ => hv, fun _ => rfl⟩

theorem quiet_stamp {finish : PktM σ Verdict} (h : Quiet finish) (payload : ℕ)
    (first second : BitVec 64) : Quiet (stamp payload first second finish) := by
  constructor <;> intro r <;>
    simp only [stamp, exec_bind, exec_ite, exec_pktEnd, exec_pure, exec_store] <;> split
  · exact Verdict.noConfusion
  · exact h.verdict _
  · rfl
  · exact h.store _

theorem quiet_pass : Quiet (return .pass : PktM σ Verdict) :=
  ⟨fun _ => Verdict.noConfusion, fun _ => rfl⟩

theorem quiet_stampAndPass (first second : BitVec 64) (ip udp payload : ℕ) :
    Quiet (stampAndPass first second ip udp payload : PktM σ Verdict) :=
  quiet_stamp quiet_pass payload first second

theorem quiet_stampAndRefresh (first second : BitVec 64) (ip udp payload : ℕ) :
    Quiet (stampAndRefresh first second ip udp payload : PktM σ Verdict) := by
  refine quiet_stamp ⟨fun _ => Verdict.noConfusion, fun r => ?_⟩ payload first second
  rw [exec_bind, exec_refreshCheck]
  rfl

theorem alike_countPackets {tot : ℕ} (work : ℕ → ℕ → BitVec 32 → PktM (Counted σ) Bool)
    (notify : ℕ → ℕ → PktM (Counted σ) Unit) {rest rest' : ℕ → ℕ → ℕ → PktM (Counted σ) Verdict}
    (hrest : ∀ ip udp payload, Quiet (rest ip udp payload))
    (hrest' : ∀ ip udp payload, Quiet (rest' ip udp payload)) :
    Alike (countPackets tot work notify rest) (countPackets tot work notify rest') := by
  refine alike_withUdp (alike_withPayload fun payload size => .bind _ fun good =>
    .ite ?_ (.refl _))
  refine .bind _ fun s => .bind _ fun _ => .bind _ fun s' => .ite (.refl _) ?_
  exact (hrest _ _ _).alike (hrest' _ _ _)

/-- Along every sequence of frames, started from equal maps. -/
structure InStep (timed : Instant → Instant → PktM σ Verdict) (untimed : PktM σ Verdict) :
    Prop where
  store : ∀ s arrivals, storeAfterTimed timed s arrivals =
    storeAfter untimed s (arrivals.map Arrival.frame)
  verdict : ∀ s before a, (handleTimed timed (storeAfterTimed timed s before) a).1 = .tx ↔
    (handle untimed (storeAfter untimed s (before.map Arrival.frame)) a.frame).1 = .tx
  reply : ∀ s before a, (handleTimed timed (storeAfterTimed timed s before) a).1 = .tx →
    (handleTimed timed (storeAfterTimed timed s before) a).2.frame =
      (handle untimed (storeAfter untimed s (before.map Arrival.frame)) a.frame).2.frame

variable {timed : Instant → Instant → PktM σ Verdict} {untimed : PktM σ Verdict}

theorem storeAfterTimed_eq (h : ∀ arrival processed, Alike (timed arrival processed) untimed)
    (s : σ) (arrivals : List Arrival) : storeAfterTimed timed s arrivals =
      storeAfter untimed s (arrivals.map Arrival.frame) := by
  induction arrivals generalizing s with
  | nil => rfl
  | cons a arrivals ih =>
    have hstep : (handleTimed timed s a).2.store = (handle untimed s a.frame).2.store :=
      (h _ _).store _
    rw [List.map_cons, storeAfterTimed, storeAfter, List.foldl_cons, List.foldl_cons, hstep]
    exact ih _

theorem inStep_of_alike (h : ∀ arrival processed, Alike (timed arrival processed) untimed) :
    InStep timed untimed := by
  constructor
  · exact storeAfterTimed_eq h
  · intro s before a
    rw [storeAfterTimed_eq h]
    exact (h _ _).verdict _
  · intro s before a
    rw [storeAfterTimed_eq h]
    exact (h _ _).reply _

theorem variants_in_step (tot : ℕ) (H : FilterHash) :
    InStep (aggregate tot) (aggregateNoT tot) ∧
    InStep (reduce tot) (reduceNoT tot) ∧
    InStep (histogram tot) (histogramNoT tot) ∧
    InStep (fun arrival processed => filter tot arrival processed H) (filterNoT tot H) ∧
    InStep (copyToHost tot) (copyToHostNoT tot) ∧
    InStep (copyFromHost tot) (copyFromHostNoT tot) := by
  have hdrop : ∀ {σ : Type} (ip udp payload : ℕ),
      Quiet (leave .drop ip udp payload : PktM (Counted σ) Verdict) := quiet_leave (by decide)
  have hpass : ∀ {σ : Type} (ip udp payload : ℕ),
      Quiet (leave .pass ip udp payload : PktM (Counted σ) Verdict) := quiet_leave (by decide)
  refine ⟨inStep_of_alike fun _ _ => ?_, inStep_of_alike fun _ _ => ?_,
    inStep_of_alike fun _ _ => ?_, inStep_of_alike fun _ _ => ?_, inStep_of_alike fun _ _ => ?_,
    inStep_of_alike fun _ _ => ?_⟩
  · exact alike_countPackets _ _ (quiet_stampAndRefresh _ _) hdrop
  · exact alike_countPackets _ _ (quiet_stampAndPass _ _) hpass
  · exact alike_countPackets _ _ (quiet_stampAndRefresh _ _) hpass
  · exact alike_countPackets _ _ (quiet_stampAndPass _ _) hpass
  · exact alike_countPackets _ _ (quiet_stampAndRefresh _ _) hpass
  · exact alike_countPackets _ _ (quiet_stampAndRefresh _ _) hpass

end PacketBench.Xdp

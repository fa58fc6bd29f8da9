import PacketBench.Dpdk.Kvstore
import PacketBench.Dpdk.Zuc
import PacketBench.Lists.Prefix

/-! # The DPDK programs that send every frame back

`pingpong`, `kvstore` and `zuc` rewrite the frames they accept in place, count
them and offer as many mbufs from the start of the burst to the driver. The
buffers that the driver does not take are freed. So no buffer is lost, but the
offered mbufs are the rewritten ones only when no rejected frame precedes them.
-/

namespace PacketBench.Dpdk

open Bytes PktM

variable {σ : Type}

inductive EchoApp where
  | pingpong
  | kvstore
  | zuc
  deriving DecidableEq, Repr

section Programs

variable (H : RteHash) (rteIpv4UdptcpCksum : Cksum)

def pingpong : PktM Unit Bool :=
  classify false wrongSize fun eth ip udp _ => do
    swapInfos eth ip udp
    return true

def EchoApp.Store : EchoApp → Type
  | .pingpong => Unit
  | .kvstore => Cache H
  | .zuc => ZucStore

def EchoApp.process : (app : EchoApp) → PktM (app.Store H) Bool
  | .pingpong => Dpdk.pingpong
  | .kvstore => Dpdk.kvstore H rteIpv4UdptcpCksum
  | .zuc => Dpdk.zuc rteIpv4UdptcpCksum

end Programs

structure EchoStep (σ : Type) where
  offered : List Mbuf
  taken : List Mbuf
  freed : List Mbuf
  store : σ

/-- One turn of `lcore_main`. -/
def echoBurst (process : PktM σ Bool) (tx : TxBurst) (s : σ) (b : Burst) : EchoStep σ :=
  let nbRx := b.bufs.length
  if nbRx = 0 then ⟨[], [], [], s⟩
  else
    let (loop, s) := processAll process s b.bufs
    let bufs := loop.map Prod.fst
    let nbTx := loop.countP Prod.snd
    let offered := bufs.take nbTx
    let sent := tx.sent nbTx
    ⟨offered, offered.take sent, if sent < nbRx then freeAll (bufs.drop sent) else [], s⟩

/-- What a program does to an mbuf: it counts and rewrites an accepted frame and leaves any other
one alone. -/
structure Handled (m : Mbuf) (out : Mbuf × Bool) : Prop where
  addr_eq : out.1.addr = m.addr
  counted_iff : out.2 = true ↔ Accepted m.frame
  swapped : Accepted m.frame → AddressesSwapped m.frame out.1.frame
  unchanged : ¬ Accepted m.frame → out.1.frame = m.frame

/-- A program that classifies a frame and then sends it back. -/
def Echoes (process : PktM σ Bool) : Prop :=
  ∀ s m, Handled m ({ m with frame := (process.exec (Run.start m.frame s)).2.frame },
    (process.exec (Run.start m.frame s)).1)

theorem echoes_of_exec {process : PktM σ Bool}
    (hacc : ∀ r : Run σ, Accepted r.frame → (process.exec r).1 = true ∧
      AddressesSwapped r.frame (process.exec r).2.frame)
    (hrej : ∀ r : Run σ, ¬ Accepted r.frame →
      process.exec r = (false, r.touch (classifyReach r.frame))) : Echoes process := by
  intro s m
  by_cases h : Accepted m.frame
  · obtain ⟨hcount, hswap⟩ := hacc (Run.start m.frame s) h
    exact ⟨rfl, iff_of_true hcount h, fun _ => hswap, fun hn => absurd h hn⟩
  · rw [hrej (Run.start m.frame s) h]
    exact ⟨rfl, iff_of_false Bool.false_ne_true h, fun ha => absurd ha h, fun _ => rfl⟩

theorem echoes_pingpong : Echoes pingpong := by
  refine echoes_of_exec (fun r h => ?_) fun r h => ?_
  · unfold pingpong
    rw [exec_classify rfl, if_pos h]
    simp only [exec_bind, exec_swapInfos, exec_pure, true_and]
    exact addressesSwapped_of_eq (fun _ _ => rfl) fun _ _ => rfl
  · unfold pingpong
    rw [exec_classify rfl, if_neg h]

theorem echoes_kvstore (H : RteHash) (rteIpv4UdptcpCksum : Cksum) :
    Echoes (kvstore H rteIpv4UdptcpCksum) := by
  refine echoes_of_exec (fun r h => ?_) fun r h => exec_kvstore_of_not _ h
  rw [exec_kvstore_of_accepted rteIpv4UdptcpCksum h]
  refine ⟨rfl, sendBack_swaps _ _ fun a ha => ?_⟩
  rcases eq_or_ne (r.frame.word 0) 0 with hflag | hflag
  · rw [answer_of_read hflag, Mem.store_apply_of_outside _ (by omega)]
  · rw [answer_of_write hflag]

theorem echoes_zuc (rteIpv4UdptcpCksum : Cksum) : Echoes (zuc rteIpv4UdptcpCksum) := by
  refine echoes_of_exec (fun r h => ?_) fun r h => exec_zuc_of_not h
  rw [exec_zuc_of_accepted h]
  exact ⟨rfl, sendBack_swaps _ _ fun a ha => encrypted_apply_of_lt _ _ _ (by omega)⟩

theorem echoes_process (H : RteHash) (rteIpv4UdptcpCksum : Cksum) :
    ∀ app : EchoApp, Echoes (app.process H rteIpv4UdptcpCksum)
  | .pingpong => echoes_pingpong
  | .kvstore => echoes_kvstore H rteIpv4UdptcpCksum
  | .zuc => echoes_zuc rteIpv4UdptcpCksum

section Loop

variable {bufs : List Mbuf} {loop : List (Mbuf × Bool)}

theorem countP_of_handled (h : List.Forall₂ Handled bufs loop) :
    loop.countP Prod.snd = bufs.countP (Accepted ·.frame) := by
  induction h with
  | nil => rfl
  | cons hm _ ih =>
    rw [List.countP_cons, List.countP_cons, ih]
    simp only [hm.counted_iff, decide_eq_true_eq]

end Loop

/-- The offered mbufs are the accepted ones, rewritten, in the order of arrival. -/
def OffersAccepted (b : Burst) (offered : List Mbuf) : Prop :=
  List.Forall₂ (fun m m' => m'.addr = m.addr ∧ AddressesSwapped m.frame m'.frame)
    (b.bufs.filter (Accepted ·.frame)) offered

/-- No rejected frame stands before an accepted one. -/
def AcceptedFirst (b : Burst) : Prop :=
  b.bufs.Pairwise fun m m' => Accepted m'.frame → Accepted m.frame

theorem acceptedFirst_iff (b : Burst) : AcceptedFirst b ↔
    b.bufs.filter (Accepted ·.frame) = b.bufs.take (b.bufs.countP (Accepted ·.frame)) := by
  rw [Lists.filter_eq_take_countP_iff, AcceptedFirst]
  simp only [decide_eq_true_eq]

theorem offered_echoBurst {process : PktM σ Bool} (h : Echoes process) (tx : TxBurst) (s : σ)
    (b : Burst) : (echoBurst process tx s b).offered =
      ((processAll process s b.bufs).1.map Prod.fst).take
        (b.bufs.countP (Accepted ·.frame)) := by
  rw [← countP_of_handled (forall₂_processAll h s b.bufs), echoBurst]
  split_ifs with hnil
  · rw [List.length_eq_zero_iff.mp hnil]
    rfl
  · rfl

theorem offersAccepted_of_acceptedFirst {process : PktM σ Bool} (h : Echoes process)
    (tx : TxBurst) (s : σ) (b : Burst) (hb : AcceptedFirst b) :
    OffersAccepted b (echoBurst process tx s b).offered := by
  have hprefix := (acceptedFirst_iff b).mp hb
  have hacc : ∀ m ∈ b.bufs.take (b.bufs.countP (Accepted ·.frame)), Accepted m.frame := by
    rw [← hprefix]
    exact fun m hm => of_decide_eq_true (List.mem_filter.mp hm).2
  have htake := List.forall₂_take (b.bufs.countP (Accepted ·.frame))
    (forall₂_processAll h s b.bufs)
  unfold OffersAccepted
  rw [offered_echoBurst h, hprefix, ← List.map_take, List.forall₂_map_right_iff]
  exact ((List.forall₂_and_left _ _).mpr ⟨hacc, htake⟩).imp fun m out hm =>
    ⟨hm.2.addr_eq, hm.2.swapped hm.1⟩

theorem acceptedFirst_of_offersAccepted {process : PktM σ Bool} (h : Echoes process)
    (tx : TxBurst) (s : σ) (b : Burst) (ho : OffersAccepted b (echoBurst process tx s b).offered) :
    AcceptedFirst b := by
  have hoffered : (b.bufs.filter (Accepted ·.frame)).map Mbuf.addr =
      (echoBurst process tx s b).offered.map Mbuf.addr := by
    rw [← List.forall₂_eq_eq_eq, List.forall₂_map_left_iff, List.forall₂_map_right_iff]
    exact ho.imp fun m m' hm => hm.1.symm
  have haddr : (b.bufs.filter (Accepted ·.frame)).map Mbuf.addr =
      (b.bufs.take (b.bufs.countP (Accepted ·.frame))).map Mbuf.addr := by
    rw [hoffered, offered_echoBurst h, List.map_take,
      addrs_processAll, List.map_take]
  exact (acceptedFirst_iff b).mpr (Lists.eq_of_map_eq b.nodup (List.filter_subset_self _)
    (List.take_subset _ _) haddr)

/-- Whatever the driver takes, the programs offer exactly the frames they rewrote when no rejected
frame of the burst stands before an accepted one. -/
theorem offersAccepted_iff (H : RteHash) (rteIpv4UdptcpCksum : Cksum) (app : EchoApp)
    (tx : TxBurst) (s : app.Store H) (b : Burst) :
    OffersAccepted b (echoBurst (app.process H rteIpv4UdptcpCksum) tx s b).offered ↔
      AcceptedFirst b :=
  ⟨acceptedFirst_of_offersAccepted (echoes_process H rteIpv4UdptcpCksum app) tx s b,
    offersAccepted_of_acceptedFirst (echoes_process H rteIpv4UdptcpCksum app) tx s b⟩

theorem not_offersAccepted_mixedBurst :
    ¬ OffersAccepted mixedBurst (echoBurst pingpong allSent () mixedBurst).offered := by
  intro h
  have hfirst := acceptedFirst_of_offersAccepted echoes_pingpong allSent () mixedBurst h
  have harp := (List.pairwise_cons.mp hfirst).1 ⟨2, two_ne_zero, requestFrame 1 7 42⟩
    List.mem_cons_self (accepted_requestFrame 1 7 42)
  exact absurd harp.1 (by decide)

/-- The taken and the freed buffers are two parts of the burst, in its order. -/
theorem released_echoBurst (process : PktM σ Bool) (tx : TxBurst) (s : σ) (b : Burst) :
    ((echoBurst process tx s b).taken ++ (echoBurst process tx s b).freed).map Mbuf.addr =
      b.bufs.map Mbuf.addr := by
  rw [echoBurst]
  split_ifs with hnil
  · rw [List.length_eq_zero_iff.mp hnil]
    rfl
  · have hlen : ((processAll process s b.bufs).1.map Prod.fst).length = b.bufs.length := by
      rw [← List.length_map Mbuf.addr, addrs_processAll, List.length_map]
    have hsent := tx.sent_le ((processAll process s b.bufs).1.countP Prod.snd)
    rw [← addrs_processAll process s b.bufs]
    simp only [freeAll_eq, List.take_take, min_eq_left hsent]
    congr 1
    split_ifs with hlt
    · exact List.take_append_drop _ _
    · rw [List.append_nil, List.take_of_length_le (hlen.trans_le (not_lt.mp hlt))]

/-- The buffers the driver takes and the buffers freed are disjoint and together the burst. -/
theorem echoBurst_releases_once (H : RteHash) (rteIpv4UdptcpCksum : Cksum) (app : EchoApp)
    (tx : TxBurst) (s : app.Store H) (b : Burst) :
    let step := echoBurst (app.process H rteIpv4UdptcpCksum) tx s b
    ReleasedOnce b (step.taken ++ step.freed) ∧
    (step.taken.map Mbuf.addr).Disjoint (step.freed.map Mbuf.addr) := by
  have hreleased := released_echoBurst (app.process H rteIpv4UdptcpCksum) tx s b
  refine ⟨List.Perm.of_eq hreleased, ?_⟩
  have hnodup := b.nodup
  rw [← hreleased, List.map_append] at hnodup
  exact List.disjoint_of_nodup_append hnodup

end PacketBench.Dpdk

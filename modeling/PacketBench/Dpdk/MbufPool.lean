import PacketBench.Concurrency.Buffers
import PacketBench.Dpdk.Echo
import PacketBench.Dpdk.Notification
import PacketBench.Dpdk.PortInit
import Mathlib.Algebra.Order.BigOperators.Group.Finset

/-! # The mbufs of a program

All queues of a program share one pool of mbufs. The network card receives into
free mbufs, the lcores poll them, and the card gives back what it has sent. The
programs that send frames back keep each mbuf at one place. In the others a
notification that the driver takes leaves its mbuf free and under way at once.
-/

namespace PacketBench.Dpdk

open Buffers Relation

variable {σ ι : Type} [DecidableEq ι] [Fintype ι]

def addrs (bufs : List Mbuf) : Multiset ℕ := ((bufs.map Mbuf.addr : List ℕ) : Multiset ℕ)

/-- What a turn of a program that sends its frames back does with the mbufs of a burst. -/
def EchoTurn (process : PktM σ Bool) (burst : List Mbuf) (taken freed : Multiset ℕ) : Prop :=
  ∃ tx s b, b.bufs = burst ∧ taken = addrs (echoBurst process tx s b).taken ∧
    freed = addrs (echoBurst process tx s b).freed

/-- What a turn of a program that consumes its frames does with the mbufs of a burst, among which
none comes twice: what happens when a queue has received an mbuf at two places at once is left
open. -/
def SinkTurn (process : PktM σ (Option Bool)) (notify : PktM σ Unit) (burst : List Mbuf)
    (taken freed : Multiset ℕ) : Prop :=
  ∃ tx s b step, b.bufs = burst ∧ sinkBurst process notify tx s b = some step ∧
    taken = addrs step.taken ∧ freed = addrs step.freed

section Turns

variable {burst : List Mbuf} {taken freed : Multiset ℕ}

theorem addrs_append (bufs bufs' : List Mbuf) :
    addrs (bufs ++ bufs') = addrs bufs + addrs bufs' := by
  unfold addrs
  rw [List.map_append, Multiset.coe_add]

theorem EchoTurn.parts {process : PktM σ Bool} (h : EchoTurn process burst taken freed) :
    taken + freed = addrs burst ∧ Disjoint taken freed := by
  obtain ⟨tx, s, b, rfl, rfl, rfl⟩ := h
  have hreleased := released_echoBurst process tx s b
  have hparts : addrs (echoBurst process tx s b).taken + addrs (echoBurst process tx s b).freed =
      addrs b.bufs := by
    rw [← addrs_append]
    exact congrArg (fun l : List ℕ => (l : Multiset ℕ)) hreleased
  refine ⟨hparts, ?_⟩
  have hnodup : (addrs b.bufs).Nodup := Multiset.coe_nodup.mpr b.nodup
  rw [← hparts] at hnodup
  exact (Multiset.nodup_add.mp hnodup).2.2

theorem releasesBurst_echoTurn (process : PktM σ Bool) :
    ReleasesBurst Mbuf.addr (EchoTurn process) := by
  intro burst taken freed hturn
  obtain ⟨hparts, hdisjoint⟩ := hturn.parts
  rw [← Multiset.add_eq_union_iff_disjoint.mpr hdisjoint]
  exact hparts

theorem SinkTurn.parts {process : PktM σ (Option Bool)} (hcounts : Counts process)
    {notify : PktM σ Unit} (h : SinkTurn process notify burst taken freed) :
    taken ≤ freed ∧ freed = addrs burst := by
  obtain ⟨tx, s, b, step, rfl, hstep, rfl, rfl⟩ := h
  have hturn := turn_of_sinkBurst hcounts hstep
  have hfreed : addrs step.freed = addrs b.bufs :=
    congrArg (fun l : List ℕ => (l : Multiset ℕ)) hturn.freed
  refine ⟨?_, hfreed⟩
  have hsub : (step.taken.map Mbuf.addr).Sublist (b.bufs.map Mbuf.addr) := by
    rw [hturn.taken, List.map_take, hturn.offered]
    split_ifs
    · exact (List.take_sublist _ _).trans (List.take_sublist _ _)
    · simp
  rw [hfreed]
  exact Multiset.coe_le.mpr hsub.subperm

theorem releasesBurst_sinkTurn {process : PktM σ (Option Bool)} (hcounts : Counts process)
    (notify : PktM σ Unit) : ReleasesBurst Mbuf.addr (SinkTurn process notify) := by
  intro burst taken freed hturn
  obtain ⟨hle, hfreed⟩ := hturn.parts hcounts
  rw [← Multiset.sup_eq_union, sup_eq_right.mpr hle, hfreed]
  rfl

end Turns

def numMbufs : ℕ := 8191
def mbufCacheSize : ℕ := 250

/-- `NB_MBUF`, the size of the pool. -/
def nbMbuf (nports nbLcores coreQueNr : ℕ) : ℕ :=
  max (nports * coreQueNr * rxRingSize.toNat + nports * nbLcores * burstSize +
    nports * coreQueNr * txRingSize.toNat + nbLcores * mbufCacheSize) numMbufs

section Runs

variable (H : RteHash) (rteIpv4UdptcpCksum : Cksum)

def EchoReaches (app : EchoApp) (pool : Multiset ℕ) : System ι ℕ Mbuf → Prop :=
  ReflTransGen (Step Mbuf.addr (EchoTurn (app.process H rteIpv4UdptcpCksum))) (System.start pool)

def SinkReaches (app : SinkApp) (pool : Multiset ℕ) : System ι ℕ Mbuf → Prop :=
  ReflTransGen (Step Mbuf.addr (SinkTurn app.process (app.notify rteIpv4UdptcpCksum)))
    (System.start pool)

variable {H rteIpv4UdptcpCksum} in
theorem places_of_echoReaches {app : EchoApp} {pool : Multiset ℕ} {s : System ι ℕ Mbuf}
    (hrun : EchoReaches H rteIpv4UdptcpCksum app pool s) : places Mbuf.addr s = pool := by
  have hreleases := releasesBurst_echoTurn (app.process H rteIpv4UdptcpCksum)
  have htwice : s.twice = 0 := by
    induction hrun with
    | refl => rfl
    | tail _ hstep ih =>
      cases hstep with
      | receive | sent => exact ih
      | turn _ hturn =>
        dsimp only
        rw [ih, zero_add]
        exact Multiset.inter_eq_zero_iff_disjoint.mpr hturn.parts.2
  have hplaces := (Accounted.run hreleases hrun).places_eq
  rwa [htwice, add_zero] at hplaces

omit [DecidableEq ι] in
theorem card_waiting_le {queues : ι → List Mbuf} {n : ℕ} (h : ∀ i, (queues i).length ≤ n) :
    (waiting Mbuf.addr queues).card ≤ Fintype.card ι * n := by
  unfold waiting
  rw [Multiset.card_sum]
  exact (Finset.sum_le_card_nsmul _ _ n fun i _ => by simpa using h i).trans_eq (by simp)

/-- On any number of lcores each mbuf is at one place at any time, and a pool of `NB_MBUF` mbufs
is large enough: while no ring holds more than its size, enough mbufs are free for a burst and a
cache of each lcore. -/
theorem mbufs_at_one_place (app : EchoApp) (pool : Multiset ℕ) (s : System ι ℕ Mbuf)
    (hrun : EchoReaches H rteIpv4UdptcpCksum app pool s) : places Mbuf.addr s = pool ∧
      ∀ nports nbLcores coreQueNr, Fintype.card ι = nports * coreQueNr →
        pool.card = nbMbuf nports nbLcores coreQueNr →
        (∀ i, (s.received i).length ≤ rxRingSize.toNat) →
        s.sending.card ≤ nports * coreQueNr * txRingSize.toNat →
          nports * nbLcores * burstSize + nbLcores * mbufCacheSize ≤ s.free.card := by
  have heq := places_of_echoReaches hrun
  refine ⟨heq, ?_⟩
  intro nports nbLcores coreQueNr hqueues hpool hrx htx
  have hplaces := congrArg Multiset.card heq
  have hwaiting := card_waiting_le hrx
  unfold places at hplaces
  rw [Multiset.card_add, Multiset.card_add, hpool, nbMbuf] at hplaces
  rw [hqueues] at hwaiting
  have hmax := le_max_left (nports * coreQueNr * rxRingSize.toNat + nports * nbLcores * burstSize +
    nports * coreQueNr * txRingSize.toNat + nbLcores * mbufCacheSize) numMbufs
  omega

def restOfPool : Multiset ℕ := (Multiset.range 8189).map (· + 3)

/-- A pool for one lcore with one queue. -/
def smallPool : Multiset ℕ := 1 ::ₘ 2 ::ₘ restOfPool

theorem card_smallPool : smallPool.card = nbMbuf 1 1 1 := by
  rw [smallPool, restOfPool, Multiset.card_cons, Multiset.card_cons, Multiset.card_map,
    Multiset.card_range]
  decide

/-- The card receives two frames, and the lcore handles them. -/
theorem mbufs_at_one_place_turn : ∃ s : System (Fin 1) ℕ Mbuf,
    EchoReaches plainHash rteCksum .pingpong smallPool s ∧ places Mbuf.addr s = smallPool ∧
      burstSize + mbufCacheSize ≤ s.free.card := by
  have hfirst : (System.start smallPool : System (Fin 1) ℕ Mbuf).free =
      (⟨1, one_ne_zero, arpFrame⟩ : Mbuf).addr ::ₘ 2 ::ₘ restOfPool := rfl
  have hsecond : 2 ::ₘ restOfPool =
      (⟨2, two_ne_zero, requestFrame 1 7 42⟩ : Mbuf).addr ::ₘ restOfPool := rfl
  have hturn : EchoTurn (EchoApp.process plainHash rteCksum .pingpong) mixedBufs _ _ :=
    ⟨allSent, (), mixedBurst, rfl, rfl, rfl⟩
  have hrun : EchoReaches (ι := Fin 1) plainHash rteCksum .pingpong smallPool _ :=
    .tail (.tail (.tail .refl (.receive (i := 0) hfirst)) (.receive (i := 0) hsecond))
      (.turn (i := 0) (List.append_nil _).symm hturn)
  obtain ⟨hplaces, hpool⟩ := mbufs_at_one_place plainHash rteCksum .pingpong smallPool _ hrun
  have htaken := congrArg Multiset.card hturn.parts.1
  rw [Multiset.card_add] at htaken
  refine ⟨_, hrun, hplaces, hpool 1 1 1 rfl card_smallPool (fun i => ?_) ?_⟩
  · obtain rfl := Subsingleton.elim 0 i
    exact Nat.zero_le _
  · have hburst : (addrs mixedBufs).card = 2 := rfl
    have hsent := (Nat.le_add_right _ _).trans (htaken.trans hburst).le
    dsimp only [System.start]
    rw [zero_add]
    exact hsent.trans (by decide)

/-- On any number of lcores, each mbuf is at one place and at one more for each notification that
the driver took of it, so all is well just as long as it takes none. -/
theorem mbufs_at_one_place_iff (app : SinkApp) (pool : Multiset ℕ) (hpool : pool.Nodup)
    (s : System ι ℕ Mbuf) (hrun : SinkReaches rteIpv4UdptcpCksum app pool s) :
    places Mbuf.addr s = pool + s.twice ∧ ((places Mbuf.addr s).Nodup ↔ s.twice = 0) := by
  have haccounted := Accounted.run
    (releasesBurst_sinkTurn (counts_process app) (app.notify rteIpv4UdptcpCksum)) hrun
  exact ⟨haccounted.places_eq, haccounted.nodup_iff hpool⟩

/-- A notification that the driver takes. -/
theorem mbufs_at_one_place_iff_notified : ∃ s : System (Fin 1) ℕ Mbuf,
    SinkReaches rteCksum .aggregate {1} s ∧ s.twice ≠ 0 ∧ ¬ (places Mbuf.addr s).Nodup := by
  obtain ⟨step, hstep⟩ := exists_sinkBurst counts_aggregate.2
    (SinkApp.notify rteCksum .aggregate) allSent ⟨1023, (0 : BitVec 32)⟩ singleBurst
  have hturn := turn_of_sinkBurst counts_aggregate.1 hstep
  have hdone : Completes step.state.pktRec := by
    rw [hturn.count, acceptedIn_singleBurst]
    decide
  have htaken : addrs step.taken = {1} := by
    unfold addrs
    rw [hturn.taken, List.map_take, hturn.offered, if_pos ⟨List.cons_ne_nil _ _, hdone⟩]
    rfl
  have hfreed : addrs step.freed = {1} := congrArg (fun l : List ℕ => (l : Multiset ℕ)) hturn.freed
  have hfree : (System.start {1} : System (Fin 1) ℕ Mbuf).free =
      (⟨1, one_ne_zero, requestFrame 1 7 42⟩ : Mbuf).addr ::ₘ 0 := rfl
  have hrun : SinkReaches (ι := Fin 1) rteCksum .aggregate {1} _ :=
    .tail (.tail .refl (.receive (i := 0) hfree))
      (.turn (i := 0) (List.append_nil _).symm
        ⟨allSent, _, singleBurst, step, rfl, hstep, rfl, rfl⟩)
  have htwice : (0 : Multiset ℕ) + addrs step.taken ∩ addrs step.freed ≠ 0 := by
    rw [htaken, hfreed]
    decide
  refine ⟨_, hrun, htwice, ?_⟩
  rw [(mbufs_at_one_place_iff rteCksum .aggregate {1} (by decide) _ hrun).2]
  exact htwice

end Runs

end PacketBench.Dpdk

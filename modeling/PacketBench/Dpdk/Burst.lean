import PacketBench.Frame.Basic
import Mathlib.Data.List.Forall2
import Mathlib.Data.List.Nodup

/-! # Bursts

A DPDK core polls its queue for bursts of mbufs. All programs handle the frames
of a burst one after another before they transmit and free the buffers. What
the driver takes of an offered burst is its own decision.
-/

namespace PacketBench.Dpdk

open PktM

@[simp] def burstSize : ℕ := 64

/-- A received buffer with its frame. -/
structure Mbuf where
  addr : ℕ
  ne_null : addr ≠ 0
  frame : Frame

/-- The mbufs that `rte_eth_rx_burst` returns. -/
structure Burst where
  bufs : List Mbuf
  nodup : (bufs.map Mbuf.addr).Nodup
  length_le : bufs.length ≤ burstSize

/-- How many of the mbufs offered to `rte_eth_tx_burst` the driver takes: the first ones, up to
the number it returns. -/
structure TxBurst where
  sent : ℕ → ℕ
  sent_le : ∀ n, sent n ≤ n

def allSent : TxBurst := ⟨id, fun _ => le_rfl⟩

def noneSent : TxBurst := ⟨fun _ => 0, Nat.zero_le⟩

/-- `rte_pktmbuf_free` for each buffer of an array that is not `NULL`. -/
def freeAll (bufs : List Mbuf) : List Mbuf := bufs.filter (·.addr ≠ 0)

@[simp] theorem freeAll_eq (bufs : List Mbuf) : freeAll bufs = bufs :=
  List.filter_eq_self.mpr fun m _ => by simpa using m.ne_null

/-- Each mbuf of the burst is released once and nothing else is. -/
def ReleasedOnce (b : Burst) (released : List Mbuf) : Prop :=
  (released.map Mbuf.addr).Perm (b.bufs.map Mbuf.addr)

section Programs

variable {σ α : Type}

/-- The loop over the mbufs of a burst, with what `process` returns for each of them. -/
def processAll (process : PktM σ α) : σ → List Mbuf → List (Mbuf × α) × σ
  | s, [] => ([], s)
  | s, m :: ms =>
    let (a, r) := process.exec (Run.start m.frame s)
    let (rest, s) := processAll process r.store ms
    (({ m with frame := r.frame }, a) :: rest, s)

def storeAfter (process : PktM σ α) (s : σ) (frames : List Frame) : σ :=
  frames.foldl (fun s f => (process.exec (Run.start f s)).2.store) s

theorem store_processAll (process : PktM σ α) (s : σ) (bufs : List Mbuf) :
    (processAll process s bufs).2 = storeAfter process s (bufs.map Mbuf.frame) := by
  induction bufs generalizing s with
  | nil => rfl
  | cons m ms ih => exact ih _

theorem addrs_processAll (process : PktM σ α) (s : σ) (bufs : List Mbuf) :
    ((processAll process s bufs).1.map Prod.fst).map Mbuf.addr = bufs.map Mbuf.addr := by
  induction bufs generalizing s with
  | nil => rfl
  | cons m ms ih => exact congrArg (m.addr :: ·) (ih _)

theorem forall₂_processAll {process : PktM σ α} {R : Mbuf → Mbuf × α → Prop}
    (h : ∀ s m, R m ({ m with frame := (process.exec (Run.start m.frame s)).2.frame },
      (process.exec (Run.start m.frame s)).1)) (s : σ) (bufs : List Mbuf) :
    List.Forall₂ R bufs (processAll process s bufs).1 := by
  induction bufs generalizing s with
  | nil => exact List.Forall₂.nil
  | cons m ms ih => exact List.Forall₂.cons (h s m) (ih _)

end Programs

end PacketBench.Dpdk

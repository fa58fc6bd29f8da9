import PacketBench.Dpdk.Burst
import PacketBench.Dpdk.Classify
import PacketBench.Frame.Payload

/-! # The DPDK programs that consume their frames

`aggregate`, `reduce`, `histogram`, `filter`, `copy_to_host` and
`copy_from_host` work on the payload words of the frames they accept and count
these. They share the end of a turn: when the count is a multiple of
`MiB / TOT_SIZE_B` the first mbuf of the burst is sent back as a notification,
and then all mbufs are freed.
-/

namespace PacketBench.Dpdk

open Bytes PktM

variable {σ : Type}

abbrev Counters := ℕ → BitVec 32

def rteAtomic32Add (i : ℕ) (v : BitVec 32) : PktM Counters Unit := do
  let counters ← getStore
  putStore (Function.update counters i (counters i + v))

def rteAtomic32Set (i : ℕ) (v : BitVec 32) : PktM Counters Unit := do
  let counters ← getStore
  putStore (Function.update counters i v)

/-- The result is `none` when the program exits and otherwise tells whether the frame counts. -/
def aggregate : PktM (BitVec 32) (Option Bool) :=
  classify (some false) wrongSize fun _ _ udp size => do
    let payload := udp + sizeofUdphdr
    let res ← sumWords payload (size.toNat / dataSizeB)
    putStore ((← getStore) + res)
    return some true

def reduce : PktM Counters (Option Bool) :=
  classify (some false) wrongSize fun _ _ udp size => do
    let payload := udp + sizeofUdphdr
    forWords (fun i => do rteAtomic32Add i (← loadWord payload i)) (size.toNat / dataSizeB)
    return some true

def histogNr : ℤ := 1024

/-- Count the payload words from index `i` on; the result tells whether all keys were good. -/
def countKeys (payload i : ℕ) : ℕ → PktM Counters Bool
  | 0 => return true
  | n + 1 => do
    let key ← loadWord payload i
    if key.toInt > histogNr ∨ key.toInt < 0 then
      return false
    rteAtomic32Add key.toNat 1
    countKeys payload (i + 1) n

def histogram : PktM Counters (Option Bool) :=
  classify (some false) wrongSize fun _ _ udp size => do
    let payload := udp + sizeofUdphdr
    if ← countKeys payload 0 (size.toNat / dataSizeB) then
      return some true
    else
      return none

structure FilterStore where
  table : BitVec 32 → Bool
  copyVal : Counters

def filter : PktM FilterStore (Option Bool) :=
  classify (some false) wrongSize fun _ ip udp size => do
    let payload := udp + sizeofUdphdr
    let key := ntohl (← load (ipDaddr ip) 32)
    if ¬ (← getStore).table key then
      return some true
    forWords (fun i => do
      let s ← getStore
      putStore { s with copyVal := Function.update s.copyVal i (← loadWord payload i) })
      (size.toNat / dataSizeB)
    return some true

def copyToHost : PktM Counters (Option Bool) :=
  classify (some false) wrongSize fun _ _ udp size => do
    let payload := udp + sizeofUdphdr
    forWords (fun i => do rteAtomic32Set i (← loadWord payload i)) (size.toNat / dataSizeB)
    return some true

def copyFromHost : PktM Counters (Option Bool) :=
  classify (some false) wrongSize fun _ _ udp size => do
    let payload := udp + sizeofUdphdr
    forWords (fun i => do store (payload + dataSizeB * i) 32 ((← getStore) i))
      (size.toNat / dataSizeB)
    return some true

inductive SinkApp where
  | aggregate
  | reduce
  | histogram
  | filter
  | copyToHost
  | copyFromHost
  deriving DecidableEq, Repr

namespace SinkApp

def Store : SinkApp → Type
  | .aggregate => BitVec 32
  | .filter => FilterStore
  | .reduce | .histogram | .copyToHost | .copyFromHost => Counters

def process : (app : SinkApp) → PktM app.Store (Option Bool)
  | .aggregate => Dpdk.aggregate
  | .reduce => Dpdk.reduce
  | .histogram => Dpdk.histogram
  | .filter => Dpdk.filter
  | .copyToHost => Dpdk.copyToHost
  | .copyFromHost => Dpdk.copyFromHost

/-- How a program turns the first mbuf of a burst into a notification. -/
def notify (rteIpv4UdptcpCksum : Cksum) (app : SinkApp) : PktM app.Store Unit := do
  let eth := 0
  let ip := eth + sizeofEthhdr
  let udp := ip + sizeofIphdr
  swapInfos eth ip udp
  if app = .copyFromHost then
    refreshCksum rteIpv4UdptcpCksum ip udp

end SinkApp

structure SinkState (σ : Type) where
  pktRec : BitVec 32
  store : σ

/-- What becomes of the mbufs of a burst, and their frames after the turn. -/
structure SinkStep (σ : Type) where
  bufs : List Mbuf
  offered : List Mbuf
  taken : List Mbuf
  freed : List Mbuf
  state : SinkState σ

def SinkStep.notified (step : SinkStep σ) : Bool := !step.offered.isEmpty

def Completes (pktRec : BitVec 32) : Prop := pktRec.toInt.tmod (miB / totSizeB : ℕ) = 0

instance : DecidablePred Completes := fun pktRec =>
  inferInstanceAs (Decidable (pktRec.toInt.tmod (miB / totSizeB : ℕ) = 0))

def rewriteFirst (notify : PktM σ Unit) (s : σ) : List Mbuf → List Mbuf
  | [] => []
  | m :: ms => { m with frame := (notify.exec (Run.start m.frame s)).2.frame } :: ms

/-- One turn of `lcore_main`; there is no result when the program exits. -/
def sinkBurst (process : PktM σ (Option Bool)) (notify : PktM σ Unit) (tx : TxBurst)
    (s : SinkState σ) (b : Burst) : Option (SinkStep σ) :=
  let nbRx := b.bufs.length
  if nbRx = 0 then some ⟨[], [], [], [], s⟩
  else
    let (loop, store) := processAll process s.store b.bufs
    if loop.any (·.2.isNone) then none
    else
      let bufs := loop.map Prod.fst
      let nbMngRx := loop.countP (·.2 = some true)
      let pktRec := s.pktRec + BitVec.ofNat 32 nbMngRx
      if Completes pktRec then
        let bufs := rewriteFirst notify store bufs
        let offered := bufs.take 1
        some ⟨bufs, offered, offered.take (tx.sent 1), freeAll bufs, ⟨pktRec, store⟩⟩
      else some ⟨bufs, [], [], freeAll bufs, ⟨pktRec, store⟩⟩

def sinkRun (process : PktM σ (Option Bool)) (notify : PktM σ Unit) :
    SinkState σ → List (TxBurst × Burst) → Option (List (SinkStep σ))
  | _, [] => some []
  | s, (tx, b) :: rest => do
    let step ← sinkBurst process notify tx s b
    let steps ← sinkRun process notify step.state rest
    return step :: steps

/-- What a program does to an mbuf: it counts an accepted frame, unless it exits, and leaves any
other one alone. -/
structure Counted (m : Mbuf) (out : Mbuf × Option Bool) : Prop where
  accepted : Accepted m.frame → out.2 = some true ∨ out.2 = none
  rejected : ¬ Accepted m.frame → out.2 = some false ∧ out.1.frame = m.frame

/-- A program that classifies a frame and then consumes it. -/
def Counts (process : PktM σ (Option Bool)) : Prop :=
  ∀ s m, Counted m ({ m with frame := (process.exec (Run.start m.frame s)).2.frame },
    (process.exec (Run.start m.frame s)).1)

theorem counts_classify {body : ℕ → ℕ → ℕ → BitVec 16 → PktM σ (Option Bool)}
    (h : ∀ r, ((body 0 14 34 (BitVec.ofNat 16 totSizeB)).exec r).1 = some true ∨
      ((body 0 14 34 (BitVec.ofNat 16 totSizeB)).exec r).1 = none) :
    Counts (classify (some false) wrongSize body) := by
  intro s m
  rw [exec_classify rfl]
  by_cases hm : Accepted m.frame
  · exact ⟨fun _ => by simpa only [Run.start_frame, if_pos hm] using h _,
      fun hn => absurd hm hn⟩
  · refine ⟨fun ha => absurd ha hm, fun _ => ?_⟩
    simp only [Run.start_frame, if_neg hm, Run.touch_frame, and_self]

def Finishes (process : PktM σ (Option Bool)) : Prop :=
  ∀ r, (process.exec r).1.isSome

theorem counts_of_true {body : ℕ → ℕ → ℕ → BitVec 16 → PktM σ (Option Bool)}
    (h : ∀ r, ((body 0 14 34 (BitVec.ofNat 16 totSizeB)).exec r).1 = some true) :
    Counts (classify (some false) wrongSize body) ∧
      Finishes (classify (some false) wrongSize body) := by
  refine ⟨counts_classify fun r => Or.inl (h r), fun r => ?_⟩
  rw [exec_classify rfl]
  split_ifs
  · rw [h]
    rfl
  · rfl

theorem counts_aggregate : Counts aggregate ∧ Finishes aggregate :=
  counts_of_true fun r => by simp only [exec_bind, exec_pure]

theorem counts_reduce : Counts reduce ∧ Finishes reduce :=
  counts_of_true fun r => by simp only [exec_bind, exec_pure]

theorem counts_histogram : Counts histogram := by
  refine counts_classify fun r => ?_
  simp only [exec_bind, exec_ite, exec_pure]
  split_ifs
  · exact Or.inl rfl
  · exact Or.inr rfl

theorem counts_filter : Counts filter ∧ Finishes filter := by
  refine counts_of_true fun r => ?_
  simp only [exec_bind, exec_ite, exec_pure]
  split_ifs <;> rfl

theorem counts_copyToHost : Counts copyToHost ∧ Finishes copyToHost :=
  counts_of_true fun r => by simp only [exec_bind, exec_pure]

theorem counts_copyFromHost : Counts copyFromHost ∧ Finishes copyFromHost :=
  counts_of_true fun r => by simp only [exec_bind, exec_pure]

theorem counts_process : ∀ app : SinkApp, Counts app.process
  | .aggregate => counts_aggregate.1
  | .reduce => counts_reduce.1
  | .histogram => counts_histogram
  | .filter => counts_filter.1
  | .copyToHost => counts_copyToHost.1
  | .copyFromHost => counts_copyFromHost.1

/-- Only the histogram exits. -/
theorem finishes_process : ∀ app : SinkApp, app ≠ .histogram → Finishes app.process
  | .aggregate, _ => counts_aggregate.2
  | .reduce, _ => counts_reduce.2
  | .histogram, h => absurd rfl h
  | .filter, _ => counts_filter.2
  | .copyToHost, _ => counts_copyToHost.2
  | .copyFromHost, _ => counts_copyFromHost.2

theorem isSome_of_processAll {process : PktM σ (Option Bool)} (h : Finishes process)
    (s : σ) (bufs : List Mbuf) : ∀ out ∈ (processAll process s bufs).1, out.2.isSome := by
  induction bufs generalizing s with
  | nil => exact fun out hout => absurd hout List.not_mem_nil
  | cons m ms ih => exact List.forall_mem_cons.mpr ⟨h _, ih _⟩

theorem exists_sinkBurst {process : PktM σ (Option Bool)} (h : Finishes process)
    (notify : PktM σ Unit) (tx : TxBurst) (s : SinkState σ) (b : Burst) :
    ∃ step, sinkBurst process notify tx s b = some step := by
  have hloop := isSome_of_processAll h s.store b.bufs
  rw [sinkBurst]
  generalize processAll process s.store b.bufs = result at hloop
  obtain ⟨loop, store⟩ := result
  have hexit : ¬ loop.any (·.2.isNone) := by
    rw [List.any_eq_true]
    rintro ⟨out, hout, hnone⟩
    have hout := hloop out hout
    rw [Option.isNone_iff_eq_none.mp hnone] at hout
    cases hout
  simp only [if_neg hexit]
  split_ifs <;> exact ⟨_, rfl⟩

theorem exists_sinkRun {process : PktM σ (Option Bool)} (h : Finishes process)
    (notify : PktM σ Unit) (s : SinkState σ) (run : List (TxBurst × Burst)) :
    ∃ steps, sinkRun process notify s run = some steps := by
  induction run generalizing s with
  | nil => exact ⟨[], rfl⟩
  | cons x run ih =>
    obtain ⟨step, hstep⟩ := exists_sinkBurst h notify x.1 s x.2
    obtain ⟨steps, hsteps⟩ := ih step.state
    exact ⟨step :: steps, by rw [sinkRun, hstep]; simp [hsteps]⟩

/-- A program that folds the frames it accepts into its store. -/
structure Adds (process : PktM σ (Option Bool)) (g : σ → Frame → σ) : Prop where
  accepted : ∀ s f, Accepted f → (process.exec (Run.start f s)).1 = some true ∧
    (process.exec (Run.start f s)).2.store = g s f
  rejected : ∀ s f, ¬ Accepted f → (process.exec (Run.start f s)).1 = some false ∧
    (process.exec (Run.start f s)).2.store = s

theorem words_totSizeB : (BitVec.ofNat 16 totSizeB).toNat / dataSizeB = dataNr := by decide

theorem adds_classify {body : ℕ → ℕ → ℕ → BitVec 16 → PktM σ (Option Bool)} {g : σ → Frame → σ}
    (h : ∀ r : Run σ, ((body 0 14 34 (BitVec.ofNat 16 totSizeB)).exec r).1 = some true ∧
      ((body 0 14 34 (BitVec.ofNat 16 totSizeB)).exec r).2.store = g r.store r.frame) :
    Adds (classify (some false) wrongSize body) g := by
  constructor
  · intro s f hf
    rw [exec_classify rfl, Run.start_frame, if_pos hf]
    exact h _
  · intro s f hf
    rw [exec_classify rfl, Run.start_frame, if_neg hf]
    exact ⟨rfl, rfl⟩

theorem adds_aggregate : Adds aggregate fun s f => s + f.wordsSum dataNr := by
  refine adds_classify fun r => ?_
  simp only [payload_offset, words_totSizeB, exec_bind, exec_getStore, exec_putStore, exec_pure,
    exec_sumWords, Run.setStore_store, Run.touch_store, and_self]

theorem adds_forWords (step : ℕ → ℕ → PktM Counters Unit) (op : BitVec 32 → BitVec 32 → BitVec 32)
    (h : ∀ i (r : Run Counters), (step 42 i).exec r =
      ((), (r.setStore (Function.update r.store i (op (r.store i) (r.frame.word i)))).touch
        (42 + 4 * i + 4))) :
    Adds (classify (some false) wrongSize fun _ _ udp size => do
      let payload := udp + sizeofUdphdr
      forWords (step payload) (size.toNat / dataSizeB)
      return some true) fun s f => f.combine op s dataNr := by
  refine adds_classify fun r => ?_
  have hwalk := exec_forWords_store
    (g := fun f i s => Function.update s i (op (s i) (f.word i))) h dataNr r
  simp only [payload_offset, words_totSizeB, exec_bind, exec_pure, true_and]
  rw [hwalk, Run.touch_store, Run.setStore_store]
  exact Frame.foldl_update r.frame op r.store dataNr

theorem adds_reduce : Adds reduce fun s f => f.combine (· + ·) s dataNr :=
  adds_forWords (fun payload i => do rteAtomic32Add i (← loadWord payload i)) (· + ·)
    fun _ _ => rfl

theorem adds_copyToHost : Adds copyToHost fun s f => f.combine (fun _ w => w) s dataNr :=
  adds_forWords (fun payload i => do rteAtomic32Set i (← loadWord payload i)) (fun _ w => w)
    fun _ _ => rfl

/-- The filter's test: the match table has the destination address. -/
def Matches (s : FilterStore) (f : Frame) : Prop := s.table (ntohl (f.mem.load (ipDaddr 14) 32))

instance (s : FilterStore) : DecidablePred (Matches s) := fun f =>
  inferInstanceAs (Decidable (s.table (ntohl (f.mem.load (ipDaddr 14) 32))))

def copyMatching (s : FilterStore) (f : Frame) : FilterStore :=
  if Matches s f then { s with copyVal := f.combine (fun _ w => w) s.copyVal dataNr } else s

theorem foldl_copyVal (f : Frame) (s : FilterStore) (n : ℕ) :
    (List.range n).foldl (fun s i => { s with copyVal := Function.update s.copyVal i (f.word i) })
      s = { s with copyVal := f.combine (fun _ w => w) s.copyVal n } := by
  rw [← Frame.foldl_update]
  induction n with
  | zero => rfl
  | succ n ih => rw [List.range_succ, List.foldl_concat, List.foldl_concat, ih]

theorem adds_filter : Adds filter copyMatching := by
  refine adds_classify fun r => ?_
  have hwalk := fun r => exec_forWords_store
    (g := fun f i s => { s with copyVal := Function.update s.copyVal i (f.word i) })
    (fun i r => (rfl : (do
      let s ← getStore
      putStore { s with copyVal := Function.update s.copyVal i (← loadWord 42 i) } :
        PktM FilterStore Unit).exec r = _)) dataNr r
  unfold copyMatching Matches
  by_cases hmatch : r.store.table (ntohl (r.frame.mem.load (ipDaddr 14) 32))
  · simp only [payload_offset, words_totSizeB, exec_bind, exec_load, exec_getStore, exec_pure,
      Run.touch_store, hmatch, not_true_eq_false, if_false, if_true, hwalk, Run.touch_frame,
      Run.setStore_store, foldl_copyVal, and_self]
  · simp only [exec_bind, exec_load, exec_getStore, exec_pure, Run.touch_store, hmatch,
      Bool.false_eq_true, not_false_eq_true, if_true, if_false, and_self]

end PacketBench.Dpdk

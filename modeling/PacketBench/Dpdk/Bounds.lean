import PacketBench.Dpdk.Echo
import PacketBench.Dpdk.Sinks

/-! # How far the DPDK programs reach

The DPDK programs take the length of a payload from the UDP header and never
look at the length of the frame. So each of them touches a number of bytes that
depends on the headers and the payload, and stays inside a frame when the frame
is that long.
-/

namespace PacketBench.Dpdk

open Bytes PktM

inductive App where
  | sink (app : SinkApp)
  | echo (app : EchoApp)
  deriving DecidableEq, Repr

variable (H : RteHash) (rteIpv4UdptcpCksum : Cksum)

def App.Store : App → Type
  | sink app => app.Store
  | echo app => app.Store H

/-- The end of the farthest byte a program touches while it classifies and processes a frame. -/
def App.reach : (app : App) → app.Store H → Frame → ℕ
  | sink app, s, f => (app.process.exec (Run.start f s)).2.reach
  | echo app, s, f => ((app.process H rteIpv4UdptcpCksum).exec (Run.start f s)).2.reach

/-- The number of words read from index `i` on until one is no key. -/
def keysRead (f : Frame) (i : ℕ) : ℕ → ℕ
  | 0 => 0
  | n + 1 =>
    if (f.word i).toInt > histogNr ∨ (f.word i).toInt < 0 then 1 else keysRead f (i + 1) n + 1

def datagramEnd (f : Frame) : ℕ := 34 + datagramLength f 14

variable {H}

/-- The bytes of an accepted frame that a program touches. -/
def App.payloadEnd (f : Frame) : (app : App) → app.Store H → ℕ
  | sink .aggregate, _ | sink .reduce, _ | sink .copyToHost, _ | sink .copyFromHost, _ =>
    42 + totSizeB
  | sink .histogram, _ => 42 + 4 * keysRead f 0 dataNr
  | sink .filter, s => if s.table (ntohl (f.mem.load 30 32)) then 42 + totSizeB else 40
  | echo .pingpong, _ => 40
  | echo .kvstore, _ => max 54 (datagramEnd f)
  | echo .zuc, _ => max (42 + totSizeB) (datagramEnd f)

/-- The bytes a program touches when those of an accepted frame end at `n`. -/
def classifiedEnd (f : Frame) (n : ℕ) : ℕ :=
  if f.etherType ≠ etherTypeIpv4 then 14 else if ¬ f.Announces totSizeB then 40 else n

def App.neededLength (app : App) (s : app.Store H) (f : Frame) : ℕ :=
  classifiedEnd f (app.payloadEnd f s)

def ReadsDatagram (rteIpv4UdptcpCksum : Cksum) : Prop :=
  ∀ f ip udp, rteIpv4UdptcpCksum.reach f ip udp = udp + datagramLength f ip

theorem readsDatagram_rteCksum : ReadsDatagram rteCksum := fun _ _ _ => rfl

section Parts

variable {σ α : Type} {f : Frame} {s : σ}

theorem classifiedEnd_of_accepted (h : Accepted f) (n : ℕ) : classifiedEnd f n = n := by
  unfold classifiedEnd
  rw [if_neg (not_not.mpr h.1), if_neg (not_not.mpr h.2)]

theorem classifiedEnd_of_not (h : ¬ Accepted f) (n : ℕ) : classifiedEnd f n = classifyReach f := by
  unfold classifiedEnd classifyReach
  by_cases htype : f.etherType = etherTypeIpv4
  · rw [if_neg (not_not.mpr htype), if_pos fun hsize => h ⟨htype, hsize⟩, if_pos htype]
  · rw [if_pos htype, if_neg htype]

theorem reach_classify {rejected : α} {wrong : BitVec 16 → Bool} (hwrong : wrong = wrongSize)
    {body : ℕ → ℕ → ℕ → BitVec 16 → PktM σ α} {n : ℕ} (hn : 40 ≤ n)
    (h : ∀ r : Run σ, r.frame = f → r.store = s → 40 ≤ r.reach →
      ((body 0 14 34 (BitVec.ofNat 16 totSizeB)).exec r).2.reach = max r.reach n) :
    ((classify rejected wrong body).exec (Run.start f s)).2.reach = classifiedEnd f n := by
  rw [exec_classify hwrong, Run.start_frame]
  by_cases hacc : Accepted f
  · have hreach : classifyReach f = 40 := if_pos hacc.1
    rw [hreach, if_pos hacc, classifiedEnd_of_accepted hacc, h _ rfl rfl (le_max_right _ _),
      Run.touch_reach, Run.start_reach]
    omega
  · rw [if_neg hacc, classifiedEnd_of_not hacc, Run.touch_reach, Run.start_reach, Nat.zero_max]

theorem reach_countKeys (i n : ℕ) (r : Run Counters) : ((countKeys 42 i n).exec r).2.reach =
    max r.reach (if n = 0 then 0 else 42 + 4 * (i + keysRead r.frame i n)) := by
  induction n generalizing i r with
  | zero => rw [countKeys, exec_pure, if_pos rfl, max_zero]
  | succ n ih =>
    rw [if_neg n.succ_ne_zero, countKeys, keysRead, exec_bind, exec_loadWord]
    by_cases hkey : (r.frame.word i).toInt > histogNr ∨ (r.frame.word i).toInt < 0
    · simp only [if_pos hkey, exec_pure, Run.touch_reach]
      omega
    · simp only [if_neg hkey, exec_bind, ih, rteAtomic32Add, exec_getStore, exec_putStore,
        Run.setStore_frame, Run.setStore_reach, Run.touch_frame, Run.touch_reach]
      cases n with
      | zero =>
        simp only [keysRead, if_pos]
        omega
      | succ n =>
        rw [if_neg n.succ_ne_zero]
        omega

theorem reach_forWords {body : ℕ → PktM σ Unit}
    (h : ∀ i r, ((body i).exec r).2.reach = max r.reach (42 + 4 * i + 4)) (n : ℕ) (r : Run σ) :
    ((forWords body n).exec r).2.reach = max r.reach (wordsReach n) := by
  induction n with
  | zero => simp [forWords]
  | succ n ih => rw [forWords, exec_bind, h, ih, max_assoc, max_wordsReach]

theorem wordsReach_dataNr : wordsReach dataNr = 42 + totSizeB := by decide

theorem reach_walk {body : ℕ → PktM σ Unit}
    (h : ∀ i r, ((body i).exec r).2.reach = max r.reach (42 + 4 * i + 4)) (a : α) (r : Run σ) :
    ((do forWords body dataNr; return a : PktM σ α).exec r).2.reach =
      max r.reach (42 + totSizeB) := by
  rw [exec_bind, exec_pure, reach_forWords h, wordsReach_dataNr]

end Parts

section Programs

variable (f : Frame)

theorem reach_aggregate (s : BitVec 32) :
    (aggregate.exec (Run.start f s)).2.reach = classifiedEnd f (42 + totSizeB) := by
  refine reach_classify rfl (by decide) fun r _ _ _ => ?_
  simp only [payload_offset, words_totSizeB, exec_bind, exec_getStore, exec_putStore, exec_pure,
    exec_sumWords, Run.setStore_reach, Run.touch_reach, wordsReach_dataNr]

theorem reach_reduce (s : Counters) :
    (reduce.exec (Run.start f s)).2.reach = classifiedEnd f (42 + totSizeB) := by
  refine reach_classify rfl (by decide) fun r _ _ _ => ?_
  simp only [words_totSizeB]
  exact reach_walk (fun i r => by rfl) (some true) r

theorem reach_copyToHost (s : Counters) :
    (copyToHost.exec (Run.start f s)).2.reach = classifiedEnd f (42 + totSizeB) := by
  refine reach_classify rfl (by decide) fun r _ _ _ => ?_
  simp only [words_totSizeB]
  exact reach_walk (fun i r => by rfl) (some true) r

theorem reach_copyFromHost (s : Counters) :
    (copyFromHost.exec (Run.start f s)).2.reach = classifiedEnd f (42 + totSizeB) := by
  refine reach_classify rfl (by decide) fun r _ _ _ => ?_
  simp only [words_totSizeB]
  exact reach_walk (fun i r => by rfl) (some true) r

theorem reach_histogram (s : Counters) : (histogram.exec (Run.start f s)).2.reach =
    classifiedEnd f (42 + 4 * keysRead f 0 dataNr) := by
  refine reach_classify rfl (by omega) fun r hf _ _ => ?_
  simp only [payload_offset, words_totSizeB, exec_bind, exec_ite, exec_pure]
  have hkeys := reach_countKeys 0 dataNr r
  rw [if_neg (by decide), zero_add, hf] at hkeys
  split_ifs <;> exact hkeys

theorem reach_filter (s : FilterStore) : (filter.exec (Run.start f s)).2.reach =
    classifiedEnd f (if s.table (ntohl (f.mem.load 30 32)) then 42 + totSizeB else 40) := by
  refine reach_classify rfl (by split_ifs <;> decide) fun r hf hs hr => ?_
  have hdaddr : ipDaddr 14 = 30 := rfl
  simp only [payload_offset, hdaddr, words_totSizeB, exec_bind, exec_ite, exec_pure, exec_load,
    exec_getStore, Run.touch_store, hf, hs, ite_not]
  split_ifs with hmatch
  · rw [reach_forWords (fun i r => by rfl), wordsReach_dataNr, Run.touch_reach]
    simp only [totSizeB]
    omega
  · rw [Run.touch_reach]
    omega

theorem reach_pingpong (s : Unit) :
    (pingpong.exec (Run.start f s)).2.reach = classifiedEnd f 40 := by
  refine reach_classify rfl le_rfl fun r _ _ hr => ?_
  simp only [exec_bind, exec_swapInfos, exec_pure, Run.touch_reach, Run.setMem_reach]
  omega

theorem datagramLength_reply {m : Mem} (h : ∀ a < 38, m a = f.mem a) :
    datagramLength ⟨f.len, (swapHeaders m).store 40 16 0⟩ 14 = datagramLength f 14 := by
  have hload : ∀ {off n}, 12 ≤ off → off + n / 8 ≤ 26 →
      ((swapHeaders m).store 40 16 0).load off n = f.mem.load off n := by
    intro off n hlow hhigh
    rw [Mem.load_store_of_disjoint _ (by omega), load_swapHeaders (Or.inl ⟨hlow, hhigh⟩)]
    exact Mem.load_congr fun i hi => h _ (by omega)
  unfold datagramLength
  rw [hload (by omega) (by omega), hload (by omega) (by omega)]

variable {rteIpv4UdptcpCksum}

theorem reach_reply (hreads : ReadsDatagram rteIpv4UdptcpCksum) (hacc : Accepted f) {m : Mem}
    (hkept : ∀ a < 38, m a = f.mem a) {n : ℕ} (hn : 42 ≤ n) :
    max 0 (max (classifyReach f) (max n (max 42 (rteIpv4UdptcpCksum.reach
      ⟨f.len, (swapHeaders m).store 40 16 0⟩ 14 34)))) =
      classifiedEnd f (max n (datagramEnd f)) := by
  have hreach : classifyReach f = 40 := if_pos hacc.1
  rw [hreads, datagramLength_reply f hkept, hreach, classifiedEnd_of_accepted hacc, datagramEnd]
  omega

theorem reach_kvstore (hreads : ReadsDatagram rteIpv4UdptcpCksum) (s : Cache H) :
    ((kvstore H rteIpv4UdptcpCksum).exec (Run.start f s)).2.reach =
      classifiedEnd f (max 54 (datagramEnd f)) := by
  by_cases hacc : Accepted f
  · have hanswer : ∀ a < 38, answer H s f a = f.mem a := by
      intro a ha
      rcases eq_or_ne (f.word 0) 0 with hflag | hflag
      · rw [answer_of_read hflag, Mem.store_apply_of_outside _ (by omega)]
      · rw [answer_of_write hflag]
    rw [exec_kvstore_of_accepted rteIpv4UdptcpCksum (r := Run.start f s) hacc]
    exact reach_reply f hreads hacc hanswer (by decide)
  · rw [exec_kvstore_of_not rteIpv4UdptcpCksum (r := Run.start f s) hacc,
      classifiedEnd_of_not hacc]
    exact Nat.zero_max _

theorem reach_zuc (hreads : ReadsDatagram rteIpv4UdptcpCksum) (s : ZucStore) :
    ((zuc rteIpv4UdptcpCksum).exec (Run.start f s)).2.reach =
      classifiedEnd f (max (42 + totSizeB) (datagramEnd f)) := by
  by_cases hacc : Accepted f
  · have hkept : ∀ a < 38, encrypted s f.mem cipherLength a = f.mem a :=
      fun a ha => encrypted_apply_of_lt _ _ _ (by omega)
    rw [exec_zuc_of_accepted (r := Run.start f s) hacc]
    exact reach_reply f hreads hacc hkept (Nat.le_add_right 42 totSizeB)
  · rw [exec_zuc_of_not (r := Run.start f s) hacc, classifiedEnd_of_not hacc]
    exact Nat.zero_max _

theorem reach_eq_neededLength (H : RteHash) (hreads : ReadsDatagram rteIpv4UdptcpCksum) :
    (app : App) → (s : app.Store H) →
      app.reach H rteIpv4UdptcpCksum s f = app.neededLength s f
  | .sink .aggregate, s => reach_aggregate f s
  | .sink .reduce, s => reach_reduce f s
  | .sink .histogram, s => reach_histogram f s
  | .sink .filter, s => reach_filter f s
  | .sink .copyToHost, s => reach_copyToHost f s
  | .sink .copyFromHost, s => reach_copyFromHost f s
  | .echo .pingpong, s => reach_pingpong f s
  | .echo .kvstore, s => reach_kvstore f hreads s
  | .echo .zuc, s => reach_zuc f hreads s

end Programs

/-- A program stays inside the frame when the frame has all bytes that its headers promise and the
program takes up. -/
theorem in_bounds_iff (H : RteHash) (rteIpv4UdptcpCksum : Cksum)
    (hreads : ReadsDatagram rteIpv4UdptcpCksum) (app : App) (s : app.Store H) (f : Frame) :
    app.reach H rteIpv4UdptcpCksum s f ≤ f.len ↔ app.neededLength s f ≤ f.len := by
  rw [reach_eq_neededLength f H hreads]

theorem in_bounds_iff_requestFrame :
    (App.sink .aggregate).reach plainHash rteCksum (0 : BitVec 32) (requestFrame 1 7 42) ≤ 1066 ↔
      (App.sink .aggregate).neededLength (H := plainHash) (0 : BitVec 32) (requestFrame 1 7 42) ≤
        1066 :=
  in_bounds_iff plainHash rteCksum readsDatagram_rteCksum (.sink .aggregate) (0 : BitVec 32)
    (requestFrame 1 7 42)

/-- A minimal Ethernet frame whose UDP header announces `TOT_SIZE_B` bytes. -/
def truncatedRequest : Frame := ⟨60, requestHeaders⟩

theorem not_in_bounds_truncatedRequest :
    ¬ (App.sink .aggregate).reach plainHash rteCksum (0 : BitVec 32) truncatedRequest ≤
      truncatedRequest.len := by
  have hacc : Accepted truncatedRequest := by decide
  have hreach : (App.sink .aggregate).reach plainHash rteCksum (0 : BitVec 32) truncatedRequest =
      classifiedEnd truncatedRequest (42 + totSizeB) :=
    reach_eq_neededLength truncatedRequest plainHash readsDatagram_rteCksum (.sink .aggregate) _
  intro h
  rw [hreach, classifiedEnd_of_accepted hacc] at h
  simp only [totSizeB, truncatedRequest] at h
  omega

end PacketBench.Dpdk

import PacketBench.Dpdk.Echo
import PacketBench.Dpdk.Sinks
import PacketBench.Xdp.Refresh

/-! # The reply swap and the checksums

The exchange of addresses and ports moves 16-bit words within the sums under
the UDP checksum and under the checksum of the IPv4 header. So the programs
that change nothing else answer without computing a checksum, and the
key-value store computes it before the exchange.
-/

namespace PacketBench.Compare

open Bytes OnesComplement PktM

/-- The value of `caludpcsum`, the sum under the UDP checksum and that over the IPv4 header. -/
structure SameSums (f g : Frame) : Prop where
  caludpcsum : ((Xdp.caludpcsum 14 34).exec (Run.start g ())).1 =
    ((Xdp.caludpcsum 14 34).exec (Run.start f ())).1
  datagram : ∀ n, sizeofUdphdr ≤ n → fold 65536 (Xdp.checksummedSum g.mem 14 34 n) =
    fold 65536 (Xdp.checksummedSum f.mem 14 34 n)
  header : fold 65536 (Xdp.wordSum g.mem 14 (sizeofIphdr / 2)) =
    fold 65536 (Xdp.wordSum f.mem 14 (sizeofIphdr / 2))

def HeaderVerifies (m : Mem) : Prop := fold 65536 (Xdp.wordSum m 14 (sizeofIphdr / 2)) = 0xFFFF

structure KeepsVerifying (f g : Frame) : Prop where
  datagram : ∀ n, sizeofUdphdr ≤ n → Xdp.ChecksumVerifies f.mem 14 34 n →
    Xdp.ChecksumVerifies g.mem 14 34 n
  header : HeaderVerifies f.mem → HeaderVerifies g.mem

section Sums

variable (m : Mem)

theorem pseudoHeaderSum_swapHeaders (n : ℕ) :
    Xdp.pseudoHeaderSum (swapHeaders m) 14 n = Xdp.pseudoHeaderSum m 14 n := by
  have hsum := Xdp.pseudoSum_swapHeaders m
  have hlen : (swapHeaders m).load (udpLen 34) 16 = m.load (udpLen 34) 16 :=
    load_swapHeaders (by decide)
  unfold Xdp.pseudoSum at hsum
  unfold Xdp.pseudoHeaderSum
  rw [hlen] at hsum
  omega

theorem checksummedSum_swapHeaders {n : ℕ} (hn : sizeofUdphdr ≤ n) :
    Xdp.checksummedSum (swapHeaders m) 14 34 n = Xdp.checksummedSum m 14 34 n := by
  have hwords : 4 ≤ n / 2 := by
    simp only [sizeofUdphdr] at hn
    omega
  have hlast : swapHeaders m (34 + 2 * (n / 2)) = m (34 + 2 * (n / 2)) :=
    swapHeaders_apply_of_le (by omega)
  rw [Xdp.checksummedSum, Xdp.checksummedSum, Xdp.datagramSum, Xdp.datagramSum,
    pseudoHeaderSum_swapHeaders, Xdp.wordSum_swapHeaders (by omega), hlast]

theorem headerSum_swapHeaders :
    Xdp.wordSum (swapHeaders m) 14 (sizeofIphdr / 2) = Xdp.wordSum m 14 (sizeofIphdr / 2) := by
  have hkept : ∀ off, 12 ≤ off → off + 2 ≤ 26 → (swapHeaders m).load off 16 = m.load off 16 :=
    fun off h h' => load_swapHeaders (Or.inl ⟨h, h'⟩)
  have hsaddr := Xdp.load_swapHeaders_saddr (m := m) (d := 0) (by omega)
  have hsaddr' := Xdp.load_swapHeaders_saddr (m := m) (d := 2) (by omega)
  have hdaddr := Xdp.load_swapHeaders_daddr (m := m) (d := 0) (by omega)
  have hdaddr' := Xdp.load_swapHeaders_daddr (m := m) (d := 2) (by omega)
  simp only [Nat.reduceAdd] at hsaddr hsaddr' hdaddr hdaddr'
  simp only [Xdp.wordSum, sizeofIphdr, Nat.reduceAdd, Nat.reduceDiv, hsaddr, hsaddr', hdaddr,
    hdaddr', hkept 14 (by omega) (by omega), hkept 16 (by omega) (by omega),
    hkept 18 (by omega) (by omega), hkept 20 (by omega) (by omega),
    hkept 22 (by omega) (by omega), hkept 24 (by omega) (by omega)]
  omega

end Sums

theorem sameSums_swapHeaders {f : Frame} (hudp : 42 ≤ f.len) :
    SameSums f ⟨f.len, swapHeaders f.mem⟩ := by
  constructor
  · rw [Xdp.exec_caludpcsum, Xdp.exec_caludpcsum, Run.start_frame, Run.start_frame,
      Xdp.csumSum_swapHeaders hudp]
  · intro n hn
    rw [checksummedSum_swapHeaders f.mem hn]
  · rw [headerSum_swapHeaders]

theorem headerVerifies_of_eq {f : Frame} {m : Mem} (h : ∀ a < 34, m a = swapHeaders f.mem a)
    (hverifies : HeaderVerifies f.mem) : HeaderVerifies m := by
  have hsame : Xdp.wordSum m 14 (sizeofIphdr / 2) =
      Xdp.wordSum (swapHeaders f.mem) 14 (sizeofIphdr / 2) :=
    Xdp.wordSum_congr fun a _ ha => h a (by simpa using ha)
  rw [HeaderVerifies, hsame, headerSum_swapHeaders]
  exact hverifies

theorem keepsVerifying_of_eq {f g : Frame} (h : g.mem = swapHeaders f.mem) :
    KeepsVerifying f g := by
  constructor
  · intro n hn hverifies
    rwa [Xdp.ChecksumVerifies, h, checksummedSum_swapHeaders f.mem hn]
  · exact headerVerifies_of_eq fun a _ => congrFun h a

/-- The XDP programs that send a frame back without computing a checksum. -/
def sendsAsIs : Xdp.App → Bool
  | .aggregate | .aggregateNoT | .reduce | .reduceNoT | .histogram | .histogramNoT | .filter
  | .filterNoT | .copyToHost | .copyToHostNoT | .pingPongNoT => true
  | .copyFromHost | .copyFromHostNoT | .kvstore | .kvstoreNoT | .pingPong | .baseline
  | .loadbalancing => false

section Programs

variable {L : Xdp.LruHash} {H : Xdp.FilterHash} {arrival processed : Xdp.Instant} {f : Frame}

/-- A reply with nothing but exchanged headers. -/
def RepliesAsIs (f : Frame) (v : Xdp.Verdict) (m : Mem) : Prop := v = .tx → m = swapHeaders f.mem

theorem repliesAsIs_of_ne {v : Xdp.Verdict} (hv : v ≠ .tx) (m : Mem) : RepliesAsIs f v m :=
  fun htx => absurd htx hv

section Counting

variable {σ : Type} {s : Xdp.Counted σ} {work : ℕ → ℕ → BitVec 32 → PktM (Xdp.Counted σ) Bool}
  (hwork : Xdp.Takes totSizeB f → ∃ good d,
    (work 14 42 (BitVec.ofNat 32 totSizeB)).Yields f s good f.mem { s with data := d })

include hwork

theorem ends_repliesAsIs {rest : ℕ → ℕ → ℕ → PktM (Xdp.Counted σ) Xdp.Verdict}
    (hrest : Xdp.Takes totSizeB f → ∃ v m, v ≠ .tx ∧ ∀ t, (rest 14 34 42).Yields f t v m t) :
    Xdp.Ends (Xdp.countPackets totSizeB work Xdp.asIs rest) f s (RepliesAsIs f) := by
  refine Xdp.ends_reading_of (repliesAsIs_of_ne (by decide) _) (fun _ => rfl) hwork fun h => ?_
  obtain ⟨v, m, hv, hyields⟩ := hrest h
  exact ⟨v, m, repliesAsIs_of_ne hv m, hyields⟩

theorem ends_leave {v : Xdp.Verdict} (hv : v ≠ .tx) :
    Xdp.Ends (Xdp.countPackets totSizeB work Xdp.asIs (Xdp.leave v)) f s (RepliesAsIs f) :=
  ends_repliesAsIs hwork fun _ => ⟨v, f.mem, hv, fun _ => Xdp.yields_leave v⟩

theorem ends_stampAndPass (first second : BitVec 64) :
    Xdp.Ends (Xdp.countPackets totSizeB work Xdp.asIs (Xdp.stampAndPass first second)) f s
      (RepliesAsIs f) :=
  ends_repliesAsIs hwork fun h => ⟨_, _, by decide, fun _ => Xdp.yields_stampAndPass h _ _⟩

theorem ends_stampAndRefresh (first second : BitVec 64) :
    Xdp.Ends (Xdp.countPackets totSizeB work Xdp.asIs (Xdp.stampAndRefresh first second)) f s
      (RepliesAsIs f) :=
  ends_repliesAsIs hwork fun h => ⟨_, _, by decide, fun _ => Xdp.yields_stampAndRefresh h _ _⟩

end Counting

theorem ends_pingPongNoT : Xdp.Ends Xdp.pingPongNoT f () (RepliesAsIs f) := by
  by_cases hudp : Xdp.IsUdp f
  · exact ⟨_, _, _, Xdp.yields_pingPongNoT hudp, fun _ => rfl⟩
  · exact ⟨_, _, _, Xdp.yields_withUdp_of_not hudp, repliesAsIs_of_ne (by decide) _⟩

theorem ends_sendsAsIs (arrival processed : Xdp.Instant) (f : Frame) :
    (app : Xdp.App) → sendsAsIs app = true → (s : app.Store L H) →
      Xdp.Ends (app.process L H arrival processed) f s (RepliesAsIs f)
  | .aggregate, _, s => ends_stampAndRefresh
      (fun h => ⟨_, _, Xdp.yields_aggregateWork (by decide) h s⟩) _ _
  | .aggregateNoT, _, s => ends_leave
      (fun h => ⟨_, _, Xdp.yields_aggregateWork (by decide) h s⟩) (by decide)
  | .reduce, _, s => ends_stampAndPass
      (fun h => ⟨_, _, Xdp.yields_reduceWork (by decide) h s⟩) _ _
  | .reduceNoT, _, s => ends_leave
      (fun h => ⟨_, _, Xdp.yields_reduceWork (by decide) h s⟩) (by decide)
  | .histogram, _, s => ends_stampAndRefresh
      (fun h => ⟨_, _, Xdp.yields_histogramWork (by decide) h s⟩) _ _
  | .histogramNoT, _, s => ends_leave
      (fun h => ⟨_, _, Xdp.yields_histogramWork (by decide) h s⟩) (by decide)
  | .filter, _, s => ends_stampAndPass
      (fun h => ⟨_, _, Xdp.yields_filterWork (by decide) h s⟩) _ _
  | .filterNoT, _, s => ends_leave
      (fun h => ⟨_, _, Xdp.yields_filterWork (by decide) h s⟩) (by decide)
  | .copyToHost, _, s => ends_stampAndRefresh
      (fun h => ⟨_, _, Xdp.yields_copyToHostWork (by decide) h s⟩) _ _
  | .copyToHostNoT, _, s => ends_leave
      (fun h => ⟨_, _, Xdp.yields_copyToHostWork (by decide) h s⟩) (by decide)
  | .pingPongNoT, _, _ => ends_pingPongNoT
  | .copyFromHost, h, _ | .copyFromHostNoT, h, _ | .kvstore, h, _ | .kvstoreNoT, h, _
  | .pingPong, h, _ | .baseline, h, _ | .loadbalancing, h, _ => absurd h (by decide)

theorem mem_of_tx {app : Xdp.App} (happ : sendsAsIs app = true) (s : app.Store L H)
    (htx : (Xdp.handle (app.process L H arrival processed) s f).1 = .tx) :
    (Xdp.handle (app.process L H arrival processed) s f).2.frame.mem = swapHeaders f.mem := by
  obtain ⟨v, m, t, hyields, hreplies⟩ := ends_sendsAsIs arrival processed f app happ s
  obtain ⟨hv, hm, -, -⟩ := hyields.exec_start
  rw [Xdp.handle] at htx ⊢
  rw [hm]
  exact hreplies (hv.symm.trans htx)

theorem header_of_tx (app : Xdp.App) (s : app.Store L H)
    (htx : (Xdp.handle (app.process L H arrival processed) s f).1 = .tx) : ∀ a < 34,
    (Xdp.handle (app.process L H arrival processed) s f).2.frame.mem a = swapHeaders f.mem a := by
  obtain ⟨v, m, t, hyields, hexit⟩ := Xdp.ends_process arrival processed f app s
  obtain ⟨hv, hm, -, -⟩ := hyields.exec_start
  intro a ha
  rw [Xdp.handle] at htx ⊢
  rw [hm]
  obtain rfl : v = .tx := hv.symm.trans htx
  cases hexit with
  | regular _ _ hregular =>
    cases hregular with
    | kept hne => exact absurd rfl hne
    | refreshed hne _ => exact absurd rfl hne
    | returned => rfl
    | answered hp _ =>
      refine swapHeaders_congr (fun b hb => ?_) a (by omega)
      exact (Xdp.freshCheck_apply_of_lt (by omega)).trans (hp b hb)
    | replied hp => exact (Xdp.freshCheck_apply_of_lt (by omega)).trans (hp a (by omega))

theorem mem_pingpong (h : Dpdk.Accepted f) :
    (Dpdk.pingpong.exec (Run.start f ())).2.frame.mem = swapHeaders f.mem := by
  rw [Dpdk.pingpong, Dpdk.exec_classify rfl, Run.start_frame, if_pos h]
  simp

theorem frame_pingpong_of_not (h : ¬ Dpdk.Accepted f) :
    (Dpdk.pingpong.exec (Run.start f ())).2.frame = f := by
  rw [Dpdk.pingpong, Dpdk.exec_classify rfl, Run.start_frame, if_neg h]
  rfl

theorem mem_notify (rteIpv4UdptcpCksum : Dpdk.Cksum) {app : Dpdk.SinkApp}
    (happ : app ≠ .copyFromHost) (s : app.Store) :
    ((app.notify rteIpv4UdptcpCksum).exec (Run.start f s)).2.frame.mem = swapHeaders f.mem := by
  simp [Dpdk.SinkApp.notify, happ]

theorem header_notify (rteIpv4UdptcpCksum : Dpdk.Cksum) (app : Dpdk.SinkApp) (s : app.Store) :
    ∀ a < 34, ((app.notify rteIpv4UdptcpCksum).exec (Run.start f s)).2.frame.mem a =
      swapHeaders f.mem a := by
  intro a ha
  by_cases happ : app = .copyFromHost
  · simp only [Dpdk.SinkApp.notify, happ, if_true, sizeofEthhdr, sizeofIphdr, Nat.reduceAdd,
      exec_bind, Dpdk.exec_swapInfos, Dpdk.exec_refreshCksum, Run.touch_frame, Run.setMem_frame,
      Run.start_frame]
    rw [Mem.store_apply_of_outside _ (by omega), Mem.store_apply_of_outside _ (by omega)]
  · rw [mem_notify _ happ]

/-- The timed store computes the checksum behind the swap, the untimed one before it. -/
theorem checkFresh_kvstoreNoT {maps : Xdp.Maps L} {cont : BitVec 32} (h : Xdp.IsRequest f)
    (hread : f.word 0 = 0)
    (hval : BoundedMaps.value L.toBoundedMap Xdp.keySet maps (f.word 1) = some cont) :
    Xdp.CheckFresh (Xdp.handle (Xdp.kvstoreNoT L) maps f).2.frame := by
  rw [(Xdp.handle_kvstoreNoT maps h).2.1, Xdp.answer_of_hit hread hval]
  exact (Xdp.checkFresh_freshCheck f.len _).swapHeaders h.1.1

end Programs

/-- What the programs rely on when they answer without computing a checksum. -/
structure RepliesVerify (f : Frame) : Prop where
  swap : KeepsVerifying f ⟨f.len, swapHeaders f.mem⟩
  xdp : ∀ L H arrival processed (app : Xdp.App) (s : app.Store L H), sendsAsIs app = true →
    (Xdp.handle (app.process L H arrival processed) s f).1 = .tx →
      KeepsVerifying f (Xdp.handle (app.process L H arrival processed) s f).2.frame
  xdp_header : ∀ L H arrival processed (app : Xdp.App) (s : app.Store L H),
    (Xdp.handle (app.process L H arrival processed) s f).1 = .tx → HeaderVerifies f.mem →
      HeaderVerifies (Xdp.handle (app.process L H arrival processed) s f).2.frame.mem
  pingpong : KeepsVerifying f (Dpdk.pingpong.exec (Run.start f ())).2.frame
  notify : ∀ rteIpv4UdptcpCksum (app : Dpdk.SinkApp) s, app ≠ .copyFromHost →
    KeepsVerifying f ((app.notify rteIpv4UdptcpCksum).exec (Run.start f s)).2.frame
  notify_header : ∀ rteIpv4UdptcpCksum (app : Dpdk.SinkApp) s, HeaderVerifies f.mem →
    HeaderVerifies ((app.notify rteIpv4UdptcpCksum).exec (Run.start f s)).2.frame.mem
  kvstore : ∀ (L : Xdp.LruHash) maps cont, Xdp.IsRequest f → f.word 0 = 0 →
    BoundedMaps.value L.toBoundedMap Xdp.keySet maps (f.word 1) = some cont →
      Xdp.CheckFresh (Xdp.handle (Xdp.kvstoreNoT L) maps f).2.frame

theorem repliesVerify (f : Frame) : RepliesVerify f := by
  constructor
  · exact keepsVerifying_of_eq rfl
  · intro L H arrival processed app s happ htx
    exact keepsVerifying_of_eq (mem_of_tx happ s htx)
  · intro L H arrival processed app s htx hverifies
    exact headerVerifies_of_eq (header_of_tx app s htx) hverifies
  · by_cases hacc : Dpdk.Accepted f
    · exact keepsVerifying_of_eq (mem_pingpong hacc)
    · rw [frame_pingpong_of_not hacc]
      exact ⟨fun _ _ h => h, id⟩
  · intro rteIpv4UdptcpCksum app s happ
    exact keepsVerifying_of_eq (mem_notify rteIpv4UdptcpCksum happ s)
  · intro rteIpv4UdptcpCksum app s hverifies
    exact headerVerifies_of_eq (header_notify rteIpv4UdptcpCksum app s) hverifies
  · intro L maps cont hreq hread hval
    exact checkFresh_kvstoreNoT hreq hread hval

/-- The exchange leaves all three sums unchanged, so no reply needs a checksum because of it. -/
theorem swap_keeps_checksums (f : Frame) (hudp : 42 ≤ f.len) :
    SameSums f ⟨f.len, swapHeaders f.mem⟩ ∧ RepliesVerify f :=
  ⟨sameSums_swapHeaders hudp, repliesVerify f⟩

theorem swap_keeps_checksums_requestFrame :
    SameSums (requestFrame 1 7 42) ⟨1066, swapHeaders (requestFrame 1 7 42).mem⟩ ∧
      RepliesVerify (requestFrame 1 7 42) :=
  swap_keeps_checksums (requestFrame 1 7 42) (by decide)

end PacketBench.Compare

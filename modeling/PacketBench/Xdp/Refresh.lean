import PacketBench.Xdp.Replies

/-! # Fresh checksums

A program that changes bytes under the UDP checksum should refresh it before
the frame leaves. An exchange of addresses and ports leaves the sum as it is.
Four programs stamp or fill the payload without a refresh, so their frames
carry the checksum of the received payload.
-/

namespace PacketBench.Xdp

open Bytes PktM

variable {f g : Frame} {m m' : Mem} {v : Verdict}

theorem wordSum_congr {off k : ℕ} (h : ∀ a, off ≤ a → a < off + 2 * k → m a = m' a) :
    wordSum m off k = wordSum m' off k := by
  induction k generalizing off with
  | zero => rfl
  | succ k ih =>
    have hhead : m.load off 16 = m'.load off 16 :=
      Mem.load_congr fun i _ => h _ (by omega) (by omega)
    rw [wordSum, wordSum, hhead, ih fun a ha ha' => h a (by omega) (by omega)]

theorem load_swapHeaders_saddr {d : ℕ} (hd : d + 2 ≤ 4) :
    (swapHeaders m).load (26 + d) 16 = m.load (30 + d) 16 := by
  unfold swapHeaders
  rw [Mem.load_swap_of_disjoint (by omega) (by omega), Mem.load_swap_right_within _ rfl hd,
    Mem.load_swap_of_disjoint (by omega) (by omega)]

theorem load_swapHeaders_daddr {d : ℕ} (hd : d + 2 ≤ 4) :
    (swapHeaders m).load (30 + d) 16 = m.load (26 + d) 16 := by
  unfold swapHeaders
  rw [Mem.load_swap_of_disjoint (by omega) (by omega),
    Mem.load_swap_left_within _ rfl (by omega) hd, Mem.load_swap_of_disjoint (by omega) (by omega)]

theorem pseudoSum_swapHeaders (m : Mem) :
    pseudoSum (swapHeaders m) 14 34 = pseudoSum m 14 34 := by
  have hprotocol : (swapHeaders m).load 23 8 = m.load 23 8 := load_swapHeaders (by omega)
  have hlen : (swapHeaders m).load 38 16 = m.load 38 16 := load_swapHeaders (by omega)
  have hsaddr := load_swapHeaders_saddr (m := m) (d := 0) (by omega)
  have hsaddr' := load_swapHeaders_saddr (m := m) (d := 2) (by omega)
  have hdaddr := load_swapHeaders_daddr (m := m) (d := 0) (by omega)
  have hdaddr' := load_swapHeaders_daddr (m := m) (d := 2) (by omega)
  rw [Mem.load_byte, Mem.load_byte] at hprotocol
  simp only [Nat.reduceAdd] at hsaddr hsaddr' hdaddr hdaddr'
  simp only [pseudoSum, ipSaddr, ipDaddr, ipProtocol, udpLen, Nat.reduceAdd, hprotocol, hlen,
    hsaddr, hsaddr', hdaddr, hdaddr']
  omega

theorem wordSum_swapHeaders {k : ℕ} (hk : 2 ≤ k) :
    wordSum (swapHeaders m) 34 k = wordSum m 34 k := by
  obtain ⟨k, rfl⟩ := Nat.exists_eq_add_of_le' hk
  have hsource : (swapHeaders m).load 34 16 = m.load 36 16 := Mem.load_swap_right _ rfl |>.trans
    ((Mem.load_swap_of_disjoint (by omega) (by omega)).trans
      (Mem.load_swap_of_disjoint (by omega) (by omega)))
  have hdest : (swapHeaders m).load 36 16 = m.load 34 16 :=
    (Mem.load_swap_left _ rfl (by omega)).trans
      ((Mem.load_swap_of_disjoint (by omega) (by omega)).trans
        (Mem.load_swap_of_disjoint (by omega) (by omega)))
  have hrest : wordSum (swapHeaders m) 38 k = wordSum m 38 k :=
    wordSum_congr fun a ha _ => swapHeaders_apply_of_le ha
  simp only [wordSum, Nat.reduceAdd, hsource, hdest, hrest]
  omega

theorem csumSum_swapHeaders {len : ℕ} (hlen : 42 ≤ len) (m : Mem) :
    csumSum ⟨len, swapHeaders m⟩ 14 34 = csumSum ⟨len, m⟩ 14 34 := by
  have hwords : 4 ≤ loopWords (maxUdpSize / 2) 34 len := by
    unfold loopWords
    simp only [maxUdpSize]
    omega
  have hlast : swapHeaders m (34 + 2 * loopWords (maxUdpSize / 2) 34 len) =
      m (34 + 2 * loopWords (maxUdpSize / 2) 34 len) := swapHeaders_apply_of_le (by omega)
  have hsum := wordSum_swapHeaders (m := m) ((by omega : 2 ≤ 4).trans hwords)
  simp only [csumSum, lastByte, pseudoSum_swapHeaders, hsum, hlast]

/-- What `caludpcsum` computes on a frame whose checksum field is cleared. -/
def freshValue (g : Frame) : BitVec 16 :=
  ((caludpcsum 14 34).exec (Run.start ⟨g.len, g.mem.store (udpCheck 34) 16 0⟩ ())).1

def CheckFresh (g : Frame) : Prop := g.mem.load (udpCheck 34) 16 = freshValue g

theorem freshValue_eq (g : Frame) : freshValue g = foldCsum (BitVec.ofNat 32
    (csumSum ⟨g.len, g.mem.store (udpCheck 34) 16 0⟩ 14 34)) := by
  rw [freshValue, exec_caludpcsum]
  rfl

theorem checkFresh_freshCheck (len : ℕ) (p : Mem) :
    CheckFresh ⟨len, freshCheck ⟨len, p⟩ 14 34⟩ := by
  rw [CheckFresh, freshValue_eq]
  unfold freshCheck
  rw [Mem.load_store_self rfl, Mem.store_store_self, Mem.store_store_self]

theorem CheckFresh.swapHeaders (h : CheckFresh g) (hlen : 42 ≤ g.len) :
    CheckFresh ⟨g.len, swapHeaders g.mem⟩ := by
  unfold CheckFresh at h ⊢
  have hcheck : 38 ≤ udpCheck 34 := by decide
  rw [freshValue_eq] at h ⊢
  rw [load_swapHeaders (Or.inr hcheck), h, swapHeaders_store _ hcheck, csumSum_swapHeaders hlen]

/-- The bytes under the UDP checksum: addresses, protocol and datagram, without the checksum field
itself. -/
def Covered (f : Frame) (a : ℕ) : Prop :=
  a < f.len ∧ ¬ (40 ≤ a ∧ a < 42) ∧
    (a = 23 ∨ 26 ≤ a ∧ a < 34 ∨ 34 ≤ a ∧ a < 34 + max sizeofUdphdr f.udpLength.toNat)

/-- No byte under the checksum is changed other than by an exchange of addresses and ports. -/
def OnlyExchanges (f g : Frame) : Prop :=
  (∀ a, Covered f a → g.mem a = f.mem a) ∨ ∀ a, Covered f a → g.mem a = swapHeaders f.mem a

/-- A frame that passes on or goes back with other changes has a fresh checksum. -/
def KeepsChecksum (f : Frame) (v : Verdict) (g : Frame) : Prop :=
  ¬ OnlyExchanges f g → v = .pass ∨ v = .tx → CheckFresh g

theorem Regular.keepsChecksum (h : Regular f v m) : KeepsChecksum f v ⟨f.len, m⟩ := by
  cases h with
  | kept => exact fun hn => absurd (Or.inl fun _ _ => rfl) hn
  | refreshed => exact fun _ _ => checkFresh_freshCheck _ _
  | returned => exact fun hn => absurd (Or.inr fun _ _ => rfl) hn
  | answered _ hlen => exact fun _ _ => (checkFresh_freshCheck _ _).swapHeaders hlen
  | replied => exact fun _ _ => checkFresh_freshCheck _ _

theorem keepsChecksum_written (hm : ∀ a < 42, m a = f.mem a) :
    KeepsChecksum f .pass ⟨f.len, m⟩ ↔
      (∀ a, Covered f a → m a = f.mem a) ∨ f.mem.load (udpCheck 34) 16 = freshValue ⟨f.len, m⟩ := by
  have honly : OnlyExchanges f ⟨f.len, m⟩ ↔ ∀ a, Covered f a → m a = f.mem a := by
    refine or_iff_left_of_imp fun h a ha => ?_
    rcases lt_or_ge a 38 with hlt | hge
    · exact hm a (by omega)
    · exact (h a ha).trans (swapHeaders_apply_of_le hge)
  have hcheck : m.load (udpCheck 34) 16 = f.mem.load (udpCheck 34) 16 :=
    Mem.load_congr fun i hi => hm _ (by simp only [udpCheck]; omega)
  rw [KeepsChecksum, honly, CheckFresh, hcheck]
  exact ⟨fun h => or_iff_not_imp_left.mpr fun hn => h hn (Or.inl rfl),
    fun h hn _ => h.resolve_left hn⟩

/-- The checksum is kept unless the payload is stamped or filled without a refresh: then the bytes
written must be those received, or the received checksum must be theirs by accident. -/
theorem keeps_checksum_iff (L : LruHash) (H : FilterHash) (arrival processed : Instant) (app : App)
    (s : app.Store L H) (f : Frame) :
    KeepsChecksum f (handle (app.process L H arrival processed) s f).1
      (handle (app.process L H arrival processed) s f).2.frame ↔
        ∀ m, app.unrefreshed arrival processed f s = some m →
          (∀ a, Covered f a → m a = f.mem a) ∨
            f.mem.load (udpCheck 34) 16 = freshValue ⟨f.len, m⟩ := by
  obtain ⟨v, m, t, hyields, hexit⟩ := ends_process arrival processed f app s
  obtain ⟨hv, hm, -, -⟩ := hyields.exec_start
  rw [handle, hv, hm]
  cases hexit with
  | regular hw _ h =>
    refine iff_of_true h.keepsChecksum fun m hm => ?_
    rw [hw] at hm
    cases hm
  | written hw hm =>
    rw [keepsChecksum_written hm]
    refine ⟨fun h m' hm' => ?_, fun h => h _ hw⟩
    obtain rfl := Option.some.inj (hw.symm.trans hm')
    exact h
  | reversed hr =>
    obtain ⟨rfl, -⟩ := hr
    exact iff_of_true (fun hn => absurd (Or.inr fun _ _ => rfl) hn) fun m hm => by cases hm

/-- A datagram of 24 bytes with a zero payload and a good checksum. -/
def zeroFrame : Frame := .ofBytes ([
  0x02, 0x00, 0x00, 0x00, 0x00, 0x01, 0x02, 0x00, 0x00, 0x00, 0x00, 0x02, 0x08, 0x00,
  0x45, 0x00, 0x00, 0x2C, 0x00, 0x00, 0x00, 0x00, 0x40, 0x11, 0x62, 0xC2,
  0x0A, 0x00, 0x01, 0x00, 0x0A, 0x00, 0x03, 0x00,
  0xC9, 0x9A, 0x1F, 0x40, 0x00, 0x18, 0xFE, 0xE3] ++ List.replicate 16 0)

/-- It leaves `loadbalancing` with two stamps and the same checksum. -/
theorem not_keeps_checksum_zeroFrame : CheckFresh zeroFrame ∧
    ¬ KeepsChecksum zeroFrame (handle (loadbalancing ⟨1, 1⟩ ⟨2, 2⟩) 0 zeroFrame).1
      (handle (loadbalancing ⟨1, 1⟩ ⟨2, 2⟩) 0 zeroFrame).2.frame := by
  obtain ⟨queue, hyields⟩ : ∃ queue, (loadbalancing ⟨1, 1⟩ ⟨2, 2⟩).Yields zeroFrame 0 .pass
      (stamped 1 2 zeroFrame.mem) queue := yields_loadbalancing 0 (by decide) (by decide)
  obtain ⟨hv, hm, -, -⟩ := hyields.exec_start
  rw [handle, hv, hm, keepsChecksum_written fun a ha => stamped_apply_of_lt ha]
  refine ⟨by unfold CheckFresh; decide, ?_⟩
  rintro (hsame | hcheck)
  · exact absurd (hsame 42 (by unfold Covered; decide)) (by decide)
  · exact absurd hcheck (by decide)

end PacketBench.Xdp

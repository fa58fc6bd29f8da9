import PacketBench.Frame.Datagram
import PacketBench.Xdp.Handling

/-! # What the aggregation takes for a datagram

The program reads neither the EtherType nor the first byte of the IPv4 header.
So it takes other frames for datagrams, and behind IPv4 options it looks for
the datagram at the wrong place.
-/

namespace PacketBench.Xdp

open Bytes PktM

variable {f : Frame}

/-- From the maps before and after a frame: they are updated exactly for a datagram of
`TOT_SIZE_B` bytes, and then with its payload words. -/
structure ParsesDatagrams (f : Frame) (s t : Counted (BitVec 32)) : Prop where
  updates : t ≠ s ↔ IsDatagram totSizeB f
  adds : t ≠ s → t = ⟨s.rxpkt + 1, s.data + f.wordsSum dataNr⟩ ∧
    ∀ i < dataNr, f.word i = f.datagramWord i

/-- A datagram behind options that looks the same as one in front of them. -/
structure SameBehindOptions (f : Frame) : Prop where
  ihl : 5 < f.ihl
  announced : f.datagramSize.toNat = sizeofUdphdr + totSizeB
  complete : f.udpStart + sizeofUdphdr + totSizeB ≤ f.len
  words : ∀ i < dataNr, f.word i = f.datagramWord i

/-- The fixed offsets mislead nobody: what is taken is IPv4 without options, and nothing behind
options is missed. -/
structure OffsetsFit (f : Frame) : Prop where
  taken : Takes totSizeB f → f.etherType = etherTypeIpv4 ∧ f.version = 4 ∧
    (f.ihl = 5 ∨ SameBehindOptions f)
  rejected : ¬ Takes totSizeB f → 5 < f.ihl → ¬ IsDatagram totSizeB f

theorem takes_of_isDatagram (h : IsDatagram totSizeB f) (hihl : f.ihl = 5) :
    Takes totSizeB f := by
  have hend := h.complete
  have hsize := h.announced
  rw [udpStart_of_ihl hihl] at hend
  rw [datagramSize_of_ihl hihl] at hsize
  simp only [sizeofUdphdr, totSizeB] at hend
  refine ⟨⟨by omega, h.protocol⟩, hsize, ?_⟩
  simpa using hend

theorem isDatagram_of_takes (h : Takes totSizeB f) (htype : f.etherType = etherTypeIpv4)
    (hversion : f.version = 4) (hihl : f.ihl = 5) : IsDatagram totSizeB f where
  etherType := htype
  version := hversion
  ihl := hihl.ge
  protocol := h.1.2
  announced := by rw [datagramSize_of_ihl hihl]; exact h.2.1
  complete := by
    rw [udpStart_of_ihl hihl]
    simpa using h.2.2

/-- The aggregation parses datagrams as long as the fixed offsets fit. -/
theorem parses_datagrams_iff (arrival processed : Instant) (s : Counted (BitVec 32)) (f : Frame) :
    ParsesDatagrams f s (handle (aggregate totSizeB arrival processed) s f).2.store ↔
      OffsetsFit f := by
  have hcounts := countsWith_aggregate (by decide : totSizeB < 2 ^ 31) arrival processed
  by_cases h : Takes totSizeB f
  · rw [hcounts.taken s f h]
    have hne : (⟨s.rxpkt + 1, addWords totSizeB s.data f⟩ : Counted (BitVec 32)) ≠ s :=
      fun heq => add_one_ne_self _ (congrArg Counted.rxpkt heq)
    constructor
    · rintro ⟨hupdates, hadds⟩
      have hdatagram := hupdates.mp hne
      refine ⟨fun _ => ⟨hdatagram.etherType, hdatagram.version, ?_⟩, fun hn => absurd h hn⟩
      rcases hdatagram.ihl.eq_or_lt with hihl | hihl
      · exact Or.inl hihl.symm
      · exact Or.inr ⟨hihl, hdatagram.announced, hdatagram.complete, (hadds hne).2⟩
    · rintro ⟨htaken, -⟩
      obtain ⟨htype, hversion, hihl | hsame⟩ := htaken h
      · have hdatagram := isDatagram_of_takes h htype hversion hihl
        exact ⟨iff_of_true hne hdatagram,
          fun _ => ⟨rfl, fun i _ => (datagramWord_of_ihl hihl i).symm⟩⟩
      · exact ⟨iff_of_true hne
          ⟨htype, hversion, hsame.ihl.le, h.1.2, hsame.announced, hsame.complete⟩,
          fun _ => ⟨rfl, hsame.words⟩⟩
  · rw [hcounts.rejected s f h]
    constructor
    · rintro ⟨hupdates, -⟩
      exact ⟨fun ht => absurd ht h, fun _ _ hdatagram => hupdates.mpr hdatagram rfl⟩
    · rintro ⟨-, hrejected⟩
      refine ⟨iff_of_false (fun hn => hn rfl) fun hdatagram => ?_, fun hn => absurd rfl hn⟩
      rcases hdatagram.ihl.eq_or_lt with hihl | hihl
      · exact h (takes_of_isDatagram hdatagram hihl.symm)
      · exact hrejected h hihl hdatagram

/-- A datagram of 1024 zero bytes behind an IPv4 header with four bytes of options. -/
def optionsFrame : Frame := ⟨1070, (Frame.ofBytes [
  0x02, 0x00, 0x00, 0x00, 0x00, 0x02, 0x02, 0x00, 0x00, 0x00, 0x00, 0x01, 0x08, 0x00,
  0x46, 0x00, 0x04, 0x20, 0x00, 0x00, 0x00, 0x00, 0x40, 0x11, 0x5B, 0xCC,
  0x0A, 0x00, 0x01, 0x00, 0x0A, 0x00, 0x03, 0x00, 0x01, 0x01, 0x01, 0x01,
  0xC9, 0x9A, 0x1F, 0x40, 0x04, 0x08, 0x00, 0x00]).mem⟩

theorem isDatagram_optionsFrame : IsDatagram totSizeB optionsFrame := by
  constructor <;> decide

/-- The datagram behind the options is not counted. -/
theorem not_parses_datagrams_optionsFrame : ¬ ParsesDatagrams optionsFrame ⟨0, 0⟩
    (handle (aggregate totSizeB ⟨0, 0⟩ ⟨0, 0⟩) ⟨0, 0⟩ optionsFrame).2.store := by
  have hcounts := countsWith_aggregate (by decide : totSizeB < 2 ^ 31) ⟨0, 0⟩ ⟨0, 0⟩
  rw [hcounts.rejected ⟨0, 0⟩ optionsFrame (by decide)]
  intro h
  exact h.updates.mpr isDatagram_optionsFrame rfl

end PacketBench.Xdp

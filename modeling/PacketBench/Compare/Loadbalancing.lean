import PacketBench.Arithmetic.Hashing
import PacketBench.Arithmetic.Wrapping
import PacketBench.Xdp.Stamping

/-! # The queues of the load balancers

Both programs hash the four bytes of the source address and take a remainder as
the number of a queue. The hash is signed and so is the remainder. XDP knows
one queue only; DPDK stores the remainder in one byte, which makes a queue of
it in some cases only.
-/

namespace PacketBench

open Bytes Hashing PktM

namespace Dpdk

def sdbm (word : List (BitVec 8)) : BitVec 32 :=
  word.foldl (fun hashAddress c =>
    c.signExtend 32 + (hashAddress <<< 6) + (hashAddress <<< 16) - hashAddress) 0

theorem sdbm_step (h c : BitVec 32) : c + (h <<< 6) + (h <<< 16) - h = h * 65599 + c := by
  have hmult : (65599 : BitVec 32) = BitVec.twoPow 32 6 + BitVec.twoPow 32 16 - 1 := rfl
  rw [BitVec.shiftLeft_eq_mul_twoPow, BitVec.shiftLeft_eq_mul_twoPow, hmult]
  ring

/-- The hash is the value of a polynomial, read as a signed number of 32 bits. -/
theorem toInt_sdbm (word : List (BitVec 8)) :
    (sdbm word).toInt = (horner 65599 (word.map BitVec.toInt)).bmod (2 ^ 32) := by
  have hhorner : sdbm word = horner 65599 (word.map (·.signExtend 32)) := by
    simp only [sdbm, horner, List.foldl_map, sdbm_step]
  have hchar : ∀ c : BitVec 8, (c.signExtend 32).toInt = c.toInt :=
    fun c => BitVec.toInt_signExtend_of_le (by decide)
  have hmult : (65599 : BitVec 32).toInt = 65599 := rfl
  rw [hhorner, toInt_horner, hmult, List.map_map]
  simp only [Function.comp_def, hchar]

def chars (srcAddr : BitVec 32) : List (BitVec 8) :=
  (List.range 4).map fun i => srcAddr.extractLsb' (8 * i) 8

/-- `core_que_nr` is promoted to a signed number, the remainder cut to one byte. -/
def loadBQueue (srcAddr : BitVec 32) (coreQueNr : BitVec 16) : BitVec 8 :=
  ((sdbm (chars srcAddr)).srem (coreQueNr.setWidth 32)).setWidth 8

/-- What the program does with a frame before it compares the queue with its own; `none` when it
skips the frame. -/
def selectQueue {σ : Type} (coreQueNr : BitVec 16) : PktM σ (Option (BitVec 8)) := do
  let eth := 0
  if ntohs (← load (hProto eth) 16) ≠ etherTypeIpv4 then
    return none
  let ip := eth + sizeofEthhdr
  return some (loadBQueue (← load (ipSaddr ip) 32) coreQueNr)

end Dpdk

namespace Compare

open Dpdk

def addressHash (srcAddr : BitVec 32) : ℤ :=
  (horner 65599 ((chars srcAddr).map BitVec.toInt)).bmod (2 ^ 32)

structure RightQueue (h : ℤ) (n q : ℕ) : Prop where
  lt : q < n
  eq : (q : ℤ) = h % n

theorem rightQueue_iff {h : ℤ} {n q : ℕ} (hn : 0 < n) : RightQueue h n q ↔ (q : ℤ) = h % n := by
  constructor
  · exact RightQueue.eq
  · intro heq
    have hlt := Int.emod_lt_of_pos h (Int.natCast_pos.mpr hn)
    exact ⟨by omega, heq⟩

theorem toNat_loadBQueue (srcAddr : BitVec 32) (n : BitVec 16) :
    ((loadBQueue srcAddr n).toNat : ℤ) = (addressHash srcAddr).tmod n.toNat % 256 := by
  have hn : (n.setWidth 32).toInt = n.toNat := by
    rw [BitVec.toInt_setWidth, Int.bmod_eq_of_le]
    · omega
    · have := n.isLt
      omega
  rw [loadBQueue, BitVec.toNat_setWidth, Int.natCast_mod,
    ← Wrapping.toInt_emod_of_dvd (p := 2 ^ 8) (by decide), BitVec.toInt_srem, toInt_sdbm, hn]
  rfl

/-- The remainder survives as it is: it fits a byte and was not negative, or 0, or lost only
multiples of the byte. -/
def KeepsResidue (h : ℤ) (n : ℕ) : Prop := h % n < 256 ∧ (0 ≤ h ∨ (n : ℤ) ∣ h ∨ 256 ∣ n)

/-- The DPDK program selects the right queue exactly when the byte keeps the residue. -/
theorem rightQueue_loadBQueue_iff (srcAddr : BitVec 32) (n : BitVec 16) (hn : 1 ≤ n.toNat) :
    RightQueue (addressHash srcAddr) n.toNat (loadBQueue srcAddr n).toNat ↔
      KeepsResidue (addressHash srcAddr) n.toNat := by
  rw [rightQueue_iff hn, toNat_loadBQueue, KeepsResidue,
    Wrapping.tmod_emod_eq_emod_iff (Int.natCast_pos.mpr hn) (by decide)]
  exact and_congr_right fun _ => or_congr_right (or_congr_right Int.natCast_dvd_natCast)

/-- The source 192.168.0.1 among four queues. -/
theorem rightQueue_loadBQueue_iff_four :
    RightQueue (addressHash 0x0100A8C0) 4 (loadBQueue 0x0100A8C0 4).toNat :=
  (rightQueue_loadBQueue_iff 0x0100A8C0 4 (by decide)).mpr ⟨by decide, Or.inl (by decide)⟩

/-- For the source 10.0.0.1 the program takes queue 255 of four. -/
theorem not_rightQueue_loadBQueue :
    ¬ RightQueue (addressHash 0x0100000A) 4 (loadBQueue 0x0100000A 4).toNat := by
  intro h
  exact absurd h.lt (by decide)

variable {σ : Type}

theorem exec_selectQueue (n : BitVec 16) (r : Run σ) : (selectQueue n).exec r =
    if r.frame.etherType = etherTypeIpv4 then
      (some (loadBQueue (r.frame.mem.load (ipSaddr 14) 32) n), r.touch 30)
    else (none, r.touch 14) := by
  have hload : ntohs (r.frame.mem.load 12 16) = r.frame.etherType := rfl
  by_cases htype : r.frame.etherType = etherTypeIpv4
  · simp [selectQueue, hload, htype]
  · simp [selectQueue, hload, htype]

theorem chars_load (m : Mem) (off : ℕ) :
    chars (m.load off 32) = (List.range 4).map fun i => m (off + i) :=
  List.map_congr_left fun _ hi => Mem.extractLsb'_load (n := 32) rfl (List.mem_range.mp hi)

theorem yields_xdp_sdbm {f : Frame} {s : σ} {word len : ℕ} (h : word + len ≤ f.len) :
    (Xdp.sdbm word len : PktM σ _).Yields f s
      (sdbm ((List.range len).map fun i => f.mem (word + i))) f.mem s := by
  induction len with
  | zero => exact yields_pure 0
  | succ len ih =>
    have hbyte : f.mem.load (word + len) 8 = f.mem (word + len) := Mem.load_byte
    rw [List.range_succ, List.map_append, sdbm, List.foldl_append, ← sdbm]
    refine (ih (by omega)).bind ((yields_load (by omega)).bind ?_)
    rw [hbyte]
    exact yields_pure _

theorem yields_xdp_hash {f : Frame} {s : σ} (h : ipSaddr 14 + 4 ≤ f.len) :
    (Xdp.sdbm (ipSaddr 14) 4 : PktM σ _).Yields f s (sdbm (chars (f.mem.load (ipSaddr 14) 32)))
      f.mem s := by
  rw [chars_load]
  exact yields_xdp_sdbm h

theorem rightQueue_rxBuck (h : ℤ) (v : BitVec 32) :
    RightQueue h Xdp.nrRx.toNat (Xdp.rxBuck v).toNat := by
  have hzero : Xdp.rxBuck v = 0 := by
    apply BitVec.eq_of_toInt_eq
    rw [Xdp.rxBuck, BitVec.toInt_srem]
    exact Int.tmod_one _
  rw [hzero]
  exact ⟨by decide, (Int.emod_one h).symm⟩

end Compare

end PacketBench

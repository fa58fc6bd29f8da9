import PacketBench.Frame.Basic

/-! # Header layout

All programs look for an Ethernet header, an IPv4 header without options and a
UDP header at fixed offsets. The frame accessors read the fields the programs
decide on, and `swapHeaders` is the reply frame: the MAC addresses, the IPv4
addresses and the UDP ports exchanged.
-/

namespace PacketBench

open Bytes

@[simp] def sizeofEthhdr : ℕ := 14
@[simp] def sizeofIphdr : ℕ := 20
@[simp] def sizeofUdphdr : ℕ := 8

@[simp] def hDest (eth : ℕ) : ℕ := eth
@[simp] def hSource (eth : ℕ) : ℕ := eth + 6
@[simp] def hProto (eth : ℕ) : ℕ := eth + 12
@[simp] def ipProtocol (ip : ℕ) : ℕ := ip + 9
@[simp] def ipSaddr (ip : ℕ) : ℕ := ip + 12
@[simp] def ipDaddr (ip : ℕ) : ℕ := ip + 16
@[simp] def udpSource (udp : ℕ) : ℕ := udp
@[simp] def udpDest (udp : ℕ) : ℕ := udp + 2
@[simp] def udpLen (udp : ℕ) : ℕ := udp + 4
@[simp] def udpCheck (udp : ℕ) : ℕ := udp + 6

@[simp] def totSizeB : ℕ := 1024
/-- `sizeof(T)` with `T` a 32-bit integer. -/
@[simp] def dataSizeB : ℕ := 4
@[simp] def dataNr : ℕ := totSizeB / dataSizeB
@[simp] def miB : ℕ := 1048576

/-- Exchange the two bytes of a 16-bit word (`ntohs` and `rte_cpu_to_be_16` on a little-endian
machine). -/
def ntohs (v : BitVec 16) : BitVec 16 := v.extractLsb' 0 8 ++ v.extractLsb' 8 8

theorem toNat_ntohs (v : BitVec 16) :
    (ntohs v).toNat = 256 * (v.toNat % 256) + v.toNat / 256 := by
  have hlt : (v.extractLsb' 8 8).toNat < 2 ^ 8 := (v.extractLsb' 8 8).isLt
  have hv := v.isLt
  unfold ntohs
  rw [BitVec.toNat_append, ← Nat.shiftLeft_add_eq_or_of_lt hlt, Nat.shiftLeft_eq,
    BitVec.extractLsb'_toNat, BitVec.extractLsb'_toNat, Nat.shiftRight_eq_div_pow,
    Nat.shiftRight_eq_div_pow]
  omega

@[simp] theorem ntohs_ntohs (v : BitVec 16) : ntohs (ntohs v) = v := by
  apply BitVec.eq_of_toNat_eq
  have hv := v.isLt
  rw [toNat_ntohs, toNat_ntohs]
  omega

def ntohl (v : BitVec 32) : BitVec 32 :=
  v.extractLsb' 0 8 ++ v.extractLsb' 8 8 ++ v.extractLsb' 16 8 ++ v.extractLsb' 24 8

def ipprotoUdp : BitVec 8 := 17
def etherTypeIpv4 : BitVec 16 := 0x0800

namespace Frame

variable (f : Frame)

def etherType : BitVec 16 := ntohs (f.mem.load 12 16)
def protocol : BitVec 8 := f.mem.load 23 8
/-- The UDP length field behind an IPv4 header without options, in host order. -/
def udpLength : BitVec 16 := ntohs (f.mem.load 38 16)
/-- The payload word `i` behind an IPv4 header without options. -/
def word (i : ℕ) : BitVec 32 := f.mem.load (42 + 4 * i) 32

def Announces (size : ℕ) : Prop := f.udpLength.toNat = sizeofUdphdr + size

instance (size : ℕ) : Decidable (f.Announces size) :=
  inferInstanceAs (Decidable (f.udpLength.toNat = sizeofUdphdr + size))

end Frame

def swapHeaders (m : Mem) : Mem := ((m.swap 0 6 48).swap 30 26 32).swap 36 34 16

theorem load_swapHeaders {m : Mem} {off n : ℕ}
    (h : 12 ≤ off ∧ off + n / 8 ≤ 26 ∨ 38 ≤ off) : (swapHeaders m).load off n = m.load off n := by
  unfold swapHeaders
  rw [Mem.load_swap_of_disjoint (by omega) (by omega),
    Mem.load_swap_of_disjoint (by omega) (by omega),
    Mem.load_swap_of_disjoint (by omega) (by omega)]

structure AddressesSwapped (f g : Frame) : Prop where
  dst_mac : g.mem.load 0 48 = f.mem.load 6 48
  src_mac : g.mem.load 6 48 = f.mem.load 0 48
  src_ip : g.mem.load 26 32 = f.mem.load 30 32
  dst_ip : g.mem.load 30 32 = f.mem.load 26 32
  src_port : g.mem.load 34 16 = f.mem.load 36 16
  dst_port : g.mem.load 36 16 = f.mem.load 34 16

theorem addressesSwapped_of_eq {f g : Frame} {m : Mem} (hm : ∀ a < 38, m a = f.mem a)
    (hg : ∀ a < 38, g.mem a = swapHeaders m a) : AddressesSwapped f g := by
  have hload : ∀ {off n}, off + n / 8 ≤ 38 → g.mem.load off n = (swapHeaders m).load off n :=
    fun h => Mem.load_congr fun i hi => hg _ (by omega)
  have hload' : ∀ {off n}, off + n / 8 ≤ 38 → m.load off n = f.mem.load off n :=
    fun h => Mem.load_congr fun i hi => hm _ (by omega)
  constructor <;> rw [hload (by omega), swapHeaders]
  · rw [Mem.load_swap_of_disjoint (by omega) (by omega),
      Mem.load_swap_of_disjoint (by omega) (by omega), Mem.load_swap_left _ rfl (by omega),
      hload' (by omega)]
  · rw [Mem.load_swap_of_disjoint (by omega) (by omega),
      Mem.load_swap_of_disjoint (by omega) (by omega), Mem.load_swap_right _ rfl,
      hload' (by omega)]
  · rw [Mem.load_swap_of_disjoint (by omega) (by omega), Mem.load_swap_right _ rfl,
      Mem.load_swap_of_disjoint (by omega) (by omega), hload' (by omega)]
  · rw [Mem.load_swap_of_disjoint (by omega) (by omega), Mem.load_swap_left _ rfl (by omega),
      Mem.load_swap_of_disjoint (by omega) (by omega), hload' (by omega)]
  · rw [Mem.load_swap_right _ rfl, Mem.load_swap_of_disjoint (by omega) (by omega),
      Mem.load_swap_of_disjoint (by omega) (by omega), hload' (by omega)]
  · rw [Mem.load_swap_left _ rfl (by omega), Mem.load_swap_of_disjoint (by omega) (by omega),
      Mem.load_swap_of_disjoint (by omega) (by omega), hload' (by omega)]

theorem swapHeaders_apply_of_le {m : Mem} {a : ℕ} (h : 38 ≤ a) : swapHeaders m a = m a := by
  unfold swapHeaders
  rw [Mem.swap_apply_of_le rfl (by omega) (by omega) h,
    Mem.swap_apply_of_le rfl (by omega) (by omega) h,
    Mem.swap_apply_of_le rfl (by omega) (by omega) h]

theorem swapHeaders_congr {m m' : Mem} (h : ∀ a < 38, m a = m' a) :
    ∀ a < 38, swapHeaders m a = swapHeaders m' a :=
  Mem.swap_congr rfl (by omega) (by omega) (Mem.swap_congr rfl (by omega) (by omega)
    (Mem.swap_congr rfl (by omega) (by omega) h))

theorem swapHeaders_store {m : Mem} {off n : ℕ} (v : BitVec n) (h : 38 ≤ off) :
    (swapHeaders m).store off n v = swapHeaders (m.store off n v) := by
  funext a
  rcases lt_or_ge a 38 with ha | ha
  · rw [Mem.store_apply_of_outside _ (by omega)]
    exact swapHeaders_congr (fun b hb => (Mem.store_apply_of_outside _ (by omega)).symm) a ha
  · rw [swapHeaders_apply_of_le ha, Mem.store, Mem.store, swapHeaders_apply_of_le ha]

structure AddressesKept (f g : Frame) : Prop where
  dst_mac : g.mem.load 0 48 = f.mem.load 0 48
  src_mac : g.mem.load 6 48 = f.mem.load 6 48
  src_ip : g.mem.load 26 32 = f.mem.load 26 32
  dst_ip : g.mem.load 30 32 = f.mem.load 30 32
  src_port : g.mem.load 34 16 = f.mem.load 34 16
  dst_port : g.mem.load 36 16 = f.mem.load 36 16

theorem addressesKept_of_eq {f g : Frame} (h : ∀ a < 38, g.mem a = f.mem a) :
    AddressesKept f g := by
  constructor <;> exact Mem.load_congr fun i hi => h _ (by omega)

theorem AddressesSwapped.kept_iff {f g : Frame} (h : AddressesSwapped f g) :
    AddressesKept f g ↔ AddressesSwapped f f := by
  constructor
  · rintro ⟨h₁, h₂, h₃, h₄, h₅, h₆⟩
    exact ⟨h₁.symm.trans h.dst_mac, h₂.symm.trans h.src_mac, h₃.symm.trans h.src_ip,
      h₄.symm.trans h.dst_ip, h₅.symm.trans h.src_port, h₆.symm.trans h.dst_port⟩
  · rintro ⟨h₁, h₂, h₃, h₄, h₅, h₆⟩
    exact ⟨h.dst_mac.trans h₁.symm, h.src_mac.trans h₂.symm, h.src_ip.trans h₃.symm,
      h.dst_ip.trans h₄.symm, h.src_port.trans h₅.symm, h.dst_port.trans h₆.symm⟩

/-- The two architectures exchange the headers in opposite orders. -/
theorem swap_ports_first (m : Mem) :
    ((m.swap 36 34 16).swap 30 26 32).swap 0 6 48 = swapHeaders m := by
  rw [swapHeaders,
    Mem.swap_comm (a := 30) (b := 26) (c := 0) (d := 6) (by omega) (by omega) (by omega) (by omega),
    Mem.swap_comm (a := 36) (b := 34) (c := 0) (d := 6) (by omega) (by omega) (by omega) (by omega),
    Mem.swap_comm (a := 36) (b := 34) (c := 30) (d := 26) (by omega) (by omega) (by omega)
      (by omega)]

theorem swapHeaders_swapHeaders (m : Mem) : swapHeaders (swapHeaders m) = m := by
  rw [← swap_ports_first (swapHeaders m), swapHeaders, Mem.swap_swap _ rfl (by omega),
    Mem.swap_swap _ rfl (by omega), Mem.swap_swap _ rfl (by omega)]

end PacketBench

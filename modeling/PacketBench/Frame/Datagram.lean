import PacketBench.Frame.Headers

/-! # Datagrams

A UDP datagram stands behind an IPv4 header of 20 to 60 bytes, whose length in
words is the IHL. Only behind a header without options are its fields and its
payload words those that the programs read at fixed offsets.
-/

namespace PacketBench

open Bytes

namespace Frame

variable (f : Frame)

def version : ℕ := (f.mem 14).toNat / 16
def ihl : ℕ := (f.mem 14).toNat % 16
def udpStart : ℕ := sizeofEthhdr + 4 * f.ihl
def datagramSize : BitVec 16 := ntohs (f.mem.load (udpLen f.udpStart) 16)
def datagramWord (i : ℕ) : BitVec 32 := f.mem.load (f.udpStart + sizeofUdphdr + 4 * i) 32

end Frame

/-- A complete IPv4 UDP datagram with `size` bytes of payload. -/
structure IsDatagram (size : ℕ) (f : Frame) : Prop where
  etherType : f.etherType = etherTypeIpv4
  version : f.version = 4
  ihl : 5 ≤ f.ihl
  protocol : f.protocol = ipprotoUdp
  announced : f.datagramSize.toNat = sizeofUdphdr + size
  complete : f.udpStart + sizeofUdphdr + size ≤ f.len

section NoOptions

variable {f : Frame} (h : f.ihl = 5)
include h

theorem udpStart_of_ihl : f.udpStart = 34 := by
  unfold Frame.udpStart
  rw [h]
  rfl

theorem datagramSize_of_ihl : f.datagramSize = f.udpLength := by
  unfold Frame.datagramSize Frame.udpLength
  rw [udpStart_of_ihl h]
  rfl

theorem datagramWord_of_ihl (i : ℕ) : f.datagramWord i = f.word i := by
  unfold Frame.datagramWord Frame.word
  rw [udpStart_of_ihl h]
  rfl

end NoOptions

end PacketBench

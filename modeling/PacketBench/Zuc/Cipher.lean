import PacketBench.Memory.Bytes
import Mathlib.Data.Vector.Basic

/-! # The ZUC stream cipher of `zuc.h`

The registers are globals of the C file: the sixteen cells of the shift
register, the two registers of `F` and the four words of the bit
reorganization. The initialisation mode adds to a local variable that it never
sets, so what that variable holds at each call is a parameter here.
-/

namespace PacketBench.Zuc

structure Registers where
  lfsrS : Fin 16 → BitVec 32
  fR1 : BitVec 32
  fR2 : BitVec 32
  brcX0 : BitVec 32
  brcX1 : BitVec 32
  brcX2 : BitVec 32
  brcX3 : BitVec 32

def s0 : Array (BitVec 8) := #[
    0x3e, 0x72, 0x5b, 0x47, 0xca, 0xe0, 0x00, 0x33, 0x04, 0xd1, 0x54, 0x98, 0x09, 0xb9, 0x6d, 0xcb,
    0x7b, 0x1b, 0xf9, 0x32, 0xaf, 0x9d, 0x6a, 0xa5, 0xb8, 0x2d, 0xfc, 0x1d, 0x08, 0x53, 0x03, 0x90,
    0x4d, 0x4e, 0x84, 0x99, 0xe4, 0xce, 0xd9, 0x91, 0xdd, 0xb6, 0x85, 0x48, 0x8b, 0x29, 0x6e, 0xac,
    0xcd, 0xc1, 0xf8, 0x1e, 0x73, 0x43, 0x69, 0xc6, 0xb5, 0xbd, 0xfd, 0x39, 0x63, 0x20, 0xd4, 0x38,
    0x76, 0x7d, 0xb2, 0xa7, 0xcf, 0xed, 0x57, 0xc5, 0xf3, 0x2c, 0xbb, 0x14, 0x21, 0x06, 0x55, 0x9b,
    0xe3, 0xef, 0x5e, 0x31, 0x4f, 0x7f, 0x5a, 0xa4, 0x0d, 0x82, 0x51, 0x49, 0x5f, 0xba, 0x58, 0x1c,
    0x4a, 0x16, 0xd5, 0x17, 0xa8, 0x92, 0x24, 0x1f, 0x8c, 0xff, 0xd8, 0xae, 0x2e, 0x01, 0xd3, 0xad,
    0x3b, 0x4b, 0xda, 0x46, 0xeb, 0xc9, 0xde, 0x9a, 0x8f, 0x87, 0xd7, 0x3a, 0x80, 0x6f, 0x2f, 0xc8,
    0xb1, 0xb4, 0x37, 0xf7, 0x0a, 0x22, 0x13, 0x28, 0x7c, 0xcc, 0x3c, 0x89, 0xc7, 0xc3, 0x96, 0x56,
    0x07, 0xbf, 0x7e, 0xf0, 0x0b, 0x2b, 0x97, 0x52, 0x35, 0x41, 0x79, 0x61, 0xa6, 0x4c, 0x10, 0xfe,
    0xbc, 0x26, 0x95, 0x88, 0x8a, 0xb0, 0xa3, 0xfb, 0xc0, 0x18, 0x94, 0xf2, 0xe1, 0xe5, 0xe9, 0x5d,
    0xd0, 0xdc, 0x11, 0x66, 0x64, 0x5c, 0xec, 0x59, 0x42, 0x75, 0x12, 0xf5, 0x74, 0x9c, 0xaa, 0x23,
    0x0e, 0x86, 0xab, 0xbe, 0x2a, 0x02, 0xe7, 0x67, 0xe6, 0x44, 0xa2, 0x6c, 0xc2, 0x93, 0x9f, 0xf1,
    0xf6, 0xfa, 0x36, 0xd2, 0x50, 0x68, 0x9e, 0x62, 0x71, 0x15, 0x3d, 0xd6, 0x40, 0xc4, 0xe2, 0x0f,
    0x8e, 0x83, 0x77, 0x6b, 0x25, 0x05, 0x3f, 0x0c, 0x30, 0xea, 0x70, 0xb7, 0xa1, 0xe8, 0xa9, 0x65,
    0x8d, 0x27, 0x1a, 0xdb, 0x81, 0xb3, 0xa0, 0xf4, 0x45, 0x7a, 0x19, 0xdf, 0xee, 0x78, 0x34, 0x60]

def s1 : Array (BitVec 8) := #[
    0x55, 0xc2, 0x63, 0x71, 0x3b, 0xc8, 0x47, 0x86, 0x9f, 0x3c, 0xda, 0x5b, 0x29, 0xaa, 0xfd, 0x77,
    0x8c, 0xc5, 0x94, 0x0c, 0xa6, 0x1a, 0x13, 0x00, 0xe3, 0xa8, 0x16, 0x72, 0x40, 0xf9, 0xf8, 0x42,
    0x44, 0x26, 0x68, 0x96, 0x81, 0xd9, 0x45, 0x3e, 0x10, 0x76, 0xc6, 0xa7, 0x8b, 0x39, 0x43, 0xe1,
    0x3a, 0xb5, 0x56, 0x2a, 0xc0, 0x6d, 0xb3, 0x05, 0x22, 0x66, 0xbf, 0xdc, 0x0b, 0xfa, 0x62, 0x48,
    0xdd, 0x20, 0x11, 0x06, 0x36, 0xc9, 0xc1, 0xcf, 0xf6, 0x27, 0x52, 0xbb, 0x69, 0xf5, 0xd4, 0x87,
    0x7f, 0x84, 0x4c, 0xd2, 0x9c, 0x57, 0xa4, 0xbc, 0x4f, 0x9a, 0xdf, 0xfe, 0xd6, 0x8d, 0x7a, 0xeb,
    0x2b, 0x53, 0xd8, 0x5c, 0xa1, 0x14, 0x17, 0xfb, 0x23, 0xd5, 0x7d, 0x30, 0x67, 0x73, 0x08, 0x09,
    0xee, 0xb7, 0x70, 0x3f, 0x61, 0xb2, 0x19, 0x8e, 0x4e, 0xe5, 0x4b, 0x93, 0x8f, 0x5d, 0xdb, 0xa9,
    0xad, 0xf1, 0xae, 0x2e, 0xcb, 0x0d, 0xfc, 0xf4, 0x2d, 0x46, 0x6e, 0x1d, 0x97, 0xe8, 0xd1, 0xe9,
    0x4d, 0x37, 0xa5, 0x75, 0x5e, 0x83, 0x9e, 0xab, 0x82, 0x9d, 0xb9, 0x1c, 0xe0, 0xcd, 0x49, 0x89,
    0x01, 0xb6, 0xbd, 0x58, 0x24, 0xa2, 0x5f, 0x38, 0x78, 0x99, 0x15, 0x90, 0x50, 0xb8, 0x95, 0xe4,
    0xd0, 0x91, 0xc7, 0xce, 0xed, 0x0f, 0xb4, 0x6f, 0xa0, 0xcc, 0xf0, 0x02, 0x4a, 0x79, 0xc3, 0xde,
    0xa3, 0xef, 0xea, 0x51, 0xe6, 0x6b, 0x18, 0xec, 0x1b, 0x2c, 0x80, 0xf7, 0x74, 0xe7, 0xff, 0x21,
    0x5a, 0x6a, 0x54, 0x1e, 0x41, 0x31, 0x92, 0x35, 0xc4, 0x33, 0x07, 0x0a, 0xba, 0x7e, 0x0e, 0x34,
    0x88, 0xb1, 0x98, 0x7c, 0xf3, 0x3d, 0x60, 0x6c, 0x7b, 0xca, 0xd3, 0x1f, 0x32, 0x65, 0x04, 0x28,
    0x64, 0xbe, 0x85, 0x9b, 0x2f, 0x59, 0x8a, 0xd7, 0xb0, 0x25, 0xac, 0xaf, 0x12, 0x03, 0xe2, 0xf2]

def ekD : Vector (BitVec 32) 16 :=
  #v[
    0x44D7, 0x26BC, 0x626B, 0x135E, 0x5789, 0x35E2, 0x7135, 0x09AF,
    0x4D78, 0x2F13, 0x6BC4, 0x1AF1, 0x5E26, 0x3C4D, 0x789A, 0x47AC]

def sbox (s : Array (BitVec 8)) (i : BitVec 8) : BitVec 8 := s.getD i.toNat 0

def addM (a b : BitVec 32) : BitVec 32 :=
  let c := a + b
  (c &&& 0x7FFFFFFF) + (c >>> 31)

def mulByPow2 (x : BitVec 32) (k : ℕ) : BitVec 32 :=
  ((x <<< k) ||| (x >>> (31 - k))) &&& 0x7FFFFFFF

/-- The sums that both modes start with, from the value of their local variable `f`. -/
def feedback (f : BitVec 32) (s : Fin 16 → BitVec 32) : BitVec 32 :=
  let f := addM f (mulByPow2 f 8)
  let f := addM f (mulByPow2 (s 4) 20)
  let f := addM f (mulByPow2 (s 10) 21)
  let f := addM f (mulByPow2 (s 13) 17)
  addM f (mulByPow2 (s 15) 15)

def shift (s : Fin 16 → BitVec 32) (f : BitVec 32) : Fin 16 → BitVec 32 := fun i =>
  if h : i.val + 1 < 16 then s ⟨i.val + 1, h⟩ else f

/-- `f` is what the local variable holds on entry. -/
def lfsrWithInitialisationMode (f u : BitVec 32) (g : Registers) : Registers :=
  { g with lfsrS := shift g.lfsrS (addM (feedback f g.lfsrS) u) }

/-- The local variable starts as `S0` here. -/
def lfsrWithWorkMode (g : Registers) : Registers :=
  { g with lfsrS := shift g.lfsrS (feedback (g.lfsrS 0) g.lfsrS) }

def bitReorganization (g : Registers) : Registers :=
  { g with
    brcX0 := ((g.lfsrS 15 &&& 0x7FFF8000) <<< 1) ||| (g.lfsrS 14 &&& 0xFFFF)
    brcX1 := ((g.lfsrS 11 &&& 0xFFFF) <<< 16) ||| (g.lfsrS 9 >>> 15)
    brcX2 := ((g.lfsrS 7 &&& 0xFFFF) <<< 16) ||| (g.lfsrS 5 >>> 15)
    brcX3 := ((g.lfsrS 2 &&& 0xFFFF) <<< 16) ||| (g.lfsrS 0 >>> 15) }

def rot (a : BitVec 32) (k : ℕ) : BitVec 32 := (a <<< k) ||| (a >>> (32 - k))

def l1 (x : BitVec 32) : BitVec 32 := x ^^^ rot x 2 ^^^ rot x 10 ^^^ rot x 18 ^^^ rot x 24

def l2 (x : BitVec 32) : BitVec 32 := x ^^^ rot x 8 ^^^ rot x 14 ^^^ rot x 22 ^^^ rot x 30

def makeU32 (a b c d : BitVec 8) : BitVec 32 :=
  (a.setWidth 32 <<< 24) ||| (b.setWidth 32 <<< 16) ||| (c.setWidth 32 <<< 8) ||| d.setWidth 32

def substitute (u : BitVec 32) : BitVec 32 :=
  makeU32 (sbox s0 ((u >>> 24).setWidth 8)) (sbox s1 ((u >>> 16 &&& 0xFF).setWidth 8))
    (sbox s0 ((u >>> 8 &&& 0xFF).setWidth 8)) (sbox s1 ((u &&& 0xFF).setWidth 8))

def f (g : Registers) : BitVec 32 × Registers :=
  let w := (g.brcX0 ^^^ g.fR1) + g.fR2
  let w1 := g.fR1 + g.brcX1
  let w2 := g.fR2 ^^^ g.brcX2
  let u := l1 ((w1 <<< 16) ||| (w2 >>> 16))
  let v := l2 ((w2 <<< 16) ||| (w1 >>> 16))
  (w, { g with fR1 := substitute u, fR2 := substitute v })

def makeU31 (a : BitVec 8) (b : BitVec 32) (c : BitVec 8) : BitVec 32 :=
  (a.setWidth 32 <<< 23) ||| (b <<< 8) ||| c.setWidth 32

/-- The initialisation loop; `locals` holds what the uninitialised variable is at each call. -/
def initRounds : List (BitVec 32) → Registers → Registers
  | [], g => g
  | l :: locals, g =>
    let (w, g) := f (bitReorganization g)
    initRounds locals (lfsrWithInitialisationMode l (w >>> 1) g)

def initialization (locals : Vector (BitVec 32) 32) (k iv : Fin 16 → BitVec 8) (g : Registers) :
    Registers :=
  initRounds locals.toList
    { g with lfsrS := fun i => makeU31 (k i) (ekD.get i) (iv i), fR1 := 0, fR2 := 0 }

def keystreamStep (g : Registers) : BitVec 32 × Registers :=
  let (w, g) := f (bitReorganization g)
  (w ^^^ g.brcX3, lfsrWithWorkMode g)

def keystreamWords : ℕ → Registers → List (BitVec 32) × Registers
  | 0, g => ([], g)
  | n + 1, g =>
    let (z, g) := keystreamStep g
    let (zs, g) := keystreamWords n g
    (z :: zs, g)

def generateKeystream (keystreamLen : ℕ) (g : Registers) : List (BitVec 32) × Registers :=
  keystreamWords keystreamLen (keystreamStep g).2

def zuc (locals : Vector (BitVec 32) 32) (k iv : Fin 16 → BitVec 8) (len : ℕ) (g : Registers) :
    List (BitVec 32) × Registers :=
  generateKeystream len (initialization locals k iv g)

def bearer : BitVec 32 := 120
def count : BitVec 32 := 150
def direction : BitVec 32 := 1

/-- The initial vector, the same for all messages. -/
def eea3Iv : Fin 16 → BitVec 8 :=
  let half : Vector (BitVec 8) 8 :=
    #v[(count >>> 24 &&& 0xFF).setWidth 8, (count >>> 16 &&& 0xFF).setWidth 8,
      (count >>> 8 &&& 0xFF).setWidth 8, (count &&& 0xFF).setWidth 8,
      (((bearer <<< 3) ||| ((direction &&& 1) <<< 2)) &&& 0xFC).setWidth 8, 0, 0, 0]
  fun i => half.get ⟨i.val % 8, Nat.mod_lt _ (by decide)⟩

def eea3Words (length : BitVec 32) : ℕ := ((length + 31) / 32).toNat

/-- The words written to `C` and the registers left behind. -/
def eea3 (locals : Vector (BitVec 32) 32) (ck : Fin 16 → BitVec 8) (length : BitVec 32)
    (m : ℕ → BitVec 32) (g : Registers) : List (BitVec 32) × Registers :=
  let (z, g) := zuc locals ck eea3Iv (eea3Words length) g
  (z.mapIdx fun i z => m i ^^^ z, g)

theorem length_keystreamWords (n : ℕ) (g : Registers) : (keystreamWords n g).1.length = n := by
  induction n generalizing g with
  | zero => rfl
  | succ n ih => exact congrArg Nat.succ (ih _)

theorem length_eea3 (locals : Vector (BitVec 32) 32) (ck : Fin 16 → BitVec 8)
    (length : BitVec 32) (m : ℕ → BitVec 32) (g : Registers) :
    (eea3 locals ck length m g).1.length = eea3Words length := by
  unfold eea3
  rw [List.length_mapIdx]
  exact length_keystreamWords _ _

end PacketBench.Zuc

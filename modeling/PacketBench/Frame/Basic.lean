import PacketBench.Memory.Bytes

/-! # Frames and programs over one frame

A frame is a length and the bytes from its first one on. The programs of all
architectures work on one frame at a time: they load and store little-endian
words at offsets from the start of the frame and keep a store across frames.
A run also records how far into the buffer the program has reached, which is
what the memory-safety results speak about.
-/

namespace PacketBench

open Bytes

/-- A frame of `len` bytes; from offset `len` on `mem` is what lies behind it in the buffer. -/
structure Frame where
  len : ℕ
  mem : Mem

def Frame.ofBytes (bytes : List (BitVec 8)) : Frame := ⟨bytes.length, fun a => bytes.getD a 0⟩

theorem Frame.ofBytes_apply_of_le (bytes : List (BitVec 8)) {a : ℕ} (h : bytes.length ≤ a) :
    (Frame.ofBytes bytes).mem a = 0 := by
  have hbyte : (Frame.ofBytes bytes).mem a = bytes.getD a 0 := rfl
  rw [hbyte, List.getD_eq_getElem?_getD, List.getElem?_eq_none h, Option.getD_none]

/-- A run over one frame: the frame, the store kept across frames and the end of
the farthest byte touched so far. -/
structure Run (σ : Type) where
  frame : Frame
  store : σ
  reach : ℕ

namespace Run

variable {σ : Type} (r : Run σ) (m : Mem) (s : σ) (n k : ℕ)

def start (f : Frame) (s : σ) : Run σ := ⟨f, s, 0⟩

def setMem : Run σ := { r with frame := { r.frame with mem := m } }

def setStore : Run σ := { r with store := s }

/-- Record an access to a byte range that ends at `n`. -/
def touch : Run σ := { r with reach := max r.reach n }

-- Proved by `by rfl`: as definitional equations they would rewrite the condition of an `if`
-- without its decidability instance.
@[simp] theorem start_frame (f : Frame) : (start f s).frame = f := by rfl
@[simp] theorem start_store (f : Frame) : (start f s).store = s := by rfl
@[simp] theorem start_reach (f : Frame) : (start f s).reach = 0 := by rfl
@[simp] theorem setMem_frame : (r.setMem m).frame = ⟨r.frame.len, m⟩ := by rfl
@[simp] theorem setMem_store : (r.setMem m).store = r.store := by rfl
@[simp] theorem setMem_reach : (r.setMem m).reach = r.reach := by rfl
@[simp] theorem setStore_frame : (r.setStore s).frame = r.frame := by rfl
@[simp] theorem setStore_store : (r.setStore s).store = s := by rfl
@[simp] theorem setStore_reach : (r.setStore s).reach = r.reach := by rfl
@[simp] theorem touch_frame : (r.touch n).frame = r.frame := by rfl
@[simp] theorem touch_store : (r.touch n).store = r.store := by rfl
@[simp] theorem touch_reach : (r.touch n).reach = max r.reach n := by rfl

@[simp] theorem setMem_self : r.setMem r.frame.mem = r := by rfl

@[simp] theorem touch_zero : r.touch 0 = r := by simp [touch]

@[simp] theorem touch_touch : (r.touch n).touch k = r.touch (max n k) := by
  simp [touch, max_assoc]

@[simp] theorem touch_setMem : (r.touch n).setMem m = (r.setMem m).touch n := by rfl
@[simp] theorem touch_setStore : (r.touch n).setStore s = (r.setStore s).touch n := by rfl
@[simp] theorem setMem_setMem (m' : Mem) : (r.setMem m).setMem m' = r.setMem m' := by rfl
@[simp] theorem setStore_setStore (s' : σ) : (r.setStore s).setStore s' = r.setStore s' := by rfl
@[simp] theorem setStore_setMem : (r.setStore s).setMem m = (r.setMem m).setStore s := by rfl

end Run

abbrev PktM (σ : Type) := StateM (Run σ)

namespace PktM

variable {σ α β : Type}

def exec (x : PktM σ α) (r : Run σ) : α × Run σ := x.run r

/-- The end of the frame (`data_end`). -/
def pktEnd : PktM σ ℕ := fun r => (r.frame.len, r)

def load (off n : ℕ) : PktM σ (BitVec n) := fun r =>
  (r.frame.mem.load off n, r.touch (off + n / 8))

def store (off n : ℕ) (v : BitVec n) : PktM σ Unit := fun r =>
  ((), (r.setMem (r.frame.mem.store off n v)).touch (off + n / 8))

def getFrame : PktM σ Frame := fun r => (r.frame, r)

/-- A function outside the program reads bytes of the frame up to `n`. -/
def readTo (n : ℕ) : PktM σ Unit := fun r => ((), r.touch n)

def getStore : PktM σ σ := fun r => (r.store, r)

def putStore (s : σ) : PktM σ Unit := fun r => ((), r.setStore s)

def copyFrom (off n : ℕ) : PktM σ Mem := fun r =>
  (fun a => r.frame.mem (off + a), r.touch (off + n))

def copyTo (off n : ℕ) (bytes : Mem) : PktM σ Unit := fun r =>
  ((), (r.setMem (r.frame.mem.copy off n bytes)).touch (off + n))

/-- Exchange two fields of `n` bits: `mem = a; a = b; b = mem`. -/
def exchange (a b n : ℕ) : PktM σ Unit := do
  let mem ← load a n
  store a n (← load b n)
  store b n mem

variable (x : PktM σ α) (f : α → PktM σ β) (r : Run σ)

@[simp] theorem exec_pure (a : α) : (pure a : PktM σ α).exec r = (a, r) := by rfl
@[simp] theorem exec_bind : (x >>= f).exec r = (f (x.exec r).1).exec (x.exec r).2 := by rfl
@[simp] theorem exec_map (g : α → β) : (g <$> x).exec r = (g (x.exec r).1, (x.exec r).2) := by rfl
@[simp] theorem exec_ite (c : Prop) [Decidable c] (y : PktM σ α) :
    (if c then x else y).exec r = if c then x.exec r else y.exec r := by
  split <;> rfl

@[simp] theorem exec_pktEnd : (pktEnd : PktM σ ℕ).exec r = (r.frame.len, r) := by rfl
@[simp] theorem exec_load (off n : ℕ) :
    (load off n : PktM σ _).exec r = (r.frame.mem.load off n, r.touch (off + n / 8)) := by rfl
@[simp] theorem exec_store (off n : ℕ) (v : BitVec n) : (store off n v : PktM σ _).exec r =
    ((), (r.setMem (r.frame.mem.store off n v)).touch (off + n / 8)) := by rfl
@[simp] theorem exec_getFrame : (getFrame : PktM σ Frame).exec r = (r.frame, r) := by rfl
@[simp] theorem exec_readTo (n : ℕ) : (readTo n : PktM σ Unit).exec r = ((), r.touch n) := by rfl
@[simp] theorem exec_getStore : (getStore : PktM σ σ).exec r = (r.store, r) := by rfl
@[simp] theorem exec_putStore (s : σ) : (putStore s).exec r = ((), r.setStore s) := by rfl

@[simp] theorem exec_copyFrom (off n : ℕ) : (copyFrom off n : PktM σ Mem).exec r =
    (fun a => r.frame.mem (off + a), r.touch (off + n)) := by rfl
@[simp] theorem exec_copyTo (off n : ℕ) (bytes : Mem) : (copyTo off n bytes : PktM σ Unit).exec r =
    ((), (r.setMem (r.frame.mem.copy off n bytes)).touch (off + n)) := by rfl

@[simp] theorem exec_exchange (a b n : ℕ) : (exchange a b n : PktM σ Unit).exec r =
    ((), (r.setMem (r.frame.mem.swap a b n)).touch (max (a + n / 8) (b + n / 8))) := by
  simp [exchange, Mem.swap]

end PktM

end PacketBench

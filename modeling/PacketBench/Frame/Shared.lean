import PacketBench.Arithmetic.Wrapping
import PacketBench.Concurrency.Atomics
import PacketBench.Frame.Payload

/-! # Counters shared by all cores

The cores of one program share a packet counter and an array of sums. They
change both by atomic additions only: `aggregate` adds the sum of a payload to
one slot, `reduce` adds each word to its own slot, and then the packets are
counted and the count is read back.
-/

namespace PacketBench

open Atomics

inductive Cell where
  | packets
  | slot (i : ℕ)
  deriving DecidableEq, Repr

abbrev SharedOp := Op Cell (BitVec 32)

def Frame.sumOps (f : Frame) (n : ℕ) : List SharedOp := [.add (.slot 0) (f.wordsSum n)]

def Frame.eachOps (f : Frame) (n : ℕ) : List SharedOp :=
  (List.range n).map fun i => .add (.slot i) (f.word i)

def countOps (packets : BitVec 32) : List SharedOp := [.add .packets packets, .read .packets]

def cells (packets : BitVec 32) (slots : ℕ → BitVec 32) : Cell → BitVec 32
  | .packets => packets
  | .slot i => slots i

/-- A single accumulator is the first slot. -/
def firstSlot (v : BitVec 32) (i : ℕ) : BitVec 32 := if i = 0 then v else 0

def allWords (frames : List Frame) : List (BitVec 32) :=
  frames.flatMap fun f => (List.range dataNr).map f.word

section Added

variable (f : Frame) (n : ℕ) (packets : BitVec 32) (i : ℕ)

@[simp] theorem added_sumOps : added (.slot 0) (f.sumOps n) = f.wordsSum n := add_zero _

@[simp] theorem added_sumOps_succ : added (.slot (i + 1)) (f.sumOps n) = 0 := by
  simp [Frame.sumOps, Op.adds]

@[simp] theorem added_sumOps_packets : added .packets (f.sumOps n) = 0 := by
  simp [Frame.sumOps, Op.adds]

@[simp] theorem added_eachOps :
    added (.slot i) (f.eachOps n) = if i < n then f.word i else 0 := by
  induction n with
  | zero => rfl
  | succ n ih =>
    have hsucc : f.eachOps (n + 1) = f.eachOps n ++ [.add (.slot n) (f.word n)] := by
      unfold Frame.eachOps
      rw [List.range_succ, List.map_append, List.map_singleton]
    rw [hsucc, added_append, ih, added_cons, added_nil, add_zero, Op.adds]
    rcases lt_trichotomy i n with h | rfl | h
    · rw [if_pos h, if_neg (by simpa using h.ne'), if_pos (by omega), add_zero]
    · rw [if_neg (lt_irrefl i), if_pos rfl, if_pos (by omega), zero_add]
    · rw [if_neg (by omega), if_neg (by simpa using h.ne), if_neg (by omega), add_zero]

@[simp] theorem added_eachOps_packets : added .packets (f.eachOps n) = 0 := by
  unfold Frame.eachOps added
  rw [List.map_map]
  refine List.sum_eq_zero fun v hv => ?_
  obtain ⟨i, -, rfl⟩ := List.mem_map.mp hv
  rfl

@[simp] theorem added_countOps : added (.slot i) (countOps packets) = 0 := by
  simp [countOps, Op.adds]

@[simp] theorem added_countOps_packets : added .packets (countOps packets) = packets := by
  simp [countOps, Op.adds]

end Added

section Work

variable {σ : Type} {ops : List SharedOp}

/-- Operations on the first `n` words of a frame that fold the words into the slots as `g` does. -/
structure Folds (work : Frame → ℕ → List SharedOp) (slots : σ → ℕ → BitVec 32)
    (g : ℕ → σ → Frame → σ) : Prop where
  isAdd : ∀ f n, ∀ op ∈ work f n, op.IsAdd
  packets : ∀ f n, added .packets (work f n) = 0
  slots : ∀ f n d i, slots (g n d f) i = slots d i + added (.slot i) (work f n)

theorem folds_sumOps : Folds Frame.sumOps firstSlot fun n v f => v + f.wordsSum n := by
  refine ⟨fun f n op hop => ?_, added_sumOps_packets, fun f n v i => ?_⟩
  · obtain rfl := List.mem_singleton.mp hop
    trivial
  · cases i with
    | zero => rw [added_sumOps, firstSlot, firstSlot, if_pos rfl, if_pos rfl]
    | succ i => exact (congrArg (0 + ·) (added_sumOps_succ f n i)).symm

theorem folds_eachOps : Folds Frame.eachOps id fun n a f => f.combine (· + ·) a n := by
  refine ⟨fun f n op hop => ?_, added_eachOps_packets, fun f n a i => ?_⟩
  · obtain ⟨i, -, rfl⟩ := List.mem_map.mp hop
    trivial
  · rw [added_eachOps, id, id, Frame.combine]
    by_cases hi : i < n
    · rw [if_pos hi, if_pos hi]
    · rw [if_neg hi, if_neg hi, add_zero]

theorem mem_alone_countOps (hpackets : added .packets ops = 0) (packets v : BitVec 32)
    (slots : ℕ → BitVec 32) : (alone (cells packets slots) (ops ++ countOps v)).mem =
      cells (packets + v) fun i => slots i + added (.slot i) ops := by
  funext c
  rw [mem_alone, added_append]
  cases c with
  | packets => rw [hpackets, added_countOps_packets, zero_add, cells, cells]
  | slot i => rw [added_countOps, add_zero, cells, cells]

theorem log_alone_countOps (hadd : ∀ op ∈ ops, op.IsAdd) (hpackets : added .packets ops = 0)
    (packets v : BitVec 32) (slots : ℕ → BitVec 32) :
    (alone (cells packets slots) (ops ++ countOps v)).log = [((), packets + v)] := by
  have hsplit : ops ++ countOps v = (ops ++ [.add .packets v]) ++ [.read .packets] := by
    rw [List.append_assoc]
    rfl
  have hadd' : ∀ op ∈ ops ++ [.add .packets v], op.IsAdd := by
    intro op hop
    rcases List.mem_append.mp hop with hop | hop
    · exact hadd op hop
    · obtain rfl := List.mem_singleton.mp hop
      trivial
  rw [hsplit, log_alone_read _ hadd', ← hsplit, mem_alone_countOps hpackets, cells]

end Work

theorem sum_allWords (frames : List Frame) :
    (allWords frames).sum = (frames.map (Frame.wordsSum · dataNr)).sum := by
  induction frames with
  | nil => rfl
  | cons f frames ih =>
    rw [allWords, List.flatMap_cons, List.sum_append, ← allWords, ih, List.map_cons,
      List.sum_cons, Frame.wordsSum]

theorem sum_words_comm (frames : List Frame) (n : ℕ) :
    ((List.range n).map fun i => (frames.map fun f => f.word i).sum).sum =
      (frames.map (Frame.wordsSum · n)).sum := by
  induction frames with
  | nil =>
    refine List.sum_eq_zero fun v hv => ?_
    obtain ⟨i, -, rfl⟩ := List.mem_map.mp hv
    rfl
  | cons f frames ih =>
    simp only [List.map_cons, List.sum_cons, List.sum_map_add, ih]
    rfl

theorem sum_map_filter (p : Frame → Prop) [DecidablePred p] (g : Frame → BitVec 32)
    (frames : List Frame) :
    ((frames.filter p).map g).sum = (frames.map fun f => if p f then g f else 0).sum := by
  induction frames with
  | nil => rfl
  | cons f frames ih =>
    rw [List.filter_cons, List.map_cons, List.sum_cons, ← ih]
    by_cases h : p f
    · rw [if_pos (decide_eq_true h), if_pos h, List.map_cons, List.sum_cons]
    · rw [if_neg (by simpa using h), if_neg h, zero_add]

end PacketBench

import PacketBench.Dpdk.Burst
import PacketBench.Dpdk.Classify
import PacketBench.Maps.Recency

/-! # The DPDK key-value store

One `rte_hash` of `SETS_BLOCKS + 4` entries holds the values, each as a pointer
that is the sign extension of the 32-bit value. A read that finds nothing is
answered with 0. The result of an insertion is not looked at, so a full table
drops new keys silently.
-/

namespace PacketBench.Dpdk

open Bytes PktM BoundedMaps

def setsNr : ℕ := 1
@[simp] def setsBlocks : ℕ := 500
@[simp] def dataReadB : BitVec 16 := BitVec.ofNat 16 totSizeB
@[simp] def dataWriteB : BitVec 16 := BitVec.ofNat 16 totSizeB

@[simp] def entries : ℕ := setsBlocks + 4

/-- `BUCK(v)`, the remainder of a signed key. -/
def buck (v : BitVec 32) : Fin setsNr :=
  ⟨(v.toInt.tmod setsNr).toNat, by simp [setsNr]⟩

theorem buck_eq (v : BitVec 32) (i : Fin setsNr) : buck v = i := by
  have hv : (buck v).val < 1 := (buck v).isLt
  have hi : i.val < 1 := i.isLt
  exact Fin.ext (by omega)

/-- A hash table of DPDK with `entries` entries, from keys to pointers. It is created without
extended buckets, so it may refuse a new key before it is full. -/
abbrev RteHash := RefusingMap (BitVec 32) (BitVec 64) entries

variable (H : RteHash) (rteIpv4UdptcpCksum : Cksum)

abbrev Cache := Fin setsNr → H.State

def rteHashAddKeyData (set : Fin setsNr) (key : BitVec 32) (val : BitVec 64) :
    PktM (Cache H) Unit := do
  let cache ← getStore
  putStore (Function.update cache set (H.put (cache set) key val))

def rteHashLookupData (set : Fin setsNr) (key : BitVec 32) :
    PktM (Cache H) (Option (BitVec 64)) := do
  let cache ← getStore
  putStore (Function.update cache set (H.lookup (cache set) key))
  return H.get (cache set) key

def wrongRequestSize (size : BitVec 16) : Bool := size ≠ dataReadB || size ≠ dataWriteB

/-- What the store does to one frame of a burst. -/
def kvstore : PktM (Cache H) Bool :=
  classify false wrongRequestSize fun eth ip udp _ => do
    let payload := udp + sizeofUdphdr
    let flag ← load payload 32
    if flag ≠ 0 then
      let key ← load (payload + 4) 32
      let val ← load (payload + 8) 32
      rteHashAddKeyData H (buck key) key (val.signExtend 64)
    else
      let key ← load (payload + 4) 32
      let data := (← rteHashLookupData H (buck key) key).getD 0
      store (payload + 8) 32 (data.setWidth 32)
    swapInfos eth ip udp
    refreshCksum rteIpv4UdptcpCksum ip udp
    return true

def pointerRequest (f : Frame) : Op (BitVec 32) (BitVec 64) :=
  (request f).mapValue (BitVec.signExtend 64)

def answer (cache : Cache H) (f : Frame) : Mem :=
  match request f with
  | .write _ _ => f.mem
  | .read key => f.mem.store 50 32 (((value H.toBoundedMap buck cache key).getD 0).setWidth 32)

def serveCache (cache : Cache H) (f : Frame) : Cache H :=
  serve H.toBoundedMap buck cache (pointerRequest f)

theorem wrongRequestSize_eq : wrongRequestSize = wrongSize := by
  funext s
  unfold wrongRequestSize wrongSize
  rw [dataReadB, dataWriteB, Bool.or_self]

variable {H}

theorem answer_of_write {cache : Cache H} {f : Frame} (h : f.word 0 ≠ 0) :
    answer H cache f = f.mem := by
  unfold answer
  rw [request_of_write h]

theorem answer_of_read {cache : Cache H} {f : Frame} (h : f.word 0 = 0) :
    answer H cache f = f.mem.store 50 32
      (((value H.toBoundedMap buck cache (f.word 1)).getD 0).setWidth 32) := by
  unfold answer
  rw [request_of_read h]

theorem exec_kvstore_of_accepted {r : Run (Cache H)} (h : Accepted r.frame) :
    (kvstore H rteIpv4UdptcpCksum).exec r =
      (true, ((r.setMem (sendBack rteIpv4UdptcpCksum r.frame.len
        (answer H r.store r.frame))).setStore (serveCache H r.store r.frame)).touch
          (max (classifyReach r.frame) (max 54 (max 42 (rteIpv4UdptcpCksum.reach
            ⟨r.frame.len, (swapHeaders (answer H r.store r.frame)).store 40 16 0⟩ 14 34))))) := by
  have hword₀ : r.frame.mem.load 42 32 = r.frame.word 0 := rfl
  have hword₁ : r.frame.mem.load 46 32 = r.frame.word 1 := rfl
  have hword₂ : r.frame.mem.load 50 32 = r.frame.word 2 := rfl
  unfold kvstore
  rw [exec_classify wrongRequestSize_eq, if_pos h]
  rcases eq_or_ne (r.frame.word 0) 0 with hflag | hflag
  · have hcache : serveCache H r.store r.frame = Function.update r.store (buck (r.frame.word 1))
        (H.lookup (r.store (buck (r.frame.word 1))) (r.frame.word 1)) := by
      unfold serveCache pointerRequest
      rw [request_of_read hflag, Op.mapValue, serve]
    rw [answer_of_read hflag, hcache]
    simp [rteHashLookupData, sendBack, value, hword₀, hword₁, hflag]
  · have hne : ¬ r.frame.word 0 = 0#32 := hflag
    have hcache : serveCache H r.store r.frame = Function.update r.store (buck (r.frame.word 1))
        (H.put (r.store (buck (r.frame.word 1))) (r.frame.word 1)
          ((r.frame.word 2).signExtend 64)) := by
      unfold serveCache pointerRequest
      rw [request_of_write hflag, Op.mapValue, serve]
    rw [answer_of_write hflag, hcache]
    simp [rteHashAddKeyData, sendBack, hword₀, hword₁, hword₂, hne]

theorem exec_kvstore_of_not {r : Run (Cache H)} (h : ¬ Accepted r.frame) :
    (kvstore H rteIpv4UdptcpCksum).exec r = (false, r.touch (classifyReach r.frame)) := by
  unfold kvstore
  rw [exec_classify wrongRequestSize_eq, if_neg h]

variable (H) in
def respond (cache : Cache H) (f : Frame) : Bool × Run (Cache H) :=
  (kvstore H rteIpv4UdptcpCksum).exec (Run.start f cache)

variable (H) in
def cacheAfter (frames : List Frame) : Cache H :=
  storeAfter (kvstore H rteIpv4UdptcpCksum) (fun _ => H.empty) frames

def pointerRequests (frames : List Frame) : List (Op (BitVec 32) (BitVec 64)) :=
  (frames.filter (Accepted ·)).map pointerRequest

variable {rteIpv4UdptcpCksum}

theorem respond_of_accepted (cache : Cache H) {f : Frame} (h : Accepted f) :
    (respond H rteIpv4UdptcpCksum cache f).1 = true ∧
    (∀ i, (respond H rteIpv4UdptcpCksum cache f).2.frame.word i =
      (Frame.mk f.len (answer H cache f)).word i) ∧
    (respond H rteIpv4UdptcpCksum cache f).2.store = serveCache H cache f := by
  unfold respond
  rw [exec_kvstore_of_accepted rteIpv4UdptcpCksum (r := Run.start f cache) h]
  exact ⟨rfl, fun i => word_sendBack _ _ _ _ i, rfl⟩

theorem respond_of_not (cache : Cache H) {f : Frame} (h : ¬ Accepted f) :
    (respond H rteIpv4UdptcpCksum cache f).1 = false ∧
    (respond H rteIpv4UdptcpCksum cache f).2.frame = f ∧
    (respond H rteIpv4UdptcpCksum cache f).2.store = cache := by
  unfold respond
  rw [exec_kvstore_of_not rteIpv4UdptcpCksum (r := Run.start f cache) h]
  exact ⟨rfl, rfl, rfl⟩

theorem respond_read (cache : Cache H) {f : Frame} (h : Accepted f) (hflag : f.word 0 = 0) :
    (respond H rteIpv4UdptcpCksum cache f).2.frame.word 2 =
      ((value H.toBoundedMap buck cache (f.word 1)).getD 0).setWidth 32 := by
  rw [(respond_of_accepted cache h).2.1, answer_of_read hflag]
  exact Mem.load_store_self rfl _

theorem respond_word (cache : Cache H) {f : Frame} (h : Accepted f) {i : ℕ}
    (hi : f.word 0 ≠ 0 ∨ i ≠ 2) :
    (respond H rteIpv4UdptcpCksum cache f).2.frame.word i = f.word i := by
  rw [(respond_of_accepted cache h).2.1]
  rcases eq_or_ne (f.word 0) 0 with hflag | hflag
  · have htwo := hi.resolve_left (not_not.mpr hflag)
    rw [answer_of_read hflag]
    exact Mem.load_store_of_disjoint _ (by omega)
  · rw [answer_of_write hflag]

theorem storeAfter_kvstore (cache : Cache H) (frames : List Frame) :
    storeAfter (kvstore H rteIpv4UdptcpCksum) cache frames =
      (pointerRequests frames).foldl (serve H.toBoundedMap buck) cache := by
  induction frames generalizing cache with
  | nil => rfl
  | cons f frames ih =>
    rw [storeAfter, List.foldl_cons, ← storeAfter, ih, ← respond]
    by_cases hf : Accepted f
    · rw [(respond_of_accepted cache hf).2.2, serveCache, pointerRequests, pointerRequests,
        List.filter_cons_of_pos (by simpa using hf), List.map_cons, List.foldl_cons]
    · rw [(respond_of_not cache hf).2.2, pointerRequests, pointerRequests,
        List.filter_cons_of_neg (by simpa using hf)]

theorem cacheAfter_eq (frames : List Frame) : cacheAfter H rteIpv4UdptcpCksum frames =
    serveAll H.toBoundedMap buck (pointerRequests frames) := storeAfter_kvstore _ frames

theorem setWidth_signExtend (v : BitVec 32) : (v.signExtend 64).setWidth 32 = v := by
  apply BitVec.eq_of_getLsbD_eq
  intro i hi
  have hi' : i < 64 := by omega
  rw [BitVec.getLsbD_setWidth, BitVec.getLsbD_signExtend]
  simp [hi, hi']

section ReadAfterWrite

variable {cache : Cache H} {w q : Frame}

theorem word_two_read_after_write (hw : Accepted w) (hwrite : w.word 0 ≠ 0) (hq : Accepted q)
    (hread : q.word 0 = 0) (hkey : q.word 1 = w.word 1) :
    (respond H rteIpv4UdptcpCksum (respond H rteIpv4UdptcpCksum cache w).2.store q).2.frame.word 2 =
      ((H.get (H.put (cache (buck (w.word 1))) (w.word 1) ((w.word 2).signExtend 64))
        (w.word 1)).getD 0).setWidth 32 := by
  rw [respond_read _ hq hread, hkey, (respond_of_accepted cache hw).2.2, serveCache,
    pointerRequest, request_of_write hwrite, Op.mapValue, serve, value, Function.update_self]

theorem word_two_of_takes (hw : Accepted w) (hwrite : w.word 0 ≠ 0) (hq : Accepted q)
    (hread : q.word 0 = 0) (hkey : q.word 1 = w.word 1)
    (htakes : H.Takes (cache (buck (w.word 1))) (w.word 1)) :
    (respond H rteIpv4UdptcpCksum (respond H rteIpv4UdptcpCksum cache w).2.store q).2.frame.word 2 =
      w.word 2 := by
  rw [word_two_read_after_write hw hwrite hq hread hkey, H.get_put_of_takes _ _ _ htakes,
    Function.update_self, Option.getD_some, setWidth_signExtend]

theorem word_two_of_not_takes (hw : Accepted w) (hwrite : w.word 0 ≠ 0) (hq : Accepted q)
    (hread : q.word 0 = 0) (hkey : q.word 1 = w.word 1)
    (hnot : ¬ H.Takes (cache (buck (w.word 1))) (w.word 1)) :
    (respond H rteIpv4UdptcpCksum (respond H rteIpv4UdptcpCksum cache w).2.store q).2.frame.word 2 =
      0 := by
  have hmiss : H.get (cache (buck (w.word 1))) (w.word 1) = none := by
    rw [← Option.not_isSome_iff_eq_none, ← H.mem_keys]
    exact fun hmem => hnot (H.takes_of_mem _ _ hmem)
  rw [word_two_read_after_write hw hwrite hq hread hkey, H.get_put_of_not _ _ _ hnot, hmiss,
    Option.getD_none]
  rfl

end ReadAfterWrite

/-- A write is read back when the table takes its key, and otherwise exactly when its value is 0,
the answer to a failed read. The table takes each key that it holds, and no new one when it is
full. -/
theorem read_after_write_iff (H : RteHash) (rteIpv4UdptcpCksum : Cksum) (frames : List Frame)
    (w q : Frame) (hw : Accepted w) (hwrite : w.word 0 ≠ 0) (hq : Accepted q)
    (hread : q.word 0 = 0) (hkey : q.word 1 = w.word 1) :
    let cache := cacheAfter H rteIpv4UdptcpCksum frames
    let table := cache (buck (w.word 1))
    ((respond H rteIpv4UdptcpCksum
        (respond H rteIpv4UdptcpCksum cache w).2.store q).2.frame.word 2 = w.word 2 ↔
      H.Takes table (w.word 1) ∨ w.word 2 = 0) ∧
    (w.word 1 ∈ H.keys table → H.Takes table (w.word 1)) ∧
    (w.word 1 ∉ H.keys table → entries ≤ (H.keys table).card → ¬ H.Takes table (w.word 1)) := by
  refine ⟨?_, H.takes_of_mem _ _, RefusingMap.not_takes_of_full⟩
  by_cases htakes : H.Takes (cacheAfter H rteIpv4UdptcpCksum frames (buck (w.word 1))) (w.word 1)
  · rw [word_two_of_takes hw hwrite hq hread hkey htakes]
    exact iff_of_true rfl (Or.inl htakes)
  · rw [word_two_of_not_takes hw hwrite hq hread hkey htakes, or_iff_right htakes]
    exact eq_comm

/-- A table that refuses keys only when it is full. -/
def plainHash : RteHash := (refusingMap (BitVec 32) (BitVec 64) entries).toRefusingMap

theorem roomy_plainHash : plainHash.toBoundedMap.Roomy := (refusingMap _ _ _).roomy

theorem takes_plainHash_empty (key : BitVec 32) : plainHash.Takes plainHash.empty key := by
  have hempty : (plainHash.keys plainHash.empty).card < entries := by
    rw [plainHash.keys_empty]
    decide
  exact Or.inr hempty

theorem read_after_write_iff_first_write :
    (respond plainHash rteCksum (respond plainHash rteCksum (cacheAfter plainHash rteCksum [])
      (requestFrame 1 7 42)).2.store (requestFrame 0 7 0)).2.frame.word 2 = 42 := by
  have h := (read_after_write_iff plainHash rteCksum [] _ _ (accepted_requestFrame 1 7 42)
    (by simp) (accepted_requestFrame 0 7 0) (by simp) (by simp)).1.mpr
      (Or.inl (takes_plainHash_empty _))
  rwa [word_two_requestFrame] at h

def fillingWrites : List Frame := writeFrames (BitVec.ofNat 32) 1 entries

theorem keys_cacheAfter_fillingWrites (i : Fin setsNr) :
    (plainHash.keys (cacheAfter plainHash rteCksum fillingWrites i)) =
      ((List.range entries).map (BitVec.ofNat 32)).toFinset := by
  have hrequests : pointerRequests fillingWrites =
      (fillingWrites.map request).map (Op.mapValue (BitVec.signExtend 64)) := by
    unfold pointerRequests fillingWrites
    rw [filter_writeFrames, List.map_map]
    · rfl
    · exact fun flag key val => decide_eq_true (accepted_requestFrame flag key val)
  have hwritten : writtenKeys (pointerRequests fillingWrites) =
      ((List.range entries).map (BitVec.ofNat 32)).toFinset := by
    rw [hrequests, writtenKeys_mapValue, fillingWrites, writtenKeys_writeFrames]
  have hcard : (writtenKeys (pointerRequests fillingWrites)).card ≤ entries := by
    rw [hwritten]
    refine (List.toFinset_card_le _).trans ?_
    rw [List.length_map, List.length_range]
  have hfaith : Faithful buck (pointerRequests fillingWrites)
      (serveAll plainHash.toBoundedMap buck (pointerRequests fillingWrites)) :=
    faithful_serveAll roomy_plainHash _ fun i =>
      (Finset.card_le_card (Finset.filter_subset _ _)).trans hcard
  rw [cacheAfter_eq, hfaith.keys_eq, hwritten]
  exact Finset.filter_true_of_mem fun k _ => buck_eq k i

/-- A new key is not taken by the full table, and reading it answers 0. -/
theorem not_read_after_write_full :
    (respond plainHash rteCksum (respond plainHash rteCksum
      (cacheAfter plainHash rteCksum fillingWrites) (requestFrame 1 504 7)).2.store
        (requestFrame 0 504 0)).2.frame.word 2 ≠ (requestFrame 1 504 7).word 2 := by
  have hinj : ∀ i ∈ List.range entries, ∀ j ∈ List.range entries,
      BitVec.ofNat 32 i = BitVec.ofNat 32 j → i = j := by
    intro i hi j hj hij
    have h := congrArg BitVec.toNat hij
    rw [List.mem_range] at hi hj
    simp only [entries, setsBlocks] at hi hj
    rw [BitVec.toNat_ofNat, BitVec.toNat_ofNat] at h
    omega
  rw [word_two_of_not_takes (accepted_requestFrame 1 504 7) (by simp)
    (accepted_requestFrame 0 504 0) (by simp) (by simp), word_two_requestFrame]
  · decide
  rw [word_one_requestFrame]
  apply RefusingMap.not_takes_of_full
  · rw [keys_cacheAfter_fillingWrites]
    intro hmem
    obtain ⟨i, hi, hkey⟩ := List.mem_map.mp (List.mem_toFinset.mp hmem)
    have h := congrArg BitVec.toNat hkey
    rw [List.mem_range] at hi
    simp only [entries, setsBlocks] at hi
    rw [BitVec.toNat_ofNat] at h
    simp at h
    omega
  · rw [keys_cacheAfter_fillingWrites, List.toFinset_card_of_nodup
      (List.Nodup.map_on hinj List.nodup_range), List.length_map, List.length_range]

end PacketBench.Dpdk

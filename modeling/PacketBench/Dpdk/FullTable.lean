import PacketBench.Dpdk.Kvstore
import PacketBench.Maps.Overflow

/-! # The DPDK key-value store and the keys that its table refuses

The table holds each key that it has once taken and refuses the others, all new
ones at the latest when it holds `entries` keys. So after any run a read of a
key that was taken returns its latest value, and a read of any other key is
answered with 0.
-/

namespace PacketBench.Dpdk

open BoundedMaps

def requests (frames : List Frame) : List Request := (frames.filter (Accepted ·)).map request

theorem pointerRequests_eq_map (frames : List Frame) :
    pointerRequests frames = (requests frames).map (Op.mapValue (BitVec.signExtend 64)) := by
  unfold pointerRequests requests
  rw [List.map_map]
  rfl

theorem requests_append (frames frames' : List Frame) :
    requests (frames ++ frames') = requests frames ++ requests frames' := by
  unfold requests
  rw [List.filter_append, List.map_append]

theorem requests_cons_of_accepted {f : Frame} (h : Accepted f) (frames : List Frame) :
    requests (f :: frames) = request f :: requests frames := by
  unfold requests
  rw [List.filter_cons_of_pos (by simpa using h), List.map_cons]

theorem share_buck (keys : Finset (BitVec 32)) (i : Fin setsNr) : share buck keys i = keys :=
  Finset.filter_true_of_mem fun k _ => buck_eq k i

theorem writtenKeys_pointerRequests (frames : List Frame) :
    writtenKeys (pointerRequests frames) = writtenKeys (requests frames) := by
  rw [pointerRequests_eq_map, writtenKeys_mapValue]

/-- A request stems from an accepted frame with the requests before and after it on both sides. -/
theorem requests_eq_append_cons {frames : List Frame} {before after : List Request} {op : Request}
    (h : requests frames = before ++ op :: after) :
    ∃ earlier f rest, frames = earlier ++ f :: rest ∧ Accepted f ∧ request f = op ∧
      requests earlier = before := by
  unfold requests at h
  obtain ⟨l₁, l₂, hfilter, hbefore, hrest⟩ := List.map_eq_append_iff.mp h
  obtain ⟨f, l₃, rfl, hop, -⟩ := List.map_eq_cons_iff.mp hrest
  obtain ⟨m₁, m₂, rfl, rfl, hm₂⟩ := List.filter_eq_append_iff.mp hfilter
  obtain ⟨n₁, n₂, rfl, hn₁, hf, -⟩ := List.filter_eq_cons_iff.mp hm₂
  refine ⟨m₁ ++ n₁, f, n₂, by simp, of_decide_eq_true hf, hop, ?_⟩
  unfold requests
  rw [List.filter_append, List.filter_eq_nil_iff.mpr hn₁, List.append_nil, hbefore]

/-- A write of the key found the table ready to take it. -/
def WriteTaken (H : RteHash) (rteIpv4UdptcpCksum : Cksum) (history : List Frame)
    (key : BitVec 32) : Prop :=
  ∃ earlier w rest, history = earlier ++ w :: rest ∧ Accepted w ∧ w.word 0 ≠ 0 ∧
    w.word 1 = key ∧ H.Takes (cacheAfter H rteIpv4UdptcpCksum earlier (buck key)) key

section

variable (H : RteHash) (rteIpv4UdptcpCksum : Cksum) (history : List Frame)

theorem taken_iff_writeTaken (key : BitVec 32) :
    Taken H buck (pointerRequests history) key ↔ WriteTaken H rteIpv4UdptcpCksum history key := by
  constructor
  · rintro ⟨before, v, after, heq, htakes⟩
    rw [pointerRequests_eq_map] at heq
    obtain ⟨l₁, l₂, hrequests, rfl, hrest⟩ := List.map_eq_append_iff.mp heq
    obtain ⟨op, l₃, rfl, hop, -⟩ := List.map_eq_cons_iff.mp hrest
    obtain ⟨earlier, w, rest, hsplit, hw, hreq, rfl⟩ := requests_eq_append_cons hrequests
    have hcache : cacheAfter H rteIpv4UdptcpCksum earlier =
        serveAll H.toBoundedMap buck (pointerRequests earlier) := cacheAfter_eq earlier
    rw [← pointerRequests_eq_map, ← hcache] at htakes
    rcases eq_or_ne (w.word 0) 0 with hflag | hflag
    · rw [← hreq, request_of_read hflag] at hop
      cases hop
    · rw [← hreq, request_of_write hflag, Op.mapValue, Op.write.injEq] at hop
      exact ⟨earlier, w, rest, hsplit, hw, hflag, hop.1, htakes⟩
  · rintro ⟨earlier, w, rest, rfl, hw, hflag, rfl, htakes⟩
    rw [cacheAfter_eq] at htakes
    refine ⟨pointerRequests earlier, (w.word 2).signExtend 64, pointerRequests rest, ?_, htakes⟩
    simp only [pointerRequests_eq_map, requests_append, requests_cons_of_accepted hw,
      request_of_write hflag, List.map_append, List.map_cons, Op.mapValue]

/-- After any run, a read of a key that the table took returns its latest value and a read of any
other key returns 0. -/
theorem respond_read_overflow {f : Frame} (hf : Accepted f) (hread : f.word 0 = 0) :
    (WriteTaken H rteIpv4UdptcpCksum history (f.word 1) →
      lastWrite (requests history) (f.word 1) = some ((respond H rteIpv4UdptcpCksum
        (cacheAfter H rteIpv4UdptcpCksum history) f).2.frame.word 2)) ∧
    (¬ WriteTaken H rteIpv4UdptcpCksum history (f.word 1) → (respond H rteIpv4UdptcpCksum
      (cacheAfter H rteIpv4UdptcpCksum history) f).2.frame.word 2 = 0) := by
  have hkeeps : KeepsTaken H buck (pointerRequests history) := keepsTaken _
  rw [respond_read _ hf hread, ← taken_iff_writeTaken, cacheAfter_eq]
  constructor
  · intro htaken
    have hwritten := htaken.mem_writtenKeys
    rw [writtenKeys_pointerRequests] at hwritten
    obtain ⟨v, hv⟩ := Option.isSome_iff_exists.mp (lastWrite_isSome.mpr hwritten)
    rw [hkeeps.taken _ htaken, pointerRequests_eq_map, lastWrite_mapValue, hv, Option.map_some,
      Option.getD_some, setWidth_signExtend]
  · intro hnot
    rw [hkeeps.refused _ hnot, Option.getD_none]
    rfl

/-- Once more than `entries` keys have been written, some written key is answered with 0. -/
theorem exists_written_key_refused
    (h : entries < (writtenKeys (requests history)).card) :
    ∃ key ∈ writtenKeys (requests history), ∀ f, Accepted f → f.word 0 = 0 → f.word 1 = key →
      (respond H rteIpv4UdptcpCksum (cacheAfter H rteIpv4UdptcpCksum history) f).2.frame.word 2 =
        0 := by
  rw [← writtenKeys_pointerRequests, ← share_buck (writtenKeys (pointerRequests history))
    (buck 0)] at h
  obtain ⟨key, hkey, hnot⟩ := exists_not_taken (M := H) h
  rw [writtenKeys_pointerRequests] at hkey
  refine ⟨key, hkey, fun f hf hread hfkey => ?_⟩
  subst hfkey
  rw [taken_iff_writeTaken H rteIpv4UdptcpCksum] at hnot
  exact (respond_read_overflow H rteIpv4UdptcpCksum history hf hread).2 hnot

end

theorem writeTaken_plainHash_first (flag key val : BitVec 32) (hflag : flag ≠ 0)
    (rest : List Frame) : WriteTaken plainHash rteCksum (requestFrame flag key val :: rest) key :=
  ⟨[], _, rest, rfl, accepted_requestFrame flag key val, by simpa using hflag, by simp,
    takes_plainHash_empty key⟩

end PacketBench.Dpdk

import PacketBench.Maps.Overflow
import PacketBench.Xdp.ReadYourWrites

/-! # The XDP key-value store beyond its capacity

The kernel makes room in a full map by giving entries up. A read may then miss
a key that was written, but what it finds is always the latest value, and the
key written last to a map is still there.
-/

namespace PacketBench.Xdp

open BoundedMaps

/-- No later request of the run writes to the map of the key. -/
def Untouched (key : BitVec 32) (rest : List Frame) : Prop :=
  ∀ g ∈ rest, IsRequest g → g.word 0 ≠ 0 → keySet (g.word 1) ≠ keySet key

theorem Untouched.requests {key : BitVec 32} {rest : List Frame} (h : Untouched key rest) :
    ∀ op ∈ Xdp.requests rest, ∀ k, op.written = some k → keySet k ≠ keySet key := by
  intro op hop k hk
  obtain ⟨g, hg, rfl⟩ := List.mem_map.mp hop
  obtain ⟨hmem, hreq⟩ := List.mem_filter.mp hg
  rcases eq_or_ne (g.word 0) 0 with hflag | hflag
  · rw [request_of_read hflag] at hk
    cases hk
  · rw [request_of_write hflag] at hk
    obtain rfl := Option.some.inj hk
    exact h g hmem (of_decide_eq_true hreq) hflag

theorem word_two_cases (L : LruHash) (history : List Frame) {f : Frame} (hf : IsRequest f)
    (hread : f.word 0 = 0) : (respond L history f).2.frame.word 2 = f.word 2 ∨
      lastWrite (requests history) (f.word 1) =
        some ((respond L history f).2.frame.word 2) := by
  rw [respond_read history hf hread, mapsAfter_eq]
  cases hval : value L.toBoundedMap keySet
      (serveAll L.toBoundedMap keySet (requests history)) (f.word 1) with
  | none => exact Or.inl rfl
  | some v => exact Or.inr (neverStale_serveAll _ _ v hval)

/-- After any run, a read returns the client's word or the latest value of the key, and it returns
the value when nothing has been written to the same map since. -/
theorem respond_never_stale (L : LruHash) (history : List Frame) (f : Frame) (hf : IsRequest f)
    (hread : f.word 0 = 0) :
    ((respond L history f).2.frame.word 2 = f.word 2 ∨
      lastWrite (requests history) (f.word 1) = some ((respond L history f).2.frame.word 2)) ∧
    ∀ earlier w rest, history = earlier ++ w :: rest → IsRequest w → w.word 0 ≠ 0 →
      w.word 1 = f.word 1 → Untouched (f.word 1) rest →
        (respond L history f).2.frame.word 2 = w.word 2 := by
  refine ⟨word_two_cases L history hf hread, ?_⟩
  rintro earlier w rest rfl hw hflag hkey huntouched
  rw [respond_read _ hf hread, mapsAfter_eq, requests_append, requests_cons_of_request hw,
    request_of_write hflag, hkey, value_latest _ _ _ huntouched.requests, Option.getD_some]

theorem respond_never_stale_read_back :
    (respond kernelLru [requestFrame 1 7 42] (requestFrame 0 7 0)).2.frame.word 2 = 42 := by
  have hread := (respond_never_stale kernelLru [requestFrame 1 7 42] _
    (isRequest_requestFrame 0 7 0) (word_zero_requestFrame 0 7 0)).2 [] _ [] rfl
    (isRequest_requestFrame 1 7 42) (by simp) (by simp) (fun g hg => absurd hg List.not_mem_nil)
  rwa [word_two_requestFrame] at hread

end PacketBench.Xdp

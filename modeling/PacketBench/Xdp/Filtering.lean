import PacketBench.Frame.Requests
import PacketBench.Lists.Folds
import PacketBench.Maps.Recency
import PacketBench.Xdp.Handling
import PacketBench.Xdp.Variants

/-! # What the filter copies

The copy loop of `filter` looks an index up in `rxfilter` but writes to
`hmfilter`. So the host array never changes, and a matching frame leaves the
match table alone only where all its insertions are redundant.
-/

namespace PacketBench.Xdp

open PktM BoundedMaps

variable {H : FilterHash} {maps : FilterMaps H} {f : Frame}

def copiedEntries (f : Frame) (n : ℕ) : List (BitVec 32 × BitVec 16) :=
  (List.range n).map fun i => (BitVec.ofNat 32 i, f.mem.load (42 + dataSizeB * i) 16)

theorem copied_eq (maps : FilterMaps H) (f : Frame) (n : ℕ) : maps.copied f n =
    { maps with hmfilter := H.putAll maps.hmfilter (copiedEntries f n) } := by
  unfold FilterMaps.copied copiedEntries FillingMap.putAll
  induction n with
  | zero => rfl
  | succ n ih =>
    rw [List.range_succ, List.foldl_concat, ih, List.map_append, List.foldl_append]
    rfl

theorem nodup_copiedEntries (f : Frame) {n : ℕ} (hn : n ≤ 2 ^ 32) :
    ((copiedEntries f n).map Prod.fst).Nodup := by
  have hkeys : (copiedEntries f n).map Prod.fst = (List.range n).map (BitVec.ofNat 32) := by
    rw [copiedEntries, List.map_map]
    rfl
  rw [hkeys]
  refine List.Nodup.map_on (fun i hi j hj heq => ?_) List.nodup_range
  have hi := List.mem_range.mp hi
  have hj := List.mem_range.mp hj
  have hnat := congrArg BitVec.toNat heq
  rw [BitVec.toNat_ofNat, BitVec.toNat_ofNat] at hnat
  omega

/-- A match copies the payload to the host and a mismatch nothing; the match table stays. -/
structure CopiesFrame (maps maps' : FilterMaps H) (f : Frame) : Prop where
  matched : Matches H maps f → ∀ i < totSizeB / dataSizeB, maps'.rxfilter i = f.word i
  mismatched : ¬ Matches H maps f → maps'.rxfilter = maps.rxfilter
  table : H.get maps'.hmfilter = H.get maps.hmfilter

/-- A match changes nothing: the host has the payload already, and under each index `hmfilter` has
the low half of the word or no entry and no room for one. -/
def Spared (maps : FilterMaps H) (f : Frame) : Prop :=
  Matches H maps f → ∀ i < totSizeB / dataSizeB, maps.rxfilter i = f.word i ∧
    H.Redundant maps.hmfilter (BitVec.ofNat 32 i) (f.mem.load (42 + dataSizeB * i) 16)

theorem get_copied_eq_iff (maps : FilterMaps H) (f : Frame) :
    H.get (maps.copied f (totSizeB / dataSizeB)).hmfilter = H.get maps.hmfilter ↔
      ∀ i < totSizeB / dataSizeB, H.Redundant maps.hmfilter (BitVec.ofNat 32 i)
        (f.mem.load (42 + dataSizeB * i) 16) := by
  rw [copied_eq, FillingMap.get_putAll_eq_iff (nodup_copiedEntries f (by decide)), copiedEntries,
    List.forall_mem_map]
  simp only [List.mem_range]

theorem copiesFrame_iff (maps : FilterMaps H) (f : Frame) :
    CopiesFrame maps (copyMatching H totSizeB maps f) f ↔ Spared maps f := by
  unfold copyMatching Spared
  by_cases hmatch : Matches H maps f
  · have hhost : (maps.copied f (totSizeB / dataSizeB)).rxfilter = maps.rxfilter := by
      rw [copied_eq]
    rw [if_pos hmatch, forall_prop_of_true hmatch, forall₂_and, ← get_copied_eq_iff]
    constructor
    · rintro ⟨hmatched, -, htable⟩
      rw [hhost] at hmatched
      exact ⟨hmatched hmatch, htable⟩
    · rintro ⟨hwords, htable⟩
      refine ⟨fun _ => ?_, fun hn => absurd hmatch hn, htable⟩
      rw [hhost]
      exact hwords
  · rw [if_neg hmatch]
    exact iff_of_true ⟨fun h => absurd h hmatch, fun _ => rfl, rfl⟩ fun h => absurd h hmatch

/-- The taken frames that the table of the loader matches. -/
def Selected (maps : FilterMaps H) (f : Frame) : Prop := Takes totSizeB f ∧ Matches H maps f

instance (maps : FilterMaps H) : DecidablePred (Selected maps) := fun f =>
  inferInstanceAs (Decidable (Takes totSizeB f ∧ Matches H maps f))

/-- The host has the payload of the last matching frame, and the table is that of the loader. -/
structure CopiesRun (maps maps' : FilterMaps H) (frames : List Frame) : Prop where
  array : ∀ i < totSizeB / dataSizeB, maps'.rxfilter i =
    ((frames.filter (Selected maps ·)).getLast?.map (Frame.word · i)).getD (maps.rxfilter i)
  table : H.get maps'.hmfilter = H.get maps.hmfilter

theorem matches_congr {maps' : FilterMaps H} (h : H.get maps'.hmfilter = H.get maps.hmfilter) :
    Matches H maps' f ↔ Matches H maps f := by
  rw [Matches, Matches, h]

section Runs

variable {α : Type} {frame : α → Frame} {step : Counted (FilterMaps H) → α → Counted (FilterMaps H)}

/-- A spared step keeps the table, and only a frame that the table of the loader selects shows in
the array. -/
theorem shows_of_spared
    (htaken : ∀ s a, Takes totSizeB (frame a) →
      (step s a).data = copyMatching H totSizeB s.data (frame a))
    (hkeep : ∀ s a, ¬ Takes totSizeB (frame a) → step s a = s)
    {t : Counted (FilterMaps H)} {a : α} (htable : H.get t.data.hmfilter = H.get maps.hmfilter)
    (hspared : Takes totSizeB (frame a) → Spared t.data (frame a)) :
    H.get (step t a).data.hmfilter = H.get maps.hmfilter ∧
      ∀ i < totSizeB / dataSizeB, Lists.Shows step (fun a => Selected maps (frame a))
        (fun t => t.data.rxfilter i) (fun a => (frame a).word i) t a := by
  have hmatches : Matches H t.data (frame a) ↔ Matches H maps (frame a) := matches_congr htable
  by_cases ha : Takes totSizeB (frame a)
  · obtain ⟨hmatched, hmismatched, hkept⟩ := (copiesFrame_iff t.data (frame a)).mpr (hspared ha)
    rw [← htaken t a ha] at hmatched hmismatched hkept
    refine ⟨hkept.trans htable, fun i hi => ⟨fun hsel => ?_, fun hnot => ?_⟩⟩
    · exact hmatched (hmatches.mpr hsel.2) i hi
    · exact congrFun (hmismatched fun h => hnot ⟨ha, hmatches.mp h⟩) i
  · rw [hkeep t a ha]
    refine ⟨htable, fun i _ => ⟨fun hsel => absurd hsel.1 ha, fun _ => ?_⟩⟩
    simp only [hkeep t a ha]

theorem copiesRun_of_along
    (htaken : ∀ s a, Takes totSizeB (frame a) →
      (step s a).data = copyMatching H totSizeB s.data (frame a))
    (hkeep : ∀ s a, ¬ Takes totSizeB (frame a) → step s a = s)
    {s : Counted (FilterMaps H)} {xs : List α}
    (hall : Lists.Along step (fun s a => Takes totSizeB (frame a) → Spared s.data (frame a)) s xs) :
    CopiesRun s.data (xs.foldl step s).data (xs.map frame) := by
  have hinvariant := hall.invariant
    (P := fun t => H.get t.data.hmfilter = H.get s.data.hmfilter) rfl
    fun t a htable hspared => shows_of_spared htaken hkeep htable hspared
  constructor
  · intro i hi
    have hshows : Lists.Along step (Lists.Shows step (fun a => Selected s.data (frame a))
        (fun t => t.data.rxfilter i) fun a => (frame a).word i) s xs :=
      hinvariant.2.imp fun t a h => h i hi
    rw [Lists.foldl_last hshows, List.filter_map, List.getLast?_map, Option.map_map]
    rfl
  · exact hinvariant.1

end Runs

/-- The filter copies the matching frames, as far as it meets frames it can spare only. -/
structure CopiesSpared (prog : Instant → Instant → PktM (Counted (FilterMaps H)) Verdict) :
    Prop where
  frame : ∀ s a, Takes totSizeB a.frame →
    (CopiesFrame s.data (handleTimed prog s a).2.store.data a.frame ↔ Spared s.data a.frame)
  run : ∀ s arrivals, Lists.Along (fun s a => (handleTimed prog s a).2.store)
      (fun s a => Takes totSizeB a.frame → Spared s.data a.frame) s arrivals →
    CopiesRun s.data (storeAfterTimed prog s arrivals).data (arrivals.map Arrival.frame)

theorem copiesSpared_of_countsWith
    {prog : Instant → Instant → PktM (Counted (FilterMaps H)) Verdict}
    (h : ∀ arrival processed,
      CountsWith totSizeB (prog arrival processed) (copyMatching H totSizeB)) :
    CopiesSpared prog := by
  have htaken : ∀ s a, Takes totSizeB a.frame →
      (handleTimed prog s a).2.store.data = copyMatching H totSizeB s.data a.frame := by
    intro s a ha
    rw [handleTimed, (h _ _).taken s a.frame ha]
  constructor
  · intro s a ha
    rw [htaken s a ha]
    exact copiesFrame_iff s.data a.frame
  · intro s arrivals hall
    exact copiesRun_of_along htaken (fun s a ha => (h _ _).rejected s a.frame ha) hall

/-- Both variants copy a matching frame right only where the copy changes nothing. -/
theorem filter_copies_spared (H : FilterHash) :
    CopiesSpared (fun arrival processed => filter totSizeB arrival processed H) ∧
      CopiesSpared (fun _ _ => filterNoT totSizeB H) :=
  ⟨copiesSpared_of_countsWith fun arrival processed =>
      countsWith_filter (by decide) arrival processed H,
    copiesSpared_of_countsWith fun _ _ => countsWith_filterNoT (by decide) H⟩

def matchedKey : BitVec 32 := 0x0A00

def matchedMaps : FilterMaps (refusingMap (BitVec 32) (BitVec 16) hashEntries) :=
  ⟨fun _ => 0, (refusingMap _ _ _).put (refusingMap _ _ _).empty matchedKey 7999⟩

theorem matches_requestFrame : Matches _ matchedMaps (requestFrame 1 7 42) := by
  have hroom : ((refusingMap (BitVec 32) (BitVec 16) hashEntries).keys
      (refusingMap _ _ _).empty).card < hashEntries := by
    rw [BoundedMap.keys_empty]
    decide
  have hkey : (ntohs (((requestFrame 1 7 42).mem.load (ipDaddr 14) 32).setWidth 16)).setWidth 32 =
      matchedKey := by
    rw [load_requestFrame _ _ _ (by decide)]
    decide
  rw [Matches, hkey, matchedMaps, (refusingMap _ _ _).get_put _ _ _ (Or.inr hroom),
    Function.update_self]
  rfl

theorem not_copiesFrame (hmatch : Matches H maps f) (hword : maps.rxfilter 0 ≠ f.word 0) :
    ¬ CopiesFrame maps (copyMatching H totSizeB maps f) f :=
  fun h => hword ((copiesFrame_iff maps f).mp h hmatch 0 (by decide)).1

/-- The host array stays zero although the frame matches and its first word is not zero. -/
theorem not_filter_copies : Takes totSizeB (requestFrame 1 7 42) ∧
    ¬ CopiesFrame matchedMaps
      (handle (filterNoT totSizeB _) ⟨0, matchedMaps⟩ (requestFrame 1 7 42)).2.store.data
      (requestFrame 1 7 42) := by
  have hcounts := countsWith_filterNoT (by decide : totSizeB < 2 ^ 31)
    (refusingMap (BitVec 32) (BitVec 16) hashEntries)
  refine ⟨takes_requestFrame 1 7 42, ?_⟩
  rw [hcounts.taken _ _ (takes_requestFrame 1 7 42)]
  dsimp only
  refine not_copiesFrame matches_requestFrame ?_
  rw [word_zero_requestFrame]
  decide

end PacketBench.Xdp

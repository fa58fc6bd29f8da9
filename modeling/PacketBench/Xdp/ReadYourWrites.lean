import PacketBench.Maps.Recency
import PacketBench.Xdp.Kvstore

/-! # Read your writes in the XDP key-value store

A run of the untimed store serves its requests on the family of four maps, so
the store answers like an unbounded one while the keys of each map fit. The
switch in `getSet` sends two of the four residue classes to one map, which
then has to hold both.
-/

namespace PacketBench.Xdp

open Bytes BoundedMaps

def requests (frames : List Frame) : List Request := (frames.filter (IsRequest ·)).map request

@[simp] theorem requests_nil : requests [] = [] := rfl

theorem requests_append (frames frames' : List Frame) :
    requests (frames ++ frames') = requests frames ++ requests frames' := by
  rw [requests, List.filter_append, List.map_append]; rfl

theorem requests_cons_of_request {f : Frame} (h : IsRequest f) (frames : List Frame) :
    requests (f :: frames) = request f :: requests frames := by
  rw [requests, List.filter_cons_of_pos (by simpa using h), List.map_cons]; rfl

theorem requests_cons_of_not {f : Frame} (h : ¬ IsRequest f) (frames : List Frame) :
    requests (f :: frames) = requests frames := by
  rw [requests, List.filter_cons_of_neg (by simpa using h)]; rfl

theorem isRequest_requestFrame (flag key val : BitVec 32) : IsRequest (requestFrame flag key val) :=
  ⟨⟨by simp, protocol_requestFrame flag key val⟩, announces_requestFrame flag key val, by simp⟩

def kernelLru : LruHash := lruMap (BitVec 32) (BitVec 32) setsBlocks (by decide)

variable (L : LruHash)

def mapsAfter (frames : List Frame) : Maps L := storeAfter (kvstoreNoT L) (fun _ => L.empty) frames

def respond (history : List Frame) (f : Frame) : Verdict × Run (Maps L) :=
  handle (kvstoreNoT L) (mapsAfter L history) f

variable {L}

theorem storeAfter_kvstoreNoT (maps : Maps L) (frames : List Frame) :
    storeAfter (kvstoreNoT L) maps frames =
      (requests frames).foldl (serve L.toBoundedMap keySet) maps := by
  induction frames generalizing maps with
  | nil => rfl
  | cons f frames ih =>
    rw [storeAfter, List.foldl_cons, ← storeAfter, ih]
    by_cases hf : IsRequest f
    · rw [(handle_kvstoreNoT maps hf).2.2, requests_cons_of_request hf, List.foldl_cons, serveMaps]
    · rw [(handle_kvstoreNoT_of_not maps hf).2.2, requests_cons_of_not hf]

theorem mapsAfter_eq (frames : List Frame) :
    mapsAfter L frames = serveAll L.toBoundedMap keySet (requests frames) :=
  storeAfter_kvstoreNoT _ frames

/-- While the written keys of each map fit, the maps hold exactly what was written. -/
theorem faithful_mapsAfter {history : List Frame}
    (h : ∀ i, (share keySet (writtenKeys (requests history)) i).card ≤ setsBlocks) :
    Faithful keySet (requests history) (mapsAfter L history) := by
  rw [mapsAfter_eq]
  exact faithful_serveAll L.roomy _ h

theorem respond_of_request (history : List Frame) {f : Frame} (hf : IsRequest f) :
    (respond L history f).1 = .tx ∧ ∀ i, (respond L history f).2.frame.word i =
      (Frame.mk f.len (answer L (mapsAfter L history) f)).word i := by
  obtain ⟨hverdict, hframe, -⟩ := handle_kvstoreNoT (mapsAfter L history) hf
  refine ⟨hverdict, fun i => ?_⟩
  unfold respond
  rw [hframe, word_swapHeaders]

theorem respond_read (history : List Frame) {f : Frame} (hf : IsRequest f) (hflag : f.word 0 = 0) :
    (respond L history f).2.frame.word 2 =
      (value L.toBoundedMap keySet (mapsAfter L history) (f.word 1)).getD (f.word 2) := by
  rw [(respond_of_request history hf).2, word_two_answer _ hflag]

theorem respond_word (history : List Frame) {f : Frame} (hf : IsRequest f) {i : ℕ}
    (hi : f.word 0 ≠ 0 ∨ i ≠ 2) : (respond L history f).2.frame.word i = f.word i := by
  rw [(respond_of_request history hf).2]
  rcases eq_or_ne i 2 with htwo | htwo
  · rw [answer_of_write (hi.resolve_right (not_not.mpr htwo))]
  · exact word_answer _ htwo f.len

/-- While the store has seen no more than `SETS_BLOCKS` keys, it answers every read of a written
key with the latest value, every other read with the word the client sent, and changes nothing
else in the payload. -/
theorem respond_latest_write (L : LruHash) (frames : List Frame)
    (hkeys : (touchedKeys (requests frames)).card ≤ setsBlocks) (history rest : List Frame)
    (f : Frame) (hsplit : frames = history ++ f :: rest) (hf : IsRequest f) :
    (respond L history f).1 = .tx ∧
    (f.word 0 = 0 → (respond L history f).2.frame.word 2 =
      (lastWrite (requests history) (f.word 1)).getD (f.word 2)) ∧
    ∀ i < dataNr, f.word 0 ≠ 0 ∨ i ≠ 2 → (respond L history f).2.frame.word i = f.word i := by
  refine ⟨(respond_of_request history hf).1, fun hflag => ?_, fun i _ => respond_word history hf⟩
  have hsub : writtenKeys (requests history) ⊆ touchedKeys (requests frames) := by
    refine (writtenKeys_mono ?_).trans (writtenKeys_subset_touchedKeys _)
    rw [hsplit, requests_append]
    exact List.subset_append_left _ _
  have hfaith : Faithful keySet (requests history) (mapsAfter L history) :=
    faithful_mapsAfter fun i =>
      (Finset.card_le_card ((Finset.filter_subset _ _).trans hsub)).trans hkeys
  rw [respond_read history hf hflag, hfaith.value_eq]

theorem respond_latest_write_read_back :
    (touchedKeys (requests [requestFrame 1 7 42, requestFrame 0 7 0])).card ≤ setsBlocks ∧
    (respond kernelLru [requestFrame 1 7 42] (requestFrame 0 7 0)).2.frame.word 2 = 42 := by
  have hkeys :
      (touchedKeys (requests [requestFrame 1 7 42, requestFrame 0 7 0])).card ≤ setsBlocks :=
    (card_touchedKeys_le _).trans ((List.length_map request).le.trans
      ((List.length_filter_le _ _).trans (by decide)))
  refine ⟨hkeys, ?_⟩
  have hread := (respond_latest_write kernelLru _ hkeys [requestFrame 1 7 42] [] _ rfl
    (isRequest_requestFrame 0 7 0)).2.1 (word_zero_requestFrame 0 7 0)
  rw [hread, requests_cons_of_request (isRequest_requestFrame 1 7 42), requests_nil,
    request_of_write (by simp)]
  simp [lastWrite, Op.effect]

def residue (key : BitVec 32) : ℕ := key.toNat % setsNr

theorem residue_lt (key : BitVec 32) : residue key < setsNr := Nat.mod_lt _ (by decide)

theorem keySet_cases (key : BitVec 32) :
    residue key = 0 ∧ keySet key = .rxblk1 ∨ residue key = 1 ∧ keySet key = .rxblk1 ∨
    residue key = 2 ∧ keySet key = .rxblk2 ∨ residue key = 3 ∧ keySet key = .rxblk3 := by
  have hset : keySet key = getSet (residue key : ℕ) := rfl
  have hlt := residue_lt key
  rw [hset]
  generalize residue key = c at hlt
  obtain rfl | rfl | rfl | rfl : c = 0 ∨ c = 1 ∨ c = 2 ∨ c = 3 := by
    rw [setsNr] at hlt
    omega
  all_goals decide

theorem keySet_eq_rxblk1_iff {key : BitVec 32} : keySet key = .rxblk1 ↔ residue key ≤ 1 := by
  rcases keySet_cases key with ⟨hc, hs⟩ | ⟨hc, hs⟩ | ⟨hc, hs⟩ | ⟨hc, hs⟩ <;> rw [hc, hs] <;> decide

theorem residue_eq_of_keySet_ne {key key' : BitVec 32} (h : keySet key = keySet key')
    (hne : keySet key ≠ .rxblk1) : residue key = residue key' := by
  rcases keySet_cases key with ⟨hc, hs⟩ | ⟨hc, hs⟩ | ⟨hc, hs⟩ | ⟨hc, hs⟩ <;>
    rcases keySet_cases key' with ⟨hc', hs'⟩ | ⟨hc', hs'⟩ | ⟨hc', hs'⟩ | ⟨hc', hs'⟩ <;>
      simp_all

/-- After every part of the run, a read of a written key returns the latest value. -/
def KeepsWrites (L : LruHash) (frames : List Frame) : Prop :=
  ∀ history, history <+: frames → ∀ f, IsRequest f → f.word 0 = 0 →
    ∀ v, lastWrite (requests history) (f.word 1) = some v →
      (respond L history f).1 = .tx ∧ (respond L history f).2.frame.word 2 = v

/-- No residue class has more than `SETS_BLOCKS` keys. -/
def ClassesFit (frames : List Frame) : Prop :=
  ∀ c < setsNr, (share residue (touchedKeys (requests frames)) c).card ≤ setsBlocks

theorem KeepsWrites.lossless {L : LruHash} {frames : List Frame} (h : KeepsWrites L frames) :
    ∀ k ∈ writtenKeys (requests frames),
      value L.toBoundedMap keySet (mapsAfter L frames) k = lastWrite (requests frames) k := by
  intro k hk
  obtain ⟨v, hv⟩ := Option.isSome_iff_exists.mp (lastWrite_isSome.mpr hk)
  -- Two reads that differ in the client's word tell a stored value from a miss.
  have hread : ∀ w, (value L.toBoundedMap keySet (mapsAfter L frames) k).getD w = v := by
    intro w
    have hreq := isRequest_requestFrame 0 k w
    have hflag := word_zero_requestFrame 0 k w
    have hkey := word_one_requestFrame 0 k w
    have hreply := (h frames (List.prefix_refl _) _ hreq hflag v (by rw [hkey, hv])).2
    rwa [respond_read _ hreq hflag, hkey, word_two_requestFrame] at hreply
  cases hval : value L.toBoundedMap keySet (mapsAfter L frames) k with
  | some w => rw [hv, ← hread 0, hval, Option.getD_some]
  | none =>
    have h₀ := hread 0
    have h₁ := hread 1
    rw [hval, Option.getD_none] at h₀ h₁
    rw [← h₀] at h₁
    cases h₁

theorem keepsWrites_of_card {L : LruHash} {frames : List Frame}
    (h : ∀ i, (share keySet (writtenKeys (requests frames)) i).card ≤ setsBlocks) :
    KeepsWrites L frames := by
  rintro history ⟨rest, rfl⟩ f hf hflag v hv
  have hfaith : Faithful keySet (requests history) (mapsAfter L history) := by
    refine faithful_mapsAfter fun i => le_trans (Finset.card_le_card ?_) (h i)
    rw [requests_append]
    exact Finset.filter_subset_filter _ (writtenKeys_mono (List.subset_append_left _ _))
  refine ⟨(respond_of_request history hf).1, ?_⟩
  rw [respond_read history hf hflag, hfaith.value_eq, hv, Option.getD_some]

/-- If no residue class has more than `SETS_BLOCKS` keys, then every read of a written key
returns its latest value exactly when the written keys of the classes 0 and 1 together
fit one map. -/
theorem keepsWrites_iff (L : LruHash) (frames : List Frame) (hfit : ClassesFit frames) :
    KeepsWrites L frames ↔
      ((writtenKeys (requests frames)).filter (residue · ≤ 1)).card ≤ setsBlocks := by
  have hshare : (writtenKeys (requests frames)).filter (residue · ≤ 1) =
      share keySet (writtenKeys (requests frames)) .rxblk1 := by
    simp only [share, keySet_eq_rxblk1_iff]
  rw [hshare]
  constructor
  · intro h
    have hlossless := h.lossless
    rw [mapsAfter_eq] at hlossless
    exact (lossless_iff L.roomy _).mp hlossless .rxblk1
  · intro h
    refine keepsWrites_of_card fun i => ?_
    rcases eq_or_ne i .rxblk1 with hi | hi
    · rwa [hi]
    · rcases (share keySet (writtenKeys (requests frames)) i).eq_empty_or_nonempty with
        hempty | ⟨k, hk⟩
      · rw [hempty]
        exact Nat.zero_le _
      · refine le_trans (Finset.card_le_card fun k' hk' => ?_) (hfit _ (residue_lt k))
        obtain ⟨-, hs⟩ := mem_share.mp hk
        obtain ⟨hw', hs'⟩ := mem_share.mp hk'
        exact mem_share.mpr ⟨writtenKeys_subset_touchedKeys _ hw',
          residue_eq_of_keySet_ne (hs'.trans hs.symm) (by rw [hs']; exact hi)⟩

def writesAndRead : List Frame := [requestFrame 1 7 42, requestFrame 1 4 5, requestFrame 0 7 0]

theorem keepsWrites_iff_read_back : ClassesFit writesAndRead ∧ KeepsWrites kernelLru writesAndRead ∧
    (respond kernelLru [requestFrame 1 7 42, requestFrame 1 4 5] (requestFrame 0 7 0)).2.frame.word
      2 = 42 := by
  have hcard : ∀ keys ⊆ touchedKeys (requests writesAndRead), keys.card ≤ setsBlocks := by
    intro keys hkeys
    refine (Finset.card_le_card hkeys).trans ((card_touchedKeys_le _).trans ?_)
    exact (List.length_map request).le.trans ((List.length_filter_le _ _).trans (by decide))
  have hfit : ClassesFit writesAndRead := fun c _ => hcard _ (Finset.filter_subset _ _)
  have hkeeps := (keepsWrites_iff kernelLru _ hfit).mpr
    (hcard _ ((Finset.filter_subset _ _).trans (writtenKeys_subset_touchedKeys _)))
  refine ⟨hfit, hkeeps, (hkeeps [requestFrame 1 7 42, requestFrame 1 4 5]
    ⟨[requestFrame 0 7 0], rfl⟩ _ (isRequest_requestFrame 0 7 0) (by simp) 42 ?_).2⟩
  rw [requests_cons_of_request (isRequest_requestFrame 1 7 42),
    requests_cons_of_request (isRequest_requestFrame 1 4 5), requests_nil,
    request_of_write (by simp), request_of_write (by simp)]
  simp [lastWrite, Op.effect]

def crowdedKey (i : ℕ) : BitVec 32 := BitVec.ofNat 32 (4 * (i / 2) + i % 2)

def crowdedWrites : List Frame := writeFrames crowdedKey 7 501

theorem toNat_crowdedKey {i : ℕ} (hi : i < 501) : (crowdedKey i).toNat = 4 * (i / 2) + i % 2 := by
  unfold crowdedKey
  rw [BitVec.toNat_ofNat]
  exact Nat.mod_eq_of_lt (by omega)

theorem requests_crowdedWrites : requests crowdedWrites = crowdedWrites.map request := by
  unfold requests crowdedWrites
  rw [filter_writeFrames]
  exact fun flag key val => decide_eq_true (isRequest_requestFrame flag key val)

theorem classesFit_crowdedWrites : ClassesFit crowdedWrites := by
  intro c _
  refine (Finset.card_le_card (t := (Finset.range 251).image fun j => BitVec.ofNat 32 (4 * j + c))
    fun k hk => ?_).trans (Finset.card_image_le.trans (by simp))
  obtain ⟨hk, hc⟩ := mem_share.mp hk
  rw [requests_crowdedWrites, crowdedWrites, map_request_writeFrames, touchedKeys, List.map_map,
    List.mem_toFinset] at hk
  obtain ⟨i, hi, rfl⟩ := List.mem_map.mp hk
  have hi' := List.mem_range.mp hi
  have hc' : (crowdedKey i).toNat % 4 = c := hc
  rw [toNat_crowdedKey hi'] at hc'
  refine Finset.mem_image.mpr ⟨i / 2, Finset.mem_range.mpr (by omega), ?_⟩
  have : c = i % 2 := by omega
  rw [this]
  rfl

theorem card_writtenKeys_crowdedWrites :
    (share keySet (writtenKeys (requests crowdedWrites)) .rxblk1).card = 501 := by
  have hall : share keySet (writtenKeys (requests crowdedWrites)) .rxblk1 =
      writtenKeys (requests crowdedWrites) := by
    refine Finset.filter_true_of_mem fun k hk => ?_
    rw [requests_crowdedWrites, crowdedWrites, writtenKeys_writeFrames, List.mem_toFinset] at hk
    obtain ⟨i, hi, rfl⟩ := List.mem_map.mp hk
    rw [keySet_eq_rxblk1_iff, residue, toNat_crowdedKey (List.mem_range.mp hi), setsNr]
    omega
  rw [hall, requests_crowdedWrites, crowdedWrites, card_writtenKeys_writeFrames]
  intro i hi j hj hij
  have h := congrArg BitVec.toNat hij
  rw [toNat_crowdedKey hi, toNat_crowdedKey hj] at h
  omega

/-- The classes 0 and 1 share one map, so 501 keys of theirs do not fit. -/
theorem not_keepsWrites_crowdedWrites : keySet 0 = keySet 1 ∧ ClassesFit crowdedWrites ∧
    ¬ KeepsWrites kernelLru crowdedWrites := by
  refine ⟨by decide, classesFit_crowdedWrites, fun h => ?_⟩
  have hcard := card_share_le (S := mapsAfter kernelLru crowdedWrites)
    (fun k hk => by rw [h.lossless k hk]; exact lastWrite_isSome.mpr hk) .rxblk1
  rw [card_writtenKeys_crowdedWrites] at hcard
  exact absurd hcard (by decide)

end PacketBench.Xdp

import PacketBench.Lists.Tally
import PacketBench.Maps.Bounded
import PacketBench.Xdp.Stamping

/-! # The XDP programs that count their packets

`aggregate`, `reduce`, `histogram`, `filter`, `copy_to_host` and
`copy_from_host` work on the payload of a frame, count the frame and send it
back when the count is a multiple of `MiB / TOT_SIZE_B`. The timed variants
stamp all other frames; they differ in the clocks and in whether they refresh
the checksum after the stores. The programs take `TOT_SIZE_B` as a parameter.
-/

namespace PacketBench.Xdp

open Bytes PktM BoundedMaps

variable {σ : Type}

/-- `rxpkt` beside the maps of a program. -/
structure Counted (σ : Type) where
  rxpkt : BitVec 32
  data : σ

def getData : PktM (Counted σ) σ := return (← getStore).data

def putData (d : σ) : PktM (Counted σ) Unit := do
  putStore { ← getStore with data := d }

/-- `*nr_pkt % (MiB / TOT_SIZE_B) == 0`. -/
def Completes (tot : ℕ) (nrPkt : BitVec 32) : Prop := nrPkt.toInt.tmod (miB / tot : ℕ) = 0

instance (tot : ℕ) : DecidablePred (Completes tot) := fun nrPkt =>
  inferInstanceAs (Decidable (nrPkt.toInt.tmod (miB / tot : ℕ) = 0))

def wrongTotSize (tot : ℕ) (size : BitVec 32) : Bool := size ≠ BitVec.ofNat 32 tot

/-- The common frame of the programs: `work` handles the payload and tells whether the frame
counts, `notify` finishes a frame that is sent back and `rest` any other one. -/
def countPackets (tot : ℕ) (work : ℕ → ℕ → BitVec 32 → PktM (Counted σ) Bool)
    (notify : ℕ → ℕ → PktM (Counted σ) Unit)
    (rest : ℕ → ℕ → ℕ → PktM (Counted σ) Verdict) : PktM (Counted σ) Verdict :=
  withUdp fun eth ip udp => withPayload (wrongTotSize tot) udp fun payload size => do
    if ← work ip payload size then
      let s ← getStore
      putStore { s with rxpkt := s.rxpkt + 1 }
      let nrPkt := (← getStore).rxpkt
      if Completes tot nrPkt then
        swapInfos eth ip udp
        notify ip udp
        return .tx
      rest ip udp payload
    else
      return .pass

def asIs (_ip _udp : ℕ) : PktM σ Unit := return ()

def leave (v : Verdict) (_ip _udp _payload : ℕ) : PktM σ Verdict := return v

def stampAndPass (first second : BitVec 64) (_ip _udp payload : ℕ) : PktM σ Verdict :=
  stamp payload first second (return .pass)

def stampAndRefresh (first second : BitVec 64) (ip udp payload : ℕ) : PktM σ Verdict :=
  stamp payload first second do
    refreshCheck ip udp
    return .pass

/-- An array map of the kernel with 32-bit values. -/
abbrev ArrayMap := ℕ → BitVec 32

def aggregateWork (_ip payload : ℕ) (size : BitVec 32) : PktM (Counted (BitVec 32)) Bool := do
  let res ← sumWords payload (size.toNat / dataSizeB)
  putData ((← getData) + res)
  return true

/-- `rxred` has `DATA_NR` entries. -/
def reduceWork (tot _ip payload : ℕ) (size : BitVec 32) : PktM (Counted ArrayMap) Bool := do
  forWords (fun i => do
    if i < tot / dataSizeB then
      let word ← loadWord payload i
      let rxred ← getData
      putData (Function.update rxred i (rxred i + word))) (size.toNat / dataSizeB)
  return true

@[simp] def histogNr : ℕ := 1024

/-- Count the words from index `i` on, as long as they are in range; `rxhist` has `HISTOG_NR`
entries, so the key `HISTOG_NR` is in range but finds no entry. -/
def countKeys (payload i : ℕ) : ℕ → PktM (Counted ArrayMap) Bool
  | 0 => return true
  | n + 1 => do
    let key ← loadWord payload i
    if key.toInt > histogNr ∨ key.toInt < 0 then
      return false
    if key.toNat < histogNr then
      let rxhist ← getData
      putData (Function.update rxhist key.toNat (rxhist key.toNat + 1))
    countKeys payload (i + 1) n

def histogramWork (_ip payload : ℕ) (size : BitVec 32) : PktM (Counted ArrayMap) Bool :=
  countKeys payload 0 (size.toNat / dataSizeB)

@[simp] def hashEntries : ℕ := 65536

/-- The hash map `hmfilter`, from addresses to ports. -/
abbrev FilterHash := FillingMap (BitVec 32) (BitVec 16) hashEntries

structure FilterMaps (H : FilterHash) where
  rxfilter : ArrayMap
  hmfilter : H.State

/-- The key of the lookup: `ntohs` takes the low half of the address. On a match each word, cut to
the 16 bits of a value, goes to `hmfilter` under its index, because the update names that map. -/
def filterWork (H : FilterHash) (tot ip payload : ℕ) (size : BitVec 32) :
    PktM (Counted (FilterMaps H)) Bool := do
  let daddr ← load (ipDaddr ip) 32
  let key := (ntohs (daddr.setWidth 16)).setWidth 32
  if (H.get (← getData).hmfilter key).isSome then
    forWords (fun i => do
      if i < tot then
        let val ← load (payload + dataSizeB * i) 16
        let maps ← getData
        putData { maps with hmfilter := H.put maps.hmfilter (BitVec.ofNat 32 i) val })
      (size.toNat / dataSizeB)
  return true

/-- `rxcptoh` has `DATA_NR` entries. -/
def copyToHostWork (tot _ip payload : ℕ) (size : BitVec 32) : PktM (Counted ArrayMap) Bool := do
  forWords (fun i => do
    let word ← loadWord payload i
    if i < tot / dataSizeB then
      putData (Function.update (← getData) i word)) (size.toNat / dataSizeB)
  return true

def copyFromHostWork (tot _ip payload : ℕ) (size : BitVec 32) : PktM (Counted ArrayMap) Bool := do
  forWords (fun i => do
    if i < tot / dataSizeB then
      store (payload + dataSizeB * i) 32 ((← getData) i)) (size.toNat / dataSizeB)
  return true

section Programs

variable (tot : ℕ) (arrival processed : Instant) (H : FilterHash)

def aggregate : PktM (Counted (BitVec 32)) Verdict :=
  countPackets tot aggregateWork asIs
    (stampAndRefresh arrival.ktimeBootNs processed.ktimeBootNs)

def aggregateNoT : PktM (Counted (BitVec 32)) Verdict :=
  countPackets tot aggregateWork asIs (leave .drop)

def reduce : PktM (Counted ArrayMap) Verdict :=
  countPackets tot (reduceWork tot) asIs (stampAndPass arrival.ktimeNs processed.ktimeNs)

def reduceNoT : PktM (Counted ArrayMap) Verdict :=
  countPackets tot (reduceWork tot) asIs (leave .pass)

def histogram : PktM (Counted ArrayMap) Verdict :=
  countPackets tot histogramWork asIs (stampAndRefresh arrival.ktimeNs processed.ktimeBootNs)

def histogramNoT : PktM (Counted ArrayMap) Verdict :=
  countPackets tot histogramWork asIs (leave .pass)

def filter : PktM (Counted (FilterMaps H)) Verdict :=
  countPackets tot (filterWork H tot) asIs (stampAndPass arrival.ktimeNs processed.ktimeBootNs)

def filterNoT : PktM (Counted (FilterMaps H)) Verdict :=
  countPackets tot (filterWork H tot) asIs (leave .pass)

def copyToHost : PktM (Counted ArrayMap) Verdict :=
  countPackets tot (copyToHostWork tot) asIs (stampAndRefresh arrival.ktimeNs processed.ktimeNs)

def copyToHostNoT : PktM (Counted ArrayMap) Verdict :=
  countPackets tot (copyToHostWork tot) asIs (leave .pass)

def copyFromHost : PktM (Counted ArrayMap) Verdict :=
  countPackets tot (copyFromHostWork tot) refreshCheck
    (stampAndRefresh arrival.ktimeNs processed.ktimeNs)

def copyFromHostNoT : PktM (Counted ArrayMap) Verdict :=
  countPackets tot (copyFromHostWork tot) refreshCheck (leave .pass)

end Programs

section Rules

variable {tot : ℕ} {work : ℕ → ℕ → BitVec 32 → PktM (Counted σ) Bool}
  {notify : ℕ → ℕ → PktM (Counted σ) Unit} {rest : ℕ → ℕ → ℕ → PktM (Counted σ) Verdict}
  {f : Frame} {s t : Counted σ} {m m' : Mem} {d : σ} {v : Verdict}

theorem wrongTotSize_eq (s : BitVec 32) :
    wrongTotSize tot s = decide (s ≠ BitVec.ofNat 32 tot) := rfl

theorem yields_getData : (getData : PktM (Counted σ) σ).Yields f s s.data f.mem s :=
  yields_getStore.bind (yields_pure _)

theorem yields_putData (d : σ) : (putData d).Yields f s () f.mem { s with data := d } :=
  yields_getStore.bind (yields_putStore _)

theorem yields_countPackets_of_not (htot : tot < 2 ^ 31) (h : ¬ Takes tot f) :
    (countPackets tot work notify rest).Yields f s .pass f.mem s := by
  by_cases hudp : IsUdp f
  · exact yields_withUdp hudp (yields_withPayload_of_not htot wrongTotSize_eq hudp h)
  · exact yields_withUdp_of_not hudp

theorem yields_countPackets (htot : tot < 2 ^ 31) (h : Takes tot f)
    (hbody : (do
      if ← work 14 42 (BitVec.ofNat 32 tot) then
        let s ← getStore
        putStore { s with rxpkt := s.rxpkt + 1 }
        let nrPkt := (← getStore).rxpkt
        if Completes tot nrPkt then
          swapInfos 0 14 34
          notify 14 34
          return .tx
        rest 14 34 42
      else
        return .pass : PktM (Counted σ) Verdict).Yields f s v m t) :
    (countPackets tot work notify rest).Yields f s v m t :=
  yields_withUdp h.1 (yields_withPayload htot wrongTotSize_eq h hbody)

theorem yields_countPackets_of_false (htot : tot < 2 ^ 31) (h : Takes tot f)
    (hwork : (work 14 42 (BitVec.ofNat 32 tot)).Yields f s false m t) :
    (countPackets tot work notify rest).Yields f s .pass m t :=
  yields_countPackets htot h (hwork.bind (yields_pure _))

theorem yields_countPackets_notify (htot : tot < 2 ^ 31) (h : Takes tot f)
    (hwork : (work 14 42 (BitVec.ofNat 32 tot)).Yields f s true m { s with data := d })
    (hdone : Completes tot (s.rxpkt + 1))
    (hnotify : (notify 14 34).Yields ⟨f.len, swapHeaders m⟩ ⟨s.rxpkt + 1, d⟩ () m'
      ⟨s.rxpkt + 1, d⟩) :
    (countPackets tot work notify rest).Yields f s .tx m' ⟨s.rxpkt + 1, d⟩ := by
  refine yields_countPackets htot h (hwork.bind (yields_getStore.bind
    ((yields_putStore _).bind (yields_getStore.bind ?_))))
  rw [if_pos hdone]
  exact Yields.bind (yields_swapInfos h.1.1) (hnotify.bind (yields_pure _))

theorem yields_countPackets_rest (htot : tot < 2 ^ 31) (h : Takes tot f)
    (hwork : (work 14 42 (BitVec.ofNat 32 tot)).Yields f s true m { s with data := d })
    (hdone : ¬ Completes tot (s.rxpkt + 1))
    (hrest : (rest 14 34 42).Yields ⟨f.len, m⟩ ⟨s.rxpkt + 1, d⟩ v m' ⟨s.rxpkt + 1, d⟩) :
    (countPackets tot work notify rest).Yields f s v m' ⟨s.rxpkt + 1, d⟩ := by
  refine yields_countPackets htot h (hwork.bind (yields_getStore.bind
    ((yields_putStore _).bind (yields_getStore.bind ?_))))
  rw [if_neg hdone]
  exact hrest

end Rules

section Work

variable {tot : ℕ} {f : Frame}

theorem toNat_tot_div (htot : tot < 2 ^ 31) :
    (BitVec.ofNat 32 tot).toNat / dataSizeB = tot / dataSizeB := by
  rw [BitVec.toNat_ofNat, Nat.mod_eq_of_lt (by omega)]

theorem yields_aggregateWork (htot : tot < 2 ^ 31) (h : Takes tot f)
    (s : Counted (BitVec 32)) : (aggregateWork 14 42 (BitVec.ofNat 32 tot)).Yields f s true f.mem
      { s with data := s.data + f.wordsSum (tot / dataSizeB) } := by
  unfold aggregateWork
  rw [toNat_tot_div htot]
  exact (yields_sumWords h.2.2).bind (yields_getData.bind
    ((yields_putData _).bind (yields_pure _)))

theorem yields_walk {body : ℕ → PktM (Counted σ) Unit} {g : σ → ℕ → σ} {n : ℕ} (s : Counted σ)
    (h : ∀ i < n, ∀ d, (body i).Yields f { s with data := d } () f.mem
      { s with data := g d i }) :
    (forWords body n).Yields f s () f.mem { s with data := (List.range n).foldl g s.data } := by
  have hturn : ∀ i < n, (body i).Yields f { s with data := (List.range i).foldl g s.data } ()
      f.mem { s with data := (List.range (i + 1)).foldl g s.data } := by
    intro i hi
    rw [List.range_succ, List.foldl_append]
    exact h i hi _
  exact yields_forWords (fun _ => f.mem)
    (fun i => { s with data := (List.range i).foldl g s.data }) rfl rfl hturn

theorem Takes.room {i : ℕ} (h : Takes tot f) (hi : i < tot / dataSizeB) :
    42 + 4 * (i + 1) ≤ f.len := by
  have hlen := h.2.2
  simp only [dataSizeB] at hlen hi
  omega

theorem yields_reduceWork (htot : tot < 2 ^ 31) (h : Takes tot f) (s : Counted ArrayMap) :
    (reduceWork tot 14 42 (BitVec.ofNat 32 tot)).Yields f s true f.mem
      { s with data := f.combine (· + ·) s.data (tot / dataSizeB) } := by
  unfold reduceWork
  rw [toNat_tot_div htot, ← Frame.foldl_update]
  refine Yields.bind (yields_walk s fun i hi d => ?_) (yields_pure _)
  rw [if_pos hi]
  exact (yields_loadWord (h.room hi)).bind (yields_getData.bind (yields_putData _))

theorem yields_copyToHostWork (htot : tot < 2 ^ 31) (h : Takes tot f) (s : Counted ArrayMap) :
    (copyToHostWork tot 14 42 (BitVec.ofNat 32 tot)).Yields f s true f.mem
      { s with data := f.combine (fun _ w => w) s.data (tot / dataSizeB) } := by
  unfold copyToHostWork
  rw [toNat_tot_div htot, ← Frame.foldl_update]
  refine Yields.bind (yields_walk s fun i hi d => ?_) (yields_pure _)
  refine (yields_loadWord (h.room hi)).bind ?_
  rw [if_pos hi]
  exact yields_getData.bind (yields_putData _)

def hostWritten (a : ArrayMap) (m : Mem) : ℕ → Mem
  | 0 => m
  | n + 1 => (hostWritten a m n).store (42 + dataSizeB * n) 32 (a n)

theorem hostWritten_apply_of_lt (a : ArrayMap) (m : Mem) (n : ℕ) {i : ℕ} (hi : i < 42) :
    hostWritten a m n i = m i := by
  induction n with
  | zero => rfl
  | succ n ih => rw [hostWritten, Mem.store_apply_of_outside _ (by omega), ih]

theorem yields_copyFromHostWork (htot : tot < 2 ^ 31) (h : Takes tot f) (s : Counted ArrayMap) :
    (copyFromHostWork tot 14 42 (BitVec.ofNat 32 tot)).Yields f s true
      (hostWritten s.data f.mem (tot / dataSizeB)) s := by
  unfold copyFromHostWork
  rw [toNat_tot_div htot]
  have hwalk : ∀ i < tot / dataSizeB, (do
      if i < tot / dataSizeB then
        store (42 + dataSizeB * i) 32 ((← getData) i) : PktM (Counted ArrayMap) Unit).Yields
          ⟨f.len, hostWritten s.data f.mem i⟩ s () (hostWritten s.data f.mem (i + 1)) s := by
    intro i hi
    rw [if_pos hi]
    exact yields_getData.bind (yields_store _ (h.room hi))
  exact Yields.bind (yields_forWords (hostWritten s.data f.mem) (fun _ => s) rfl rfl hwalk)
    (yields_pure _)

def Admits (word : BitVec 32) : Prop := ¬ (word.toInt > histogNr ∨ word.toInt < 0)

instance : DecidablePred Admits := fun word =>
  inferInstanceAs (Decidable (¬ (word.toInt > histogNr ∨ word.toInt < 0)))

/-- The keys that `histogram` reaches: those of the words before the first one out of range. -/
def admittedKeys (words : List (BitVec 32)) : List ℕ :=
  (words.takeWhile (Admits ·)).map BitVec.toNat

theorem admittedKeys_cons {word : BitVec 32} (h : Admits word) (words : List (BitVec 32)) :
    admittedKeys (word :: words) = word.toNat :: admittedKeys words := by
  unfold admittedKeys
  rw [List.takeWhile_cons, if_pos (decide_eq_true h), List.map_cons]

theorem admittedKeys_cons_of_not {word : BitVec 32} (h : ¬ Admits word)
    (words : List (BitVec 32)) : admittedKeys (word :: words) = [] := by
  unfold admittedKeys
  rw [List.takeWhile_cons, if_neg (by simpa using h), List.map_nil]

def countAdmitted (rxhist : ArrayMap) (words : List (BitVec 32)) : ArrayMap :=
  Lists.tally histogNr rxhist (admittedKeys words)

theorem yields_countKeys {n : ℕ} (i : ℕ) (h : 42 + 4 * (i + n) ≤ f.len) (s : Counted ArrayMap) :
    (countKeys 42 i n).Yields f s (((List.range' i n).map f.word).all (Admits ·)) f.mem
      { s with data := countAdmitted s.data ((List.range' i n).map f.word) } := by
  induction n generalizing i s with
  | zero => exact yields_pure _
  | succ n ih =>
    have hload : (loadWord 42 i : PktM (Counted ArrayMap) _).Yields f s (f.word i) f.mem s :=
      yields_loadWord (by omega)
    rw [List.range'_succ, List.map_cons, countAdmitted]
    by_cases hkey : Admits (f.word i)
    · rw [List.all_cons, decide_eq_true hkey, Bool.true_and, admittedKeys_cons hkey]
      refine hload.bind ?_
      rw [if_neg hkey]
      by_cases hbin : (f.word i).toNat < histogNr
      · have hcount : ∀ t, (putData t).Yields f s () f.mem { s with data := t } := yields_putData
        rw [if_pos hbin, Lists.tally_cons_of_lt _ hbin]
        exact yields_getData.bind ((hcount _).bind (ih (i + 1) (by omega) ⟨s.rxpkt,
          Function.update s.data (f.word i).toNat (s.data (f.word i).toNat + 1)⟩))
      · rw [if_neg hbin, Lists.tally_cons_of_le _ (Nat.le_of_not_lt hbin)]
        exact ih (i + 1) (by omega) s
    · rw [List.all_cons, decide_eq_false hkey, Bool.false_and, admittedKeys_cons_of_not hkey]
      refine hload.bind ?_
      rw [if_pos (not_not.mp hkey)]
      exact yields_pure false

def payloadWords (tot : ℕ) (f : Frame) : List (BitVec 32) :=
  (List.range (tot / dataSizeB)).map f.word

theorem yields_histogramWork (htot : tot < 2 ^ 31) (h : Takes tot f) (s : Counted ArrayMap) :
    (histogramWork 14 42 (BitVec.ofNat 32 tot)).Yields f s ((payloadWords tot f).all (Admits ·))
      f.mem { s with data := countAdmitted s.data (payloadWords tot f) } := by
  unfold histogramWork payloadWords
  rw [toNat_tot_div htot, List.range_eq_range']
  exact yields_countKeys 0 (by simpa using h.2.2) s

theorem yields_histogramWork_of_admits (htot : tot < 2 ^ 31) (h : Takes tot f)
    (hw : ∀ w ∈ payloadWords tot f, Admits w) (s : Counted ArrayMap) :
    (histogramWork 14 42 (BitVec.ofNat 32 tot)).Yields f s true f.mem
      { s with data := countAdmitted s.data (payloadWords tot f) } := by
  have hwork := yields_histogramWork htot h s
  rwa [List.all_eq_true.mpr fun w hmem => decide_eq_true (hw w hmem)] at hwork

theorem yields_histogramWork_of_not (htot : tot < 2 ^ 31) (h : Takes tot f)
    (hw : ¬ ∀ w ∈ payloadWords tot f, Admits w) (s : Counted ArrayMap) :
    (histogramWork 14 42 (BitVec.ofNat 32 tot)).Yields f s false f.mem
      { s with data := countAdmitted s.data (payloadWords tot f) } := by
  have hwork := yields_histogramWork htot h s
  have hbad : (payloadWords tot f).all (Admits ·) = false := by simpa using hw
  rwa [hbad] at hwork

def FilterMaps.copied {H : FilterHash} (maps : FilterMaps H) (f : Frame) (n : ℕ) : FilterMaps H :=
  (List.range n).foldl (fun maps i => { maps with
    hmfilter := H.put maps.hmfilter (BitVec.ofNat 32 i) (f.mem.load (42 + dataSizeB * i) 16) }) maps

def Matches (H : FilterHash) (maps : FilterMaps H) (f : Frame) : Prop :=
  (H.get maps.hmfilter ((ntohs ((f.mem.load (ipDaddr 14) 32).setWidth 16)).setWidth 32)).isSome

instance (H : FilterHash) (maps : FilterMaps H) : DecidablePred (Matches H maps) := fun f =>
  inferInstanceAs (Decidable (H.get maps.hmfilter
    ((ntohs ((f.mem.load (ipDaddr 14) 32).setWidth 16)).setWidth 32)).isSome)

theorem yields_filterWork {H : FilterHash} (htot : tot < 2 ^ 31) (h : Takes tot f)
    (s : Counted (FilterMaps H)) : (filterWork H tot 14 42 (BitVec.ofNat 32 tot)).Yields f s true
      f.mem { s with data := if Matches H s.data f then s.data.copied f (tot / dataSizeB)
        else s.data } := by
  have hdaddr : ipDaddr 14 + 32 / 8 ≤ f.len := (by decide : ipDaddr 14 + 32 / 8 ≤ 42).trans h.1.1
  have hkey {v : Bool} {t : Counted (FilterMaps H)}
      {k : BitVec 32 → FilterMaps H → PktM (Counted (FilterMaps H)) Bool}
      (hk : (k (f.mem.load (ipDaddr 14) 32) s.data).Yields f s v f.mem t) :
      (do k (← load (ipDaddr 14) 32) (← getData)).Yields f s v f.mem t :=
    (yields_load hdaddr).bind (yields_getData.bind hk)
  unfold filterWork
  refine hkey ?_
  by_cases hmatch : Matches H s.data f
  · have hfound := hmatch
    unfold Matches at hfound
    rw [if_pos hmatch, if_pos hfound, toNat_tot_div htot]
    refine Yields.bind (yields_walk s fun i hi d => ?_) (yields_pure true)
    have hroom := h.room hi
    have hword : 42 + dataSizeB * i + 16 / 8 ≤ f.len := by
      simp only [dataSizeB]
      omega
    rw [if_pos (hi.trans_le (Nat.div_le_self _ _))]
    exact (yields_load hword).bind (yields_getData.bind (yields_putData _))
  · have hfound := hmatch
    unfold Matches at hfound
    rw [if_neg hmatch, if_neg hfound]
    exact yields_pure true

end Work

end PacketBench.Xdp

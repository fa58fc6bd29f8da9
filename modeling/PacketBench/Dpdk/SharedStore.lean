import PacketBench.Concurrency.Commits
import PacketBench.Dpdk.FullTable

/-! # The DPDK key-value store on several lcores

The lcores share one hash table, whose operations are taken to be atomic, and an
lcore makes at most one of them for a frame; all the rest it does on the frame
alone. So every reply is the one of a single lcore that handles the frames in the
order of these operations.
-/

namespace PacketBench.Dpdk

open Bytes PktM BoundedMaps Commits Lists

section Programs

variable (H : RteHash) (rteIpv4UdptcpCksum : Cksum)

/-- The operation on the table for a frame, with the data it finds. -/
def hashAccess (cache : Cache H) (f : Frame) : Option (BitVec 64) × Cache H :=
  if Accepted f then
    let key := f.word 1
    let set := buck key
    if f.word 0 ≠ 0 then
      (none, Function.update cache set (H.put (cache set) key ((f.word 2).signExtend 64)))
    else (H.get (cache set) key, Function.update cache set (H.lookup (cache set) key))
  else (none, cache)

def hashReply (f : Frame) (data : Option (BitVec 64)) : Frame :=
  if Accepted f then
    let m := if f.word 0 ≠ 0 then f.mem else f.mem.store 50 32 ((data.getD 0).setWidth 32)
    ⟨f.len, sendBack rteIpv4UdptcpCksum f.len m⟩
  else f

/-- That a table operation is one step is assumed of `rte_hash`: the table is created for readers
beside a writer only, and the source marks the insertion as not thread safe. -/
def hashService : Service (Cache H) Frame (Option (BitVec 64)) Frame :=
  ⟨hashAccess H, hashReply rteIpv4UdptcpCksum⟩

variable {H}

/-- An lcore that is not interrupted does what the program does. -/
theorem respond_eq (cache : Cache H) (f : Frame) :
    (respond H rteIpv4UdptcpCksum cache f).2.frame =
      hashReply rteIpv4UdptcpCksum f (hashAccess H cache f).1 ∧
    (respond H rteIpv4UdptcpCksum cache f).2.store = (hashAccess H cache f).2 := by
  unfold hashAccess hashReply
  by_cases hf : Accepted f
  · have hframe : (respond H rteIpv4UdptcpCksum cache f).2.frame =
        ⟨f.len, sendBack rteIpv4UdptcpCksum f.len (answer H cache f)⟩ := by
      unfold respond
      rw [exec_kvstore_of_accepted rteIpv4UdptcpCksum (r := Run.start f cache) hf]
      rfl
    rw [hframe, (respond_of_accepted cache hf).2.2, if_pos hf, if_pos hf, serveCache,
      pointerRequest]
    rcases eq_or_ne (f.word 0) 0 with hflag | hflag
    · rw [answer_of_read hflag, request_of_read hflag, if_neg (not_not.mpr hflag),
        if_neg (not_not.mpr hflag)]
      exact ⟨rfl, rfl⟩
    · rw [answer_of_write hflag, request_of_write hflag, if_pos hflag, if_pos hflag]
      exact ⟨rfl, rfl⟩
  · rw [(respond_of_not cache hf).2.1, (respond_of_not cache hf).2.2, if_neg hf, if_neg hf]
    exact ⟨rfl, rfl⟩

theorem serialState_hashService (frames : List Frame) :
    serialState (hashService H rteIpv4UdptcpCksum) (fun _ => H.empty) frames =
      cacheAfter H rteIpv4UdptcpCksum frames := by
  unfold serialState cacheAfter storeAfter
  congr 1
  funext cache f
  exact (respond_eq rteIpv4UdptcpCksum cache f).2.symm

end Programs

section Lcores

variable {ι : Type} [DecidableEq ι] (H : RteHash) (rteIpv4UdptcpCksum : Cksum)

/-- The lcores after some steps, each of them with its own frames and a common table that was
empty at first. -/
def lcores (frames : ι → List Frame) (schedule : List ι) :
    System ι (Cache H) Frame (Option (BitVec 64)) Frame :=
  (System.start (fun _ => H.empty) frames).run (hashService H rteIpv4UdptcpCksum) schedule

/-- The replies of a run are serial: the `n`-th one of an lcore answers its `n`-th frame, and as
the store would that has handled before it just the frames committed earlier, among them the
earlier frames of that lcore. -/
def Serial (frames : ι → List Frame)
    (s : System ι (Cache H) Frame (Option (BitVec 64)) Frame) : Prop :=
  ∀ i n g, (s.out i)[n]? = some g → ∃ f before after,
    (frames i)[n]? = some f ∧ s.commits = before ++ (i, f) :: after ∧
    ofThread i before = (frames i).take n ∧
    g = (respond H rteIpv4UdptcpCksum
      (cacheAfter H rteIpv4UdptcpCksum (before.map Prod.snd)) f).2.frame

variable {H rteIpv4UdptcpCksum}

theorem serial_lcores (frames : ι → List Frame) (schedule : List ι) :
    Serial H rteIpv4UdptcpCksum frames (lcores H rteIpv4UdptcpCksum frames schedule) := by
  intro i n g hg
  obtain ⟨f, before, after, hf, hcommits, hthread, rfl⟩ :=
    (linear_start.run schedule).exists_commit hg
  refine ⟨f, before, after, hf, hcommits, hthread, ?_⟩
  rw [serialState_hashService, (respond_eq _ _ f).1]
  rfl

/-- However the lcores interleave, with atomic table operations their replies are those of a single
lcore that takes the frames in the order of these operations. That order keeps the frames of each
lcore in turn and puts nothing before an operation that has been done. -/
theorem lcores_linearizable (H : RteHash) (rteIpv4UdptcpCksum : Cksum) (frames : ι → List Frame)
    (schedule schedule' : List ι) :
    let s := lcores H rteIpv4UdptcpCksum frames schedule
    Serial H rteIpv4UdptcpCksum frames s ∧
    s.commits <+: (lcores H rteIpv4UdptcpCksum frames (schedule ++ schedule')).commits ∧
    (s.Finished → ∀ i, ofThread i s.commits = frames i ∧
      (s.out i).length = (frames i).length) := by
  refine ⟨serial_lcores frames schedule, ?_, fun hdone i => ?_⟩
  · unfold lcores System.run
    rw [List.foldl_append]
    exact prefix_commits_run _ schedule'
  · obtain ⟨hwork, hout⟩ := (linear_start.run schedule).of_finished hdone i
    refine ⟨hwork, ?_⟩
    rw [lcores, hout, length_ofThread_serialOut, hwork]

/-- A read returns the latest value among the writes committed before it, those of its own lcore
included, if the table took its key, and otherwise 0. -/
theorem lcores_read_latest (H : RteHash) (rteIpv4UdptcpCksum : Cksum) (frames : ι → List Frame)
    (schedule : List ι) (i : ι) (n : ℕ) (f g : Frame) (hf : (frames i)[n]? = some f)
    (hg : ((lcores H rteIpv4UdptcpCksum frames schedule).out i)[n]? = some g)
    (hacc : Accepted f) (hread : f.word 0 = 0) : ∃ before after,
      (lcores H rteIpv4UdptcpCksum frames schedule).commits = before ++ (i, f) :: after ∧
      ofThread i before = (frames i).take n ∧
      (WriteTaken H rteIpv4UdptcpCksum (before.map Prod.snd) (f.word 1) →
        lastWrite (requests (before.map Prod.snd)) (f.word 1) = some (g.word 2)) ∧
      (¬ WriteTaken H rteIpv4UdptcpCksum (before.map Prod.snd) (f.word 1) → g.word 2 = 0) := by
  obtain ⟨f', before, after, hf', hcommits, hthread, rfl⟩ := serial_lcores frames schedule i n g hg
  obtain rfl := Option.some.inj (hf.symm.trans hf')
  exact ⟨before, after, hcommits, hthread,
    respond_read_overflow H rteIpv4UdptcpCksum _ hacc hread⟩

def writerAndReader (i : Fin 2) : List Frame :=
  if i.val = 0 then [requestFrame 1 7 42] else [requestFrame 0 7 0]

theorem lcores_read_latest_writerAndReader : ∃ g,
    ((lcores plainHash rteCksum writerAndReader [0, 0, 0, 1, 1, 1]).out 1)[0]? = some g ∧
      g.word 2 = 42 := by
  have hcommits : (lcores plainHash rteCksum writerAndReader [0, 0, 0, 1, 1, 1]).commits =
      [(0, requestFrame 1 7 42), (1, requestFrame 0 7 0)] := rfl
  have hw := accepted_requestFrame 1 7 42
  obtain ⟨g, hg⟩ : ∃ g, ((lcores plainHash rteCksum writerAndReader
    [0, 0, 0, 1, 1, 1]).out 1)[0]? = some g := ⟨_, rfl⟩
  refine ⟨g, hg, ?_⟩
  obtain ⟨before, after, hsplit, -, hlatest, -⟩ := lcores_read_latest plainHash rteCksum
    writerAndReader [0, 0, 0, 1, 1, 1] 1 0 _ g rfl hg (accepted_requestFrame 0 7 0) (by simp)
  obtain rfl : before = [(0, requestFrame 1 7 42)] := by
    rw [hcommits] at hsplit
    rcases before with _ | ⟨x, _ | ⟨y, before⟩⟩
    · cases congrArg Prod.fst (List.cons.inj hsplit).1
    · rw [(List.cons.inj hsplit).1]
    · have hlen := congrArg List.length hsplit
      simp at hlen
  rw [word_one_requestFrame] at hlatest
  have hlast := hlatest (writeTaken_plainHash_first 1 7 42 (by decide) [])
  rw [List.map_singleton, requests_cons_of_accepted hw, request_of_write (by simp)] at hlast
  simpa [requests, lastWrite, Op.effect] using hlast.symm

end Lcores

end PacketBench.Dpdk

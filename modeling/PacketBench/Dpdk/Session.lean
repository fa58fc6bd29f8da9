import PacketBench.Clients.RoundTrips
import PacketBench.Dpdk.Echo
import PacketBench.Dpdk.FullTable

/-! # Sessions of a client with a DPDK program

A client that measures round trips has one chunk under way at a time. So the
lcore polls bursts of one frame, and the client gets the replies to its chunks
in order, whatever the network and the driver do. The client comes to its end
when all its frames are accepted; a chunk without a reply makes it wait for ever.
-/

namespace PacketBench.Dpdk

open PktM StopAndWait Clients BoundedMaps Relation

variable {σ : Type}

section Server

variable (process : PktM σ Bool)

def replyTo (s : σ) (f : Frame) : Frame := (process.exec (Run.start f s)).2.frame

theorem processAll_single (s : σ) (m : Mbuf) : processAll process s [m] =
    ([({ m with frame := replyTo process s m.frame }, (process.exec (Run.start m.frame s)).1)],
      (process.exec (Run.start m.frame s)).2.store) := rfl

theorem echoBurst_single (tx : TxBurst) (s : σ) {b : Burst} {m : Mbuf} (hb : b.bufs = [m]) :
    (echoBurst process tx s b).taken.map Mbuf.frame =
      (if (process.exec (Run.start m.frame s)).1 then
        [replyTo process s m.frame].take (tx.sent 1) else []) ∧
    (echoBurst process tx s b).store = (process.exec (Run.start m.frame s)).2.store := by
  unfold echoBurst
  rw [hb, processAll_single]
  cases (process.exec (Run.start m.frame s)).1 with
  | true => simp [List.map_take]
  | false => simp

theorem take_singleton {α : Type} (a : α) (n : ℕ) : [a].take n = [] ∨ [a].take n = [a] := by
  cases n with
  | zero => exact Or.inl rfl
  | succ n => exact Or.inr (by simp)

/-- An lcore with one of some drivers as a server: it replies with the mbufs that the driver takes
of a burst. -/
def echoServer (drivers : TxBurst → Prop) : Server σ Frame Frame where
  Turn s requests replies s' := ∃ tx b, drivers tx ∧ b.bufs.map Mbuf.frame = requests ∧
    replies = (echoBurst process tx s b).taken.map Mbuf.frame ∧
      s' = (echoBurst process tx s b).store
  answer := replyTo process
  next s f := (process.exec (Run.start f s)).2.store
  turn_single := by
    rintro s f replies s' ⟨tx, b, -, hrequests, rfl, rfl⟩
    obtain ⟨m, hm, rfl⟩ := List.map_eq_singleton_iff.mp hrequests
    obtain ⟨htaken, hstore⟩ := echoBurst_single process tx s hm
    refine ⟨hstore, ?_⟩
    rw [htaken]
    split_ifs
    · apply take_singleton
    · exact Or.inl rfl

end Server

def TakesOne (tx : TxBurst) : Prop := tx.sent 1 = 1

def burstOf (f : Frame) : Burst :=
  ⟨[⟨1, Nat.one_ne_zero, f⟩], List.nodup_singleton 1, (by decide : 1 ≤ burstSize)⟩

section Replies

variable {process : PktM σ Bool} {drivers : TxBurst → Prop} {f : Frame}

theorem ignores_of_not (h : Echoes process) (hf : ¬ Accepted f) :
    (echoServer process drivers).Ignores f := by
  rintro s replies s' ⟨tx, b, -, hrequests, rfl, rfl⟩
  obtain ⟨m, hm, rfl⟩ := List.map_eq_singleton_iff.mp hrequests
  rw [(echoBurst_single process tx s hm).1, if_neg]
  rwa [(h s m).counted_iff]

theorem answers_of_accepted (h : Echoes process) (hf : Accepted f) :
    (echoServer process TakesOne).Answers f := by
  have hsingle : ∀ (tx : TxBurst) s (b : Burst), TakesOne tx → b.bufs.map Mbuf.frame = [f] →
      (echoBurst process tx s b).taken.map Mbuf.frame = [replyTo process s f] ∧
      (echoBurst process tx s b).store = (process.exec (Run.start f s)).2.store := by
    intro tx s b htx hrequests
    obtain ⟨m, hm, rfl⟩ := List.map_eq_singleton_iff.mp hrequests
    obtain ⟨htaken, hstore⟩ := echoBurst_single process tx s hm
    rw [if_pos ((h s m).counted_iff.mpr hf), htx] at htaken
    exact ⟨htaken, hstore⟩
  intro s replies s'
  constructor
  · rintro ⟨tx, b, htx, hrequests, rfl, rfl⟩
    exact hsingle tx s b htx hrequests
  · rintro ⟨rfl, rfl⟩
    obtain ⟨htaken, hstore⟩ := hsingle allSent s (burstOf f) rfl rfl
    exact ⟨allSent, burstOf f, rfl, rfl, htaken.symm, hstore.symm⟩

end Replies

theorem inSession_of_echoes {process : PktM σ Bool} (h : Echoes process) {drivers : TxBurst → Prop}
    {s₀ : σ} {frames : List Frame} {start : ℕ} {s : System σ Frame Frame}
    (hrun : Reaches (echoServer process drivers) (System.start s₀ frames start) s) :
    InSession (echoServer process drivers) Accepted s₀ frames start s := by
  apply inSession (fun f => ignores_of_not h) _ hrun
  exact fun s f hf => (h s ⟨1, one_ne_zero, f⟩).swapped hf

/-- A session with two requests. -/
def writeAndRead : List Frame := [requestFrame 1 7 42, requestFrame 0 7 0]

theorem accepted_writeAndRead : ∀ f ∈ writeAndRead, Accepted f := by
  simp [writeAndRead, accepted_requestFrame]

theorem exists_finished_writeAndRead {process : PktM σ Bool} (h : Echoes process) (s₀ : σ) :
    ∃ s, Reaches (echoServer process TakesOne) (System.start s₀ writeAndRead 0) s ∧ s.Finished := by
  obtain ⟨s, hrun, hdone⟩ := exists_finished_of_answers
    (fun f hf => answers_of_accepted h (accepted_writeAndRead f hf)) 0
    (ReflTransGen.refl (r := Step (echoServer process TakesOne)))
  exact ⟨s, Reliable.reaches hrun, hdone⟩

section Programs

variable (H : RteHash) (rteIpv4UdptcpCksum : Cksum) (app : EchoApp)

/-- In every session, whatever the network loses or reorders and the driver takes, the program
polls the chunks one by one and the client gets their replies in order. -/
theorem inSession_echoServer (drivers : TxBurst → Prop) (s₀ : app.Store H) (frames : List Frame)
    (start : ℕ) (s : System (app.Store H) Frame Frame)
    (hrun : Reaches (echoServer (app.process H rteIpv4UdptcpCksum) drivers)
      (System.start s₀ frames start) s) :
    InSession (echoServer (app.process H rteIpv4UdptcpCksum) drivers) Accepted s₀ frames start s :=
  inSession_of_echoes (echoes_process H rteIpv4UdptcpCksum app) hrun

theorem inSession_echoServer_writeAndRead :
    ∃ s, s.Finished ∧ InSession (echoServer pingpong TakesOne) Accepted () writeAndRead 0 s := by
  obtain ⟨s, hrun, hdone⟩ := exists_finished_writeAndRead echoes_pingpong ()
  exact ⟨s, hdone, inSession_echoServer plainHash rteCksum .pingpong TakesOne () writeAndRead 0 s
    hrun⟩

/-- When neither the network nor the driver drops a message, the client can finish from every state
exactly when all its frames are accepted, and then it has a line for each of its chunks. -/
theorem session_finishes_iff (s₀ : app.Store H) (repetitions : ℕ) (frames : List Frame)
    (hframes : frames.length = repetitions * chunks) (start : ℕ) :
    FinishesWhenAccepted (echoServer (app.process H rteIpv4UdptcpCksum) TakesOne) Accepted s₀ frames
      start := by
  have hechoes := echoes_process H rteIpv4UdptcpCksum app
  apply finishesWhenAccepted (fun f => ignores_of_not hechoes) _ hframes
  exact fun f => answers_of_accepted hechoes

theorem session_finishes_iff_chunks : ∃ s : System Unit Frame Frame,
    s.Finished ∧ (pollStats s.trips).length = 1024 := by
  have hfinishes := session_finishes_iff plainHash rteCksum .pingpong () 1
    (List.replicate chunks (requestFrame 1 7 42)) (by simp) 0
  exact hfinishes.exists_lines (accepted_requestFrame 1 7 42)

/-- In a session with the key-value store the client reads back what it wrote itself: the latest
value of a key that the table took from it, and otherwise 0. -/
theorem session_reads (drivers : TxBurst → Prop) (frames : List Frame) (start : ℕ)
    (s : System (Cache H) Frame Frame)
    (hrun : Reaches (echoServer (kvstore H rteIpv4UdptcpCksum) drivers)
      (System.start (fun _ => H.empty) frames start) s) (n : ℕ) (f g : Frame)
    (hf : frames[n]? = some f) (hg : s.received[n]? = some g) (hread : f.word 0 = 0) :
    (WriteTaken H rteIpv4UdptcpCksum (frames.take n) (f.word 1) →
      lastWrite (requests (frames.take n)) (f.word 1) = some (g.word 2)) ∧
    (¬ WriteTaken H rteIpv4UdptcpCksum (frames.take n) (f.word 1) → g.word 2 = 0) := by
  obtain ⟨f', hf', hacc, -, rfl⟩ :=
    (inSession_of_echoes (echoes_kvstore H rteIpv4UdptcpCksum) hrun).replies n g hg
  obtain rfl := Option.some.inj (hf.symm.trans hf')
  exact respond_read_overflow H rteIpv4UdptcpCksum (frames.take n) hacc hread

theorem session_reads_writeAndRead : ∃ s g,
    Reaches (echoServer (kvstore plainHash rteCksum) TakesOne)
      (System.start (fun _ => plainHash.empty) writeAndRead 0) s ∧
    s.received[1]? = some g ∧ g.word 2 = 42 := by
  obtain ⟨s, hrun, hdone⟩ := exists_finished_writeAndRead
    (echoes_kvstore plainHash rteCksum) fun _ => plainHash.empty
  have hreceived := (((serial_start 0).reaches hrun).of_finished hdone).1
  obtain ⟨g, hg⟩ : ∃ g, s.received[1]? = some g := by
    rw [hreceived]
    exact ⟨_, rfl⟩
  have hw := accepted_requestFrame 1 7 42
  have htaken : WriteTaken plainHash rteCksum (writeAndRead.take 1)
      ((requestFrame 0 7 0).word 1) := by
    rw [word_one_requestFrame]
    exact writeTaken_plainHash_first 1 7 42 (by decide) []
  have hread := (session_reads plainHash rteCksum TakesOne writeAndRead 0 s hrun 1
    (requestFrame 0 7 0) g rfl hg (by simp)).1 htaken
  have htake : writeAndRead.take 1 = [requestFrame 1 7 42] := rfl
  rw [htake, requests_cons_of_accepted hw, request_of_write (by simp)] at hread
  refine ⟨s, g, hrun, hg, ?_⟩
  simpa [requests, lastWrite, Op.effect] using hread.symm

end Programs

end PacketBench.Dpdk

import PacketBench.Clients.RoundTrips
import PacketBench.Xdp.Apps
import PacketBench.Xdp.Eviction

/-! # Sessions of a client with an XDP program

The programs that send frames back answer them one by one, so a client that
measures round trips comes to its end when each of its frames is taken. A frame
that a program passes to the network stack gets no reply.
-/

namespace PacketBench.Xdp

open Bytes PktM StopAndWait Clients BoundedMaps Relation

variable {σ : Type}

def fwBack : PktM Unit Verdict :=
  withUdp fun eth ip udp => do
    swapInfos eth ip udp
    return .tx

/-- The same with a call of `bpf_ktime_get_boot_ns` whose result is not used. -/
def fwBackOv (now : Instant) : PktM Unit Verdict :=
  withUdp fun eth ip udp => do
    swapInfos eth ip udp
    let _time := now.ktimeBootNs
    return .tx

/-- A CPU as a server: it sends back the frames with the verdict `XDP_TX`. -/
def xdpServer (prog : PktM σ Verdict) : Server σ Frame Frame where
  Turn s requests replies s' := ∃ f, requests = [f] ∧
    replies = (if (handle prog s f).1 = .tx then [(handle prog s f).2.frame] else []) ∧
      s' = (handle prog s f).2.store
  answer s f := (handle prog s f).2.frame
  next s f := (handle prog s f).2.store
  turn_single := by
    rintro s f replies s' ⟨f', hf, rfl, rfl⟩
    obtain rfl := List.singleton_inj.mp hf
    refine ⟨rfl, ?_⟩
    split_ifs
    · exact Or.inr rfl
    · exact Or.inl rfl

/-- A program that sends back the frames it accepts, with exchanged headers, and no others. -/
structure SendsBack (prog : PktM σ Verdict) (accepts : Frame → Prop) : Prop where
  verdict : ∀ s f, (handle prog s f).1 = .tx ↔ accepts f
  swaps : ∀ s f, accepts f → AddressesSwapped f (handle prog s f).2.frame

section SendsBack

variable {prog : PktM σ Verdict} {accepts : Frame → Prop} {f : Frame}

theorem SendsBack.ignores (h : SendsBack prog accepts) (hf : ¬ accepts f) :
    (xdpServer prog).Ignores f := by
  rintro s replies s' ⟨f', heq, rfl, -⟩
  obtain rfl := List.singleton_inj.mp heq
  exact if_neg fun htx => hf ((h.verdict s f).mp htx)

theorem SendsBack.answers (h : SendsBack prog accepts) (hf : accepts f) :
    (xdpServer prog).Answers f := by
  intro s replies s'
  have htx := (h.verdict s f).mpr hf
  constructor
  · rintro ⟨f', heq, rfl, rfl⟩
    obtain rfl := List.singleton_inj.mp heq
    exact ⟨if_pos htx, rfl⟩
  · rintro ⟨rfl, rfl⟩
    exact ⟨f, rfl, (if_pos htx).symm, rfl⟩

theorem sendsBack_kvstoreNoT (L : LruHash) : SendsBack (kvstoreNoT L) IsRequest := by
  constructor
  · intro maps f
    by_cases hf : IsRequest f
    · exact iff_of_true (handle_kvstoreNoT maps hf).1 hf
    · rw [(handle_kvstoreNoT_of_not maps hf).1]
      exact iff_of_false (by decide) hf
  · intro maps f hf
    rw [(handle_kvstoreNoT maps hf).2.1]
    exact addressesSwapped_of_eq (fun a ha => answer_apply_of_lt maps ha) fun _ _ => rfl

theorem sendsBack_pingPongNoT : SendsBack pingPongNoT IsUdp := by
  constructor
  · intro s f
    by_cases hf : IsUdp f
    · exact iff_of_true (yields_pingPongNoT hf).exec_start.1 hf
    · have hyields : pingPongNoT.Yields f s .pass f.mem s := yields_withUdp_of_not hf
      unfold handle
      rw [hyields.exec_start.1]
      exact iff_of_false (by decide) hf
  · intro s f hf
    unfold handle
    rw [(yields_pingPongNoT hf).exec_start.2.1]
    exact addressesSwapped_of_eq (fun _ _ => rfl) fun _ _ => rfl

end SendsBack

inductive ReplyApp where
  | kvstoreNoT
  | pingPongNoT
  | fwBack
  | fwBackOv
  deriving DecidableEq, Repr

namespace ReplyApp

variable (L : LruHash) (now : Instant)

def Store : ReplyApp → Type
  | kvstoreNoT => Maps L
  | pingPongNoT | fwBack | fwBackOv => Unit

def process : (app : ReplyApp) → PktM (app.Store L) Verdict
  | kvstoreNoT => Xdp.kvstoreNoT L
  | pingPongNoT => Xdp.pingPongNoT
  | fwBack => Xdp.fwBack
  | fwBackOv => Xdp.fwBackOv now

def Accepts : ReplyApp → Frame → Prop
  | kvstoreNoT => IsRequest
  | pingPongNoT | fwBack | fwBackOv => IsUdp

end ReplyApp

/-- The two programs of the overhead test are `ping_pong_no_t` but for the time they take. -/
theorem sendsBack_process (L : LruHash) (now : Instant) :
    ∀ app : ReplyApp, SendsBack (app.process L now) app.Accepts
  | .kvstoreNoT => sendsBack_kvstoreNoT L
  | .pingPongNoT | .fwBack | .fwBackOv => sendsBack_pingPongNoT

section Programs

variable (L : LruHash) (now : Instant) (app : ReplyApp)

/-- In every session the client gets the replies of the program to its chunks in order, and it can
finish when nothing is lost and the program sends all its frames back, and not otherwise. A reply
that the client's kernel drops for its checksum counts as lost. -/
theorem replySession (s₀ : app.Store L) (repetitions : ℕ) (frames : List Frame)
    (hframes : frames.length = repetitions * chunks) (start : ℕ) :
    (∀ s, Reaches (xdpServer (app.process L now)) (System.start s₀ frames start) s →
      InSession (xdpServer (app.process L now)) app.Accepts s₀ frames start s) ∧
    FinishesWhenAccepted (xdpServer (app.process L now)) app.Accepts s₀ frames start := by
  have hsends := sendsBack_process L now app
  constructor
  · intro s hrun
    exact inSession (fun f => hsends.ignores) hsends.swaps hrun
  · exact finishesWhenAccepted (fun f => hsends.ignores) (fun f => hsends.answers) hframes s₀ start

theorem replySession_chunks : ∃ s : System Unit Frame Frame,
    s.Finished ∧ (pollStats s.trips).length = 1024 := by
  obtain ⟨-, hfinishes⟩ := replySession kernelLru ⟨0, 0⟩ .fwBack () 1
    (List.replicate chunks (requestFrame 1 7 42)) (by simp) 0
  exact hfinishes.exists_lines (isRequest_requestFrame 1 7 42).1

end Programs

end PacketBench.Xdp

import Mathlib.Algebra.BigOperators.Group.List.Basic
import Mathlib.Algebra.Ring.Nat
import Mathlib.Data.List.Basic
import Mathlib.Logic.Relation

/-! # A client that waits for each reply

The client sends one request after the other and waits for the reply before it
sends the next one. The server takes requests in bursts, and the network may
reorder and lose messages. One message is under way at most, so the server meets
the requests one at a time, and the client gets the replies of a serial run.
-/

namespace StopAndWait

open Relation

variable {σ Req Rep : Type*}

/-- A server with what it may do on a burst of requests. A request that comes alone leads to the
next state and to its own reply at most. -/
structure Server (σ Req Rep : Type*) where
  Turn : σ → List Req → List Rep → σ → Prop
  answer : σ → Req → Rep
  next : σ → Req → σ
  turn_single : ∀ {s m reps s'}, Turn s [m] reps s' →
    s' = next s m ∧ (reps = [] ∨ reps = [answer s m])

namespace Server

variable (S : Server σ Req Rep)

def after (s : σ) (work : List Req) : σ := work.foldl S.next s

def replies : σ → List Req → List Rep
  | _, [] => []
  | s, m :: work => S.answer s m :: replies (S.next s m) work

@[simp] theorem after_append (s : σ) (work : List Req) (m : Req) :
    S.after s (work ++ [m]) = S.next (S.after s work) m := by
  unfold after
  rw [List.foldl_append]
  rfl

@[simp] theorem replies_append (s : σ) (work : List Req) (m : Req) :
    S.replies s (work ++ [m]) = S.replies s work ++ [S.answer (S.after s work) m] := by
  induction work generalizing s with
  | nil => rfl
  | cons m' work ih => exact congrArg (S.answer s m' :: ·) (ih _)

@[simp] theorem length_replies (s : σ) (work : List Req) :
    (S.replies s work).length = work.length := by
  induction work generalizing s with
  | nil => rfl
  | cons m work ih => exact congrArg (· + 1) (ih _)

theorem exists_of_replies {s : σ} {work : List Req} {n : ℕ} {r : Rep}
    (h : (S.replies s work)[n]? = some r) :
    ∃ m, work[n]? = some m ∧ r = S.answer (S.after s (work.take n)) m := by
  induction work generalizing s n with
  | nil => cases h
  | cons m work ih =>
    cases n with
    | zero => exact ⟨m, rfl, (Option.some.inj h).symm⟩
    | succ n => exact ih h

/-- A request that gets a reply whenever it comes alone. -/
def Answers (m : Req) : Prop :=
  ∀ s reps s', S.Turn s [m] reps s' ↔ reps = [S.answer s m] ∧ s' = S.next s m

/-- A request that gets no reply when it comes alone. -/
def Ignores (m : Req) : Prop := ∀ s reps s', S.Turn s [m] reps s' → reps = []

end Server

/-- What the client has still to send, when it sent the request it waits for, its round trips and
the replies, the messages on the network, the state of the server and the time. -/
structure System (σ Req Rep : Type*) where
  todo : List Req
  sent : Option ℕ
  trips : List (ℕ × ℕ)
  received : List Rep
  requests : List Req
  replies : List Rep
  server : σ
  now : ℕ

namespace System

def start (server : σ) (work : List Req) (now : ℕ) : System σ Req Rep :=
  ⟨work, none, [], [], [], [], server, now⟩

def Finished (s : System σ Req Rep) : Prop := s.todo = [] ∧ s.sent = none

end System

/-- The client sends a request, the server takes a burst, the client receives a reply, or time
passes. -/
inductive Step (S : Server σ Req Rep) : System σ Req Rep → System σ Req Rep → Prop
  | send {s m rest} (hsent : s.sent = none) (htodo : s.todo = m :: rest) :
    Step S s { s with todo := rest, sent := some s.now, requests := m :: s.requests }
  | turn {s burst rest reps server} (hburst : burst ≠ [])
      (hperm : s.requests.Perm (burst ++ rest)) (hturn : S.Turn s.server burst reps server) :
    Step S s { s with requests := rest, replies := reps ++ s.replies, server := server }
  | receive {s t r rest} (hsent : s.sent = some t) (hperm : s.replies.Perm (r :: rest)) :
    Step S s { s with
      sent := none
      replies := rest
      received := s.received ++ [r]
      trips := s.trips ++ [(t, s.now)] }
  | tick {s} (d : ℕ) : Step S s { s with now := s.now + d }

/-- The network loses a message. -/
inductive Loss : System σ Req Rep → System σ Req Rep → Prop
  | request {s m rest} (hperm : s.requests.Perm (m :: rest)) : Loss s { s with requests := rest }
  | reply {s r rest} (hperm : s.replies.Perm (r :: rest)) : Loss s { s with replies := rest }

/-- The states that can be reached when nothing is lost. -/
def Reliable (S : Server σ Req Rep) : System σ Req Rep → System σ Req Rep → Prop :=
  ReflTransGen (Step S)

def Reaches (S : Server σ Req Rep) : System σ Req Rep → System σ Req Rep → Prop :=
  ReflTransGen fun s t => Step S s t ∨ Loss s t

theorem Reliable.reaches {S : Server σ Req Rep} {s t : System σ Req Rep} (h : Reliable S s t) :
    Reaches S s t := ReflTransGen.mono (fun _ _ => Or.inl) _ _ h

section Stage

variable (S : Server σ Req Rep) (s₀ : σ) (work : List Req)

/-- Given the requests that have been replied to, the client is about to send the next one, or
that one or its reply is under way, or it is lost and the client waits in vain. -/
inductive Stage (done : List Req) (s : System σ Req Rep) : Prop
  | idle (hwork : done ++ s.todo = work) (hsent : s.sent = none) (hreq : s.requests = [])
    (hrep : s.replies = []) (hserver : s.server = S.after s₀ done)
  | asked (m : Req) (hwork : done ++ m :: s.todo = work) (hsent : s.sent.isSome)
    (hreq : s.requests = [m]) (hrep : s.replies = []) (hserver : s.server = S.after s₀ done)
  | answered (m : Req) (hwork : done ++ m :: s.todo = work) (hsent : s.sent.isSome)
    (hreq : s.requests = []) (hrep : s.replies = [S.answer (S.after s₀ done) m])
    (hnot : ¬ S.Ignores m) (hserver : s.server = S.after s₀ (done ++ [m]))
  | lost (m : Req) (hwork : done ++ m :: s.todo = work) (hsent : s.sent.isSome)
    (hreq : s.requests = []) (hrep : s.replies = [])

/-- The replies received so far are those of a serial run. -/
def Serial (s : System σ Req Rep) : Prop :=
  ∃ done, s.received = S.replies s₀ done ∧ (∀ m ∈ done, ¬ S.Ignores m) ∧
    Stage S s₀ work done s

variable {S s₀ work} {s t : System σ Req Rep}

theorem serial_start (now : ℕ) : Serial S s₀ work (System.start s₀ work now) :=
  ⟨[], rfl, by simp, .idle rfl rfl rfl rfl rfl⟩

theorem burst_eq {m : Req} {burst rest : List Req} (hburst : burst ≠ [])
    (h : [m].Perm (burst ++ rest)) : burst = [m] ∧ rest = [] := by
  have heq := List.singleton_perm.mp h
  cases burst with
  | nil => exact absurd rfl hburst
  | cons m' burst =>
    obtain ⟨rfl, hrest⟩ := List.cons.inj heq
    obtain ⟨rfl, rfl⟩ := List.append_eq_nil_iff.mp hrest.symm
    exact ⟨rfl, rfl⟩

theorem Serial.step (h : Serial S s₀ work s) (hstep : Step S s t) : Serial S s₀ work t := by
  obtain ⟨done, hreceived, hreplied, hstage⟩ := h
  cases hstep with
  | send hsent htodo =>
    refine ⟨done, hreceived, hreplied, ?_⟩
    cases hstage with
    | idle hwork _ hreq hrep hserver =>
      exact .asked _ (by rw [← hwork, htodo]) rfl (by simp [hreq]) hrep hserver
    | asked _ _ hsome | answered _ _ hsome | lost _ _ hsome => simp [hsent] at hsome
  | turn hburst hperm hturn =>
    cases hstage with
    | idle _ _ hreq | answered _ _ _ hreq | lost _ _ _ hreq =>
      rw [hreq, List.nil_perm, List.append_eq_nil_iff] at hperm
      exact absurd hperm.1 hburst
    | asked m hwork hsome hreq hrep hserver =>
      rw [hreq] at hperm
      obtain ⟨rfl, rfl⟩ := burst_eq hburst hperm
      obtain ⟨rfl, rfl | rfl⟩ := S.turn_single hturn
      · exact ⟨done, hreceived, hreplied, .lost m hwork hsome rfl hrep⟩
      · refine ⟨done, hreceived, hreplied, .answered m hwork hsome rfl (by simp [hrep, hserver]) ?_
          (by simp [hserver])⟩
        intro hignores
        cases hignores _ _ _ hturn
  | receive hsent hperm =>
    cases hstage with
    | idle _ _ _ hrep | asked _ _ _ _ hrep | lost _ _ _ _ hrep => simp [hrep] at hperm
    | answered m hwork _ hreq hrep hnot hserver =>
      rw [hrep, List.singleton_perm] at hperm
      obtain ⟨rfl, rfl⟩ := List.cons.inj hperm
      refine ⟨done ++ [m], by simp [hreceived], ?_, .idle (by simpa using hwork) rfl hreq rfl
        hserver⟩
      simpa [or_imp, forall_and, hnot] using hreplied
  | tick d =>
    refine ⟨done, hreceived, hreplied, ?_⟩
    cases hstage with
    | idle hwork hsent hreq hrep hserver => exact .idle hwork hsent hreq hrep hserver
    | asked m hwork hsent hreq hrep hserver => exact .asked m hwork hsent hreq hrep hserver
    | answered m hwork hsent hreq hrep hnot hserver =>
      exact .answered m hwork hsent hreq hrep hnot hserver
    | lost m hwork hsent hreq hrep => exact .lost m hwork hsent hreq hrep

theorem Serial.loss (h : Serial S s₀ work s) (hloss : Loss s t) : Serial S s₀ work t := by
  obtain ⟨done, hreceived, hreplied, hstage⟩ := h
  refine ⟨done, ?_, hreplied, ?_⟩
  · cases hloss <;> exact hreceived
  · cases hloss with
    | request hperm =>
      cases hstage with
      | idle _ _ hreq | answered _ _ _ hreq | lost _ _ _ hreq => simp [hreq] at hperm
      | asked m hwork hsome hreq hrep =>
        rw [hreq, List.singleton_perm] at hperm
        exact .lost m hwork hsome (List.cons.inj hperm).2.symm hrep
    | reply hperm =>
      cases hstage with
      | idle _ _ _ hrep | asked _ _ _ _ hrep | lost _ _ _ _ hrep => simp [hrep] at hperm
      | answered m hwork hsome hreq hrep =>
        rw [hrep, List.singleton_perm] at hperm
        exact .lost m hwork hsome hreq (List.cons.inj hperm).2.symm

theorem Serial.reaches (h : Serial S s₀ work s) (hrun : Reaches S s t) : Serial S s₀ work t := by
  induction hrun with
  | refl => exact h
  | tail _ hstep ih => exact hstep.elim ih.step ih.loss

theorem Serial.length_le (h : Serial S s₀ work s) :
    s.requests.length + s.replies.length ≤ if s.sent.isSome then 1 else 0 := by
  obtain ⟨done, -, -, hstage⟩ := h
  cases hstage with
  | idle _ _ hreq hrep | asked _ _ hsent hreq hrep | answered _ _ hsent hreq hrep
  | lost _ _ hsent hreq hrep => simp [*]

theorem Serial.turn_eq (h : Serial S s₀ work s) {burst rest : List Req} (hburst : burst ≠ [])
    (hperm : s.requests.Perm (burst ++ rest)) : ∃ m, burst = [m] ∧
      work[s.received.length]? = some m ∧
      s.server = S.after s₀ (work.take s.received.length) := by
  obtain ⟨done, hreceived, -, hstage⟩ := h
  cases hstage with
  | idle _ _ hreq | answered _ _ _ hreq | lost _ _ _ hreq =>
    rw [hreq, List.nil_perm, List.append_eq_nil_iff] at hperm
    exact absurd hperm.1 hburst
  | asked m hwork _ hreq _ hserver =>
    rw [hreq] at hperm
    refine ⟨m, (burst_eq hburst hperm).1, ?_, ?_⟩
    · simp [hreceived, ← hwork]
    · rw [hserver, hreceived, S.length_replies, ← hwork, List.take_left]

theorem Serial.exists_answer (h : Serial S s₀ work s) {n : ℕ} {r : Rep}
    (hr : s.received[n]? = some r) : ∃ m, work[n]? = some m ∧ ¬ S.Ignores m ∧
      r = S.answer (S.after s₀ (work.take n)) m := by
  obtain ⟨done, hreceived, hreplied, hstage⟩ := h
  obtain ⟨rest, rfl⟩ : ∃ rest, work = done ++ rest := by
    cases hstage with
    | idle hwork | asked _ hwork | answered _ hwork | lost _ hwork => exact ⟨_, hwork.symm⟩
  rw [hreceived] at hr
  obtain ⟨m, hm, rfl⟩ := S.exists_of_replies hr
  have hn : n < done.length := (List.getElem?_eq_some_iff.mp hm).1
  refine ⟨m, ?_, hreplied m (List.mem_of_getElem? hm), ?_⟩
  · rw [List.getElem?_append_left hn, hm]
  · rw [List.take_append_of_le_length (Nat.le_of_lt hn)]

/-- A client that has finished has the replies to all requests. -/
theorem Serial.of_finished (h : Serial S s₀ work s) (hdone : s.Finished) :
    s.received = S.replies s₀ work ∧ ∀ m ∈ work, ¬ S.Ignores m := by
  obtain ⟨done, hreceived, hreplied, hstage⟩ := h
  cases hstage with
  | idle hwork =>
    rw [hdone.1, List.append_nil] at hwork
    exact hwork ▸ ⟨hreceived, hreplied⟩
  | asked _ _ hsent | answered _ _ hsent | lost _ _ hsent => simp [hdone.2] at hsent

end Stage

section Trips

variable {S : Server σ Req Rep} {s t : System σ Req Rep}

/-- The round trips lie one after the other within the time of the run. -/
structure Timed (start : ℕ) (s : System σ Req Rep) : Prop where
  length_eq : s.trips.length = s.received.length
  ordered : ∀ trip ∈ s.trips, trip.1 ≤ trip.2
  sum_le : (s.trips.map fun trip => trip.2 - trip.1).sum + start ≤ s.sent.getD s.now
  sent_le : s.sent.getD s.now ≤ s.now

theorem timed_start (server : σ) (work : List Req) (now : ℕ) :
    Timed now (System.start server work now : System σ Req Rep) :=
  ⟨rfl, by simp [System.start], by simp [System.start], Nat.le_refl now⟩

theorem Timed.step {start : ℕ} (h : Timed start s) (hstep : Step S s t) : Timed start t := by
  obtain ⟨hlength, hordered, hsum, hle⟩ := h
  cases hstep with
  | send hsent _ => exact ⟨hlength, hordered, by simpa [hsent] using hsum, Nat.le_refl s.now⟩
  | turn => exact ⟨hlength, hordered, hsum, hle⟩
  | receive hsent _ =>
    rw [hsent, Option.getD_some] at hsum hle
    refine ⟨by simp [hlength], ?_, ?_, Nat.le_refl s.now⟩
    · intro trip htrip
      rcases List.mem_append.mp htrip with htrip | htrip
      · exact hordered trip htrip
      · obtain rfl := List.mem_singleton.mp htrip
        exact hle
    · simp only [List.map_append, List.map_singleton, List.sum_append, List.sum_singleton,
        Option.getD_none]
      omega
  | tick d =>
    cases hsent : s.sent with
    | none =>
      rw [hsent, Option.getD_none] at hsum
      exact ⟨hlength, hordered, by simp; omega, by simp⟩
    | some t₀ =>
      rw [hsent, Option.getD_some] at hsum hle
      exact ⟨hlength, hordered, by simpa [hsent] using hsum, by simp; omega⟩

theorem Timed.reaches {start : ℕ} (h : Timed start s) (hrun : Reaches S s t) : Timed start t := by
  induction hrun with
  | refl => exact h
  | tail _ hstep ih =>
    rcases hstep with hstep | hloss
    · exact ih.step hstep
    · cases hloss <;> exact ⟨ih.length_eq, ih.ordered, ih.sum_le, ih.sent_le⟩

theorem Timed.sum_add_le {start : ℕ} (h : Timed start s) :
    (s.trips.map fun trip => trip.2 - trip.1).sum + start ≤ s.now :=
  Nat.le_trans h.sum_le h.sent_le

end Trips

section Progress

variable {S : Server σ Req Rep} {s₀ : σ} {work : List Req} {s t : System σ Req Rep}

/-- The client waits in vain. -/
def Stuck (s : System σ Req Rep) : Prop := s.sent.isSome ∧ s.requests = [] ∧ s.replies = []

theorem Stage.step_of_answers (hall : ∀ m ∈ work, S.Answers m) {done : List Req}
    (h : Stage S s₀ work done s) (hnot : ¬ Stuck s) (hstep : Step S s t) : ¬ Stuck t := by
  rintro ⟨hsent, hreq, hrep⟩
  cases hstep with
  | send => simp at hreq
  | receive => simp at hsent
  | tick => exact hnot ⟨hsent, hreq, hrep⟩
  | turn hburst hperm hturn =>
    cases h with
    | idle _ _ hreq' | answered _ _ _ hreq' | lost _ _ _ hreq' =>
      rw [hreq', List.nil_perm, List.append_eq_nil_iff] at hperm
      exact absurd hperm.1 hburst
    | asked m hwork _ hreq' =>
      rw [hreq'] at hperm
      obtain ⟨rfl, -⟩ := burst_eq hburst hperm
      have hreps := ((hall m (by simp [← hwork])) _ _ _).mp hturn
      simp [hreps.1] at hrep

/-- When nothing is lost and every request gets its reply, the client never waits in vain. -/
theorem not_stuck_of_answers (hall : ∀ m ∈ work, S.Answers m) (now : ℕ)
    (hrun : Reliable S (System.start s₀ work now) s) : ¬ Stuck s := by
  induction hrun with
  | refl => simp [Stuck, System.start]
  | tail hrun hstep ih =>
    obtain ⟨done, -, -, hstage⟩ := (serial_start now).reaches (Reliable.reaches hrun)
    exact hstage.step_of_answers hall ih hstep

theorem Server.Answers.step {m : Req} (h : S.Answers m) (todo : List Req) (sent : Option ℕ)
    (trips : List (ℕ × ℕ)) (received : List Rep) (server : σ) (now : ℕ) :
    Step S ⟨todo, sent, trips, received, [m], [], server, now⟩
      ⟨todo, sent, trips, received, [], [S.answer server m], S.next server m, now⟩ := by
  have hturn := (h server _ _).mpr ⟨rfl, rfl⟩
  exact Step.turn (s := ⟨todo, sent, trips, received, [m], [], server, now⟩)
    (List.cons_ne_nil m []) (List.Perm.refl [m]) hturn

theorem exists_finished_of_idle {todo : List Req} (hall : ∀ m ∈ todo, S.Answers m)
    (trips : List (ℕ × ℕ)) (received : List Rep) (server : σ) (now : ℕ) :
    ∃ t, Reliable S ⟨todo, none, trips, received, [], [], server, now⟩ t ∧ t.Finished := by
  induction todo generalizing trips received server with
  | nil => exact ⟨_, .refl, rfl, rfl⟩
  | cons m todo ih =>
    obtain ⟨hm, htodo⟩ := List.forall_mem_cons.mp hall
    obtain ⟨t, hrun, hdone⟩ := ih htodo (trips ++ [(now, now)])
      (received ++ [S.answer server m]) (S.next server m)
    have hserve := hm.step todo (some now) trips received server now
    have hreceive : Reliable S
        ⟨todo, some now, trips, received, [], [S.answer server m], S.next server m, now⟩ t :=
      .head (.receive rfl (List.Perm.refl _)) hrun
    exact ⟨t, .head (.send rfl rfl) (.head hserve hreceive), hdone⟩

theorem exists_finished_of_answered {todo : List Req} (hall : ∀ m ∈ todo, S.Answers m) (sent : ℕ)
    (trips : List (ℕ × ℕ)) (received : List Rep) (r : Rep) (server : σ) (now : ℕ) :
    ∃ t, Reliable S ⟨todo, some sent, trips, received, [], [r], server, now⟩ t ∧ t.Finished := by
  obtain ⟨t, hrun, hdone⟩ := exists_finished_of_idle hall (trips ++ [(sent, now)])
    (received ++ [r]) server now
  exact ⟨t, .head (.receive rfl (List.Perm.refl [r])) hrun, hdone⟩

theorem exists_finished_of_answers (hall : ∀ m ∈ work, S.Answers m) (now : ℕ)
    (hrun : Reliable S (System.start s₀ work now) s) : ∃ t, Reliable S s t ∧ t.Finished := by
  have hnot := not_stuck_of_answers hall now hrun
  obtain ⟨done, -, -, hstage⟩ := (serial_start now).reaches (Reliable.reaches hrun)
  obtain ⟨todo, sent, trips, received, requests, replies, server, now'⟩ := s
  cases hstage with
  | idle hwork hsent hreq hrep =>
    subst hsent hreq hrep
    exact exists_finished_of_idle (fun m hm => hall m (by simp [← hwork, hm])) _ _ _ _
  | asked m hwork hsent hreq hrep =>
    obtain ⟨t₀, rfl⟩ := Option.isSome_iff_exists.mp hsent
    subst hreq hrep
    have hm : S.Answers m := hall m (by simp [← hwork])
    have htodo : ∀ m' ∈ todo, S.Answers m' := fun m' hm' => hall m' (by simp [← hwork, hm'])
    obtain ⟨t, hrun, hdone⟩ := exists_finished_of_answered htodo t₀ trips received
      (S.answer server m) (S.next server m) now'
    exact ⟨t, .head (hm.step todo (some t₀) trips received server now') hrun, hdone⟩
  | answered m hwork hsent hreq hrep =>
    obtain ⟨t₀, rfl⟩ := Option.isSome_iff_exists.mp hsent
    subst hreq hrep
    exact exists_finished_of_answered (fun m' hm' => hall m' (by simp [← hwork, hm'])) _ _ _ _ _ _
  | lost _ _ hsent hreq hrep => exact absurd ⟨hsent, hreq, hrep⟩ hnot

end Progress

end StopAndWait

import PacketBench.Concurrency.Atomics
import Mathlib.Data.Multiset.UnionInter
import Mathlib.Logic.Relation
import Mathlib.Tactic.Abel

/-! # Buffers that circulate between a pool, queues and a device

A device takes free buffers for what it receives and gives back those it has
sent. Between the two, cores take received buffers off queues, hand some of them
to the device for sending and free some. A buffer that a core hands over and
frees at the same time is at two places from then on, for ever.
-/

namespace Buffers

open Finset Relation

variable {ι A B : Type*} [DecidableEq ι] [DecidableEq A]

/-- The free buffers, those received on each queue, those that the device is going to send and those
that a core has both handed over and freed. -/
structure System (ι A B : Type*) where
  free : Multiset A
  received : ι → List B
  sending : Multiset A
  twice : Multiset A

namespace System

def start (pool : Multiset A) : System ι A B := ⟨pool, fun _ => [], 0, 0⟩

end System

def waiting [Fintype ι] (addr : B → A) (queues : ι → List B) : Multiset A :=
  ∑ i, (((queues i).map addr : List A) : Multiset A)

def places [Fintype ι] (addr : B → A) (s : System ι A B) : Multiset A :=
  s.free + waiting addr s.received + s.sending

variable (addr : B → A) (Turn : List B → Multiset A → Multiset A → Prop)

/-- The device receives into a free buffer, a core takes a burst off its queue and releases its
buffers, or the device has sent a buffer. -/
inductive Step : System ι A B → System ι A B → Prop
  | receive {s free b i} (hfree : s.free = addr b ::ₘ free) :
    Step s { s with
      free := free
      received := Function.update s.received i (s.received i ++ [b]) }
  | turn {s i burst rest taken freed} (hqueue : s.received i = burst ++ rest)
      (hturn : Turn burst taken freed) :
    Step s { s with
      free := s.free + freed
      received := Function.update s.received i rest
      sending := s.sending + taken
      twice := s.twice + taken ∩ freed }
  | sent {s a sending} (hsending : s.sending = a ::ₘ sending) :
    Step s { s with free := a ::ₘ s.free, sending := sending }

/-- A core releases the buffers of its burst and no others. -/
def ReleasesBurst : Prop :=
  ∀ burst taken freed, Turn burst taken freed → taken ∪ freed = ((burst.map addr : List A))

variable {addr Turn} [Fintype ι] {s t : System ι A B} {pool : Multiset A}

omit [DecidableEq A] in
theorem waiting_push (queues : ι → List B) (i : ι) (b : B) :
    waiting addr (Function.update queues i (queues i ++ [b])) =
      {addr b} + waiting addr queues := by
  apply Atomics.sum_eq_add_of_eq_add (i := i)
  · rw [Function.update_self, List.map_append, ← Multiset.coe_add, add_comm]
    rfl
  · intro j hj
    simp [hj]

omit [DecidableEq A] in
theorem waiting_pop {queues : ι → List B} {i : ι} {burst rest : List B}
    (h : queues i = burst ++ rest) : waiting addr queues =
      ((burst.map addr : List A) : Multiset A) + waiting addr (Function.update queues i rest) := by
  apply Atomics.sum_eq_add_of_eq_add (i := i)
  · simp [h]
  · intro j hj
    simp [hj]

/-- A step keeps the number of places of each buffer, but for those that a core both hands over
and frees. -/
theorem places_step (hreleases : ReleasesBurst addr Turn) (h : Step addr Turn s t) :
    places addr t + s.twice = places addr s + t.twice := by
  cases h with
  | receive hfree =>
    unfold places
    dsimp only
    rw [waiting_push, hfree, ← Multiset.singleton_add]
    abel
  | @turn i burst rest taken freed hqueue hturn =>
    have hburst := hreleases burst taken freed hturn
    have hunion : taken ∪ freed + taken ∩ freed = taken + freed :=
      Multiset.union_add_inter taken freed
    unfold places
    dsimp only
    rw [waiting_pop hqueue, ← hburst]
    calc s.free + freed + waiting addr (Function.update s.received i rest) + (s.sending + taken) +
          s.twice
        = taken + freed + (s.free + waiting addr (Function.update s.received i rest) + s.sending +
            s.twice) := by abel
      _ = s.free + (taken ∪ freed + waiting addr (Function.update s.received i rest)) + s.sending +
            (s.twice + taken ∩ freed) := by
          rw [← hunion]
          abel
  | sent hsending =>
    unfold places
    dsimp only
    rw [hsending, ← Multiset.singleton_add, ← Multiset.singleton_add]
    abel

/-- Each buffer of the pool is at one place, and at one more for each time that a core has handed
it over and freed it. -/
structure Accounted (addr : B → A) (pool : Multiset A) (s : System ι A B) : Prop where
  places_eq : places addr s = pool + s.twice
  mem_pool : ∀ a ∈ s.twice, a ∈ pool

omit [DecidableEq ι] [DecidableEq A] in
theorem accounted_start (pool : Multiset A) :
    Accounted addr pool (System.start pool : System ι A B) := by
  constructor
  · simp [places, waiting, System.start]
  · simp [System.start]

theorem Accounted.step (hreleases : ReleasesBurst addr Turn) (h : Accounted addr pool s)
    (hstep : Step addr Turn s t) : Accounted addr pool t := by
  constructor
  · have hplaces := places_step hreleases hstep
    rw [h.places_eq] at hplaces
    apply add_right_cancel (b := s.twice)
    rw [hplaces]
    abel
  · cases hstep with
    | receive => exact h.mem_pool
    | sent => exact h.mem_pool
    | @turn i burst rest taken freed hqueue hturn =>
      intro a ha
      rcases Multiset.mem_add.mp ha with ha | ha
      · exact h.mem_pool a ha
      · have hburst : a ∈ ((burst.map addr : List A) : Multiset A) := by
          rw [← hreleases burst taken freed hturn]
          exact Multiset.mem_union.mpr (Or.inl (Multiset.mem_inter.mp ha).1)
        have hplace : a ∈ places addr s := by
          unfold places
          rw [waiting_pop hqueue]
          simp only [Multiset.mem_add]
          exact Or.inl (Or.inr (Or.inl hburst))
        rw [h.places_eq] at hplace
        exact (Multiset.mem_add.mp hplace).elim id (h.mem_pool a)

theorem Accounted.run (hreleases : ReleasesBurst addr Turn)
    (hrun : ReflTransGen (Step addr Turn) (System.start pool) s) : Accounted addr pool s := by
  induction hrun with
  | refl => exact accounted_start pool
  | tail _ hstep ih => exact ih.step hreleases hstep

omit [DecidableEq ι] [DecidableEq A] in
/-- All buffers are at one place each unless some buffer was handed over and freed at once. -/
theorem Accounted.nodup_iff (h : Accounted addr pool s) (hpool : pool.Nodup) :
    (places addr s).Nodup ↔ s.twice = 0 := by
  rw [h.places_eq]
  constructor
  · intro hnodup
    apply Multiset.eq_zero_of_forall_notMem
    intro a ha
    exact Multiset.disjoint_left.mp (Multiset.nodup_add.mp hnodup).2.2 (h.mem_pool a ha) ha
  · rintro hzero
    rwa [hzero, add_zero]

end Buffers

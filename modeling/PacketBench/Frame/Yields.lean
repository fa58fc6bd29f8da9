import PacketBench.Frame.Payload

/-! # Runs that stay inside the frame

`x.Yields f s a m t` says that `x`, run on the frame `f` with the store `s`,
returns `a`, leaves the memory `m` and the store `t` and touches no byte behind
the frame. The judgement composes along `do` blocks, so the rule of a program
follows from those of its parts.
-/

namespace PacketBench

open Bytes

namespace PktM

variable {σ α β : Type} {x : PktM σ α} {k : α → PktM σ β} {f : Frame} {s t u : σ} {a : α} {b : β}
  {m m' : Mem}

def Yields (x : PktM σ α) (f : Frame) (s : σ) (a : α) (m : Mem) (t : σ) : Prop :=
  ∀ r : Run σ, r.frame = f → r.store = s →
    ∃ n ≤ f.len, x.exec r = (a, ((r.setMem m).setStore t).touch n)

theorem Yields.exec_start (h : x.Yields f s a m t) :
    (x.exec (Run.start f s)).1 = a ∧ (x.exec (Run.start f s)).2.frame = ⟨f.len, m⟩ ∧
    (x.exec (Run.start f s)).2.store = t ∧ (x.exec (Run.start f s)).2.reach ≤ f.len := by
  obtain ⟨n, hn, hexec⟩ := h (Run.start f s) rfl rfl
  rw [hexec]
  exact ⟨rfl, rfl, rfl, max_le (Nat.zero_le _) hn⟩

theorem yields_of_exec (h : ∀ r : Run σ, r.frame = f → r.store = s →
    x.exec r = (a, (r.setMem m).setStore t)) : x.Yields f s a m t := by
  intro r hf hs
  exact ⟨0, Nat.zero_le _, by rw [Run.touch_zero, h r hf hs]⟩

theorem yields_of_touch {n : ℕ} (hn : n ≤ f.len) (h : ∀ r : Run σ, r.frame = f → r.store = s →
    x.exec r = (a, ((r.setMem m).setStore t).touch n)) : x.Yields f s a m t :=
  fun r hf hs => ⟨n, hn, h r hf hs⟩

theorem Yields.bind (hx : x.Yields f s a m t) (hk : (k a).Yields ⟨f.len, m⟩ t b m' u) :
    (x >>= k).Yields f s b m' u := by
  intro r hf hs
  obtain ⟨n, hn, hexec⟩ := hx r hf hs
  obtain ⟨n', hn', hexec'⟩ := hk (((r.setMem m).setStore t).touch n) (by rw [← hf]; rfl) rfl
  refine ⟨max n n', max_le hn hn', ?_⟩
  rw [exec_bind, hexec, hexec']
  simp only [Run.touch_setMem, Run.touch_setStore, Run.setStore_setMem, Run.setMem_setMem,
    Run.setStore_setStore, Run.touch_touch]

theorem yields_pure (a : α) : (pure a : PktM σ α).Yields f s a f.mem s :=
  yields_of_exec fun r hf hs => by rw [← hf, ← hs]; rfl

theorem yields_pktEnd : (pktEnd : PktM σ ℕ).Yields f s f.len f.mem s :=
  yields_of_exec fun r hf hs => by rw [← hf, ← hs]; rfl

theorem yields_getStore : (getStore : PktM σ σ).Yields f s s f.mem s :=
  yields_of_exec fun r hf hs => by rw [← hf, ← hs]; rfl

theorem yields_putStore (t : σ) : (putStore t : PktM σ Unit).Yields f s () f.mem t :=
  yields_of_exec fun r hf hs => by rw [← hf]; rfl

theorem yields_load {off n : ℕ} (h : off + n / 8 ≤ f.len) :
    (load off n : PktM σ _).Yields f s (f.mem.load off n) f.mem s :=
  yields_of_touch h fun r hf hs => by rw [← hf, ← hs]; rfl

theorem yields_store {off n : ℕ} (v : BitVec n) (h : off + n / 8 ≤ f.len) :
    (store off n v : PktM σ _).Yields f s () (f.mem.store off n v) s :=
  yields_of_touch h fun r hf hs => by rw [← hf, ← hs]; rfl

end PktM

open PktM

variable {σ : Type} {f : Frame} {s : σ}

theorem yields_loadWord {i : ℕ} (h : 42 + 4 * (i + 1) ≤ f.len) :
    (loadWord 42 i : PktM σ _).Yields f s (f.word i) f.mem s :=
  yields_load (by simp only [dataSizeB]; omega)

theorem yields_sumWords {n : ℕ} (h : 42 + 4 * n ≤ f.len) :
    (sumWords 42 n : PktM σ _).Yields f s (f.wordsSum n) f.mem s :=
  yields_of_touch (wordsReach_le h) fun r hf hs => by rw [exec_sumWords, ← hf, ← hs]; rfl

theorem yields_forWords {body : ℕ → PktM σ Unit} (mem : ℕ → Mem) (store : ℕ → σ) {n : ℕ}
    (hmem : mem 0 = f.mem) (hstore : store 0 = s)
    (h : ∀ i < n, (body i).Yields ⟨f.len, mem i⟩ (store i) () (mem (i + 1)) (store (i + 1))) :
    (forWords body n).Yields f s () (mem n) (store n) := by
  induction n with
  | zero =>
    rw [hmem, hstore]
    exact yields_pure ()
  | succ n ih =>
    exact (ih fun i hi => h i (by omega)).bind (h n n.lt_succ_self)

end PacketBench

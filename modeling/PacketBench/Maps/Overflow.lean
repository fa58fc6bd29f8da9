import PacketBench.Maps.Bounded

/-! # Bounded maps that lose writes

A map that refuses new keys holds each key that it has once taken with its latest
value, for ever, and no other key. A map that gives entries up may hold any of
the written keys, but never a value that has been overwritten.
-/

namespace BoundedMaps

variable {K V : Type} [DecidableEq K] {capacity : ℕ} {ι : Type} [DecidableEq ι] {shard : K → ι}

section Serve

variable {M : BoundedMap K V capacity} (S : ι → M.State)

theorem get_serve_read (k : K) (i : ι) : M.get (serve M shard S (.read k) i) = M.get (S i) := by
  rcases eq_or_ne i (shard k) with rfl | hi
  · rw [serve, Function.update_self, M.get_lookup]
  · rw [serve, Function.update_of_ne hi]

theorem serve_write_self (k : K) (v : V) :
    serve M shard S (.write k v) (shard k) = M.put (S (shard k)) k v := by
  rw [serve, Function.update_self]

theorem serve_write_of_ne {k : K} (v : V) {i : ι} (hi : i ≠ shard k) :
    serve M shard S (.write k v) i = S i := by
  rw [serve, Function.update_of_ne hi]

end Serve

/-- A write of the key found its map ready to take it. -/
def Taken (M : RefusingMap K V capacity) (shard : K → ι) (ops : List (Op K V)) (k : K) : Prop :=
  ∃ history v rest, ops = history ++ .write k v :: rest ∧
    M.Takes (serveAll M.toBoundedMap shard history (shard k)) k

section Refusing

variable {M : RefusingMap K V capacity} {ops : List (Op K V)}

theorem Taken.mem_writtenKeys {k : K} (h : Taken M shard ops k) : k ∈ writtenKeys ops := by
  obtain ⟨history, v, rest, rfl, -⟩ := h
  exact BoundedMaps.mem_writtenKeys.mpr ⟨v, by simp⟩

theorem not_taken_nil (k : K) : ¬ Taken M shard [] k := by
  rintro ⟨history, v, rest, h, -⟩
  cases history <;> cases h

theorem taken_append_singleton (ops : List (Op K V)) (op : Op K V) (k : K) :
    Taken M shard (ops ++ [op]) k ↔ Taken M shard ops k ∨
      (op.written = some k ∧ M.Takes (serveAll M.toBoundedMap shard ops (shard k)) k) := by
  constructor
  · rintro ⟨history, v, rest, heq, htakes⟩
    rcases List.eq_nil_or_concat rest with rfl | ⟨rest, op', rfl⟩
    · obtain ⟨rfl, hop⟩ := List.append_inj' heq rfl
      obtain rfl := List.singleton_inj.mp hop
      exact Or.inr ⟨rfl, htakes⟩
    · rw [List.concat_eq_append, ← List.cons_append, ← List.append_assoc] at heq
      exact Or.inl ⟨history, v, rest, (List.append_inj' heq rfl).1, htakes⟩
  · rintro (⟨history, v, rest, rfl, htakes⟩ | ⟨hop, htakes⟩)
    · exact ⟨history, v, rest ++ [op], by simp, htakes⟩
    · cases op with
      | read k' => cases hop
      | write k' v =>
        obtain rfl := Option.some.inj hop
        exact ⟨ops, v, [], rfl, htakes⟩

theorem value_serve_write_of_ne (S : ι → M.State) (v : V) {k k' : K} (hk : k' ≠ k) :
    value M.toBoundedMap shard (serve M.toBoundedMap shard S (.write k v)) k' =
      value M.toBoundedMap shard S k' := by
  unfold value
  rcases eq_or_ne (shard k') (shard k) with hs | hs
  · rw [hs, serve_write_self, RefusingMap.get_put_of_ne _ _ hk]
  · rw [serve_write_of_ne S v hs]

/-- The maps hold the latest value of every key that was taken and nothing else. -/
structure KeepsTaken (M : RefusingMap K V capacity) (shard : K → ι) (ops : List (Op K V)) :
    Prop where
  taken : ∀ k, Taken M shard ops k →
    value M.toBoundedMap shard (serveAll M.toBoundedMap shard ops) k = lastWrite ops k
  refused : ∀ k, ¬ Taken M shard ops k →
    value M.toBoundedMap shard (serveAll M.toBoundedMap shard ops) k = none

theorem KeepsTaken.takes (h : KeepsTaken M shard ops) {k : K} (hk : Taken M shard ops k) :
    M.Takes (serveAll M.toBoundedMap shard ops (shard k)) k := by
  apply M.takes_of_mem
  have hval : M.get (serveAll M.toBoundedMap shard ops (shard k)) k = lastWrite ops k :=
    h.taken k hk
  rw [M.mem_keys, hval]
  exact lastWrite_isSome.mpr hk.mem_writtenKeys

theorem KeepsTaken.read (h : KeepsTaken M shard ops) (k : K) :
    KeepsTaken M shard (ops ++ [.read k]) := by
  have htaken : ∀ k', Taken M shard (ops ++ [.read k]) k' ↔ Taken M shard ops k' := fun k' =>
    (taken_append_singleton ops (.read k) k').trans (or_iff_left fun hk => by cases hk.1)
  have hval : ∀ k', value M.toBoundedMap shard
      (serveAll M.toBoundedMap shard (ops ++ [.read k])) k' =
        value M.toBoundedMap shard (serveAll M.toBoundedMap shard ops) k' := fun k' => by
    rw [serveAll_append_singleton, value, get_serve_read, value]
  constructor
  · intro k' hk'
    rw [hval, lastWrite_append_singleton]
    exact h.taken k' ((htaken k').mp hk')
  · intro k' hk'
    rw [hval]
    exact h.refused k' fun ha => hk' ((htaken k').mpr ha)

theorem KeepsTaken.write (h : KeepsTaken M shard ops) (k : K) (v : V) :
    KeepsTaken M shard (ops ++ [.write k v]) := by
  have hother : ∀ k' ≠ k, (Taken M shard (ops ++ [.write k v]) k' ↔ Taken M shard ops k') :=
    fun k' hk' => (taken_append_singleton ops (.write k v) k').trans
      (or_iff_left fun hw => hk' (Option.some.inj hw.1).symm)
  have hself : Taken M shard (ops ++ [.write k v]) k ↔
      M.Takes (serveAll M.toBoundedMap shard ops (shard k)) k := by
    rw [taken_append_singleton]
    exact ⟨fun hk => hk.elim h.takes And.right, fun hk => Or.inr ⟨rfl, hk⟩⟩
  constructor
  · intro k' hk'
    rw [serveAll_append_singleton, lastWrite_append_singleton, Op.effect]
    rcases eq_or_ne k' k with rfl | hne
    · rw [value, serve_write_self, M.get_put_of_takes _ _ _ (hself.mp hk'), Function.update_self,
        Function.update_self]
    · rw [value_serve_write_of_ne _ v hne, Function.update_of_ne hne]
      exact h.taken k' ((hother k' hne).mp hk')
  · intro k' hk'
    rw [serveAll_append_singleton]
    rcases eq_or_ne k' k with rfl | hne
    · have hnot := fun htakes => hk' (hself.mpr htakes)
      rw [value, serve_write_self, M.get_put_of_not _ _ _ hnot]
      exact h.refused k' fun ha => hnot (h.takes ha)
    · rw [value_serve_write_of_ne _ v hne]
      exact h.refused k' fun ha => hk' ((hother k' hne).mpr ha)

theorem keepsTaken (ops : List (Op K V)) : KeepsTaken M shard ops := by
  induction ops using List.reverseRecOn with
  | nil => exact ⟨fun k hk => (not_taken_nil k hk).elim, fun k _ => M.get_empty k⟩
  | append_singleton ops op ih =>
    cases op with
    | read k => exact ih.read k
    | write k v => exact ih.write k v

/-- Beyond the capacity of a map some written key was never taken. -/
theorem exists_not_taken {i : ι} (h : capacity < (share shard (writtenKeys ops) i).card) :
    ∃ k ∈ writtenKeys ops, ¬ Taken M shard ops k := by
  by_contra! hall
  refine absurd (card_share_le (S := serveAll M.toBoundedMap shard ops) (fun k hk => ?_) i)
    (Nat.not_le.mpr h)
  rw [(keepsTaken ops).taken k (hall k hk)]
  exact lastWrite_isSome.mpr hk

end Refusing

variable (shard) in
/-- A value that a lookup finds is the latest one written. -/
def NeverStale {M : BoundedMap K V capacity} (ops : List (Op K V)) (S : ι → M.State) : Prop :=
  ∀ k v, value M shard S k = some v → lastWrite ops k = some v

section NeverStale

variable {M : EvictingMap K V capacity} {ops : List (Op K V)} {S : ι → M.State}

theorem NeverStale.serve (h : NeverStale (M := M.toBoundedMap) shard ops S) (op : Op K V) :
    NeverStale (M := M.toBoundedMap) shard (ops ++ [op]) (serve M.toBoundedMap shard S op) := by
  intro k' v' hv'
  rw [lastWrite_append_singleton]
  cases op with
  | read k =>
    rw [value, get_serve_read] at hv'
    exact h k' v' hv'
  | write k v =>
    rw [Op.effect]
    rcases eq_or_ne k' k with rfl | hne
    · rw [value, serve_write_self, M.get_put_self] at hv'
      rw [Function.update_self, hv']
    · rw [Function.update_of_ne hne]
      refine h k' v' ?_
      unfold value at hv' ⊢
      rcases eq_or_ne (shard k') (shard k) with hs | hs
      · rw [hs, serve_write_self] at hv'
        rcases M.get_put_of_ne (S (shard k)) k v k' hne with heq | hnone
        · rwa [heq, ← hs] at hv'
        · rw [hnone] at hv'
          cases hv'
      · rwa [serve_write_of_ne S v hs] at hv'

theorem neverStale_serveAll (ops : List (Op K V)) :
    NeverStale (M := M.toBoundedMap) shard ops (serveAll M.toBoundedMap shard ops) := by
  induction ops using List.reverseRecOn with
  | nil =>
    intro k v hv
    rw [value, serveAll, List.foldl_nil, M.get_empty] at hv
    cases hv
  | append_singleton ops op ih =>
    rw [serveAll_append_singleton]
    exact ih.serve op

/-- A value stays until its map takes another write. -/
theorem value_foldl_of_untouched {rest : List (Op K V)} {k : K} (S : ι → M.State)
    (h : ∀ op ∈ rest, ∀ k', op.written = some k' → shard k' ≠ shard k) :
    value M.toBoundedMap shard (rest.foldl (BoundedMaps.serve M.toBoundedMap shard) S) k =
      value M.toBoundedMap shard S k := by
  induction rest generalizing S with
  | nil => rfl
  | cons op rest ih =>
    obtain ⟨hop, hrest⟩ := List.forall_mem_cons.mp h
    rw [List.foldl_cons, ih _ hrest]
    unfold value
    cases op with
    | read k' => rw [get_serve_read]
    | write k' v => rw [serve_write_of_ne S v (hop k' rfl).symm]

theorem value_latest (history : List (Op K V)) (k : K) (v : V) {rest : List (Op K V)}
    (h : ∀ op ∈ rest, ∀ k', op.written = some k' → shard k' ≠ shard k) :
    value M.toBoundedMap shard
      (serveAll M.toBoundedMap shard (history ++ .write k v :: rest)) k = some v := by
  rw [serveAll, List.foldl_append, List.foldl_cons, value_foldl_of_untouched _ h, value,
    serve_write_self, M.get_put_self]

end NeverStale

end BoundedMaps

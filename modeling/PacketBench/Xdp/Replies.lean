import PacketBench.Xdp.Apps

/-! # Bounds and replies of the XDP programs

No program touches a byte outside its frame. Whether the headers are exchanged
follows the verdict, except where `ping_pong` hands a short frame on to the
stack.
-/

namespace PacketBench.Xdp

open Bytes PktM

variable {L : LruHash} {H : FilterHash} {arrival processed : Instant} {f : Frame} {app : App}
  {s : app.Store L H} {v : Verdict} {m : Mem}

theorem process_in_bounds (L : LruHash) (H : FilterHash) (arrival processed : Instant) (app : App)
    (s : app.Store L H) (f : Frame) :
    (handle (app.process L H arrival processed) s f).2.reach ≤ f.len := by
  obtain ⟨v, m, t, hyields, -⟩ := ends_process arrival processed f app s
  exact hyields.exec_start.2.2.2

/-- The headers are exchanged in a reply and as received in any other frame. -/
structure SwapFollowsVerdict (f : Frame) (v : Verdict) (g : Frame) : Prop where
  swapped : v = .tx → AddressesSwapped f g
  kept : v ≠ .tx → AddressesKept f g

theorem swapFollowsVerdict_tx {g : Frame} (h : AddressesSwapped f g) :
    SwapFollowsVerdict f .tx g := ⟨fun _ => h, fun hv => absurd rfl hv⟩

theorem swapFollowsVerdict_of_ne {g : Frame} (hv : v ≠ .tx) (h : ∀ a < 38, g.mem a = f.mem a) :
    SwapFollowsVerdict f v g := ⟨fun htx => absurd htx hv, fun _ => addressesKept_of_eq h⟩

theorem Regular.swapFollowsVerdict (h : Regular f v m) : SwapFollowsVerdict f v ⟨f.len, m⟩ := by
  cases h with
  | kept hv => exact swapFollowsVerdict_of_ne hv fun a _ => rfl
  | refreshed hv hp =>
    refine swapFollowsVerdict_of_ne hv fun a ha => ?_
    exact (freshCheck_apply_of_lt (by omega)).trans (hp a (by omega))
  | returned => exact swapFollowsVerdict_tx (addressesSwapped_of_eq (fun _ _ => rfl) fun _ _ => rfl)
  | answered hp _ =>
    refine swapFollowsVerdict_tx (addressesSwapped_of_eq (fun a ha => ?_) fun _ _ => rfl)
    exact (freshCheck_apply_of_lt (by omega)).trans (hp a ha)
  | replied hp =>
    refine swapFollowsVerdict_tx (addressesSwapped_of_eq (fun _ _ => rfl) fun a ha => ?_)
    exact (freshCheck_apply_of_lt (by omega)).trans (hp a ha)

theorem not_reverses_of_unrefreshed (h : app.unrefreshed arrival processed f s = some m) :
    ¬ app.Reverses f := by
  rintro ⟨rfl, -⟩
  cases h

theorem Exit.swapFollowsVerdict_iff (h : Exit L H arrival processed f app s v m) :
    SwapFollowsVerdict f v ⟨f.len, m⟩ ↔ ¬ app.Reverses f ∨ AddressesSwapped f f := by
  cases h with
  | regular _ hr h => exact iff_of_true h.swapFollowsVerdict (Or.inl hr)
  | written hw hm =>
    exact iff_of_true (swapFollowsVerdict_of_ne (by decide) fun a ha => hm a (by omega))
      (Or.inl (not_reverses_of_unrefreshed hw))
  | reversed hr =>
    have hswap : AddressesSwapped f ⟨f.len, swapHeaders f.mem⟩ :=
      addressesSwapped_of_eq (fun _ _ => rfl) fun _ _ => rfl
    rw [or_iff_right (not_not.mpr hr), ← hswap.kept_iff]
    exact ⟨fun h => h.kept (by decide), fun h => ⟨fun hv => absurd hv (by decide), fun _ => h⟩⟩

/-- The exchange follows the verdict except for a short datagram in `ping_pong`, where it shows
unless both ends of the datagram have the same addresses and ports. -/
theorem swap_follows_verdict_iff (L : LruHash) (H : FilterHash) (arrival processed : Instant)
    (app : App) (s : app.Store L H) (f : Frame) :
    SwapFollowsVerdict f (handle (app.process L H arrival processed) s f).1
      (handle (app.process L H arrival processed) s f).2.frame ↔
        ¬ (app = .pingPong ∧ IsUdp f ∧ f.len < 58) ∨ AddressesSwapped f f := by
  obtain ⟨v, m, t, hyields, hexit⟩ := ends_process arrival processed f app s
  obtain ⟨hv, hm, -, -⟩ := hyields.exec_start
  rw [handle, hv, hm, hexit.swapFollowsVerdict_iff, App.Reverses, not_le]

/-- A datagram of two bytes is handed on with the addresses of a reply. -/
theorem not_swap_follows_verdict_carryFrame :
    (handle (pingPong ⟨0, 0⟩ ⟨0, 0⟩) () carryFrame).1 = .pass ∧
    ¬ SwapFollowsVerdict carryFrame (handle (pingPong ⟨0, 0⟩ ⟨0, 0⟩) () carryFrame).1
      (handle (pingPong ⟨0, 0⟩ ⟨0, 0⟩) () carryFrame).2.frame := by
  have hyields : (pingPong ⟨0, 0⟩ ⟨0, 0⟩).Yields carryFrame () .pass (swapHeaders carryFrame.mem)
      () := yields_pingPong_of_short (by decide) (by decide)
  obtain ⟨hv, hm, -, -⟩ := hyields.exec_start
  rw [handle, hv, hm]
  refine ⟨rfl, fun h => absurd (h.kept (by decide)).src_port ?_⟩
  decide

end PacketBench.Xdp

import PacketBench.Dpdk.Echo
import PacketBench.Xdp.Replies

/-! # Frames on their way

A frame may go through any number of hosts, each of which runs one of the XDP
programs or of the DPDK programs that answer. Its length and the fields of its
headers stay as they are, except that every reply exchanges the two ends. So
whatever the hosts do, the frame is one between the same two ends.
-/

namespace PacketBench.Compare

open Bytes PktM

/-- The bytes of the headers that a reply exchanges, exchanged or not. -/
structure SameHeaders (exchanged : Bool) (f g : Frame) : Prop where
  len : g.len = f.len
  mem : ∀ a < 38, g.mem a = if exchanged then swapHeaders f.mem a else f.mem a

namespace SameHeaders

variable {f g h : Frame} {e e' : Bool}

theorem refl (f : Frame) : SameHeaders false f f := ⟨rfl, fun _ _ => rfl⟩

theorem trans (hfg : SameHeaders e f g) (hgh : SameHeaders e' g h) :
    SameHeaders (e ^^ e') f h := by
  refine ⟨hgh.len.trans hfg.len, fun a ha => ?_⟩
  rw [hgh.mem a ha]
  cases e' with
  | false => simpa using hfg.mem a ha
  | true =>
    have hswap : swapHeaders g.mem a =
        swapHeaders (fun c => if e then swapHeaders f.mem c else f.mem c) a :=
      swapHeaders_congr hfg.mem a ha
    rw [if_pos rfl, hswap]
    cases e with
    | false => rfl
    | true => exact congrFun (swapHeaders_swapHeaders f.mem) a

theorem load (hfg : SameHeaders e f g) {off n : ℕ} (h : 12 ≤ off) (h' : off + n / 8 ≤ 26) :
    g.mem.load off n = f.mem.load off n := by
  cases e with
  | false => exact Mem.load_congr fun i hi => hfg.mem _ (by omega)
  | true =>
    rw [← load_swapHeaders (m := f.mem) (Or.inl ⟨h, h'⟩)]
    exact Mem.load_congr fun i hi => hfg.mem _ (by omega)

end SameHeaders

instance (app : Xdp.App) : DecidablePred app.Reverses := fun f =>
  inferInstanceAs (Decidable (app = .pingPong ∧ Xdp.IsUdp f ∧ ¬ 58 ≤ f.len))

/-- A host when the frame comes, with what its program keeps and what its clocks show. -/
inductive Host where
  | xdp (L : Xdp.LruHash) (H : Xdp.FilterHash) (arrival processed : Xdp.Instant) (app : Xdp.App)
    (s : app.Store L H)
  | dpdk (H : Dpdk.RteHash) (rteIpv4UdptcpCksum : Dpdk.Cksum) (app : Dpdk.EchoApp)
    (s : app.Store H)

namespace Host

def forward : Host → Frame → Frame
  | xdp L H arrival processed app s, f =>
    (Xdp.handle (app.process L H arrival processed) s f).2.frame
  | dpdk H rteIpv4UdptcpCksum app s, f =>
    ((app.process H rteIpv4UdptcpCksum).exec (Run.start f s)).2.frame

/-- The host exchanges the ends: it replies, or it is `ping_pong` with a short frame. -/
def Exchanges : Host → Frame → Prop
  | xdp L H arrival processed app s, f =>
    (Xdp.handle (app.process L H arrival processed) s f).1 = .tx ∨ app.Reverses f
  | dpdk _ _ _ _, f => Dpdk.Accepted f

instance : (h : Host) → DecidablePred h.Exchanges
  | xdp L H arrival processed app s, f => inferInstanceAs (Decidable
      ((Xdp.handle (app.process L H arrival processed) s f).1 = .tx ∨ app.Reverses f))
  | dpdk _ _ _ _, f => inferInstanceAs (Decidable (Dpdk.Accepted f))

end Host

theorem sameHeaders_of_swapped {f : Frame} {m : Mem} (h : ∀ a < 38, m a = swapHeaders f.mem a) :
    SameHeaders true f ⟨f.len, m⟩ := ⟨rfl, h⟩

theorem sameHeaders_of_kept {f : Frame} {m : Mem} (h : ∀ a < 38, m a = f.mem a) :
    SameHeaders false f ⟨f.len, m⟩ := ⟨rfl, h⟩

section Hosts

variable {f : Frame} {v : Xdp.Verdict} {m : Mem}

theorem sameHeaders_of_regular (h : Xdp.Regular f v m) :
    SameHeaders (v = .tx) f ⟨f.len, m⟩ := by
  cases h with
  | kept hv =>
    rw [decide_eq_false hv]
    exact sameHeaders_of_kept fun _ _ => rfl
  | refreshed hv hp =>
    rw [decide_eq_false hv]
    apply sameHeaders_of_kept
    intro a ha
    exact (Xdp.freshCheck_apply_of_lt (by omega)).trans (hp a (by omega))
  | returned => exact sameHeaders_of_swapped fun _ _ => rfl
  | answered hp =>
    apply sameHeaders_of_swapped
    apply swapHeaders_congr
    intro a ha
    exact (Xdp.freshCheck_apply_of_lt (by omega)).trans (hp a ha)
  | replied hp =>
    apply sameHeaders_of_swapped
    intro a ha
    exact (Xdp.freshCheck_apply_of_lt (by omega)).trans (hp a ha)

theorem sameHeaders_of_exit {L : Xdp.LruHash} {H : Xdp.FilterHash} {arrival processed : Xdp.Instant}
    {app : Xdp.App} {s : app.Store L H} (h : Xdp.Exit L H arrival processed f app s v m) :
    SameHeaders (v = .tx ∨ app.Reverses f) f ⟨f.len, m⟩ := by
  cases h with
  | regular _ hr hregular => simpa [hr] using sameHeaders_of_regular hregular
  | written hw hm =>
    simpa [Xdp.not_reverses_of_unrefreshed hw] using
      sameHeaders_of_kept fun a ha => hm a (by omega)
  | reversed hr => simpa [hr] using sameHeaders_of_swapped fun _ _ => rfl

theorem sameHeaders_of_sendBack (rteIpv4UdptcpCksum : Dpdk.Cksum) (h : ∀ a < 38, m a = f.mem a) :
    SameHeaders true f ⟨f.len, Dpdk.sendBack rteIpv4UdptcpCksum f.len m⟩ := by
  apply sameHeaders_of_swapped
  intro a ha
  simp only [Dpdk.sendBack]
  rw [Mem.store_apply_of_outside _ (by omega), Mem.store_apply_of_outside _ (by omega)]
  exact swapHeaders_congr h a ha

section Accepted

variable (rteIpv4UdptcpCksum : Dpdk.Cksum) (hacc : Dpdk.Accepted f)

include hacc

theorem sameHeaders_pingpong (s : Unit) :
    SameHeaders true f (Dpdk.pingpong.exec (Run.start f s)).2.frame := by
  unfold Dpdk.pingpong
  rw [Dpdk.exec_classify rfl, Run.start_frame, if_pos hacc]
  exact sameHeaders_of_swapped fun _ _ => rfl

theorem sameHeaders_kvstore {H : Dpdk.RteHash} (s : Dpdk.Cache H) : SameHeaders true f
    ((Dpdk.kvstore H rteIpv4UdptcpCksum).exec (Run.start f s)).2.frame := by
  rw [Dpdk.exec_kvstore_of_accepted rteIpv4UdptcpCksum (r := Run.start f s) hacc]
  apply sameHeaders_of_sendBack
  intro a ha
  rcases eq_or_ne (f.word 0) 0 with hflag | hflag
  · rw [Run.start_frame, Dpdk.answer_of_read hflag, Mem.store_apply_of_outside _ (by omega)]
  · rw [Run.start_frame, Dpdk.answer_of_write hflag]

theorem sameHeaders_zuc (s : Dpdk.ZucStore) : SameHeaders true f
    ((Dpdk.zuc rteIpv4UdptcpCksum).exec (Run.start f s)).2.frame := by
  rw [Dpdk.exec_zuc_of_accepted (r := Run.start f s) hacc]
  apply sameHeaders_of_sendBack
  intro a ha
  exact Dpdk.encrypted_apply_of_lt _ _ _ (by omega)

end Accepted

theorem sameHeaders_of_accepted (H : Dpdk.RteHash) (rteIpv4UdptcpCksum : Dpdk.Cksum)
    (hacc : Dpdk.Accepted f) : (app : Dpdk.EchoApp) → (s : app.Store H) →
      SameHeaders true f ((app.process H rteIpv4UdptcpCksum).exec (Run.start f s)).2.frame
  | .pingpong, s => sameHeaders_pingpong hacc s
  | .kvstore, s => sameHeaders_kvstore rteIpv4UdptcpCksum hacc s
  | .zuc, s => sameHeaders_zuc rteIpv4UdptcpCksum hacc s

end Hosts

theorem sameHeaders_forward : (h : Host) → (f : Frame) →
    SameHeaders (h.Exchanges f) f (h.forward f)
  | .xdp L H arrival processed app s, f => by
    obtain ⟨v, m, t, hyields, hexit⟩ := Xdp.ends_process arrival processed f app s
    obtain ⟨hv, hm, -, -⟩ := hyields.exec_start
    have hframe : (Host.xdp L H arrival processed app s).forward f = ⟨f.len, m⟩ := hm
    have hexchanges : (Host.xdp L H arrival processed app s).Exchanges f ↔
        v = .tx ∨ app.Reverses f := by
      rw [← hv]
      rfl
    rw [hframe, decide_eq_decide.mpr hexchanges]
    exact sameHeaders_of_exit hexit
  | .dpdk H rteIpv4UdptcpCksum app s, f => by
    by_cases hacc : Dpdk.Accepted f
    · have hexchanges : (Host.dpdk H rteIpv4UdptcpCksum app s).Exchanges f := hacc
      rw [decide_eq_true hexchanges]
      exact sameHeaders_of_accepted H rteIpv4UdptcpCksum hacc app s
    · have hkept : (Host.dpdk H rteIpv4UdptcpCksum app s).forward f = f :=
        (Dpdk.echoes_process H rteIpv4UdptcpCksum app s ⟨1, one_ne_zero, f⟩).unchanged hacc
      have hexchanges : ¬ (Host.dpdk H rteIpv4UdptcpCksum app s).Exchanges f := hacc
      rw [decide_eq_false hexchanges, hkept]
      exact SameHeaders.refl f

def travel (hosts : List Host) (f : Frame) : Frame := hosts.foldl (fun f h => h.forward f) f

/-- How many of the hosts exchange the ends. -/
def exchanges : List Host → Frame → ℕ
  | [], _ => 0
  | h :: hosts, f => (if h.Exchanges f then 1 else 0) + exchanges hosts (h.forward f)

theorem sameHeaders_travel (hosts : List Host) (f : Frame) :
    SameHeaders (Odd (exchanges hosts f)) f (travel hosts f) := by
  induction hosts generalizing f with
  | nil => exact SameHeaders.refl f
  | cons h hosts ih =>
    have hstep := (sameHeaders_forward h f).trans (ih (h.forward f))
    have hodd : decide (Odd (exchanges (h :: hosts) f)) =
        (decide (h.Exchanges f) ^^ decide (Odd (exchanges hosts (h.forward f)))) := by
      rw [exchanges]
      by_cases he : h.Exchanges f
      · rw [if_pos he, decide_eq_true he, Bool.true_xor, ← decide_not, decide_eq_decide,
          Nat.not_odd_iff_even, Nat.odd_add']
        simp
      · simp [he]
    rw [hodd]
    exact hstep

/-- What a frame keeps on its way. -/
structure KeepsEnds (hosts : List Host) (f g : Frame) : Prop where
  len : g.len = f.len
  fields : ∀ off n, 12 ≤ off → off + n / 8 ≤ 26 → g.mem.load off n = f.mem.load off n
  kept : Even (exchanges hosts f) → AddressesKept f g
  swapped : Odd (exchanges hosts f) → AddressesSwapped f g

/-- Whatever hosts a frame passes, it keeps its length, the fields in front of its addresses and its
two ends, which are exchanged when the number of exchanges is odd. -/
theorem keepsEnds_travel (hosts : List Host) (f : Frame) :
    KeepsEnds hosts f (travel hosts f) := by
  have hsame := sameHeaders_travel hosts f
  constructor
  · exact hsame.len
  · exact fun off n h h' => hsame.load h h'
  · intro heven
    rw [decide_eq_false (Nat.not_odd_iff_even.mpr heven)] at hsame
    exact addressesKept_of_eq hsame.mem
  · intro hodd
    rw [decide_eq_true hodd] at hsame
    exact addressesSwapped_of_eq (fun _ _ => rfl) hsame.mem

end PacketBench.Compare

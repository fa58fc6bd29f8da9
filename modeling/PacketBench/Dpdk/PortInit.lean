import Mathlib.Data.BitVec
import Mathlib.Data.List.Basic

/-! # The configuration of the ports

`port_init` copies the global configuration, sets the global to zero, adjusts
the copy to the device and configures the port with the global. So every port
is configured with zeros, and from the second port on even the copy is one of
zeros.
-/

namespace PacketBench.Dpdk

structure EthFlags where
  mqRxNone : BitVec 32
  mqRxRss : BitVec 32
  mqTxNone : BitVec 32
  rxOffloadChecksum : BitVec 64
  rssIp : BitVec 64
  txOffloadMbufFastFree : BitVec 64
  /-- The flag stands for three checksums. -/
  rxOffloadChecksum_ne : rxOffloadChecksum ≠ 0

/-- The fields of `rte_eth_conf` that the template sets or a device adjusts; all others stay 0. -/
structure EthConf where
  rxMqMode : BitVec 32
  splitHdrSize : BitVec 16
  rxOffloads : BitVec 64
  rssKey : BitVec 64
  rssHf : BitVec 64
  txMqMode : BitVec 32
  txOffloads : BitVec 64
  deriving DecidableEq, Repr

/-- What `memset` leaves. -/
def EthConf.zero : EthConf := ⟨0, 0, 0, 0, 0, 0, 0⟩

structure DevInfo where
  txOffloadCapa : BitVec 64
  flowTypeRssOffloads : BitVec 64
  maxRxQueues : BitVec 16
  deriving DecidableEq, Repr

/-- How the library answers for a port. -/
structure Device where
  isValidPort : Bool
  infoGet : Int × DevInfo
  configure : BitVec 16 → BitVec 16 → EthConf → Int
  adjustNbRxTxDesc : BitVec 16 → BitVec 16 → Int × BitVec 16 × BitVec 16
  rxQueueSetup : BitVec 16 → ℕ → Int
  /-- With the default configuration of the device but for the offloads. -/
  txQueueSetup : BitVec 16 → BitVec 64 → ℕ → Int
  start : Int
  macaddrGet : Int
  promiscuousEnable : Int

/-- A call of `rte_eth_dev_configure`: the description of the device, the local copy and what is
passed. -/
structure Configured where
  devInfo : DevInfo
  localPortConf : EthConf
  passed : EthConf
  deriving DecidableEq, Repr

structure Globals where
  portConf : EthConf
  configured : List Configured

def rxRingSize : BitVec 16 := 1024
def txRingSize : BitVec 16 := 1024

section

variable (E : EthFlags) (coreQueNr : BitVec 16)

/-- The initial value of `port_conf` in `helpers.h`. -/
def template : EthConf where
  rxMqMode := E.mqRxRss
  splitHdrSize := 0
  rxOffloads := E.rxOffloadChecksum
  rssKey := 0
  rssHf := E.rssIp
  txMqMode := E.mqTxNone
  txOffloads := 0

def adjust (devInfo : DevInfo) (conf : EthConf) : EthConf :=
  let conf :=
    if devInfo.txOffloadCapa &&& E.txOffloadMbufFastFree ≠ 0 then
      { conf with txOffloads := conf.txOffloads ||| E.txOffloadMbufFastFree }
    else conf
  let conf := { conf with rssHf := conf.rssHf &&& devInfo.flowTypeRssOffloads }
  if devInfo.maxRxQueues = 1 then { conf with rxMqMode := E.mqRxNone } else conf

def firstNegative (setup : ℕ → Int) : Option Int :=
  ((List.range coreQueNr.toNat).map setup).find? (· < 0)

/-- What `port_init` returns from the configuration of the device on. -/
def bringUp (d : Device) (portConf : EthConf) : Int :=
  let retval := d.configure coreQueNr coreQueNr portConf
  if retval ≠ 0 then retval else
  let (retval, nbRxd, nbTxd) := d.adjustNbRxTxDesc rxRingSize txRingSize
  if retval ≠ 0 then retval else
  match firstNegative coreQueNr (d.rxQueueSetup nbRxd) with
  | some retval => retval
  | none =>
    match firstNegative coreQueNr (d.txQueueSetup nbTxd portConf.txOffloads) with
    | some retval => retval
    | none =>
      if d.start < 0 then d.start
      else if d.macaddrGet ≠ 0 then d.macaddrGet
      else d.promiscuousEnable

def portInit (d : Device) (g : Globals) : Int × Globals :=
  let localPortConf := g.portConf
  if ¬ d.isValidPort then (-1, g) else
  let g := { g with portConf := .zero }
  let (retval, devInfo) := d.infoGet
  if retval ≠ 0 then (retval, g) else
  let localPortConf := adjust E devInfo localPortConf
  -- the argument is the global, not the copy that was adjusted
  let g := { g with configured := g.configured ++ [⟨devInfo, localPortConf, g.portConf⟩] }
  (bringUp coreQueNr d g.portConf, g)

def initPorts : List Device → Globals → Globals
  | [], g => g
  | d :: ds, g =>
    let (retval, g) := portInit E coreQueNr d g
    if retval ≠ 0 then g else initPorts ds g

def Globals.start : Globals := ⟨template E, []⟩

/-- A port that `port_init` comes to configure. -/
def Device.Described (d : Device) : Prop := d.isValidPort ∧ d.infoGet.1 = 0

instance (d : Device) : Decidable d.Described :=
  inferInstanceAs (Decidable (d.isValidPort = true ∧ d.infoGet.1 = 0))

theorem portInit_of_described {d : Device} (h : d.Described) (g : Globals) :
    (portInit E coreQueNr d g).2 =
      ⟨.zero, g.configured ++ [⟨d.infoGet.2, adjust E d.infoGet.2 g.portConf, .zero⟩]⟩ := by
  unfold portInit
  rw [if_neg (not_not.mpr h.1)]
  dsimp only
  rw [if_neg (not_not.mpr h.2)]

theorem portInit_of_not_described {d : Device} (h : ¬ d.Described) (g : Globals) :
    (portInit E coreQueNr d g).1 ≠ 0 ∧
      (portInit E coreQueNr d g).2.configured = g.configured := by
  unfold portInit
  by_cases hvalid : d.isValidPort
  · have hinfo : d.infoGet.1 ≠ 0 := fun hinfo => h ⟨hvalid, hinfo⟩
    rw [if_neg (not_not.mpr hvalid)]
    dsimp only
    rw [if_pos hinfo]
    exact ⟨hinfo, rfl⟩
  · rw [if_pos hvalid]
    exact ⟨(by decide : (-1 : Int) ≠ 0), rfl⟩

/-- A call for a port after the first: zeros are passed, and the local copy is made of zeros. -/
structure OfZero (E : EthFlags) (c : Configured) : Prop where
  passed : c.passed = .zero
  localPortConf : c.localPortConf = adjust E c.devInfo .zero

theorem initPorts_of_zero (ds : List Device) {g : Globals} (hg : g.portConf = .zero) :
    ∃ cs, (initPorts E coreQueNr ds g).configured = g.configured ++ cs ∧ ∀ c ∈ cs, OfZero E c := by
  induction ds generalizing g with
  | nil => exact ⟨[], (List.append_nil _).symm, List.forall_mem_nil _⟩
  | cons d ds ih =>
    rw [initPorts]
    dsimp only
    by_cases h : d.Described
    · have hd := portInit_of_described E coreQueNr h g
      rw [hg] at hd
      have hc : OfZero E ⟨d.infoGet.2, adjust E d.infoGet.2 .zero, .zero⟩ := ⟨rfl, rfl⟩
      split_ifs
      · exact ⟨_, congrArg Globals.configured hd, List.forall_mem_singleton.mpr hc⟩
      · obtain ⟨cs, hcs, hall⟩ := ih (congrArg Globals.portConf hd)
        refine ⟨_ :: cs, ?_, List.forall_mem_cons.mpr ⟨hc, hall⟩⟩
        rw [hcs, congrArg Globals.configured hd, List.append_assoc, List.singleton_append]
    · obtain ⟨hexit, hnone⟩ := portInit_of_not_described E coreQueNr h g
      rw [if_pos hexit, hnone]
      exact ⟨[], (List.append_nil _).symm, List.forall_mem_nil _⟩

theorem configured_initPorts (ds : List Device) :
    (∀ d ∈ ds.head?, ¬ d.Described) ∧
        (initPorts E coreQueNr ds (.start E)).configured = [] ∨
      ∃ d ∈ ds.head?, d.Described ∧ ∃ cs,
        (initPorts E coreQueNr ds (.start E)).configured =
          ⟨d.infoGet.2, adjust E d.infoGet.2 (template E), .zero⟩ :: cs ∧
            ∀ c ∈ cs, OfZero E c := by
  cases ds with
  | nil => exact Or.inl ⟨fun d hd => absurd hd (Option.not_mem_none d), rfl⟩
  | cons d ds =>
    rw [initPorts]
    dsimp only
    by_cases h : d.Described
    · have hd := portInit_of_described E coreQueNr h (.start E)
      refine Or.inr ⟨d, rfl, h, ?_⟩
      split_ifs
      · exact ⟨[], congrArg Globals.configured hd, List.forall_mem_nil _⟩
      · obtain ⟨cs, hcs, hall⟩ := initPorts_of_zero E coreQueNr ds
          (congrArg Globals.portConf hd)
        exact ⟨cs, hcs.trans (by rw [congrArg Globals.configured hd]; rfl), hall⟩
    · obtain ⟨hexit, hnone⟩ :=
        portInit_of_not_described E coreQueNr h (.start E)
      rw [if_pos hexit]
      exact Or.inl ⟨fun d' hd' => Option.some.inj hd' ▸ h, hnone⟩

/-- Each call gets the template as adjusted to its own device. -/
def PassesAdjusted (ds : List Device) : Prop :=
  ∀ c ∈ (initPorts E coreQueNr ds (.start E)).configured, c.passed = adjust E c.devInfo (template E)

theorem adjust_template_ne_zero (devInfo : DevInfo) : adjust E devInfo (template E) ≠ .zero := by
  intro h
  have hoffloads : (adjust E devInfo (template E)).rxOffloads = E.rxOffloadChecksum := by
    unfold adjust
    split_ifs <;> rfl
  exact E.rxOffloadChecksum_ne (hoffloads ▸ congrArg EthConf.rxOffloads h)

/-- No call gets the adjusted template: it is right only when `main` exits before the first one. -/
theorem passesAdjusted_iff (ds : List Device) :
    PassesAdjusted E coreQueNr ds ↔ ∀ d ∈ ds.head?, ¬ d.Described := by
  rcases configured_initPorts E coreQueNr ds with
    ⟨hnone, hnil⟩ | ⟨d, hd, hdescribed, cs, hcs, -⟩
  · refine ⟨fun _ => hnone, fun _ c hc => ?_⟩
    rw [hnil] at hc
    exact absurd hc List.not_mem_nil
  · refine ⟨fun h => ?_, fun h => absurd hdescribed (h d hd)⟩
    have hfirst := h _ (hcs ▸ List.mem_cons_self)
    exact absurd hfirst.symm (adjust_template_ne_zero E d.infoGet.2)

end

def rteEthFlags : EthFlags := ⟨0, 1, 0, 0xE, 0xA38C, 0x10000, by decide⟩

/-- A port with eight queues that all calls succeed for. -/
def readyDevice : Device :=
  ⟨true, (0, ⟨0x10000, 0xA38C, 8⟩), fun _ _ _ => 0, fun nbRxd nbTxd => (0, nbRxd, nbTxd),
    fun _ _ => 0, fun _ _ _ => 0, 0, 0, 0⟩

theorem not_passesAdjusted : ¬ PassesAdjusted rteEthFlags 1 [readyDevice] := by
  intro h
  have hconfigured : (initPorts rteEthFlags 1 [readyDevice] (.start rteEthFlags)).configured =
      [⟨readyDevice.infoGet.2, ⟨1, 0, 0xE, 0, 0xA38C, 0, 0x10000⟩, .zero⟩] := by decide
  have hpassed := h _ (hconfigured ▸ List.mem_singleton_self _)
  revert hpassed
  decide

end PacketBench.Dpdk

import Mathlib.Logic.Basic

/-!
# `Stacklets.Gem5.Interrupts`: the local interrupt controller with user-level interrupts

The simulator's local interrupt controller (`X86ISA::Interrupts`) with the additions for
user-level interrupts (ULIs). A ULI does not go through the request register. It is a node in
`uliQueue`, and the flag `pendingULI` says that there is something to deliver.

Four functions act on the controller, and they are translated here one by one:

* `requestInterrupt` records an arriving interrupt;
* `checkInterrupts` says whether the CPU has to stop for one;
* `getInterrupt` makes the fault object of the most urgent one. For a ULI it also takes the
  node out of the queue;
* `updateIntrInfo` clears the flag of the most urgent one. For a ULI it first looks at `CR3`
  and `CS`, and refuses with `-1`.

An `assert` or a `panic` of the simulator ends the simulation. The functions that contain one
return `Except Abort`.

The last part says once what `getInterrupt` and `updateIntrInfo` can do
(`getInterrupt_cases`, `updateIntrInfo_cases`). The other modules use only these two lemmas and
the ones about `requestInterrupt`.
-/

set_option autoImplicit false

namespace Stacklets.Gem5

/-! ### Data -/

/-- A message of `stacklet_sendi`. `sender` is the `CR3` value at the time of the send. It is
a ghost field: no function of the simulator reads it. -/
structure StackletMessage where
  callback : UInt64
  p : UInt64
  sender : Option UInt64
deriving DecidableEq

/-- What `operator[]` of the message map gives at a key that was never written. -/
def StackletMessage.zero : StackletMessage := ⟨0, 0, none⟩

/-- An entry of the ULI queue, with the sender of its message as ghost field. -/
structure UliNode where
  mask : UInt8
  packetAddress : UInt64
  uliHandlerPc : UInt64
  sender : Option UInt64
deriving DecidableEq

inductive DeliveryMode where
  | fixed | lowestPriority | smi | uli | nmi | init | sipi | extInt
deriving DecidableEq

/-- The fault objects of the controller. `NoFault` is `none : Option Fault`. -/
inductive Fault where
  | systemManagementInterrupt
  | nonMaskableInterrupt (vector : UInt8)
  | initInterrupt (vector : UInt8)
  | startupInterrupt (vector : UInt8)
  | uli (node : UliNode)
  | externalInterrupt (vector : UInt8)
deriving DecidableEq

/-- The places where the simulation stops: the `assert` of `getInterrupt` and of
`updateIntrInfo`, the `panic` of `getInterrupt`, the `assert` of `processInterrupts` and the
one of `ULI::invoke`. -/
inductive Abort where
  | getInterrupt
  | updateIntrInfo
  | noUnmaskable
  | processInterrupts
  | uliInvoke
deriving DecidableEq

/-- The condition-code registers. The simulator keeps these flags apart from `MISCREG_RFLAGS`:
`zaps` has ZF, AF, PF and SF, `cfof` has CF and OF, and `df` is the direction flag. -/
structure CCRegs where
  zaps : UInt64
  cfof : UInt64
  df : UInt64
deriving DecidableEq

/-- The registers of a thread that the controller and `ULI::invoke` read or write, and the
condition codes, which they do not. -/
structure ThreadContext where
  cr3 : UInt64
  cs : UInt64
  ds : UInt64
  es : UInt64
  /-- `MISCREG_RFLAGS`: the flags that are no condition codes. -/
  rflags : UInt64
  cc : CCRegs
  pc : UInt64
  rsp : UInt64
  rdi : UInt64
  uliSP : UInt64
  savedULIPC : UInt64
  savedULISP : UInt64
  savedULIDI : UInt64
  savedULIRFLAGS : UInt64
  wasKernelMode : Bool

/-- The bit `rflags.intf`: maskable interrupts are enabled. -/
def ThreadContext.intf (tc : ThreadContext) : Bool := tc.rflags.toBitVec.getLsbD 9

/-- `getRFlags`: the register `RFLAGS` as a program sees it. -/
def ThreadContext.getRFlags (tc : ThreadContext) : UInt64 :=
  ((tc.rflags ||| tc.cc.zaps ||| tc.cc.cfof ||| tc.cc.df) &&& 0x3F7FD5) ||| 0x2

/-- The selector that `CS` holds in kernel mode. -/
def kernelCS : UInt64 := 0x10

/-- The state of a local interrupt controller. The register arrays of 8 words of 32 bits are
256-bit vectors. -/
structure Interrupts where
  taskPriority : UInt32
  interruptRequest : BitVec 256
  inService : BitVec 256
  triggerMode : BitVec 256
  irrv : UInt8
  isrv : UInt8
  pendingSmi : Bool
  smiVector : UInt8
  pendingNmi : Bool
  nmiVector : UInt8
  pendingExtInt : Bool
  extIntVector : UInt8
  pendingInit : Bool
  initVector : UInt8
  pendingStartup : Bool
  startupVector : UInt8
  pendingULI : Bool
  uliVector : UInt8
  startedUp : Bool
  pendingUnmaskableInt : Bool
  uliQueue : List UliNode

/-- The controller that the constructor makes. -/
def Interrupts.reset : Interrupts where
  taskPriority := 0
  interruptRequest := 0
  inService := 0
  triggerMode := 0
  irrv := 0
  isrv := 0
  pendingSmi := false
  smiVector := 0
  pendingNmi := false
  nmiVector := 0
  pendingExtInt := false
  extIntVector := 0
  pendingInit := false
  initVector := 0
  pendingStartup := false
  startupVector := 0
  pendingULI := false
  uliVector := 0
  startedUp := false
  pendingUnmaskableInt := false
  uliQueue := []

/-! ### Register arrays -/

def setRegArrayBit (reg : BitVec 256) (vector : UInt8) : BitVec 256 :=
  reg ||| (1#256 <<< vector.toNat)

def clearRegArrayBit (reg : BitVec 256) (vector : UInt8) : BitVec 256 :=
  reg &&& ~~~(1#256 <<< vector.toNat)

def getRegArrayBit (reg : BitVec 256) (vector : UInt8) : Bool :=
  reg.getLsbD vector.toNat

/-- The highest bit that is set, and 0 if there is none. -/
def findRegArrayMSB (reg : BitVec 256) : UInt8 := UInt8.ofNat (Nat.log2 reg.toNat)

namespace Interrupts

variable (i : Interrupts) (tc : ThreadContext) (cr3Map : UInt64 → Option UInt64)

def updateIRRV : Interrupts := { i with irrv := findRegArrayMSB i.interruptRequest }

def updateISRV : Interrupts := { i with isrv := findRegArrayMSB i.inService }

/-- A write of the end-of-interrupt register. -/
def writeEOI : Interrupts :=
  { i with inService := clearRegArrayBit i.inService i.isrv }.updateISRV

/-! ### Arrival -/

def addULI (mask : UInt8) (packetAddress uliHandlerPc : UInt64) (sender : Option UInt64) :
    Interrupts :=
  { i with uliQueue := i.uliQueue ++ [⟨mask, packetAddress, uliHandlerPc, sender⟩] }

/-- An interrupt arrives. Several arrivals of one of the modes `smi`, `nmi`, `extInt`, `init`
or `sipi` are one interrupt. Every arriving ULI makes a node of its own. -/
def requestInterrupt (msgMap : UInt64 → StackletMessage) (vector : UInt8)
    (deliveryMode : DeliveryMode) (level : Bool) (globalMessageMapKey : UInt32) : Interrupts :=
  match deliveryMode with
  | .fixed | .lowestPriority =>
    let i := if vector > i.irrv then { i with irrv := vector } else i
    if getRegArrayBit i.interruptRequest vector then i
    else
      let i := { i with interruptRequest := setRegArrayBit i.interruptRequest vector }
      if level then { i with triggerMode := setRegArrayBit i.triggerMode vector }
      else { i with triggerMode := clearRegArrayBit i.triggerMode vector }
  | .smi =>
    if i.pendingSmi then i
    else { i with pendingUnmaskableInt := true, pendingSmi := true, smiVector := vector }
  | .nmi =>
    if i.pendingNmi then i
    else { i with pendingUnmaskableInt := true, pendingNmi := true, nmiVector := vector }
  | .extInt =>
    if i.pendingExtInt then i else { i with pendingExtInt := true, extIntVector := vector }
  | .init =>
    if i.pendingInit then i
    else { i with pendingUnmaskableInt := true, pendingInit := true, initVector := vector }
  | .sipi =>
    if i.pendingStartup || i.startedUp then i
    else
      { i with pendingUnmaskableInt := true, pendingStartup := true, startupVector := vector }
  | .uli =>
    let stackletMsg := msgMap globalMessageMapKey.toUInt64
    { i with pendingUnmaskableInt := true, pendingULI := true, uliVector := vector }.addULI
      vector stackletMsg.p stackletMsg.callback stackletMsg.sender

/-! ### Delivery -/

def checkInterrupts : Bool :=
  i.pendingUnmaskableInt ||
    (tc.intf &&
      (i.pendingExtInt ||
        (decide (i.irrv > i.isrv) &&
          decide ((i.irrv >>> 4).toNat > ((i.taskPriority >>> 4) &&& 0xF).toNat))))

/-- The fault object of the most urgent interrupt. `none` is `NoFault`. -/
def getInterrupt : Except Abort (Option Fault × Interrupts) :=
  if i.checkInterrupts tc then
    if i.pendingUnmaskableInt then
      if i.pendingSmi then .ok (some .systemManagementInterrupt, i)
      else if i.pendingNmi then .ok (some (.nonMaskableInterrupt i.nmiVector), i)
      else if i.pendingInit then .ok (some (.initInterrupt i.initVector), i)
      else if i.pendingStartup then .ok (some (.startupInterrupt i.startupVector), i)
      else if i.pendingULI then
        match i.uliQueue with
        | [] => .ok (none, i)
        | node :: rest => .ok (some (.uli node), { i with uliQueue := rest })
      else .error .noUnmaskable
    else if i.pendingExtInt then .ok (some (.externalInterrupt i.extIntVector), i)
    else .ok (some (.externalInterrupt i.irrv), i)
  else .error .getInterrupt

/-- The end of the unmaskable branch of `updateIntrInfo`. -/
def updateUnmaskable : Interrupts :=
  if i.pendingSmi || i.pendingNmi || i.pendingInit || i.pendingStartup || i.pendingULI then i
  else { i with pendingUnmaskableInt := false }

/-- Clears the most urgent interrupt. The number is the result of the source's function. A ULI
is refused with `-1` if the thread's `CR3` is no key of `cr3Map`, or in kernel mode. -/
def updateIntrInfo : Except Abort (Int × Interrupts) :=
  if i.checkInterrupts tc then
    if i.pendingUnmaskableInt then
      if i.pendingSmi then .ok (0, { i with pendingSmi := false }.updateUnmaskable)
      else if i.pendingNmi then .ok (0, { i with pendingNmi := false }.updateUnmaskable)
      else if i.pendingInit then
        .ok (0, { i with pendingInit := false, startedUp := false }.updateUnmaskable)
      else if i.pendingStartup then
        .ok (0, { i with pendingStartup := false, startedUp := true }.updateUnmaskable)
      else if i.pendingULI then
        match cr3Map tc.cr3 with
        | some _ =>
          if tc.cs = kernelCS then .ok (-1, i)
          else .ok (0, { i with pendingULI := false }.updateUnmaskable)
        | none => .ok (-1, i)
      else .ok (0, i.updateUnmaskable)
    else if i.pendingExtInt then .ok (0, { i with pendingExtInt := false })
    else
      .ok (0, { i with
        isrv := i.irrv
        inService := setRegArrayBit i.inService i.irrv
        interruptRequest := clearRegArrayBit i.interruptRequest i.irrv }.updateIRRV)
  else .error .updateIntrInfo

/-! ### What the functions do -/

/-- Some interrupt that goes before a ULI is pending. -/
def pendingHigher : Bool :=
  i.pendingSmi || i.pendingNmi || i.pendingInit || i.pendingStartup

/-- The number of pending interrupts that go before a ULI. -/
def higherCount : Nat :=
  i.pendingSmi.toNat + i.pendingNmi.toNat + i.pendingInit.toNat + i.pendingStartup.toNat

/-- A ULI is the most urgent interrupt: `getInterrupt` and `updateIntrInfo` act on it. -/
def takesULI : Bool := i.pendingULI && !i.pendingHigher

/-- `updateIntrInfo` does not refuse a ULI. -/
def Accepts : Prop := (cr3Map tc.cr3).isSome ∧ tc.cs ≠ kernelCS

instance : Decidable (Accepts tc cr3Map) := inferInstanceAs (Decidable (_ ∧ _))

/-- The summary flag says that one of the five unmaskable interrupts is pending. -/
def FlagsOk : Prop := i.pendingUnmaskableInt = (i.pendingHigher || i.pendingULI)

variable {i tc cr3Map}

/-- `updateUnmaskable` makes the summary flag right again, whatever was cleared before it. -/
theorem FlagsOk.updateUnmaskable {j : Interrupts} (h : j.pendingUnmaskableInt = true) :
    j.updateUnmaskable.FlagsOk := by
  unfold Interrupts.updateUnmaskable FlagsOk pendingHigher
  split
  · next hany => rw [hany, h]
  · next hany => exact (Bool.eq_false_iff.mpr hany).symm

/-- `updateUnmaskable` leaves the queue alone. -/
@[simp] theorem updateUnmaskable_uliQueue : i.updateUnmaskable.uliQueue = i.uliQueue := by
  unfold updateUnmaskable
  split <;> rfl

/-- `updateUnmaskable` leaves the flag of the ULIs alone. -/
@[simp] theorem updateUnmaskable_pendingULI : i.updateUnmaskable.pendingULI = i.pendingULI := by
  unfold updateUnmaskable
  split <;> rfl

/-- `updateUnmaskable` leaves the four flags that go first alone. -/
@[simp] theorem updateUnmaskable_higherCount :
    i.updateUnmaskable.higherCount = i.higherCount := by
  unfold updateUnmaskable
  split <;> rfl

/-- Each of the four kinds is pending at most once, so a ULI waits for four others at most. -/
theorem higherCount_le : i.higherCount ≤ 4 := by
  have hs := Bool.toNat_le i.pendingSmi
  have hn := Bool.toNat_le i.pendingNmi
  have hi := Bool.toNat_le i.pendingInit
  have hst := Bool.toNat_le i.pendingStartup
  unfold higherCount
  omega

/-- The CPU stops for an unmaskable interrupt whatever `RFLAGS` says. -/
theorem checkInterrupts_of_unmaskable (hu : i.pendingUnmaskableInt = true) :
    i.checkInterrupts tc = true := by
  rw [checkInterrupts, hu, Bool.true_or]

/-- With a right summary flag the CPU stops for a pending ULI. -/
theorem FlagsOk.checkInterrupts (h : i.FlagsOk) (hp : i.pendingULI = true) :
    i.checkInterrupts tc = true :=
  checkInterrupts_of_unmaskable (by rw [h, hp, Bool.or_true])

/-- It stops for an interrupt that goes first, too. -/
theorem FlagsOk.checkInterrupts_of_higher (h : i.FlagsOk) (hhigher : i.pendingHigher = true) :
    i.checkInterrupts tc = true :=
  checkInterrupts_of_unmaskable (by rw [h, hhigher, Bool.true_or])

/-- A ULI that is the most urgent interrupt is pending. -/
theorem pendingULI_of_takesULI (h : i.takesULI = true) : i.pendingULI = true :=
  (Bool.and_eq_true_iff.mp h).1

/-- Nothing goes before a ULI that is the most urgent interrupt. -/
theorem higherCount_of_takesULI (h : i.takesULI = true) : i.higherCount = 0 := by
  have hno := (Bool.and_eq_true_iff.mp h).2
  simp only [pendingHigher, Bool.not_or, Bool.and_eq_true, Bool.not_eq_true'] at hno
  simp [higherCount, hno]

/-- A ULI waits while something that goes first is pending. -/
theorem takesULI_eq_false (h : i.pendingHigher = true) : i.takesULI = false := by
  rw [takesULI, h, Bool.not_true, Bool.and_false]

/-- A clear summary flag means that no ULI is pending at all. -/
theorem FlagsOk.takesULI_eq_false (h : i.FlagsOk) (hu : ¬ i.pendingUnmaskableInt = true) :
    i.takesULI = false := by
  rw [FlagsOk, Bool.eq_false_iff.mpr hu] at h
  rw [Interrupts.takesULI, (Bool.or_eq_false_iff.mp h.symm).2, Bool.false_and]

/-- A clear summary flag contradicts an interrupt that goes first. -/
theorem FlagsOk.pendingUnmaskable {p : Prop} (h : i.FlagsOk)
    (hu : ¬ i.pendingUnmaskableInt = true) (hhigher : i.pendingHigher = true) : p := by
  rw [FlagsOk, hhigher, Bool.true_or] at h
  exact absurd h hu

/-- A set summary flag with nothing that goes first can only mean a ULI. -/
theorem FlagsOk.takesULI (h : i.FlagsOk) (hu : i.pendingUnmaskableInt = true)
    (hhigher : i.pendingHigher = false) : i.takesULI = true := by
  rw [FlagsOk, hu, hhigher, Bool.false_or] at h
  rw [Interrupts.takesULI, ← h, hhigher]
  rfl

/-- The three outcomes of `getInterrupt`: another interrupt is the most urgent and the
controller stays as it is, or the ULI flag is set over an empty queue, or the first node of the
queue is taken out. -/
theorem getInterrupt_cases (h : i.FlagsOk) (hcheck : i.checkInterrupts tc = true) :
    (∃ fault, i.getInterrupt tc = .ok (some fault, i) ∧ i.takesULI = false ∧
      ∀ node, fault ≠ .uli node) ∨
    (i.getInterrupt tc = .ok (none, i) ∧ i.takesULI = true ∧ i.uliQueue = []) ∨
    (∃ node j, i.getInterrupt tc = .ok (some (.uli node), j) ∧ i.takesULI = true ∧
      i.uliQueue = node :: j.uliQueue ∧ j.takesULI = true ∧ j.FlagsOk) := by
  unfold getInterrupt
  rw [if_pos hcheck]
  by_cases hu : i.pendingUnmaskableInt = true
  · rw [if_pos hu]
    -- the four interrupts that go first, in the order of the source
    by_cases hs : i.pendingSmi = true
    · rw [if_pos hs]
      exact .inl ⟨_, rfl, takesULI_eq_false (by simp [pendingHigher, hs]), fun _ hf => nomatch hf⟩
    rw [if_neg hs]
    by_cases hn : i.pendingNmi = true
    · rw [if_pos hn]
      exact .inl ⟨_, rfl, takesULI_eq_false (by simp [pendingHigher, hn]), fun _ hf => nomatch hf⟩
    rw [if_neg hn]
    by_cases hi : i.pendingInit = true
    · rw [if_pos hi]
      exact .inl ⟨_, rfl, takesULI_eq_false (by simp [pendingHigher, hi]), fun _ hf => nomatch hf⟩
    rw [if_neg hi]
    by_cases hst : i.pendingStartup = true
    · rw [if_pos hst]
      exact .inl ⟨_, rfl, takesULI_eq_false (by simp [pendingHigher, hst]), fun _ hf => nomatch hf⟩
    rw [if_neg hst]
    have ht : i.takesULI = true := h.takesULI hu (by simp [pendingHigher, hs, hn, hi, hst])
    rw [if_pos (pendingULI_of_takesULI ht)]
    right
    cases hq : i.uliQueue with
    | nil => exact .inl ⟨rfl, ht, rfl⟩
    | cons node rest => exact .inr ⟨node, _, rfl, ht, rfl, ht, h⟩
  · rw [if_neg hu]
    left
    split
    · exact ⟨_, rfl, h.takesULI_eq_false hu, fun _ hf => nomatch hf⟩
    · exact ⟨_, rfl, h.takesULI_eq_false hu, fun _ hf => nomatch hf⟩

/-- What `updateIntrInfo` does. On a ULI it refuses and changes nothing, or it clears the flag
whatever the queue holds. On another interrupt the ULI flag and the queue stay. -/
theorem updateIntrInfo_cases (h : i.FlagsOk) (hcheck : i.checkInterrupts tc = true) :
    (i.takesULI = true ∧ ¬ Accepts tc cr3Map ∧ i.updateIntrInfo tc cr3Map = .ok (-1, i)) ∨
    (∃ j, i.updateIntrInfo tc cr3Map = .ok (0, j) ∧ j.FlagsOk ∧ j.uliQueue = i.uliQueue ∧
      ((i.takesULI = true ∧ Accepts tc cr3Map ∧ j.pendingULI = false) ∨
        (i.takesULI = false ∧ j.pendingULI = i.pendingULI ∧
          (i.pendingHigher = true → j.higherCount < i.higherCount)))) := by
  unfold updateIntrInfo
  rw [if_pos hcheck]
  by_cases hu : i.pendingUnmaskableInt = true
  · rw [if_pos hu]
    by_cases hs : i.pendingSmi = true
    · rw [if_pos hs]
      exact .inr ⟨_, rfl, .updateUnmaskable hu, by simp,
        .inr ⟨takesULI_eq_false (by simp [pendingHigher, hs]), by simp,
          fun _ => by rw [updateUnmaskable_higherCount]; simp [higherCount, hs]⟩⟩
    rw [if_neg hs]
    by_cases hn : i.pendingNmi = true
    · rw [if_pos hn]
      exact .inr ⟨_, rfl, .updateUnmaskable hu, by simp,
        .inr ⟨takesULI_eq_false (by simp [pendingHigher, hn]), by simp,
          fun _ => by rw [updateUnmaskable_higherCount]; simp [higherCount, hn]⟩⟩
    rw [if_neg hn]
    by_cases hi : i.pendingInit = true
    · rw [if_pos hi]
      exact .inr ⟨_, rfl, .updateUnmaskable hu, by simp,
        .inr ⟨takesULI_eq_false (by simp [pendingHigher, hi]), by simp,
          fun _ => by rw [updateUnmaskable_higherCount]; simp [higherCount, hi]⟩⟩
    rw [if_neg hi]
    by_cases hst : i.pendingStartup = true
    · rw [if_pos hst]
      exact .inr ⟨_, rfl, .updateUnmaskable hu, by simp,
        .inr ⟨takesULI_eq_false (by simp [pendingHigher, hst]), by simp,
          fun _ => by rw [updateUnmaskable_higherCount]; simp [higherCount, hst]⟩⟩
    rw [if_neg hst]
    have ht : i.takesULI = true := h.takesULI hu (by simp [pendingHigher, hs, hn, hi, hst])
    rw [if_pos (pendingULI_of_takesULI ht)]
    -- the flag is cleared only if both tests of the thread context pass
    cases hm : cr3Map tc.cr3 with
    | none => exact .inl ⟨ht, fun ha => by simp [Accepts, hm] at ha, rfl⟩
    | some key =>
      dsimp only
      by_cases hcs : tc.cs = kernelCS
      · rw [if_pos hcs]
        exact .inl ⟨ht, fun ha => ha.2 hcs, rfl⟩
      · rw [if_neg hcs]
        exact .inr ⟨_, rfl, .updateUnmaskable hu, by simp,
          .inl ⟨ht, ⟨by rw [hm]; rfl, hcs⟩, by simp⟩⟩
  · rw [if_neg hu]
    right
    split
    · exact ⟨_, rfl, h, rfl, .inr ⟨h.takesULI_eq_false hu, rfl, h.pendingUnmaskable hu⟩⟩
    · exact ⟨_, rfl, h, rfl, .inr ⟨h.takesULI_eq_false hu, rfl, h.pendingUnmaskable hu⟩⟩

section requestInterrupt

variable {msgMap : UInt64 → StackletMessage} {vector : UInt8} {level : Bool} {key : UInt32}

/-- The node that a ULI with this vector and key puts in the queue. -/
def uliNode (msgMap : UInt64 → StackletMessage) (vector : UInt8) (key : UInt32) : UliNode :=
  ⟨vector, (msgMap key.toUInt64).p, (msgMap key.toUInt64).callback,
    (msgMap key.toUInt64).sender⟩

/-- An interrupt of another mode does not touch what belongs to the ULIs. -/
theorem requestInterrupt_other {mode : DeliveryMode} (h : mode ≠ .uli) :
    (i.requestInterrupt msgMap vector mode level key).uliQueue = i.uliQueue ∧
      (i.requestInterrupt msgMap vector mode level key).pendingULI = i.pendingULI := by
  unfold requestInterrupt
  cases mode with
  | uli => exact absurd rfl h
  | fixed | lowestPriority => constructor <;> (dsimp only; split <;> split <;> (try split) <;> rfl)
  | smi | nmi | init | sipi | extInt => constructor <;> (dsimp only; split <;> rfl)

/-- Every arrival keeps the summary flag right: an unmaskable one sets it together with its own
flag, and the maskable ones touch neither. -/
theorem FlagsOk.requestInterrupt {mode : DeliveryMode} (h : i.FlagsOk) :
    (i.requestInterrupt msgMap vector mode level key).FlagsOk := by
  unfold FlagsOk at h
  unfold Interrupts.requestInterrupt FlagsOk pendingHigher
  cases mode with
  | uli => simp [addULI]
  | fixed | lowestPriority =>
    dsimp only
    split <;> split <;> (try split) <;> exact h
  | extInt => dsimp only; split <;> exact h
  | smi | nmi | init | sipi =>
    dsimp only
    split
    · exact h
    · simp

end requestInterrupt

end Interrupts

end Stacklets.Gem5

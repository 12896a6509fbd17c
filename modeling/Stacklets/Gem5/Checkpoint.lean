import Stacklets.Gem5.Machine

/-!
# `Stacklets.Gem5.Checkpoint`: saving and restoring an interrupt controller

`serialize` writes the registers, the flags and the vectors of a local interrupt controller, and
`unserialize` reads them into a new one. The queue of ULIs is not among what is written. A
restored controller has an empty queue, and its flag `pendingULI` as it was.

What a controller does later is what it answers to a sequence of calls of `getInterrupt` and
`updateIntrInfo`, with any thread contexts (`answers`). Neither function reads the queue unless a
ULI is the most urgent interrupt (`getInterrupt_withQueue`, `updateIntrInfo_withQueue`), and none
of them sets `pendingULI`. So the answers are the same if the flag is clear or the queue is empty,
and not otherwise (`checkpoint_preserves`).
-/

set_option autoImplicit false

namespace Stacklets.Gem5

/-- A local interrupt controller with what the functions of `Stacklets.Gem5.Interrupts` do not
read: its other registers, the count of its own messages in flight, and the tick of its timer
event if one is scheduled. -/
structure LocalApic where
  intr : Interrupts
  regs : Nat → UInt32
  pendingIPIs : Int
  apicTimerEvent : Option UInt64

/-- The register `APIC_DESTINATION_FORMAT`. -/
def destinationFormat : Nat := 7

/-- What the constructor makes. -/
def LocalApic.reset : LocalApic where
  intr := .reset
  regs := fun r => if r = destinationFormat then 0xffffffff else 0
  pendingIPIs := 0
  apicTimerEvent := none

/-- The section of a checkpoint that belongs to a controller. -/
structure Checkpoint where
  taskPriority : UInt32
  interruptRequest : BitVec 256
  inService : BitVec 256
  triggerMode : BitVec 256
  regs : Nat → UInt32
  pendingSmi : Bool
  smiVector : UInt8
  pendingNmi : Bool
  nmiVector : UInt8
  pendingExtInt : Bool
  extIntVector : UInt8
  pendingInit : Bool
  initVector : UInt8
  pendingStartup : Bool
  startupVector : UInt8
  pendingULI : Bool
  uliVector : UInt8
  startedUp : Bool
  pendingUnmaskableInt : Bool
  pendingIPIs : Int
  irrv : UInt8
  isrv : UInt8
  apicTimerEventScheduled : Bool
  apicTimerEventTick : UInt64

namespace LocalApic

def serialize (a : LocalApic) : Checkpoint where
  taskPriority := a.intr.taskPriority
  interruptRequest := a.intr.interruptRequest
  inService := a.intr.inService
  triggerMode := a.intr.triggerMode
  regs := a.regs
  pendingSmi := a.intr.pendingSmi
  smiVector := a.intr.smiVector
  pendingNmi := a.intr.pendingNmi
  nmiVector := a.intr.nmiVector
  pendingExtInt := a.intr.pendingExtInt
  extIntVector := a.intr.extIntVector
  pendingInit := a.intr.pendingInit
  initVector := a.intr.initVector
  pendingStartup := a.intr.pendingStartup
  startupVector := a.intr.startupVector
  pendingULI := a.intr.pendingULI
  uliVector := a.intr.uliVector
  startedUp := a.intr.startedUp
  pendingUnmaskableInt := a.intr.pendingUnmaskableInt
  pendingIPIs := a.pendingIPIs
  irrv := a.intr.irrv
  isrv := a.intr.isrv
  apicTimerEventScheduled := a.apicTimerEvent.isSome
  apicTimerEventTick := a.apicTimerEvent.getD 0

/-- The fields that `unserialize` reads. The queue stays as it is in the controller. -/
def unserialize (a : LocalApic) (cp : Checkpoint) : LocalApic where
  intr :=
    { a.intr with
      taskPriority := cp.taskPriority
      interruptRequest := cp.interruptRequest
      inService := cp.inService
      triggerMode := cp.triggerMode
      pendingSmi := cp.pendingSmi
      smiVector := cp.smiVector
      pendingNmi := cp.pendingNmi
      nmiVector := cp.nmiVector
      pendingExtInt := cp.pendingExtInt
      extIntVector := cp.extIntVector
      pendingInit := cp.pendingInit
      initVector := cp.initVector
      pendingStartup := cp.pendingStartup
      startupVector := cp.startupVector
      pendingULI := cp.pendingULI
      uliVector := cp.uliVector
      startedUp := cp.startedUp
      pendingUnmaskableInt := cp.pendingUnmaskableInt
      irrv := cp.irrv
      isrv := cp.isrv }
  regs := cp.regs
  pendingIPIs := cp.pendingIPIs
  apicTimerEvent :=
    if cp.apicTimerEventScheduled then some cp.apicTimerEventTick else a.apicTimerEvent

/-- A new controller that reads the checkpoint of `a`. -/
def restore (a : LocalApic) : LocalApic := LocalApic.reset.unserialize a.serialize

end LocalApic

/-! ### What a controller answers -/

inductive DeliveryCall where
  | getInterrupt (tc : ThreadContext)
  | updateIntrInfo (tc : ThreadContext) (cr3Map : UInt64 → Option UInt64)

inductive Answer where
  | fault (interrupt : Option Fault)
  | info (result : Int)
  | abort (abort : Abort)
deriving DecidableEq

namespace Interrupts

/-- One call, with the controller behind it. After an `assert` or a `panic` there is none. -/
def answer (i : Interrupts) : DeliveryCall → Answer × Option Interrupts
  | .getInterrupt tc =>
    match i.getInterrupt tc with
    | .ok (interrupt, j) => (.fault interrupt, some j)
    | .error e => (.abort e, none)
  | .updateIntrInfo tc cr3Map =>
    match i.updateIntrInfo tc cr3Map with
    | .ok (result, j) => (.info result, some j)
    | .error e => (.abort e, none)

/-- The answers to a sequence of calls. -/
def answers (i : Interrupts) : List DeliveryCall → List Answer
  | [] => []
  | c :: cs =>
    match i.answer c with
    | (r, some j) => r :: answers j cs
    | (r, none) => [r]

/-! ### The queue is not read -/

/-- The controller with another queue. -/
def withQueue (i : Interrupts) (q : List UliNode) : Interrupts := { i with uliQueue := q }

variable {i : Interrupts} {q : List UliNode} {tc : ThreadContext}
  {cr3Map : UInt64 → Option UInt64}

/-- `updateUnmaskable` does the same with another queue. -/
theorem updateUnmaskable_withQueue :
    i.updateUnmaskable.withQueue q = (i.withQueue q).updateUnmaskable := by
  unfold updateUnmaskable
  rw [apply_ite (fun j : Interrupts => j.withQueue q)]
  rfl

/-- `updateIntrInfo` does the same with another queue. -/
theorem updateIntrInfo_withQueue :
    (i.withQueue q).updateIntrInfo tc cr3Map =
      (i.updateIntrInfo tc cr3Map).map fun r => (r.1, r.2.withQueue q) := by
  unfold updateIntrInfo
  -- the change of the queue goes down into the branches
  cases cr3Map tc.cr3 with
  | none | some key =>
    simp only [apply_ite (Except.map _)]
    simp only [Except.map, updateUnmaskable_withQueue]
    rfl

/-- With the flag clear, `getInterrupt` does the same with another queue. -/
theorem getInterrupt_withQueue (hp : i.pendingULI = false) :
    (i.withQueue q).getInterrupt tc =
      (i.getInterrupt tc).map fun r => (r.1, r.2.withQueue q) := by
  have hp' : (i.withQueue q).pendingULI = false := hp
  unfold getInterrupt
  simp only [hp, hp', Bool.false_eq_true, if_false]
  simp only [apply_ite (Except.map _)]
  rfl

/-- The flag stays clear. -/
theorem getInterrupt_pendingULI {j : Interrupts} {interrupt : Option Fault}
    (hp : i.pendingULI = false) (h : i.getInterrupt tc = .ok (interrupt, j)) :
    j.pendingULI = false := by
  unfold getInterrupt at h
  simp only [hp, Bool.false_eq_true, if_false] at h
  -- in each branch that returns, the controller is the old one
  repeat' split at h
  all_goals cases h
  all_goals exact hp

/-- `updateIntrInfo` leaves a clear flag clear, too. -/
theorem updateIntrInfo_pendingULI {j : Interrupts} {result : Int}
    (hp : i.pendingULI = false) (h : i.updateIntrInfo tc cr3Map = .ok (result, j)) :
    j.pendingULI = false := by
  unfold updateIntrInfo at h
  simp only [hp, Bool.false_eq_true, if_false] at h
  repeat' split at h
  all_goals cases h
  all_goals simp [updateIRRV, hp]

/-- With the flag clear, one call gives the same answer with another queue, and the controllers
behind it differ in the queue only. -/
theorem answer_withQueue (hp : i.pendingULI = false) (c : DeliveryCall) :
    (i.withQueue q).answer c = ((i.answer c).1, (i.answer c).2.map (·.withQueue q)) ∧
      ∀ j ∈ (i.answer c).2, j.pendingULI = false := by
  cases c with
  | getInterrupt tc =>
    unfold answer
    dsimp only
    rw [getInterrupt_withQueue hp]
    cases h : i.getInterrupt tc with
    | error e => exact ⟨rfl, fun j hj => by cases hj⟩
    | ok r =>
      refine ⟨rfl, ?_⟩
      rintro j hj
      cases hj
      exact getInterrupt_pendingULI hp h
  | updateIntrInfo tc cr3Map =>
    unfold answer
    dsimp only
    rw [updateIntrInfo_withQueue]
    cases h : i.updateIntrInfo tc cr3Map with
    | error e => exact ⟨rfl, fun j hj => by cases hj⟩
    | ok r =>
      refine ⟨rfl, ?_⟩
      rintro j hj
      cases hj
      exact updateIntrInfo_pendingULI hp h

/-- With the flag clear, no sequence of calls tells two queues apart. -/
theorem answers_withQueue (q : List UliNode) (cs : List DeliveryCall) :
    ∀ i : Interrupts, i.pendingULI = false → (i.withQueue q).answers cs = i.answers cs := by
  induction cs with
  | nil => exact fun _ _ => rfl
  | cons c cs ih =>
    intro i hp
    obtain ⟨hanswer, hclear⟩ := answer_withQueue (q := q) hp c
    unfold answers
    rw [hanswer]
    rcases h : i.answer c with ⟨r, _ | j⟩
    · rfl
    · rw [h] at hclear
      show r :: (j.withQueue q).answers cs = r :: j.answers cs
      rw [ih j (hclear j rfl)]

/-- A ULI is the most urgent interrupt over a queue with nodes: `getInterrupt` tells it from an
empty queue. -/
theorem getInterrupt_ne (tc : ThreadContext) (hflags : i.FlagsOk) (ht : i.takesULI = true)
    (hq : i.uliQueue ≠ []) :
    (i.withQueue []).answers [.getInterrupt tc] ≠ i.answers [.getInterrupt tc] := by
  have hcheck : i.checkInterrupts tc = true :=
    hflags.checkInterrupts (pendingULI_of_takesULI ht)
  have hnode : ∃ node j, i.getInterrupt tc = .ok (some (.uli node), j) := by
    rcases getInterrupt_cases hflags hcheck with ⟨_, _, hfalse, _⟩ | ⟨_, _, hnil⟩ |
      ⟨node, j, heq, _⟩
    · rw [ht] at hfalse
      cases hfalse
    · exact absurd hnil hq
    · exact ⟨node, j, heq⟩
  have hnone : (i.withQueue []).getInterrupt tc = .ok (none, i.withQueue []) := by
    have hflags' : (i.withQueue []).FlagsOk := hflags
    have ht' : (i.withQueue []).takesULI = true := ht
    rcases getInterrupt_cases hflags' hcheck with ⟨_, _, hfalse, _⟩ | ⟨heq, _, _⟩ |
      ⟨_, _, _, _, hcons, _⟩
    · rw [ht'] at hfalse
      cases hfalse
    · exact heq
    · cases hcons
  obtain ⟨node, j, heq⟩ := hnode
  unfold answers answer
  dsimp only
  rw [hnone, heq]
  simp

/-- If the flag is set over a queue with nodes, some sequence of calls tells it from an empty
queue. The induction is on the number of interrupts that go first. -/
theorem answers_ne (tc : ThreadContext) (cr3Map : UInt64 → Option UInt64) (n : Nat) :
    ∀ i : Interrupts, i.higherCount < n → i.FlagsOk → i.pendingULI = true → i.uliQueue ≠ [] →
      ∃ cs, (i.withQueue []).answers cs ≠ i.answers cs := by
  induction n with
  | zero => exact fun i hcount => absurd hcount (Nat.not_lt_zero _)
  | succ n ih =>
    intro i hcount hflags hp hq
    -- an interrupt that goes first is taken out, and the rest is by induction
    by_cases hhigher : i.pendingHigher = true
    · have ht : i.takesULI = false := takesULI_eq_false hhigher
      have hcheck : i.checkInterrupts tc = true := hflags.checkInterrupts_of_higher hhigher
      rcases @updateIntrInfo_cases i tc cr3Map hflags hcheck with
        ⟨htrue, _⟩ | ⟨j, heq, hj, hjq, ⟨htrue, _⟩ | ⟨_, hjp, hless⟩⟩
      · rw [ht] at htrue
        cases htrue
      · rw [ht] at htrue
        cases htrue
      · have hlt := hless hhigher
        obtain ⟨cs, hcs⟩ := ih j (by omega) hj (by rw [hjp, hp]) (by rw [hjq]; exact hq)
        refine ⟨.updateIntrInfo tc cr3Map :: cs, ?_⟩
        unfold answers answer
        dsimp only
        rw [updateIntrInfo_withQueue, heq]
        intro hsame
        exact hcs (List.cons.inj hsame).2
    · have ht : i.takesULI = true := by
        rw [takesULI, hp, Bool.eq_false_iff.mpr hhigher]
        rfl
      exact ⟨_, getInterrupt_ne tc hflags ht hq⟩

end Interrupts

/-! ### Checkpoints -/

namespace LocalApic

/-- A restored controller is the old one with an empty queue. -/
theorem restore_intr (a : LocalApic) : a.restore.intr = a.intr.withQueue [] := rfl

end LocalApic

/-- A restored controller answers every later sequence of calls as the old one would have, if
no ULI was pending or the queue was empty. If it does, and the summary flag of the old one was
right, as it is in every reachable state, then no ULI was pending or the queue was empty. -/
theorem checkpoint_preserves (a : LocalApic) :
    ((a.intr.pendingULI = false ∨ a.intr.uliQueue = []) →
      ∀ cs, a.restore.intr.answers cs = a.intr.answers cs) ∧
    (a.intr.FlagsOk → (∀ cs, a.restore.intr.answers cs = a.intr.answers cs) →
      a.intr.pendingULI = false ∨ a.intr.uliQueue = []) := by
  rw [a.restore_intr]
  constructor
  · intro h cs
    rcases h with hp | hq
    · exact Interrupts.answers_withQueue [] cs a.intr hp
    · have hsame : a.intr.withQueue [] = a.intr := by
        rw [← hq]
        rfl
      rw [hsame]
  · intro hflags hsame
    by_contra hno
    obtain ⟨hp, hq⟩ := not_or.mp hno
    -- the calls that clear what goes first, and one more
    obtain ⟨cs, hcs⟩ := Interrupts.answers_ne (userContext 1) (fun _ => none) 5 a.intr
      (Nat.lt_succ_of_le Interrupts.higherCount_le) hflags (by simpa using hp) hq
    exact hcs (hsame cs)

/-- A controller with an external interrupt and an NMI pending. -/
def twoPending : LocalApic :=
  { LocalApic.reset with
    intr := (Interrupts.reset.requestInterrupt (fun _ => .zero) 32 .extInt false 0).requestInterrupt
      (fun _ => .zero) 2 .nmi false 0
    apicTimerEvent := some 1000 }

/-- The NMI of `twoPending` is delivered first, with and without a restore. -/
theorem checkpoint_preserves_twoPending :
    twoPending.restore.intr.answers [.getInterrupt (userContext 1)] =
        twoPending.intr.answers [.getInterrupt (userContext 1)] ∧
      twoPending.intr.answers [.getInterrupt (userContext 1)] =
        [.fault (some (.nonMaskableInterrupt 2))] :=
  ⟨(checkpoint_preserves twoPending).1 (.inl (by decide)) _, by decide +kernel⟩

/-- The controller of core 1 after core 0 has sent it one ULI. -/
def oneQueued : LocalApic :=
  { LocalApic.reset with
    intr := (((twoCores fun _ => 1).stackletSendi 0 0x401000 0x5000 1).cores 1).apic }

/-- The ULI that waits in the queue is not delivered after a restore. -/
theorem checkpoint_drops_uli :
    oneQueued.intr.answers [.getInterrupt (userContext 1)] =
        [.fault (some (.uli ⟨0, 0x5000, 0x401000, some 1⟩))] ∧
      oneQueued.restore.intr.answers [.getInterrupt (userContext 1)] = [.fault none] := by
  decide +kernel

end Stacklets.Gem5

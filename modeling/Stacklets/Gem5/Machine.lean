import Stacklets.Gem5.Interrupts
import Stacklets.Lib.Runs
import Stacklets.Util.Numerals

/-!
# `Stacklets.Gem5.Machine`: cores that send, check for and run user-level interrupts

The simulated machine: any number of cores, each with a local interrupt controller, a thread
context and (for the out-of-order CPU) the state of its commit stage. All cores share the
message map, the message counter and `cr3Map`, which are global variables of the simulator.

The simulator is one program, so one action of `Act` is one call that runs to its end:

* `stackletSendi` is the instruction that sends a ULI. The message reaches the controller of the
  destination in the same call (`sendMessage` with `timing = false`);
* `requestInterrupt` is any other arrival;
* `checkForInterrupts` is the check of the simple CPU;
* `processInterrupts` is a check of a CPU that calls `invoke` only if `updateIntrInfo` did not
  refuse;
* `propagateInterrupt` and `handleInterrupt` are the two halves of the check of the
  out-of-order CPU, with the tests that `commit` and `commitInsts` make before the calls;
* `threadContext`, `pipeline`, `writeEOI` and `writeTaskPriority` are what the rest of the
  machine may do in between: instructions and context switches, the rest of the pipeline, and
  writes of the controller's registers.

Two ghost lists of a core record the nodes that arrived and the calls of `ULI::invoke`.
-/

set_option autoImplicit false

namespace Stacklets.Gem5

/-- What `propagateInterrupt` and `handleInterrupt` read of the commit stage. -/
structure CommitStage where
  interrupt : Option Fault
  trapPending : Bool
  trapSquash : Bool
  tcSquash : Bool
  drainImminent : Bool
  canHandleInterrupts : Bool
  instListEmpty : Bool

/-- A call of `ULI::invoke`, with the `CR3` and `CS` that it finds. -/
structure Invocation where
  node : UliNode
  cr3 : UInt64
  cs : UInt64
deriving DecidableEq

/-- A core. The last two fields are histories: the nodes that came, and the calls of
`ULI::invoke`. -/
structure Core where
  apic : Interrupts
  tc : ThreadContext
  stage : CommitStage
  arrived : List UliNode
  invoked : List Invocation

namespace Core

variable (k : Core) (cr3Map : UInt64 → Option UInt64)

/-- `ULI::invoke` on the thread context: save what the handler overwrites, leave kernel mode,
and go to the handler. -/
def invokeULI (tc : ThreadContext) (node : UliNode) : ThreadContext :=
  let tc := { tc with
    savedULIPC := tc.pc
    savedULISP := tc.rsp
    savedULIDI := tc.rdi
    savedULIRFLAGS := tc.rflags }
  let tc :=
    if tc.cs = kernelCS then { tc with wasKernelMode := true, cs := 0x33, ds := 0, es := 0 }
    else { tc with wasKernelMode := false }
  { tc with rdi := node.packetAddress, rsp := tc.uliSP, pc := node.uliHandlerPc }

/-- The call `fault->invoke(tc)`. What the handlers of the other faults do to the thread
context is left to the action `threadContext`. -/
def invoke (fault : Fault) : Except Abort Core :=
  match fault with
  | .uli node =>
    if node.uliHandlerPc = 0 then .error .uliInvoke
    else .ok { k with
      tc := invokeULI k.tc node
      invoked := k.invoked ++ [⟨node, k.tc.cr3, k.tc.cs⟩] }
  | _ => .ok k

/-- An interrupt arrives at the core's controller. -/
def requestInterrupt (msgMap : UInt64 → StackletMessage) (vector : UInt8)
    (deliveryMode : DeliveryMode) (level : Bool) (key : UInt32) : Core :=
  { k with
    apic := k.apic.requestInterrupt msgMap vector deliveryMode level key
    arrived :=
      if deliveryMode = .uli then k.arrived ++ [Interrupts.uliNode msgMap vector key]
      else k.arrived }

/-- `BaseSimpleCPU::checkForInterrupts`. The result of `updateIntrInfo` is not used. -/
def checkForInterrupts : Except Abort Core :=
  if k.apic.checkInterrupts k.tc then do
    let (interrupt, apic) ← k.apic.getInterrupt k.tc
    match interrupt with
    | none => pure { k with apic }
    | some fault =>
      let (_, apic) ← apic.updateIntrInfo k.tc cr3Map
      invoke { k with apic } fault
  else pure k

/-- `FullO3CPU::processInterrupts`. -/
def processInterrupts (interrupt : Option Fault) : Except Abort Core :=
  match interrupt with
  | none => .error .processInterrupts
  | some fault => do
    let (result, apic) ← k.apic.updateIntrInfo k.tc cr3Map
    if result ≠ -1 then invoke { k with apic } fault else pure { k with apic }

/-- `cpu->processInterrupts(cpu->getInterrupts())`. -/
def getAndProcess : Except Abort Core := do
  let (interrupt, apic) ← k.apic.getInterrupt k.tc
  processInterrupts { k with apic } cr3Map interrupt

/-- `DefaultCommit::propagateInterrupt`. -/
def propagateInterrupt : Except Abort Core :=
  if k.stage.trapPending || k.stage.interrupt.isSome || k.stage.trapSquash ||
      k.stage.tcSquash || k.stage.drainImminent then pure k
  else do
    let (interrupt, apic) ← k.apic.getInterrupt k.tc
    pure { k with apic, stage := { k.stage with interrupt } }

/-- `DefaultCommit::handleInterrupt`. -/
def handleInterrupt : Except Abort Core :=
  if k.apic.checkInterrupts k.tc then
    if k.stage.canHandleInterrupts && k.stage.instListEmpty then do
      let k ← k.getAndProcess cr3Map
      pure { k with stage := { k.stage with trapPending := true, interrupt := none } }
    else pure k
  else pure { k with stage := { k.stage with interrupt := none } }

end Core

/-- The machine. `aborted` says which `assert` or `panic` ended the simulation. -/
structure Machine (C : Type) where
  msgCounter : UInt64
  msgMap : UInt64 → StackletMessage
  cr3Map : UInt64 → Option UInt64
  cores : C → Core
  aborted : Option Abort

inductive Act (C : Type) where
  | stackletSendi (c : C) (callback p : UInt64) (destCpu : C)
  | requestInterrupt (c : C) (vector : UInt8) (mode : DeliveryMode) (level : Bool) (key : UInt32)
  | checkForInterrupts (c : C)
  | processInterrupts (c : C)
  | propagateInterrupt (c : C)
  | handleInterrupt (c : C)
  | threadContext (c : C) (tc : ThreadContext)
  | pipeline (c : C) (stage : CommitStage)
  | writeEOI (c : C)
  | writeTaskPriority (c : C) (value : UInt32)

namespace Machine

variable {C : Type} [DecidableEq C] (s : Machine C)

def setCore (c : C) (k : Core) : Machine C :=
  { s with cores := fun d => if d = c then k else s.cores d }

/-- A call on core `c`. If it runs into an `assert` or a `panic`, the simulation ends. -/
def call (c : C) (f : Core → Except Abort Core) : Machine C :=
  match f (s.cores c) with
  | .ok k => s.setCore c k
  | .error abort => { s with aborted := some abort }

/-- The message, counter and map entries of a send by core `c`. -/
def recordMessage (c : C) (callback p : UInt64) : Machine C :=
  let cr3 := (s.cores c).tc.cr3
  let msgCounter := s.msgCounter + 1
  { s with
    msgCounter
    msgMap := fun k => if k = msgCounter then ⟨callback, p, some cr3⟩ else s.msgMap k
    cr3Map := fun a => if a = cr3 then some msgCounter.toUInt32.toUInt64 else s.cr3Map a }

/-- `stacklet_sendi`. The key that goes with the message has 32 bits. -/
def stackletSendi (c : C) (callback p : UInt64) (destCpu : C) : Machine C :=
  let s := s.recordMessage c callback p
  s.call destCpu fun k =>
    .ok (k.requestInterrupt s.msgMap 0 .uli false s.msgCounter.toUInt32)

/-- What an action does while the simulation runs. -/
def perform : Act C → Option (Machine C)
  | .stackletSendi c callback p destCpu => some (s.stackletSendi c callback p destCpu)
  | .requestInterrupt c vector mode level key =>
    some (s.call c fun k => .ok (k.requestInterrupt s.msgMap vector mode level key))
  | .checkForInterrupts c => some (s.call c (·.checkForInterrupts s.cr3Map))
  | .processInterrupts c =>
    if (s.cores c).apic.checkInterrupts (s.cores c).tc then
      some (s.call c (·.getAndProcess s.cr3Map))
    else none
  | .propagateInterrupt c =>
    if (s.cores c).apic.checkInterrupts (s.cores c).tc then
      some (s.call c (·.propagateInterrupt))
    else none
  | .handleInterrupt c =>
    if (s.cores c).stage.interrupt.isSome then
      some (s.call c (·.handleInterrupt s.cr3Map))
    else none
  | .threadContext c tc => some (s.call c fun k => .ok { k with tc })
  | .pipeline c stage =>
    some (s.call c fun k => .ok { k with stage := { stage with interrupt := k.stage.interrupt } })
  | .writeEOI c => some (s.call c fun k => .ok { k with apic := k.apic.writeEOI })
  | .writeTaskPriority c value =>
    some (s.call c fun k => .ok { k with apic := { k.apic with taskPriority := value } })

def step (a : Act C) : Option (Machine C) := if s.aborted.isSome then none else s.perform a

/-- The machine at power on. What the cores are executing is arbitrary. -/
def initial (tc : C → ThreadContext) (stage : C → CommitStage) : Machine C where
  msgCounter := 0
  msgMap := fun _ => .zero
  cr3Map := fun _ => none
  cores := fun c =>
    { apic := .reset, tc := tc c, stage := { stage c with interrupt := none },
      arrived := [], invoked := [] }
  aborted := none

end Machine

/-! ### What a call can do to a core

The calls of the CPUs differ in when they run `getInterrupt`, `updateIntrInfo` and `invoke`, and
in what they do with the results. For the part of a core that belongs to the ULIs there are
three outcomes: it stays as it is (`Same`), or the first node leaves the queue (`Takes`) and is
invoked, or it leaves the queue and is not invoked. -/

namespace Core

/-- What belongs to the ULIs stays. -/
structure Same (k k' : Core) : Prop where
  queue : k'.apic.uliQueue = k.apic.uliQueue
  pending : k'.apic.pendingULI = k.apic.pendingULI
  arrived : k'.arrived = k.arrived
  invoked : k'.invoked = k.invoked
  flags : k'.apic.FlagsOk

/-- A ULI was the most urgent interrupt and its node, the first of the queue, was taken out. -/
structure Takes (k k' : Core) (node : UliNode) : Prop where
  takes : k.apic.takesULI = true
  queue : k.apic.uliQueue = node :: k'.apic.uliQueue
  arrived : k'.arrived = k.arrived
  flags : k'.apic.FlagsOk

variable {k : Core} {cr3Map : UInt64 → Option UInt64}

/-- `do` after a call that returned. -/
theorem ok_bind {ε α β : Type} (a : α) (f : α → Except ε β) : (Except.ok a >>= f) = f a := rfl

/-- A call that does nothing. -/
theorem Same.refl (h : k.apic.FlagsOk) : k.Same k := ⟨rfl, rfl, rfl, rfl, h⟩

/-- A fault that is no ULI leaves the core as it is. -/
theorem invoke_of_ne_uli {fault : Fault} (h : ∀ node, fault ≠ .uli node) :
    k.invoke fault = .ok k := by
  cases fault with
  | uli node => exact absurd rfl (h node)
  | systemManagementInterrupt | nonMaskableInterrupt _ | initInterrupt _ | startupInterrupt _
  | externalInterrupt _ => rfl

/-- `updateIntrInfo` when a ULI is the most urgent interrupt. -/
theorem updateIntrInfo_uli {j : Interrupts} (tc : ThreadContext)
    (cr3Map : UInt64 → Option UInt64) (h : j.FlagsOk) (ht : j.takesULI = true) :
    (¬ Interrupts.Accepts tc cr3Map ∧ j.updateIntrInfo tc cr3Map = .ok (-1, j)) ∨
    (Interrupts.Accepts tc cr3Map ∧ ∃ j', j.updateIntrInfo tc cr3Map = .ok (0, j') ∧
      j'.FlagsOk ∧ j'.uliQueue = j.uliQueue ∧ j'.pendingULI = false) := by
  have hcheck : j.checkInterrupts tc = true :=
    h.checkInterrupts (Interrupts.pendingULI_of_takesULI ht)
  rcases Interrupts.updateIntrInfo_cases h hcheck with
    ⟨_, hrefuse, heq⟩ | ⟨j', heq, hj, hq, ⟨_, haccept, hp⟩ | ⟨hfalse, _, _⟩⟩
  · exact .inl ⟨hrefuse, heq⟩
  · exact .inr ⟨haccept, j', heq, hj, hq, hp⟩
  · rw [ht] at hfalse
    cases hfalse

/-- `updateIntrInfo` on an interrupt that is no ULI. -/
theorem updateIntrInfo_other (cr3Map : UInt64 → Option UInt64) (h : k.apic.FlagsOk)
    (hcheck : k.apic.checkInterrupts k.tc = true) (ht : k.apic.takesULI = false) :
    ∃ j, k.apic.updateIntrInfo k.tc cr3Map = .ok (0, j) ∧ k.Same { k with apic := j } ∧
      (k.apic.pendingHigher = true → j.higherCount < k.apic.higherCount) := by
  rcases Interrupts.updateIntrInfo_cases h hcheck with
    ⟨htrue, _⟩ | ⟨j, heq, hj, hq, ⟨htrue, _⟩ | ⟨_, hp, hless⟩⟩
  · rw [ht] at htrue
    cases htrue
  · rw [ht] at htrue
    cases htrue
  · exact ⟨j, heq, ⟨hq, hp, rfl, rfl, hj⟩, hless⟩

variable (cr3Map)

/-- The outcomes of the simple CPU's check: nothing for the ULIs, the `assert` of
`ULI::invoke`, or the first node is invoked. The flag is cleared if the thread context passes
the tests and stays set otherwise. The node is invoked in any case. -/
theorem checkForInterrupts_cases (h : k.apic.FlagsOk) :
    (∃ k', k.checkForInterrupts cr3Map = .ok k' ∧ k.Same k' ∧
      (k.apic.takesULI = true → k.apic.uliQueue = []) ∧
      (k.apic.pendingHigher = true → k'.apic.higherCount < k.apic.higherCount)) ∨
    k.checkForInterrupts cr3Map = .error .uliInvoke ∨
    (∃ k' node, k.checkForInterrupts cr3Map = .ok k' ∧ k.Takes k' node ∧
      k'.invoked = k.invoked ++ [⟨node, k.tc.cr3, k.tc.cs⟩] ∧
      (Interrupts.Accepts k.tc cr3Map → k'.apic.pendingULI = false) ∧
      (¬ Interrupts.Accepts k.tc cr3Map → k'.apic.takesULI = true)) := by
  unfold checkForInterrupts
  by_cases hcheck : k.apic.checkInterrupts k.tc = true
  · rw [if_pos hcheck]
    rcases Interrupts.getInterrupt_cases h hcheck with
      ⟨fault, heq, ht, hf⟩ | ⟨heq, ht, hq⟩ | ⟨node, j, heq, ht, hq, htj, hj⟩
    · left
      obtain ⟨j, hupd, hsame, hless⟩ := updateIntrInfo_other cr3Map h hcheck ht
      exact ⟨{ k with apic := j }, by simp only [heq, hupd, ok_bind, invoke_of_ne_uli hf], hsame,
        (fun htrue => by rw [ht] at htrue; cases htrue), hless⟩
    · left
      exact ⟨k, by simp only [heq, ok_bind]; rfl, .refl h, fun _ => hq, fun hhigher => by
        rw [Interrupts.takesULI_eq_false hhigher] at ht; cases ht⟩
    · right
      -- the result of `updateIntrInfo` decides about the flag only
      rcases updateIntrInfo_uli k.tc cr3Map hj htj with
        ⟨hrefuse, hupd⟩ | ⟨haccept, j', hupd, hj', hq', hp⟩
      · simp only [heq, hupd, ok_bind, invoke]
        split
        · exact .inl rfl
        · exact .inr ⟨_, node, rfl, ⟨ht, hq, rfl, hj⟩, rfl, fun ha => absurd ha hrefuse,
            fun _ => htj⟩
      · simp only [heq, hupd, ok_bind, invoke]
        split
        · exact .inl rfl
        · exact .inr ⟨_, node, rfl, ⟨ht, by rw [hq, hq'], rfl, hj'⟩, rfl, fun _ => hp,
            fun hrefuse => absurd haccept hrefuse⟩
  · rw [if_neg hcheck]
    left
    refine ⟨k, rfl, .refl h, fun ht => ?_, fun hhigher => ?_⟩
    · exact absurd (h.checkInterrupts (Interrupts.pendingULI_of_takesULI ht)) hcheck
    · exact absurd (h.checkInterrupts_of_higher hhigher) hcheck

/-- The outcomes of a check that uses the result of `updateIntrInfo`. Another interrupt was the
most urgent and is cleared, or the flag was set over an empty queue, or the first node has no
handler and the `assert` of `ULI::invoke` fails, or the first node leaves the queue. A refused
node has left the queue and is gone. -/
theorem getAndProcess_cases (h : k.apic.FlagsOk) (hcheck : k.apic.checkInterrupts k.tc = true) :
    (∃ k', k.getAndProcess cr3Map = .ok k' ∧ k.Same k' ∧ k.apic.takesULI = false ∧
      (k.apic.pendingHigher = true → k'.apic.higherCount < k.apic.higherCount)) ∨
    (k.getAndProcess cr3Map = .error .processInterrupts ∧ k.apic.takesULI = true ∧
      k.apic.uliQueue = []) ∨
    (k.getAndProcess cr3Map = .error .uliInvoke ∧
      ∃ node ∈ k.apic.uliQueue, node.uliHandlerPc = 0) ∨
    (∃ k' node, k.getAndProcess cr3Map = .ok k' ∧ k.Takes k' node ∧
      ((Interrupts.Accepts k.tc cr3Map ∧ k'.apic.pendingULI = false ∧
          k'.invoked = k.invoked ++ [⟨node, k.tc.cr3, k.tc.cs⟩]) ∨
        (¬ Interrupts.Accepts k.tc cr3Map ∧ k'.invoked = k.invoked))) := by
  unfold getAndProcess processInterrupts
  rcases Interrupts.getInterrupt_cases h hcheck with
    ⟨fault, heq, ht, hf⟩ | ⟨heq, ht, hq⟩ | ⟨node, j, heq, ht, hq, htj, hj⟩
  · left
    obtain ⟨j, hupd, hsame, hless⟩ := updateIntrInfo_other cr3Map h hcheck ht
    refine ⟨{ k with apic := j }, ?_, hsame, ht, hless⟩
    simp only [heq, hupd, ok_bind, invoke_of_ne_uli hf]
    rfl
  · right
    left
    exact ⟨by simp only [heq, ok_bind], ht, hq⟩
  · right
    right
    -- a refused node is dropped, an accepted one needs a handler
    rcases updateIntrInfo_uli k.tc cr3Map hj htj with
      ⟨hrefuse, hupd⟩ | ⟨haccept, j', hupd, hj', hq', hp⟩
    · simp only [heq, hupd, ok_bind]
      exact .inr ⟨_, node, rfl, ⟨ht, hq, rfl, hj⟩, .inr ⟨hrefuse, rfl⟩⟩
    · simp only [heq, hupd, ok_bind, invoke]
      rw [if_pos (by decide)]
      split
      · next hnull => exact .inl ⟨rfl, node, by rw [hq]; exact List.mem_cons_self, hnull⟩
      · exact .inr ⟨_, node, rfl, ⟨ht, by rw [hq, hq'], rfl, hj'⟩, .inl ⟨haccept, hp, rfl⟩⟩

/-- `propagateInterrupt` does not return at once. -/
def propagates (k : Core) : Bool :=
  !(k.stage.trapPending || k.stage.interrupt.isSome || k.stage.trapSquash ||
    k.stage.tcSquash || k.stage.drainImminent)

/-- The outcomes of `propagateInterrupt`. A node that it takes out of the queue stays only in
the stage's local copy `interrupt`, which no function hands to `invoke`. -/
theorem propagateInterrupt_cases (h : k.apic.FlagsOk)
    (hcheck : k.apic.checkInterrupts k.tc = true) :
    ∃ k', k.propagateInterrupt = .ok k' ∧
      (k.Same k' ∨
        (k.propagates = true ∧ k'.invoked = k.invoked ∧ ∃ node, k.Takes k' node)) := by
  unfold propagateInterrupt propagates
  split
  · exact ⟨k, rfl, .inl (.refl h)⟩
  · next hgo =>
    rcases Interrupts.getInterrupt_cases h hcheck with
      ⟨fault, heq, _, _⟩ | ⟨heq, _, _⟩ | ⟨node, j, heq, ht, hq, _, hj⟩
    · simp only [heq, ok_bind]
      exact ⟨_, rfl, .inl ⟨rfl, rfl, rfl, rfl, h⟩⟩
    · simp only [heq, ok_bind]
      exact ⟨_, rfl, .inl ⟨rfl, rfl, rfl, rfl, h⟩⟩
    · simp only [heq, ok_bind]
      exact ⟨_, rfl, .inr ⟨by simpa using hgo, rfl, node, ht, hq, rfl, hj⟩⟩

/-- `handleInterrupt` goes on to `processInterrupts`. -/
def handles (k : Core) : Bool :=
  k.apic.checkInterrupts k.tc && (k.stage.canHandleInterrupts && k.stage.instListEmpty)

/-- `handleInterrupt` leaves the controller alone, or is a check that uses the result of
`updateIntrInfo`. -/
theorem handleInterrupt_cases (h : k.apic.FlagsOk) :
    (∃ k', k.handleInterrupt cr3Map = .ok k' ∧ k.Same k' ∧ k.handles ≠ true) ∨
    (k.handles = true ∧
      ((∃ abort, k.getAndProcess cr3Map = .error abort ∧
          k.handleInterrupt cr3Map = .error abort) ∨
        ∃ k₁, k.getAndProcess cr3Map = .ok k₁ ∧ k.handleInterrupt cr3Map =
          .ok { k₁ with stage := { k₁.stage with trapPending := true, interrupt := none } })) := by
  unfold handleInterrupt handles
  by_cases hcheck : k.apic.checkInterrupts k.tc = true
  · rw [if_pos hcheck, hcheck, Bool.true_and]
    split
    · next hcan =>
      refine .inr ⟨hcan, ?_⟩
      cases hproc : k.getAndProcess cr3Map with
      | error abort => exact .inl ⟨abort, rfl, rfl⟩
      | ok k₁ => exact .inr ⟨k₁, rfl, rfl⟩
    · next hcan => exact .inl ⟨k, rfl, .refl h, hcan⟩
  · rw [if_neg hcheck]
    exact .inl ⟨_, rfl, ⟨rfl, rfl, rfl, rfl, h⟩, by simp [hcheck]⟩

end Core

/-! ### Calls on one core -/

section

variable {C : Type} [DecidableEq C] {s s' : Machine C} {c : C} {f : Core → Except Abort Core}

namespace Machine

/-- A call that returns replaces its core. -/
theorem call_of_ok {k : Core} (h : f (s.cores c) = .ok k) : s.call c f = s.setCore c k := by
  unfold call
  rw [h]

/-- A call that runs into an `assert` leaves all cores as they are. -/
theorem call_of_error {abort : Abort} (h : f (s.cores c) = .error abort) :
    s.call c f = { s with aborted := some abort } := by
  unfold call
  rw [h]

/-- A property of single cores holds after a call if the call gives it to its core. -/
theorem call_cores {P : Core → Prop} (h : ∀ d, P (s.cores d))
    (hf : ∀ k, f (s.cores c) = .ok k → P k) : ∀ d, P ((s.call c f).cores d) := by
  intro d
  cases hk : f (s.cores c) with
  | error abort =>
    rw [call_of_error hk]
    exact h d
  | ok k =>
    rw [call_of_ok hk]
    show P (if d = c then k else s.cores d)
    split
    · exact hf k hk
    · exact h d

/-- An end of the simulation that the call does not bring about. -/
theorem call_aborted {abort : Abort} (h : s.aborted ≠ some abort)
    (hf : f (s.cores c) ≠ .error abort) : (s.call c f).aborted ≠ some abort := by
  cases hk : f (s.cores c) with
  | ok k =>
    rw [call_of_ok hk]
    exact h
  | error e =>
    rw [call_of_error hk]
    rintro he
    cases he
    exact hf hk

/-- A step is possible only while the simulation runs. -/
theorem perform_of_step {a : Act C} (h : s.step a = some s') :
    s.aborted = none ∧ s.perform a = some s' := by
  unfold step at h
  split at h
  · cases h
  · next hrun => exact ⟨Option.not_isSome_iff_eq_none.mp hrun, h⟩

/-- The simple CPU checks whenever it likes. -/
theorem step_checkForInterrupts (h : s.step (.checkForInterrupts c) = some s') :
    s' = s.call c (·.checkForInterrupts s.cr3Map) :=
  (Option.some.inj (perform_of_step h).2).symm

/-- The other checks are made only when `checkInterrupts` says so. -/
theorem step_processInterrupts (h : s.step (.processInterrupts c) = some s') :
    (s.cores c).apic.checkInterrupts (s.cores c).tc = true ∧
      s' = s.call c (·.getAndProcess s.cr3Map) := by
  obtain ⟨hcheck, heq⟩ := Option.ite_none_right_eq_some.mp (perform_of_step h).2
  exact ⟨hcheck, (Option.some.inj heq).symm⟩

/-- The first half of the check of the out-of-order CPU. -/
theorem step_propagateInterrupt (h : s.step (.propagateInterrupt c) = some s') :
    (s.cores c).apic.checkInterrupts (s.cores c).tc = true ∧
      s' = s.call c (·.propagateInterrupt) := by
  obtain ⟨hcheck, heq⟩ := Option.ite_none_right_eq_some.mp (perform_of_step h).2
  exact ⟨hcheck, (Option.some.inj heq).symm⟩

/-- The second half, which `commitInsts` makes while the stage holds an interrupt. -/
theorem step_handleInterrupt (h : s.step (.handleInterrupt c) = some s') :
    s' = s.call c (·.handleInterrupt s.cr3Map) := by
  obtain ⟨_, heq⟩ := Option.ite_none_right_eq_some.mp (perform_of_step h).2
  exact (Option.some.inj heq).symm

/-- Only `stacklet_sendi` writes the global maps. -/
@[simp] theorem call_cr3Map : (s.call c f).cr3Map = s.cr3Map := by
  unfold call
  split <;> rfl

@[simp] theorem call_msgMap : (s.call c f).msgMap = s.msgMap := by
  unfold call
  split <;> rfl

end Machine

end

/-! ### Two cores -/

/-- A thread in user mode with maskable interrupts enabled, in the process with this `CR3`. -/
def userContext (cr3 : UInt64) : ThreadContext where
  cr3 := cr3
  cs := 0x33
  ds := 0x2b
  es := 0x2b
  rflags := 0x202
  cc := ⟨0, 0, 0⟩
  pc := 0x400000
  rsp := 0x7fff0000
  rdi := 0
  uliSP := 0x7ffe0000
  savedULIPC := 0
  savedULISP := 0
  savedULIDI := 0
  savedULIRFLAGS := 0
  wasKernelMode := false

/-- A commit stage with nothing in flight. -/
def idleStage : CommitStage where
  interrupt := none
  trapPending := false
  trapSquash := false
  tcSquash := false
  drainImminent := false
  canHandleInterrupts := true
  instListEmpty := true

/-- Two cores, each running a thread of the given process. -/
def twoCores (cr3 : Fin 2 → UInt64) : Machine (Fin 2) :=
  Machine.initial (fun c => userContext (cr3 c)) fun _ => idleStage

end Stacklets.Gem5

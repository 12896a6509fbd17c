import Stacklets.Gem5.Machine

/-!
# `Stacklets.Gem5.Return`: returning from a user-level interrupt

`ULI::invoke` saves the program counter, the stack pointer, `RDI` and `MISCREG_RFLAGS` of the
thread in variables of its context, and `stacklet_retuli` loads them again. There is one set of
these variables for a thread. In kernel mode `ULI::invoke` also overwrites `CS`, `DS` and `ES`, and
`stacklet_retuli` sets them to constants. The condition codes are in registers of their own, which
neither of the two saves or restores. A program sees both words together as `RFLAGS`.

A sequence of events on one thread context is a run of `Delivery.step`: deliveries, what the
handlers do in between, and returns. `stacklet_uli_toggle` is an event too, and does nothing.

* `retuli_restores`: if no ULI is delivered inside a handler, a ULI that arrives in kernel mode
  finds `DS` and `ES` at 18, and a handler returns with the condition codes that it found, the
  return undoes the delivery.
* `retuli_loses`: two nested deliveries, one delivery in kernel mode, and one handler that does
  some arithmetic.
-/

set_option autoImplicit false

namespace Stacklets.Gem5

open Lib

/-- `stacklet_retuli`. -/
def retuli (tc : ThreadContext) : ThreadContext :=
  let tc := if tc.wasKernelMode then { tc with cs := 0x10, ds := 18, es := 18 } else tc
  { tc with
    rdi := tc.savedULIDI
    rsp := tc.savedULISP
    rflags := tc.savedULIRFLAGS
    pc := tc.savedULIPC }

/-- A thread context, and the number of handlers that have not returned. `found` is a history:
the condition codes at the latest delivery. -/
structure Delivery where
  tc : ThreadContext
  depth : Nat
  found : CCRegs

inductive UliEvent where
  /-- A ULI is delivered. -/
  | invoke (node : UliNode)
  /-- The handler runs up to this point, with these values in the registers it may use. -/
  | handler (pc rsp rdi rflags : UInt64) (cc : CCRegs)
  /-- `stacklet_uli_toggle`. -/
  | toggle (enable : UInt32) (mask : UInt16)
  /-- The handler executes `stacklet_retuli`. -/
  | retuli

namespace Delivery

/-- Nothing is delivered yet. -/
def initial (tc : ThreadContext) : Delivery := ⟨tc, 0, tc.cc⟩

/-- One event. The `assert` of `ULI::invoke` stops the simulation. -/
def step (s : Delivery) : UliEvent → Option Delivery
  | .invoke node =>
    if node.uliHandlerPc = 0 then none
    else some ⟨Core.invokeULI s.tc node, s.depth + 1, s.tc.cc⟩
  | .handler pc rsp rdi rflags cc =>
    if s.depth = 0 then none else some { s with tc := { s.tc with pc, rsp, rdi, rflags, cc } }
  | .toggle _ _ => some s
  | .retuli =>
    if s.depth = 0 then none else some { s with tc := Gem5.retuli s.tc, depth := s.depth - 1 }

/-- What the interrupted code finds again. -/
structure Restored (tc tc' : ThreadContext) : Prop where
  pc : tc'.pc = tc.pc
  rsp : tc'.rsp = tc.rsp
  rdi : tc'.rdi = tc.rdi
  rflags : tc'.getRFlags = tc.getRFlags
  cs : tc'.cs = tc.cs
  ds : tc'.ds = tc.ds
  es : tc'.es = tc.es

/-- The condition on the events. At a delivery no handler runs, and in kernel mode `DS` and `ES`
hold the values that `stacklet_retuli` is going to set. A handler that returns has left the
condition codes as it found them, or has put them back. -/
def Outermost (s : Delivery) : UliEvent → Prop
  | .invoke _ => s.depth = 0 ∧ (s.tc.cs = kernelCS → s.tc.ds = 18 ∧ s.tc.es = 18)
  | .retuli => s.tc.cc = s.found
  | _ => True

instance (s : Delivery) : ∀ a, Decidable (s.Outermost a)
  | .invoke _ =>
    inferInstanceAs (Decidable (s.depth = 0 ∧ (s.tc.cs = kernelCS → s.tc.ds = 18 ∧ s.tc.es = 18)))
  | .retuli => inferInstanceAs (Decidable (s.tc.cc = s.found))
  | .handler .. | .toggle _ _ => isTrue trivial

/-- The thread context is back to what it was, in both words of the flags. -/
structure Back (tc tc' : ThreadContext) : Prop where
  pc : tc'.pc = tc.pc
  rsp : tc'.rsp = tc.rsp
  rdi : tc'.rdi = tc.rdi
  rflags : tc'.rflags = tc.rflags
  cc : tc'.cc = tc.cc
  cs : tc'.cs = tc.cs
  ds : tc'.ds = tc.ds
  es : tc'.es = tc.es

/-- While a handler runs, the registers of the interrupted code are in the saved variables. The
segment registers are untouched, or they are the ones that the return is going to set. -/
structure Saved (tc tc' : ThreadContext) : Prop where
  pc : tc'.savedULIPC = tc.pc
  rsp : tc'.savedULISP = tc.rsp
  rdi : tc'.savedULIDI = tc.rdi
  rflags : tc'.savedULIRFLAGS = tc.rflags
  user : tc'.wasKernelMode = false → tc'.cs = tc.cs ∧ tc'.ds = tc.ds ∧ tc'.es = tc.es
  kernel : tc'.wasKernelMode = true → tc.cs = kernelCS ∧ tc.ds = 18 ∧ tc.es = 18

/-- A program that sees `RFLAGS` cannot tell the two contexts apart. -/
theorem Back.restored {tc tc' : ThreadContext} (h : Back tc tc') : Restored tc tc' where
  pc := h.pc
  rsp := h.rsp
  rdi := h.rdi
  rflags := by rw [ThreadContext.getRFlags, h.rflags, h.cc]; rfl
  cs := h.cs
  ds := h.ds
  es := h.es

/-- A delivery saves what the interrupted code needs. In kernel mode the segment registers are
overwritten, so that they have to be the constants that the return sets. -/
theorem Back.saved {tc tc' : ThreadContext} (h : Back tc tc') (node : UliNode)
    (hkernel : tc'.cs = kernelCS → tc'.ds = 18 ∧ tc'.es = 18) :
    Saved tc (Core.invokeULI tc' node) := by
  unfold Core.invokeULI
  dsimp only
  by_cases hcs : tc'.cs = kernelCS
  · rw [if_pos hcs]
    obtain ⟨hds, hes⟩ := hkernel hcs
    exact ⟨h.pc, h.rsp, h.rdi, h.rflags, nofun,
      fun _ => ⟨h.cs ▸ hcs, h.ds ▸ hds, h.es ▸ hes⟩⟩
  · rw [if_neg hcs]
    exact ⟨h.pc, h.rsp, h.rdi, h.rflags, fun _ => ⟨h.cs, h.ds, h.es⟩, nofun⟩

/-- A return loads it again. The condition codes stay as the handler has left them. -/
theorem Saved.back {tc tc' : ThreadContext} (h : Saved tc tc') (hcc : tc'.cc = tc.cc) :
    Back tc (Gem5.retuli tc') := by
  unfold Gem5.retuli
  dsimp only
  by_cases hmode : tc'.wasKernelMode = true
  · rw [if_pos hmode]
    obtain ⟨hcs, hds, hes⟩ := h.kernel hmode
    exact ⟨h.pc, h.rsp, h.rdi, h.rflags, hcc, hcs.symm, hds.symm, hes.symm⟩
  · rw [if_neg hmode]
    obtain ⟨hcs, hds, hes⟩ := h.user (Bool.eq_false_iff.mpr hmode)
    exact ⟨h.pc, h.rsp, h.rdi, h.rflags, hcc, hcs, hds, hes⟩

/-- Either no handler runs and the interrupted code has its registers, or one handler runs that
has found the condition codes of the interrupted code. -/
def Inv (tc : ThreadContext) (s : Delivery) : Prop :=
  s.depth = 0 ∧ Back tc s.tc ∨ s.depth = 1 ∧ Saved tc s.tc ∧ s.found = tc.cc

/-- Every event under the condition keeps the invariant. -/
theorem Inv.step {tc : ThreadContext} {s s' : Delivery} {a : UliEvent} (h : Inv tc s)
    (hok : s.Outermost a) (hstep : s.step a = some s') : Inv tc s' := by
  cases a with
  | invoke node =>
    obtain ⟨hdepth, hkernel⟩ := hok
    cases (Option.ite_none_left_eq_some.mp hstep).2
    rcases h with ⟨_, hback⟩ | ⟨hone, _⟩
    · exact .inr ⟨by rw [hdepth], hback.saved node hkernel, hback.cc⟩
    · rw [hdepth] at hone
      cases hone
  | handler pc rsp rdi rflags cc =>
    obtain ⟨hdepth, heq⟩ := Option.ite_none_left_eq_some.mp hstep
    cases heq
    rcases h with ⟨hzero, _⟩ | ⟨hone, hsaved, hfound⟩
    · exact absurd hzero hdepth
    · -- the handler changes none of the saved variables
      exact .inr ⟨hone, ⟨hsaved.pc, hsaved.rsp, hsaved.rdi, hsaved.rflags, hsaved.user,
        hsaved.kernel⟩, hfound⟩
  | toggle enable mask =>
    cases hstep
    exact h
  | retuli =>
    obtain ⟨hdepth, heq⟩ := Option.ite_none_left_eq_some.mp hstep
    cases heq
    rcases h with ⟨hzero, _⟩ | ⟨hone, hsaved, hfound⟩
    · exact absurd hzero hdepth
    · exact .inl ⟨by rw [hone], hsaved.back (hok.trans hfound)⟩

/-- When all handlers have returned, the interrupted code has its registers, for every thread
context and every sequence of events that meet the condition. -/
theorem retuli_restores (tc : ThreadContext) (as : List UliEvent) (s : Delivery)
    (hok : RunUnder step Outermost (initial tc) as) (hrun : run step (initial tc) as = some s)
    (hdepth : s.depth = 0) : Restored tc s.tc := by
  have hinit : Inv tc (initial tc) := .inl ⟨rfl, rfl, rfl, rfl, rfl, rfl, rfl, rfl, rfl⟩
  have hinv : Inv tc s := runUnder_induction (fun _ _ _ h hok hstep => Inv.step h hok hstep) as
    (initial tc) s hinit hok hrun
  rcases hinv with ⟨_, hback⟩ | ⟨hone, _⟩
  · exact hback.restored
  · rw [hdepth] at hone
    cases hone

end Delivery

/-- A node with a handler at `0x401000`. -/
def someNode : UliNode := ⟨0, 0x5000, 0x401000, none⟩

/-- A thread in kernel mode. -/
def kernelContext : ThreadContext :=
  { userContext 1 with cs := 0x10, ds := 0x18, es := 0x18 }

/-- The condition codes behind an operation with the result zero: ZF and PF. -/
def zeroFlags : CCRegs := ⟨0x44, 0, 0⟩

/-- Two deliveries, one after the other. The first handler changes the condition codes and puts
them back. -/
def oneByOne : List UliEvent :=
  [.invoke someNode, .handler 0x401008 0x7ffdfff0 3 0x202 zeroFlags,
    .handler 0x401010 0x7ffdfff0 3 0x202 ⟨0, 0, 0⟩, .toggle 0 1, .retuli,
    .invoke someNode, .retuli]

/-- Both returns of `oneByOne` undo their deliveries. -/
theorem retuli_restores_oneByOne :
    ∃ s, run Delivery.step (.initial (userContext 1)) oneByOne = some s ∧ s.depth = 0 ∧
      Delivery.Restored (userContext 1) s.tc := by
  have hok : RunUnder Delivery.step Delivery.Outermost (.initial (userContext 1)) oneByOne := by
    decide +kernel
  have h : (run Delivery.step (.initial (userContext 1)) oneByOne).map Delivery.depth =
      some 0 := by
    decide +kernel
  obtain ⟨s, hrun, hdepth⟩ := Option.map_eq_some_iff.mp h
  exact ⟨s, hrun, hdepth, Delivery.retuli_restores (userContext 1) oneByOne s hok hrun hdepth⟩

/-- A ULI is delivered while the handler of another one runs. -/
def nested : List UliEvent :=
  [.invoke someNode, .handler 0x401008 0x7ffdfff0 3 0x202 ⟨0, 0, 0⟩, .invoke someNode, .retuli,
    .retuli]

/-- The last operation of the handler has the result zero. -/
def endsWithZero : List UliEvent :=
  [.invoke someNode, .handler 0x401008 0x7ffdfff0 3 0x202 zeroFlags, .retuli]

/-- After two nested deliveries the thread is back in the outer handler. After one delivery in
kernel mode `DS` is 18 where it was `0x18`, and after two nested ones `CS` is that of user
mode. After one delivery whose handler has set ZF and PF, so has the interrupted code. -/
theorem retuli_loses :
    (∃ s, run Delivery.step (.initial (userContext 1)) nested = some s ∧ s.depth = 0 ∧
      s.tc.pc = 0x401008 ∧ (userContext 1).pc = 0x400000) ∧
    (∃ s, run Delivery.step (.initial kernelContext) [.invoke someNode, .retuli] = some s ∧
      s.depth = 0 ∧ s.tc.ds = 18 ∧ kernelContext.ds = 0x18) ∧
    (∃ s, run Delivery.step (.initial kernelContext) nested = some s ∧ s.depth = 0 ∧
      s.tc.cs = 0x33 ∧ kernelContext.cs = 0x10) ∧
    (∃ s, run Delivery.step (.initial (userContext 1)) endsWithZero = some s ∧ s.depth = 0 ∧
      s.tc.getRFlags = 0x246 ∧ (userContext 1).getRFlags = 0x202) := by
  refine ⟨?_, ?_, ?_, ?_⟩
  · exact ⟨_, rfl, rfl, rfl, rfl⟩
  · exact ⟨_, rfl, rfl, rfl, rfl⟩
  · exact ⟨_, rfl, rfl, rfl, rfl⟩
  · exact ⟨_, rfl, rfl, by decide, by decide⟩

end Stacklets.Gem5

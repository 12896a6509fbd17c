import Mathlib.Logic.Function.Basic
import Stacklets.Uli.Interrupt

/-!
# `Stacklets.Uli.Machine`: the lock of `sync/mylock.c` on user-level interrupts

The state of a set of cores that use locks through `mylock` and `myunlock`, and the function
`step` that lets one core do its next atomic step. One step is one read, store or
compare-and-swap of `owner_id`, `trigger`, `waiter_id` or the interrupt flag, one `SENDI`, or
one turn of the loop in `i_handler`. `step` follows `mylock`, `myunlock` and `addme`
(`mylock.c`) and `sendI` (`u_interrupt.c`). `dui`, `eui`, `i_handler` and `poll` are those of
`Stacklets.Uli.Interrupt`, with `addme` for the callback.

A core runs its thread, and on top of it a stack of handlers. The topmost activity moves. A
handler starts from `poll`, which takes the messages of the core one after the other. With
`Delivery.anywhere` it also starts at any other step at which the interrupt flag is clear, as
it would with interrupts in hardware.

The cores `C` and the locks `K` are arbitrary types. A request carries the contents of the
`addme_cfd` that it points to. That structure lies on the stack of the asking `mylock`, which
stays there until the request has been served.

`held` and the three histories record what happened, and the code does not read them, but for
the rule that a thread locks only what it does not hold and unlocks only what it holds. `won`
in a place records the result of the compare-and-swap before it, which the code throws away.
`malloc` is taken to succeed.
-/

set_option autoImplicit false

namespace Stacklets.Uli

open Function (update)

/-- When a handler may start. -/
inductive Delivery
  /-- Only from `POLL`, and from the `POLL` in `EUI`. -/
  | poll
  /-- At any step at which the flag of the core is clear. -/
  | anywhere
deriving DecidableEq

/-- `struct addme_cfd`. -/
structure AddmeCfd (C K : Type*) where
  L : K
  askId : C
deriving DecidableEq

/-- Where a handler is in `addme`. -/
inductive AddmePC (C : Type*)
  /-- `DUI(1)`. -/
  | start
  /-- `retry`: `if (L->owner_id != my_id)`. -/
  | retry
  /-- `if (L->owner_id == -1)`. -/
  | testFree
  /-- The compare-and-swap on behalf of `ask_id`. -/
  | cas
  /-- `if (L->owner_id != ask_id)`. -/
  | reread (won : Bool)
  /-- `save_id = L->owner_id`, in either branch. -/
  | saveId
  /-- `SENDI(msg, save_id)`. -/
  | send (save : C)
  /-- `*next_trigger = 1`. -/
  | trigger
  /-- `L->owner_id = ask_id`. -/
  | setOwner
  /-- `pcpu_lock_struct[my_id].waiter_id = ask_id`. -/
  | setWaiter
  /-- `EUI(0xfffe)`. -/
  | eui
deriving DecidableEq

/-- An activity on top of the thread. -/
inductive Frame (C K : Type*)
  /-- `poll`: test the flag. -/
  | poll
  /-- The loop of `i_handler`. -/
  | handler
  /-- `addme(p)`. -/
  | addme (p : AddmeCfd C K) (pc : AddmePC C)
deriving DecidableEq

/-- Where the thread of a core is. -/
inductive MainPC (C K : Type*)
  /-- Outside of `mylock` and `myunlock`. -/
  | app
  /-- `mylock`: `if (L->owner_id == -1)`. -/
  | lockTest (L : K)
  /-- `retry`: the compare-and-swap. -/
  | lockCas (L : K)
  /-- `if (L->owner_id != my_id)`. -/
  | lockReread (L : K) (won : Bool)
  /-- `if (L->owner_id == -1)`. -/
  | lockTestFree (L : K)
  /-- `save_id = L->owner_id`. -/
  | lockSaveId (L : K)
  /-- `SENDI(msg, save_id)`. -/
  | lockSend (L : K) (save : C)
  /-- `while (!(*my_trigger)) POLL()`. -/
  | lockSpin (L : K)
  /-- `*my_trigger = 0`. -/
  | lockClear (L : K)
  /-- `myunlock`: `DUI(1)`. -/
  | unlockDui (L : K)
  /-- `if (pcpu_lock_struct[my_id].waiter_id != -1)`. -/
  | unlockTest (L : K)
  /-- `next_trigger = get_trigger(pcpu_lock_struct[my_id].waiter_id)`. -/
  | unlockGet (L : K)
  /-- `*next_trigger = 1`. -/
  | unlockTrigger (L : K) (next : C)
  /-- `pcpu_lock_struct[my_id].waiter_id = -1`. -/
  | unlockClear (L : K)
  /-- `L->owner_id = -1`. -/
  | unlockFree (L : K)
  /-- `EUI(0xfffe)`. -/
  | unlockEui (L : K)
  /-- An access outside of `pcpu_lock_struct`. -/
  | wild
deriving DecidableEq

/-- The shared memory, and the activities of every core. `-1` is `none`. -/
structure State (C K : Type*) where
  ownerId : K → Option C
  trigger : C → Bool
  waiterId : C → Option C
  flags : C → BitVec 32
  msgBufs : C → List (AddmeCfd C K)
  main : C → MainPC C K
  frames : C → List (Frame C K)
  /-- The thread has returned from `mylock` and not yet done the releasing store. -/
  held : K → C → Bool
  /-- The values other than `-1` written to `owner_id`, the oldest first. -/
  written : K → List C
  /-- The cores that returned from `mylock`. -/
  returned : K → List C
  /-- The cores that did the releasing store of `myunlock`. -/
  released : K → List C

/-- What happens next. -/
inductive Action (C K : Type*)
  /-- The topmost activity of a core moves. -/
  | step (c : C)
  /-- The thread of a core calls `mylock(L)`. -/
  | mylock (c : C) (L : K)
  /-- The thread of a core calls `myunlock(L)`. -/
  | myunlock (c : C) (L : K)
  /-- The thread of a core calls `POLL()`. -/
  | poll (c : C)
  /-- A message interrupts a core. -/
  | interrupt (c : C)
deriving DecidableEq

section
variable {C K : Type*} [DecidableEq C] [DecidableEq K]

namespace State

/-- The thread of `c` goes on at `pc`. -/
@[simp] def goto (s : State C K) (c : C) (pc : MainPC C K) : State C K :=
  { s with main := update s.main c pc }

/-- The activities on top of the thread of `c` become `fs`. -/
@[simp] def setFrames (s : State C K) (c : C) (fs : List (Frame C K)) : State C K :=
  { s with frames := update s.frames c fs }

/-- The store `L->owner_id = v`. -/
@[simp] def setOwner (s : State C K) (L : K) (v : Option C) : State C K :=
  { s with ownerId := update s.ownerId L v }

/-- The store `L->owner_id = c` of a core, which is recorded. -/
@[simp] def writeOwner (s : State C K) (L : K) (c : C) : State C K :=
  { s.setOwner L (some c) with written := update s.written L (s.written L ++ [c]) }

/-- The store `trigger = v` of the core `c`. -/
@[simp] def setTrigger (s : State C K) (c : C) (v : Bool) : State C K :=
  { s with trigger := update s.trigger c v }

/-- The store `waiter_id = v` of the core `c`. -/
@[simp] def setWaiter (s : State C K) (c : C) (v : Option C) : State C K :=
  { s with waiterId := update s.waiterId c v }

/-- `dui(1)` on the core `c`. -/
@[simp] def dui (s : State C K) (c : C) : State C K :=
  { s with flags := update s.flags c (Uli.dui (s.flags c) 1) }

/-- `eui(0xfffe)` on the core `c`, up to its `POLL()`. -/
@[simp] def eui (s : State C K) (c : C) : State C K :=
  { s with flags := update s.flags c (Uli.eui (s.flags c) 0xfffe) }

/-- `sendI(p, target)`. -/
@[simp] def sendI (s : State C K) (target : C) (p : AddmeCfd C K) : State C K :=
  { s with msgBufs := update s.msgBufs target (s.msgBufs target ++ [p]) }

/-- Take the messages of `c` but the first one, `rest`, as the ones left. -/
@[simp] def setMsgs (s : State C K) (c : C) (rest : List (AddmeCfd C K)) : State C K :=
  { s with msgBufs := update s.msgBufs c rest }

/-- The thread of `c` has or does not have `L`. -/
@[simp] def setHeld (s : State C K) (L : K) (c : C) (v : Bool) : State C K :=
  { s with held := update s.held L (update (s.held L) c v) }

/-- `mylock(L)` returns on the core `c`. -/
@[simp] def lockReturns (s : State C K) (c : C) (L : K) : State C K :=
  { s.setHeld L c true with
    returned := update s.returned L (s.returned L ++ [c]) }

/-- The core `c` does the releasing store of `myunlock(L)`. -/
@[simp] def lockReleased (s : State C K) (c : C) (L : K) : State C K :=
  { s.setHeld L c false with
    released := update s.released L (s.released L ++ [c]) }

end State

/-- One step of `addme(p)` on the core `c`, with `fs` below it. -/
def addmeStep (s : State C K) (c : C) (p : AddmeCfd C K) (fs : List (Frame C K)) :
    AddmePC C → State C K
  | .start => (s.dui c).setFrames c (.addme p .retry :: fs)
  | .retry =>
    if s.ownerId p.L ≠ some c then s.setFrames c (.addme p .testFree :: fs)
    else s.setFrames c (.addme p .setOwner :: fs)
  | .testFree =>
    if s.ownerId p.L = none then s.setFrames c (.addme p .cas :: fs)
    else s.setFrames c (.addme p .saveId :: fs)
  | .cas =>
    if s.ownerId p.L = none then
      (s.writeOwner p.L p.askId).setFrames c (.addme p (.reread true) :: fs)
    else s.setFrames c (.addme p (.reread false) :: fs)
  | .reread _ =>
    if s.ownerId p.L ≠ some p.askId then s.setFrames c (.addme p .saveId :: fs)
    else s.setFrames c (.addme p .trigger :: fs)
  | .saveId =>
    match s.ownerId p.L with
    | none => s.setFrames c (.addme p .retry :: fs)
    | some save => s.setFrames c (.addme p (.send save) :: fs)
  | .send save => (s.sendI save p).setFrames c (.addme p .eui :: fs)
  | .trigger => (s.setTrigger p.askId true).setFrames c (.addme p .eui :: fs)
  | .setOwner => (s.writeOwner p.L p.askId).setFrames c (.addme p .setWaiter :: fs)
  | .setWaiter => (s.setWaiter c (some p.askId)).setFrames c (.addme p .eui :: fs)
  | .eui => (s.eui c).setFrames c (.poll :: fs)

/-- One step of the topmost handler on the core `c`, with `fs` below it. -/
def frameStep (s : State C K) (c : C) (fs : List (Frame C K)) : Frame C K → State C K
  | .poll => s.setFrames c (poll (s.flags c) .handler fs)
  | .handler =>
    match iHandler (fun p => some (.addme p .start)) .handler fs (s.msgBufs c) with
    | some (rest, fs') => (s.setMsgs c rest).setFrames c fs'
    | none => s
  | .addme p pc => addmeStep s c p fs pc

theorem frameStep_poll (s : State C K) (c : C) (fs : List (Frame C K)) :
    frameStep s c fs .poll =
      if Masked (s.flags c) then s.setFrames c fs else s.setFrames c (.handler :: fs) := by
  simp only [frameStep, poll]
  split <;> rfl

/-- The loop ends when no message waits, and calls `addme` for the first one otherwise. -/
theorem frameStep_handler (s : State C K) (c : C) (fs : List (Frame C K)) :
    frameStep s c fs .handler =
      match s.msgBufs c with
      | [] => s.setFrames c fs
      | p :: rest => (s.setMsgs c rest).setFrames c (.addme p .start :: .handler :: fs) := by
  simp only [frameStep]
  cases hq : s.msgBufs c with
  | nil => simp [iHandler, ← hq]
  | cons p rest => rfl

/-- One step of the thread of the core `c`, with no handler on top of it. -/
def mainStep (s : State C K) (c : C) : MainPC C K → Option (State C K)
  | .app => none
  | .lockTest L =>
    if s.ownerId L = none then some (s.goto c (.lockCas L))
    else some (s.goto c (.lockReread L false))
  | .lockCas L =>
    if s.ownerId L = none then some ((s.writeOwner L c).goto c (.lockReread L true))
    else some (s.goto c (.lockReread L false))
  | .lockReread L _ =>
    if s.ownerId L ≠ some c then some (s.goto c (.lockTestFree L))
    else some (s.goto c (.lockClear L))
  | .lockTestFree L =>
    if s.ownerId L = none then some (s.goto c (.lockCas L))
    else some (s.goto c (.lockSaveId L))
  | .lockSaveId L =>
    match s.ownerId L with
    | none => some (s.goto c (.lockCas L))
    | some save => some (s.goto c (.lockSend L save))
  | .lockSend L save => some ((s.sendI save ⟨L, c⟩).goto c (.lockSpin L))
  | .lockSpin L =>
    if s.trigger c then some (s.goto c (.lockClear L))
    else some (s.setFrames c [.poll])
  | .lockClear L => some (((s.setTrigger c false).lockReturns c L).goto c .app)
  | .unlockDui L => some ((s.dui c).goto c (.unlockTest L))
  | .unlockTest L =>
    if s.waiterId c ≠ none then some (s.goto c (.unlockGet L))
    else some (s.goto c (.unlockFree L))
  | .unlockGet L =>
    match s.waiterId c with
    | some next => some (s.goto c (.unlockTrigger L next))
    | none => some (s.goto c .wild)
  | .unlockTrigger L next =>
    some (((s.setTrigger next true).lockReleased c L).goto c (.unlockClear L))
  | .unlockClear L => some ((s.setWaiter c none).goto c (.unlockEui L))
  | .unlockFree L => some (((s.setOwner L none).lockReleased c L).goto c (.unlockEui L))
  | .unlockEui _ => some (((s.eui c).setFrames c [.poll]).goto c .app)
  | .wild => none

/-- One step of the cores. -/
def step (d : Delivery) (s : State C K) : Action C K → Option (State C K)
  | .step c =>
    match s.frames c with
    | f :: fs => some (frameStep s c fs f)
    | [] => mainStep s c (s.main c)
  | .mylock c L =>
    if s.main c = .app ∧ s.frames c = [] ∧ s.held L c = false then
      some (s.goto c (.lockTest L))
    else none
  | .myunlock c L =>
    if s.main c = .app ∧ s.frames c = [] ∧ s.held L c = true then
      some (s.goto c (.unlockDui L))
    else none
  | .poll c =>
    if s.main c = .app ∧ s.frames c = [] then some (s.setFrames c [.poll]) else none
  | .interrupt c =>
    match d, s.msgBufs c with
    | .anywhere, p :: rest =>
      if Masked (s.flags c) then none
      else some ((s.setMsgs c rest).setFrames c (.addme p .start :: s.frames c))
    | _, _ => none

/-- The state behind `init_uli` and `init_lock`: every lock is free, and every thread is about
to use them. -/
def initial (C K : Type*) : State C K where
  ownerId _ := none
  trigger _ := false
  waiterId _ := none
  flags _ := 0
  msgBufs _ := []
  main _ := .app
  frames _ := []
  held _ _ := false
  written _ := []
  returned _ := []
  released _ := []

end

end Stacklets.Uli

import Stacklets.Lib.Runs
import Stacklets.Steal.Machine

/-!
# `Stacklets.MsgPool.Machine`: the message buffers of `compiler/uli` in memory

`Stacklets.Steal.Machine` lets the contents of the message buffers travel, and takes it that no
buffer has two users. Here the buffers are memory. `getMsg` takes one from the list of its thread,
which is linked through `next` and is refilled with a chunk of `ALLOC_COUNT` buffers when it is
empty. The buffer goes through message queues and handlers, and `freeMsgBuffer` puts it in front
of the list of the thread that frees it.

A step is what a thread does between two places where handlers can start, or less. Handlers start
only at a poll, which is in `suspend` and in `myeui`. `step` follows `getMsg` and `freeMsgBuffer`
(`msgs.c`), `noWorkHandler`, `stealHandler`, `forkHandler`, `returnInletHandler`, `setupMsgBuffer`
and `remoteStackletFork` (`stacklet.c`), and `sendI` (`sync/u_interrupt.c`). `mydui`, `myeui`,
`poll` and `i_handler` are those of `Stacklets.Uli.Interrupt`.

* All that does not touch a buffer is left open. Below its handlers a thread is in `getMsg` for a
  use of its choice, or somewhere else, where it may call `mydui`, `myeui`, `POLL` and `getMsg` in
  any order. Whether `stealHandler` finds a seed is left open as well.
* A buffer is named by its chunk and its place there. The memory of a chunk is never freed.
* A message queue is one list, as `Stacklets.Messages.Contents` shows it to be.
* Stacks are as in `Stacklets.Steal.Machine`. A handler that jumps away for good drops all that
  lies below it, and the buffers that were held there are lost. Where `remoteStackletFork`
  overwrites frames, the run goes on here as if they had been kept.
-/

set_option autoImplicit false

namespace Stacklets.MsgPool

open Steal (Callback StealPC allocCount)
open Uli (Mask Masked)

/-- The buffer at `chunk + MAX_MSG_SIZE * idx`. -/
structure Buf where
  chunk : Nat
  idx : Nat
deriving DecidableEq

/-- `BasicMessage`. `systemMsg` is `callback` and `p`. -/
structure BasicMessage (N : Nat) where
  callback : Option Callback
  p : Option Buf
  /-- `from`. -/
  sender : Fin N
  next : Option Buf

/-- What a message is for that a thread gets with `getMsg`. -/
inductive Use (N : Nat)
  /-- `suspend`, for a seed of its own. -/
  | own
  /-- `suspend`, for a request to `x`. -/
  | steal (x : Fin N)
  /-- `returnFromStolenWorkRoutine`. -/
  | finish (parentProc : Fin N)
deriving DecidableEq

/-- Where a thread is in `getMsg`, or in the caller behind it. -/
inductive GetMsgPC
  /-- `if (msgPool[threadId] == NULL)`, then `calloc` and the loop that links the chunk. -/
  | test
  /-- `mydui(0)`, the first assertion, `msgPool[threadId] = chunk` and `myeui(0)`. -/
  | refill (chunk : Nat)
  /-- `mydui(1)`, the second assertion, the first buffer of the list and `myeui(1)`. -/
  | take
  /-- `callback` and `p`. -/
  | fill (b : Buf)
  /-- In the caller: `from`, if it is set, and `SENDI`. -/
  | send (b : Buf)
deriving DecidableEq

/-- What a thread runs below its polls and handlers. -/
inductive Base (N : Nat)
  | getMsg (use : Use N) (pc : GetMsgPC)
  /-- Code that touches no buffer. -/
  | other
deriving DecidableEq

/-- A poll or a handler that it has called. -/
inductive Act (N : Nat)
  /-- `poll`: test the flag. -/
  | poll
  /-- The loop of `i_handler`. -/
  | iHandler
  | steal (b : Buf) (pc : StealPC N)
  /-- `noWorkHandler`. With `freed` only the return is left. -/
  | noWork (b : Buf) (freed : Bool)
  | fork (b : Buf)
  | returnInlet (b : Buf)
deriving DecidableEq

/-- One thread, with its entries of `flags`, `msg_bufs` and `msgPool`. `mask` is that of `flags`
with `uiFlagCtr`. -/
structure Thread (N : Nat) where
  base : Base N
  acts : List (Act N)
  mask : Mask
  msgBufs : List Buf
  msgPool : Option Buf

/-- Why the process has ended. -/
inductive Fault
  /-- "race condition allocating more msg buffers?" -/
  | raceAllocating
  /-- "race condition getting msg buffer?" -/
  | raceGetting
  /-- "myeui goes below zero" -/
  | belowZero
  /-- A null pointer is called or passed to a handler. -/
  | null
deriving DecidableEq

structure State (N : Nat) where
  threads : Fin N → Thread N
  mem : Buf → BasicMessage N
  /-- The number of chunks that were allocated. -/
  chunks : Nat
  fault : Option Fault

section
variable {N : Nat}

namespace Thread

@[simp] def goto (c : Thread N) (base : Base N) : Thread N := { c with base }

@[simp] def setActs (c : Thread N) (acts : List (Act N)) : Thread N := { c with acts }

@[simp] def setPool (c : Thread N) (msgPool : Option Buf) : Thread N := { c with msgPool }

/-- `mydui`. -/
def mydui (c : Thread N) : Thread N := { c with mask := c.mask.mydui }

/-- `myeui`, with the poll of `EUI(0)` on top of what the thread goes on with. It is `none` when
the assertion fails. -/
def myeui (c : Thread N) : Option (Thread N) :=
  (c.mask.unmask .poll c.acts).map fun (mask, acts) => { c with mask, acts }

end Thread

namespace State

/-- The process ends. -/
@[simp] def fail (s : State N) (e : Fault) : State N := { s with fault := some e }

@[simp] def setThread (s : State N) (t : Fin N) (c : Thread N) : State N :=
  { s with threads := Function.update s.threads t c }

@[simp] def setMsg (s : State N) (b : Buf) (msg : BasicMessage N) : State N :=
  { s with mem := Function.update s.mem b msg }

/-- `myeui` as the last call of the step. -/
def eui (s : State N) (t : Fin N) (c : Thread N) : State N :=
  match c.myeui with
  | some c' => s.setThread t c'
  | none => s.fail .belowZero

/-- `SENDI`: the buffer goes to the end of the queue of its target. -/
def sendI (s : State N) (b : Buf) (target : Fin N) : State N :=
  s.setThread target
    { s.threads target with msgBufs := (s.threads target).msgBufs ++ [b] }

/-- `setupMsgBuffer`. -/
def setupMsgBuffer (s : State N) (t : Fin N) (b : Buf) (handler : Callback) : State N :=
  s.setMsg b { s.mem b with sender := t, callback := some handler, p := some b }

end State

/-! ### `getMsg` -/

/-- The store `b->next = v`. -/
def setNext (mem : Buf → BasicMessage N) (b : Buf) (v : Option Buf) : Buf → BasicMessage N :=
  Function.update mem b { mem b with next := v }

/-- The memory with a chunk as `calloc` gives it. -/
def callocChunk [NeZero N] (mem : Buf → BasicMessage N) (chunk : Nat) : Buf → BasicMessage N :=
  fun b => if b.chunk = chunk then ⟨none, none, 0, none⟩ else mem b

/-- The loop of `getMsg` over a new chunk, up to `i`: each buffer points to the one behind it. -/
def linkLoop (mem : Buf → BasicMessage N) (chunk : Nat) : Nat → Buf → BasicMessage N
  | 0 => mem
  | i + 1 => setNext (linkLoop mem chunk i) ⟨chunk, i⟩ (some ⟨chunk, i + 1⟩)

/-- The memory with a new chunk. The last buffer points to `NULL`. -/
def newChunk [NeZero N] (mem : Buf → BasicMessage N) (chunk : Nat) : Buf → BasicMessage N :=
  setNext (linkLoop (callocChunk mem chunk) chunk (allocCount - 1)) ⟨chunk, allocCount - 1⟩ none

/-- The handler that `getMsg` is called with. -/
def Use.handler : Use N → Callback
  | .own | .steal _ => .stealHandler
  | .finish _ => .returnInletHandler

/-- To whom the thread `t` sends the message. -/
def Use.target (t : Fin N) : Use N → Fin N
  | .own => t
  | .steal x => x
  | .finish parentProc => parentProc

/-- `msg->base.from = threadId` in the caller. For its own seed, `suspend` leaves it as it is. -/
def Use.setFrom (t : Fin N) (msg : BasicMessage N) : Use N → BasicMessage N
  | .own => msg
  | .steal _ | .finish _ => { msg with sender := t }

/-- One step of the thread `t` in `getMsg`. -/
def getMsgStep [NeZero N] (s : State N) (t : Fin N) (use : Use N) : GetMsgPC → State N
  | .test =>
    let c := s.threads t
    if c.msgPool = none then
      { s.setThread t (c.goto (.getMsg use (.refill s.chunks))) with
        mem := newChunk s.mem s.chunks, chunks := s.chunks + 1 }
    else s.setThread t (c.goto (.getMsg use .take))
  | .refill chunk =>
    let c := s.threads t
    if c.msgPool = none then
      s.eui t ((c.mydui.setPool (some ⟨chunk, 0⟩)).goto (.getMsg use .take))
    else s.fail .raceAllocating
  | .take =>
    let c := s.threads t
    match c.msgPool with
    | some b => s.eui t ((c.mydui.setPool (s.mem b).next).goto (.getMsg use (.fill b)))
    | none => s.fail .raceGetting
  | .fill b =>
    (s.setMsg b { s.mem b with callback := some use.handler, p := some b }).setThread t
      ((s.threads t).goto (.getMsg use (.send b)))
  | .send b =>
    ((s.setMsg b (use.setFrom t (s.mem b))).setThread t ((s.threads t).goto .other)).sendI b
      (use.target t)

/-! ### The handlers -/

/-- The handler that `i_handler` calls for a message. -/
def handlerOf (b : Buf) : Callback → Act N
  | .stealHandler => .steal b .enter
  | .noWorkHandler => .noWork b false
  | .forkHandler => .fork b
  | .returnInletHandler => .returnInlet b

/-- The call `(*c)(msg->p)` for the message in the buffer `b`, unless one of the two pointers is
null. -/
def State.callback (s : State N) (b : Buf) : Option (Act N) :=
  match (s.mem b).callback, (s.mem b).p with
  | some callback, some p => some (handlerOf p callback)
  | _, _ => none

/-- One step of `stealHandler` on the thread `t`, with `rest` below it. `found` says whether there
is a seed. -/
def stealStep (s : State N) (t : Fin N) (rest : List (Act N)) (found : Bool) (b : Buf) :
    StealPC N → State N
  | .enter =>
    if found then
      -- `remoteStackletFork` takes `dest` before `setupMsgBuffer` overwrites `from`.
      (s.setupMsgBuffer t b .forkHandler).eui t
        ((s.threads t).mydui.setActs (.steal b (.send (s.mem b).sender) :: rest))
    else s.eui t ((s.threads t).mydui.setActs (.steal b .fail :: rest))
  | .fail =>
    ((s.setupMsgBuffer t b .noWorkHandler).setThread t ((s.threads t).setActs rest)).sendI b
      (s.mem b).sender
  | .send dest => (s.setThread t ((s.threads t).setActs rest)).sendI b dest

/-- One step of the topmost poll or handler of the thread `t`, with `rest` below it. -/
def actStep (s : State N) (t : Fin N) (rest : List (Act N)) (found : Bool) : Act N → State N
  | .poll =>
    s.setThread t ((s.threads t).setActs (Uli.poll (s.threads t).mask.flags .iHandler rest))
  | .iHandler =>
    match Uli.iHandler s.callback .iHandler rest (s.threads t).msgBufs with
    | some (msgBufs, acts) => s.setThread t { s.threads t with msgBufs, acts }
    | none => s.fail .null
  | .steal b pc => stealStep s t rest found b pc
  | .noWork b false =>
    -- `freeMsgBuffer`
    ({ s with mem := setNext s.mem b (s.threads t).msgPool } : State N).eui t
      (((s.threads t).mydui.setPool (some b)).setActs (.noWork b true :: rest))
  | .noWork _ true => s.setThread t ((s.threads t).setActs rest)
  | .fork _ =>
    -- `enQnewStacklet` jumps to the new stacklet, so the buffer is not freed.
    s.setThread t (((s.threads t).setActs []).goto .other)
  | .returnInlet _ => s.setThread t ((s.threads t).setActs rest)

theorem actStep_poll (s : State N) (t : Fin N) (rest : List (Act N)) (found : Bool) :
    actStep s t rest found .poll =
      if Masked (s.threads t).mask.flags then s.setThread t ((s.threads t).setActs rest)
      else s.setThread t ((s.threads t).setActs (.iHandler :: rest)) := by
  simp only [actStep, Uli.poll]
  split <;> rfl

/-- The loop returns when no message waits, and calls the handler of the first one otherwise. -/
theorem actStep_iHandler (s : State N) (t : Fin N) (rest : List (Act N)) (found : Bool) :
    actStep s t rest found .iHandler =
      match (s.threads t).msgBufs with
      | [] => s.setThread t ((s.threads t).setActs rest)
      | b :: msgBufs =>
        match (s.mem b).callback, (s.mem b).p with
        | some callback, some p =>
          s.setThread t { s.threads t with
            msgBufs, acts := handlerOf p callback :: .iHandler :: rest }
        | _, _ => s.fail .null := by
  simp only [actStep]
  cases hbufs : (s.threads t).msgBufs with
  | nil => simp [Uli.iHandler, ← hbufs]
  | cons b msgBufs =>
    cases hcallback : (s.mem b).callback <;> cases hp : (s.mem b).p <;>
      simp [Uli.iHandler, State.callback, hcallback, hp]

/-! ### The whole machine -/

/-- What a thread does next. -/
inductive Action (N : Nat)
  /-- The topmost handler goes on, or `getMsg`. `found` is for `stealHandler`. -/
  | go (found : Bool)
  | poll
  | mydui
  | myeui
  | getMsg (use : Use N)
deriving DecidableEq

/-- One step of the thread `t`. -/
def step [NeZero N] (s : State N) (a : Fin N × Action N) : Option (State N) :=
  let t := a.1
  let c := s.threads t
  if s.fault ≠ none then none
  else
    match c.acts, c.base, a.2 with
    | act :: rest, _, .go found => some (actStep s t rest found act)
    | [], .getMsg use pc, .go _ => some (getMsgStep s t use pc)
    | [], .other, .poll => some (s.setThread t (c.setActs [.poll]))
    | [], .other, .mydui => some (s.setThread t c.mydui)
    | [], .other, .myeui => some (s.eui t c)
    | [], .other, .getMsg use => some (s.setThread t (c.goto (.getMsg use .test)))
    | _, _, _ => none

/-- `initMsgs` and `init_uli` on every thread. -/
def initial (N : Nat) [NeZero N] : State N where
  threads _ := ⟨.other, [], ⟨0, 0⟩, [], none⟩
  mem _ := ⟨none, none, 0, none⟩
  chunks := 0
  fault := none

end

end Stacklets.MsgPool

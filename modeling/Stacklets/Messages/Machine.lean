import Stacklets.Lib.Runs
import Stacklets.Messages.Queue
import Stacklets.Uli.Interrupt

/-!
# `Stacklets.Messages.Machine`: the emulated interrupts of `u_interrupt.c`

A set of cores that send each other messages with `sendI` and take them in `poll`. One step is
one access of the interrupt flag, one `malloc`, one attempt at a spin lock, the body of one
critical section of `queue.c`, or one release of a spin lock. `is_empty` and `dequeue` are two
critical sections, and any number of steps of the other cores lies between them.

A core runs its program, and on top of it a stack of activities: a `poll`, the loop of
`i_handler`, a callback, a `sendI`. The topmost one moves. The flags and `poll` are those of
`Stacklets.Uli.Interrupt`. The loop of `i_handler` has steps of its own here, as other cores move
between its accesses to the queue. A callback is any program that calls
`sendI`, `poll`, and `dui(1)` and `eui(0xfffe)` in matched pairs. So it is a frame that counts
its open `dui`s, and the action says what it does next. The program at the bottom does the same
and may pass any value to `dui` and `eui`.

The cores `C`, the nodes `N` and the messages `M` are arbitrary types. `sent`, `started` and
`finished` record what happened, and so does the number in `emptyUnlock`. The code does not
read them. The debug output is left out, and `malloc` is taken to succeed.
-/

set_option autoImplicit false

namespace Stacklets.Messages

open Function (update)
open Uli (Masked)

/-- Where `enqueue` is. -/
inductive SendPC (N : Type*)
  /-- `n = malloc(sizeof(struct node_t))`. -/
  | malloc
  /-- `spinlock_lock(&q->lock)`. -/
  | lock (n : N)
  /-- From `n->msg = msg` to `q->tail = n`. -/
  | link (n : N)
  /-- `spinlock_unlock(&q->lock)`. -/
  | unlock
deriving DecidableEq

/-- Where the loop of `i_handler` is. -/
inductive HandlerPC (M : Type*)
  /-- `is_empty`: `spinlock_lock(&q->lock)`. -/
  | emptyLock
  /-- `result = q->tail == NULL`. -/
  | emptyRead
  /-- `spinlock_unlock(&q->lock)` with the result at hand. `seen` messages had been enqueued at
  the test. -/
  | emptyUnlock (result : Bool) (seen : Nat)
  /-- `dequeue`: `spinlock_lock(&q->lock)`. -/
  | dequeueLock
  /-- `queue_delete(q, q->head)` and `free(n)`. -/
  | dequeueDelete
  /-- `spinlock_unlock(&q->lock)` with the message at hand. -/
  | dequeueUnlock (msg : Option M)
  /-- `(*c)(msg->p)`. -/
  | call (msg : Option M)
deriving DecidableEq

/-- An activity on top of the program of a core. -/
inductive Frame (C N M : Type*)
  /-- `poll`: test the flag. -/
  | poll
  /-- The loop of `i_handler`. -/
  | handler (pc : HandlerPC M)
  /-- The callback of the `i`-th message of the core, with `depth` open `dui`s. -/
  | callback (i depth : Nat)
  /-- `sendI(msg, target)`. -/
  | send (target : C) (msg : M) (pc : SendPC N)
deriving DecidableEq

/-- The memory, and the activities of every core. -/
structure State (C N M : Type*) where
  heap : N → Node N M
  /-- `msg_bufs`. -/
  msgBufs : C → Queue N
  /-- The spin lock of each queue, with the core that holds it. -/
  locks : C → Option C
  flags : C → BitVec 32
  frames : C → List (Frame C N M)
  /-- The messages linked into the queue of each core, the oldest first. -/
  sent : C → List M
  /-- The messages whose callback was called on each core, the oldest first. -/
  started : C → List M
  /-- The callbacks that have returned, by their number. -/
  finished : C → List Nat
  /-- `myassert` has stopped the program in `queue_delete`. -/
  nullDelete : Bool

/-- What happens next. -/
inductive Action (C N M : Type*)
  /-- The topmost activity of a core moves. -/
  | step (c : C)
  /-- The `malloc` of an `enqueue` returns `n`. -/
  | malloc (c : C) (n : N)
  /-- The program or the topmost callback calls `sendI(msg, target)`. -/
  | sendI (c : C) (msg : M) (target : C)
  /-- It calls `poll()`. -/
  | poll (c : C)
  /-- It calls `dui(flag)`. -/
  | dui (c : C) (flag : BitVec 32)
  /-- It calls `eui(flag)`. -/
  | eui (c : C) (flag : BitVec 32)
  /-- The topmost callback returns. -/
  | ret (c : C)
deriving DecidableEq

section
variable {C N M : Type*} [DecidableEq C] [DecidableEq N]

namespace State

/-- The activities on top of the program of `c` become `fs`. -/
@[simp] def setFrames (s : State C N M) (c : C) (fs : List (Frame C N M)) : State C N M :=
  { s with frames := update s.frames c fs }

/-- The store `flags[c] = f`. -/
@[simp] def setFlags (s : State C N M) (c : C) (f : BitVec 32) : State C N M :=
  { s with flags := update s.flags c f }

/-- A successful exchange of `spinlock_lock` by `c` on the queue of `t`. -/
@[simp] def acquire (s : State C N M) (c t : C) : State C N M :=
  { s with locks := update s.locks t (some c) }

/-- `spinlock_unlock` on the queue of `t`. -/
@[simp] def release (s : State C N M) (t : C) : State C N M :=
  { s with locks := update s.locks t none }

/-- The body of `enqueue(msg_bufs[t], msg)` with the node `n`. -/
@[simp] def link (s : State C N M) (t : C) (msg : M) (n : N) : State C N M :=
  { s with
    heap := (enqueue s.heap (s.msgBufs t) n msg).1
    msgBufs := update s.msgBufs t (enqueue s.heap (s.msgBufs t) n msg).2
    sent := update s.sent t (s.sent t ++ [msg]) }

/-- The memory and the queue of `c` become `heap` and `q`. -/
@[simp] def setQueue (s : State C N M) (c : C) (heap : N → Node N M) (q : Queue N) : State C N M :=
  { s with heap, msgBufs := update s.msgBufs c q }

/-- The memory of `n` is allocated. -/
@[simp] def alloc (s : State C N M) (n : N) : State C N M :=
  { s with heap := update s.heap n { s.heap n with live := true } }

/-- The callback of `msg` starts on `c`. -/
@[simp] def start (s : State C N M) (c : C) (msg : M) : State C N M :=
  { s with started := update s.started c (s.started c ++ [msg]) }

/-- The callback with the number `i` has returned on `c`. -/
@[simp] def finish (s : State C N M) (c : C) (i : Nat) : State C N M :=
  { s with finished := update s.finished c (s.finished c ++ [i]) }

end State

/-- One step of the loop of `i_handler` on the core `c`, with `fs` below it. -/
def handlerStep (s : State C N M) (c : C) (fs : List (Frame C N M)) :
    HandlerPC M → Option (State C N M)
  | .emptyLock =>
    if s.locks c = none then some ((s.acquire c c).setFrames c (.handler .emptyRead :: fs))
    else none
  | .emptyRead =>
    some (s.setFrames c
      (.handler (.emptyUnlock (decide ((s.msgBufs c).tail = none)) (s.sent c).length) :: fs))
  | .emptyUnlock true _ => some ((s.release c).setFrames c fs)
  | .emptyUnlock false _ => some ((s.release c).setFrames c (.handler .dequeueLock :: fs))
  | .dequeueLock =>
    if s.locks c = none then some ((s.acquire c c).setFrames c (.handler .dequeueDelete :: fs))
    else none
  | .dequeueDelete =>
    match dequeue s.heap (s.msgBufs c) with
    | none => some { s with nullDelete := true }
    | some (msg, heap, q) =>
      some ((s.setQueue c heap q).setFrames c (.handler (.dequeueUnlock msg) :: fs))
  | .dequeueUnlock msg => some ((s.release c).setFrames c (.handler (.call msg) :: fs))
  | .call none => none
  | .call (some msg) =>
    -- The callback runs on top of the loop, which then tests the queue again.
    some ((s.start c msg).setFrames c
      (.callback (s.started c).length 0 :: .handler .emptyLock :: fs))

/-- One step of `sendI(msg, t)` on the core `c`, with `fs` below it. -/
def sendStep (s : State C N M) (c t : C) (msg : M) (fs : List (Frame C N M)) :
    SendPC N → Option (State C N M)
  | .malloc => none
  | .lock n =>
    if s.locks t = none then some ((s.acquire c t).setFrames c (.send t msg (.link n) :: fs))
    else none
  | .link n => some ((s.link t msg n).setFrames c (.send t msg .unlock :: fs))
  | .unlock => some ((s.release t).setFrames c fs)

/-- One step of the topmost activity of `c`, with `fs` below it. -/
def frameStep (s : State C N M) (c : C) (fs : List (Frame C N M)) :
    Frame C N M → Option (State C N M)
  | .poll => some (s.setFrames c (Uli.poll (s.flags c) (.handler .emptyLock) fs))
  | .handler pc => handlerStep s c fs pc
  | .callback _ _ => none
  | .send t msg pc => sendStep s c t msg fs pc

theorem frameStep_poll (s : State C N M) (c : C) (fs : List (Frame C N M)) :
    frameStep s c fs .poll =
      if Masked (s.flags c) then some (s.setFrames c fs)
      else some (s.setFrames c (.handler .emptyLock :: fs)) := by
  simp only [frameStep, Uli.poll]
  split <;> rfl

/-- The program of the core or a callback is about to move. -/
def Running : List (Frame C N M) → Prop
  | [] => True
  | .callback _ _ :: _ => True
  | _ => False

instance (fs : List (Frame C N M)) : Decidable (Running fs) :=
  match fs with
  | [] => isTrue trivial
  | .callback _ _ :: _ => isTrue trivial
  | .poll :: _ => isFalse id
  | .handler _ :: _ => isFalse id
  | .send _ _ _ :: _ => isFalse id

/-- `dui(flag)` on the core `c` with the activities `fs`. A callback calls `dui(1)`. -/
def duiStep (s : State C N M) (c : C) (flag : BitVec 32) :
    List (Frame C N M) → Option (State C N M)
  | [] => some (s.setFlags c (Uli.dui (s.flags c) flag))
  | .callback i depth :: fs =>
    if flag = 1 then
      some ((s.setFlags c (Uli.dui (s.flags c) flag)).setFrames c (.callback i (depth + 1) :: fs))
    else none
  | _ => none

/-- `eui(flag)` on the core `c` with the activities `fs`. A callback calls `eui(0xfffe)` for a
`dui` that is open. -/
def euiStep (s : State C N M) (c : C) (flag : BitVec 32) :
    List (Frame C N M) → Option (State C N M)
  | [] => some ((s.setFlags c (Uli.eui (s.flags c) flag)).setFrames c [.poll])
  | .callback i (depth + 1) :: fs =>
    if flag = 0xfffe then
      some ((s.setFlags c (Uli.eui (s.flags c) flag)).setFrames c
        (.poll :: .callback i depth :: fs))
    else none
  | _ => none

/-- One action of a program that has not been stopped. -/
def perform (s : State C N M) : Action C N M → Option (State C N M)
  | .step c =>
    match s.frames c with
    | f :: fs => frameStep s c fs f
    | [] => none
  | .malloc c n =>
    match s.frames c with
    | .send t msg .malloc :: fs =>
      if (s.heap n).live then none
      else some ((s.alloc n).setFrames c (.send t msg (.lock n) :: fs))
    | _ => none
  | .sendI c msg t =>
    if Running (s.frames c) then some (s.setFrames c (.send t msg .malloc :: s.frames c))
    else none
  | .poll c => if Running (s.frames c) then some (s.setFrames c (.poll :: s.frames c)) else none
  | .dui c flag => duiStep s c flag (s.frames c)
  | .eui c flag => euiStep s c flag (s.frames c)
  | .ret c =>
    match s.frames c with
    | .callback i 0 :: fs => some ((s.finish c i).setFrames c fs)
    | _ => none

/-- One step of the cores. -/
def step (s : State C N M) (a : Action C N M) : Option (State C N M) :=
  if s.nullDelete then none else perform s a

/-- The state behind `init_uli`. The memory that `malloc` will give has any contents. -/
def initial (C : Type*) {N M : Type*} (contents : N → Node N M) : State C N M where
  heap n := { contents n with live := false }
  msgBufs _ := Queue.empty
  locks _ := none
  flags _ := 0
  frames _ := []
  sent _ := []
  started _ := []
  finished _ := []
  nullDelete := false

end

end Stacklets.Messages

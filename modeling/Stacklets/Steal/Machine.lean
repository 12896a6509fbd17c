import Stacklets.LazyFork.Runtime
import Stacklets.LazyYield.Queues
import Stacklets.Lib.Ledger
import Stacklets.Lib.Runs
import Stacklets.Uli.Interrupt

/-!
# `Stacklets.Steal.Machine`: work stealing by user-level interrupts in `compiler/uli`

The state of a run of `startfib` on `N` threads in the build with `-DULI`, and the function
`step` that lets one thread do its next step. A step is one access to memory that other threads
read or write (the front of a seed queue, a word of the ready queue, a message queue), or one
call, return or poll, with the thread-local code around it. `step` follows `fib` (`myfib.c`),
`suspend`, `enQnewStacklet`, `noWorkHandler`, `stealHandler`, `forkHandler`, `remoteStackletFork`
and `returnFromStolenWorkRoutine` (`stacklet.c`), `getMsg` and `freeMsgBuffer` (`msgs.c`), and
`enqReadyQ` and `deqReadyQ` (`readyQ.c`). `mydui`, `myeui`, `poll` and `i_handler` are those of
`Stacklets.Uli.Interrupt`.

A thread runs `base`: a frame of `fib`, or `suspend`, or `getMsg` called by one of the two. On top
of it lie the polls and the handlers they have called, the topmost first (`acts`). The topmost one
moves. A handler that jumps away for good drops all that lies below it.

* Frames, stacklets and `Foo`s are named as in `Stacklets.LazyFork.Runtime`. A stack switch
  resumes exactly the saved frame, and the stacks are large enough.
* `remoteStackletFork` starts at the top of the system stack of its thread, and polls there. If
  frames that are still needed lie at that place (`Core.onSystemStack`), it overwrites them. What
  happens then has no definition, and the run ends.
* `returnFromStolenWorkRoutine` compares its stack pointer with the address of the stub. Whether
  the two agree depends on what the compiler pushes in its prologue, so it is a parameter of a run
  (`Shared.stubFound`).
* A message buffer has one user at a time: none of the functions touches a buffer that it has
  sent or freed. So it is the contents of the buffers that travel, and the pool of a thread holds
  the contents that its free buffers still have.
* A message queue is taken as one list. `Stacklets.Messages` is about its two locks.
* A seed queue is changed by its own thread only, and the others read its front. So it is a list
  as well. `releaseSeed` on a seed that is not linked has no defined result, and the run ends
  there as it does at a failed `myassert`.
* `AllReturned` ends in `enQAndReturn`, which returns on the system stack and has no defined
  continuation. The thread stops there. `SecondChildDone` is not modelled: only
  `returnInletHandler` could jump to it, and its body is commented out.

`asker`, `victim` and `seed` in the messages and the last three fields of `Shared` record what
happened. The code does not read them.
-/

set_option autoImplicit false

namespace Stacklets.Steal

open LazyFork (FooPtr Foo Label)
open Uli (Mask Masked poll)

/-- `Seed`. The address in it is always `SecondChildSteal`, and `sp` is the frame that pushed it.
`id` is the number of the `initSeed` that allocated it. -/
structure Seed where
  id : Nat
  sp : FooPtr
deriving DecidableEq

/-- The callback of a message. -/
inductive Callback
  | stealHandler
  | noWorkHandler
  | forkHandler
  | returnInletHandler
deriving DecidableEq

/-- The contents of a message buffer. -/
structure Message (N : Nat) where
  callback : Option Callback
  /-- `from`. -/
  sender : Fin N
  /-- `parentSP`. `parentPC` is its `SecondChildDone`, `func` is `fib` and `arg` is its `&b`. -/
  parentSP : FooPtr
  /-- The thread whose request this is, or which this answers. -/
  asker : Option (Fin N)
  /-- The thread that the request was sent to. -/
  victim : Fin N
  /-- The seed that the message hands over. -/
  seed : Option Seed
deriving DecidableEq

/-- The stub at the base of a stacklet. -/
inductive Stub (N : Nat)
  /-- The one of `firstFork`, with `stubRoutine`. -/
  | first
  /-- The one of `forkHandler`, with `returnFromStolenWorkRoutine`. -/
  | stolen (parentSP : FooPtr) (parentProc : Fin N)
deriving DecidableEq

/-- The argument of the function that the stacklet was made for. -/
def Stub.arg {N : Nat} : Stub N → FooPtr
  | .first => .root
  | .stolen parentSP _ => .b parentSP

/-- What `enQnewStacklet` saves for `Resume`: the stub with `func` and `arg`. -/
structure Context (N : Nat) where
  stub : Stub N
  seed : Option Seed
deriving DecidableEq

/-- The ready queue. The only address put there is `Resume` of `enQnewStacklet`. -/
abbrev ReadyQ (N : Nat) := LazyYield.ReadyQ Unit (Context N)

/-- What a frame of `fib` holds besides `a` and `b`. -/
structure Frame (N : Nat) where
  seed : Option Seed
  firstChildReturnAdr : Option Label
  ptid : Fin N
  syncCounter : Int

/-- Where a thread is in the body of `fib`. -/
inductive FibPC
  /-- `if (f->input <= 2)`. -/
  | start
  /-- `initSeed`, `pushSeed(seed, threadId, 1)` and the assignments behind it. -/
  | pushSeed
  /-- `seedStackUnlock(threadId)`. -/
  | unlockPush
  /-- `fib(&a)`. -/
  | callA
  /-- Behind `fib(&a)`: `seedStackLock(ptid)`. -/
  | lockPtid
  /-- `goto *firstChildReturnAdr`. -/
  | gotoReturnAdr
  /-- `FirstChildDoneNormally`: `releaseSeed(seed, ptid)`. -/
  | firstChildDoneNormally
  /-- `seedStackUnlock(ptid)`. -/
  | unlockNormally
  /-- `checkUIMask(1)`. -/
  | checkUIMask
  /-- `fib(&b)`. -/
  | callB
  /-- Behind `fib(&b)`: `f->output = a.output + b.output`. -/
  | sum
  /-- `FirstChildDone`: `localSyncCounter = --syncCounter`. -/
  | firstChildDone
  /-- `seedStackUnlock(ptid)`. -/
  | unlockDone (localSyncCounter : Int)
  /-- `if (localSyncCounter != 0) suspendStub()`. -/
  | testCounter (localSyncCounter : Int)
  /-- `AllReturned`: `f->output = a.output + b.output`. -/
  | allReturned
  /-- `enQAndReturn()`. -/
  | enQAndReturn
  /-- `return`. -/
  | ret
deriving DecidableEq

/-- Who calls `getMsg`, and what the message is for. -/
inductive Use (N : Nat)
  /-- `suspend`, for the seed it has taken from its own queue. -/
  | own
  /-- `suspend`, for a request to `x` in the `i`-th round of its scan. -/
  | steal (i : Nat) (x : Fin N)
  /-- `returnFromStolenWorkRoutine`. -/
  | finish (parentSP : FooPtr) (parentProc : Fin N)
deriving DecidableEq

/-- Where a thread is in `getMsg`. -/
inductive GetMsgPC (N : Nat)
  /-- `if (msgPool[threadId] == NULL)`, and the new chunk. -/
  | test
  /-- Take the first buffer. -/
  | take
  /-- Fill the buffer in. The caller then sends it. -/
  | fill (msg : Message N)
deriving DecidableEq

/-- Where a thread is in `suspend`. -/
inductive SuspendPC (N : Nat)
  /-- `POLL()`. -/
  | poll
  /-- `while (tryagain && checkSeedQue(threadId))` with `tryagain` set. -/
  | ownTest
  /-- `mydui(5)` and `if (seed != NULL)`. -/
  | ownTake
  /-- `myeui(6)` when there was a seed, `myeui(7)` when there was none. -/
  | ownEui (found : Bool)
  /-- `ready = readyDummyHead->front`. -/
  | ready
  /-- `deqReadyQ`: `origFront = readyDummyHead->front`, with `adr` and `sp` at hand. -/
  | deqFront (e : Context N)
  /-- `readyDummyHead->front = origFront->next`. -/
  | deqNext (e : Context N) (origFront : Nat)
  /-- `if (origFront->next == NULL) readyDummyHead->back = NULL`. -/
  | deqBack (e : Context N) (origFront : Nat)
  /-- `localSwitchAndJmp(sp, adr)`. -/
  | jump (e : Context N)
  /-- `if (amStealing) continue`. -/
  | stealing
  /-- The scan, with `i`. -/
  | scan (i : Nat)
deriving DecidableEq

/-- What a thread runs below its polls and handlers. -/
inductive Base (N : Nat)
  /-- The frame of `fib(F)` on a stacklet. -/
  | fib (stub : Stub N) (F : FooPtr) (pc : FibPC)
  | getMsg (use : Use N) (pc : GetMsgPC N)
  | suspend (pc : SuspendPC N)
  /-- `firstFork` has returned to `startfib`. -/
  | returned
deriving DecidableEq

/-- Where `stealHandler` is. -/
inductive StealPC (N : Nat)
  | enter
  /-- Behind `myeui(8)`: the reply that there is no work. -/
  | fail
  /-- Behind `myeui(23)` in `remoteStackletFork`: `SENDI(fmsg, dest)`. -/
  | send (dest : Fin N)
deriving DecidableEq

/-- Where `forkHandler` is, inside `enQnewStacklet` behind the first step. -/
inductive ForkPC
  /-- The new stacklet, then `enqReadyQ` up to `if (readyDummyHead->back)`. -/
  | enter
  /-- `readyDummyHead->back->next = ready`. -/
  | enqLink (ready : Nat)
  /-- `readyDummyHead->front = ready`. -/
  | enqFront (ready : Nat)
  /-- `readyDummyHead->back = ready`. -/
  | enqBack (ready : Nat)
  /-- `Resume`: `switchAndJmpWithArg(stackletStub, func, arg)`. -/
  | resume
deriving DecidableEq

/-- A poll or a handler that it has called. -/
inductive Act (N : Nat)
  /-- `poll`: test the flag. -/
  | poll
  /-- The loop of `i_handler`. -/
  | iHandler
  | steal (msg : Message N) (pc : StealPC N)
  /-- `noWorkHandler`. With `freed` only the return is left. -/
  | noWork (msg : Message N) (freed : Bool)
  | fork (msg : Message N) (pc : ForkPC)
  | returnInlet (msg : Message N)
deriving DecidableEq

/-- One thread: where it is, its `__thread` variables, and its entries of `seedStacks`, `flags`,
`msg_bufs` and `msgPool`. `mask` is the entry of `flags` with `uiFlagCtr`. -/
structure Core (N : Nat) where
  base : Base N
  acts : List (Act N)
  seedQ : List Seed
  amStealing : Bool
  lastReq : Fin N
  mask : Mask
  msgBufs : List (Message N)
  msgPool : List (Message N)

/-- The start of a stolen child on a thread. -/
structure Start (N : Nat) where
  seed : Option Seed
  child : FooPtr
  thread : Fin N
deriving DecidableEq

/-- The memory that belongs to no thread. -/
structure Shared (N : Nat) where
  foos : FooPtr → Foo
  frames : FooPtr → Frame N
  readyQ : ReadyQ N
  /-- The number of calls of `initSeed`. -/
  seeds : Nat
  /-- The process has ended at a failed assertion, at a null pointer or with a stack overwritten. -/
  aborted : Bool
  /-- Behind the prologue of `returnFromStolenWorkRoutine` the stack pointer is the address of the
  stub. `ret` has left it one word above the stub, so this is so if the prologue pushes one word. -/
  stubFound : Bool
  /-- The seeds that their parents have unlinked at `FirstChildDoneNormally`. -/
  released : List Seed
  /-- The seeds that `stealHandler` or `suspend` has unlinked. -/
  stolen : List Seed
  starts : List (Start N)

structure State (N : Nat) where
  cores : Fin N → Core N
  shared : Shared N

/-- What a step of a thread leaves: its own part, the shared part, and the message it has sent. -/
structure Outcome (N : Nat) where
  core : Core N
  shared : Shared N
  sent : Option (Fin N × Message N)

section
variable {N : Nat}

namespace Core

@[simp] def goto (c : Core N) (base : Base N) : Core N := { c with base }

@[simp] def setActs (c : Core N) (acts : List (Act N)) : Core N := { c with acts }

@[simp] def setSeedQ (c : Core N) (seedQ : List Seed) : Core N := { c with seedQ }

/-- `mydui`. -/
def mydui (c : Core N) : Core N := { c with mask := c.mask.mydui }

/-- `myeui`, with the poll of `EUI(0)` on top of what the thread goes on with. It is `none` when
the assertion fails. -/
def myeui (c : Core N) : Option (Core N) :=
  (c.mask.unmask .poll c.acts).map fun (mask, acts) => { c with mask, acts }

end Core

namespace Shared

/-- The process ends. -/
@[simp] def abort (m : Shared N) : Shared N := { m with aborted := true }

@[simp] def setFrame (m : Shared N) (F : FooPtr) (f : Frame N) : Shared N :=
  { m with frames := Function.update m.frames F f }

@[simp] def setOutput (m : Shared N) (F : FooPtr) (v : BitVec 32) : Shared N :=
  { m with foos := Function.update m.foos F { m.foos F with output := v } }

@[simp] def setInput (m : Shared N) (F : FooPtr) (v : Int) : Shared N :=
  { m with foos := Function.update m.foos F { m.foos F with input := v } }

/-- The store `thread->next = next` in the ready queue. -/
@[simp] def setNext (m : Shared N) (thread : Nat) (next : Option Nat) : Shared N :=
  { m with
    readyQ.threads :=
      Function.update m.readyQ.threads thread { m.readyQ.threads thread with next } }

@[simp] def setFront (m : Shared N) (front : Option Nat) : Shared N :=
  { m with readyQ.front := front }

@[simp] def setBack (m : Shared N) (back : Option Nat) : Shared N :=
  { m with readyQ.back := back }

/-- `calloc` and the assignments in `enqReadyQ`. -/
@[simp] def newReady (m : Shared N) (e : Context N) : Shared N :=
  { m with
    readyQ.threads := Function.update m.readyQ.threads m.readyQ.readyQId ⟨(), e, none⟩
    readyQ.readyQId := m.readyQ.readyQId + 1 }

/-- `SecondChildSteal` in the frame of a seed that is now unlinked. -/
@[simp] def steal (m : Shared N) (seed : Seed) : Shared N :=
  { m with
    frames := Function.update m.frames seed.sp
      { m.frames seed.sp with firstChildReturnAdr := some .firstChildDone, syncCounter := 2 }
    stolen := m.stolen ++ [seed] }

/-- The thread `t` starts the child of a saved context. -/
@[simp] def start (m : Shared N) (t : Fin N) (e : Context N) : Shared N :=
  { m with starts := m.starts ++ [⟨e.seed, e.stub.arg, t⟩] }

end Shared

namespace Outcome

/-- Nothing is sent. -/
@[simp] def quiet (m : Shared N) (c : Core N) : Outcome N := ⟨c, m, none⟩

/-- `myeui` as the last call of the step. -/
def eui (m : Shared N) (c : Core N) : Outcome N :=
  match c.myeui with
  | some c' => quiet m c'
  | none => quiet m.abort c

end Outcome

/-- `checkSeedQue` on another thread: whether there is a seed at the front. -/
def State.checkSeedQue (s : State N) (x : Fin N) : Bool := !(s.cores x).seedQ.isEmpty

/-- `localSwitchAndJmp` to `Resume`, and from there to `func(arg)` on its stacklet. -/
def startContext (m : Shared N) (t : Fin N) (c : Core N) (e : Context N) : Outcome N :=
  .quiet (m.start t e) ((c.setActs []).goto (.fib e.stub e.stub.arg .start))

/-! ### `fib` -/

/-- Where a frame of `fib` returns to. -/
def returnTo (stub : Stub N) (F : FooPtr) : Option (Base N) :=
  if F = stub.arg then
    match stub with
    | .first => some .returned
    | .stolen parentSP parentProc => some (.getMsg (.finish parentSP parentProc) .test)
  else
    match F with
    | .root => none
    | .a G => some (.fib stub G .lockPtid)
    | .b G => some (.fib stub G .sum)

/-- `myassert(ss == adjustedStub)`, if the frame returns to `returnFromStolenWorkRoutine`. -/
def Shared.stubAssertion (m : Shared N) : Base N → Bool
  | .getMsg (.finish _ _) _ => m.stubFound
  | _ => true

/-- One step of the thread `t` in the frame of `fib(F)`. -/
def fibStep (m : Shared N) (t : Fin N) (c : Core N) (stub : Stub N) (F : FooPtr) :
    FibPC → Option (Outcome N)
  | .start =>
    if (m.foos F).input ≤ 2 then
      some (.quiet (m.setOutput F 1) (c.goto (.fib stub F .ret)))
    else
      some (.quiet
        ((m.setInput (.a F) ((m.foos F).input - 1)).setInput (.b F) ((m.foos F).input - 2))
        (c.goto (.fib stub F .pushSeed)))
  | .pushSeed =>
    let seed : Seed := ⟨m.seeds, F⟩
    let frame : Frame N :=
      { m.frames F with
        seed := some seed, firstChildReturnAdr := some .firstChildDoneNormally, ptid := t }
    some (.quiet { m.setFrame F frame with seeds := m.seeds + 1 }
      ((c.mydui.setSeedQ (c.seedQ ++ [seed])).goto (.fib stub F .unlockPush)))
  | .unlockPush => some (.eui m (c.goto (.fib stub F .callA)))
  | .callA => some (.quiet m (c.goto (.fib stub (.a F) .start)))
  | .lockPtid =>
    if (m.frames F).ptid = t then
      some (.quiet m (c.mydui.goto (.fib stub F .gotoReturnAdr)))
    else some (.quiet m.abort c)
  | .gotoReturnAdr =>
    match (m.frames F).firstChildReturnAdr with
    | some .firstChildDoneNormally =>
      some (.quiet m (c.goto (.fib stub F .firstChildDoneNormally)))
    | some .firstChildDone => some (.quiet m (c.goto (.fib stub F .firstChildDone)))
    | _ => none
  | .firstChildDoneNormally =>
    match (m.frames F).seed with
    | some seed =>
      if (m.frames F).ptid = t ∧ seed ∈ c.seedQ then
        some (.quiet { m with released := m.released ++ [seed] }
          ((c.setSeedQ (c.seedQ.erase seed)).goto (.fib stub F .unlockNormally)))
      else some (.quiet m.abort c)
    | none => none
  | .unlockNormally =>
    if (m.frames F).ptid = t then some (.eui m (c.goto (.fib stub F .checkUIMask)))
    else some (.quiet m.abort c)
  | .checkUIMask =>
    if c.mask.uiFlagCtr = 0 then some (.quiet m (c.goto (.fib stub F .callB)))
    else some (.quiet m.abort c)
  | .callB => some (.quiet m (c.goto (.fib stub (.b F) .start)))
  | .sum =>
    some (.quiet (m.setOutput F ((m.foos (.a F)).output + (m.foos (.b F)).output))
      (c.goto (.fib stub F .ret)))
  | .firstChildDone =>
    let counter := (m.frames F).syncCounter - 1
    some (.quiet (m.setFrame F { m.frames F with syncCounter := counter })
      (c.goto (.fib stub F (.unlockDone counter))))
  | .unlockDone counter =>
    if (m.frames F).ptid = t then some (.eui m (c.goto (.fib stub F (.testCounter counter))))
    else some (.quiet m.abort c)
  | .testCounter counter =>
    if counter ≠ 0 then some (.quiet m (c.goto (.suspend .poll)))
    else some (.quiet m (c.goto (.fib stub F .allReturned)))
  | .allReturned =>
    some (.quiet (m.setOutput F ((m.foos (.a F)).output + (m.foos (.b F)).output))
      (c.goto (.fib stub F .enQAndReturn)))
  | .enQAndReturn => none
  | .ret =>
    (returnTo stub F).map fun base =>
      if m.stubAssertion base then .quiet m (c.goto base) else .quiet m.abort c

/-! ### `getMsg` and `suspend` -/

section
variable [NeZero N]

/-- A buffer as `calloc` leaves it. -/
def Message.zero : Message N := ⟨none, 0, .root, none, 0, none⟩

/-- `ALLOC_COUNT`. -/
def allocCount : Nat := 10

/-- What the caller of `getMsg` does with the buffer: to whom it sends which message, and where it
goes on. -/
def deliver (t : Fin N) (msg : Message N) : Use N → Fin N × Message N × Base N
  | .own =>
    -- `from` is not set here: the buffer keeps the one of its last use.
    (t, { msg with callback := some .stealHandler, asker := some t, victim := t },
      .suspend .ready)
  | .steal i x =>
    (x, { msg with callback := some .stealHandler, sender := t, asker := some t, victim := x },
      .suspend (.scan (i + 1)))
  | .finish parentSP parentProc =>
    (parentProc,
      { msg with callback := some .returnInletHandler, sender := t, parentSP, asker := none },
      .suspend .poll)

/-- One step of the thread `t` in `getMsg`. -/
def getMsgStep (m : Shared N) (t : Fin N) (c : Core N) (use : Use N) :
    GetMsgPC N → Option (Outcome N)
  | .test =>
    if c.msgPool = [] then
      some (.eui m { c.mydui.goto (.getMsg use .take) with
        msgPool := List.replicate allocCount Message.zero })
    else some (.quiet m (c.goto (.getMsg use .take)))
  | .take =>
    match c.msgPool with
    | [] => some (.quiet m.abort c)
    | msg :: pool =>
      some (.eui m { c.mydui.goto (.getMsg use (.fill msg)) with msgPool := pool })
  | .fill msg =>
    let d := deliver t msg use
    some ⟨c.goto d.2.2, m, some (d.1, d.2.1)⟩

/-- One step of the thread `t` in `suspend`. -/
def suspendStep (s : State N) (t : Fin N) (c : Core N) : SuspendPC N → Option (Outcome N)
  | .poll => some (.quiet s.shared ((c.setActs (.poll :: c.acts)).goto (.suspend .ownTest)))
  | .ownTest =>
    if c.seedQ = [] then some (.quiet s.shared (c.goto (.suspend .ready)))
    else some (.quiet s.shared (c.goto (.suspend .ownTake)))
  | .ownTake =>
    match c.seedQ with
    | [] => some (.quiet s.shared (c.mydui.goto (.suspend (.ownEui false))))
    | seed :: seedQ =>
      some (.quiet { s.shared with stolen := s.shared.stolen ++ [seed] }
        ((c.mydui.setSeedQ seedQ).goto (.suspend (.ownEui true))))
  | .ownEui true => some (.eui s.shared (c.goto (.getMsg .own .test)))
  | .ownEui false => some (.eui s.shared (c.goto (.suspend .ownTest)))
  | .ready =>
    match s.shared.readyQ.front with
    | none => some (.quiet s.shared (c.goto (.suspend .stealing)))
    | some ready =>
      some (.quiet s.shared
        (c.goto (.suspend (.deqFront (s.shared.readyQ.threads ready).sp))))
  | .deqFront e =>
    match s.shared.readyQ.front with
    | none => some (.quiet s.shared.abort c)
    | some origFront => some (.quiet s.shared (c.goto (.suspend (.deqNext e origFront))))
  | .deqNext e origFront =>
    some (.quiet (s.shared.setFront (s.shared.readyQ.threads origFront).next)
      (c.goto (.suspend (.deqBack e origFront))))
  | .deqBack e origFront =>
    if (s.shared.readyQ.threads origFront).next = none then
      some (.quiet (s.shared.setBack none) (c.goto (.suspend (.jump e))))
    else some (.quiet s.shared (c.goto (.suspend (.jump e))))
  | .jump e => some (startContext s.shared t c e)
  | .stealing =>
    if c.amStealing then some (.quiet s.shared (c.goto (.suspend .poll)))
    else some (.quiet s.shared (c.goto (.suspend (.scan 1))))
  | .scan i =>
    if i < N then
      let x := Fin.ofNat N (c.lastReq + i)
      if s.checkSeedQue x then
        -- The scan goes on behind the request, with the new `lastReq`.
        some (.quiet s.shared
          { c.goto (.getMsg (.steal i x) .test) with amStealing := true, lastReq := x })
      else some (.quiet s.shared (c.goto (.suspend (.scan (i + 1)))))
    else some (.quiet s.shared (c.goto (.suspend .poll)))

/-- One step of the thread `t` with no poll on top. -/
def baseStep (s : State N) (t : Fin N) (c : Core N) : Base N → Option (Outcome N)
  | .fib stub F pc => fibStep s.shared t c stub F pc
  | .getMsg use pc => getMsgStep s.shared t c use pc
  | .suspend pc => suspendStep s t c pc
  | .returned => none

end

/-! ### The handlers -/

/-- `setupMsgBuffer`. -/
def setupMsgBuffer (t : Fin N) (msg : Message N) (handler : Callback) : Message N :=
  { msg with sender := t, callback := some handler }

/-- What a thread runs on its system stack. `suspend` is called there, or by a thread that has not
run `fib` yet and so has no seed. `getMsg` lies where its caller does. -/
def Base.onSystemStack : Base N → Bool
  | .suspend _ => true
  | .getMsg .own _ => true
  | .getMsg (.steal _ _) _ => true
  | _ => false

/-- `remoteStackletFork` polls before it sends its message. -/
def Act.onSystemStack : Act N → Bool
  | .steal _ (.send _) => true
  | _ => false

/-- Frames that are still needed lie at the top of the system stack, with the handlers `rest` below
the topmost one. -/
def Core.onSystemStack (c : Core N) (rest : List (Act N)) : Bool :=
  c.base.onSystemStack || rest.any Act.onSystemStack

/-- One step of `stealHandler` on the thread `t`, with `rest` below it. -/
def stealStep (m : Shared N) (t : Fin N) (c : Core N) (rest : List (Act N)) (msg : Message N) :
    StealPC N → Outcome N
  | .enter =>
    match c.seedQ with
    | [] => .eui m (c.mydui.setActs (.steal msg .fail :: rest))
    | seed :: seedQ =>
      -- The seed is unlinked. Then `SecondChildSteal` calls `remoteStackletFork`.
      if c.onSystemStack rest then .quiet (m.steal seed).abort (c.setSeedQ seedQ)
      else
        -- `remoteStackletFork` takes `dest` before `setupMsgBuffer` overwrites `from`.
        let fmsg :=
          { setupMsgBuffer t msg .forkHandler with parentSP := seed.sp, seed := some seed }
        .eui (m.steal seed)
          ((c.mydui.setSeedQ seedQ).setActs (.steal fmsg (.send msg.sender) :: rest))
  | .fail => ⟨c.setActs rest, m, some (msg.sender, setupMsgBuffer t msg .noWorkHandler)⟩
  | .send dest => ⟨c.setActs rest, m, some (dest, msg)⟩

/-- What `forkHandler` puts on the ready queue. -/
def Message.context (msg : Message N) : Context N := ⟨.stolen msg.parentSP msg.sender, msg.seed⟩

/-- One step of `forkHandler` on the thread `t`, with `rest` below it. -/
def forkStep (m : Shared N) (t : Fin N) (c : Core N) (rest : List (Act N)) (msg : Message N) :
    ForkPC → Outcome N
  | .enter =>
    let ready := m.readyQ.readyQId
    match m.readyQ.back with
    | some _ => .quiet (m.newReady msg.context) (c.setActs (.fork msg (.enqLink ready) :: rest))
    | none => .quiet (m.newReady msg.context) (c.setActs (.fork msg (.enqFront ready) :: rest))
  | .enqLink ready =>
    match m.readyQ.back with
    | some back =>
      .quiet (m.setNext back (some ready)) (c.setActs (.fork msg (.enqBack ready) :: rest))
    | none => .quiet m.abort c
  | .enqFront ready =>
    .quiet (m.setFront (some ready)) (c.setActs (.fork msg (.enqBack ready) :: rest))
  | .enqBack ready => .quiet (m.setBack (some ready)) (c.setActs (.fork msg .resume :: rest))
  | .resume =>
    -- Nothing separates `enqReadyQ` from `Resume`, and the jump does not come back.
    startContext m t c msg.context

/-- The handler that `i_handler` calls for a message. -/
def handlerOf (msg : Message N) : Callback → Act N
  | .stealHandler => .steal msg .enter
  | .noWorkHandler => .noWork msg false
  | .forkHandler => .fork msg .enter
  | .returnInletHandler => .returnInlet msg

/-- One step of the topmost poll or handler of the thread `t`, with `rest` below it. -/
def actStep (m : Shared N) (t : Fin N) (c : Core N) (rest : List (Act N)) : Act N → Outcome N
  | .poll => .quiet m (c.setActs (poll c.mask.flags .iHandler rest))
  | .iHandler =>
    match Uli.iHandler (fun msg => msg.callback.map (handlerOf msg)) .iHandler rest c.msgBufs with
    | some (msgBufs, acts) => .quiet m { c with msgBufs, acts }
    | none => .quiet m.abort c
  | .steal msg pc => stealStep m t c rest msg pc
  | .noWork msg false =>
    -- `amStealing = 0`, then `freeMsgBuffer`.
    .eui m { c.mydui.setActs (.noWork msg true :: rest) with
      amStealing := false, msgPool := msg :: c.msgPool }
  | .noWork _ true => .quiet m (c.setActs rest)
  | .fork msg pc => forkStep m t c rest msg pc
  | .returnInlet _ => .quiet m (c.setActs rest)

/-- A poll returns when the thread is masked, and calls `i_handler` otherwise. -/
theorem actStep_poll (m : Shared N) (t : Fin N) (c : Core N) (rest : List (Act N)) :
    actStep m t c rest .poll =
      if Masked c.mask.flags then .quiet m (c.setActs rest)
      else .quiet m (c.setActs (.iHandler :: rest)) := by
  simp only [actStep, poll]
  split <;> rfl

/-- The loop returns when no message waits, and calls the handler of the first one otherwise. -/
theorem actStep_iHandler (m : Shared N) (t : Fin N) (c : Core N) (rest : List (Act N)) :
    actStep m t c rest .iHandler =
      match c.msgBufs with
      | [] => .quiet m (c.setActs rest)
      | msg :: msgBufs =>
        match msg.callback with
        | some callback =>
          .quiet m { c with msgBufs, acts := handlerOf msg callback :: .iHandler :: rest }
        | none => .quiet m.abort c := by
  simp only [actStep]
  cases hbufs : c.msgBufs with
  | nil => simp [Uli.iHandler, ← hbufs]
  | cons msg msgBufs => cases hcallback : msg.callback <;> simp [Uli.iHandler, hcallback]

/-! ### The whole machine -/

/-- `SENDI`: the message goes to the end of the queue of its target. -/
def Core.receive (c : Core N) (msg : Message N) : Core N :=
  { c with msgBufs := c.msgBufs ++ [msg] }

/-- The state that a step of `t` leaves. -/
def State.after (s : State N) (t : Fin N) (o : Outcome N) : State N :=
  ⟨Lib.post Core.receive (Function.update s.cores t o.core) o.sent, o.shared⟩

variable [NeZero N]

/-- What the next step of the thread `t` does. -/
def coreStep (s : State N) (t : Fin N) : Option (Outcome N) :=
  match (s.cores t).acts with
  | act :: rest => some (actStep s.shared t (s.cores t) rest act)
  | [] => baseStep s t (s.cores t) (s.cores t).base

/-- One step of the thread `t`. -/
def step (s : State N) (t : Fin N) : Option (State N) :=
  if s.shared.aborted then none else (coreStep s t).map (s.after t)

/-- The state in which `firstFork` has started `fib` on the first stacklet, and the other threads
have called `suspend`. -/
def initial (N : Nat) [NeZero N] (n : Int) (stubFound : Bool) : State N where
  cores t :=
    { base := if t = 0 then .fib .first .root .start else .suspend .poll
      acts := []
      seedQ := []
      amStealing := false
      lastReq := t
      mask := ⟨0, 0⟩
      msgBufs := []
      msgPool := [] }
  shared :=
    { foos := fun F => ⟨if F = .root then n else 0, 0⟩
      frames := fun _ => ⟨none, none, 0, 0⟩
      readyQ := ⟨fun _ => ⟨(), ⟨.first, none⟩, none⟩, none, none, 0⟩
      seeds := 0
      aborted := false
      stubFound
      released := []
      stolen := []
      starts := [] }

end

end Stacklets.Steal

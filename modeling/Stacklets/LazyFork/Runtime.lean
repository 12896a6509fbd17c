import Mathlib.Algebra.GroupWithZero.Nat
import Stacklets.LazyFork.SeedStack
import Stacklets.LazyFork.Spinlock
import Stacklets.Util.Numerals

/-!
# `Stacklets.LazyFork.Runtime`: the lazy-fork runtime of `compiler/v3`

The state of a run of `startfib` on `P + 1` pthreads (the main one and the `P` that
`createPthreads` starts), and the function `step` that lets one pthread do its next atomic
step. A step is one access to a seed queue, a seed lock, `firstChildReturnAdr` or
`syncCounter`, or one call, return, stack switch or access to a `Foo`, with the thread-local
code around it. `step` follows the program text of `fib` (`myfib.c`), of `stubRoutine`,
`finishStubRoutine`, `stackletFork`, `getSeedIfAvailableFrom`, `suspend` and `firstFork`
(`stacklet.c`), and of `pushSeed`, `releaseSeed` and `peekSeed` (`seedStack.c`). It is `none`
when the pthread has to wait for a lock, and when it has nothing left to do.

Addresses are names. A `Foo` is the `a` or the `b` of a frame, or the one that `startfib`
allocates. The frame of the call `fib(F)` is named by its argument `F`, its seed by the frame
that pushed it, and a stacklet by the argument of the function it was forked for. So a second
call with the same argument would reuse the name of the first one. `Tally.calls` counts the
calls, and such a call would show there.

A call from a frame puts the new frame right above the caller, and a return takes the frame
off. Whatever lay above the caller is overwritten (`aboveFrame`). So a call or a return on a
frame that is not on top of its stacklet loses frames in the model as it does in memory.
-/

set_option autoImplicit false

namespace Stacklets.LazyFork

open Function (update)

/-- A pthread: `0` is the main one. -/
abbrev Tid (P : Nat) := Fin (P + 1)

/-- The main pthread exists for every `P`. -/
instance (priority := 1100) neZeroTid (P : Nat) : NeZero (P + 1) := ⟨Nat.succ_ne_zero P⟩

/-- The address of a `Foo`, and the name of the frame of `fib` on it. -/
inductive FooPtr
  /-- The one that `startfib` allocates. -/
  | root
  /-- `&a` in the frame of `fib(frame)`. -/
  | a (frame : FooPtr)
  /-- `&b` in the frame of `fib(frame)`. -/
  | b (frame : FooPtr)
deriving DecidableEq, Repr

/-- `Foo` of `myfib.h`. `fib` computes `input` only downwards, so it is not bounded here. -/
structure Foo where
  input : Int
  output : BitVec 32
deriving DecidableEq

/-- The code addresses that are taken with `&&` or stored in a stub. -/
inductive Label
  | firstChildDoneNormally
  | secondChildSteal
  | firstChildDone
  | secondChildDone
  /-- The label `FF` behind the call in `firstFork`. -/
  | ff
deriving DecidableEq, Repr

/-- Where a saved stack pointer points: the frame of `firstFork` on the original stack, or a
frame of `fib`. -/
inductive StackPtr
  | main
  | frame (F : FooPtr)
deriving DecidableEq, Repr

/-- The return address of a frame of `fib`: behind `fib(&a)` or `fib(&b)` in its caller, or
`stubRoutine` at the base of a stacklet. -/
inductive ReturnAdr
  | afterA (caller : FooPtr)
  | afterB (caller : FooPtr)
  | stubRoutine (stacklet : FooPtr)
deriving DecidableEq, Repr

/-- The part of `Stub` that the code reads. -/
structure Stub where
  parentPC : Label
  parentSP : StackPtr
deriving DecidableEq

/-- What a frame of `fib` holds besides `a` and `b`. `home` is the stacklet it lies on. -/
structure Frame (P : Nat) where
  returnAdr : ReturnAdr
  home : FooPtr
  firstChildReturnAdr : Option Label
  ptid : Tid P
  syncCounter : Int

/-- Where a pthread is in the body of `fib`. -/
inductive FibPC
  /-- `if (f->input <= 2)`. -/
  | start
  /-- `f->output = 1`. -/
  | leaf
  /-- `initSeed(&&SecondChildSteal, stackPointer)`. -/
  | initSeed
  /-- `pushSeed`: `seedStackLock(threadId)`. -/
  | pushLock
  /-- `pushSeed`: link the seed. -/
  | pushLink
  /-- `firstChildReturnAdr = &&FirstChildDoneNormally; ptid = threadId`. -/
  | setReturnAdr
  /-- `seedStackUnlock(threadId)`. -/
  | pushUnlock
  /-- `fib(&a)`. -/
  | callA
  /-- Behind `fib(&a)`: `seedStackLock(ptid)`. -/
  | lockPtid
  /-- `goto *firstChildReturnAdr`. -/
  | gotoReturnAdr
  /-- `FirstChildDoneNormally`: `releaseSeed(seed, ptid)`. -/
  | firstChildDoneNormally
  /-- `seedStackUnlock(ptid)`. -/
  | unlockNormally
  /-- `fib(&b)`. -/
  | callB
  /-- Behind `fib(&b)`: `f->output = a.output + b.output`. -/
  | sum
  /-- `SecondChildSteal`: `firstChildReturnAdr = &&FirstChildDone`. -/
  | secondChildSteal
  /-- `syncCounter = 2`. -/
  | setSyncCounter
  /-- `stackletForkStub(&&SecondChildDone, stackPointer, fib, &b, ptid)`. -/
  | stackletForkStub
  /-- `FirstChildDone`: `seedStackUnlock(ptid)`. -/
  | firstChildDone
  /-- `__sync_sub_and_fetch(&syncCounter, 1)` behind `FirstChildDone`. -/
  | firstDecrement
  /-- `SecondChildDone`: `__sync_sub_and_fetch(&syncCounter, 1)`. -/
  | secondChildDone
  /-- `suspendStub()`: only the stack switch is left. -/
  | suspendStub
  /-- `AllReturned`: `f->output = a.output + b.output`. -/
  | allReturned
  /-- `return`. -/
  | ret
deriving DecidableEq, Repr

/-- The calls of `getSeedIfAvailableFrom` in the loop of `suspend`: on the own queue, and the
three of the inner loop. -/
inductive Search
  | own
  | scan (i : Fin 3)
deriving DecidableEq, Repr

/-- Where a pthread is. -/
inductive PC (P : Nat)
  /-- `firstFork`: `seedStackLock(0)`. -/
  | firstFork
  /-- `stackletFork`: `seedStackUnlock(tid)`. -/
  | stackletFork (parentPC : Label) (parentSP : StackPtr) (arg : FooPtr) (tid : Tid P)
  /-- `stackletFork`: allocate the stacklet, fill in the stub and `switchAndJmpWithArg`. -/
  | newStacklet (parentPC : Label) (parentSP : StackPtr) (arg : FooPtr)
  /-- In the frame of `fib(F)`. -/
  | fib (F : FooPtr) (l : FibPC)
  /-- `stubRoutine` at the base of a stacklet. -/
  | stubRoutine (S : FooPtr)
  /-- `finishStubRoutine` on the system stack. -/
  | finishStubRoutine (S : FooPtr)
  /-- `peekSeed`: the first test of `Q->front`. `peek .own` is the head of the `for (;;)`. -/
  | peek (k : Search)
  /-- `peekSeed`: `seedStackLock(tid)`. -/
  | peekLock (k : Search)
  /-- `peekSeed`: the second test of `Q->front`. -/
  | peekAgain (k : Search)
  /-- `peekSeed`: `seedStackUnlock(tid); return NULL`. -/
  | peekUnlock (k : Search)
  /-- `getSeedIfAvailableFrom`: `releaseSeed(seed, tid)` and `switchAndJmp`. -/
  | takeSeed (k : Search) (seed : FooPtr)
  /-- `suspend`: look at the ready queue. -/
  | readyQ
  /-- `firstFork` has returned to `startfib`. -/
  | returned
  /-- A `myassert` failed. -/
  | assertFailed
  /-- A jump to a label that does not belong to the frame at the stack pointer. -/
  | wild
deriving DecidableEq, Repr

/-- What happened to the frame of `fib(F)` and to its seed so far. The code does not read
it. -/
structure Tally where
  calls : Nat := 0
  /-- Stores to `f->output`. -/
  writes : Nat := 0
  returns : Nat := 0
  pushes : Nat := 0
  /-- Passages of `seedStackLock(ptid)` behind `fib(&a)`. -/
  passes : Nat := 0
  /-- Calls of `releaseSeed` on the seed at `FirstChildDoneNormally`. -/
  parentReleases : Nat := 0
  /-- Calls of `releaseSeed` on the seed in `getSeedIfAvailableFrom`. -/
  thiefReleases : Nat := 0
  decrements : Nat := 0
  /-- Arrivals at `AllReturned`. -/
  joins : Nat := 0
deriving DecidableEq

/-- The shared memory, and the place of every pthread. -/
structure State (P : Nat) where
  pc : Tid P → PC P
  foos : FooPtr → Foo
  frames : FooPtr → Frame P
  /-- The live frames of a stacklet, the topmost one first. -/
  stacklets : FooPtr → List FooPtr
  stubs : FooPtr → Stub
  seeds : FooPtr → Seed FooPtr Label StackPtr
  seedStacks : Tid P → SeedQueue FooPtr
  seedStackLocks : Tid P → Mutex (Tid P)
  readyQ : List (Label × StackPtr)
  tally : FooPtr → Tally

section
variable {P : Nat}

/-- The queue that a call of `getSeedIfAvailableFrom` in `suspend` looks at:
`(threadId+i)%numberOfThreads` in the inner loop. -/
def Search.victim (t : Tid P) : Search → Tid P
  | .own => t
  | .scan i => t + Fin.ofNat (P + 1) i

/-- Where `suspend` goes on when `getSeedIfAvailableFrom` returns. -/
def Search.next : Search → PC P
  | .own => .readyQ
  | .scan 0 => .peek (.scan 1)
  | .scan 1 => .peek (.scan 2)
  | .scan 2 => .peek .own

/-- Where a jump to `adr` with stack pointer `sp` lands. -/
def jump (sp : StackPtr) (adr : Label) : PC P :=
  match sp, adr with
  | .frame F, .firstChildDoneNormally => .fib F .firstChildDoneNormally
  | .frame F, .secondChildSteal => .fib F .secondChildSteal
  | .frame F, .firstChildDone => .fib F .firstChildDone
  | .frame F, .secondChildDone => .fib F .secondChildDone
  | .main, .ff => .returned
  | _, _ => .wild

/-- Where a `return` to `adr` lands. -/
def ReturnAdr.land : ReturnAdr → PC P
  | .afterA F => .fib F .lockPtid
  | .afterB F => .fib F .sum
  | .stubRoutine S => .stubRoutine S

/-- The frames of a stack from `F` downwards: what is left when the stack pointer is that of
`F`. -/
def aboveFrame (F : FooPtr) (stack : List FooPtr) : List FooPtr :=
  stack.dropWhile (· ≠ F)

namespace State

/-- Pthread `t` goes on at `p`. -/
@[simp] def goto (s : State P) (t : Tid P) (p : PC P) : State P :=
  { s with pc := update s.pc t p }

/-- Record an event of the frame `F`. -/
@[simp] def count (s : State P) (F : FooPtr) (f : Tally → Tally) : State P :=
  { s with tally := update s.tally F (f (s.tally F)) }

/-- Change the locals of the frame `F`. -/
@[simp] def setFrame (s : State P) (F : FooPtr) (f : Frame P → Frame P) : State P :=
  { s with frames := update s.frames F (f (s.frames F)) }

/-- The store `F->output = v`. -/
@[simp] def setOutput (s : State P) (F : FooPtr) (v : BitVec 32) : State P :=
  { s with foos := update s.foos F { s.foos F with output := v } }

/-- The store `F->input = v`. -/
@[simp] def setInput (s : State P) (F : FooPtr) (v : Int) : State P :=
  { s with foos := update s.foos F { s.foos F with input := v } }

/-- The seed lock `x` becomes `m`. -/
@[simp] def setLock (s : State P) (x : Tid P) (m : Mutex (Tid P)) : State P :=
  { s with seedStackLocks := update s.seedStackLocks x m }

/-- `seedStackLock(x)` by pthread `t`, which goes on at `p`. -/
def seedStackLock (s : State P) (t x : Tid P) (p : PC P) : Option (State P) :=
  (mySpinLock (s.seedStackLocks x) t).map fun
    | .done m => (s.setLock x m).goto t p
    | .assertFailed => s.goto t .assertFailed

/-- `seedStackUnlock(x)` by pthread `t`, which goes on at `p`. -/
def seedStackUnlock (s : State P) (t x : Tid P) (p : PC P) : State P :=
  match mySpinUnlock (s.seedStackLocks x) t with
  | .done m => (s.setLock x m).goto t p
  | .assertFailed => s.goto t .assertFailed

/-- `releaseSeed(seed, x)`. -/
def releaseSeed (s : State P) (seed : FooPtr) (x : Tid P) : State P :=
  let r := LazyFork.releaseSeed s.seeds (s.seedStacks x) seed
  { s with seeds := r.1, seedStacks := update s.seedStacks x r.2 }

/-- Set up a fresh frame for `fib(F)` on the stacklet `S` above the frames `below`, and start
its body. -/
def enter (s : State P) (t : Tid P) (F : FooPtr) (ra : ReturnAdr) (S : FooPtr)
    (below : List FooPtr) : State P :=
  ({ s with
      frames := update s.frames F
        { returnAdr := ra, home := S, firstChildReturnAdr := none, ptid := 0, syncCounter := 0 }
      stacklets := update s.stacklets S (F :: below) }.count F
    fun k => { k with calls := k.calls + 1 }).goto t (.fib F .start)

/-- The call `fib(arg)` from the frame of `fib(F)`. -/
def call (s : State P) (t : Tid P) (F arg : FooPtr) (ra : ReturnAdr) : State P :=
  s.enter t arg ra (s.frames F).home (aboveFrame F (s.stacklets (s.frames F).home))

/-- `return` from the frame of `fib(F)`. -/
def ret (s : State P) (t : Tid P) (F : FooPtr) : State P :=
  ({ s with
      stacklets := update s.stacklets (s.frames F).home
        (aboveFrame F (s.stacklets (s.frames F).home)).tail }.count F
    fun k => { k with returns := k.returns + 1 }).goto t (s.frames F).returnAdr.land

/-- `__sync_sub_and_fetch(&syncCounter, 1)` and the branch behind it: `suspendStub` unless the
result is `0`. -/
def decrement (s : State P) (t : Tid P) (F : FooPtr) : State P :=
  let c := (s.frames F).syncCounter - 1
  let s' := (s.setFrame F fun f => { f with syncCounter := c }).count F
    fun k => { k with decrements := k.decrements + 1 }
  if c ≠ 0 then s'.goto t (.fib F .suspendStub)
  else (s'.count F fun k => { k with joins := k.joins + 1 }).goto t (.fib F .allReturned)

/-- `f->output = a.output + b.output`. -/
def writeSum (s : State P) (t : Tid P) (F : FooPtr) : State P :=
  ((s.setOutput F ((s.foos (.a F)).output + (s.foos (.b F)).output)).count F
    fun k => { k with writes := k.writes + 1 }).goto t (.fib F .ret)

end State

/-- One step of pthread `t` in the frame of `fib(F)`. -/
def fibStep (s : State P) (t : Tid P) (F : FooPtr) : FibPC → Option (State P)
  | .start =>
    if (s.foos F).input ≤ 2 then some (s.goto t (.fib F .leaf))
    else some (((s.setInput (.a F) ((s.foos F).input - 1)).setInput (.b F)
      ((s.foos F).input - 2)).goto t (.fib F .initSeed))
  | .leaf =>
    some (((s.setOutput F 1).count F fun k => { k with writes := k.writes + 1 }).goto t
      (.fib F .ret))
  | .initSeed =>
    some ({ s with
      seeds := update s.seeds F
        (LazyFork.initSeed .secondChildSteal (.frame F)) }.goto t (.fib F .pushLock))
  | .pushLock => s.seedStackLock t t (.fib F .pushLink)
  | .pushLink =>
    let r := pushSeed s.seeds (s.seedStacks t) F
    some (({ s with
        seeds := r.1
        seedStacks := update s.seedStacks t r.2 }.count F
      fun k => { k with pushes := k.pushes + 1 }).goto t (.fib F .setReturnAdr))
  | .setReturnAdr =>
    some ((s.setFrame F fun f =>
      { f with firstChildReturnAdr := some .firstChildDoneNormally, ptid := t }).goto t
        (.fib F .pushUnlock))
  | .pushUnlock => some (s.seedStackUnlock t t (.fib F .callA))
  | .callA => some (s.call t F (.a F) (.afterA F))
  | .lockPtid =>
    ((s.count F fun k => { k with passes := k.passes + 1 }).seedStackLock t (s.frames F).ptid
      (.fib F .gotoReturnAdr))
  | .gotoReturnAdr =>
    match (s.frames F).firstChildReturnAdr with
    | some l => some (s.goto t (jump (.frame F) l))
    | none => some (s.goto t .wild)
  | .firstChildDoneNormally =>
    some (((s.releaseSeed F (s.frames F).ptid).count F
      fun k => { k with parentReleases := k.parentReleases + 1 }).goto t
        (.fib F .unlockNormally))
  | .unlockNormally => some (s.seedStackUnlock t (s.frames F).ptid (.fib F .callB))
  | .callB => some (s.call t F (.b F) (.afterB F))
  | .sum => some (s.writeSum t F)
  | .secondChildSteal =>
    some ((s.setFrame F fun f => { f with firstChildReturnAdr := some .firstChildDone }).goto t
      (.fib F .setSyncCounter))
  | .setSyncCounter =>
    some ((s.setFrame F fun f => { f with syncCounter := 2 }).goto t (.fib F .stackletForkStub))
  | .stackletForkStub =>
    some (s.goto t (.stackletFork .secondChildDone (.frame F) (.b F) (s.frames F).ptid))
  | .firstChildDone => some (s.seedStackUnlock t (s.frames F).ptid (.fib F .firstDecrement))
  | .firstDecrement => some (s.decrement t F)
  | .secondChildDone => some (s.decrement t F)
  | .suspendStub => some (s.goto t (.peek .own))
  | .allReturned => some (s.writeSum t F)
  | .ret => some (s.ret t F)

/-- One step of pthread `t`. -/
def step (s : State P) (t : Tid P) : Option (State P) :=
  match s.pc t with
  | .firstFork => s.seedStackLock t 0 (.stackletFork .ff .main .root 0)
  | .stackletFork parentPC parentSP arg tid =>
    some (s.seedStackUnlock t tid (.newStacklet parentPC parentSP arg))
  | .newStacklet parentPC parentSP arg =>
    some ({ s with stubs := update s.stubs arg ⟨parentPC, parentSP⟩ }.enter t arg
      (.stubRoutine arg) arg [])
  | .fib F l => fibStep s t F l
  | .stubRoutine S => some (s.goto t (.finishStubRoutine S))
  | .finishStubRoutine S => some (s.goto t (jump (s.stubs S).parentSP (s.stubs S).parentPC))
  | .peek k =>
    match (s.seedStacks (k.victim t)).front with
    | none => some (s.goto t k.next)
    | some _ => some (s.goto t (.peekLock k))
  | .peekLock k => s.seedStackLock t (k.victim t) (.peekAgain k)
  | .peekAgain k =>
    match (s.seedStacks (k.victim t)).front with
    | none => some (s.goto t (.peekUnlock k))
    | some seed => some (s.goto t (.takeSeed k seed))
  | .peekUnlock k => some (s.seedStackUnlock t (k.victim t) k.next)
  | .takeSeed k seed =>
    some (((s.releaseSeed seed (k.victim t)).count seed
      fun c => { c with thiefReleases := c.thiefReleases + 1 }).goto t
        (jump (s.seeds seed).sp (s.seeds seed).adr))
  | .readyQ =>
    match s.readyQ with
    | [] => some (s.goto t (.peek (.scan 0)))
    | (adr, sp) :: rest => some ({ s with readyQ := rest }.goto t (jump sp adr))
  | .returned => none
  | .assertFailed => none
  | .wild => none

/-- The state in which the main pthread is about to lock in `firstFork` and every other
pthread has entered `suspend`. -/
def initial (P : Nat) (n : Int) : State P where
  pc t := if t = 0 then .firstFork else .peek .own
  foos _ := ⟨n, 0⟩
  frames _ :=
    { returnAdr := .stubRoutine .root, home := .root, firstChildReturnAdr := none, ptid := 0,
      syncCounter := 0 }
  stacklets _ := []
  stubs _ := ⟨.ff, .main⟩
  seeds _ := { adr := .secondChildSteal, sp := .main, prev := none, next := none, live := false }
  seedStacks _ := SeedQueue.empty
  seedStackLocks _ := none
  readyQ := []
  tally _ := {}

end

end Stacklets.LazyFork

import Stacklets.LazyFork.Phase
import Stacklets.LazyYield.Queues

/-!
# `Stacklets.LazyYield.Runtime`: the lazy-fork runtime of `compiler/v2`

The state of a run of `startfib(n)` and the function `step`, which runs the program to its next
call, return, jump or stack switch. There is one thread. `step` follows the text of `fib` and
`startfib` (`myfib.c`), of `stubRoutine`, `stackletFork`, `suspend` and `yield` (`stacklet.c`), and
uses `seedStack.c` and `readyQ.c` as they stand in `Stacklets.LazyYield.Queues`. The test
`suspCtr++ >= suspHere` is replaced by an oracle, which is asked for the `i`-th call of `fib` that
is not a leaf.

Addresses are names, as in `Stacklets.LazyFork.Runtime`. A `Foo` is the `a` or the `b` of a frame,
or the one that `startfib` allocates. The frame of `fib(F)` is named by its argument, and so is
its seed. A stacklet is named by the argument of the function it was forked for. `stubBase` names
the stacklet that the code takes for the current one. A call puts the new frame right above the
caller, and a return takes the frame off, so a call or return on a frame that is not the topmost
one of its stack loses frames in the model as it does in memory. The frame of `yield` lies on top
of that of its caller. It is kept as a part of it.

Stacks are taken to be large enough, and a stack switch to resume the saved frame. The debug
output is left out.
-/

set_option autoImplicit false

namespace Stacklets.LazyYield

open Function (update)
open LazyFork (FooPtr Foo aboveFrame)

/-- The code addresses that are taken with `&&`. -/
inductive Label
  | firstChildDoneNormally
  | secondChildSteal
  | firstChildDone
  | secondChildDone
  | resume
deriving DecidableEq

/-- Where a saved stack pointer points: into a frame of `fib`, or into that of the `yield` it
called. -/
inductive StackPtr
  | fib (F : FooPtr)
  | yield (F : FooPtr)
deriving DecidableEq

/-- A stack: the main one, for which `stubBase` is `-1`, or a stacklet. -/
inductive Stack
  | main
  | stacklet (F : FooPtr)
deriving DecidableEq

/-- The return address of a frame of `fib`. -/
inductive ReturnAdr
  | startfib
  | afterA (caller : FooPtr)
  | afterB (caller : FooPtr)
  | stubRoutine
deriving DecidableEq

/-- `Stub`. Its `stubRoutine` is the return address of the first frame of the stacklet. -/
structure Stub where
  parentPC : Label
  parentSP : StackPtr
  parentStubBase : Stack
deriving DecidableEq

/-- What a frame of `fib` holds. `home` is the stack it lies on, and `yieldStubBase` the
`localStubBase` in the frame of the `yield` it called. -/
structure Frame where
  returnAdr : ReturnAdr
  home : Stack
  firstChildReturnAdr : Option Label
  syncCounter : Int
  localStubBase : Stack
  yieldStubBase : Stack

/-- A frame at the start of `fib`. -/
def Frame.fresh (ra : ReturnAdr) (R : Stack) : Frame :=
  { returnAdr := ra, home := R, firstChildReturnAdr := none, syncCounter := 0,
    localStubBase := .main, yieldStubBase := .main }

/-- Where the program is. -/
inductive PC
  /-- `fib(F)` starts. -/
  | start (F : FooPtr)
  /-- `Resume` in the `yield` that `fib(F)` called. -/
  | resume (F : FooPtr)
  /-- Behind `fib(a)`. -/
  | afterA (F : FooPtr)
  /-- Behind `fib(b)`. -/
  | afterB (F : FooPtr)
  /-- `SecondChildSteal`. -/
  | secondChildSteal (F : FooPtr)
  /-- `SecondChildDone`. -/
  | secondChildDone (F : FooPtr)
  /-- `stubRoutine`. -/
  | stubRoutine
  /-- `suspend`, at the head of the loop. -/
  | suspend
  /-- `fib(a)` has returned to `startfib`. -/
  | returned
  /-- A jump to a label that does not belong to the frame at the stack pointer, or an access to
  the stub of the main stack. -/
  | wild
deriving DecidableEq

/-- The memory, and where the program is. -/
structure State where
  pc : PC
  foos : FooPtr → Foo
  frames : FooPtr → Frame
  /-- The live frames of a stack, the topmost one first. -/
  stackOf : Stack → List FooPtr
  stubs : FooPtr → Stub
  stubBase : Stack
  seeds : FooPtr → Seed FooPtr Label StackPtr
  /-- `seedDummyHead->next`. -/
  seedHead : Option FooPtr
  readyQ : ReadyQ Label StackPtr
  /-- How often the oracle was asked. -/
  asked : Nat
  /-- How often `stackletFork` allocated a stacklet for the function on an argument. -/
  forks : FooPtr → Nat
  /-- How often `stubRoutine` freed it. -/
  frees : FooPtr → Nat

/-- Where a jump to `adr` with stack pointer `sp` lands. -/
def jump : StackPtr → Label → PC
  | .fib F, .secondChildSteal => .secondChildSteal F
  | .fib F, .secondChildDone => .secondChildDone F
  | .yield F, .resume => .resume F
  | _, _ => .wild

/-- Where a `return` to `adr` lands. -/
def ReturnAdr.land : ReturnAdr → PC
  | .startfib => .returned
  | .afterA F => .afterA F
  | .afterB F => .afterB F
  | .stubRoutine => .stubRoutine

namespace State

/-- Change the locals of the frame of `fib(F)`. -/
def setFrame (s : State) (F : FooPtr) (f : Frame → Frame) : State :=
  { s with frames := update s.frames F (f (s.frames F)) }

/-- The store `F->output = v`. -/
def setOutput (s : State) (F : FooPtr) (v : BitVec 32) : State :=
  { s with foos := update s.foos F { s.foos F with output := v } }

/-- `a` or `b` from `calloc`, with the store to its `input`. -/
def callocFoo (s : State) (F : FooPtr) (input : Int) : State :=
  { s with foos := update s.foos F ⟨input, 0⟩ }

/-- Start `fib(F)` in a fresh frame on `R` above the frames `below`. -/
def enter (s : State) (F : FooPtr) (ra : ReturnAdr) (R : Stack) (below : List FooPtr) : State :=
  { s with
    pc := .start F
    frames := update s.frames F (.fresh ra R)
    stackOf := update s.stackOf R (F :: below) }

/-- The call `fib(arg)` from the frame of `fib(F)`. -/
def call (s : State) (F arg : FooPtr) (ra : ReturnAdr) : State :=
  s.enter arg ra (s.frames F).home (aboveFrame F (s.stackOf (s.frames F).home))

/-- `return` from the frame of `fib(F)`. -/
def ret (s : State) (F : FooPtr) : State :=
  { s with
    pc := (s.frames F).returnAdr.land
    stackOf := update s.stackOf (s.frames F).home
      (aboveFrame F (s.stackOf (s.frames F).home)).tail }

/-- `f->output = a->output + b->output; return`. -/
def sum (s : State) (F : FooPtr) : State :=
  (s.setOutput F ((s.foos (.a F)).output + (s.foos (.b F)).output)).ret F

/-- `yield` in the frame of `fib(F)`, up to `suspendStub`. -/
def yield (s : State) (F : FooPtr) : State :=
  { s.setFrame F fun f => { f with yieldStubBase := s.stubBase } with
    readyQ := s.readyQ.enq .resume (.yield F)
    pc := .suspend }

/-- `popSeed`. -/
def popSeed (s : State) (seed : FooPtr) : State :=
  let r := LazyYield.popSeed s.seeds s.seedHead seed
  { s with seeds := r.1, seedHead := r.2 }

/-- `initSeed(&&SecondChildSteal, stackPointer)` and `pushSeed`. -/
def pushSeed (s : State) (F : FooPtr) : State :=
  let r := LazyYield.pushSeed
    (update s.seeds F (initSeed .secondChildSteal (.fib F))) s.seedHead F
  { s with seeds := r.1, seedHead := r.2 }

/-- `fib` from the `calloc`s to `saveRegisters`. -/
def prepare (s : State) (F : FooPtr) : State :=
  let s := (s.callocFoo (.a F) ((s.foos F).input - 1)).callocFoo (.b F) ((s.foos F).input - 2)
  (s.pushSeed F).setFrame F fun f =>
    { f with
      syncCounter := 0
      firstChildReturnAdr := some .firstChildDoneNormally
      localStubBase := s.stubBase }

/-- `fib` from the `calloc`s to the call `fib(a)`. -/
def fork (s : State) (F : FooPtr) : State := (s.prepare F).call F (.a F) (.afterA F)

/-- `--syncCounter`, and either `suspendStub` or the end of `fib`. -/
def join (s : State) (F : FooPtr) : State :=
  let c := (s.frames F).syncCounter - 1
  let s := s.setFrame F fun f => { f with syncCounter := c }
  if c ≠ 0 then { s with pc := .suspend } else s.sum F

/-- `stackletFork(parentPC, parentSP, fib, arg)`. -/
def stackletFork (s : State) (parentPC : Label) (parentSP : StackPtr) (arg : FooPtr) : State :=
  { s with
    stubs := update s.stubs arg ⟨parentPC, parentSP, s.stubBase⟩
    stubBase := .stacklet arg
    forks := update s.forks arg (s.forks arg + 1) }.enter arg .stubRoutine
      (.stacklet arg) []

/-- `SecondChildSteal`. -/
def secondChildSteal (s : State) (F : FooPtr) : State :=
  let s := s.setFrame F fun f =>
    { f with firstChildReturnAdr := some .firstChildDone, syncCounter := 2 }
  { s with stubBase := (s.frames F).localStubBase }.stackletFork .secondChildDone (.fib F) (.b F)

/-- `stubRoutine`, which finds the stub through `stubBase`. -/
def stubRoutine (s : State) : State :=
  match s.stubBase with
  | .main => { s with pc := .wild }
  | .stacklet x =>
    { s with
      stubBase := (s.stubs x).parentStubBase
      frees := update s.frees x (s.frees x + 1)
      pc := jump (s.stubs x).parentSP (s.stubs x).parentPC }

/-- One turn of the loop of `suspend`. -/
def suspend (s : State) : State :=
  match s.seedHead with
  | some seed => { s.popSeed seed with pc := jump (s.seeds seed).sp (s.seeds seed).adr }
  | none =>
    match s.readyQ.front with
    | some ready =>
      { s with
        readyQ := s.readyQ.deq ready
        pc := jump (s.readyQ.threads ready).sp (s.readyQ.threads ready).adr }
    | none => s

end State

/-- One step of the program. It is `none` when `fib` has returned to `startfib`, and after a wild
jump. -/
def step (oracle : Nat → Bool) (s : State) : Option State :=
  match s.pc with
  | .start F =>
    if (s.foos F).input ≤ 2 then some ((s.setOutput F 1).ret F)
    else if oracle s.asked then some ({ s with asked := s.asked + 1 }.yield F)
    else some ({ s with asked := s.asked + 1 }.fork F)
  | .resume F => some ({ s with stubBase := (s.frames F).yieldStubBase }.fork F)
  | .afterA F =>
    match (s.frames F).firstChildReturnAdr with
    | some .firstChildDoneNormally => some ((s.popSeed F).call F (.b F) (.afterB F))
    | some .firstChildDone => some (s.join F)
    | _ => some { s with pc := .wild }
  | .afterB F => some (s.sum F)
  | .secondChildSteal F => some (s.secondChildSteal F)
  | .secondChildDone F => some (s.join F)
  | .stubRoutine => some s.stubRoutine
  | .suspend => some s.suspend
  | .returned => none
  | .wild => none

/-- The state in which `startfib(n)` calls `fib`. -/
def initial (n : Int) : State where
  pc := .start .root
  foos _ := ⟨n, 0⟩
  frames _ := .fresh .startfib .main
  stackOf R := if R = .main then [.root] else []
  stubs _ := ⟨.secondChildDone, .fib .root, .main⟩
  stubBase := .main
  seeds _ := initSeed .secondChildSteal (.fib .root)
  seedHead := none
  readyQ := ⟨fun _ => ⟨.resume, .yield .root, none⟩, none, none, 0⟩
  asked := 0
  forks _ := 0
  frees _ := 0

end Stacklets.LazyYield

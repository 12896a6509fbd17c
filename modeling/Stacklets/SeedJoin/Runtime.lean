import Stacklets.LazyYield.Runtime

/-!
# `Stacklets.SeedJoin.Runtime`: the lazy-fork runtime of `compiler/v1`

The first version of the runtime keeps what a join needs in the seed. A seed that `suspend` has
activated stays in the seed stack, and its `joinCounter` is shared by the frame that pushed it and
by the stub of the stacklet that runs its function. The one that counts down to 0 goes on in the
frame, and `popSeed` is called there.

`step` follows the text of `myfib.c`. `suspend` scans the seed stack one seed per step.
`seedStack.c` and `readyQ.c` link and unlink as those of `compiler/v2` do, and are the ones of
`Stacklets.LazyYield.Queues` (there the number of a ready thread is its `id`, here it only says in
which order the threads were allocated). The fields of `struct Seed` that the later version does
not have are in `SeedInfo`. `routine` is always `fib`. Addresses are names, as in
`Stacklets.LazyYield.Runtime`, the `volatile` locals of `fib` are known by the name of the frame,
and the test `suspCtr++ >= suspHere` is an oracle.

`logs` is the history of every seed. The code does not have it.
-/

set_option autoImplicit false

namespace Stacklets.SeedJoin

open Function (update)
open LazyFork (FooPtr Foo aboveFrame)
open LazyYield (Label StackPtr Stack ReturnAdr Seed initSeed ReadyQ)

/-- The fields of `struct Seed` that have to do with the second child and the join. -/
structure SeedInfo where
  argv : FooPtr
  activated : Bool
  joinCounter : Int
  parentStubBase : Stack
deriving DecidableEq

/-- What happened to a seed. -/
structure SeedLog where
  /-- The calls of `pushSeed`. -/
  pushes : Nat
  /-- The stores `activated = 1`. -/
  activations : Nat
  /-- The calls of `popSeed`. -/
  pops : Nat
  /-- The values stored in `joinCounter`. -/
  joins : List Int
deriving DecidableEq

/-- `Stub`. Its `stubRoutine` is the return address of the first frame of the stacklet. -/
structure Stub where
  seed : FooPtr
  stackletBuf : FooPtr
deriving DecidableEq

/-- What a frame of `fib` holds. `home` is the stack it lies on, and `yieldStubBase` the
`localStubBase` in the frame of the `yield` it called. -/
structure Frame where
  returnAdr : ReturnAdr
  home : Stack
  yieldStubBase : Stack

/-- Where the program is. -/
inductive PC
  /-- `fib(F)` starts. -/
  | start (F : FooPtr)
  /-- `Resume` in the `yield` that `fib(F)` called. -/
  | resume (F : FooPtr)
  /-- Behind `fib(a)`. -/
  | afterA (F : FooPtr)
  /-- Behind `fib(b)`. -/
  | afterB (F : FooPtr)
  /-- `SecondChildDone`. -/
  | secondChildDone (F : FooPtr)
  /-- `stubRoutine`. -/
  | stubRoutine
  /-- `suspend`, at the head of the outer loop. -/
  | suspend
  /-- `suspend`, at the head of the inner loop. -/
  | scan (seed : Option FooPtr)
  /-- `fib(a)` has returned to `startfib`. -/
  | returned
  /-- A jump to a label that does not belong to the frame at the stack pointer, or an access
  through a pointer that is null. -/
  | wild
deriving DecidableEq

/-- The memory, and where the program is. -/
structure State where
  pc : PC
  foos : FooPtr → Foo
  frames : FooPtr → Frame
  /-- The live frames of a stack, the topmost one first. -/
  stackOf : Stack → List FooPtr
  stubs : FooPtr → Stub
  stubBase : Stack
  seeds : FooPtr → Seed FooPtr Label StackPtr
  info : FooPtr → SeedInfo
  /-- `seedDummyHead->next`. -/
  seedHead : Option FooPtr
  readyQ : ReadyQ Label StackPtr
  /-- How often the oracle was asked. -/
  asked : Nat
  /-- How often `stackletFork` allocated a stacklet for the function on an argument. -/
  forks : FooPtr → Nat
  /-- How often `stubRoutine` freed it. -/
  frees : FooPtr → Nat
  logs : FooPtr → SeedLog

/-- Where a jump to `adr` with stack pointer `sp` lands. -/
def jump : StackPtr → Label → PC
  | .fib F, .secondChildDone => .secondChildDone F
  | .yield F, .resume => .resume F
  | _, _ => .wild

/-- Where a `return` to `adr` lands. -/
def land : ReturnAdr → PC
  | .startfib => .returned
  | .afterA F => .afterA F
  | .afterB F => .afterB F
  | .stubRoutine => .stubRoutine

namespace State

/-- The program goes on at `pc`. -/
def goto (s : State) (pc : PC) : State := { s with pc }

/-- The store `F->output = v`. -/
def setOutput (s : State) (F : FooPtr) (v : BitVec 32) : State :=
  { s with foos := update s.foos F { s.foos F with output := v } }

/-- `a` or `b` from `calloc`, with the store to its `input`. -/
def callocFoo (s : State) (F : FooPtr) (input : Int) : State :=
  { s with foos := update s.foos F ⟨input, 0⟩ }

/-- Start `fib(F)` in a fresh frame on `R` above the frames `below`. -/
def enter (s : State) (F : FooPtr) (ra : ReturnAdr) (R : Stack) (below : List FooPtr) : State :=
  { s with
    pc := .start F
    frames := update s.frames F ⟨ra, R, .main⟩
    stackOf := update s.stackOf R (F :: below) }

/-- The call `fib(arg)` from the frame of `fib(F)`. -/
def call (s : State) (F arg : FooPtr) (ra : ReturnAdr) : State :=
  s.enter arg ra (s.frames F).home (aboveFrame F (s.stackOf (s.frames F).home))

/-- `return` from the frame of `fib(F)`. -/
def ret (s : State) (F : FooPtr) : State :=
  { s with
    pc := land (s.frames F).returnAdr
    stackOf := update s.stackOf (s.frames F).home
      (aboveFrame F (s.stackOf (s.frames F).home)).tail }

/-- `f->output = a->output + b->output; return`. -/
def sum (s : State) (F : FooPtr) : State :=
  (s.setOutput F ((s.foos (.a F)).output + (s.foos (.b F)).output)).ret F

/-- The store `seed->joinCounter = v`. -/
def setJoinCounter (s : State) (seed : FooPtr) (v : Int) : State :=
  { s with
    info := update s.info seed { s.info seed with joinCounter := v }
    logs := update s.logs seed
      { s.logs seed with joins := (s.logs seed).joins ++ [v] } }

/-- The store `seed->activated = 1`. -/
def activate (s : State) (seed : FooPtr) : State :=
  { s with
    info := update s.info seed { s.info seed with activated := true }
    logs := update s.logs seed
      { s.logs seed with activations := (s.logs seed).activations + 1 } }

/-- `initSeed(&&SecondChildDone, stackPointer, fib, b, stubBase)`. -/
def initSeed (s : State) (F : FooPtr) : State :=
  { s with
    seeds := update s.seeds F (LazyYield.initSeed .secondChildDone (.fib F))
    info := update s.info F ⟨.b F, false, 0, s.stubBase⟩ }

/-- `pushSeed`. -/
def pushSeed (s : State) (seed : FooPtr) : State :=
  let r := LazyYield.pushSeed s.seeds s.seedHead seed
  { s with
    seeds := r.1
    seedHead := r.2
    logs := update s.logs seed
      { s.logs seed with pushes := (s.logs seed).pushes + 1 } }

/-- `popSeed`. -/
def popSeed (s : State) (seed : FooPtr) : State :=
  let r := LazyYield.popSeed s.seeds s.seedHead seed
  { s with
    seeds := r.1
    seedHead := r.2
    logs := update s.logs seed { s.logs seed with pops := (s.logs seed).pops + 1 } }

/-- `yield` in the frame of `fib(F)`, up to the call of `suspend`. -/
def yield (s : State) (F : FooPtr) : State :=
  { s with
    frames := update s.frames F { s.frames F with yieldStubBase := s.stubBase }
    readyQ := s.readyQ.enq .resume (.yield F)
    pc := .suspend }

/-- `fib` from the `calloc`s to the call `fib(a)`. -/
def fork (s : State) (F : FooPtr) : State :=
  let s := (s.callocFoo (.a F) ((s.foos F).input - 1)).callocFoo (.b F) ((s.foos F).input - 2)
  ((s.initSeed F).pushSeed F).call F (.a F) (.afterA F)

/-- `Resume` in `yield`, and `fib` behind it. -/
def resume (s : State) (F : FooPtr) : State :=
  let s := { s with stubBase := (s.frames F).yieldStubBase }
  match s.readyQ.front with
  | some origFront => { s with readyQ := s.readyQ.deq origFront }.fork F
  | none => s.goto .wild

/-- `popSeed(seed)` and the end of `fib`: `FirstChildDone` and `SecondChildDone`. -/
def finish (s : State) (F : FooPtr) : State := (s.popSeed F).sum F

/-- Behind `fib(a)`. -/
def afterA (s : State) (F : FooPtr) : State :=
  if (s.info F).activated then
    let c := (s.info F).joinCounter - 1
    let s := s.setJoinCounter F c
    if c ≠ 0 then s.goto .suspend else s.finish F
  else (s.popSeed F).call F (.b F) (.afterB F)

/-- `stackletFork(seed)`. -/
def stackletFork (s : State) (seed : FooPtr) : State :=
  let arg := (s.info seed).argv
  { s.setJoinCounter seed 2 with
    stubs := update s.stubs arg ⟨seed, arg⟩
    stubBase := .stacklet arg
    forks := update s.forks arg (s.forks arg + 1) }.enter arg .stubRoutine
      (.stacklet arg) []

/-- `stubRoutineFunctionWrapper`, which finds the stub through `stubBase`. -/
def stubRoutine (s : State) : State :=
  match s.stubBase with
  | .main => s.goto .wild
  | .stacklet x =>
    let seed := (s.stubs x).seed
    let buf := (s.stubs x).stackletBuf
    let c := (s.info seed).joinCounter - 1
    let s := { s.setJoinCounter seed c with
      frees := update s.frees buf (s.frees buf + 1) }
    if c = 0 then
      { s with
        stubBase := (s.info seed).parentStubBase
        pc := jump (s.seeds seed).sp (s.seeds seed).adr }
    else s.goto .suspend

/-- One turn of the inner loop of `suspend`, or what follows it. -/
def scan (s : State) : Option FooPtr → State
  | some seed =>
    if (s.info seed).activated = false then (s.activate seed).stackletFork seed
    else s.goto (.scan (s.seeds seed).next)
  | none =>
    match s.readyQ.front with
    | some ready => s.goto (jump (s.readyQ.threads ready).sp (s.readyQ.threads ready).adr)
    | none => s.goto .suspend

end State

/-- One step of the program. It is `none` when `fib` has returned to `startfib`, and after a wild
jump. -/
def step (oracle : Nat → Bool) (s : State) : Option State :=
  match s.pc with
  | .start F =>
    if (s.foos F).input ≤ 2 then some ((s.setOutput F 1).ret F)
    else if oracle s.asked then some ({ s with asked := s.asked + 1 }.yield F)
    else some ({ s with asked := s.asked + 1 }.fork F)
  | .resume F => some (s.resume F)
  | .afterA F => some (s.afterA F)
  | .afterB F => some (s.sum F)
  | .secondChildDone F => some (s.finish F)
  | .stubRoutine => some s.stubRoutine
  | .suspend => some (s.goto (.scan s.seedHead))
  | .scan seed => some (s.scan seed)
  | .returned => none
  | .wild => none

/-- The state in which `startfib(n)` calls `fib`. -/
def initial (n : Int) : State where
  pc := .start .root
  foos _ := ⟨n, 0⟩
  frames _ := ⟨.startfib, .main, .main⟩
  stackOf R := if R = .main then [.root] else []
  stubs _ := ⟨.root, .root⟩
  stubBase := .main
  seeds _ := LazyYield.initSeed .secondChildDone (.fib .root)
  info _ := ⟨.root, false, 0, .main⟩
  seedHead := none
  readyQ := ⟨fun _ => ⟨.resume, .yield .root, none⟩, none, none, 0⟩
  asked := 0
  forks _ := 0
  frees _ := 0
  logs _ := ⟨0, 0, 0, []⟩

/-- The seeds that the next step reads or writes: the one of the frame, the one in the stub or the
one that is scanned, and those that `pushSeed` and `popSeed` link with each other. -/
def State.usedSeeds (s : State) : List FooPtr :=
  match s.pc with
  | .start _ | .resume _ => s.seedHead.toList
  | .afterA F | .secondChildDone F =>
    F :: ((s.seeds F).prev.toList ++ (s.seeds F).next.toList)
  | .stubRoutine =>
    match s.stubBase with
    | .stacklet x => [(s.stubs x).seed]
    | .main => []
  | .scan (some seed) => [seed]
  | _ => []

end Stacklets.SeedJoin

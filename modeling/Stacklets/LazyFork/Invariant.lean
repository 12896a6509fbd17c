import Stacklets.LazyFork.Phase
import Stacklets.Lib.FrameStacks

/-!
# `Stacklets.LazyFork.Invariant`: states that follow their phases

The invariant of the runtime. `φ` gives the phase of every frame, `ρ` the phase of
`startfib`, and `q` the contents of every seed queue. The invariant has six parts:

* `ControlOk`: every pthread is where the phases say, and nobody else is;
* `LocksOk`: a seed lock is held exactly by the pthread whose place requires it;
* `QueuesOk`: the pointers of each seed queue spell `q`, and a seed is linked exactly when the
  phase of its frame says so;
* `NodesOk`: the locals, the seed, the `Foo`s and the tally of each frame are those of its
  phase;
* `EdgesOk`: parent and child agree about how far the call of the child has come;
* `StacksOk`: a stacklet holds its live frames, each one right above the frame that called it.
-/

set_option autoImplicit false

namespace Stacklets.LazyFork

section
variable {P : Nat}

/-! ### Control -/

/-- A place in the code that the phases account for. -/
inductive Token
  | fib (F : FooPtr) (l : FibPC)
  | unlock (arg : FooPtr)
  | alloc (arg : FooPtr)
  | stub (S : FooPtr)
  | finish (S : FooPtr)
  | lock
  | returned
deriving DecidableEq

/-- The token of a pthread. A pthread in `suspend`, or about to switch to it, has none. -/
@[simp] def PC.token : PC P → Option Token
  | .fib _ .suspendStub => none
  | .fib F l => some (.fib F l)
  | .stackletFork _ _ arg _ => some (.unlock arg)
  | .newStacklet _ _ arg => some (.alloc arg)
  | .stubRoutine S => some (.stub S)
  | .finishStubRoutine S => some (.finish S)
  | .firstFork => some .lock
  | .returned => some .returned
  | _ => none

/-- The token of a pthread in a frame. -/
theorem PC.token_fib {F : FooPtr} {l : FibPC} (h : l ≠ .suspendStub) :
    (PC.fib F l : PC P).token = some (.fib F l) := by
  cases l <;> first | rfl | exact absurd rfl h

/-- A token of a pthread in a frame names its place. -/
theorem PC.eq_of_token_fib {F : FooPtr} {l : FibPC} {τ : Token}
    (h : (PC.fib F l : PC P).token = some τ) : τ = .fib F l := by
  by_cases hl : l = .suspendStub
  · subst hl
    cases h
  · rw [PC.token_fib hl] at h
    exact (Option.some.inj h).symm

theorem PC.token_fib_iff {F : FooPtr} {k m : FibPC} :
    (PC.fib F k : PC P).token = some (.fib F m) ↔ k ≠ .suspendStub ∧ m = k := by
  by_cases hk : k = .suspendStub
  · simp [hk]
  · simp [hk, eq_comm]

/-- The token names the place of a pthread in a frame. -/
theorem PC.eq_fib_of_token {F : FooPtr} {l : FibPC} {c : PC P}
    (h : c.token = some (.fib F l)) : c = .fib F l := by
  cases c with
  | fib G k =>
    obtain ⟨rfl, rfl⟩ := Token.fib.inj (PC.eq_of_token_fib h)
    rfl
  | _ => cases h

/-- The token names the place of a pthread in `stackletFork`. -/
theorem PC.eq_stackletFork_of_token {arg : FooPtr} {c : PC P} (h : c.token = some (.unlock arg)) :
    ∃ lab sp x, c = .stackletFork lab sp arg x := by
  cases c with
  | stackletFork lab sp arg' x =>
    obtain rfl : arg' = arg := by simpa using h
    exact ⟨lab, sp, x, rfl⟩
  | fib G k => cases PC.eq_of_token_fib h
  | _ => cases h

/-- The stacklet that the second strand has for the second child. -/
@[simp] def Second.fork : Second P → Option (Fork P)
  | .forked w => some w
  | _ => none

/-- The stacklet that the second child of the frame has. -/
def Phase.fork : Phase P → Option (Fork P)
  | .both _ y => y.fork
  | _ => none

/-- A frame whose second child has a stacklet. -/
theorem Phase.eq_forked {p : Phase P} {w : Fork P} (h : p.fork = some w) :
    ∃ x, p = .both x (.forked w) := by
  cases p with
  | both x y =>
    cases y with
    | forked w' =>
      obtain rfl : w' = w := Option.some.inj h
      exact ⟨x, rfl⟩
    | _ => cases h
  | _ => cases h

/-- The stacklet of `startfib`. -/
def RootPhase.fork : RootPhase P → Option (Fork P)
  | .forked w => some w
  | _ => none

theorem RootPhase.eq_forked {ρ : RootPhase P} {w : Fork P} (h : ρ.fork = some w) :
    ρ = .forked w := by
  cases ρ with
  | forked w' => rw [Option.some.inj h]
  | _ => cases h

/-- The stacklet forked for the function on `arg`. -/
def forkOf (φ : FooPtr → Phase P) (ρ : RootPhase P) : FooPtr → Option (Fork P)
  | .root => ρ.fork
  | .a _ => none
  | .b F => (φ F).fork

/-- The phases place pthread `t` at the token. -/
def HasToken (φ : FooPtr → Phase P) (ρ : RootPhase P) (t : Tid P) : Token → Prop
  | .fib F l => (φ F).At t l
  | .unlock arg => forkOf φ ρ arg = some (.unlock t)
  | .alloc arg => forkOf φ ρ arg = some (.alloc t)
  | .stub S => forkOf φ ρ S = some (.stub t)
  | .finish S => forkOf φ ρ S = some (.finish t)
  | .lock => ρ = .lock ∧ t = 0
  | .returned => ρ = .returned t

/-- The `parentPC` and `parentSP` that `stackletFork` gets for the function on `arg`. -/
@[simp] def parentOf : FooPtr → Stub
  | .root => ⟨.ff, .main⟩
  | .a F => ⟨.secondChildDone, .frame F⟩
  | .b F => ⟨.secondChildDone, .frame F⟩

/-- The `tid` that `stackletFork` gets for the function on `arg`. -/
@[simp] def ownerOf (s : State P) : FooPtr → Tid P
  | .root => 0
  | .a F => (s.frames F).ptid
  | .b F => (s.frames F).ptid

/-- The arguments in a place are right, and no assertion or jump has failed. -/
@[simp] def PC.Ok (s : State P) : PC P → Prop
  | .stackletFork lab sp arg x => parentOf arg = ⟨lab, sp⟩ ∧ x = ownerOf s arg
  | .newStacklet lab sp arg => parentOf arg = ⟨lab, sp⟩
  | .assertFailed => False
  | .wild => False
  | _ => True

/-- The pthreads are where the phases say. -/
structure ControlOk (s : State P) (φ : FooPtr → Phase P) (ρ : RootPhase P) : Prop where
  token : ∀ t τ, HasToken φ ρ t τ ↔ (s.pc t).token = some τ
  ok : ∀ t, (s.pc t).Ok s

/-! ### Locks -/

/-- The seed lock that a pthread has to hold at its place. -/
@[simp] def lockHeld (s : State P) (t : Tid P) : PC P → Option (Tid P)
  | .stackletFork _ _ _ x => some x
  | .fib _ .pushLink => some t
  | .fib _ .setReturnAdr => some t
  | .fib _ .pushUnlock => some t
  | .fib F .gotoReturnAdr => some (s.frames F).ptid
  | .fib F .firstChildDoneNormally => some (s.frames F).ptid
  | .fib F .unlockNormally => some (s.frames F).ptid
  | .fib F .firstChildDone => some (s.frames F).ptid
  | .fib F .secondChildSteal => some (s.frames F).ptid
  | .fib F .setSyncCounter => some (s.frames F).ptid
  | .fib F .stackletForkStub => some (s.frames F).ptid
  | .peekAgain k => some (k.victim t)
  | .peekUnlock k => some (k.victim t)
  | .takeSeed k _ => some (k.victim t)
  | _ => none

/-- The locks are held by the pthreads that have to hold them, and by nobody else. -/
def LocksOk (s : State P) : Prop :=
  ∀ x t, s.seedStackLocks x = some t ↔ lockHeld s t (s.pc t) = some x

/-! ### Queues -/

/-- The queues hold the seeds that the phases say. -/
structure QueuesOk (s : State P) (φ : FooPtr → Phase P) (q : Tid P → List FooPtr) : Prop where
  rep : ∀ x, (s.seedStacks x).Represents s.seeds (q x)
  mem : ∀ x F, F ∈ q x ↔ (φ F).linkedIn (s.frames F).ptid = some x
  taken : ∀ t k F, s.pc t = .takeSeed k F → F ∈ q (k.victim t)
  readyQ : s.readyQ = []

/-! ### Nodes -/

/-- The locals of a frame in a phase. -/
@[simp] def Phase.FrameOk (f : Frame P) : Phase P → Prop
  | .pre t .pushUnlock => f.firstChildReturnAdr = some .firstChildDoneNormally ∧ f.ptid = t
  | .pre _ _ => f.firstChildReturnAdr = none
  | .both x y => f.firstChildReturnAdr = some y.returnAdr ∧
      (y.Counted → f.syncCounter = 2 - (x.decrements + y.decrements : Nat))
  | _ => True

/-- The seed of the frame `F` in a phase. -/
def Phase.SeedOk (F : FooPtr) (x : Seed FooPtr Label StackPtr) (p : Phase P) : Prop :=
  (∀ t l, p = .pre t l → l = .pushLock ∨ l = .pushLink →
    x = initSeed .secondChildSteal (.frame F)) ∧
  (∀ i j, p.linkedIn i = some j → x.data = (.secondChildSteal, .frame F, true)) ∧
  (p.Freed → x.live = false)

/-- The memory of the frame `F` is that of its phase. -/
structure NodeOk (n : Int) (s : State P) (F : FooPtr) (p : Phase P) : Prop where
  valid : p.Valid
  inner : p.Inner → 2 < inputOf n F
  leaf : p.Leaf → inputOf n F ≤ 2
  /-- The caller has stored the argument; `startfib` does so before the first step. -/
  input : (p = .idle → F = .root) → (s.foos F).input = inputOf n F
  children : p.Inner → (s.foos (.a F)).input = inputOf n (.a F) ∧
    (s.foos (.b F)).input = inputOf n (.b F)
  output : p.Written → (s.foos F).output = BitVec.ofNat 32 (fibValue (inputOf n F))
  tally : s.tally F = p.tally
  frame : p.FrameOk (s.frames F)
  seed : p.SeedOk F (s.seeds F)

/-! ### Edges -/

/-- The status of the call on a `Foo`, as its caller sees it. -/
@[simp] def statusIn (φ : FooPtr → Phase P) (ρ : RootPhase P) : FooPtr → Status
  | .root => ρ.status
  | .a F => (φ F).statusA
  | .b F => (φ F).statusB

/-- The return address of a frame, as its caller set it. -/
@[simp] def returnAdrOf (φ : FooPtr → Phase P) : FooPtr → ReturnAdr
  | .root => .stubRoutine .root
  | .a F => .afterA F
  | .b F => if φ F = .inB then .afterB F else .stubRoutine (.b F)

/-- The stacklet of a frame: that of its caller, or its own if it was forked. -/
@[simp] def homeOf (s : State P) (φ : FooPtr → Phase P) : FooPtr → FooPtr
  | .root => .root
  | .a F => (s.frames F).home
  | .b F => if φ F = .inB then (s.frames F).home else .b F

/-- A frame and its caller agree. -/
structure EdgesOk (s : State P) (φ : FooPtr → Phase P) (ρ : RootPhase P) : Prop where
  status : ∀ F, (φ F).status = statusIn φ ρ F
  link : ∀ F, (φ F).status = .active →
    (s.frames F).returnAdr = returnAdrOf φ F ∧ (s.frames F).home = homeOf s φ F
  stub : ∀ S w, forkOf φ ρ S = some w → w.status ≠ .idle → s.stubs S = parentOf S

/-! ### Stacks -/

/-- The frame `x` lies right above the frame `y`, which called it. -/
def Above (φ : FooPtr → Phase P) (x y : FooPtr) : Prop :=
  (x = .a y ∧ (φ y).RunsA) ∨ (x = .b y ∧ φ y = .inB)

/-- The stacklets hold the live frames. -/
def StacksOk (s : State P) (φ : FooPtr → Phase P) : Prop :=
  Lib.FrameStacks s.stacklets (Above φ) (fun F => (φ F).status = .active) fun F =>
    (s.frames F).home

/-- The invariant of a run of `startfib(n)`. -/
structure Follows (n : Int) (s : State P) (φ : FooPtr → Phase P) (ρ : RootPhase P)
    (q : Tid P → List FooPtr) : Prop where
  control : ControlOk s φ ρ
  locks : LocksOk s
  queues : QueuesOk s φ q
  nodes : ∀ F, NodeOk n s F (φ F)
  edges : EdgesOk s φ ρ
  stacklets : StacksOk s φ

/-- Some phases explain the state. -/
def Inv (n : Int) (s : State P) : Prop := ∃ φ ρ q, Follows n s φ ρ q

/-! ### The initial state -/

/-- The invariant holds at the start: every frame is idle and every queue is empty. -/
theorem inv_initial (P : Nat) (n : Int) : Inv n (initial P n) := by
  refine ⟨fun _ => .idle, .lock, fun _ => [], ?_⟩
  have hpc : ∀ t : Tid P, (initial P n).pc t = if t = 0 then .firstFork else .peek .own :=
    fun t => rfl
  constructor
  · constructor
    · intro t τ
      rw [hpc]
      cases τ with
      | lock | returned => by_cases h : t = 0 <;> simp [HasToken, PC.token, h]
      | unlock arg | alloc arg | stub arg | finish arg =>
        cases arg <;> by_cases h : t = 0 <;>
          simp [HasToken, PC.token, forkOf, RootPhase.fork, Phase.fork, h]
      | fib F l => by_cases h : t = 0 <;> simp [HasToken, PC.token, Phase.At, h]
    · intro t
      rw [hpc]
      by_cases h : t = 0 <;> simp [PC.Ok, h]
  · intro x t
    rw [hpc]
    by_cases h : t = 0 <;> simp [initial, lockHeld, h]
  · exact
      { rep := fun x => represents_empty _
        mem := by simp [Phase.linkedIn]
        taken := by
          intro t k F h
          rw [hpc] at h
          by_cases h0 : t = 0 <;> simp [h0] at h
        readyQ := rfl }
  · intro F
    constructor <;> simp +contextual [Phase.SeedOk, initial]
  · constructor
    · intro F
      cases F <;> simp
    · simp
    · intro S w
      cases S <;> simp [forkOf, RootPhase.fork, Phase.fork]
  · constructor <;> simp [initial, Phase.status]

end

end Stacklets.LazyFork

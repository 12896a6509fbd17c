import Mathlib.Data.Nat.Fib.Basic
import Stacklets.LazyFork.Runtime

/-!
# `Stacklets.LazyFork.Phase`: the life of a frame

A frame of `fib` lives through a small number of phases, whichever pthreads run it. This
module names them. `Phase` is the abstract state of one frame: who is in its code, which of
its children run, and whether its seed is still in a queue. A run of the runtime is then a
run of a tree of phases, and every fact about a frame (its locals, its seed, its tally) is a
function of its phase. `Stacklets.LazyFork.Invariant` ties phases to states.

The second half of the life of a frame that pushed its seed has two strands. `First` is the
one that runs the first child, `Second` the one that a thief starts for the second child.
-/

set_option autoImplicit false

namespace Stacklets.LazyFork

section
variable {P : Nat}

/-- The strand that runs `fib(&a)` and comes back. -/
inductive First (P : Nat)
  /-- Pthread `t` is in the frame at `l`. -/
  | code (t : Tid P) (l : FibPC)
  /-- The first child runs. -/
  | running
  /-- Suspended behind `FirstChildDone`. -/
  | done
deriving DecidableEq

/-- A stacklet on its way from `stackletFork` to `finishStubRoutine`. -/
inductive Fork (P : Nat)
  /-- Pthread `t` is about to unlock in `stackletFork`. -/
  | unlock (t : Tid P)
  /-- Pthread `t` is about to start the function on a new stacklet. -/
  | alloc (t : Tid P)
  /-- The function runs. -/
  | running
  /-- The function has returned to `stubRoutine` on pthread `t`. -/
  | stub (t : Tid P)
  /-- Pthread `t` is in `finishStubRoutine`. -/
  | finish (t : Tid P)
deriving DecidableEq

/-- The strand of the second child of a frame that pushed its seed. -/
inductive Second (P : Nat)
  /-- The seed is in the queue. -/
  | seed
  /-- The thief `t` is in the frame at `l`. -/
  | steal (t : Tid P) (l : FibPC)
  /-- The second child has a stacklet. -/
  | forked (w : Fork P)
  /-- Pthread `t` is at `SecondChildDone`. -/
  | dec (t : Tid P)
  /-- Suspended behind `SecondChildDone`. -/
  | done
deriving DecidableEq

/-- How a frame came to its return. -/
inductive How
  /-- `f->input <= 2`. -/
  | leaf
  /-- Through `FirstChildDoneNormally`. -/
  | normal
  /-- Through `AllReturned`. -/
  | joined
deriving DecidableEq

/-- The phase of a frame. -/
inductive Phase (P : Nat)
  /-- Not called. -/
  | idle
  /-- Pthread `t` is at `l`, before the seed is up for stealing (or on the leaf path). -/
  | pre (t : Tid P) (l : FibPC)
  /-- The seed has been pushed and the two strands are on their way. -/
  | both (x : First P) (y : Second P)
  /-- Pthread `t` is at `l` behind `FirstChildDoneNormally`. -/
  | normal (t : Tid P) (l : FibPC)
  /-- The second child runs on the same stacklet. -/
  | inB
  /-- Pthread `t` is at `l` behind `AllReturned`. -/
  | joined (t : Tid P) (l : FibPC)
  /-- Returned. -/
  | finished (h : How)
deriving DecidableEq

/-- The phase of `startfib`. -/
inductive RootPhase (P : Nat)
  /-- The main pthread is about to lock in `firstFork`. -/
  | lock
  /-- The first stacklet. -/
  | forked (w : Fork P)
  /-- `firstFork` has returned on pthread `t`. -/
  | returned (t : Tid P)
deriving DecidableEq

/-- How far a call has come. -/
inductive Status
  | idle
  | active
  | done
deriving DecidableEq

/-! ### Who is where -/

/-- Pthread `u` is at `m` in the first strand. -/
@[simp] def First.At (u : Tid P) (m : FibPC) : First P → Prop
  | .code t l => u = t ∧ m = l
  | _ => False

/-- Pthread `u` is at `m` in the second strand. -/
@[simp] def Second.At (u : Tid P) (m : FibPC) : Second P → Prop
  | .steal t l => u = t ∧ m = l
  | .dec t => u = t ∧ m = .secondChildDone
  | _ => False

/-- Pthread `u` is in the frame at `m`. A pthread that has only the stack switch of
`suspendStub` left is not recorded. -/
@[simp] def Phase.At (u : Tid P) (m : FibPC) : Phase P → Prop
  | .pre t l => u = t ∧ m = l
  | .both x y => x.At u m ∨ y.At u m
  | .normal t l => u = t ∧ m = l
  | .joined t l => u = t ∧ m = l
  | _ => False

/-! ### Which phases there are -/

/-- The thief has released the seed lock. -/
@[simp] def Second.Past : Second P → Prop
  | .forked (.unlock _) => False
  | .forked _ => True
  | .dec _ => True
  | .done => True
  | _ => False

/-- The first strand can be at `x` while the second is at `y`. Behind `seedStackLock(ptid)` it
holds the lock that a thief holds from `peekSeed` to `stackletFork`, so it is there only
before a steal or after the thief's unlock. -/
@[simp] def First.Valid (y : Second P) : First P → Prop
  | .running => True
  | .code _ .callA => True
  | .code _ .lockPtid => True
  | .code _ .gotoReturnAdr => y = .seed ∨ y.Past
  | .code _ .firstChildDoneNormally => y = .seed
  | .code _ .firstChildDone => y.Past
  | .code _ .firstDecrement => y.Past
  | .code _ _ => False
  | .done => y.Past ∧ y ≠ .done

/-- The places of a thief in the frame. -/
@[simp] def Second.Valid : Second P → Prop
  | .steal _ .secondChildSteal => True
  | .steal _ .setSyncCounter => True
  | .steal _ .stackletForkStub => True
  | .steal _ _ => False
  | _ => True

/-- The phases that occur. -/
@[simp] def Phase.Valid : Phase P → Prop
  | .pre _ l => l ∈ [FibPC.start, .leaf, .initSeed, .pushLock, .pushLink, .setReturnAdr,
      .pushUnlock, .ret]
  | .both x y => x.Valid y ∧ y.Valid
  | .normal _ l => l ∈ [FibPC.unlockNormally, .callB, .sum, .ret]
  | .joined _ l => l ∈ [FibPC.allReturned, .ret]
  | _ => True

/-! ### What a phase says about the frame and its children -/

/-- The status of the call of the frame itself. -/
@[simp] def Phase.status : Phase P → Status
  | .idle => .idle
  | .finished _ => .done
  | _ => .active

/-- A frame that has not been called is idle. -/
theorem Phase.eq_idle {p : Phase P} (h : p.status = .idle) : p = .idle := by
  cases p <;> simp_all

/-- A frame whose call is done has returned. -/
theorem Phase.eq_finished {p : Phase P} (h : p.status = .done) : ∃ how, p = .finished how := by
  cases p <;> simp_all

/-- The status of `fib(&a)` in the first strand. -/
@[simp] def First.status : First P → Status
  | .code _ .callA => .idle
  | .running => .active
  | _ => .done

/-- The status of `fib(&a)`. -/
@[simp] def Phase.statusA : Phase P → Status
  | .idle => .idle
  | .pre _ _ => .idle
  | .both x _ => x.status
  | .finished .leaf => .idle
  | _ => .done

/-- The status of the function of a stacklet. -/
@[simp] def Fork.status : Fork P → Status
  | .unlock _ => .idle
  | .alloc _ => .idle
  | .running => .active
  | .stub _ => .done
  | .finish _ => .done

/-- The status of `fib(&b)` in the second strand. -/
@[simp] def Second.status : Second P → Status
  | .seed => .idle
  | .steal _ _ => .idle
  | .forked w => w.status
  | _ => .done

/-- The status of `fib(&b)`. -/
@[simp] def Phase.statusB : Phase P → Status
  | .idle => .idle
  | .pre _ _ => .idle
  | .both _ y => y.status
  | .normal _ .unlockNormally => .idle
  | .normal _ .callB => .idle
  | .inB => .active
  | .finished .leaf => .idle
  | _ => .done

/-- The status of the first `fib`. -/
@[simp] def RootPhase.status : RootPhase P → Status
  | .lock => .idle
  | .forked w => w.status
  | .returned _ => .done

/-- The first child lies right above the frame. -/
@[simp] def Phase.RunsA : Phase P → Prop
  | .both x _ => x = .running
  | _ => False

/-- The frame has children: `f->input > 2`. -/
@[simp] def Phase.Inner : Phase P → Prop
  | .idle => False
  | .pre _ .start => False
  | .pre _ .leaf => False
  | .pre _ .ret => False
  | .finished .leaf => False
  | _ => True

/-- The frame is on the leaf path: `f->input <= 2`. -/
@[simp] def Phase.Leaf : Phase P → Prop
  | .pre _ .leaf => True
  | .pre _ .ret => True
  | .finished .leaf => True
  | _ => False

/-- `f->output` has been written. -/
@[simp] def Phase.Written : Phase P → Prop
  | .pre _ .ret => True
  | .normal _ .ret => True
  | .joined _ .ret => True
  | .finished _ => True
  | _ => False

/-- What `firstChildReturnAdr` holds while the strands are on their way. -/
@[simp] def Second.returnAdr : Second P → Label
  | .seed => .firstChildDoneNormally
  | .steal _ .secondChildSteal => .firstChildDoneNormally
  | _ => .firstChildDone

/-- `syncCounter` has been set. -/
@[simp] def Second.Counted : Second P → Prop
  | .seed => False
  | .steal _ .secondChildSteal => False
  | .steal _ .setSyncCounter => False
  | _ => True

/-- Decrements by the first strand. -/
@[simp] def First.decrements : First P → Nat
  | .done => 1
  | _ => 0

/-- Decrements by the second strand. -/
@[simp] def Second.decrements : Second P → Nat
  | .done => 1
  | _ => 0

theorem First.decrements_eq_zero {x : First P} (h : x ≠ .done) : x.decrements = 0 := by
  cases x <;> first | rfl | exact absurd rfl h

theorem Second.decrements_eq_zero {y : Second P} (h : y ≠ .done) : y.decrements = 0 := by
  cases y <;> first | rfl | exact absurd rfl h

/-- Behind its unlock the thief has set `syncCounter`. -/
theorem Second.Past.counted {y : Second P} (h : y.Past) : y.Counted := by
  cases y <;> trivial

/-- The second decrement may come beside whatever the first strand does before its own. -/
theorem First.Valid.done {x : First P} {t : Tid P} (h : x.Valid (.dec t)) (hx : x ≠ .done) :
    x.Valid .done := by
  cases x with
  | code u m => cases m <;> simp_all
  | running => trivial
  | done => exact absurd rfl hx

/-- Passages of `seedStackLock(ptid)` by the first strand. -/
@[simp] def First.passes : First P → Nat
  | .running => 0
  | .code _ .callA => 0
  | .code _ .lockPtid => 0
  | _ => 1

/-- Steals of the seed. -/
@[simp] def Second.steals : Second P → Nat
  | .seed => 0
  | _ => 1

/-- The queue that the seed is linked in while the strands are on their way. -/
@[simp] def Second.linkedIn (ptid : Tid P) : Second P → Option (Tid P)
  | .seed => some ptid
  | _ => none

theorem Second.eq_seed_of_linkedIn {y : Second P} {i j : Tid P} (h : y.linkedIn i = some j) :
    y = .seed ∧ i = j := by
  cases y with
  | seed => exact ⟨rfl, Option.some.inj h⟩
  | _ => cases h

theorem Second.linkedIn_eq_none {y : Second P} (h : y ≠ .seed) (i : Tid P) :
    y.linkedIn i = none := by
  cases y with
  | seed => exact absurd rfl h
  | _ => rfl

/-- Behind its unlock the thief has taken the seed and changed the return address. -/
theorem Second.Past.taken {y : Second P} (h : y.Past) (i : Tid P) :
    y.linkedIn i = none ∧ y.returnAdr = .firstChildDone := by
  cases y with
  | seed | steal => cases h
  | _ => exact ⟨rfl, rfl⟩

/-- The places of the first strand while the seed is there. -/
theorem First.Valid.of_seed {t : Tid P} {l : FibPC} (h : First.Valid .seed (.code t l)) :
    l = .callA ∨ l = .lockPtid ∨ l = .gotoReturnAdr ∨ l = .firstChildDoneNormally := by
  cases l <;> simp at h ⊢

/-- The queue that the seed is linked in, for a frame with this `ptid`. -/
@[simp] def Phase.linkedIn (ptid : Tid P) : Phase P → Option (Tid P)
  | .pre t .setReturnAdr => some t
  | .pre t .pushUnlock => some t
  | .both _ y => y.linkedIn ptid
  | _ => none

/-- The seed has been pushed, and released since. -/
@[simp] def Phase.Freed : Phase P → Prop
  | .both _ y => y ≠ .seed
  | .normal _ _ => True
  | .inB => True
  | .joined _ _ => True
  | .finished .normal => True
  | .finished .joined => True
  | _ => False

/-- `1` if the pthread is at the `return`, behind the store to `f->output`. -/
@[simp] def atRet (l : FibPC) : Nat := if l = .ret then 1 else 0

/-- What has happened to the frame. -/
@[simp] def Phase.tally : Phase P → Tally
  | .idle => {}
  | .pre _ l =>
    { calls := 1, writes := atRet l,
      pushes := if l = .setReturnAdr ∨ l = .pushUnlock then 1 else 0 }
  | .both x y =>
    { calls := 1, pushes := 1, passes := x.passes, thiefReleases := y.steals,
      decrements := x.decrements + y.decrements }
  | .normal _ l => { calls := 1, pushes := 1, passes := 1, parentReleases := 1, writes := atRet l }
  | .inB => { calls := 1, pushes := 1, passes := 1, parentReleases := 1 }
  | .joined _ l =>
    { calls := 1, pushes := 1, passes := 1, thiefReleases := 1, decrements := 2, joins := 1,
      writes := atRet l }
  | .finished .leaf => { calls := 1, writes := 1, returns := 1 }
  | .finished .normal =>
    { calls := 1, pushes := 1, passes := 1, parentReleases := 1, writes := 1, returns := 1 }
  | .finished .joined =>
    { calls := 1, pushes := 1, passes := 1, thiefReleases := 1, decrements := 2, joins := 1,
      writes := 1, returns := 1 }

/-! ### The value that a frame computes -/

/-- The argument of the call: `f->input` of the frame in a run of `startfib(n)`. -/
@[simp] def inputOf (n : Int) : FooPtr → Int
  | .root => n
  | .a F => inputOf n F - 1
  | .b F => inputOf n F - 2

/-- How deep a node lies in the call tree. -/
def FooPtr.depth : FooPtr → Nat
  | .root => 0
  | .a F => F.depth + 1
  | .b F => F.depth + 1

/-- The sequence that `fib` computes. -/
def fibValue (k : Int) : Nat :=
  if k ≤ 2 then 1 else fibValue (k - 1) + fibValue (k - 2)
termination_by k.toNat

/-- The nodes of the call tree of `fib` on `n`. -/
inductive InTree (n : Int) : FooPtr → Prop
  | root : InTree n .root
  | a {F : FooPtr} : InTree n F → 2 < inputOf n F → InTree n (.a F)
  | b {F : FooPtr} : InTree n F → 2 < inputOf n F → InTree n (.b F)

/-- The value of a leaf. -/
theorem fibValue_leaf {k : Int} (h : k ≤ 2) : fibValue k = 1 := by
  rw [fibValue, if_pos h]

/-- The value of an inner node is the sum of the values of its children. -/
theorem fibValue_inner {k : Int} (h : 2 < k) :
    BitVec.ofNat 32 (fibValue k)
      = BitVec.ofNat 32 (fibValue (k - 1)) + BitVec.ofNat 32 (fibValue (k - 2)) := by
  rw [fibValue, if_neg (by omega), BitVec.ofNat_add]

/-- From `1` on the sequence is that of the Fibonacci numbers, and below it goes on with `1`. -/
theorem fibValue_eq_fib (k : Int) : fibValue k = Nat.fib (max k 1).toNat := by
  fun_induction fibValue k with
  | case1 k h =>
    have hk : (max k 1).toNat = 1 ∨ (max k 1).toNat = 2 := by omega
    rcases hk with hk | hk <;> rw [hk] <;> rfl
  | case2 k h ih₁ ih₂ =>
    have hk : (max k 1).toNat = (max (k - 2) 1).toNat + 2 := by omega
    have hk₁ : (max (k - 1) 1).toNat = (max (k - 2) 1).toNat + 1 := by omega
    rw [ih₁, ih₂, hk, hk₁, Nat.fib_add_two, Nat.add_comm]

/-- A number is what an `int` shows of it exactly if it is less than `2^31`. -/
theorem toInt_ofNat_eq_iff {k : Nat} : (BitVec.ofNat 32 k).toInt = k ↔ k < 2 ^ 31 := by
  constructor
  · intro h
    have hlt : 2 * (BitVec.ofNat 32 k).toInt < 2 ^ 32 := BitVec.two_mul_toInt_lt
    omega
  · intro h
    rw [BitVec.toInt_eq_toNat_cond, BitVec.toNat_ofNat, Nat.mod_eq_of_lt (by omega),
      if_pos (by omega)]

/-- Up to `46` the value fits into an `int`. -/
theorem fibValue_lt {k : Int} (h : k ≤ 46) : fibValue k < 2 ^ 31 := by
  rw [fibValue_eq_fib]
  calc Nat.fib (max k 1).toNat ≤ Nat.fib 46 := Nat.fib_mono (by omega)
    _ < 2 ^ 31 := by decide +kernel

end

end Stacklets.LazyFork

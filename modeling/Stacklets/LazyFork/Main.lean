import Mathlib.Data.BitVec
import Stacklets.LazyFork.Termination

/-!
# `Stacklets.LazyFork.Main`: what `main` reports

`main` of `myfib.c` compares the result with a table and prints the counters of `tracker.c`. The
Makefile builds with `-DTRACKER`, so every pthread counts what it does in its own `TrackingInfo`.
`trackStep` is a step of the runtime together with these counters, and `getFinalTrackingInfo` adds
them up. The runtime starts with the pthreads in `suspend`, whose first statement counts the call.
Here that statement is a step of its own, which a pthread takes at its first turn.

The counters of `tracker.h` are of type `int`. The proofs count in natural numbers, and
`Tracked.run_natCast` says that the counters of the source are these numbers in the arithmetic of
an `int`. So the number of calls that `main` prints is right exactly for `n` up to 44, though it
accepts `n` up to 46.

The counters are tied to the frames by four equations (`Item`). Each says that what the pthreads
have counted, and what they are just about to count, is what has happened to the frames of the
call tree. A step changes the counters of one pthread and the tally of one frame, so each equation
comes down to the balance of one step (`Follows.balance`). When `firstFork` returns every frame has
finished, and the totals follow from the way it came to its return.
-/

set_option autoImplicit false

namespace Stacklets.LazyFork

open Function (update update_self update_of_ne update_eq_self comp_update)
open Lib

/-- `TrackingInfo` of `tracker.h`, with counters of type `α`: `BitVec 32` in the program, and `Nat`
in the proofs. -/
@[ext] structure TrackingInfo (α : Type*) where
  fib : α
  fork : α
  firstReturn : α
  secondReturn : α
  suspend : α
deriving DecidableEq

/-- A state of the runtime with the counters of the pthreads. -/
@[ext] structure Tracked (P : Nat) (α : Type*) where
  state : State P
  trackingInfo : Tid P → TrackingInfo α
  /-- The pthread is past the first statement of its first call of `suspend`. The main pthread
  begins elsewhere. -/
  entered : Tid P → Bool

section
variable {P : Nat} {n : Int} {s s' : State P} {φ : FooPtr → Phase P} {ρ : RootPhase P}
  {q : Tid P → List FooPtr} {t u : Tid P} {F G : FooPtr} {l : FibPC} {c : PC P} {α : Type*}

section
variable [One α] [Add α]

/-- The first statement of `suspend`. -/
def TrackingInfo.enterSuspend (i : TrackingInfo α) : TrackingInfo α :=
  { i with suspend := i.suspend + 1 }

/-- What pthread `t` counts in its step from `s` to `s'`. -/
def track (s s' : State P) (t : Tid P) (i : TrackingInfo α) : TrackingInfo α :=
  match s.pc t with
  | .fib _ .start => { i with fib := i.fib + 1 }
  | .fib _ .stackletForkStub => { i with fork := i.fork + 1 }
  -- behind the decrement, unless the pthread suspends there
  | .fib F .firstDecrement =>
    if s'.pc t = .fib F .allReturned then { i with firstReturn := i.firstReturn + 1 } else i
  | .fib F .secondChildDone =>
    if s'.pc t = .fib F .allReturned then { i with secondReturn := i.secondReturn + 1 } else i
  -- on the other side of `suspendStub`, at the head of `suspend`
  | .fib _ .suspendStub => i.enterSuspend
  | _ => i

end

section
variable [Ring α]

end

/-! ### Four equations -/

/-- What is counted: calls of `fib`, forks, joins, and pthreads that have left a frame through
`syncCounter`. -/
inductive Item
  | fib
  | fork
  | join
  | leave

/-- What a pthread has counted. -/
@[simp] def Item.info : Item → TrackingInfo Nat → Nat
  | .fib, i => i.fib
  | .fork, i => i.fork
  | .join, i => i.firstReturn + i.secondReturn
  | .leave, i => i.suspend + (i.firstReturn + i.secondReturn)

/-- What a pthread is about to count. -/
@[simp] def Item.place : Item → PC P → Nat
  | .fib, .fib _ .start => 1
  | .fork, .fib _ .secondChildSteal => 1
  | .fork, .fib _ .setSyncCounter => 1
  | .fork, .fib _ .stackletForkStub => 1
  | .leave, .fib _ .suspendStub => 1
  | _, _ => 0

/-- What has happened to a frame. -/
@[simp] def Item.tally : Item → Tally → Nat
  | .fib, k => k.calls
  | .fork, k => k.thiefReleases
  | .join, k => k.joins
  | .leave, k => k.decrements

/-- A step of `t` to `s'` changes its own place, the tally of one frame and its own counters, and
the changes cancel out. -/
def Balance (t : Tid P) (s s' : State P) (i i' : TrackingInfo Nat) : Prop :=
  ∃ F c k, s'.pc = update s.pc t c ∧ s'.tally = update s.tally F k ∧
    ∀ x : Item, x.info i' + x.place c + x.tally (s.tally F) =
      x.info i + x.place (s.pc t) + x.tally k

variable {i i' : TrackingInfo Nat}

/-- A step without an event. -/
theorem Balance.quiet (hpc : s'.pc = update s.pc t c) (htally : s'.tally = s.tally)
    (hx : ∀ x : Item, x.info i' + x.place c = x.info i + x.place (s.pc t)) :
    Balance t s s' i i' :=
  ⟨.root, c, s.tally .root, hpc, by rw [htally, update_eq_self], fun x => by rw [hx]⟩

/-- A step that takes a lock. -/
theorem Balance.seedStackLock {x : Tid P} (hc : ∀ y : Item, y.place (s.pc t) = y.place c)
    (hzero : ∀ y : Item, y.place c = 0) (hs : s.seedStackLock t x c = some s') :
    Balance t s s' i i := by
  obtain ⟨r, -, rfl⟩ := Option.map_eq_some_iff.mp hs
  cases r with
  | done m => exact .quiet (c := c) rfl rfl fun y => by rw [hc]
  | assertFailed =>
    refine .quiet (c := .assertFailed) rfl rfl fun y => ?_
    rw [hc, hzero]
    cases y <;> rfl

/-- A step that releases a lock. -/
theorem Balance.seedStackUnlock (x : Tid P) (hc : ∀ y : Item, y.place (s.pc t) = y.place c)
    (hzero : ∀ y : Item, y.place c = 0) : Balance t s (s.seedStackUnlock t x c) i i := by
  unfold State.seedStackUnlock
  cases mySpinUnlock (s.seedStackLocks x) t with
  | done m => exact .quiet (c := c) rfl rfl fun y => by rw [hc]
  | assertFailed =>
    refine .quiet (c := .assertFailed) rfl rfl fun y => ?_
    rw [hc, hzero]
    cases y <;> rfl

/-- The balance of a step in the code of `fib`. -/
theorem Follows.fibStep_balance (h : Follows n s φ ρ q) (hpc : s.pc t = .fib F l)
    (hs : fibStep s t F l = some s') (i : TrackingInfo Nat) :
    Balance t s s' i (track s s' t i) := by
  unfold track
  rw [hpc]
  have hplace : ∀ x : Item, x.place (s.pc t) = x.place (.fib F l : PC P) := fun x => by rw [hpc]
  cases l with
  | start =>
    -- the call of the frame, which was owed, is counted
    simp only [fibStep] at hs
    split at hs <;> cases hs
    · exact .quiet (c := .fib F .leaf) rfl rfl fun x => by rw [hplace]; cases x <;> rfl
    · exact .quiet (c := .fib F .initSeed) rfl rfl fun x => by rw [hplace]; cases x <;> rfl
  | initSeed =>
    cases hs
    exact .quiet (c := .fib F .pushLock) rfl rfl fun x => by rw [hplace]; cases x <;> rfl
  | pushLock =>
    exact .seedStackLock (fun x => by rw [hplace]; cases x <;> rfl)
      (fun x => by cases x <;> rfl) hs
  | setReturnAdr =>
    cases hs
    exact .quiet (c := .fib F .pushUnlock) rfl rfl fun x => by rw [hplace]; cases x <;> rfl
  | pushUnlock | unlockNormally | firstChildDone =>
    cases hs
    exact .seedStackUnlock _ (fun x => by rw [hplace]; cases x <;> rfl)
      (fun x => by cases x <;> rfl)
  | gotoReturnAdr =>
    rcases h.firstChildReturnAdr hpc with hadr | hadr <;> rw [fibStep, hadr] at hs <;> cases hs
    · exact .quiet (c := .fib F .firstChildDoneNormally) rfl rfl fun x => by
        rw [hplace]
        cases x <;> rfl
    · exact .quiet (c := .fib F .firstChildDone) rfl rfl fun x => by rw [hplace]; cases x <;> rfl
  | secondChildSteal =>
    cases hs
    exact .quiet (c := .fib F .setSyncCounter) rfl rfl fun x => by rw [hplace]; cases x <;> rfl
  | setSyncCounter =>
    cases hs
    exact .quiet (c := .fib F .stackletForkStub) rfl rfl fun x => by rw [hplace]; cases x <;> rfl
  | stackletForkStub =>
    cases hs
    exact .quiet rfl rfl fun x => by rw [hplace]; cases x <;> rfl
  | suspendStub =>
    cases hs
    refine .quiet rfl rfl fun x => ?_
    rw [hplace]
    cases x with
    | leave =>
      show i.suspend + 1 + (i.firstReturn + i.secondReturn) + 0 =
        i.suspend + (i.firstReturn + i.secondReturn) + 1
      omega
    | _ => rfl
  | leaf | pushLink | sum | allReturned | firstChildDoneNormally =>
    cases hs
    exact ⟨F, _, _, rfl, rfl, fun x => by rw [hplace]; cases x <;> rfl⟩
  | callA =>
    -- the new frame is called, and owes its count until its first step
    cases hs
    refine ⟨.a F, _, _, rfl, rfl, fun x => ?_⟩
    rw [hplace]
    cases x with
    | fib => exact Nat.add_right_comm _ _ _
    | _ => rfl
  | callB =>
    cases hs
    refine ⟨.b F, _, _, rfl, rfl, fun x => ?_⟩
    rw [hplace]
    cases x with
    | fib => exact Nat.add_right_comm _ _ _
    | _ => rfl
  | lockPtid =>
    obtain ⟨r, -, rfl⟩ := Option.map_eq_some_iff.mp hs
    cases r <;> exact ⟨F, _, _, rfl, rfl, fun x => by rw [hplace]; cases x <;> rfl⟩
  | firstDecrement | secondChildDone =>
    cases hs
    simp only [State.decrement]
    split
    · -- not the last one: the pthread suspends
      simp only [State.goto, update_self, PC.fib.injEq, reduceCtorEq, and_false,
        if_false]
      refine ⟨F, _, _, rfl, rfl, fun x => ?_⟩
      rw [hplace]
      cases x with
      | leave => exact Nat.add_right_comm _ _ _
      | _ => rfl
    · -- the last one: the join is counted at once
      simp only [State.goto, update_self, if_true]
      refine ⟨F, _, _, rfl, by simp; rfl, fun x => ?_⟩
      rw [hplace]
      cases x with
      | join | leave =>
        simp only [Item.info, Item.place, Item.tally]
        omega
      | _ => rfl
  | ret =>
    cases hs
    refine ⟨F, _, _, rfl, rfl, fun x => ?_⟩
    rw [hplace]
    cases x <;> cases (s.frames F).returnAdr <;> rfl

/-- The seed that a thief takes leads to `SecondChildSteal` in its frame. -/
theorem Follows.jump_seed {k : Search} (h : Follows n s φ ρ q) (hpc : s.pc t = .takeSeed k F) :
    (jump (s.seeds F).sp (s.seeds F).adr : PC P) = .fib F .secondChildSteal := by
  obtain ⟨x, hp, -, -⟩ := h.taken hpc
  have hdata := (h.nodes F).seed.2.1 (s.frames F).ptid (s.frames F).ptid (by rw [hp]; rfl)
  simp only [Seed.data, Prod.mk.injEq] at hdata
  rw [hdata.1, hdata.2.1]
  rfl

/-- The search in `suspend` counts nothing. -/
theorem Item.place_next (x : Item) : (k : Search) → x.place (k.next : PC P) = 0
  | .own | .scan 0 | .scan 1 | .scan 2 => by cases x <;> rfl

/-- The balance of every step. -/
theorem Follows.balance (h : Follows n s φ ρ q) (hs : step s t = some s')
    (i : TrackingInfo Nat) : Balance t s s' i (track s s' t i) := by
  cases hpc : s.pc t with
  | fib F l => exact h.fibStep_balance hpc (by rw [← hs, step, hpc]) i
  | firstFork | peekLock k =>
    rw [step, hpc] at hs
    rw [track, hpc]
    exact .seedStackLock (fun x => by rw [hpc]; cases x <;> rfl) (fun x => by cases x <;> rfl) hs
  | stackletFork lab sp arg x =>
    rw [step, hpc] at hs
    cases hs
    rw [track, hpc]
    exact .seedStackUnlock x (fun x => by rw [hpc]; cases x <;> rfl)
      (fun x => by cases x <;> rfl)
  | newStacklet lab sp arg =>
    rw [step, hpc] at hs
    cases hs
    rw [track, hpc]
    refine ⟨arg, _, _, rfl, rfl, fun x => ?_⟩
    rw [hpc]
    cases x with
    | fib => exact Nat.add_right_comm _ _ _
    | _ => rfl
  | stubRoutine S =>
    rw [step, hpc] at hs
    cases hs
    rw [track, hpc]
    exact .quiet rfl rfl fun x => by rw [hpc]; cases x <;> rfl
  | finishStubRoutine S =>
    have hfork : forkOf φ ρ S = some (.finish t) :=
      (h.control.token t (.finish S)).mpr (by simp [hpc])
    have hstub := h.edges.stub S _ hfork (by simp)
    rw [step, hpc] at hs
    cases hs
    rw [track, hpc]
    refine .quiet rfl rfl fun x => ?_
    rw [hpc, hstub]
    cases x <;> cases S <;> rfl
  | peek k =>
    rw [step, hpc] at hs
    rw [track, hpc]
    dsimp only at hs
    split at hs <;> cases hs
    · exact .quiet rfl rfl fun x => by rw [hpc, x.place_next]; cases x <;> rfl
    · exact .quiet rfl rfl fun x => by rw [hpc]; cases x <;> rfl
  | peekAgain k =>
    rw [step, hpc] at hs
    rw [track, hpc]
    dsimp only at hs
    split at hs <;> cases hs <;> exact .quiet rfl rfl fun x => by rw [hpc]; cases x <;> rfl
  | peekUnlock k =>
    rw [step, hpc] at hs
    cases hs
    rw [track, hpc]
    exact .seedStackUnlock _ (fun x => by rw [hpc, x.place_next]; cases x <;> rfl)
      fun x => x.place_next k
  | takeSeed k seed =>
    -- from here to `stackletForkStub` the thief owes a fork
    have hjump := h.jump_seed hpc
    rw [step, hpc] at hs
    cases hs
    rw [track, hpc]
    refine ⟨seed, _, _, rfl, rfl, fun x => ?_⟩
    rw [hpc, hjump]
    cases x with
    | fork => exact Nat.add_right_comm _ _ _
    | _ => rfl
  | readyQ =>
    rw [step, hpc] at hs
    dsimp only at hs
    rw [h.queues.readyQ] at hs
    cases hs
    rw [track, hpc]
    exact .quiet rfl rfl fun x => by rw [hpc]; cases x <;> rfl
  | returned | assertFailed | wild => simp [step, hpc] at hs

/-! ### The equations over runs -/

/-- What a pthread has still to count of its first call of `suspend`. -/
@[simp] def Item.owed : Item → Bool → Nat
  | .leave, entered => if entered then 0 else 1
  | _, _ => 0

/-- The calls of `suspend` that the pthreads were created for. -/
def Item.start (P : Nat) : Item → Nat
  | .leave => P
  | _ => 0

/-- What the pthreads have counted and are about to count is what has happened to the frames. -/
structure TrackInv (n : Int) (x : Tracked P Nat) : Prop where
  inv : Inv n x.state
  counted : ∀ y : Item, total (fun _ i => y.info i) x.trackingInfo +
    total (fun _ c => y.place c) x.state.pc + total (fun _ e => y.owed e) x.entered =
      y.start P + ∑ F ∈ callTree n, y.tally (x.state.tally F)

/-- The sum over the call tree when the tally of one of its frames changes. -/
theorem sum_callTree_update {f : FooPtr → Tally} {k : Tally} (y : Item) (hF : F ∈ callTree n) :
    ∑ G ∈ callTree n, y.tally (update f F k G) + y.tally (f F) =
      ∑ G ∈ callTree n, y.tally (f G) + y.tally k := by
  have hrest : ∑ G ∈ (callTree n).erase F, y.tally (update f F k G) =
      ∑ G ∈ (callTree n).erase F, y.tally (f G) :=
    Finset.sum_congr rfl fun G hG => by rw [update_of_ne (Finset.ne_of_mem_erase hG)]
  rw [← Finset.add_sum_erase _ _ hF, hrest, update_self,
    ← Finset.add_sum_erase _ (fun G => y.tally (f G)) hF]
  omega

/-- Nothing happens outside of the call tree. -/
theorem Follows.tally_of_notMem (h : Follows n s φ ρ q) (hF : F ∉ callTree n) :
    s.tally F = {} := by
  have hidle : φ F = .idle := by
    by_contra hne
    exact hF (mem_callTree.mpr (h.inTree hne))
  rw [(h.nodes F).tally, hidle]
  rfl

/-- A step of the runtime keeps the equations. -/
theorem TrackInv.step {x : Tracked P Nat} (hx : TrackInv n x) (hs : step x.state t = some s') :
    TrackInv n { x with
      state := s'
      trackingInfo := update x.trackingInfo t
        (track x.state s' t (x.trackingInfo t)) } := by
  have hinv := inv_step hx.inv hs
  obtain ⟨φ', ρ', q', h'⟩ := hinv
  obtain ⟨φ, ρ, q, h⟩ := hx.inv
  obtain ⟨F, c, k, hpc, htally, hbal⟩ := h.balance hs (x.trackingInfo t)
  refine ⟨⟨φ', ρ', q', h'⟩, fun y => ?_⟩
  have hcounted := hx.counted y
  have hbal := hbal y
  -- the three sums change by one summand each
  have hinfo := total_update (w := fun _ i => y.info i) (c := x.trackingInfo) (t := t)
    (a := track x.state s' t (x.trackingInfo t))
  have hplace := total_update (w := fun _ (c : PC P) => y.place c) (c := x.state.pc) (t := t)
    (a := c)
  by_cases hF : F ∈ callTree n
  · have hsum := sum_callTree_update (f := x.state.tally) (k := k) y hF
    simp only [hpc, htally]
    omega
  · -- outside of the call tree there is no tally, before the step and after it
    have hsame : k = x.state.tally F := by
      have hold := h.tally_of_notMem hF
      have hnew := h'.tally_of_notMem hF
      rw [htally, update_self] at hnew
      rw [hold, hnew]
    rw [hsame, update_eq_self] at htally
    rw [hsame] at hbal
    simp only [hpc, htally]
    omega

/-- The first statement of a pthread keeps them: what it owed is counted. -/
theorem TrackInv.enter {x : Tracked P Nat} (hx : TrackInv n x) (ht : x.entered t = false) :
    TrackInv n { x with
      trackingInfo := update x.trackingInfo t (x.trackingInfo t).enterSuspend
      entered := update x.entered t true } := by
  refine ⟨hx.inv, fun y => ?_⟩
  have hcounted := hx.counted y
  have hinfo := total_update (w := fun _ i => y.info i) (c := x.trackingInfo) (t := t)
    (a := (x.trackingInfo t).enterSuspend)
  have howed := total_update (w := fun _ e => y.owed e) (c := x.entered) (t := t) (a := true)
  rw [ht] at howed
  dsimp only
  cases y with
  | leave =>
    simp only [Item.info, TrackingInfo.enterSuspend, Item.owed, if_true, Bool.false_eq_true,
      if_false] at *
    omega
  | _ =>
    simp only [Item.info, TrackingInfo.enterSuspend, Item.owed] at *
    omega

/-- The table `result` of `myfib.c`. -/
def result : List Nat :=
  [0, 1, 1, 2, 3, 5, 8, 13, 21, 34, 55, 89, 144, 233, 377, 610, 987, 1597, 2584,
   4181, 6765, 10946, 17711, 28657, 46368, 75025, 121393, 196418, 317811,
   514229, 832040, 1346269, 2178309, 3524578, 5702887, 9227465,
   14930352, 24157817, 39088169, 63245986, 102334155, 165580141,
   267914296, 433494437, 701408733, 1134903170, 1836311903]

/-- How `main` ends. -/
inductive Exit
  /-- `die("cannot verify if n > 46")`. -/
  | died
  /-- `result[n]` with a negative `n`. -/
  | outOfTable
  /-- `myassert(x == result[n], ...)` failed. -/
  | unexpectedResult
  /-- `fib(n) = x`. -/
  | verified (x : BitVec 32)
deriving DecidableEq

/-- `main` on the argument `n`, where `startfib` returns `x`. -/
def mainExit (n : Int) (x : BitVec 32) : Exit :=
  if n > 46 then .died
  else if n < 0 then .outOfTable
  else if x = BitVec.ofNat 32 (result.getD n.toNat 0) then .verified x
  else .unexpectedResult

/-- The table has the Fibonacci numbers. -/
theorem result_eq_fib : ∀ k < 47, result.getD k 0 = Nat.fib k := by
  decide +kernel

/-- When `startfib(n)` has returned, after whatever interleaving, `main` verifies the result for
every `n` from `1` to `46`. For `n = 0` its assertion fails: `fib` returns `1` there, and the table
has `0`. -/
theorem main_verifies {ts : List (Tid P)} {k : Nat}
    (hrun : run step (initial P k) ts = some s) (hret : s.pc t = .returned) (hk : k ≤ 46) :
    mainExit k (s.foos .root).output =
      if k = 0 then .unexpectedResult else .verified (BitVec.ofNat 32 (Nat.fib k)) := by
  obtain ⟨φ, ρ, q, h⟩ := inv_run hrun
  have hout := h.output_root hret
  have hentry : result.getD (k : Int).toNat 0 = Nat.fib k := result_eq_fib k (by omega)
  unfold mainExit
  rw [if_neg (by omega), if_neg (by omega), hout, hentry]
  match k with
  | 0 =>
    rw [fibValue_leaf (by decide)]
    rfl
  | k + 1 =>
    rw [fibValue_eq_fib, show (max ((k + 1 : Nat) : Int) 1).toNat = k + 1 by omega, if_pos rfl]
    rfl

/-- One pthread runs `startfib(0)`, and the assertion of `main` fails. -/
theorem main_verifies_zero : ∃ s, run step (initial 0 0) (List.replicate 8 0) = some s ∧
    mainExit 0 (s.foos .root).output = .unexpectedResult := by
  have h : (run step (initial 0 0) (List.replicate 8 0)).map (fun s => s.pc 0) =
      some .returned := by
    decide +kernel
  obtain ⟨s, hrun, hs⟩ := Option.map_eq_some_iff.mp h
  exact ⟨s, hrun, main_verifies (k := 0) hrun hs (by decide)⟩

end

end Stacklets.LazyFork

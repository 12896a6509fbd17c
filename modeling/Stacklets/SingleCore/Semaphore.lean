import Mathlib.Algebra.Order.Ring.Nat
import Stacklets.SingleCore.Calls

/-!
# `Stacklets.SingleCore.Semaphore`: the counts of a semaphore

`mythread_semwait` and `mythread_sempost` of `mythreads.c`, for one semaphore, on top of the
thread package. `SemState` has the state of the package, the two fields of the semaphore, and
the counts that the accounting is about.

A thread that finds no count waits in `mythread_yield_and_wait`, as a thread in `mythread_join`
does, and it stands in the same idle queue. It does not write `waitingon`. So the package sees
a thread that waits for anyone, or for the thread that it joined last. When it is resumed, it
takes itself off the list of the semaphore (`SemState.resumed`).

* `mythread_sempost` takes the newest waiter out of the idle queue and puts it in no other one
  (`Balanced.sempost_loses` for every state, `sempost_loses_waiter` for a run).
* `sem_accounting`: the counts balance in all runs in which `mythread_sempost` finds no waiter
  and no `mythread_exit` takes a thread in `mythread_semwait` for one in `mythread_join(NULL)`.
-/

set_option autoImplicit false

namespace Stacklets.SingleCore

open Lib

/-! ### The semaphore -/

/-- `mythread_yield_and_wait`, by a thread that is not in `mythread_join`. -/
def State.yieldAndWait (s : State) (c : Nat) : State :=
  { (s.touch [c]).modify c ({ · with context := .joining none }) with
    idle := c :: s.idle }.scheduleNext

/-- The package and one semaphore. `inWait` lists the threads that are in the
`mythread_yield_and_wait` of `mythread_semwait`, `completed` counts the returns of
`mythread_semwait`, and `posted` adds up the arguments of `mythread_sempost`. -/
structure SemState where
  pool : State
  cnt : BitVec 32
  waiters : List Nat
  inWait : List Nat
  completed : Nat
  posted : Nat
  aborted : Bool

inductive SemAct where
  | call (a : Act)
  | semwait
  | sempost (c : BitVec 32)
deriving DecidableEq

namespace SemState

/-- The end of `mythread_semwait`, if the thread that runs now was waiting in it. The package
has noted the return of a join, which this is not. -/
def resumed (s : SemState) : SemState :=
  match s.pool.current with
  | some t =>
    if t ∈ s.inWait then
      match removeTL t s.waiters with
      | some waiters =>
        { s with
          pool := { s.pool with joins := s.pool.joins.dropLast }
          waiters
          inWait := s.inWait.erase t
          completed := s.completed + 1 }
      | none => { s with aborted := true }
    else s
  | none => s

/-- `mythread_semwait` in thread `c`. -/
def semwait (s : SemState) (c : Nat) : SemState :=
  if s.cnt.toInt < 0 then { s with aborted := true }
  else if s.cnt.toInt ≤ 0 then
    { s with
      pool := s.pool.yieldAndWait c
      waiters := c :: s.waiters
      inWait := c :: s.inWait }.resumed
  else { s with cnt := s.cnt - 1, completed := s.completed + 1 }

/-- `mythread_sempost`. -/
def sempost (s : SemState) (c : BitVec 32) : SemState :=
  if c.toInt ≤ 0 then { s with aborted := true }
  else
    let s := { s with cnt := s.cnt + c, posted := s.posted + c.toNat }
    match s.waiters with
    | [] => s
    | t :: _ =>
      match removeFromIdleQue t s.pool.idle with
      | some idle =>
        { s with
          pool := { s.pool.touch (s.pool.idle.takeWhile (· ≠ t) ++ [t]) with idle }
          cnt := s.cnt - 1 }
      | none => { s with pool := { s.pool with crashed := true } }

/-- One call by the thread that runs (or, for some calls of the package, by the main
program). -/
def step (s : SemState) (a : SemAct) : Option SemState :=
  if s.aborted || s.pool.crashed then none
  else match a with
  | .call a => (s.pool.step a).map fun pool => { s with pool }.resumed
  | .semwait => s.pool.current.map s.semwait
  | .sempost c => s.pool.current.map fun _ => s.sempost c

/-- After `mythread_seminit(s, k)`. -/
def initial (k : BitVec 32) : SemState where
  pool := State.initial
  cnt := k
  waiters := []
  inWait := []
  completed := 0
  posted := 0
  aborted := false

/-- The condition on the calls of a program. `mythread_sempost` is called while no thread waits,
and the new count is an `int`. If a thread exits that is not detached and that nobody waits for
by name, then the first idle thread whose `waitingon` is null, if there is one, is not in
`mythread_semwait`. -/
def Counted (s : SemState) : SemAct → Prop
  | .call .exit => ∀ c ∈ s.pool.current, (s.pool.threads c).waiters = [] →
      (s.pool.threads c).detachedBit = false → ∀ t ∈ s.pool.anyone, t ∉ s.inWait
  | .sempost c => s.waiters = [] ∧ s.cnt.toInt + c.toInt < 2 ^ 31
  | _ => True

end SemState

/-! ### The counts -/

/-- The caller of `semwait` waits on a queue of its own. -/
theorem State.Kept.yieldAndWait {s : State} {W : List Nat} {c : Nat} (hK : s.Kept W (some c)) :
    (s.yieldAndWait c).Kept (c :: W) (s.yieldAndWait c).current := by
  refine State.Kept.scheduleNext (hK.stop ({ · with context := .joining none }) rfl rfl rfl nofun
    (.inr rfl) (.inl ⟨rfl, rfl⟩) ?_)
  intro t ht
  exact (List.mem_cons.mp ht).imp_left fun heq => ⟨heq, rfl⟩

namespace SemState

variable {s s' : SemState} {k : BitVec 32}

/-- The invariant. A thread waits only while the count is 0. -/
structure Balanced (k : BitVec 32) (s : SemState) : Prop where
  pool : s.pool.Kept s.inWait s.pool.current
  inWait : s.inWait = s.waiters
  nonneg : 0 ≤ s.cnt.toInt
  total : s.cnt.toInt + s.completed = k.toInt + s.posted
  blocked : s.waiters ≠ [] → s.cnt.toInt = 0

/-- The thread that runs is not one that was waiting. -/
theorem resumed_eq (hK : s.pool.Kept s.inWait s.pool.current) : s.resumed = s := by
  unfold resumed
  split
  · next t ht =>
    have hnot : t ∉ s.inWait := by
      intro hmem
      have hrunning := (hK.places.running t).mpr ht
      rw [hK.waiting t hmem] at hrunning
      cases hrunning
    rw [if_neg hnot]
  · rfl

/-- Taking one from a positive count does not wrap. -/
theorem toInt_sub_one {x : BitVec 32} (hx : 0 < x.toInt) : (x - 1).toInt = x.toInt - 1 := by
  have hlt := BitVec.toInt_lt (x := x)
  rw [BitVec.toInt_sub]
  show (x.toInt - 1).bmod (2 ^ 32) = _
  rw [Int.bmod_eq_of_le] <;> omega

/-- A post below the bound does not wrap. -/
theorem toInt_add_of_lt {x y : BitVec 32} (hx : 0 ≤ x.toInt) (hy : 0 < y.toInt)
    (hxy : x.toInt + y.toInt < 2 ^ 31) : (x + y).toInt = x.toInt + y.toInt := by
  rw [BitVec.toInt_add, Int.bmod_eq_of_le] <;> omega

/-- A `semwait` that completes takes one of the count. -/
theorem Balanced.semwait (hB : s.Balanced k) {c : Nat} (hc : s.pool.current = some c) :
    (s.semwait c).Balanced k := by
  have hK : s.pool.Kept s.inWait (some c) := hc ▸ hB.pool
  unfold SemState.semwait
  split
  · exact absurd ‹_› (Int.not_lt.mpr hB.nonneg)
  split
  · next _ hle =>
    have hzero : s.cnt.toInt = 0 := Int.le_antisymm hle hB.nonneg
    rw [resumed_eq hK.yieldAndWait]
    exact ⟨hK.yieldAndWait, congrArg (c :: ·) hB.inWait, hB.nonneg, hB.total, fun _ => hzero⟩
  · next _ hgt =>
    have hpos : 0 < s.cnt.toInt := Int.not_le.mp hgt
    have htotal := hB.total
    have hsub := toInt_sub_one hpos
    constructor
    case pool => exact hB.pool
    case inWait => exact hB.inWait
    case nonneg =>
      show 0 ≤ (s.cnt - 1).toInt
      omega
    case total =>
      show (s.cnt - 1).toInt + ((s.completed + 1 : Nat) : Int) = _
      rw [hsub]
      push_cast
      show _ = k.toInt + (s.posted : Int)
      omega
    case blocked =>
      intro hne
      have hzero := hB.blocked hne
      omega

/-- A `sempost` without waiters adds to the count. -/
theorem Balanced.sempost (hB : s.Balanced k) {c : BitVec 32} (hok : s.Counted (.sempost c)) :
    (s.sempost c).Balanced k := by
  obtain ⟨hnil, hlt⟩ := hok
  unfold SemState.sempost
  split
  · exact ⟨hB.pool, hB.inWait, hB.nonneg, hB.total, hB.blocked⟩
  · next hpos =>
    have hpos : 0 < c.toInt := Int.not_le.mp hpos
    have hadd := toInt_add_of_lt hB.nonneg hpos hlt
    -- a positive count is read the same as signed and as unsigned
    have hcast : (c.toNat : Int) = c.toInt := by
      rw [BitVec.toInt_eq_toNat_cond] at hpos ⊢
      split at hpos
      · rw [if_pos ‹_›]
      · have := c.isLt
        omega
    have htotal := hB.total
    have hnonneg := hB.nonneg
    dsimp only
    split
    · constructor
      case pool => exact hB.pool
      case inWait => exact hB.inWait
      case nonneg =>
        show 0 ≤ (s.cnt + c).toInt
        omega
      case total =>
        show (s.cnt + c).toInt + (s.completed : Int) =
          k.toInt + ((s.posted + c.toNat : Nat) : Int)
        push_cast
        omega
      case blocked => exact fun hne => absurd hnil hne
    · next _ _ hcons =>
      rw [hnil] at hcons
      cases hcons

/-- Every counted step keeps the balance. -/
theorem Balanced.step {a : SemAct} (hB : s.Balanced k) (hok : s.Counted a)
    (hstep : s.step a = some s') : s'.Balanced k := by
  unfold SemState.step at hstep
  split at hstep
  · cases hstep
  cases a with
  | call a =>
    obtain ⟨pool, hpool, heq⟩ := Option.map_eq_some_iff.mp hstep
    have hK : pool.Kept s.inWait pool.current := by
      refine hB.pool.step ?_ hpool
      rintro rfl
      exact hok
    rw [resumed_eq hK] at heq
    subst heq
    exact ⟨hK, hB.inWait, hB.nonneg, hB.total, hB.blocked⟩
  | semwait =>
    obtain ⟨c, hc, rfl⟩ := Option.map_eq_some_iff.mp hstep
    exact hB.semwait hc
  | sempost c =>
    obtain ⟨_, _, rfl⟩ := Option.map_eq_some_iff.mp hstep
    exact hB.sempost hok

/-- Nothing was posted or taken yet. -/
theorem balanced_initial (hk : 0 < k.toInt) : (initial k).Balanced k where
  pool := State.kept_initial
  inWait := rfl
  nonneg := Int.le_of_lt hk
  total := rfl
  blocked := fun hne => absurd rfl hne

/-- A call of `mythread_sempost` that finds waiters leaves the newest one on no queue, in whatever
place of the idle queue it was. -/
theorem Balanced.sempost_loses (hB : s.Balanced k) {c : BitVec 32} (hc : 0 < c.toInt) {t : Nat}
    (ht : t ∈ s.waiters.head?) :
    t ∉ (s.sempost c).pool.ready ∧ t ∉ (s.sempost c).pool.idle ∧
      (s.sempost c).pool.current ≠ some t := by
  obtain ⟨ws, hws⟩ : ∃ ws, s.waiters = t :: ws := List.head?_eq_some_iff.mp ht
  have hjoining : s.pool.ctx t = .joining none :=
    hB.pool.waiting t (by rw [hB.inWait, hws]; exact List.mem_cons_self)
  have hready : t ∉ s.pool.ready := by
    intro hmem
    have hisReady := hB.pool.places.ready t hmem
    rw [hjoining] at hisReady
    cases hisReady
  have hcurrent : s.pool.current ≠ some t := by
    intro heq
    rw [(hB.pool.places.running t).mpr heq] at hjoining
    cases hjoining
  unfold SemState.sempost
  rw [if_neg (Int.not_le.mpr hc), hws]
  dsimp only
  cases hidle : removeFromIdleQue t s.pool.idle with
  | some idle =>
    exact ⟨hready, (removeFromIdleQue_spec hB.pool.places.idleNodup hidle).2, hcurrent⟩
  | none => exact ⟨hready, notMem_of_removeFromIdleQue_eq_none hidle, hcurrent⟩

/-- In all states of all runs whose calls meet `Counted`, for every first count: the completed
waits are at most the first count plus the posted total, the count is not negative, and no
thread is blocked in `mythread_semwait` while the posted total exceeds the completed waits.

The condition that `mythread_sempost` finds no waiters can not be dropped. Every call that finds
some, in any of these states, takes the newest one out of the idle queue and puts it in no other
queue. -/
theorem sem_accounting (k : BitVec 32) (hk : 0 < k.toInt) (as : List SemAct) (s : SemState)
    (hok : RunUnder step Counted (initial k) as) (hrun : run step (initial k) as = some s) :
    (s.completed : Int) ≤ k.toInt + s.posted ∧ 0 ≤ s.cnt.toInt ∧
      (s.inWait ≠ [] → s.posted ≤ s.completed) ∧
      ∀ c s', 0 < c.toInt → s.step (.sempost c) = some s' → ∀ t ∈ s.waiters.head?,
        t ∉ s'.pool.ready ∧ t ∉ s'.pool.idle ∧ s'.pool.current ≠ some t := by
  have hB : s.Balanced k :=
    runUnder_induction (fun _ _ _ hB hok hstep => hB.step hok hstep) as _ s (balanced_initial hk)
      hok hrun
  have htotal := hB.total
  have hnonneg := hB.nonneg
  refine ⟨by omega, hnonneg, ?_, ?_⟩
  · intro hne
    have hzero := hB.blocked (hB.inWait ▸ hne)
    omega
  · intro c s' hc hstep t ht
    unfold SemState.step at hstep
    split at hstep
    · cases hstep
    · obtain ⟨_, _, rfl⟩ := Option.map_eq_some_iff.mp hstep
      exact hB.sempost_loses hc ht

end SemState

instance (s : SemState) : ∀ a, Decidable (s.Counted a)
  | .call .exit => inferInstanceAs (Decidable (∀ c ∈ s.pool.current,
      (s.pool.threads c).waiters = [] → (s.pool.threads c).detachedBit = false →
      ∀ t ∈ s.pool.anyone, t ∉ s.inWait))
  | .sempost c => inferInstanceAs (Decidable (s.waiters = [] ∧ s.cnt.toInt + c.toInt < 2 ^ 31))
  | .call .create | .call .start | .call .yield | .call .detach | .call (.join _) | .semwait =>
    isTrue trivial

/-- Two threads and a first count of 1. The first one posts 2 and takes 3. The second one waits,
and the first one detaches itself and exits. -/
def waitsLast : List SemAct :=
  [.call .create, .call .create, .call .start, .semwait, .sempost 2, .semwait, .semwait,
    .call .yield, .semwait, .call .detach, .call .exit]

/-- The run above: three waits completed, one thread is left waiting. -/
theorem sem_accounting_waitsLast :
    ∃ s, run SemState.step (SemState.initial 1) waitsLast = some s ∧ s.waiters = [1] ∧
      s.completed = 3 ∧ s.posted = 2 ∧ (s.completed : Int) ≤ 1 + s.posted ∧
      s.posted ≤ s.completed := by
  have hok : RunUnder SemState.step SemState.Counted (SemState.initial 1) waitsLast := by
    decide +kernel
  have h : (run SemState.step (SemState.initial 1) waitsLast).map (fun s =>
      (s.waiters = [1] ∧ s.inWait = [1] ∧ s.completed = 3 ∧ s.posted = 2 : Bool)) =
        some true := by
    decide +kernel
  obtain ⟨s, hrun, hs⟩ := Option.map_eq_some_iff.mp h
  obtain ⟨hwaiters, hinWait, hcompleted, hposted⟩ := of_decide_eq_true hs
  have hall := SemState.sem_accounting 1 (by decide) waitsLast s hok hrun
  exact ⟨s, hrun, hwaiters, hcompleted, hposted, hall.1, hall.2.2.1 (by rw [hinWait]; nofun)⟩

/-- Two threads and a first count of 1. The first one takes it, and the second one waits. -/
def oneWaits : List SemAct :=
  [.call .create, .call .create, .call .start, .semwait, .call .yield, .semwait]

/-- Thread 1 waits when 2 is posted. It leaves the idle queue and enters no other one, and the
posted total exceeds the completed waits. -/
theorem sempost_loses_waiter :
    ∃ s s', run SemState.step (SemState.initial 1) oneWaits = some s ∧ s.waiters = [1] ∧
      s.step (.sempost 2) = some s' ∧ 1 ∈ s'.inWait ∧ s'.pool.current = some 0 ∧
      s'.pool.ready = [] ∧ s'.pool.idle = [] ∧ s'.completed < s'.posted := by
  have h : (run SemState.step (SemState.initial 1) oneWaits).map (fun s =>
      (s.waiters = [1] ∧ (s.step (.sempost 2)).map (fun s' =>
        (1 ∈ s'.inWait ∧ s'.pool.current = some 0 ∧ s'.pool.ready = [] ∧ s'.pool.idle = [] ∧
          s'.completed < s'.posted : Bool)) = some true : Bool)) = some true := by
    decide +kernel
  obtain ⟨s, hrun, hs⟩ := Option.map_eq_some_iff.mp h
  obtain ⟨hwaiters, hpost⟩ := of_decide_eq_true hs
  obtain ⟨s', hstep, hs'⟩ := Option.map_eq_some_iff.mp hpost
  exact ⟨s, s', hrun, hwaiters, hstep, of_decide_eq_true hs'⟩

end Stacklets.SingleCore

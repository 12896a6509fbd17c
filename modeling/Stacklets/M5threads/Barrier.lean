import Mathlib.Algebra.Order.BigOperators.Group.Finset
import Stacklets.Lib.Fair
import Stacklets.Lib.Ledger
import Stacklets.Util.Numerals

/-!
# `Stacklets.M5threads.Barrier`: the barrier of the pthread library for the simulator

`pthread_barrier_wait` of `m5threads/pthread.c`, called again and again by the threads `T` that the
barrier was made for. A thread reads the direction, counts itself under the spin lock, up or down,
and the one that completes the count turns the direction. Everyone else waits for the turn. Only
the count is under the lock. The direction is read outside of it, also by threads that are already
on their way to the next round.

`step` lets one thread do its next access of the shared words. `spin_lock` is two of them: the
plain read that it repeats while the lock is taken (`cmpb`, `ja 1b`), and the exchange (`xchgb`),
which fails and goes back to the read if another thread has been faster.

* `barrier_safe`: a thread leaves its `k`-th call only when all threads have entered their `k`-th
  call, in every interleaving.
* `barrier_live`: under every fair schedule all threads leave their `k`-th call, for every `k`.
* `counter_bounds`: the counter stays between 0 and the number of threads. It is an `Int` here and
  an `int` in the source, so the two agree for fewer than `2^31` threads.

The invariant speaks of the number `r` of turns so far. A thread that has seen them all has left
`r` calls, and a thread that still has to see the last one has left one less.

A failed exchange is the difficulty of the liveness proof, because a thread may fail again and
again. Each failure needs another thread that takes the lock, so taking the lock has to lower the
rank by more than all the failures that it can cause.
-/

set_option autoImplicit false

namespace Stacklets.M5threads

open Function (update update_self update_of_ne update_eq_self forall_update_iff)
open Lib

/-- Where a thread is. `d` is its `initial_direction`. -/
inductive PC
  /-- Outside, about to call and to read the direction. -/
  | out
  /-- `spin_lock`: read the lock until it is free. -/
  | lock (d : Bool)
  /-- `spin_lock`: the exchange. -/
  | xchg (d : Bool)
  /-- `counter++` or `counter--`: the load. -/
  | load (d : Bool)
  /-- The store. -/
  | store (d : Bool) (v : Int)
  /-- `counter == num_threads`, or `counter == 0`. -/
  | test (d : Bool)
  /-- Turn the direction. -/
  | turn (d : Bool)
  /-- `spin_unlock`. -/
  | unlock (d : Bool)
  /-- `while (initial_direction == direction)`. -/
  | wait (d : Bool)
deriving DecidableEq

/-- A thread, with the number of calls that it has left. -/
structure Thread where
  pc : PC
  left : Nat

/-- The words of the barrier. `direction` is set for down. -/
structure Words where
  spinlock : Bool
  counter : Int
  direction : Bool

structure State (T : Type*) where
  words : Words
  threads : T → Thread

/-- One step of a thread, with `n` for `num_threads`. -/
def threadStep (n : Nat) (m : Words) (x : Thread) : Words × Thread :=
  match x.pc with
  | .out => (m, { x with pc := .lock m.direction })
  | .lock d => if m.spinlock then (m, x) else (m, { x with pc := .xchg d })
  -- the exchange leaves a taken lock taken, and the thread reads again
  | .xchg d =>
    ({ m with spinlock := true }, { x with pc := if m.spinlock then .lock d else .load d })
  | .load d => (m, { x with pc := .store d m.counter })
  | .store d v => ({ m with counter := if d then v - 1 else v + 1 }, { x with pc := .test d })
  | .test d =>
    (m, { x with pc := if m.counter = (if d then 0 else (n : Int)) then .turn d else .unlock d })
  | .turn d => ({ m with direction := !d }, { x with pc := .unlock d })
  | .unlock d => ({ m with spinlock := false }, { x with pc := .wait d })
  -- the direction is read without the lock, as often as it takes
  | .wait d => if d = m.direction then (m, x) else (m, { pc := .out, left := x.left + 1 })

section
variable {T : Type*} [DecidableEq T] [Fintype T]

/-- One step of the thread `t`. -/
def step (s : State T) (t : T) : Option (State T) :=
  let o := threadStep (Fintype.card T) s.words (s.threads t)
  some ⟨o.1, update s.threads t o.2⟩

/-- `pthread_barrier_init`. -/
def initial (T : Type*) : State T where
  words := ⟨false, 0, false⟩
  threads _ := ⟨.out, 0⟩

/-- The calls that a thread has entered. -/
def Thread.entered (x : Thread) : Nat := if x.pc = .out then x.left else x.left + 1

/-! ### What holds of one thread -/

/-- The thread has the spin lock. -/
def Thread.holds (x : Thread) : Bool :=
  match x.pc with
  | .load _ | .store _ _ | .test _ | .turn _ | .unlock _ => true
  | _ => false

/-- The thread has counted itself for the turn that comes next, with `dir` the direction. -/
def Thread.counted (dir : Bool) (x : Thread) : Nat :=
  match x.pc with
  | .test d | .turn d | .unlock d | .wait d => if d = dir then 1 else 0
  | _ => 0

/-- What a thread knows after `r` turns, with `dir` the direction. -/
def Thread.Knows (dir : Bool) (r : Nat) (x : Thread) : Prop :=
  match x.pc with
  | .out => x.left = r
  | .lock d | .xchg d | .load d | .store d _ | .test d | .turn d => d = dir ∧ x.left = r
  | .unlock d | .wait d => (d = dir ∧ x.left = r) ∨ (d = !dir ∧ x.left + 1 = r)

/-- What the counter is when `c` threads out of `n` have counted themselves. -/
def counterOf (n c : Nat) (dir : Bool) : Int := if dir then (n : Int) - c else c

variable {s s' : State T} {r : Nat} {t u : T} {x : Thread} {dir : Bool}

/-- A thread counts itself at most once in a round. -/
theorem Thread.counted_le (dir : Bool) (x : Thread) : x.counted dir ≤ 1 := by
  unfold Thread.counted
  split <;> try split
  all_goals omega

/-- How many threads have counted themselves. -/
def State.present (s : State T) : Nat :=
  total (fun _ => Thread.counted s.words.direction) s.threads

omit [DecidableEq T] in
/-- The count is complete exactly if every thread has counted itself. Each of them contributes at
most 1 (`Thread.counted_le`), so a full sum leaves nobody out. -/
theorem present_eq_card : s.present = Fintype.card T ↔
    ∀ t, (s.threads t).counted s.words.direction = 1 := by
  have hsum := Finset.sum_eq_sum_iff_of_le (s := Finset.univ)
    (f := fun t => (s.threads t).counted s.words.direction) (g := fun _ => 1)
    fun t _ => Thread.counted_le _ _
  rw [Finset.sum_const, Finset.card_univ, smul_eq_mul, mul_one] at hsum
  simpa [State.present, total] using hsum

/-- The lock is taken when a thread has it, and only one has. -/
structure LockOk (spinlock : Bool) (threads : T → Thread) : Prop where
  unique : ∀ t u, (threads t).holds = true → (threads u).holds = true → t = u
  taken : spinlock = true ↔ ∃ t, (threads t).holds = true

namespace LockOk
variable {spinlock : Bool} {threads : T → Thread}

omit [Fintype T] in
/-- Who has the lock when `t` goes on as `x`. -/
theorem holds_update (t : T) (x : Thread) (u : T) : (update threads t x u).holds =
    if u = t then x.holds else (threads u).holds := by
  by_cases hu : u = t
  · rw [if_pos hu, hu, update_self]
  · rw [if_neg hu, update_of_ne hu]

omit [Fintype T] in
/-- A step that neither takes nor gives up the lock. -/
theorem same (h : LockOk spinlock threads) (hx : x.holds = (threads t).holds) :
    LockOk spinlock (update threads t x) := by
  have hall : ∀ u, (update threads t x u).holds = (threads u).holds := by
    intro u
    rw [holds_update, hx]
    split
    · next hu => rw [hu]
    · rfl
  exact ⟨fun v u hv hu => h.unique v u (hall v ▸ hv) (hall u ▸ hu),
    h.taken.trans (exists_congr fun u => by rw [hall])⟩

omit [Fintype T] in
/-- The exchange of `t` finds the lock free. Nobody has it before, so `t` is the only one now. -/
theorem take (h : LockOk false threads) (hx : x.holds = true) :
    LockOk true (update threads t x) := by
  have hnone : ∀ u, (threads u).holds ≠ true := fun u hu => by simpa using h.taken.mpr ⟨u, hu⟩
  have hone : ∀ u, (update threads t x u).holds = true → u = t := by
    intro u hu
    by_contra hne
    rw [holds_update, if_neg hne] at hu
    exact hnone u hu
  refine ⟨fun v u hv hu => (hone v hv).trans (hone u hu).symm, ⟨fun _ => ⟨t, ?_⟩, fun _ => rfl⟩⟩
  rw [holds_update, if_pos rfl, hx]

omit [Fintype T] in
/-- `spin_unlock` by the thread that has the lock. -/
theorem drop (h : LockOk spinlock threads) (ht : (threads t).holds = true) (hx : x.holds = false) :
    LockOk false (update threads t x) := by
  have hnone : ∀ u, (update threads t x u).holds ≠ true := by
    intro u hu
    rw [holds_update] at hu
    split at hu
    · rw [hx] at hu
      cases hu
    · next hne => exact hne (h.unique u t hu ht)
  refine ⟨fun v u hv => absurd hv (hnone v), ⟨fun hf => (by cases hf), ?_⟩⟩
  rintro ⟨u, hu⟩
  exact absurd hu (hnone u)

end LockOk

/-! ### What holds after every run -/

/-- The invariant after `r` turns. -/
structure Inv (s : State T) (r : Nat) : Prop where
  knows : ∀ t, (s.threads t).Knows s.words.direction r
  lock : LockOk s.words.spinlock s.threads
  counter : s.words.counter = counterOf (Fintype.card T) s.present s.words.direction
  loaded : ∀ t d v, (s.threads t).pc = .store d v → v = s.words.counter
  /-- A thread about to turn has found the count complete. -/
  complete : ∀ t d, (s.threads t).pc = .turn d → s.present = Fintype.card T
  /-- When the count is complete somebody is about to find out, or to turn. -/
  turning : T → s.present = Fintype.card T →
    ∃ t d, (s.threads t).pc = .test d ∨ (s.threads t).pc = .turn d

omit [DecidableEq T] in
/-- Behind `pthread_barrier_init` there was no turn, the lock is free and nobody is counted. -/
theorem inv_initial : Inv (initial T) 0 where
  knows _ := rfl
  lock := ⟨fun _ _ h => (by cases h), ⟨fun h => (by cases h), fun ⟨_, h⟩ => (by cases h)⟩⟩
  counter := by simp [initial, State.present, total, Thread.counted, counterOf]
  loaded _ _ _ h := by cases h
  complete _ _ h := by cases h
  turning t h := by cases present_eq_card.mp h t

/-- The balance of the count. -/
theorem present_update (m : Words) (hdir : m.direction = s.words.direction) :
    State.present ⟨m, update s.threads t x⟩ +
        (s.threads t).counted s.words.direction =
      s.present + x.counted s.words.direction := by
  show total (fun _ => Thread.counted m.direction) _ + _ = _
  rw [hdir]
  exact total_update

/-- A step that neither counts nor turns. -/
theorem Inv.quiet {m : Words} (h : Inv s r) (hdir : m.direction = s.words.direction)
    (hcounter : m.counter = s.words.counter)
    (hcounted : x.counted s.words.direction = (s.threads t).counted s.words.direction)
    (hknows : x.Knows s.words.direction r)
    (hlock : LockOk m.spinlock (update s.threads t x))
    (hloaded : ∀ d v, x.pc = .store d v → v = s.words.counter)
    (hturn : ∀ d, x.pc = .turn d → s.present = Fintype.card T)
    (hstill : s.present = Fintype.card T → ∀ d, (s.threads t).pc = .test d → x.pc = .turn d)
    (hmoves : ∀ d, (s.threads t).pc ≠ .turn d) :
    Inv ⟨m, update s.threads t x⟩ r := by
  have hpresent : State.present ⟨m, update s.threads t x⟩ = s.present := by
    have := present_update (t := t) (x := x) m hdir
    omega
  refine ⟨fun u => ?_, hlock, ?_, fun u => ?_, fun u => ?_, fun t₀ hfull => ?_⟩
  · show Thread.Knows m.direction r _
    rw [hdir]
    exact (forall_update_iff _ fun _ (y : Thread) => y.Knows _ r).mpr
      ⟨hknows, fun v _ => h.knows v⟩ u
  · rw [hpresent]
    show m.counter = counterOf _ _ m.direction
    rw [hcounter, hdir]
    exact h.counter
  · show ∀ d v, _ → v = m.counter
    rw [hcounter]
    exact (forall_update_iff _ fun _ (y : Thread) => ∀ d v, y.pc = .store d v → v = _).mpr
      ⟨hloaded, fun u _ => h.loaded u⟩ u
  · rw [hpresent]
    exact (forall_update_iff _ fun _ (y : Thread) => ∀ d, y.pc = .turn d → _).mpr
      ⟨hturn, fun v _ => h.complete v⟩ u
  · -- whoever is about to find out does so still, unless it is `t` and has found out
    rw [hpresent] at hfull
    obtain ⟨u, d, hu⟩ := h.turning t₀ hfull
    by_cases hut : u = t
    · subst hut
      refine ⟨u, d, .inr ?_⟩
      show (update s.threads u x u).pc = _
      rw [update_self]
      exact hu.elim (hstill hfull d) fun hturning => absurd hturning (hmoves d)
    · refine ⟨u, d, ?_⟩
      show (update s.threads t x u).pc = _ ∨ (update s.threads t x u).pc = _
      rwa [update_of_ne hut]

/-- The thread `t` counts itself. -/
theorem Inv.store {d : Bool} {v : Int} (h : Inv s r) (hpc : (s.threads t).pc = .store d v) :
    Inv ⟨{ s.words with counter := if d then v - 1 else v + 1 },
      update s.threads t { s.threads t with pc := .test d }⟩ r := by
  have hknows := h.knows t
  simp only [Thread.Knows, hpc] at hknows
  obtain ⟨rfl, hleft⟩ := hknows
  have hholds : (s.threads t).holds = true := by simp [Thread.holds, hpc]
  -- nobody else is in the section
  have halone : ∀ u, u ≠ t → (s.threads u).holds ≠ true := fun u hu hholds' =>
    hu (h.lock.unique u t hholds' hholds)
  set x : Thread := { s.threads t with pc := .test s.words.direction } with hx
  have hpresent := present_update (t := t) (x := x)
    { s.words with counter := if s.words.direction then v - 1 else v + 1 } rfl
  have hzero : (s.threads t).counted s.words.direction = 0 := by simp [Thread.counted, hpc]
  have hone : x.counted s.words.direction = 1 := by simp [Thread.counted, hx]
  rw [hzero, hone, Nat.add_zero] at hpresent
  -- so nobody is about to store or to turn
  have hnext : ∀ u, (∀ d v, (update s.threads t x u).pc ≠ .store d v) ∧
      ∀ d, (update s.threads t x u).pc ≠ .turn d := by
    intro u
    by_cases hut : u = t
    · rw [hut, update_self]
      exact ⟨nofun, nofun⟩
    · rw [update_of_ne hut]
      have hfree := halone u hut
      cases hpu : (s.threads u).pc <;> simp [Thread.holds, hpu] at hfree ⊢
  refine ⟨(forall_update_iff _ fun _ (y : Thread) => y.Knows _ r).mpr
      ⟨?_, fun v _ => h.knows v⟩, h.lock.same ?_, ?_,
    fun u d v' hu => absurd hu ((hnext u).1 d v'), fun u d hu => absurd hu ((hnext u).2 d),
    fun _ _ => ⟨t, s.words.direction, .inl ?_⟩⟩
  · simp [Thread.Knows, hx, hleft]
  · rw [hholds]
    rfl
  · have hold := h.counter
    rw [← h.loaded t _ v hpc] at hold
    show (if s.words.direction then v - 1 else v + 1) = counterOf _ _ s.words.direction
    rw [hpresent, hold]
    unfold counterOf
    split <;> push_cast <;> omega
  · show (update s.threads t x t).pc = _
    rw [update_self]

/-- The thread `t` turns the direction, and everyone has one more turn to see. -/
theorem Inv.turn {d : Bool} (h : Inv s r) (hpc : (s.threads t).pc = .turn d) :
    Inv ⟨{ s.words with direction := !d },
      update s.threads t { s.threads t with pc := .unlock d }⟩ (r + 1) := by
  have hknows := h.knows t
  simp only [Thread.Knows, hpc] at hknows
  obtain ⟨rfl, hleft⟩ := hknows
  have hfull := h.complete t _ hpc
  have hall := present_eq_card.mp hfull
  have hholds : (s.threads t).holds = true := by simp [Thread.holds, hpc]
  set x : Thread := { s.threads t with pc := .unlock s.words.direction } with hx
  -- all the others have counted themselves and are out of the section
  have hwait : ∀ u, u ≠ t →
      (s.threads u).pc = .wait s.words.direction ∧ (s.threads u).left = r := by
    intro u hu
    have hcounted := hall u
    have hk := h.knows u
    have hfree : (s.threads u).holds ≠ true := fun hholds' =>
      hu (h.lock.unique u t hholds' hholds)
    cases hpu : (s.threads u).pc <;> simp [Thread.counted, Thread.holds, Thread.Knows, hpu]
      at hcounted hfree hk
    subst hcounted
    simpa using hk
  -- with the new direction nobody is counted
  have hnew : ∀ u, (update s.threads t x u).counted (!s.words.direction) = 0 ∧
      (update s.threads t x u).Knows (!s.words.direction) (r + 1) ∧
      (∀ d v, (update s.threads t x u).pc ≠ .store d v) ∧
      ∀ d, (update s.threads t x u).pc ≠ .turn d := by
    intro u
    by_cases hu : u = t
    · rw [hu, update_self]
      simp [Thread.counted, Thread.Knows, hx, hleft]
    · obtain ⟨hpu, hl⟩ := hwait u hu
      rw [update_of_ne hu]
      simp [Thread.counted, Thread.Knows, hpu, hl]
  have hzero : State.present ⟨{ s.words with direction := !s.words.direction },
      update s.threads t x⟩ = 0 :=
    Finset.sum_eq_zero fun u _ => (hnew u).1
  refine ⟨fun u => (hnew u).2.1, h.lock.same ?_, ?_, fun u d v hu => absurd hu ((hnew u).2.2.1 d v),
    fun u d hu => absurd hu ((hnew u).2.2.2 d), fun t₀ hcard => ?_⟩
  · rw [hholds]
    rfl
  · -- the full count of one direction is the empty one of the other
    have hold := h.counter
    rw [hfull] at hold
    rw [hzero]
    show s.words.counter = counterOf _ 0 (!s.words.direction)
    rw [hold]
    unfold counterOf
    cases s.words.direction <;> simp
  · have := (present_eq_card.mp hcard) t₀
    rw [(hnew t₀).1] at this
    cases this

/-- The test behind `counter++` or `counter--` finds out whether the count is complete. -/
theorem counterOf_eq_iff {n c : Nat} :
    counterOf n c dir = (if dir then 0 else (n : Int)) ↔ c = n := by
  unfold counterOf
  cases dir
  · simp
  · simp
    omega

/-- A thread that waits for something changes nothing. -/
def Waits (m : Words) (x : Thread) : Prop :=
  match x.pc with
  | .lock _ => m.spinlock = true
  | .wait d => d = m.direction
  | _ => False

/-- Both loops that wait, the read of `spin_lock` and the one for the turn, only read. -/
theorem threadStep_of_waits {n : Nat} {m : Words} (h : Waits m x) : threadStep n m x = (m, x) := by
  unfold Waits at h
  unfold threadStep
  cases hpc : x.pc <;> simp_all

/-- The turn of a thread that waits changes nothing at all. -/
theorem step_of_waits (h : Waits s.words (s.threads t)) : step s t = some s := by
  unfold step
  rw [threadStep_of_waits h]
  dsimp only
  rw [update_eq_self]

/-- Every step keeps the invariant, with one more turn or as many as before. -/
theorem inv_step (h : Inv s r) (hs : step s t = some s') : ∃ r', Inv s' r' := by
  by_cases hwaits : Waits s.words (s.threads t)
  · rw [step_of_waits hwaits] at hs
    cases hs
    exact ⟨r, h⟩
  have hknows := h.knows t
  cases hs
  unfold threadStep
  cases hpc : (s.threads t).pc <;> simp only [Thread.Knows, hpc] at hknows <;>
    simp only [Waits, hpc] at hwaits
  case out =>
    refine ⟨r, h.quiet rfl rfl ?_ ⟨rfl, hknows⟩ (h.lock.same ?_) ?_ ?_ ?_ ?_⟩ <;>
      simp [Thread.counted, Thread.holds, hpc]
  case lock d =>
    simp only [if_neg hwaits]
    refine ⟨r, h.quiet rfl rfl ?_ hknows (h.lock.same ?_) ?_ ?_ ?_ ?_⟩ <;>
      simp [Thread.counted, Thread.holds, hpc]
  case xchg d =>
    have hlock := h.lock
    cases hfree : s.words.spinlock <;> rw [hfree] at hlock
    · refine ⟨r, h.quiet rfl rfl ?_ hknows (hlock.take rfl) ?_ ?_ ?_ ?_⟩ <;>
        simp [Thread.counted, hpc]
    · refine ⟨r, h.quiet rfl rfl ?_ hknows (hlock.same ?_) ?_ ?_ ?_ ?_⟩ <;>
        simp [Thread.counted, Thread.holds, hpc]
  case load d =>
    refine ⟨r, h.quiet rfl rfl ?_ hknows (h.lock.same ?_) ?_ ?_ ?_ ?_⟩ <;>
      simp [Thread.counted, Thread.holds, hpc]
  case store d v => exact ⟨r, h.store hpc⟩
  case test d =>
    obtain ⟨rfl, hleft⟩ := hknows
    -- the counter tells whether everybody is counted
    have hiff : s.words.counter = (if s.words.direction then 0 else (Fintype.card T : Int)) ↔
        s.present = Fintype.card T := by rw [h.counter, counterOf_eq_iff]
    simp only [hiff]
    by_cases hfull : s.present = Fintype.card T
    · rw [if_pos hfull]
      refine ⟨r, h.quiet rfl rfl ?_ ⟨rfl, hleft⟩ (h.lock.same ?_) ?_ ?_ ?_ ?_⟩ <;>
        simp [Thread.counted, Thread.holds, hpc, hfull]
    · rw [if_neg hfull]
      refine ⟨r, h.quiet rfl rfl ?_ (.inl ⟨rfl, hleft⟩) (h.lock.same ?_) ?_ ?_ ?_ ?_⟩ <;>
        simp [Thread.counted, Thread.holds, hpc, hfull]
  case turn d => exact ⟨r + 1, h.turn hpc⟩
  case unlock d =>
    refine ⟨r, h.quiet rfl rfl ?_ hknows (h.lock.drop ?_ ?_) ?_ ?_ ?_ ?_⟩ <;>
      simp [Thread.counted, Thread.holds, hpc]
  case wait d =>
    -- the direction is no longer the one that the thread has read: there was a turn
    obtain ⟨hd, hleft⟩ := hknows.resolve_left fun hk => hwaits hk.1
    simp only [if_neg hwaits]
    refine ⟨r, h.quiet rfl rfl ?_ hleft (h.lock.same ?_) ?_ ?_ ?_ ?_⟩ <;>
      simp [Thread.counted, Thread.holds, hpc, hwaits]

/-- After every run the invariant holds, for some number of turns. -/
theorem inv_run {ts : List T} (hrun : run step (initial T) ts = some s) : ∃ r, Inv s r :=
  run_induction (I := fun s => ∃ r, Inv s r) (fun _ _ _ ⟨_, h⟩ hs => inv_step h hs) ts _ s
    ⟨0, inv_initial⟩ hrun

/-! ### Safety -/

/-- Nobody has left more calls than there were turns. -/
theorem Thread.Knows.left_le (h : x.Knows dir r) : x.left ≤ r := by
  unfold Thread.Knows at h
  split at h <;> omega

/-- Everybody has entered as many calls as there were turns. -/
theorem Thread.Knows.le_entered (h : x.Knows dir r) : r ≤ x.entered := by
  unfold Thread.Knows at h
  unfold Thread.entered
  split at h <;> simp_all <;> omega

/-- A thread that has left less than `r` calls has still to see the last turn. -/
theorem Thread.Knows.late (h : x.Knows dir r) (hlt : x.left < r) :
    x.pc = .unlock (!dir) ∨ x.pc = .wait (!dir) := by
  unfold Thread.Knows at h
  split at h
  case h_8 d hpc | h_9 d hpc =>
    obtain ⟨rfl, -⟩ := h.resolve_left (by omega)
    simp [hpc]
  all_goals omega

/-- In every interleaving, a thread that has left `k` calls has left none of them before all
threads had entered `k` calls. -/
theorem barrier_safe {ts : List T} (hrun : run step (initial T) ts = some s) (t u : T) :
    (s.threads u).left ≤ (s.threads t).entered := by
  obtain ⟨r, h⟩ := inv_run hrun
  exact (h.knows u).left_le.trans (h.knows t).le_entered

/-- The counter is never negative and never more than the number of threads, in every
interleaving, so `counter++` and `counter--` do not overflow while `num_threads` is an `int`. -/
theorem counter_bounds {ts : List T} (hrun : run step (initial T) ts = some s) :
    0 ≤ s.words.counter ∧ s.words.counter ≤ Fintype.card T := by
  obtain ⟨r, h⟩ := inv_run hrun
  have hle : s.present ≤ Fintype.card T := by
    have hsum := Finset.sum_le_card_nsmul Finset.univ
      (fun t => (s.threads t).counted s.words.direction) 1 fun t _ => Thread.counted_le _ _
    simpa [State.present, total] using hsum
  rw [h.counter]
  unfold counterOf
  split <;> omega

/-! ### Liveness -/

/-- How far a thread is in its call. The two places of `spin_lock` count the same, since a thread
may go back from the exchange to the read. -/
def PC.progress : PC → Nat
  | .out => 0
  | .lock _ | .xchg _ => 1
  | .load _ => 2
  | .store _ _ => 3
  | .test _ => 4
  | .turn _ => 5
  | .unlock _ => 6
  | .wait _ => 7

/-- A bound on the steps, other than waiting and trying to get the lock, until the thread has left
`k` calls. -/
def weight (k : Nat) (x : Thread) : Nat := 8 * (k - x.left) - x.pc.progress

/-- A bound on the steps up to the next free exchange if nobody else takes the lock, for a thread
that has not left `k` calls. A thread at the exchange has to go round once more if the lock is
taken. -/
def tries (k : Nat) (spinlock : Bool) (x : Thread) : Nat :=
  if x.left < k then
    match x.pc with
    | .lock _ => 2
    | .xchg _ => if spinlock then 3 else 1
    | _ => 0
  else 0

/-- The next step reads a free lock, or the exchange fails. -/
def Tries (m : Words) (x : Thread) : Prop :=
  match x.pc with
  | .lock _ => m.spinlock = false
  | .xchg _ => m.spinlock = true
  | _ => False

variable {k : Nat}

/-- Such a step lowers `tries` and leaves the rest as it is. -/
theorem tries_step {n : Nat} {m : Words} (h : Tries m x) (hleft : x.left < k) :
    (threadStep n m x).1 = m ∧ weight k (threadStep n m x).2 = weight k x ∧
      tries k m.spinlock (threadStep n m x).2 < tries k m.spinlock x := by
  obtain ⟨pc, left⟩ := x
  obtain ⟨spinlock, counter, direction⟩ := m
  cases pc <;> simp_all [Tries, threadStep, weight, tries, PC.progress]

/-- Every other step lowers the weight of a thread that has not left `k` calls. -/
theorem weight_step {n : Nat} {m : Words} (h : ¬ Waits m x) (htries : ¬ Tries m x)
    (hleft : x.left < k) : weight k (threadStep n m x).2 < weight k x := by
  obtain ⟨pc, left⟩ := x
  unfold Waits at h
  unfold Tries at htries
  unfold threadStep weight
  cases pc <;> dsimp only at h htries hleft ⊢
  case lock d => exact absurd (Bool.eq_false_iff.mpr h) htries
  case xchg d =>
    rw [if_neg htries]
    simp only [PC.progress]
    omega
  case wait d =>
    rw [if_neg h]
    simp only [PC.progress]
    omega
  case test d =>
    by_cases hfull : m.counter = if d then 0 else (n : Int)
    · rw [if_pos hfull]
      simp only [PC.progress]
      omega
    · rw [if_neg hfull]
      simp only [PC.progress]
      omega
  all_goals
    simp only [PC.progress]
    omega

/-- A thread never gives back a call that it has left. -/
theorem left_le_threadStep {n : Nat} {m : Words} : x.left ≤ (threadStep n m x).2.left := by
  unfold threadStep
  split
  all_goals try split
  all_goals simp

/-- The direction changes only in a turn. -/
theorem direction_threadStep {n : Nat} {m : Words} (h : ∀ d, x.pc ≠ .turn d) :
    (threadStep n m x).1.direction = m.direction := by
  unfold threadStep
  split
  case h_7 d hpc => exact absurd hpc (h d)
  all_goals try split
  all_goals rfl

/-- What all threads together have to do before somebody gets the lock. -/
def State.tries (k : Nat) (s : State T) : Nat :=
  total (fun _ => M5threads.tries k s.words.spinlock) s.threads

/-- The rank of a state. A unit of weight outweighs the attempts of all threads. -/
def rank (k : Nat) (s : State T) : Nat :=
  (3 * Fintype.card T + 1) * total (fun _ => weight k) s.threads + s.tries k

omit [DecidableEq T] in
/-- All threads together never have more than three attempts each. -/
theorem tries_le_card : s.tries k ≤ 3 * Fintype.card T := by
  have hle : ∀ t ∈ Finset.univ, tries k s.words.spinlock (s.threads t) ≤ 3 := by
    intro t _
    unfold tries
    repeat' split
    all_goals omega
  have hsum := Finset.sum_le_card_nsmul Finset.univ _ 3 hle
  rw [smul_eq_mul, mul_comm] at hsum
  exact hsum

omit [DecidableEq T] in
/-- When some thread has left `k` calls, the others are past the lock in their `k`-th call. -/
theorem tries_eq_zero (hknows : ∀ t, k ≤ (s.threads t).left ∨ (s.threads t).Knows dir r)
    (hr : k ≤ r) : s.tries k = 0 := by
  refine Finset.sum_eq_zero fun t _ => ?_
  show tries k s.words.spinlock (s.threads t) = 0
  unfold tries
  by_cases hlt : (s.threads t).left < k
  · rw [if_pos hlt]
    have hk := (hknows t).resolve_left (by omega)
    rcases hk.late (by omega) with hpc | hpc <;> rw [hpc]
  · rw [if_neg hlt]

/-- A step waits, or lowers the rank if the thread has not left `k` calls. -/
theorem rank_step (h : Inv s r) (hs : step s t = some s') :
    (Waits s.words (s.threads t) ∧ s' = s) ∨ (¬ Waits s.words (s.threads t) ∧
      rank k s' ≤ rank k s ∧ ((s.threads t).left < k → rank k s' < rank k s)) := by
  by_cases hwaits : Waits s.words (s.threads t)
  · rw [step_of_waits hwaits] at hs
    exact .inl ⟨hwaits, (Option.some.inj hs).symm⟩
  refine .inr ⟨hwaits, ?_⟩
  cases hs
  set o := threadStep (Fintype.card T) s.words (s.threads t) with ho
  have htotal := total_update (w := fun _ : T => weight k) (c := s.threads) (t := t) (a := o.2)
  by_cases hleft : (s.threads t).left < k
  · refine (fun hlt => ⟨Nat.le_of_lt hlt, fun _ => hlt⟩) ?_
    by_cases htries : Tries s.words (s.threads t)
    · -- an attempt at the lock: only the attempts of `t` change
      obtain ⟨hwords, hweight, hlower⟩ := tries_step (n := Fintype.card T) htries hleft
      rw [← ho] at hwords hweight hlower
      have hattempts := total_update (w := fun _ : T => tries k s.words.spinlock) (c := s.threads)
        (t := t) (a := o.2)
      have hsame : total (fun _ => weight k) (update s.threads t o.2) =
          total (fun _ => weight k) s.threads := by omega
      unfold rank State.tries
      dsimp only
      rw [hwords, hsame]
      omega
    · -- every other step pays for all the attempts that it may cause
      have hlower := weight_step (n := Fintype.card T) hwaits htries hleft
      rw [← ho] at hlower
      have hattempts := tries_le_card (k := k) (s := ⟨o.1, update s.threads t o.2⟩)
      have hunit : total (fun _ => weight k) (update s.threads t o.2) + 1 ≤
          total (fun _ => weight k) s.threads := by omega
      have hmul := Nat.mul_le_mul_left (3 * Fintype.card T + 1) hunit
      rw [Nat.mul_add] at hmul
      unfold rank
      dsimp only
      omega
  · -- `t` is done, so everybody else is behind the lock and no attempt counts
    refine ⟨?_, fun hlt => absurd hlt hleft⟩
    have hr : k ≤ r := le_trans (by omega) (h.knows t).left_le
    have hleft' : k ≤ o.2.left := le_trans (by omega) left_le_threadStep
    have hpast : ∀ u, k ≤ (update s.threads t o.2 u).left ∨
        (update s.threads t o.2 u).Knows s.words.direction r :=
      (forall_update_iff _ fun _ (y : Thread) => k ≤ y.left ∨ y.Knows _ r).mpr
        ⟨.inl hleft', fun v _ => .inr (h.knows v)⟩
    have hzero : State.tries k ⟨o.1, update s.threads t o.2⟩ = 0 :=
      tries_eq_zero hpast hr
    have hdone : weight k o.2 = 0 := by
      unfold weight
      omega
    have hle : total (fun _ => weight k) (update s.threads t o.2) ≤
        total (fun _ => weight k) s.threads := by omega
    unfold rank
    dsimp only
    rw [hzero]
    exact Nat.le_add_right_of_le (Nat.mul_le_mul_left _ hle)

/-- A thread whose next step brings all threads closer to having left `k` calls. A thread in
`spin_lock` counts only while nobody has left `k` calls, since others may take the lock before
it. -/
def Helpful (k : Nat) (s : State T) (t : T) : Prop :=
  ¬ Waits s.words (s.threads t) ∧ (s.threads t).left < k ∧
    ∀ d, (s.threads t).pc = .lock d → ∀ u, (s.threads u).left < k

omit [DecidableEq T] in
/-- Short of the goal there is a helpful thread. While no thread has left `k` calls, it is any
thread that does not wait, and not all of them wait. Later on it is any thread that has not left
`k` calls, since it has only the last turn to see. -/
theorem exists_helpful (h : Inv s r) (hdone : ¬ ∀ t, k ≤ (s.threads t).left) :
    ∃ t, Helpful k s t := by
  obtain ⟨t₀, hlt⟩ := not_forall.mp hdone
  have hlt : (s.threads t₀).left < k := by omega
  by_cases hr : r < k
  · -- nobody has left `k` calls, so it is enough that not everybody waits
    have hall : ∀ u, (s.threads u).left < k := fun u => Nat.lt_of_le_of_lt (h.knows u).left_le hr
    by_contra hno
    have hwaits : ∀ u, Waits s.words (s.threads u) := by
      intro u
      by_contra hu
      exact hno ⟨u, hu, hall u, fun _ _ => hall⟩
    -- then nobody has the lock, all are counted, and the last one would have to turn
    have hfree : s.words.spinlock = false := by
      by_contra hlocked
      obtain ⟨u, hu⟩ := h.lock.taken.mp (by simpa using hlocked)
      have hw := hwaits u
      cases hpc : (s.threads u).pc <;> simp [Waits, Thread.holds, hpc] at hw hu
    have hfull : s.present = Fintype.card T := by
      refine present_eq_card.mpr fun u => ?_
      have hw := hwaits u
      cases hpc : (s.threads u).pc <;> simp [Waits, Thread.counted, hpc, hfree] at hw ⊢
      exact hw
    obtain ⟨u, d, hu⟩ := h.turning t₀ hfull
    have hw := hwaits u
    rcases hu with hu | hu <;> simp [Waits, hu] at hw
  · -- then `t₀` is one that has still to see the last turn
    rcases (h.knows t₀).late (by omega) with hpc | hpc <;>
      exact ⟨t₀, by simp [Waits, hpc], hlt, by simp [hpc]⟩

/-- Another thread takes nothing from a helpful one, unless it lowers the rank. -/
theorem Helpful.keep (h : Inv s r) (hh : Helpful k s t) (hu : u ≠ t) (hs : step s u = some s') :
    rank k s' < rank k s ∨ Helpful k s' t := by
  rcases rank_step (k := k) h hs with ⟨-, rfl⟩ | ⟨-, -, hlower⟩
  · exact .inr hh
  by_cases hleft : (s.threads u).left < k
  · exact .inl (hlower hleft)
  obtain ⟨hwaits, hlt, hlock⟩ := hh
  -- `u` has left `k` calls, so `t` is not at the lock
  have hnolock : ∀ d, (s.threads t).pc ≠ .lock d := fun d hd => hleft (hlock d hd u)
  cases hs
  have hsame : (update s.threads u
      (threadStep (Fintype.card T) s.words (s.threads u)).2) t = s.threads t :=
    update_of_ne (Ne.symm hu) _ _
  refine .inr ⟨?_, ?_, ?_⟩ <;> dsimp only <;> rw [hsame]
  · cases hpc : (s.threads t).pc with
    | lock d => exact absurd hpc (hnolock d)
    | wait d =>
      simp only [Waits, hpc] at hwaits ⊢
      rw [direction_threadStep]
      · exact hwaits
      · -- a turn needs the count to be complete, but `t` is not counted
        intro e he
        have hcounted := present_eq_card.mp (h.complete u e he) t
        simp [Thread.counted, hpc, hwaits] at hcounted
    | _ => simp [Waits, hpc]
  · exact hlt
  · exact fun d hd => absurd hd (hnolock d)

/-- Under every fair schedule, and for every `k`, all threads leave their `k`-th call. -/
theorem barrier_live {sched : Nat → T} (hfair : Fair sched) (k : Nat) :
    ∃ j, ∀ t, k ≤ ((turns step (initial T) sched j).threads t).left := by
  refine eventually_of_rank (fun s => ∃ r, Inv s r) (fun s => ∀ t, k ≤ (s.threads t).left)
    (Helpful k) (rank k) (fun _ _ _ ⟨_, h⟩ hs => inv_step h hs) (fun s t s' hI hs => ?_)
    (fun _ ⟨_, h⟩ hdone => exists_helpful h hdone) (fun s t hI hh => ?_)
    (fun _ _ _ _ ⟨_, h⟩ hh hu hs => hh.keep h hu hs) hfair ⟨0, inv_initial⟩
  · obtain ⟨r, h⟩ := hI
    rcases rank_step (k := k) h hs with ⟨-, rfl⟩ | ⟨-, hle, -⟩
    · exact Nat.le_refl _
    · exact hle
  · obtain ⟨r, h⟩ := hI
    obtain ⟨s', hs⟩ : ∃ s', step s t = some s' := ⟨_, rfl⟩
    rcases rank_step (k := k) h hs with ⟨hwaits, -⟩ | ⟨-, -, hlower⟩
    · exact absurd hwaits hh.1
    · exact ⟨s', hs, hlower hh.2.1⟩

end

/-- Three threads in turn: the first one is done with its first call, and the others have entered
theirs. -/
theorem barrier_safe_three :
    ∃ s, run step (initial (Fin 3)) ([0, 1, 2].flatMap fun t => List.replicate 9 t) = some s ∧
      (s.threads 2).left = 1 ∧ 1 ≤ (s.threads 0).entered ∧ 1 ≤ (s.threads 1).entered := by
  have h : (run step (initial (Fin 3)) ([0, 1, 2].flatMap fun t => List.replicate 9 t)).map
      (fun s => (s.threads 2).left) = some 1 := by
    decide +kernel
  obtain ⟨s, hrun, hs⟩ := Option.map_eq_some_iff.mp h
  have hsafe := fun t => hs ▸ barrier_safe hrun t 2
  exact ⟨s, hrun, hs, hsafe 0, hsafe 1⟩

/-- Three threads that take their turns in order leave five calls. -/
theorem barrier_live_roundRobin : ∃ j, ∀ t,
    5 ≤ ((turns step (initial (Fin 3)) (fun k => Fin.ofNat 3 k) j).threads t).left :=
  barrier_live (fair_ofNat 3) 5

end Stacklets.M5threads

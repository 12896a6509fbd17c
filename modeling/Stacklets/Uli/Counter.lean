import Stacklets.Lib.Ledger
import Stacklets.Uli.Correctness

/-!
# `Stacklets.Uli.Counter`: the counter of `sync/myapp.c`

`increment_counter` on every core, on top of the lock of `Stacklets.Uli.Machine`. A thread goes
through its loop with the four calls of `POLL`, takes the lock, loads `count`, stores `count + 1`
and releases the lock. `step` lets one core do its next atomic step: while a handler runs on it,
or while its thread is inside of `mylock` or `myunlock`, that is a step of the lock's machine,
and otherwise a step of `increment_counter`. A thread that has called `pthread_exit` does
nothing any more, and no interrupt reaches it.

* `count_eq_increments`: in every state that a run reaches, `count` is the number of stores
  that the cores have made, so that no increment is lost, and behind the last `pthread_join` it
  is the number of cores times the number of turns.
* `never_joined`: a request that is in the queue of a core when its thread exits is never
  served. The asking core stays in `mylock` for ever, so that `main` never joins it. `sleep(2)`
  in `increment_counter` is there against that, and this is what it cannot exclude.

The number of turns is a parameter, which is 100 in the source. `count` wraps at 32 bits.
-/

set_option autoImplicit false

namespace Stacklets.Uli.Counter

open Function (update update_self update_of_ne update_eq_self)
open Lib (run run_induction total total_update)

/-- Where `increment_counter` is. -/
inductive CounterPC
  /-- `i < 100`. -/
  | test
  /-- The first `POLL()` of a turn. -/
  | pollBefore
  /-- `mylock(&L)`. -/
  | lock
  /-- The thread is in `mylock`, or at the `POLL()` behind it. -/
  | pollInside
  /-- `count++` reads `count`. -/
  | load
  /-- `count++` writes it. -/
  | store (tmp : BitVec 32)
  /-- The `POLL()` behind `count++`. -/
  | pollHolding
  /-- `myunlock(&L)`. -/
  | unlock
  /-- The thread is in `myunlock`, or at the last `POLL()` of the turn. -/
  | pollAfter
  /-- The `POLL()` behind the loop. -/
  | pollOut
  /-- The `POLL()` behind `sleep(2)`. -/
  | pollLast
  /-- `pthread_exit(NULL)`. -/
  | exit
  /-- The thread has exited. -/
  | exited
deriving DecidableEq

/-- The thread of one core. -/
structure Thread where
  i : Nat
  pc : CounterPC

/-- The lock's machine, and the variables of `myapp.c`. -/
structure State (C : Type*) where
  uli : Uli.State C Unit
  count : BitVec 32
  threads : C → Thread

/-- What happens next. -/
inductive Action (C : Type*)
  /-- The topmost activity of a core moves. -/
  | run (c : C)
  /-- A message interrupts a core. -/
  | interrupt (c : C)

section
variable {C : Type*} [DecidableEq C]

namespace State

/-- The thread of `c` goes on as `t`. -/
def goto (s : State C) (c : C) (t : Thread) : State C :=
  { s with threads := update s.threads c t }

/-- The lock's machine moves. -/
def lockStep (s : State C) (d : Delivery) (a : Uli.Action C Unit) : Option (State C) :=
  (Uli.step d s.uli a).map fun u => { s with uli := u }

end State

/-- One step of `increment_counter` on the core `c`, with `n` turns of the loop. -/
def threadStep (d : Delivery) (n : Nat) (s : State C) (c : C) (i : Nat) :
    CounterPC → Option (State C)
  | .test => some (s.goto c ⟨i, if i < n then .pollBefore else .pollOut⟩)
  | .pollBefore => (s.goto c ⟨i, .lock⟩).lockStep d (.poll c)
  | .lock => (s.goto c ⟨i, .pollInside⟩).lockStep d (.mylock c ())
  -- `mylock` has returned when the thread moves here
  | .pollInside => (s.goto c ⟨i, .load⟩).lockStep d (.poll c)
  | .load => some (s.goto c ⟨i, .store s.count⟩)
  | .store tmp => some ({ s with count := tmp + 1 }.goto c ⟨i, .pollHolding⟩)
  | .pollHolding => (s.goto c ⟨i, .unlock⟩).lockStep d (.poll c)
  | .unlock => (s.goto c ⟨i, .pollAfter⟩).lockStep d (.myunlock c ())
  | .pollAfter => (s.goto c ⟨i + 1, .test⟩).lockStep d (.poll c)
  | .pollOut => (s.goto c ⟨i, .pollLast⟩).lockStep d (.poll c)
  | .pollLast => (s.goto c ⟨i, .exit⟩).lockStep d (.poll c)
  | .exit => some (s.goto c ⟨i, .exited⟩)
  | .exited => none

/-- One step of the cores. -/
def step (d : Delivery) (n : Nat) (s : State C) : Action C → Option (State C)
  | .run c =>
    if s.uli.main c = .app ∧ s.uli.frames c = [] then
      threadStep d n s c (s.threads c).i (s.threads c).pc
    else s.lockStep d (.step c)
  | .interrupt c =>
    if (s.threads c).pc = .exited then none else s.lockStep d (.interrupt c)

/-- The threads have been created. -/
def initial (C : Type*) : State C where
  uli := Uli.initial C Unit
  count := 0
  threads _ := ⟨0, .test⟩

/-! ### The lock under a thread -/

/-- The thread is in `mylock`, or behind it with the lock. -/
def Taking (pc : MainPC C Unit) (held : Bool) : Prop :=
  pc.locks = some () ∨ (pc = .app ∧ held = true)

/-- The thread is in `myunlock`, or behind it without the lock. -/
def Releasing (pc : MainPC C Unit) (held : Bool) : Prop :=
  pc.unlocks = some () ∨ (held = false ∧ (pc = .unlockClear () ∨ pc = .unlockEui () ∨ pc = .app))

/-- Where the lock's machine is when the thread is at a given place, and whether the thread has
the lock. -/
def Agrees (pc : CounterPC) (m : MainPC C Unit) (held : Bool) : Prop :=
  match pc with
  | .pollInside => Taking m held
  | .load | .store _ | .pollHolding | .unlock => m = .app ∧ held = true
  | .pollAfter => Releasing m held
  | _ => m = .app ∧ held = false

/-- The turns that the thread has begun to count, and where it is in them. -/
def Thread.Bounded (n : Nat) (t : Thread) : Prop :=
  match t.pc with
  | .test => t.i ≤ n
  | .pollOut | .pollLast | .exit | .exited => t.i = n
  | _ => t.i < n

/-- The stores to `count` that the thread has made. -/
def Thread.increments (t : Thread) : Nat :=
  match t.pc with
  | .pollHolding | .unlock | .pollAfter => t.i + 1
  | _ => t.i

variable {d : Delivery} {n : Nat} {s s' : State C} {u u' : Uli.State C Unit} {c x y : C}
  {place : C → Place C} {pc : CounterPC}

/-- A handler touches neither the thread below it nor what it holds. -/
theorem addmeStep_thread (p : AddmeCfd C Unit) (fs : List (Frame C Unit)) (l : AddmePC C) :
    (addmeStep u c p fs l).main = u.main ∧ (addmeStep u c p fs l).held = u.held := by
  cases l <;> simp only [addmeStep] <;> try split
  all_goals exact ⟨rfl, rfl⟩

/-- A handler moves neither the thread below it nor the lock that the thread has. -/
theorem frameStep_thread (fs : List (Frame C Unit)) (f : Frame C Unit) :
    (frameStep u c fs f).main = u.main ∧ (frameStep u c fs f).held = u.held := by
  cases f with
  | addme p l => exact addmeStep_thread p fs l
  | poll =>
    rw [frameStep_poll]
    split <;> exact ⟨rfl, rfl⟩
  | handler =>
    rw [frameStep_handler]
    split <;> exact ⟨rfl, rfl⟩

/-- `mylock` goes on, or returns with the lock. -/
theorem taking_mainStep (hs : mainStep u c (u.main c) = some u')
    (h : Taking (u.main c) (u.held () c)) : Taking (u'.main c) (u'.held () c) := by
  generalize hm : u.main c = m at hs h
  cases m <;> simp only [Taking, MainPC.locks, reduceCtorEq, false_and, or_self] at h
  all_goals simp only [mainStep] at hs
  all_goals try split at hs
  all_goals cases hs
  all_goals simp [Taking, MainPC.locks, hm]

/-- `myunlock` goes on, or returns without the lock. -/
theorem releasing_mainStep (hw : (u.main c).KnowsWaiter (u.waiterId c))
    (hs : mainStep u c (u.main c) = some u') (h : Releasing (u.main c) (u.held () c)) :
    Releasing (u'.main c) (u'.held () c) := by
  generalize u.main c = m at hs h hw
  cases m
  case unlockGet L =>
    -- the waiter that `unlockTest` saw is still there
    cases hwt : u.waiterId c with
    | none => exact absurd hwt hw
    | some next =>
      simp only [mainStep, hwt] at hs
      cases hs
      simp [Releasing, MainPC.unlocks]
  all_goals simp only [Releasing, MainPC.unlocks, reduceCtorEq, or_self, and_false] at h
  all_goals simp only [mainStep] at hs
  all_goals try split at hs
  all_goals cases hs
  all_goals first
    | (simp [Releasing, MainPC.unlocks]; done)
    | simpa [Releasing, MainPC.unlocks] using h

/-- The two calls lead from one place of `increment_counter` to the next one. -/
theorem agrees_mainStep (h : u.CoreOk d c) (hs : mainStep u c (u.main c) = some u')
    (hag : Agrees pc (u.main c) (u.held () c)) : Agrees pc (u'.main c) (u'.held () c) := by
  have happ : u.main c ≠ .app := by
    intro hm
    rw [hm] at hs
    cases hs
  cases pc with
  | pollInside => exact taking_mainStep hs hag
  | pollAfter => exact releasing_mainStep h.waiter hs hag
  | _ => exact absurd hag.1 happ

/-- A step inside `mylock` or `myunlock` keeps the loop and the lock in step. -/
theorem agrees_step (h : Uli.Inv d u place) (hs : Uli.step d u (.step c) = some u')
    (hag : Agrees pc (u.main c) (u.held () c)) : Agrees pc (u'.main c) (u'.held () c) := by
  simp only [Uli.step] at hs
  split at hs
  · -- a handler lies on top
    cases hs
    obtain ⟨hmain, hheld⟩ := frameStep_thread (u := u) (c := c) _ _
    rwa [hmain, hheld]
  · exact agrees_mainStep (h.cores c) hs hag

/-- An interrupt does not touch the thread. -/
theorem agrees_interrupt (hs : Uli.step d u (.interrupt c) = some u')
    (hag : Agrees pc (u.main c) (u.held () c)) : Agrees pc (u'.main c) (u'.held () c) := by
  simp only [Uli.step] at hs
  split at hs
  · split at hs <;> cases hs
    exact hag
  · cases hs

/-- The thread has the lock when it is at this place in the application. -/
def CounterPC.holds : CounterPC → Bool
  | .pollInside | .load | .store _ | .pollHolding | .unlock => true
  | _ => false

omit [DecidableEq C] in
/-- Outside the calls the loop knows whether it holds the lock. -/
theorem agrees_app {held : Bool} : Agrees pc (.app : MainPC C Unit) held ↔ held = pc.holds := by
  cases pc with
  | pollInside =>
    refine ⟨fun h => ?_, fun h => .inr ⟨rfl, h⟩⟩
    rcases h with h | h
    · cases h
    · exact h.2
  | pollAfter =>
    refine ⟨fun h => ?_, fun h => .inr ⟨h, .inr (.inr rfl)⟩⟩
    rcases h with h | h
    · cases h
    · exact h.1
  | _ => exact ⟨fun h => h.2, fun h => ⟨rfl, h⟩⟩

/-- A step of the lock leaves the counter alone. -/
theorem State.lockStep_eq_some {a : Uli.Action C Unit} :
    s.lockStep d a = some s' ↔ ∃ u, Uli.step d s.uli a = some u ∧ { s with uli := u } = s' :=
  Option.map_eq_some_iff

/-! ### What holds after every run -/

variable [Fintype C]

/-- The lock's machine is in order and agrees with the threads, a value that was loaded is still
that of `count`, and `count` is the number of the stores. -/
structure Inv (d : Delivery) (n : Nat) (s : State C) : Prop where
  uli : ∃ place, Uli.Inv d s.uli place
  agrees : ∀ c, Agrees (s.threads c).pc (s.uli.main c) (s.uli.held () c)
  bounded : ∀ c, (s.threads c).Bounded n
  loaded : ∀ c tmp, (s.threads c).pc = .store tmp → tmp = s.count
  count : s.count = BitVec.ofNat 32 (total (fun _ => Thread.increments) s.threads)

/-- No core has started its loop. -/
theorem inv_initial : Inv d n (initial C) where
  uli := ⟨_, Uli.inv_initial⟩
  agrees _ := ⟨rfl, rfl⟩
  bounded _ := Nat.zero_le n
  loaded _ _ h := by cases h
  count := by simp [initial, total, Thread.increments]

/-- The thread of `c` goes on as `t` with the machine `u`, and `count` becomes `k`, which is
`count` itself or, when nobody else is about to store, the next number. -/
theorem Inv.next {t : Thread} {k : BitVec 32} (h : Inv d n s) (hu : ∃ place, Uli.Inv d u place)
    (hother : ∀ x, x ≠ c → SameCore s.uli u x)
    (hag : Agrees t.pc (u.main c) (u.held () c)) (hb : t.Bounded n)
    (hl : ∀ tmp, t.pc = .store tmp → tmp = k)
    (hk : (k = s.count ∧ t.increments = (s.threads c).increments) ∨
      (k = s.count + 1 ∧ t.increments = (s.threads c).increments + 1 ∧
        ∀ x, x ≠ c → ∀ tmp, (s.threads x).pc ≠ .store tmp)) :
    Inv d n ⟨u, k, update s.threads c t⟩ where
  uli := hu
  agrees x := by
    show Agrees (update s.threads c t x).pc (u.main x) (u.held () x)
    by_cases hx : x = c
    · rw [hx, update_self]
      exact hag
    · rw [update_of_ne hx, (hother x hx).main, (hother x hx).held]
      exact h.agrees x
  bounded x := by
    show (update s.threads c t x).Bounded n
    by_cases hx : x = c
    · rw [hx, update_self]
      exact hb
    · rw [update_of_ne hx]
      exact h.bounded x
  loaded x tmp hx := by
    change (update s.threads c t x).pc = .store tmp at hx
    by_cases hc : x = c
    · rw [hc, update_self] at hx
      exact hl tmp hx
    · rw [update_of_ne hc] at hx
      rcases hk with ⟨rfl, -⟩ | ⟨-, -, hno⟩
      · exact h.loaded x tmp hx
      · exact absurd hx (hno x hc tmp)
  count := by
    have htot := total_update (w := fun _ : C => Thread.increments) (c := s.threads) (t := c)
      (a := t)
    show k = BitVec.ofNat 32 (total (fun _ => Thread.increments) (update s.threads c t))
    rcases hk with ⟨rfl, hinc⟩ | ⟨rfl, hinc, -⟩
    · rw [h.count]
      congr 1
      omega
    · -- the store adds one to both sides, modulo `2 ^ 32`
      rw [h.count, show (1 : BitVec 32) = BitVec.ofNat 32 1 from rfl, ← BitVec.ofNat_add]
      congr 1
      omega

/-- A core that is about to store has the lock, so it is the only one. -/
theorem Inv.store_unique {tmp : BitVec 32} (h : Inv d n s) (hc : (s.threads c).pc = .store tmp)
    (x : C) (hx : x ≠ c) (tmp' : BitVec 32) : (s.threads x).pc ≠ .store tmp' := by
  intro hpc
  obtain ⟨place, hu⟩ := h.uli
  have hheld : ∀ y v, (s.threads y).pc = .store v → s.uli.held () y = true := by
    intro y v hy
    have hag := h.agrees y
    rw [hy] at hag
    exact hag.2
  exact hx (hu.eq_of_held (hheld x tmp' hpc) (hheld c tmp hc))

/-- The lock's machine keeps its own invariant. -/
theorem Inv.uli_step {a : Uli.Action C Unit} (h : Inv d n s) (hs : Uli.step d s.uli a = some u) :
    ∃ place, Uli.Inv d u place := by
  obtain ⟨place, hu⟩ := h.uli
  obtain ⟨place', hu', -⟩ := inv_step hu (apart_of_inv hu a) hs
  exact ⟨place', hu'⟩

/-- The lock's machine moves below a thread that stays where it is. -/
theorem Inv.lockStep {a : Uli.Action C Unit} (h : Inv d n s) (hs : s.lockStep d a = some s')
    (hag : ∀ u, Uli.step d s.uli a = some u →
      Agrees (s.threads a.core).pc (u.main a.core) (u.held () a.core)) : Inv d n s' := by
  obtain ⟨u, hu, rfl⟩ := State.lockStep_eq_some.mp hs
  have hnext := h.next (c := a.core) (h.uli_step hu) (fun x hx => step_other hx hu) (hag u hu)
    (h.bounded a.core) (h.loaded a.core) (.inl ⟨rfl, rfl⟩)
  rwa [update_eq_self] at hnext

/-- The thread goes on in the application, without a call. -/
theorem Inv.goto {t : Thread} (h : Inv d n s) (hm : s.uli.main c = .app)
    (hh : t.pc.holds = (s.threads c).pc.holds) (hb : t.Bounded n)
    (hl : ∀ tmp, t.pc = .store tmp → tmp = s.count)
    (hi : t.increments = (s.threads c).increments) : Inv d n (s.goto c t) := by
  have hag := h.agrees c
  rw [hm, agrees_app] at hag
  refine h.next h.uli (fun x _ => ⟨rfl, rfl, rfl, rfl, fun _ => rfl⟩) ?_ hb hl (.inl ⟨rfl, hi⟩)
  rw [hm, agrees_app, hag, hh]

/-- The thread calls `POLL` and will go on behind it. -/
theorem Inv.poll {t : Thread} (h : Inv d n s) (hm : s.uli.main c = .app)
    (hs : (s.goto c t).lockStep d (.poll c) = some s')
    (hh : t.pc.holds = (s.threads c).pc.holds) (hb : t.Bounded n)
    (hl : ∀ tmp, t.pc ≠ .store tmp) (hi : t.increments = (s.threads c).increments) :
    Inv d n s' := by
  have hgoto := h.goto hm hh hb (fun tmp htmp => absurd htmp (hl tmp)) hi
  refine hgoto.lockStep hs fun u hu => ?_
  simp only [Uli.step] at hu
  split at hu <;> cases hu
  exact hgoto.agrees c

/-- The thread calls `mylock` or `myunlock`. -/
theorem Inv.call {t : Thread} {a : Uli.Action C Unit} (h : Inv d n s) (ha : a.core = c)
    (hs : (s.goto c t).lockStep d a = some s')
    (hag : ∀ u, Uli.step d s.uli a = some u → Agrees t.pc (u.main c) (u.held () c))
    (hb : t.Bounded n) (hl : ∀ tmp, t.pc ≠ .store tmp)
    (hi : t.increments = (s.threads c).increments) : Inv d n s' := by
  subst ha
  obtain ⟨u, hu, rfl⟩ := State.lockStep_eq_some.mp hs
  exact h.next (h.uli_step hu) (fun x hx => step_other hx hu) (hag u hu) hb
    (fun tmp htmp => absurd htmp (hl tmp)) (.inl ⟨rfl, hi⟩)

/-- One step of `increment_counter` keeps the invariant. -/
theorem Inv.threadStep (h : Inv d n s) (hm : s.uli.main c = .app)
    (hs : threadStep d n s c (s.threads c).i (s.threads c).pc = some s') : Inv d n s' := by
  have hb := h.bounded c
  generalize hpc : (s.threads c).pc = pc at hs
  simp only [Thread.Bounded, hpc] at hb
  cases pc <;> simp only [Counter.threadStep, reduceCtorEq, Option.some.injEq] at hs hb
  case test =>
    subst hs
    by_cases hi : (s.threads c).i < n
    · rw [if_pos hi]
      exact h.goto hm (by rw [hpc]; rfl) hi (by simp) (by simp [Thread.increments, hpc])
    · rw [if_neg hi]
      exact h.goto hm (by rw [hpc]; rfl) (Nat.le_antisymm hb (Nat.le_of_not_lt hi)) (by simp)
        (by simp [Thread.increments, hpc])
  case lock =>
    refine h.call (c := c) rfl hs (fun u hu => ?_) hb (by simp) (by simp [Thread.increments, hpc])
    simp only [Uli.step] at hu
    split at hu <;> cases hu
    exact .inl (by simp [MainPC.locks])
  case unlock =>
    refine h.call (c := c) rfl hs (fun u hu => ?_) hb (by simp) (by simp [Thread.increments, hpc])
    simp only [Uli.step] at hu
    split at hu <;> cases hu
    exact .inl (by simp [MainPC.unlocks])
  case load =>
    subst hs
    exact h.goto hm (by rw [hpc]; rfl) hb (by simp) (by simp [Thread.increments, hpc])
  case store tmp =>
    -- the value is still that of `count`, and nobody else has loaded it
    subst hs
    have hag := h.agrees c
    rw [hpc] at hag
    refine h.next h.uli (fun x _ => ⟨rfl, rfl, rfl, rfl, fun _ => rfl⟩) hag hb (by simp)
      (.inr ⟨?_, by simp [Thread.increments, hpc], h.store_unique hpc⟩)
    rw [h.loaded c tmp hpc]
  case exit =>
    subst hs
    exact h.goto hm (by rw [hpc]; rfl) hb (by simp) (by simp [Thread.increments, hpc])
  -- the six places with a `POLL`
  all_goals
    exact h.poll hm hs (by rw [hpc]; rfl) hb (by simp) (by simp [Thread.increments, hpc])

/-- Every step keeps the invariant. -/
theorem step_inv {a : Action C} (h : Inv d n s) (hs : step d n s a = some s') : Inv d n s' := by
  obtain ⟨place, hu⟩ := h.uli
  cases a with
  | run c =>
    simp only [step] at hs
    split at hs
    case isTrue happ => exact h.threadStep happ.1 hs
    case isFalse => exact h.lockStep hs fun u hu' => agrees_step hu hu' (h.agrees c)
  | interrupt c =>
    simp only [step] at hs
    split at hs
    · cases hs
    · exact h.lockStep hs fun u hu' => agrees_interrupt hu' (h.agrees c)

/-- The invariant holds after every run. -/
theorem run_inv {as : List (Action C)} (hrun : run (step d n) (initial C) as = some s) :
    Inv d n s :=
  run_induction (fun _ _ _ h hs => step_inv h hs) as _ s inv_initial hrun

/-- No increment is lost, in any order of steps and with handlers that start at any step at
which the flag is clear or only from `POLL`: `count` is the number of the stores that the cores
have made, and when all of them have exited it is the number of cores times that of the turns. -/
theorem count_eq_increments {as : List (Action C)}
    (hrun : run (step d n) (initial C) as = some s) :
    s.count = BitVec.ofNat 32 (∑ c, (s.threads c).increments) ∧
    ((∀ c, (s.threads c).pc = .exited) → s.count = BitVec.ofNat 32 (Fintype.card C * n)) := by
  have h := run_inv hrun
  refine ⟨h.count, fun hex => ?_⟩
  have heach : ∀ c, (s.threads c).increments = n := by
    intro c
    have hb := h.bounded c
    simpa only [Thread.increments, Thread.Bounded, hex c] using hb
  rw [h.count, total, Finset.sum_congr rfl fun c _ => heach c, Finset.sum_const, Finset.card_univ,
    smul_eq_mul]

/-! ### A thread that has exited -/

omit [Fintype C]

/-- The core on which an action takes place. -/
def Action.core : Action C → C
  | .run c | .interrupt c => c

/-- A message that is sent drops no other one. -/
theorem mem_msgBufs_sendI {p q : AddmeCfd C Unit} {target : C} (hp : p ∈ u.msgBufs y) :
    p ∈ (u.sendI target q).msgBufs y := by
  by_cases hy : y = target
  · subst hy
    simp [hp]
  · simp [hy, hp]

/-- A handler takes messages from its own core only. -/
theorem mem_msgBufs_frameStep {p : AddmeCfd C Unit} (hy : y ≠ c) (hp : p ∈ u.msgBufs y)
    (fs : List (Frame C Unit)) (f : Frame C Unit) : p ∈ (frameStep u c fs f).msgBufs y := by
  cases f with
  | poll =>
    rw [frameStep_poll]
    split <;> exact hp
  | handler =>
    rw [frameStep_handler]
    split
    · exact hp
    · simpa [hy] using hp
  | addme q l =>
    cases l <;> simp only [frameStep, addmeStep] <;> try split
    case send save => exact mem_msgBufs_sendI hp
    all_goals exact hp

/-- A message stays in the queue of a core that does not move. -/
theorem mem_msgBufs_step {a : Uli.Action C Unit} {p : AddmeCfd C Unit} (hy : y ≠ a.core)
    (hp : p ∈ u.msgBufs y) (hs : Uli.step d u a = some u') : p ∈ u'.msgBufs y := by
  cases a <;> simp only [Uli.step] at hs
  case step c =>
    cases hf : u.frames c <;> rw [hf] at hs
    case cons f fs =>
      cases hs
      exact mem_msgBufs_frameStep hy hp fs f
    case nil =>
      simp only [] at hs
      cases hm : u.main c <;> rw [hm] at hs <;> simp only [mainStep] at hs
      case lockSend L save =>
        cases hs
        exact mem_msgBufs_sendI hp
      all_goals try split at hs
      all_goals cases hs
      all_goals exact hp
  case interrupt c =>
    split at hs
    · split at hs <;> cases hs
      have hc : y ≠ c := hy
      simpa [hc] using hp
    · cases hs
  all_goals
    split at hs <;> cases hs
    exact hp

/-- An action changes neither the thread nor the core of anyone else, and takes no message from
them. -/
theorem step_elsewhere {a : Action C} (hx : x ≠ a.core) (hs : step d n s a = some s') :
    s'.threads x = s.threads x ∧ SameCore s.uli s'.uli x ∧
      ∀ p ∈ s.uli.msgBufs x, p ∈ s'.uli.msgBufs x := by
  have hlock : ∀ {r r' : State C} {b : Uli.Action C Unit}, b.core = a.core →
      r.lockStep d b = some r' → r'.threads x = r.threads x ∧ SameCore r.uli r'.uli x ∧
        ∀ p ∈ r.uli.msgBufs x, p ∈ r'.uli.msgBufs x := by
    intro r r' b hb hr
    obtain ⟨u, hu, rfl⟩ := State.lockStep_eq_some.mp hr
    have hxb : x ≠ b.core := by rwa [hb]
    exact ⟨rfl, step_other hxb hu, fun p hp => mem_msgBufs_step hxb hp hu⟩
  have hgoto : ∀ t, (s.goto a.core t).threads x = s.threads x := fun t =>
    update_of_ne hx _ _
  have hsame : SameCore s.uli s.uli x := ⟨rfl, rfl, rfl, rfl, fun _ => rfl⟩
  cases a with
  | interrupt c =>
    simp only [step] at hs
    split at hs
    · cases hs
    · exact hlock rfl hs
  | run c =>
    simp only [step] at hs
    split at hs
    case isFalse => exact hlock rfl hs
    -- a step of the thread itself, with or without a call into the lock's machine
    generalize (s.threads c).pc = pc at hs
    cases pc <;> simp only [threadStep, reduceCtorEq, Option.some.injEq] at hs
    case test | load | store | exit =>
      subst hs
      exact ⟨hgoto _, hsame, fun p hp => hp⟩
    all_goals
      have hcall := hlock (by rfl) hs
      exact ⟨hcall.1.trans (hgoto _), hcall.2⟩

/-- A thread that has exited is outside of the lock, and no handler is left on its core. -/
def Quiet (s : State C) (c : C) : Prop :=
  (s.threads c).pc = .exited → s.uli.main c = .app ∧ s.uli.frames c = []

/-- A thread that has exited does not move. -/
theorem Quiet.step_eq_none {a : Action C} (h : Quiet s a.core)
    (hex : (s.threads a.core).pc = .exited) : step d n s a = none := by
  cases a with
  | interrupt c => exact if_pos hex
  | run c =>
    change (s.threads c).pc = .exited at hex
    have happ : s.uli.main c = .app ∧ s.uli.frames c = [] := h hex
    rw [step, if_pos happ, hex]
    rfl

/-- The thread that moves exits only at its last step, with no handler on top of it. -/
theorem quiet_step {a : Action C} (h : ∀ c, Quiet s c) (hs : step d n s a = some s') (c : C) :
    Quiet s' c := by
  by_cases hc : c = a.core
  case neg =>
    obtain ⟨ht, hsame, -⟩ := step_elsewhere hc hs
    intro hex
    rw [ht] at hex
    rw [hsame.main, hsame.frames]
    exact h c hex
  subst hc
  have hne : (s.threads a.core).pc ≠ .exited := by
    intro hex
    rw [(h a.core).step_eq_none hex] at hs
    cases hs
  -- a step of the lock's machine leaves the thread where it is
  have hlock : ∀ {r r' : State C} {b : Uli.Action C Unit}, r.lockStep d b = some r' →
      (r.threads a.core).pc ≠ .exited → Quiet r' a.core := by
    intro r r' b hr hpc hex
    obtain ⟨u, -, rfl⟩ := State.lockStep_eq_some.mp hr
    exact absurd hex hpc
  cases a with
  | interrupt c =>
    simp only [step] at hs
    split at hs
    · cases hs
    · exact hlock hs hne
  | run c =>
    simp only [step] at hs
    split at hs
    case isFalse => exact hlock hs hne
    case isTrue happ =>
      change Quiet s' c
      generalize (s.threads c).pc = pc at hs
      cases pc <;> simp only [threadStep, reduceCtorEq, Option.some.injEq] at hs
      case exit =>
        subst hs
        exact fun _ => happ
      case test =>
        subst hs
        intro hex
        simp only [State.goto, update_self] at hex
        split at hex <;> cases hex
      case load | store =>
        subst hs
        intro hex
        simp [State.goto] at hex
      all_goals exact hlock hs (by simp [State.goto, Action.core])

variable [Fintype C]

/-- A request that is in the queue of a core whose thread has exited is never served, whatever
the cores do: the core that asked stays in the loop of `mylock`, so that its thread never
exits, and the `pthread_join` of `main` for it never returns. -/
theorem never_joined {as bs : List (Action C)} (hrun : run (step d n) (initial C) as = some s)
    (hy : (s.threads y).pc = .exited) (hp : ⟨(), x⟩ ∈ s.uli.msgBufs y)
    (hrun' : run (step d n) s bs = some s') :
    s'.uli.main x = .lockSpin () ∧ (s'.threads x).pc ≠ .exited := by
  have hquiet : ∀ c, Quiet s c :=
    run_induction (fun _ _ _ h hs => quiet_step h hs) as _ s (fun c hex => by cases hex) hrun
  -- along the second run the exited thread and the message stay
  have hstay : Inv d n s' ∧ (∀ c, Quiet s' c) ∧ (s'.threads y).pc = .exited ∧
      ⟨(), x⟩ ∈ s'.uli.msgBufs y := by
    refine run_induction (I := fun s => Inv d n s ∧ (∀ c, Quiet s c) ∧
      (s.threads y).pc = .exited ∧ ⟨(), x⟩ ∈ s.uli.msgBufs y) ?_ bs s s'
      ⟨run_inv hrun, hquiet, hy, hp⟩ hrun'
    rintro s a s' ⟨hinv, hq, hex, hmem⟩ hs
    have hya : y ≠ a.core := by
      rintro rfl
      rw [(hq a.core).step_eq_none hex] at hs
      cases hs
    obtain ⟨ht, -, hmsgs⟩ := step_elsewhere hya hs
    exact ⟨step_inv hinv hs, quiet_step hq hs, ht ▸ hex, hmsgs _ hmem⟩
  obtain ⟨hinv, hq, -, hmem⟩ := hstay
  obtain ⟨place, hu⟩ := hinv.uli
  -- whoever has a request in a queue is in the loop
  have hspin : s'.uli.main x = .lockSpin () := (hu.places.of_message hmem).2
  refine ⟨hspin, fun hex => ?_⟩
  rw [(hq x hex).1] at hspin
  cases hspin

end

/-- The cores take turns, each for the given number of steps. -/
def turns (ts : List (Nat × Fin 2)) : List (Action (Fin 2)) :=
  ts.flatMap fun t => List.replicate t.1 (.run t.2)

/-- With one turn of the loop: core 0 takes the lock, core 1 asks for it, core 0 hands it over
in its next `POLL`, and both exit. -/
theorem count_eq_increments_turns :
    ∃ s, run (step .poll 1) (initial (Fin 2)) (turns [(10, 0), (10, 1), (35, 0), (28, 1)]) =
      some s ∧ s.count = 2 := by
  have h : (run (step .poll 1) (initial (Fin 2)) (turns [(10, 0), (10, 1), (35, 0), (28, 1)])).map
      (fun s => decide ((s.threads 0).pc = .exited ∧ (s.threads 1).pc = .exited)) = some true := by
    decide +kernel
  obtain ⟨s, hrun, hs⟩ := Option.map_eq_some_iff.mp h
  obtain ⟨h0, h1⟩ := of_decide_eq_true hs
  exact ⟨s, hrun, (count_eq_increments hrun).2 (Fin.forall_fin_two.mpr ⟨h0, h1⟩)⟩

/-- Core 1 has read that core 0 is the owner, and sends its request when core 0 has exited. -/
theorem never_joined_turns :
    ∃ s, run (step .poll 1) (initial (Fin 2)) (turns [(10, 0), (9, 1), (25, 0), (1, 1)]) =
      some s ∧ ∀ bs s', run (step .poll 1) s bs = some s' → s'.uli.main 1 = .lockSpin () := by
  have h : (run (step .poll 1) (initial (Fin 2)) (turns [(10, 0), (9, 1), (25, 0), (1, 1)])).map
      (fun s => decide ((s.threads 0).pc = .exited ∧ ⟨(), 1⟩ ∈ s.uli.msgBufs 0)) = some true := by
    decide +kernel
  obtain ⟨s, hrun, hs⟩ := Option.map_eq_some_iff.mp h
  obtain ⟨hex, hmem⟩ := of_decide_eq_true hs
  exact ⟨s, hrun, fun bs s' hrun' => (never_joined hrun hex hmem hrun').1⟩

end Stacklets.Uli.Counter

import Mathlib.Data.Fintype.Basic
import Stacklets.Lib.Runs
import Stacklets.Uli.Steps
import Stacklets.Util.Numerals

/-!
# `Stacklets.Uli.Correctness`: what the lock guarantees

The invariant holds in every state that a run reaches, if every step of the run keeps the locks
apart (`inv_runUnder`). With a single lock there is nothing to keep apart (`apart_of_inv`), so
it holds in every run (`inv_run`). Read off it:

* `mutual_exclusion`: at most one core has the lock;
* `fifo`: the cores return from `mylock` in the order in which they were written to
  `owner_id`, and one at a time;
* `independent_locks`: with several locks, and only as long as they are kept apart, every lock
  is held by at most one core and a waiting core is triggered only for the lock it waits for.
  Without that condition this fails, as `waiter_id` is kept once per core and not once per
  lock (`not_independent_locks`).
-/

set_option autoImplicit false

namespace Stacklets.Uli

open Lib
open Lib.HandOff (Ordered)

section
variable {C K : Type*} [DecidableEq C] [DecidableEq K] {d : Delivery} {s s' : State C K}
  {place : C → Place C} {a : Action C K} {as : List (Action C K)} {c : C} {L : K}

/-! ### Runs -/

/-- All locks are free, and nobody waits. -/
theorem inv_initial : Inv d (initial C K) fun _ => .out where
  cores c := CoreOk.idle (fun hm => nomatch hm) rfl rfl trivial
  places c :=
    ⟨by simp [initial], fun _ => rfl, fun _ => rfl, by simp [initial, State.Waits], by simp,
      by simp [initial]⟩
  locks L :=
    ⟨.free rfl (fun _ => rfl) rfl rfl, by simp [initial], by simp [initial]⟩

/-- After every run whose steps keep the locks apart. -/
theorem inv_runUnder (hok : RunUnder (step d) Apart (initial C K) as)
    (hrun : run (step d) (initial C K) as = some s) : ∃ place, Inv d s place := by
  refine runUnder_induction (I := fun s => ∃ place, Inv d s place) ?_ as _ s
    ⟨_, inv_initial⟩ hok hrun
  rintro s a s' ⟨place, h⟩ hok hs
  obtain ⟨place', h', -⟩ := inv_step h hok hs
  exact ⟨place', h'⟩

/-- The waiter of a core waits for some lock, so a single lock is always kept apart. -/
theorem apart_of_inv [Subsingleton K] (h : Inv d s place) (a : Action C K) : Apart s a := by
  cases a with
  | step c =>
    intro L hL w hw
    -- where the waiter is used, `myunlock` is not behind its trigger
    have hclear : ∀ L', s.main c ≠ .unlockClear L' := by
      intro L' hL'
      have hf := ((h.cores c).masked (by rw [hL']; rfl)).1
      simp [State.usesWaiter, hf, hL'] at hL
    have hlink := ((h.places w).linked c).mpr ⟨hw, hclear⟩
    obtain ⟨L', hL'⟩ := h.places.exists_spin (c := w) (by simp [hlink])
    rw [hL', Subsingleton.elim L' L]
  | _ => trivial

/-- With a single lock, after every run. -/
theorem inv_run [Subsingleton K] (hrun : run (step d) (initial C K) as = some s) :
    ∃ place, Inv d s place := by
  refine run_induction (I := fun s => ∃ place, Inv d s place) ?_ as _ s ⟨_, inv_initial⟩ hrun
  rintro s a s' ⟨place, h⟩ hs
  obtain ⟨place', h', -⟩ := inv_step h (apart_of_inv h a) hs
  exact ⟨place', h'⟩

omit [DecidableEq C] in
/-- A holder is inside. -/
theorem stand_of_held (hc : s.held L c = true) : (lockSt s place L).stand c = .inside := by
  simp [lockSt, standOf, hc]

/-- At most one core has a lock. -/
theorem Inv.eq_of_held {x y : C} (h : Inv d s place) (hx : s.held L x = true)
    (hy : s.held L y = true) : x = y :=
  (h.locks L).ordered.eq_of_inside (stand_of_held hx) (stand_of_held hy)

/-- `mylock` returns only when everyone who had the lock has released it. -/
theorem Inv.released_eq (h : Inv d s place) (hok : Apart s a) (hs : step d s a = some s')
    (hr : s'.returned L ≠ s.returned L) : s.released L = s.returned L := by
  obtain ⟨place', -, href⟩ := inv_step h hok hs
  rcases href L with heq | ⟨e, hstep, -⟩
  · exact absurd (congrArg (·.entered) heq) hr
  · -- `enter` is the only event that adds to the history
    generalize hst : lockSt s' place' L = st' at hstep
    have hr' : st'.entered ≠ (lockSt s place L).entered := by
      rw [← hst]
      exact hr
    cases hstep with
    | enter x may => exact (h.locks L).ordered.left_eq_entered may
    | _ => exact absurd rfl hr'

end

section
variable {C : Type*} [DecidableEq C] {d : Delivery} {s : State C Unit}
  {as : List (Action C Unit)}

/-- In every state that a run with one lock reaches, with handlers that start at any step at
which the flag is clear or only from `POLL`, at most one core is between the return of `mylock`
and the releasing store of its next `myunlock`. -/
theorem mutual_exclusion (hrun : run (step d) (initial C Unit) as = some s) (x y : C)
    (hx : s.held () x = true) (hy : s.held () y = true) : x = y := by
  obtain ⟨place, h⟩ := inv_run hrun
  exact h.eq_of_held hx hy

/-- In every run the cores return from `mylock` in the order in which they were written to
`owner_id`, they release the lock in the order in which they returned, and no core returns
before everyone who returned has made the releasing store. -/
theorem fifo (hrun : run (step d) (initial C Unit) as = some s) :
    s.returned () <+: s.written () ∧ s.released () <+: s.returned () ∧
    (s.returned ()).length ≤ (s.released ()).length + 1 ∧
    ∀ a s', step d s a = some s' → s'.returned () ≠ s.returned () →
      s.released () = s.returned () := by
  obtain ⟨place, h⟩ := inv_run hrun
  have ho := (h.locks ()).ordered
  refine ⟨ho.entered_isPrefix, ho.left_isPrefix, ho.length_entered_le, fun a s' hs hr => ?_⟩
  exact h.released_eq (apart_of_inv h a) hs hr

end

/-- The core `c` moves `n` times. -/
def steps {C K : Type*} (c : C) (n : Nat) : List (Action C K) :=
  List.replicate n (.step c)

/-- Core 0 takes the lock, core 1 asks for it, an interrupt hands the lock over, core 0 releases
it and core 1 returns from `mylock`. -/
def handOver : List (Action (Fin 2) Unit) :=
  List.flatten [.mylock 0 () :: steps 0 4, .mylock 1 () :: steps 1 5, .interrupt 0 :: steps 0 7,
    .myunlock 0 () :: steps 0 4, steps 1 2]

/-- The run above ends with core 1 as the only holder. -/
theorem mutual_exclusion_handOver :
    ∃ s, run (step .anywhere) (initial (Fin 2) Unit) handOver = some s ∧
      s.held () 1 = true ∧ ∀ y, s.held () y = true → y = 1 := by
  have h : (run (step .anywhere) (initial (Fin 2) Unit) handOver).map (·.held () 1) =
      some true := by
    decide +kernel
  obtain ⟨s, hrun, hs⟩ := Option.map_eq_some_iff.mp h
  exact ⟨s, hrun, hs, fun y hy => mutual_exclusion hrun y 1 hy hs⟩

/-- In the run above both cores got the lock, in order. -/
theorem fifo_handOver :
    ∃ s, run (step .anywhere) (initial (Fin 2) Unit) handOver = some s ∧
      s.returned () = [0, 1] ∧ s.returned () <+: s.written () := by
  have h : (run (step .anywhere) (initial (Fin 2) Unit) handOver).map (·.returned ()) =
      some [0, 1] := by
    decide +kernel
  obtain ⟨s, hrun, hs⟩ := Option.map_eq_some_iff.mp h
  exact ⟨s, hrun, hs, (fifo hrun).1⟩

/-! ### Several locks -/

section
variable {C K : Type*} [DecidableEq C] [DecidableEq K] {d : Delivery} {s s' : State C K}
  {place : C → Place C} {a : Action C K} {as : List (Action C K)} {c : C} {L : K}

/-- The action `a` sets the trigger of `c` for the lock `L`: in the `myunlock(L)` of a core that
holds `L`, or in an `addme` that was asked by `c` for `L`. -/
def Triggers (s : State C K) (a : Action C K) (c : C) (L : K) : Prop :=
  ∃ b, a = .step b ∧
    ((s.frames b = [] ∧ s.main b = .unlockTrigger L c ∧ s.held L b = true) ∨
      ∃ fs, s.frames b = .addme ⟨L, c⟩ .trigger :: fs)

/-- The grant of `addme` is the only step of it that writes a trigger. -/
theorem trigger_addmeStep {b : C} {p : AddmeCfd C K} {l : AddmePC C} {fs : List (Frame C K)}
    (hc : (addmeStep s b p fs l).trigger c ≠ s.trigger c) : l = .trigger ∧ p.askId = c := by
  cases l <;> simp only [addmeStep] at hc
  case trigger =>
    refine ⟨rfl, ?_⟩
    by_contra hne
    exact hc (by simp [Ne.symm hne])
  all_goals first
    | exact absurd rfl hc
    | (split at hc <;> exact absurd rfl hc)

/-- No handler but `addme` writes a trigger. -/
theorem trigger_frameStep {b : C} {f : Frame C K} {fs : List (Frame C K)}
    (hc : (frameStep s b fs f).trigger c ≠ s.trigger c) :
    ∃ p, f = .addme p .trigger ∧ p.askId = c := by
  cases f with
  | addme p l =>
    obtain ⟨rfl, hp⟩ := trigger_addmeStep hc
    exact ⟨p, rfl, hp⟩
  | poll =>
    rw [frameStep_poll] at hc
    split at hc <;> exact absurd rfl hc
  | handler =>
    rw [frameStep_handler] at hc
    split at hc <;> exact absurd rfl hc

/-- A thread sets a trigger in `myunlock` only. -/
theorem trigger_mainStep {b : C} {pc : MainPC C K} (hs : mainStep s b pc = some s')
    (hold : s.trigger c = false) (hc : s'.trigger c = true) : ∃ L, pc = .unlockTrigger L c := by
  cases pc <;> simp only [mainStep] at hs
  case unlockTrigger L next =>
    cases hs
    by_cases hne : c = next
    · exact ⟨L, by rw [hne]⟩
    · simp [hne, hold] at hc
  case lockClear L =>
    cases hs
    by_cases hne : c = b <;> simp [hne, hold] at hc
  all_goals try split at hs
  all_goals cases hs
  all_goals simp [hold] at hc

/-- A waiting core is triggered only for the lock that it waits for. -/
theorem Inv.triggers (h : Inv d s place) (hs : step d s a = some s') (hL : s.main c = .lockSpin L)
    (hold : s.trigger c = false) (hc : s'.trigger c = true) : Triggers s a c L := by
  cases a <;> simp only [step] at hs
  case step b =>
    refine ⟨b, rfl, ?_⟩
    cases hf : s.frames b <;> rw [hf] at hs
    case nil =>
      obtain ⟨L', hpc⟩ := trigger_mainStep hs hold hc
      obtain rfl : L' = L := MainPC.lockSpin.inj (((h.locks L').next b c hpc).symm.trans hL)
      exact .inl ⟨rfl, hpc, (h.cores b).holds L' (by rw [hpc]; rfl)⟩
    case cons f fs =>
      cases hs
      obtain ⟨⟨L', x⟩, rfl, rfl⟩ := trigger_frameStep (c := c) (by rw [hc, hold]; simp)
      obtain rfl : L' = L :=
        MainPC.lockSpin.inj (((h.places.of_top hf (by simp)).2).symm.trans hL)
      exact .inr ⟨fs, rfl⟩
  case interrupt b =>
    cases d <;> cases hq : s.msgBufs b <;> rw [hq] at hs <;> simp only [] at hs
    all_goals try cases hs
    split at hs <;> cases hs
    simp [hold] at hc
  all_goals
    split at hs <;> cases hs
    simp [hold] at hc

/-- In every state that is reached by polling, with all steps keeping the locks apart: every
lock is held by at most one core, and a core that waits in `mylock(L)` has its trigger set by
the `myunlock(L)` of a core that holds `L` or by an `addme` grant of `L`, and by nothing else. -/
theorem independent_locks (hok : RunUnder (step .poll) Apart (initial C K) as)
    (hrun : run (step .poll) (initial C K) as = some s) :
    (∀ L x y, s.held L x = true → s.held L y = true → x = y) ∧
    ∀ a s' c L, step .poll s a = some s' → s.main c = .lockSpin L → s.trigger c = false →
      s'.trigger c = true → Triggers s a c L := by
  obtain ⟨place, h⟩ := inv_runUnder hok hrun
  exact ⟨fun L x y hx hy => h.eq_of_held hx hy,
    fun a s' c L hs hL hold hc => h.triggers hs hL hold hc⟩

end

/-- Core 0 takes both locks, core 1 asks for the second one, and core 0 hands it over in a
`POLL` and releases the first one. -/
def nested : List (Action (Fin 2) Bool) :=
  List.flatten [.mylock 0 false :: steps 0 4, .mylock 0 true :: steps 0 4,
    .mylock 1 true :: steps 1 5, .poll 0 :: steps 0 10, .myunlock 0 false :: steps 0 4, steps 1 2]

/-- Core 1 has the second lock while core 0 still has it: the `myunlock` of the first lock
triggers the waiter for the second one. -/
theorem not_independent_locks :
    ∃ s, run (step .poll) (initial (Fin 2) Bool) nested = some s ∧
      s.held true 0 = true ∧ s.held true 1 = true := by
  have h : (run (step .poll) (initial (Fin 2) Bool) nested).map
      (fun s => (s.held true 0, s.held true 1)) = some (true, true) := by
    decide +kernel
  obtain ⟨s, hrun, hs⟩ := Option.map_eq_some_iff.mp h
  exact ⟨s, hrun, congrArg Prod.fst hs, congrArg Prod.snd hs⟩

/-- Both locks are taken by core 0, which releases the second one first, so the hand-over to
core 1 goes well. -/
def nestedInOrder : List (Action (Fin 2) Bool) :=
  List.flatten [.mylock 0 false :: steps 0 4, .mylock 0 true :: steps 0 4,
    .mylock 1 true :: steps 1 5, .poll 0 :: steps 0 10, .myunlock 0 true :: steps 0 4, steps 1 2]

/-- The run above keeps its two locks apart. -/
theorem independent_locks_nestedInOrder :
    ∃ s, RunUnder (step .poll) Apart (initial (Fin 2) Bool) nestedInOrder ∧
      run (step .poll) (initial (Fin 2) Bool) nestedInOrder = some s ∧
      s.held false 0 = true ∧ s.held true 1 = true ∧ s.held true 0 = false := by
  have hok : RunUnder (step .poll) Apart (initial (Fin 2) Bool) nestedInOrder := by decide +kernel
  have h : (run (step .poll) (initial (Fin 2) Bool) nestedInOrder).map
      (fun s => (s.held false 0, s.held true 1)) = some (true, true) := by
    decide +kernel
  obtain ⟨s, hrun, hs⟩ := Option.map_eq_some_iff.mp h
  have h1 : s.held true 1 = true := congrArg Prod.snd hs
  refine ⟨s, hok, hrun, congrArg Prod.fst hs, h1, ?_⟩
  by_contra h0
  exact absurd ((independent_locks hok hrun).1 true 0 1 (by simpa using h0) h1) (by decide)

end Stacklets.Uli

import Stacklets.SingleCore.Threads

/-!
# `Stacklets.SingleCore.Dispatch`: no ready thread is passed over

The scheduler of `mythreads.c` gives the processor to the thread at the head of the ready queue.
Threads get into that queue from `mythread_create`, from `mythread_yield`, and from the
`mythread_exit` of a thread that they wait for, and always at its end. So a ready thread runs
after at most as many further calls of `mythread_yield` and `mythread_exit` as there are threads
before it, whatever else the program does (`no_starvation`).

`Appends` and `Dispatches` are the two things that a call can do to the queue.
-/

set_option autoImplicit false

namespace Stacklets.SingleCore

open Lib (run run_cons_eq_some)

/-- The calls that always give up the processor. A `mythread_join` does so only if it waits. -/
def Act.gives : Act → Bool
  | .start | .yield | .exit => true
  | _ => false

namespace State

variable {s s' : State} {a : Act} {c t : Nat}

/-- The queue has got longer at its end. -/
def Appends (s s' : State) : Prop := ∃ new, s'.ready = s.ready ++ new

/-- The head of the queue runs, and the queue has got longer at its end. -/
def Dispatches (s s' : State) : Prop :=
  ∀ h rest, s.ready = h :: rest → s'.current = some h ∧ ∃ new, s'.ready = rest ++ new

/-- Two calls append one after the other. -/
theorem Appends.trans {s₁ : State} (h : Appends s s₁) (h' : Appends s₁ s') : Appends s s' := by
  obtain ⟨new, hnew⟩ := h
  obtain ⟨new', hnew'⟩ := h'
  exact ⟨new ++ new', by rw [hnew', hnew, List.append_assoc]⟩

/-- `mythread_schedule_next`, after calls of `enqThread`. -/
theorem Appends.scheduleNext (h : Appends s s') : Dispatches s s'.scheduleNext := by
  intro x rest hready
  obtain ⟨new, hnew⟩ := h
  rw [hready, List.cons_append] at hnew
  unfold State.scheduleNext
  rw [hnew]
  exact ⟨rfl, new, rfl⟩

/-- A call that leaves the queue alone. -/
theorem Appends.of_eq (h : s'.ready = s.ready) : Appends s s' := ⟨[], by simp [h]⟩

/-- A woken thread goes to the end of the queue. -/
theorem wake_appends (h : s.wake c t = some s') : Appends s s' := by
  obtain ⟨idle, -, rfl⟩ := Option.map_eq_some_iff.mp h
  exact ⟨[t], rfl⟩

/-- The loop over the waiters. -/
theorem wakeAll_appends {ws : List Nat} (h : wakeAll c s ws = some s') : Appends s s' := by
  induction ws generalizing s with
  | nil =>
    cases h
    exact .of_eq rfl
  | cons w ws ih =>
    obtain ⟨s₁, hwake, hrest⟩ := Option.bind_eq_some_iff.mp h
    exact (wake_appends hwake).trans (ih hrest)

/-- The joiners of a thread go to the end of the queue. -/
theorem assign_appends {assigned : Bool} (h : s.assign c = some (assigned, s')) :
    Appends s s' := by
  rcases assign_cases h with ⟨s₁, hwake, -, rfl⟩ | ⟨ts, -, ⟨t, -, -, -, hwake, -⟩ | ⟨rfl, -⟩⟩
  · have happ : Appends s s₁ := wakeAll_appends hwake
    exact happ
  · have happ : Appends (s.touch ts) s' := wake_appends hwake
    exact happ
  · exact .of_eq rfl

/-- `mythread_exit` wakes the waiters and dispatches. -/
theorem exit_dispatches (h : s.exit c = some s') : Dispatches s s' := by
  obtain ⟨assigned, s₁, hassign, hend⟩ := exit_cases h
  have happ : Appends ((s.touch [c]).modify c exitRecord) s₁ := assign_appends hassign
  rcases hend with rfl | ⟨-, rfl⟩
  · exact Appends.scheduleNext happ
  · exact Appends.scheduleNext happ

/-- A `mythread_join` leaves the queue alone or dispatches. -/
theorem join_ready (s : State) (c : Nat) (who : Option Nat) :
    Appends s (s.join c who) ∨ Dispatches s (s.join c who) := by
  cases who with
  | some w | none =>
    simp only [State.join]
    split
    · exact .inl (.of_eq rfl)
    · exact .inr (Appends.scheduleNext (.of_eq rfl))

/-- A new thread goes to the end of the queue. -/
theorem create_appends (s : State) : Appends s s.create := by
  refine ⟨[s.count], ?_⟩
  cases hcurrent : s.current with
  | none | some c =>
    simp only [State.create, hcurrent]
    rfl

/-- One call, unless it crashes: the calls that give up the processor dispatch, and the others
dispatch or leave everyone in the queue in place. -/
theorem step_ready (hs : s.step a = some s') (hok : s'.crashed = false) :
    Dispatches s s' ∨ (a.gives = false ∧ Appends s s') := by
  rcases step_cases hs with ⟨rfl, rfl⟩ | ⟨rfl, -, rfl⟩ | ⟨c, -, hcall⟩
  · exact .inr ⟨rfl, s.create_appends⟩
  · exact .inl (Appends.scheduleNext (.of_eq rfl))
  · rcases hcall with ⟨rfl, rfl⟩ | ⟨rfl, rfl⟩ | ⟨who, rfl, -, rfl⟩ | ⟨rfl, hexit | rfl⟩
    · exact .inl (Appends.scheduleNext ⟨[c], rfl⟩)
    · exact .inr ⟨rfl, .of_eq rfl⟩
    · exact (join_ready s c who).symm.imp_right fun h => ⟨rfl, h⟩
    · exact .inl (exit_dispatches hexit)
    · cases hok

/-- After a crash nothing happens any more. -/
theorem crashed_mono {as : List Act} (hrun : run step s as = some s') (hok : s'.crashed = false) :
    s.crashed = false := by
  cases as with
  | nil =>
    cases hrun
    exact hok
  | cons a as =>
    obtain ⟨s₁, hs, -⟩ := run_cons_eq_some.mp hrun
    by_contra hc
    unfold State.step at hs
    rw [if_pos (by simpa using hc)] at hs
    cases hs

/-- No ready thread is passed over. If a program goes on, without a crash, for more calls of
`mythread_yield` and `mythread_exit` than there are threads before `t` in the ready queue, then
`t` has run in between. Runs that touch freed records are not excluded. The model goes on in them
with the record as it was, which the program can not rely on. -/
theorem no_starvation {as : List Act} {before after : List Nat}
    (hready : s.ready = before ++ t :: after) (hrun : run step s as = some s')
    (hok : s'.crashed = false) (hcalls : before.length < as.countP Act.gives) :
    ∃ bs cs s₁, as = bs ++ cs ∧ run step s bs = some s₁ ∧ s₁.current = some t := by
  -- each such call takes one thread from before `t`, and no call puts one there
  induction as generalizing s before after with
  | nil => simp at hcalls
  | cons a as ih =>
    obtain ⟨s₁, hs, hrest⟩ := run_cons_eq_some.mp hrun
    have later : (∃ bs cs s₂, as = bs ++ cs ∧ run step s₁ bs = some s₂ ∧ s₂.current = some t) →
        ∃ bs cs s₂, a :: as = bs ++ cs ∧ run step s bs = some s₂ ∧ s₂.current = some t := by
      rintro ⟨bs, cs, s₂, rfl, hbs, hcur⟩
      exact ⟨a :: bs, cs, s₂, rfl, run_cons_eq_some.mpr ⟨s₁, hs, hbs⟩, hcur⟩
    rcases step_ready hs (crashed_mono hrest hok) with hdisp | ⟨hgives, new, hnew⟩
    · cases before with
      | nil =>
        obtain ⟨hcur, -⟩ := hdisp t after hready
        exact ⟨[a], as, s₁, rfl, run_cons_eq_some.mpr ⟨s₁, hs, rfl⟩, hcur⟩
      | cons h rest =>
        obtain ⟨-, new, hnew⟩ := hdisp h (rest ++ t :: after) hready
        have hready₁ : s₁.ready = rest ++ t :: (after ++ new) := by
          rw [hnew, List.append_assoc, List.cons_append]
        have hone : (a :: as).countP Act.gives ≤ as.countP Act.gives + 1 := by
          rw [List.countP_cons]
          split <;> omega
        rw [List.length_cons] at hcalls
        exact later (ih hready₁ hrest (by omega))
    · -- everyone before `t` is still there, and so are the calls to come
      have hready₁ : s₁.ready = before ++ t :: (after ++ new) := by
        rw [hnew, hready, List.append_assoc, List.cons_append]
      rw [List.countP_cons, hgives] at hcalls
      exact later (ih hready₁ hrest (by simpa using hcalls))

/-- Three threads in the queue: the third one runs after three calls. -/
theorem no_starvation_third :
    ∃ bs cs s, [Act.start, .yield, .yield] = bs ++ cs ∧
      run step (((initial.create).create).create) bs = some s ∧ s.current = some 2 := by
  have h : (run step (((initial.create).create).create) [.start, .yield, .yield]).map (·.crashed) =
      some false := by
    decide +kernel
  obtain ⟨s', hrun, hok⟩ := Option.map_eq_some_iff.mp h
  have hready : (((initial.create).create).create).ready = [0, 1] ++ 2 :: [] := rfl
  exact no_starvation hready hrun hok (by decide)

end State

end Stacklets.SingleCore

import Mathlib.Algebra.GroupWithZero.Nat
import Mathlib.Data.List.Basic

/-!
# `Stacklets.Lib.Runs`: runs of a step function under a schedule

A concurrent program is given by a partial step function `step : σ → α → Option σ`. The
action `a : α` says who moves and what it chooses to do. The result is `none` when the
action is not possible in that state (a thread that waits for a lock, say). A schedule is a
list of actions, and `run` takes them one after the other.

Two rules carry every proof over whole runs:

* `run_induction`: a predicate that every step keeps holds at the end of every run;
* `runUnder_induction`: the same for the runs all of whose steps meet a condition `ok` on
  the state before the step.
-/

set_option autoImplicit false

namespace Stacklets.Lib

section
variable {σ α : Type*}

/-- The state after the actions of a schedule, taken in order. It is `none` when one of them
is not possible at its turn. -/
def run (step : σ → α → Option σ) : σ → List α → Option σ
  | s, [] => some s
  | s, a :: as => (step s a).bind fun s' => run step s' as

/-- Every step that the schedule takes from `s` meets the condition `ok` in the state before
the step. -/
def RunUnder (step : σ → α → Option σ) (ok : σ → α → Prop) : σ → List α → Prop
  | _, [] => True
  | s, a :: as => ok s a ∧ ∀ s', step s a = some s' → RunUnder step ok s' as

instance decidableRunUnder (step : σ → α → Option σ) (ok : σ → α → Prop)
    [∀ s a, Decidable (ok s a)] : ∀ (as : List α) (s : σ), Decidable (RunUnder step ok s as)
  | [], _ => isTrue trivial
  | a :: as, s =>
    have : Decidable (∀ s', step s a = some s' → RunUnder step ok s' as) :=
      match step s a with
      | none => isTrue fun _ h' => nomatch h'
      | some s₁ =>
        have := decidableRunUnder step ok as s₁
        decidable_of_iff (RunUnder step ok s₁ as)
          ⟨fun hr _ h' => Option.some.inj h' ▸ hr, fun hr => hr s₁ rfl⟩
    inferInstanceAs (Decidable (_ ∧ _))

variable {step : σ → α → Option σ}

@[simp] theorem run_nil (s : σ) : run step s [] = some s := rfl

theorem run_cons (s : σ) (a : α) (as : List α) :
    run step s (a :: as) = (step s a).bind fun s' => run step s' as := rfl

/-- A run that starts with `a` starts with a step, and the rest is a run. -/
theorem run_cons_eq_some {s s' : σ} {a : α} {as : List α} :
    run step s (a :: as) = some s' ↔ ∃ s₁, step s a = some s₁ ∧ run step s₁ as = some s' := by
  rw [run_cons, Option.bind_eq_some_iff]

/-- A run of two schedules is the run of the first, and from where it ends the run of the second. -/
theorem run_append_bind (s : σ) (as bs : List α) :
    run step s (as ++ bs) = (run step s as).bind fun s₁ => run step s₁ bs := by
  induction as generalizing s with
  | nil => rfl
  | cons a as ih =>
    rw [List.cons_append, run_cons, run_cons, Option.bind_assoc]
    exact congrArg _ (funext ih)

/-- A run can be taken in two parts. -/
theorem run_append {s s₁ : σ} {as : List α} (h : run step s as = some s₁) (bs : List α) :
    run step s (as ++ bs) = run step s₁ bs := by
  rw [run_append_bind, h]
  rfl

theorem run_append_eq_some {s s' : σ} {as bs : List α} :
    run step s (as ++ bs) = some s' ↔
      ∃ s₁, run step s as = some s₁ ∧ run step s₁ bs = some s' := by
  rw [run_append_bind, Option.bind_eq_some_iff]

/-- The steps of a run in two parts. -/
theorem runUnder_append {ok : σ → α → Prop} {s s₁ : σ} {as bs : List α}
    (hok : RunUnder step ok s as) (h : run step s as = some s₁) (hbs : RunUnder step ok s₁ bs) :
    RunUnder step ok s (as ++ bs) := by
  induction as generalizing s with
  | nil =>
    cases h
    exact hbs
  | cons a as ih =>
    obtain ⟨s₂, h₁, h₂⟩ := run_cons_eq_some.mp h
    refine ⟨hok.1, fun s' hs' => ?_⟩
    cases h₁.symm.trans hs'
    exact ih (hok.2 s₂ h₁) h₂

/-- A predicate that every possible step meeting `ok` keeps holds after every run whose steps
all meet `ok`. The induction is on the schedule, with the start state generalized. -/
theorem runUnder_induction {ok : σ → α → Prop} {I : σ → Prop}
    (hstep : ∀ s a s', I s → ok s a → step s a = some s' → I s') :
    ∀ (as : List α) (s s' : σ), I s → RunUnder step ok s as → run step s as = some s' → I s' := by
  intro as
  induction as with
  | nil =>
    intro s s' hI _ h
    cases h
    exact hI
  | cons a as ih =>
    intro s s' hI hok h
    obtain ⟨s₁, h₁, h₂⟩ := run_cons_eq_some.mp h
    exact ih s₁ s' (hstep s a s₁ hI hok.1 h₁) (hok.2 s₁ h₁) h₂

/-- A condition that the actions of the schedule meet in every state. -/
theorem runUnder_of_forall {ok : σ → α → Prop} (as : List α) (hok : ∀ s, ∀ a ∈ as, ok s a)
    (s : σ) : RunUnder step ok s as := by
  induction as generalizing s with
  | nil => exact trivial
  | cons a as ih =>
    exact ⟨hok s a List.mem_cons_self,
      fun s' _ => ih (fun s b hb => hok s b (List.mem_cons_of_mem a hb)) s'⟩

/-- A predicate that every possible step keeps holds after every run. -/
theorem run_induction {I : σ → Prop} (hstep : ∀ s a s', I s → step s a = some s' → I s')
    (as : List α) (s s' : σ) (hI : I s) (h : run step s as = some s') : I s' :=
  runUnder_induction (fun s a s' hI _ h => hstep s a s' hI h) as s s' hI
    (runUnder_of_forall as (fun _ _ _ => trivial) s) h

/-- A run on fixed inputs that can be evaluated, up to a property of its last state. -/
theorem exists_of_map_decide {o : Option σ} {P : σ → Prop} [∀ s, Decidable (P s)]
    (h : o.map (fun s => decide (P s)) = some true) : ∃ s, o = some s ∧ P s := by
  obtain ⟨s, hs, hP⟩ := Option.map_eq_some_iff.mp h
  exact ⟨s, hs, of_decide_eq_true hP⟩

/-! ### Programs without a schedule -/

/-- The state after `k` steps of a program that has one next step. -/
def runFor (next : σ → Option σ) : Nat → σ → Option σ
  | 0, s => some s
  | k + 1, s => (next s).bind (runFor next k)

/-- The last of `k + 1` steps. -/
theorem runFor_succ {next : σ → Option σ} (k : Nat) (s : σ) :
    runFor next (k + 1) s = (runFor next k s).bind next := by
  induction k generalizing s with
  | zero =>
    show (next s).bind some = (some s).bind next
    rw [Option.bind_some, Option.bind_fun_some]
  | succ k ih =>
    show (next s).bind (runFor next (k + 1)) = ((next s).bind (runFor next k)).bind next
    rw [Option.bind_assoc]
    exact congrArg _ (funext ih)

end

end Stacklets.Lib

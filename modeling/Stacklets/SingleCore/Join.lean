import Stacklets.SingleCore.Calls

/-!
# `Stacklets.SingleCore.Join`: what `mythread_join` returns, and who frees what

A finished child can reach its parent on three ways: the parent waits for it by name, the parent
waits for anyone, or the parent finds it later in its list of children. The record is freed on
each of them, by the child on the first two and by the parent on the third.

`join_correct` says that a value of `mythread_join(NULL)` is a finished child of the caller that
no join returned before, that no record is freed twice, and that no freed record is touched. It
holds for programs that join by name only threads whose records exist, that call
`mythread_join(NULL)` only while none of the children that it looks at was freed, and in which an
exiting thread meets no foreign thread that waits for anyone. The children list keeps freed
children, so the second condition fails for a parent that collects its children one by one
(`join_reads_freed`).
-/

set_option autoImplicit false

namespace Stacklets.SingleCore

open Lib

namespace State

/-- The condition on the calls of a program. A join by name is for a thread whose record was not
freed. `mythread_join(NULL)` is called while none of the children that it looks at was freed, up
to the first one that it may return. If a thread exits that is not detached and that nobody waits
for by name, then the first idle thread that waits for anyone, if there is one, is its parent. -/
def WellUsed (s : State) : Act → Prop
  | .join (some w) => w ∉ s.freed
  | .join none => ∀ c ∈ s.current, ∀ x ∈ s.scanned c, x ∉ s.freed
  | .exit => ∀ c ∈ s.current, (s.threads c).waiters = [] → (s.threads c).detachedBit = false →
      ∀ t ∈ s.anyone, (s.threads c).parent = some t
  | _ => True

/-- One call keeps the invariant. -/
theorem inv_step (s : State) (a : Act) (s' : State) (hI : s.Inv s.current none)
    (hok : s.WellUsed a) (hstep : s.step a = some s') : s'.Inv s'.current none := by
  rcases step_cases hstep with ⟨rfl, rfl⟩ | ⟨rfl, hcurrent, rfl⟩ | ⟨c, hcurrent, hcall⟩
  · exact hI.create
  · exact (hcurrent ▸ hI).scheduleNext
  · have hI' : s.Inv (some c) none := hcurrent ▸ hI
    rcases hcall with ⟨rfl, rfl⟩ | ⟨rfl, rfl⟩ | ⟨who, rfl, hlt, rfl⟩ | ⟨rfl, hexit | rfl⟩
    · exact hI'.yield
    · exact hcurrent ▸ hI'.detach
    · cases who with
      | none => exact hI'.joinAny hcurrent (hok c hcurrent)
      | some w => exact hI'.joinThread hcurrent hok (hlt w rfl)
    · exact hI'.exit (hok c hcurrent) hexit
    · exact hI.same ⟨rfl, rfl, rfl, rfl⟩ rfl rfl rfl

theorem inv_initial : initial.Inv none none where
  toKept := kept_initial
  records := fun t => ⟨nofun, nofun, nofun, fun _ => rfl, nofun, nofun⟩
  family := ⟨nofun, nofun⟩
  freedNodup := List.nodup_nil
  stale := rfl
  results := ⟨nofun, nofun, nofun, nofun, nofun, fun pre e post heq => by cases pre <;> cases heq⟩

/-- `mythread_join(NULL)` returns finished children of the caller that were not detached, each
once. No record is freed twice, and no freed record is read or written. This holds in all states
of all runs whose calls meet `WellUsed`. -/
theorem join_correct (as : List Act) (s : State) (hok : RunUnder step WellUsed initial as)
    (hrun : run step initial as = some s) : s.JoinsOk ∧ s.freed.Nodup ∧ s.stale = false := by
  have hI : s.Inv s.current none := runUnder_induction inv_step as initial s inv_initial hok hrun
  exact ⟨hI.results.joins, hI.freedNodup, hI.stale⟩

end State

/-- The test `checknull` with three children: the parent creates them and calls
`mythread_join(NULL)` three times, and the children exit at once. -/
def checknull : List Act :=
  [.create, .start, .create, .create, .create, .join none, .exit, .exit, .exit, .join none,
    .join none]

/-- The second join frees the newest child, and the third one reads its record again. -/
theorem join_reads_freed :
    ∃ s, run State.step State.initial checknull = some s ∧ s.stale = true := by
  have hstale : (run State.step State.initial checknull).map State.stale = some true := by
    decide +kernel
  exact Option.map_eq_some_iff.mp hstale

/-- A thread waits for anyone and gets its first child. It joins the second child by name. The
third one is detached and frees itself. -/
def oneByName : List Act :=
  [.create, .start, .create, .join none, .exit, .create, .join (some 2), .exit, .create, .yield,
    .detach, .exit]

instance (s : State) : ∀ a, Decidable (s.WellUsed a)
  | .join (some w) => inferInstanceAs (Decidable (w ∉ s.freed))
  | .join none =>
    inferInstanceAs (Decidable (∀ c ∈ s.current, ∀ x ∈ s.scanned c, x ∉ s.freed))
  | .exit => inferInstanceAs (Decidable (∀ c ∈ s.current, (s.threads c).waiters = [] →
      (s.threads c).detachedBit = false → ∀ t ∈ s.anyone, (s.threads c).parent = some t))
  | .create | .start | .yield | .detach => isTrue trivial

theorem join_correct_oneByName :
    ∃ s, run State.step State.initial oneByName = some s ∧
      s.joins = [⟨0, none, some 1⟩, ⟨0, some 2, some 2⟩] ∧ s.freed = [1, 2, 3] ∧
      s.JoinsOk ∧ s.freed.Nodup ∧ s.stale = false := by
  have hok : RunUnder State.step State.WellUsed State.initial oneByName := by
    decide +kernel
  have h : (run State.step State.initial oneByName).map (fun s =>
      (s.joins = [⟨0, none, some 1⟩, ⟨0, some 2, some 2⟩] ∧ s.freed = [1, 2, 3] : Bool)) =
        some true := by
    decide +kernel
  obtain ⟨s, hrun, hs⟩ := Option.map_eq_some_iff.mp h
  have hs := of_decide_eq_true hs
  exact ⟨s, hrun, hs.1, hs.2, State.join_correct oneByName s hok hrun⟩

end Stacklets.SingleCore

import Mathlib.Data.Nat.Find
import Stacklets.Lib.Runs

/-!
# `Stacklets.Lib.Fair`: what happens under every fair schedule

`Stacklets.Lib.Runs` is about finite schedules. Here a schedule is infinite: a function that says
whose turn it is at every moment. A thread that cannot move at its turn waits, so the state stays
as it is. A schedule is fair if every thread gets a turn again and again.

`eventually_of_rank` is the rule for liveness. It asks for a rank that no step raises, and for a
helpful thread in every state short of the goal. A step of the helpful thread lowers the rank. A
step of another thread lowers the rank, or leaves the helpful thread helpful.
-/

set_option autoImplicit false

namespace Stacklets.Lib

section
variable {σ α : Type*}

/-- The state after the first turns of an infinite schedule. -/
def turns (step : σ → α → Option σ) (s : σ) (sched : Nat → α) : Nat → σ
  | 0 => s
  | k + 1 => (step (turns step s sched k) (sched k)).getD (turns step s sched k)

/-- Everybody gets a turn again and again. -/
def Fair (sched : Nat → α) : Prop := ∀ a k, ∃ m, k ≤ m ∧ sched m = a

/-- The schedule that gives everybody a turn in order. -/
theorem fair_ofNat (n : Nat) [NeZero n] : Fair fun k => Fin.ofNat n k := by
  intro t k
  refine ⟨k * n + t, ?_, Fin.ext ?_⟩
  · exact Nat.le_trans (Nat.le_mul_of_pos_right k (Nat.pos_of_neZero n)) (Nat.le_add_right _ _)
  · show (k * n + t) % n = t
    rw [Nat.mul_add_mod_self_right, Nat.mod_eq_of_lt t.isLt]

section
variable (step : σ → α → Option σ) (s : σ) (sched : Nat → α)

/-- One more turn is a step, or nothing happens. -/
theorem turns_succ (k : Nat) :
    step (turns step s sched k) (sched k) = some (turns step s sched (k + 1)) ∨
      turns step s sched (k + 1) = turns step s sched k := by
  show step (turns step s sched k) (sched k)
    = some ((step (turns step s sched k) (sched k)).getD (turns step s sched k)) ∨ _
  cases h : step (turns step s sched k) (sched k) with
  | none => exact .inr (by rw [turns, h]; rfl)
  | some s' => exact .inl rfl

/-- The states of an infinite schedule are those of the finite ones. -/
theorem exists_run_turns (k : Nat) : ∃ as, run step s as = some (turns step s sched k) := by
  induction k with
  | zero => exact ⟨[], rfl⟩
  | succ k ih =>
    obtain ⟨as, has⟩ := ih
    rcases turns_succ step s sched k with hstep | hstay
    · refine ⟨as ++ [sched k], ?_⟩
      rw [run_append has, run_cons, hstep]
      rfl
    · exact ⟨as, by rw [hstay]; exact has⟩

end

variable {step : σ → α → Option σ} {s : σ} {sched : Nat → α}
  {I done : σ → Prop} {helpful : σ → α → Prop} {rank : σ → Nat}

/-- A thread that is helpful now is helpful at its next turn, unless the rank has dropped before. -/
theorem helpful_or_lower
    (hrank : ∀ s a s', I s → step s a = some s' → rank s' ≤ rank s)
    (hkeep : ∀ s a b s', I s → helpful s a → b ≠ a → step s b = some s' →
      rank s' < rank s ∨ helpful s' a)
    (hI : ∀ k, I (turns step s sched k)) {a : α} {k : Nat}
    (ha : helpful (turns step s sched k) a) (m : Nat) (hm : ∀ j, k ≤ j → j < k + m → sched j ≠ a) :
    rank (turns step s sched (k + m)) < rank (turns step s sched k) ∨
      (helpful (turns step s sched (k + m)) a ∧
        rank (turns step s sched (k + m)) ≤ rank (turns step s sched k)) := by
  induction m with
  | zero => exact .inr ⟨ha, Nat.le_refl _⟩
  | succ m ih =>
    -- the last of these turns belongs to somebody else, who may have to wait
    have hm' := hm (k + m) (by omega) (by omega)
    rcases turns_succ step s sched (k + m) with hstep | hstay
    · have hle := hrank _ _ _ (hI (k + m)) hstep
      rcases ih fun j hj hlt => hm j hj (by omega) with hlow | ⟨hhelp, hsame⟩
      · exact .inl (Nat.lt_of_le_of_lt hle hlow)
      · rcases hkeep _ _ _ _ (hI (k + m)) hhelp hm' hstep with hlow | hhelp'
        · exact .inl (Nat.lt_of_lt_of_le hlow hsame)
        · exact .inr ⟨hhelp', Nat.le_trans hle hsame⟩
    · rw [← Nat.add_assoc, hstay]
      exact ih fun j hj hlt => hm j hj (by omega)

/-- Under a fair schedule the goal is reached. The induction is on the rank: up to the first turn
of the helpful thread the rank drops or the thread stays helpful, and then its own step lowers
the rank. -/
theorem eventually_of_rank (I done : σ → Prop) (helpful : σ → α → Prop) (rank : σ → Nat)
    (hstep : ∀ s a s', I s → step s a = some s' → I s')
    (hrank : ∀ s a s', I s → step s a = some s' → rank s' ≤ rank s)
    (hhelp : ∀ s, I s → ¬ done s → ∃ a, helpful s a)
    (hmove : ∀ s a, I s → helpful s a → ∃ s', step s a = some s' ∧ rank s' < rank s)
    (hkeep : ∀ s a b s', I s → helpful s a → b ≠ a → step s b = some s' →
      rank s' < rank s ∨ helpful s' a)
    (hfair : Fair sched) (h₀ : I s) : ∃ k, done (turns step s sched k) := by
  have hI : ∀ k, I (turns step s sched k) := fun k => by
    obtain ⟨as, has⟩ := exists_run_turns step s sched k
    exact run_induction hstep as _ _ h₀ has
  suffices hmain : ∀ r k, rank (turns step s sched k) = r → ∃ k, done (turns step s sched k) from
    hmain _ 0 rfl
  intro r
  induction r using Nat.strongRecOn with
  | ind r ih =>
    rintro k rfl
    by_cases hdone : done (turns step s sched k)
    · exact ⟨k, hdone⟩
    obtain ⟨a, ha⟩ := hhelp _ (hI k) hdone
    -- the first turn of the helpful thread from now on
    have hturn : ∃ m, sched (k + m) = a := by
      obtain ⟨m, hm, hsched⟩ := hfair a k
      exact ⟨m - k, by rw [Nat.add_sub_cancel' hm, hsched]⟩
    classical
    have hfirst : ∀ j, k ≤ j → j < k + Nat.find hturn → sched j ≠ a := by
      intro j hj hlt he
      refine Nat.find_min hturn (m := j - k) (by omega) ?_
      rw [Nat.add_sub_cancel' hj, he]
    rcases helpful_or_lower hrank hkeep hI ha _ hfirst with hlow | ⟨hhelp', hsame⟩
    · exact ih _ hlow _ rfl
    · -- nothing has dropped before its turn, so its own step does it
      obtain ⟨s', hs', hlow⟩ := hmove _ _ (hI _) hhelp'
      refine ih _ ?_ (k + Nat.find hturn + 1) rfl
      rw [turns, Nat.find_spec hturn, hs']
      exact Nat.lt_of_lt_of_le hlow hsame

end

end Stacklets.Lib

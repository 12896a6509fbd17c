import Mathlib.Algebra.BigOperators.Fin
import Mathlib.Logic.Function.Basic

/-!
# `Stacklets.Lib.Ledger`: what processes that send messages hold together

Finitely many processes, each with a local state. One step of a process replaces its own local
state and may post a message to some process. A weight says how many things of one kind a local
state holds, and `total` adds them up. `total_step` is the balance of a step: what the process
held before, against what it holds afterwards and what it has posted. So a conservation law of
the whole system comes down to an equation about one local state.

`forall_step` is the same for a property that every local state has.
-/

set_option autoImplicit false

namespace Stacklets.Lib

open Function (update update_self update_of_ne)

section
variable {ι α μ : Type*}

/-- The message in `sent`, if there is one, reaches its target. -/
def post [DecidableEq ι] (put : α → μ → α) (c : ι → α) : Option (ι × μ) → ι → α
  | none => c
  | some (x, msg) => update c x (put (c x) msg)

/-- What the message in `sent` weighs. -/
def postWeight (g : ι → μ → Nat) : Option (ι × μ) → Nat
  | none => 0
  | some (x, msg) => g x msg

variable [DecidableEq ι] {put : α → μ → α} {c : ι → α} {sent : Option (ι × μ)} {t : ι} {a : α}

/-- A property of the local states that the new state of `t` has, and that the message keeps. -/
theorem forall_step {P : ι → α → Prop} (h : ∀ u, P u (c u)) (ht : P t a)
    (hsent : ∀ x msg, sent = some (x, msg) → ∀ b, P x b → P x (put b msg)) (u : ι) :
    P u (post put (update c t a) sent u) := by
  have hown : ∀ u, P u (update c t a u) := by
    intro u
    by_cases hu : u = t
    · rw [hu, update_self]
      exact ht
    · rw [update_of_ne hu]
      exact h u
  match sent, hsent with
  | none, _ => exact hown u
  | some (x, msg), hsent =>
    show P u (update (update c t a) x _ u)
    by_cases hu : u = x
    · rw [hu, update_self]
      exact hsent x msg rfl _ (hown x)
    · rw [update_of_ne hu]
      exact hown u

/-- A message changes nothing that the delivery does not touch. -/
theorem post_congr {β : Type*} (c : ι → α) (sent : Option (ι × μ)) (f : α → β)
    (hf : ∀ b msg, f (put b msg) = f b) (u : ι) : f (post put c sent u) = f (c u) := by
  match sent with
  | none => rfl
  | some (x, msg) =>
    show f (update c x _ u) = _
    by_cases hu : u = x
    · rw [hu, update_self, hf]
    · rw [update_of_ne hu]

variable [Fintype ι] {w : ι → α → Nat} {g : ι → μ → Nat}

/-- What the processes hold together. -/
def total (w : ι → α → Nat) (c : ι → α) : Nat := ∑ u, w u (c u)

/-- The total changes by what the updated process holds. -/
theorem total_update : total w (update c t a) + w t (c t) = total w c + w t a := by
  have hrest : ∑ u ∈ Finset.univ.erase t, w u (update c t a u) =
      ∑ u ∈ Finset.univ.erase t, w u (c u) :=
    Finset.sum_congr rfl fun u hu => by rw [update_of_ne (Finset.ne_of_mem_erase hu)]
  unfold total
  rw [← Finset.add_sum_erase _ _ (Finset.mem_univ t), hrest, update_self,
    ← Finset.add_sum_erase _ (fun u => w u (c u)) (Finset.mem_univ t)]
  omega

/-- The balance of a step of `t`, when a message adds its weight to its target. -/
theorem total_step (hput : ∀ u b msg, w u (put b msg) = w u b + g u msg) :
    total w (post put (update c t a) sent) + w t (c t) =
      total w c + w t a + postWeight g sent := by
  match sent with
  | none => exact total_update
  | some (x, msg) =>
    have hown := total_update (w := w) (c := c) (t := t) (a := a)
    have hmsg := total_update (w := w) (c := update c t a) (t := x)
      (a := put (update c t a x) msg)
    rw [hput] at hmsg
    show total w (update _ x _) + _ = _ + _ + g x msg
    omega

end

end Stacklets.Lib

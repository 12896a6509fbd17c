import Mathlib.Algebra.BigOperators.Group.Finset.Basic
import Stacklets.Lib.Runs
import Stacklets.LazyYield.Calls

/-!
# `Stacklets.LazyYield.Correctness`: `startfib` is right for every yield schedule

Every step of the program that has not returned to `startfib` keeps the invariant and leaves less
to do (`Inv.step`). The call tree of `fib(n)` is finite, so the program returns (`exists_returned`).

`suspend` never runs into two empty queues (`Inv.not_empty`). A call that is on its way has a
child on its way, or waits in one of the queues, and there is no infinite path down the tree.

The result is right up to the width of an `int`: `fib(47)` is the first that does not fit.
-/

set_option autoImplicit false

namespace Stacklets.LazyYield

open Lib
open LazyFork (FooPtr Foo Status aboveFrame inputOf fibValue InTree fibValue_eq_fib
  fibValue_lt toInt_ofNat_eq_iff)

section
variable {n : Int} {s s' : State} {φ φ' : FooPtr → Phase} {F : FooPtr} {oracle : Nat → Bool}

/-! ### `suspend` finds something to do -/

/-- A call on its way, with the program in `suspend`, leads to something in a queue. The induction
is on the argument, from a call to a child that is on its way. -/
theorem Inv.waits (h : Inv n s φ) (hpc : s.pc = .suspend) :
    ∀ (k : Nat) (F : FooPtr), (inputOf n F).toNat ≤ k → (φ F).status = .active →
      ∃ G, φ G = .first ∨ φ G = .yielded := by
  have hidle : ∀ G, ¬(φ G).Control := fun G hc => by
    have := h.control.holder G hc
    unfold State.holder at this
    rw [hpc] at this
    cases this
  -- descend from an active frame to one that waits in a queue, by the size of its input
  intro k
  induction k with
  | zero =>
    intro F hk hactive
    by_cases hbig : (φ F).Big
    · have := (h.nodes F).big hbig
      omega
    · have hcontrol := hidle F
      cases hF : φ F <;> simp [hF] at hactive hbig hcontrol
  | succ k ih =>
    intro F hk hactive
    have hcontrol := hidle F
    have hfits := (h.nodes F).fits
    have hbig : (φ F).Big → (inputOf n F - 1).toNat ≤ k ∧ (inputOf n F - 2).toNat ≤ k := by
      intro hb
      have := (h.nodes F).big hb
      omega
    cases hF : φ F with
    | first => exact ⟨F, Or.inl hF⟩
    | yielded => exact ⟨F, Or.inr hF⟩
    | second =>
      rw [hF] at hfits
      exact ih (.b F) (hbig (by simp [hF])).2 hfits.2
    | stolen x y =>
      rw [hF] at hfits
      obtain ⟨hxy, ha, hb⟩ := hfits
      cases x with
      | false => exact ih (.a F) (hbig (by simp [hF])).1 ha
      | true =>
        cases y with
        | false => exact ih (.b F) (hbig (by simp [hF])).2 hb
        | true => exact absurd ⟨rfl, rfl⟩ hxy
    | _ => simp [hF] at hactive hcontrol

theorem Inv.not_empty (h : Inv n s φ) (hpc : s.pc = .suspend) :
    s.seedHead ≠ none ∨ s.readyQ.front ≠ none := by
  have hactive : (φ .root).status = .active := by
    cases hp : φ .root with
    | idle => exact absurd hp h.root.1
    | ended => exact absurd hp h.root.2
    | _ => rfl
  obtain ⟨G, hG⟩ := h.waits hpc _ .root (Nat.le_refl _) hactive
  rcases hG with hG | hG
  · obtain ⟨l, hl, hmem⟩ := h.queues.seeds
    refine Or.inl fun hnone => ?_
    have hempty := (IsDList.back_eq_none_iff hl).mp hnone
    have hin := (hmem G).mpr hG
    rw [hempty] at hin
    cases hin
  · obtain ⟨r, hr, _, hrmem⟩ := h.queues.ready
    refine Or.inr fun hnone => ?_
    cases r with
    | nil => cases (hrmem G).mpr hG
    | cons F r =>
      obtain ⟨i, hi, _⟩ := hr.front
      rw [hnone] at hi
      cases hi

/-! ### Steps -/

theorem step_start (hpc : s.pc = .start F) :
    step oracle s =
      if (s.foos F).input ≤ 2 then some ((s.setOutput F 1).ret F)
      else if oracle s.asked then some ({ s with asked := s.asked + 1 }.yield F)
      else some ({ s with asked := s.asked + 1 }.fork F) := by
  simp only [step, hpc]

/-- Every step keeps the invariant and leaves less to do. -/
theorem Inv.step (oracle : Nat → Bool) (h : Inv n s φ) (hpc : s.pc ≠ .returned) :
    ∃ s' φ', step oracle s = some s' ∧ Inv n s' φ' ∧ Lower φ φ' := by
  cases hp : s.pc with
  | start F =>
    rw [step_start hp]
    obtain ⟨hholder, -, hF, hstub⟩ := h.at_start hp
    obtain ⟨ha, hb⟩ := h.kids_idle (Or.inl hF)
    by_cases hinput : (s.foos F).input ≤ 2
    · refine ⟨_, _, if_pos hinput, h.leaf hp hinput, F, _, _, _, by simp [hF], rfl, ?_⟩
      simp [hF, ha, hb]
    · have hbig : 2 < inputOf n F := by
        rw [← (h.nodes F).input (by simp [hF])]
        omega
      rw [if_neg hinput]
      by_cases hyield : oracle s.asked = true
      · refine ⟨_, _, if_pos hyield, h.yield hp hinput, F, _, _, _, by simp [hF], rfl, ?_⟩
        simp [hF, ha, hb]
      · have hsame : Inv n { s with asked := s.asked + 1 } φ :=
          h.same rfl rfl rfl rfl rfl rfl rfl ⟨rfl, rfl⟩
            ⟨h.control.holder, h.control.held, h.control.pcOk⟩
        refine ⟨_, _, if_neg hyield, hsame.fork (F := F) ?_ (Or.inl hF) hstub hbig,
          F, _, _, _, by simp [hF], rfl, ?_⟩
        · rw [hF]
          exact hholder
        · simp [hF, ha, hb]
  | resume F =>
    obtain ⟨hF, -, hinv⟩ := h.resume hp
    obtain ⟨ha, hb⟩ := h.kids_idle (Or.inr hF)
    refine ⟨_, _, by simp only [LazyYield.step, hp], hinv, F, _, _, _, by simp [hF], rfl, ?_⟩
    simp [hF, ha, hb]
  | afterA F =>
    obtain ⟨hholder, -, ha, -⟩ := h.at_afterA hp
    have hfits := (h.nodes F).fits
    have hframe := (h.nodes F).frame
    rw [ha] at hfits
    cases hF : φ F with
    | first =>
      rw [hF] at hframe hfits
      have hb : φ (.b F) = .idle := Phase.eq_idle_of_status hfits.2
      refine ⟨_, _, by simp only [LazyYield.step, hp, hframe.1], h.firstChildDoneNormally hp hF,
        F, _, _, _, by simp [hF], rfl, ?_⟩
      simp [hF, ha, hb]
    | stolen x y =>
      rw [hF] at hframe hfits
      obtain rfl : x = false := by
        cases x with
        | false => rfl
        | true => exact absurd hfits.2.1 nofun
      obtain ⟨φ', hinv, hlower⟩ := h.firstChildDone hp hF
      exact ⟨_, φ', by simp only [LazyYield.step, hp, hframe.1], hinv, hlower⟩
    | taken =>
      -- a taken seed has the control with its thief
      have := (h.control.holder F (by simp [hF])).symm.trans hholder
      exact absurd (Prod.mk.inj (Option.some.inj this)).1 (ne_a F)
    | _ => simp [hF] at hfits
  | afterB F =>
    obtain ⟨-, hb, hF, -⟩ := h.at_afterB hp
    refine ⟨_, _, by simp only [LazyYield.step, hp], h.afterB hp, F, _, _, _, by simp [hF], rfl,
      ?_⟩
    rw [hF, hb]
    show 2 + 0 + 0 < 4 + (φ (.a F)).weight + 2
    omega
  | secondChildSteal F =>
    have hholder : s.holder = some (F, .taken) := by
      unfold State.holder
      rw [hp]
    have hF := h.control.held _ _ hholder
    have hfits := (h.nodes F).fits
    rw [hF] at hfits
    have hb : φ (.b F) = .idle := Phase.eq_idle_of_status hfits.2
    refine ⟨_, _, by simp only [LazyYield.step, hp], h.secondChildSteal hp, F, _, _, _,
      by simp [hF], rfl, ?_⟩
    rw [hF, hb]
    show 5 + (φ (.a F)).weight + 12 < 7 + (φ (.a F)).weight + 13
    omega
  | secondChildDone F =>
    obtain ⟨φ', hinv, hlower⟩ := h.secondChildDone hp
    exact ⟨_, φ', by simp only [LazyYield.step, hp], hinv, hlower⟩
  | stubRoutine =>
    obtain ⟨φ', hinv, hlower⟩ := h.stubRoutine hp
    exact ⟨_, φ', by simp only [LazyYield.step, hp], hinv, hlower⟩
  | suspend =>
    -- a seed first, else a ready thread; one of the two is there
    have hsuspend : ∃ φ', Inv n s.suspend φ' ∧ Lower φ φ' := by
      cases hhead : s.seedHead with
      | some F => exact h.suspend_seed hp hhead
      | none =>
        cases hfront : s.readyQ.front with
        | some i => exact h.suspend_ready hp hhead hfront
        | none =>
          rcases h.not_empty hp with hne | hne
          · exact absurd hhead hne
          · exact absurd hfront hne
    obtain ⟨φ', hinv, hlower⟩ := hsuspend
    exact ⟨_, φ', by simp only [LazyYield.step, hp], hinv, hlower⟩
  | returned => exact absurd hp hpc
  | wild =>
    have := h.control.pcOk
    unfold State.PcOk at this
    rw [hp] at this
    exact this.elim

/-! ### Termination -/

/-- The nodes of a binary tree down to a depth. -/
def nodes : Nat → Finset FooPtr
  | 0 => {.root}
  | k + 1 => insert .root ((nodes k).image .a ∪ (nodes k).image .b)

theorem mem_nodes {k : Nat} (h : F.depth ≤ k) : F ∈ nodes k := by
  induction k generalizing F with
  | zero =>
    cases F with
    | root => exact Finset.mem_singleton_self _
    | a F | b F => exact absurd h (Nat.not_succ_le_zero _)
  | succ k ih =>
    unfold nodes
    cases F with
    | root => exact Finset.mem_insert_self ..
    | a F | b F =>
      have hF := ih (Nat.le_of_succ_le_succ h)
      simp [hF]

/-- A node of the call tree is not deeper than its argument is small. -/
theorem InTree.depth_le (h : InTree n F) : inputOf n F + F.depth ≤ n ∧ F.depth ≤ n.toNat := by
  induction h with
  | root => simp [FooPtr.depth]
  | a hF hbig ih | b hF hbig ih =>
    simp only [inputOf, FooPtr.depth]
    omega

/-- How much is left to do in the whole tree. -/
def remaining (n : Int) (φ : FooPtr → Phase) : Nat :=
  ∑ F ∈ nodes (n.toNat + 1), (φ F).weight

theorem remaining_lt (h : Inv n s φ) (hlower : Lower φ φ') : remaining n φ' < remaining n φ := by
  obtain ⟨F, p, a, b, hF, rfl, hlt⟩ := hlower
  have hdepth := (InTree.depth_le ((h.nodes F).tree hF)).2
  have hmemF : F ∈ nodes (n.toNat + 1) := mem_nodes (by omega)
  have hmemA : FooPtr.a F ∈ nodes (n.toNat + 1) := mem_nodes (Nat.succ_le_succ hdepth)
  have hmemB : FooPtr.b F ∈ nodes (n.toNat + 1) := mem_nodes (Nat.succ_le_succ hdepth)
  have hne : FooPtr.b F ≠ .a F := nofun
  -- The three nodes are taken out of both sums, and the rest of the sums is the same.
  have hsplit : ∀ f : FooPtr → Nat, ∑ G ∈ nodes (n.toNat + 1), f G =
      f F + (f (.a F) + (f (.b F) +
        ∑ G ∈ (((nodes (n.toNat + 1)).erase F).erase (.a F)).erase (.b F), f G)) := by
    intro f
    rw [← Finset.add_sum_erase _ f hmemF,
      ← Finset.add_sum_erase _ f (Finset.mem_erase.mpr ⟨(ne_a F).symm, hmemA⟩),
      ← Finset.add_sum_erase _ f
        (Finset.mem_erase.mpr ⟨hne, Finset.mem_erase.mpr ⟨(ne_b F).symm, hmemB⟩⟩)]
  have hrest : ∑ G ∈ (((nodes (n.toNat + 1)).erase F).erase (.a F)).erase (.b F),
      (reshape φ F p a b G).weight =
        ∑ G ∈ (((nodes (n.toNat + 1)).erase F).erase (.a F)).erase (.b F), (φ G).weight := by
    refine Finset.sum_congr rfl fun G hG => ?_
    simp only [Finset.mem_erase] at hG
    rw [reshape_off ⟨hG.2.2.1, hG.2.1, hG.1⟩]
  unfold remaining
  rw [hsplit, hsplit fun G => (φ G).weight, hrest, reshape_self, reshape_a, reshape_b]
  omega

theorem Inv.runFor {k : Nat} : ∀ {s : State} {φ : FooPtr → Phase}, Inv n s φ →
    Lib.runFor (LazyYield.step oracle) k s = some s' → ∃ φ', Inv n s' φ' := by
  induction k with
  | zero =>
    intro s φ h hrun
    cases hrun
    exact ⟨φ, h⟩
  | succ k ih =>
    intro s φ h hrun
    obtain ⟨t, ht, hrun⟩ := Option.bind_eq_some_iff.mp hrun
    by_cases hpc : s.pc = .returned
    · unfold LazyYield.step at ht
      rw [hpc] at ht
      cases ht
    · obtain ⟨t', φ', ht', hinv, _⟩ := h.step oracle hpc
      rw [ht] at ht'
      cases ht'
      exact ih hinv hrun

/-- The program returns to `startfib`. The induction is on what is left to do. -/
theorem Inv.returns (oracle : Nat → Bool) : ∀ (m : Nat) {s : State} {φ : FooPtr → Phase},
    Inv n s φ → remaining n φ ≤ m →
      ∃ k s' φ', Lib.runFor (LazyYield.step oracle) k s = some s' ∧ Inv n s' φ' ∧
        s'.pc = .returned := by
  intro m
  induction m with
  | zero =>
    intro s φ h hm
    by_cases hpc : s.pc = .returned
    · exact ⟨0, s, φ, rfl, h, hpc⟩
    · obtain ⟨s', φ', _, _, hlower⟩ := h.step oracle hpc
      have := remaining_lt h hlower
      omega
  | succ m ih =>
    intro s φ h hm
    by_cases hpc : s.pc = .returned
    · exact ⟨0, s, φ, rfl, h, hpc⟩
    · obtain ⟨t, φ', ht, hinv, hlower⟩ := h.step oracle hpc
      have hlt := remaining_lt h hlower
      obtain ⟨k, s', φ'', hrun, hinv', hret⟩ := ih hinv (by omega)
      refine ⟨k + 1, s', φ'', ?_, hinv', hret⟩
      show (LazyYield.step oracle s).bind (Lib.runFor (LazyYield.step oracle) k) = some s'
      rw [ht]
      exact hrun

/-! ### The end of a run -/

/-- When the program is back in `startfib`, no call has a frame. -/
theorem Inv.not_live (h : Inv n s φ) (hpc : s.pc = .returned) : ∀ F, ¬(φ F).Live := by
  have hroot : φ .root = .back := by
    refine h.control.held .root .back ?_
    unfold State.holder
    rw [hpc]
  intro F
  induction F with
  | root => simp [hroot]
  | a F ih => exact fun hlive => ih (h.live_caller (Or.inl rfl) hlive.status_eq)
  | b F ih => exact fun hlive => ih (h.live_caller (Or.inr rfl) hlive.status_eq)

theorem Inv.queues_empty (h : Inv n s φ) (hpc : s.pc = .returned) :
    s.seedHead = none ∧ s.readyQ.front = none := by
  have hnot := h.not_live hpc
  constructor
  · obtain ⟨l, hl, hmem⟩ := h.queues.seeds
    cases l with
    | nil => exact hl.back_eq
    | cons F l =>
      have hF := (hmem F).mp List.mem_cons_self
      exact absurd (by simp [hF]) (hnot F)
  · obtain ⟨r, hr, _, hrmem⟩ := h.queues.ready
    cases r with
    | nil => exact hr.front_eq_none
    | cons F r =>
      have hF := (hrmem F).mp List.mem_cons_self
      exact absurd (by simp [hF]) (hnot F)

theorem Inv.all_freed (h : Inv n s φ) (hpc : s.pc = .returned) (x : FooPtr) :
    s.frees x = s.forks x ∧ s.forks x ≤ 1 := by
  cases x with
  | root =>
    have := h.stacklets .root nofun
    omega
  | a F =>
    have := h.stacklets (.a F) nofun
    omega
  | b F =>
    refine (h.nodes F).offStacklet fun hon => ?_
    have hnot := h.not_live hpc F
    cases hF : φ F with
    | stolen x y => exact hnot (by simp [hF])
    | _ => simp [hF] at hon

/-- `startfib` returns, and what it leaves behind. -/
theorem exists_returned (n : Int) (oracle : Nat → Bool) :
    ∃ k s, runFor (step oracle) k (initial n) = some s ∧ s.pc = .returned ∧
      (s.foos .root).output = BitVec.ofNat 32 (fibValue n) ∧
      (s.seedHead = none ∧ s.readyQ.front = none) ∧
      ∀ x, s.frees x = s.forks x ∧ s.forks x ≤ 1 := by
  obtain ⟨k, s, φ, hrun, h, hpc⟩ := (inv_initial n).returns oracle _ (Nat.le_refl _)
  have hroot : φ .root = .back := by
    refine h.control.held .root .back ?_
    unfold State.holder
    rw [hpc]
  exact ⟨k, s, hrun, hpc, (h.nodes .root).output (by simp [hroot]), h.queues_empty hpc,
    h.all_freed hpc⟩

/-! ### The width of the result -/

/-- The lazy-fork runtime is right for every yield schedule. For every `n` and every oracle,
`startfib(n)` returns `F(n)` in the arithmetic of an `int`, which is `F(n)` itself up to `46`. At
the end both queues are empty and every forked stacklet has been freed, exactly once. `suspend` is
never entered with both queues empty. -/
theorem startfib_correct (n : Int) (oracle : Nat → Bool) :
    (∃ k s, runFor (step oracle) k (initial n) = some s ∧ s.pc = .returned ∧
      (s.foos .root).output = BitVec.ofNat 32 (fibValue n) ∧
      (n ≤ 46 → (s.foos .root).output.toInt = fibValue n) ∧
      s.seedHead = none ∧ s.readyQ.front = none ∧
      ∀ x, s.frees x = s.forks x ∧ s.forks x ≤ 1) ∧
    ∀ k s, runFor (step oracle) k (initial n) = some s → s.pc = .suspend →
      s.seedHead ≠ none ∨ s.readyQ.front ≠ none := by
  refine ⟨?_, fun k s hrun hpc => ?_⟩
  · obtain ⟨k, s, hrun, hpc, hout, hempty, hfreed⟩ := exists_returned n oracle
    refine ⟨k, s, hrun, hpc, hout, fun hn => ?_, hempty.1, hempty.2, hfreed⟩
    rw [hout, toInt_ofNat_eq_iff.mpr (fibValue_lt hn)]
  · obtain ⟨φ, h⟩ := (inv_initial n).runFor hrun
    exact h.not_empty hpc

/-- `F(47)` does not fit into an `int`, and `startfib(47)` returns something else. -/
theorem startfib_overflows :
    ∃ k s, runFor (step fun _ => false) k (initial 47) = some s ∧ s.pc = .returned ∧
      (s.foos .root).output.toInt ≠ fibValue 47 := by
  obtain ⟨k, s, hrun, hpc, hout, _⟩ := exists_returned 47 fun _ => false
  refine ⟨k, s, hrun, hpc, ?_⟩
  have hvalue : fibValue 47 = Nat.fib 47 := fibValue_eq_fib 47
  have hfib : Nat.fib 47 = 2971215073 := by decide +kernel
  rw [hout, hvalue, hfib]
  decide

end

end Stacklets.LazyYield

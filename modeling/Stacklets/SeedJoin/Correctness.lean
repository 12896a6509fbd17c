import Stacklets.SeedJoin.Refinement

/-!
# `Stacklets.SeedJoin.Correctness`: each seed is joined exactly once

Every run of the first version goes along with a run of the later one (`runs_together`), and what
is left to do gets less with every step, so the program returns to `startfib`.

The history of a seed follows from its stage. A seed that the next step uses is in the seed stack,
so it was pushed and not popped: nothing reads a seed behind its `popSeed`.
-/

set_option autoImplicit false

namespace Stacklets.SeedJoin

open Lib
open LazyFork (FooPtr fibValue)
open LazyYield (Phase Inv remaining SeedStackIs)

section
variable {n : Int} {oracle : Nat → Bool} {s s' : State} {t t' : LazyYield.State}
  {φ : FooPtr → Phase} {F : FooPtr} {m : Nat}

/-! ### Runs -/

/-- The two versions start alike. -/
theorem sim_initial (n : Int) :
    Sim (initial n) (LazyYield.initial n) (fun F => if F = .root then .entered else .idle) 0 := by
  have hstage : ∀ F, stageOf (fun F => if F = .root then Phase.entered else .idle) F =
      .unpushed := by
    intro F
    show stage (if F = .root then .entered else .idle) _ = _
    split <;> rfl
  exact
    { same := ⟨rfl, rfl, rfl, rfl, rfl, rfl⟩
      seeds := fun F => by
        rw [hstage]
        rfl
      list := ⟨[], ⟨LazyYield.seedStackIs_nil, LazyYield.seedStackIs_nil, fun F => by
        rw [hstage]
        exact iff_of_false List.not_mem_nil id⟩, trivial⟩
      pc := rfl
      stubBase := fun _ => rfl
      ready := rfl
      last := fun F hF => by cases hF }

theorem Answers.trans {t'' : LazyYield.State} (h : Answers oracle t t')
    (h' : Answers oracle t' t'') : Answers oracle t t'' := by
  obtain ⟨j, hj⟩ := h
  obtain ⟨i, hi⟩ := h'
  refine ⟨j + i, ?_⟩
  induction j generalizing t with
  | zero =>
    cases hj
    rw [Nat.zero_add]
    exact hi
  | succ j ih =>
    obtain ⟨r, hr, hj⟩ := Option.bind_eq_some_iff.mp hj
    rw [Nat.succ_add]
    show (LazyYield.step oracle t).bind (Lib.runFor (LazyYield.step oracle) (j + i)) = some t''
    rw [hr]
    exact ih hj

/-- A run from related states leads to related states. -/
theorem Sim.runFor {k : Nat} : ∀ {s : State} {t : LazyYield.State} {φ : FooPtr → Phase} {m : Nat},
    Inv n t φ → Sim s t φ m → Lib.runFor (SeedJoin.step oracle) k s = some s' →
      ∃ t' φ' m', Answers oracle t t' ∧ Inv n t' φ' ∧ Sim s' t' φ' m' := by
  induction k with
  | zero =>
    intro s t φ m hinv h hrun
    cases hrun
    exact ⟨t, φ, m, ⟨0, rfl⟩, hinv, h⟩
  | succ k ih =>
    intro s t φ m hinv h hrun
    obtain ⟨r, hr, hrun⟩ := Option.bind_eq_some_iff.mp hrun
    by_cases hpc : s.pc = .returned
    · unfold SeedJoin.step at hr
      rw [hpc] at hr
      cases hr
    · obtain ⟨r', hr', t₁, φ₁, m₁, hanswers, hinv₁, hsim₁, -⟩ := h.step oracle hinv hpc
      rw [hr] at hr'
      cases hr'
      obtain ⟨t', φ', m', hanswers', hinv', hsim'⟩ := ih hinv₁ hsim₁ hrun
      exact ⟨t', φ', m', hanswers.trans hanswers', hinv', hsim'⟩

/-- Every run of the first version goes along with a run of the later one, with the same oracle. -/
theorem runs_together {k : Nat} (hrun : runFor (step oracle) k (initial n) = some s) :
    ∃ t φ m, Answers oracle (LazyYield.initial n) t ∧ Inv n t φ ∧ Sim s t φ m :=
  (sim_initial n).runFor (LazyYield.inv_initial n) hrun

/-- The program returns. The induction is on what is left to do in the tree, and then on the turns
that are left in `suspend`. -/
theorem Sim.returns (oracle : Nat → Bool) : ∀ (r m : Nat) {s : State} {t : LazyYield.State}
    {φ : FooPtr → Phase}, Inv n t φ → Sim s t φ m → remaining n φ = r →
      ∃ k s' t' φ' m', Lib.runFor (SeedJoin.step oracle) k s = some s' ∧ s'.pc = .returned ∧
        Inv n t' φ' ∧ Sim s' t' φ' m' := by
  intro r
  induction r using Nat.strong_induction_on with
  | _ r ihr =>
    intro m
    induction m using Nat.strong_induction_on with
    | _ m ihm =>
      intro s t φ hinv h hr
      by_cases hpc : s.pc = .returned
      · exact ⟨0, s, t, φ, m, rfl, hpc, hinv, h⟩
      · obtain ⟨s₁, hs₁, t₁, φ₁, m₁, -, hinv₁, hsim₁, hless⟩ := h.step oracle hinv hpc
        have hrest : ∃ k s' t' φ' m', Lib.runFor (SeedJoin.step oracle) k s₁ = some s' ∧
            s'.pc = .returned ∧ Inv n t' φ' ∧ Sim s' t' φ' m' := by
          rcases hless with hlt | ⟨rfl, hlt⟩
          · exact ihr _ (hr ▸ hlt) m₁ hinv₁ hsim₁ rfl
          · exact ihm m₁ hlt hinv₁ hsim₁ hr
        obtain ⟨k, s', t', φ', m', hrun, hpc', hinv', hsim'⟩ := hrest
        refine ⟨k + 1, s', t', φ', m', ?_, hpc', hinv', hsim'⟩
        show (SeedJoin.step oracle s).bind (Lib.runFor (SeedJoin.step oracle) k) = some s'
        rw [hs₁]
        exact hrun

/-! ### Histories -/

/-- What holds for the history of a seed at all times: it is pushed and popped at most once and
activated at most once, and `joinCounter` goes `2, 1, 0` if it was activated and is not touched
otherwise. -/
structure SeedLog.Orderly (log : SeedLog) : Prop where
  pushes : log.pushes ≤ 1
  pops : log.pops ≤ log.pushes
  activations : log.activations ≤ log.pushes
  joins : log.joins <+: [2, 1, 0]
  untouched : log.activations = 0 → log.joins = []

theorem SeedLog.Finished.orderly {log : SeedLog} (h : log.Finished) : log.Orderly := by
  rcases h with rfl | rfl | rfl
  · exact ⟨by decide, by decide, by decide, List.nil_prefix, fun _ => rfl⟩
  · exact ⟨by decide, by decide, by decide, List.nil_prefix, fun _ => rfl⟩
  · exact ⟨by decide, by decide, by decide, List.prefix_rfl, nofun⟩

theorem Stage.Fits.orderly {k : Stage} (h : k.Fits s F) : (s.logs F).Orderly := by
  cases k with
  | unpushed => exact SeedLog.Finished.orderly (Or.inl h)
  | waiting =>
    rw [h.1]
    exact ⟨by decide, by decide, by decide, List.nil_prefix, fun _ => rfl⟩
  | active k =>
    rw [h.1]
    exact ⟨Nat.le_refl 1, Nat.zero_le 1, Nat.le_refl 1, List.take_prefix .., nofun⟩
  | popped => exact SeedLog.Finished.orderly (Or.inr (Or.inl h))
  | finished => exact SeedLog.Finished.orderly h

theorem Stage.Fits.inUse {k : Stage} (h : k.Fits s F) (hlinked : k.Linked) :
    (s.logs F).pushes = 1 ∧ (s.logs F).pops = 0 := by
  cases k with
  | waiting =>
    rw [h.1]
    exact ⟨rfl, rfl⟩
  | active k =>
    rw [h.1]
    exact ⟨rfl, rfl⟩
  | _ => exact hlinked.elim

/-- The neighbours of a seed are in the seed stack. -/
theorem mem_of_neighbour {l : List FooPtr} {x : FooPtr}
    (hl : SeedStackIs s.seeds s.seedHead l) (hF : F ∈ l)
    (hx : x ∈ F :: ((s.seeds F).prev.toList ++ (s.seeds F).next.toList)) : x ∈ l := by
  obtain ⟨l₁, l₂, rfl⟩ := List.append_of_mem hF
  obtain ⟨hnext, hprev⟩ := hl.links l₁ F l₂ rfl
  rw [List.mem_cons, List.mem_append, Option.mem_toList, Option.mem_toList] at hx
  rcases hx with rfl | hx | hx
  · exact hF
  · have hmem : x ∈ l₂ := List.mem_of_head? (hprev.symm.trans hx)
    simp [hmem]
  · have hmem : x ∈ l₁ := List.mem_of_getLast? (hnext.symm.trans hx)
    simp [hmem]

/-- A seed that the next step uses is in the seed stack. -/
theorem Sim.used (hinv : Inv n t φ) (h : Sim s t φ m) {x : FooPtr} (hx : x ∈ s.usedSeeds) :
    (stageOf φ x).Linked := by
  obtain ⟨l, hlist, hscan⟩ := h.list
  have hmem : x ∈ l := by
    unfold State.usedSeeds at hx
    cases hp : s.pc with
    | start F | resume F =>
      rw [hp] at hx
      exact List.mem_of_getLast? (hlist.seeds.back_eq.symm.trans (Option.mem_toList.mp hx))
    | afterA F =>
      rw [hp] at hx
      refine mem_of_neighbour hlist.seeds ?_ hx
      rw [hlist.mem]
      obtain ⟨-, -, -, ⟨hF, -⟩ | ⟨y, hF⟩⟩ := h.at_afterA hinv hp
      · rw [stageOf, hF]
        trivial
      · rw [stageOf, hF]
        trivial
    | secondChildDone F =>
      rw [hp] at hx
      -- `popSeed` follows the links of a seed that is in the list
      refine mem_of_neighbour hlist.seeds ?_ hx
      rw [hlist.mem, stageOf, h.last F hp]
      trivial
    | stubRoutine =>
      obtain ⟨-, F, y, hbase, -, hF, -, hfits⟩ := h.at_stubRoutine hinv hp
      rw [hp] at hx
      simp only [hbase] at hx
      rw [hfits.2.2.2] at hx
      rw [List.mem_singleton.mp hx, hlist.mem, stageOf, hF]
      trivial
    | scan seed =>
      unfold ScanOk at hscan
      rw [hp] at hx hscan
      obtain ⟨l₁, l₂, rfl, hlast, -, -⟩ := hscan
      cases seed with
      | none => exact absurd hx List.not_mem_nil
      | some seed =>
        rw [List.mem_singleton.mp hx]
        exact List.mem_append_left _ (List.mem_of_getLast? hlast.symm)
    | _ =>
      rw [hp] at hx
      exact absurd hx List.not_mem_nil
  exact (hlist.mem x).mp hmem

/-! ### The end of a run -/

/-- When the program is back in `startfib`, every call is over or was never made. -/
theorem Sim.finished (hinv : Inv n t φ) (h : Sim s t φ m) (hpc : s.pc = .returned) (F : FooPtr) :
    ¬(stageOf φ F).Linked ∧ (s.logs F).Finished := by
  have htpc : t.pc = .returned := by rw [h.pc, hpc]; rfl
  have hnot := hinv.not_live htpc F
  have hfits := h.seeds F
  unfold stageOf at hfits ⊢
  cases hF : φ F with
  | idle =>
    rw [hF] at hfits
    exact ⟨id, Or.inl hfits⟩
  | back | freed | ended =>
    rw [hF] at hfits
    exact ⟨id, hfits⟩
  | _ =>
    rw [hF] at hnot
    exact absurd trivial hnot

/-- `startfib` returns, and what it leaves behind. -/
theorem exists_returned (n : Int) (oracle : Nat → Bool) :
    ∃ k s, runFor (step oracle) k (initial n) = some s ∧ s.pc = .returned ∧
      (s.foos .root).output = BitVec.ofNat 32 (fibValue n) ∧
      s.seedHead = none ∧ s.readyQ.front = none ∧
      (∀ x, s.frees x = s.forks x ∧ s.forks x ≤ 1) ∧ ∀ x, (s.logs x).Finished := by
  obtain ⟨k, s, t, φ, m, hrun, hpc, hinv, h⟩ :=
    (sim_initial n).returns oracle _ 0 (LazyYield.inv_initial n) rfl
  have htpc : t.pc = .returned := by rw [h.pc, hpc]; rfl
  have hfinished := h.finished hinv hpc
  refine ⟨k, s, hrun, hpc, ?_, ?_, ?_, fun x => ?_, fun x => (hfinished x).2⟩
  · have hroot : φ .root = .back :=
      hinv.control.held .root .back (by unfold LazyYield.State.holder; rw [htpc])
    rw [h.same.foos]
    exact (hinv.nodes .root).output (by simp [hroot])
  · -- a seed in the stack would be linked
    obtain ⟨l, hlist, -⟩ := h.list
    have hnil : l = [] := by
      refine List.eq_nil_iff_forall_not_mem.mpr fun x hx => ?_
      exact (hfinished x).1 ((hlist.mem x).mp hx)
    rw [hlist.seeds.back_eq, hnil]
    rfl
  · rw [h.ready_eq (by simp [hpc])]
    exact (hinv.queues_empty htpc).2
  · rw [h.same.frees, h.same.forks]
    exact hinv.all_freed htpc x

/-- The first version of the runtime joins each seed exactly once. For every `n` and every oracle:

- `startfib(n)` returns `F(n)` in the arithmetic of an `int`, which is `F(n)` itself up to `46`. At
  the end both queues are empty, every forked stacklet has been freed exactly once, and every seed
  that was pushed was popped exactly once: without an activation and with `joinCounter` never
  touched, or with one activation and with `joinCounter` counted `2, 1, 0`;
- at all times, a seed was activated at most once and `joinCounter` has gone along `2, 1, 0`, and
  every seed that the next step reads or writes was pushed and not popped. -/
theorem seed_joined_once (n : Int) (oracle : Nat → Bool) :
    (∃ k s, runFor (step oracle) k (initial n) = some s ∧ s.pc = .returned ∧
      (s.foos .root).output = BitVec.ofNat 32 (fibValue n) ∧
      (n ≤ 46 → (s.foos .root).output.toInt = fibValue n) ∧
      s.seedHead = none ∧ s.readyQ.front = none ∧
      (∀ x, s.frees x = s.forks x ∧ s.forks x ≤ 1) ∧ ∀ x, (s.logs x).Finished) ∧
    ∀ k s, runFor (step oracle) k (initial n) = some s →
      (∀ x, (s.logs x).Orderly) ∧
      ∀ x ∈ s.usedSeeds, (s.logs x).pushes = 1 ∧ (s.logs x).pops = 0 := by
  constructor
  · obtain ⟨k, s, hrun, hpc, hout, hrest⟩ := exists_returned n oracle
    refine ⟨k, s, hrun, hpc, hout, fun hn => ?_, hrest⟩
    rw [hout, LazyFork.toInt_ofNat_eq_iff.mpr (LazyFork.fibValue_lt hn)]
  · intro k s hrun
    obtain ⟨t, φ, m, -, hinv, h⟩ := runs_together hrun
    exact ⟨fun x => (h.seeds x).orderly, fun x hx => (h.seeds x).inUse (h.used hinv hx)⟩

/-- `F(47)` does not fit into an `int`, and `startfib(47)` returns something else. -/
theorem seed_joined_overflows :
    ∃ k s, runFor (step fun _ => false) k (initial 47) = some s ∧ s.pc = .returned ∧
      (s.foos .root).output.toInt ≠ fibValue 47 := by
  obtain ⟨k, s, hrun, hpc, hout, -⟩ := exists_returned 47 fun _ => false
  refine ⟨k, s, hrun, hpc, ?_⟩
  have hvalue : fibValue 47 = Nat.fib 47 := LazyFork.fibValue_eq_fib 47
  have hfib : Nat.fib 47 = 2971215073 := by decide +kernel
  rw [hout, hvalue, hfib]
  decide

end

end Stacklets.SeedJoin

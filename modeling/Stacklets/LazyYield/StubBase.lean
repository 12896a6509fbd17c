import Stacklets.LazyYield.Correctness

/-!
# `Stacklets.LazyYield.StubBase`: `stubBase` names the running stacklet

`stubBase` is one global, which `fib`, `stackletFork`, `stubRoutine` and `yield` save and restore
by hand. This file takes what the invariant says about it to whole runs:

* in the body of `fib`, `stubBase` is the stack on which the running frame lies;
* behind the labels `SecondChildSteal` and `Resume`, the local variable that is about to be stored
  in `stubBase` is;
* a stub is not changed after `stackletFork` has written it (`stub_recorded`);
* the first function of a stacklet returns into `stubRoutine` with `stubBase` at its own stacklet
  and with the stub that was written when the stacklet was forked.
-/

set_option autoImplicit false

namespace Stacklets.LazyYield

open Lib
open LazyFork (FooPtr aboveFrame)

/-- The frame of `fib` in whose body the program is, with `stubBase` restored. -/
def State.bodyFrame (s : State) : Option FooPtr :=
  match s.pc with
  | .start F | .afterA F | .afterB F | .secondChildDone F => some F
  | _ => none

section
variable {n : Int} {s s' : State} {φ : FooPtr → Phase} {F : FooPtr} {oracle : Nat → Bool}

/-! ### The running frame -/

/-- The program is in the body of a call that has a frame, and `stubBase` is the stack of the
frame. -/
theorem Inv.body (h : Inv n s φ) (hF : s.bodyFrame = some F) :
    (φ F).Live ∧ s.stubBase = (s.frames F).home := by
  have hpcOk := h.control.pcOk
  have hheld := h.control.held
  unfold State.bodyFrame at hF
  unfold State.PcOk at hpcOk
  unfold State.holder at hheld
  cases hp : s.pc with
  | start G =>
    rw [hp] at hF hpcOk hheld
    cases hF
    have hphase := hheld _ _ rfl
    exact ⟨by simp [hphase], hpcOk⟩
  | afterA G =>
    rw [hp] at hF hpcOk hheld
    cases hF
    have hphase := hheld _ _ rfl
    exact ⟨h.live_caller (Or.inl rfl) (by rw [hphase]; rfl), hpcOk⟩
  | afterB G =>
    rw [hp] at hF hpcOk hheld
    cases hF
    exact ⟨by simp [hpcOk.1], hpcOk.2⟩
  | secondChildDone G =>
    rw [hp] at hF hpcOk hheld
    cases hF
    obtain ⟨⟨x, hphase⟩, hbase⟩ := hpcOk
    exact ⟨by simp [hphase], hbase⟩
  -- the stub and `suspend` run on no frame
  | _ =>
    rw [hp] at hF
    cases hF

/-- A call with a frame is on one stack, the one its frame names. -/
theorem Inv.mem_stackOf (h : Inv n s φ) (hlive : (φ F).Live) (R : Stack) :
    F ∈ s.stackOf R ↔ R = (s.frames F).home := by
  rw [h.stacksOk.mem R F]
  exact ⟨fun hmem => hmem.2.symm, fun hR => ⟨hlive, hR.symm⟩⟩

/-! ### Returns into `stubRoutine` -/

/-- Only the first function of a stacklet has `stubRoutine` as its return address. -/
theorem Inv.eq_b_of_returnAdr (h : Inv n s φ) (hlive : (φ F).Live)
    (hra : (s.frames F).returnAdr = .stubRoutine) :
    ∃ P x, F = .b P ∧ φ P = .stolen x false ∧ (s.frames F).home = .stacklet F := by
  cases F with
  | root =>
    rw [(h.link hlive).1] at hra
    cases hra
  | a P =>
    rw [((h.nodes P).linkA hlive).1] at hra
    cases hra
  | b P =>
    have hlink := (h.nodes P).linkB hlive
    have hfits := (h.nodes P).fits
    rw [hlive.status_eq] at hfits
    by_cases hsecond : φ P = .second
    · rw [if_pos hsecond] at hlink
      rw [hlink.1] at hra
      cases hra
    · rw [if_neg hsecond] at hlink
      -- of the phases with a running second child only `stolen` is left
      cases hP : φ P with
      | stolen x y =>
        rw [hP] at hfits
        cases y with
        | false => exact ⟨P, x, rfl, hP, hlink.2⟩
        | true => exact absurd hfits.2.2 nofun
      | second => exact absurd hP hsecond
      | _ => simp [hP] at hfits

/-- A step into `stubRoutine` is a `return` of the running frame. -/
theorem step_into_stubRoutine (hs : step oracle s = some s') (hpc : s'.pc = .stubRoutine) :
    ∃ F, s.bodyFrame = some F ∧ (s.frames F).returnAdr = .stubRoutine ∧
      s'.stubBase = s.stubBase ∧ s'.stubs = s.stubs := by
  have hland : ∀ ra : ReturnAdr, ra.land = .stubRoutine → ra = .stubRoutine := by
    intro ra hra
    cases ra <;> first | rfl | cases hra
  have hjump : ∀ sp adr, jump sp adr ≠ .stubRoutine := by
    intro sp adr
    cases sp <;> cases adr <;> nofun
  -- the two ways through `--syncCounter`
  have hjoin : ∀ F, (s.join F).pc = .stubRoutine →
      (s.frames F).returnAdr = .stubRoutine ∧ (s.join F).stubBase = s.stubBase ∧
        (s.join F).stubs = s.stubs := by
    intro F hF
    unfold State.join at hF ⊢
    by_cases hc : (s.frames F).syncCounter - 1 ≠ 0
    · rw [if_pos hc] at hF
      cases hF
    · rw [if_neg hc] at hF ⊢
      have hra := hland _ hF
      simp only [State.setOutput, State.setFrame, Function.update_self] at hra
      exact ⟨hra, rfl, rfl⟩
  unfold State.bodyFrame
  unfold step at hs
  cases hp : s.pc with
  | start F =>
    rw [hp] at hs
    simp only at hs
    split at hs
    · cases hs
      exact ⟨F, rfl, hland _ hpc, rfl, rfl⟩
    · split at hs
      · cases hs
        cases hpc
      · cases hs
        cases hpc
  | afterA F =>
    rw [hp] at hs
    simp only at hs
    split at hs
    · cases hs
      cases hpc
    · cases hs
      exact ⟨F, rfl, hjoin F hpc⟩
    · cases hs
      cases hpc
  | afterB F =>
    rw [hp] at hs
    cases hs
    exact ⟨F, rfl, hland _ hpc, rfl, rfl⟩
  | secondChildDone F =>
    rw [hp] at hs
    cases hs
    exact ⟨F, rfl, hjoin F hpc⟩
  | stubRoutine =>
    rw [hp] at hs
    cases hs
    unfold State.stubRoutine at hpc
    split at hpc
    · cases hpc
    · exact absurd hpc (hjump _ _)
  | suspend =>
    rw [hp] at hs
    cases hs
    unfold State.suspend at hpc
    split at hpc
    · exact absurd hpc (hjump _ _)
    · split at hpc
      · exact absurd hpc (hjump _ _)
      · rw [hp] at hpc
        cases hpc
  | resume F | secondChildSteal F =>
    rw [hp] at hs
    cases hs
    cases hpc
  | returned | wild =>
    rw [hp] at hs
    cases hs

/-- In `stubRoutine`, the stacklet at `stubBase` is the one of a stolen second child that has
returned. -/
theorem Inv.in_stubRoutine (h : Inv n s φ) (hpc : s.pc = .stubRoutine)
    (hbase : s.stubBase = .stacklet (.b F)) :
    (∃ x, φ F = .stolen x false) ∧ φ (.b F) = .back := by
  have hpcOk := h.control.pcOk
  have hheld := h.control.held
  unfold State.PcOk at hpcOk
  unfold State.holder at hheld
  rw [hpc] at hpcOk hheld
  simp only [hbase] at hpcOk hheld
  obtain ⟨P, x, hP, hphase⟩ := hpcOk
  cases hP
  exact ⟨⟨x, hphase⟩, hheld _ _ rfl⟩

/-- In `stubRoutine`, no frame is left on the stacklet. -/
theorem Inv.stacklet_empty (h : Inv n s φ) (hback : φ (.b F) = .back) :
    s.stackOf (.stacklet (.b F)) = [] := by
  refine List.eq_nil_iff_forall_not_mem.mpr fun y hy => ?_
  obtain ⟨hlive, hhome⟩ := (h.stacksOk.mem _ y).mp hy
  exact h.home_ne (by simp [hback]) y hlive hhome

/-! ### The stubs of a run -/

/-- Stubs are written by `SecondChildSteal` only. -/
theorem step_stubs (hs : step oracle s = some s') :
    (s'.stubs = s.stubs ∧ s'.forks = s.forks) ∨
      ∃ P, s.pc = .secondChildSteal P ∧ s' = s.secondChildSteal P := by
  -- `join` counts and may return, but forks nothing
  have hjoin : ∀ F, (s.join F).stubs = s.stubs ∧ (s.join F).forks = s.forks := by
    intro F
    unfold State.join
    by_cases hc : (s.frames F).syncCounter - 1 ≠ 0
    · rw [if_pos hc]
      exact ⟨rfl, rfl⟩
    · rw [if_neg hc]
      exact ⟨rfl, rfl⟩
  unfold step at hs
  cases hp : s.pc with
  | secondChildSteal P =>
    rw [hp] at hs
    cases hs
    exact Or.inr ⟨P, rfl, rfl⟩
  | start F =>
    rw [hp] at hs
    simp only at hs
    split at hs
    · cases hs
      exact Or.inl ⟨rfl, rfl⟩
    · split at hs <;> cases hs <;> exact Or.inl ⟨rfl, rfl⟩
  | afterA F =>
    rw [hp] at hs
    simp only at hs
    split at hs <;> cases hs
    · exact Or.inl ⟨rfl, rfl⟩
    · exact Or.inl (hjoin F)
    · exact Or.inl ⟨rfl, rfl⟩
  | secondChildDone F =>
    rw [hp] at hs
    cases hs
    exact Or.inl (hjoin F)
  | stubRoutine =>
    rw [hp] at hs
    cases hs
    unfold State.stubRoutine
    split <;> exact Or.inl ⟨rfl, rfl⟩
  | suspend =>
    rw [hp] at hs
    cases hs
    unfold State.suspend
    split
    · exact Or.inl ⟨rfl, rfl⟩
    · split <;> exact Or.inl ⟨rfl, rfl⟩
  | afterB F | resume F =>
    rw [hp] at hs
    cases hs
    exact Or.inl ⟨rfl, rfl⟩
  | returned | wild =>
    rw [hp] at hs
    cases hs

/-- The stub of a stacklet is the one that was written when the stacklet was forked. The induction
is on the last step. -/
theorem stub_recorded {k : Nat} {x : FooPtr} : ∀ {s : State},
    runFor (step oracle) k (initial n) = some s → s.forks x ≠ 0 →
      ∃ j s₀ P, j < k ∧ runFor (step oracle) j (initial n) = some s₀ ∧
        s₀.pc = .secondChildSteal P ∧ x = .b P ∧
        s.stubs x = (s₀.secondChildSteal P).stubs x := by
  induction k with
  | zero =>
    intro s hrun hforks
    cases hrun
    exact absurd rfl hforks
  | succ k ih =>
    intro s hrun hforks
    rw [runFor_succ] at hrun
    obtain ⟨t, ht, hs⟩ := Option.bind_eq_some_iff.mp hrun
    have hkeep : s.stubs x = t.stubs x → s.forks x = t.forks x →
        ∃ j s₀ P, j < k + 1 ∧ runFor (step oracle) j (initial n) = some s₀ ∧
          s₀.pc = .secondChildSteal P ∧ x = .b P ∧
          s.stubs x = (s₀.secondChildSteal P).stubs x := by
      intro hstub hfork
      rw [hfork] at hforks
      obtain ⟨j, s₀, P, hj, hrun₀, hpc, hx, hrec⟩ := ih ht hforks
      exact ⟨j, s₀, P, Nat.lt_succ_of_lt hj, hrun₀, hpc, hx, hstub.trans hrec⟩
    rcases step_stubs hs with ⟨hstubs, hfork⟩ | ⟨P, hpc, rfl⟩
    · exact hkeep (by rw [hstubs]) (by rw [hfork])
    · by_cases hx : x = .b P
      · exact ⟨k, t, P, Nat.lt_succ_self k, ht, hpc, hx, rfl⟩
      · -- the fork is that of another stacklet
        refine hkeep ?_ ?_
        · exact Function.update_of_ne hx ..
        · exact Function.update_of_ne hx ..

/-! ### Whole runs -/

/-- `stubBase` names the running stacklet. For every `n` and every oracle, in every state that
`startfib(n)` reaches:

- in the body of `fib(F)`, `stubBase` is the one stack on which the frame of `F` lies;
- at `Resume` and at `SecondChildSteal`, the local variable that is stored in `stubBase` is the
  stack on which the frame lies;
- a step into `stubRoutine` is the return of the last frame on a stacklet, which was forked for the
  second child of some `P`, and `stubBase` is this stacklet. Its stub is the one that was written
  when it was forked. The next step frees this stacklet and goes on in `P`, with `stubBase` at the
  stack of `P`. -/
theorem stubBase_names_stacklet (n : Int) (oracle : Nat → Bool) {k : Nat} {s : State}
    (hrun : runFor (step oracle) k (initial n) = some s) :
    (∀ F, s.bodyFrame = some F → ∀ R, F ∈ s.stackOf R ↔ R = s.stubBase) ∧
    (∀ F, s.pc = .resume F → ∀ R, F ∈ s.stackOf R ↔ R = (s.frames F).yieldStubBase) ∧
    (∀ F, s.pc = .secondChildSteal F → ∀ R, F ∈ s.stackOf R ↔ R = (s.frames F).localStubBase) ∧
    ∀ s', step oracle s = some s' → s'.pc = .stubRoutine →
      ∃ P, s.bodyFrame = some (.b P) ∧ s'.stubBase = s.stubBase ∧
        s.stubBase = .stacklet (.b P) ∧ s'.stackOf (.stacklet (.b P)) = [] ∧
        (∃ j s₀, j < k ∧ runFor (step oracle) j (initial n) = some s₀ ∧
          s₀.pc = .secondChildSteal P ∧
          s'.stubs (.b P) = (s₀.secondChildSteal P).stubs (.b P)) ∧
        ∀ s'', step oracle s' = some s'' →
          s''.frees = Function.update s'.frees (.b P) (s'.frees (.b P) + 1) ∧
          s''.pc = .secondChildDone P ∧ ∀ R, P ∈ s''.stackOf R ↔ R = s''.stubBase := by
  obtain ⟨φ, h⟩ := (inv_initial n).runFor hrun
  have hheld := h.control.held
  unfold State.holder at hheld
  refine ⟨?_, ?_, ?_, ?_⟩
  · intro F hF R
    obtain ⟨hlive, hbase⟩ := h.body hF
    rw [hbase]
    exact h.mem_stackOf hlive R
  · intro F hpc R
    rw [hpc] at hheld
    have hphase := hheld _ _ rfl
    have hframe := (h.nodes F).frame
    rw [hphase] at hframe
    rw [show (s.frames F).yieldStubBase = (s.frames F).home from hframe]
    exact h.mem_stackOf (by simp [hphase]) R
  · intro F hpc R
    rw [hpc] at hheld
    have hphase := hheld _ _ rfl
    have hframe := (h.nodes F).frame
    rw [hphase] at hframe
    rw [hframe.2]
    exact h.mem_stackOf (by simp [hphase]) R
  · intro s' hs hpc
    obtain ⟨F, hF, hra, hbase', hstubs'⟩ := step_into_stubRoutine hs hpc
    obtain ⟨hlive, hbase⟩ := h.body hF
    obtain ⟨P, x, rfl, hP, hhome⟩ := h.eq_b_of_returnAdr hlive hra
    rw [hhome] at hbase
    have hrun' : runFor (step oracle) (k + 1) (initial n) = some s' := by
      rw [runFor_succ, hrun]
      exact hs
    obtain ⟨φ', h'⟩ := (inv_initial n).runFor hrun'
    have hbase'' : s'.stubBase = .stacklet (.b P) := hbase'.trans hbase
    obtain ⟨⟨x', hP'⟩, hback⟩ := h'.in_stubRoutine hpc hbase''
    have hstub := (h'.nodes P).stub x' hP'
    have hnext : step oracle s' = some s'.stubRoutine := by
      unfold step
      rw [hpc]
    have hroutine : s'.stubRoutine =
        { s' with
          stubBase := (s'.frames P).home
          frees := Function.update s'.frees (.b P) (s'.frees (.b P) + 1)
          pc := .secondChildDone P } := by
      unfold State.stubRoutine
      rw [hbase'']
      simp only [hstub, jump]
    refine ⟨P, hF, hbase', hbase, ?_, ?_, ?_⟩
    · exact h'.stacklet_empty hback
    · -- the stacklet is there, so it was forked, and its stub is the one written then
      have hon : (φ P).OnStacklet (φ (.b P)) := by
        rw [hP]
        intro hfreed
        rw [hfreed] at hlive
        exact hlive
      have hfork : s.forks (.b P) ≠ 0 := by
        rw [((h.nodes P).onStacklet hon).1]
        exact Nat.one_ne_zero
      obtain ⟨j, s₀, Q, hj, hrun₀, hpc₀, hQ, hrec⟩ := stub_recorded hrun hfork
      cases hQ
      exact ⟨j, s₀, hj, hrun₀, hpc₀, by rw [hstubs', hrec]⟩
    · intro s'' hs''
      rw [hnext, hroutine] at hs''
      cases hs''
      exact ⟨rfl, rfl, h'.mem_stackOf (by simp [hP'])⟩

/-- The first child of `fib(4)` yields, the second one is stolen and returns into `stubRoutine`. -/
theorem stubBase_names_stacklet_stolen :
    ∃ s s', runFor (step fun i => i == 1) 4 (initial 4) = some s ∧
      step (fun i => i == 1) s = some s' ∧ s'.pc = .stubRoutine ∧
      ∃ P, s.bodyFrame = some (.b P) ∧ s'.stubBase = .stacklet (.b P) := by
  have h : ((runFor (step fun i => i == 1) 4 (initial 4)).bind fun s =>
      (step (fun i => i == 1) s).map State.pc) = some .stubRoutine := by
    decide +kernel
  obtain ⟨s, hrun, hs⟩ := Option.bind_eq_some_iff.mp h
  obtain ⟨s', hs, hpc⟩ := Option.map_eq_some_iff.mp hs
  obtain ⟨P, hP, hbase, hstacklet, -⟩ :=
    (stubBase_names_stacklet 4 (fun i => i == 1) hrun).2.2.2 s' hs hpc
  exact ⟨s, s', hrun, hs, hpc, P, hP, hbase.trans hstacklet⟩

end

end Stacklets.LazyYield

import Stacklets.Steal.Result

/-!
# `Stacklets.Steal.Alone`: the ULI build on one thread

With one thread nobody asks for work, so the polls in `seedStackUnlock` find nothing and
`startfib` returns. `fib_alone` is the big step of one call: from the start of `fib` to its
return, with the seed queue and the interrupt counter as before, and no memory outside of the call
changed. The induction is on the argument.
-/

set_option autoImplicit false

namespace Stacklets.Steal

open Lib
open LazyFork (FooPtr Label fibValue fibValue_leaf fibValue_inner)
open Uli (Mask)

/-- The state of a run on one thread. -/
def alone (c : Core 1) (m : Shared 1) : State 1 := ⟨fun _ => c, m⟩

/-- The thread at `base` with the seeds `seedQ`, the counter `ctr`, and `acts` on top. -/
def Core.at (c : Core 1) (base : Base 1) (seedQ : List Seed) (ctr : BitVec 32)
    (acts : List (Act 1)) : Core 1 :=
  { c with base, seedQ, mask := ⟨0, ctr⟩, acts, msgBufs := [] }

/-- The run goes from one state to another. -/
def Reaches (s s' : State 1) : Prop := ∃ sched, run step s sched = some s'

section
variable {s s₁ s' : State 1} {c c' : Core 1} {m m' : Shared 1} {F G : FooPtr} {q : List Seed}
  {base : Base 1}

/-- Runs compose. -/
theorem Reaches.trans (h : Reaches s s₁) (h' : Reaches s₁ s') : Reaches s s' := by
  obtain ⟨sched, hrun⟩ := h
  obtain ⟨sched', hrun'⟩ := h'
  exact ⟨sched ++ sched', by rw [run_append hrun, hrun']⟩

/-- A step that sends nothing. -/
theorem Reaches.step (c' : Core 1) (m' : Shared 1) (hm : m.aborted = false)
    (hstep : coreStep (alone c m) 0 = some (.quiet m' c')) : Reaches (alone c m) (alone c' m') := by
  refine ⟨[0], ?_⟩
  have hcores : Function.update (fun _ : Fin 1 => c) 0 c' = fun _ => c' := by
    funext u
    rw [Subsingleton.elim u 0, Function.update_self]
  have : Steal.step (alone c m) 0 = some (alone c' m') := by
    unfold Steal.step
    rw [show (alone c m).shared.aborted = false from hm, hstep]
    show some (State.after (alone c m) 0 (.quiet m' c')) = _
    simp only [State.after, post, alone, Outcome.quiet, hcores]
  rw [run_cons, this]
  rfl

/-- `mydui` masks the thread. -/
theorem Core.at_mydui : (c.at base q 0 []).mydui = c.at base q 1 [] := by
  simp [Core.mydui, Core.at, Mask.mydui, Uli.dui]

/-- The `myeui` that belongs to it polls. -/
theorem Core.at_eui : Outcome.eui m (c.at base q 1 []) = .quiet m (c.at base q 0 [.poll]) := by
  simp [Outcome.eui, Core.myeui, Core.at, Mask.unmask, Mask.myeui, Uli.eui]

/-- `seedStackUnlock`: the counter drops to zero, and the poll finds no message. -/
theorem Reaches.unlock (hm : m.aborted = false) (base' : Base 1)
    (hstep : coreStep (alone (c.at base q 1 []) m) 0 = some (.eui m (c.at base' q 1 []))) :
    Reaches (alone (c.at base q 1 []) m) (alone (c.at base' q 0 []) m) := by
  refine (Reaches.step _ _ hm (hstep.trans (congrArg some Core.at_eui))).trans ?_
  have hpoll : coreStep (alone (c.at base' q 0 [.poll]) m) 0 =
      some (.quiet m (c.at base' q 0 [.iHandler])) := by
    show some (actStep m 0 (c.at base' q 0 [.poll]) [] .poll) = _
    rw [actStep_poll, if_neg (by simp [Core.at, Uli.Masked])]
    rfl
  refine (Reaches.step _ _ hm hpoll).trans ?_
  exact Reaches.step (c.at base' q 0 []) m hm rfl

/-- Nothing outside of the call of `fib(F)` has changed. -/
def SameOutside (F : FooPtr) (m m' : Shared 1) : Prop :=
  ∀ G, ¬ F.Over G → m'.foos G = m.foos G ∧ m'.frames G = m.frames G

/-- One call of `fib(F)` from its start to its return. -/
structure BigStep (c : Core 1) (F : FooPtr) (q : List Seed) (m m' : Shared 1) : Prop where
  reaches : Reaches (alone (c.at (.fib .first F .start) q 0 []) m)
    (alone (c.at (.fib .first F .ret) q 0 []) m')
  aborted : m'.aborted = false
  output : (m'.foos F).output = BitVec.ofNat 32 (fibValue (m.foos F).input)
  outside : SameOutside F m m'

/-- From the start of `fib(F)` with `F->input > 2` to the start of the first child. -/
theorem reaches_first_child (hm : m.aborted = false) (hn : 2 < (m.foos F).input) :
    ∃ m', m'.aborted = false ∧
      Reaches (alone (c.at (.fib .first F .start) q 0 []) m)
        (alone (c.at (.fib .first (.a F) .start) (q ++ [⟨m.seeds, F⟩]) 0 []) m') ∧
      ((m'.foos (.a F)).input = (m.foos F).input - 1 ∧
        (m'.foos (.b F)).input = (m.foos F).input - 2) ∧
      ((m'.frames F).seed = some ⟨m.seeds, F⟩ ∧
        (m'.frames F).firstChildReturnAdr = some .firstChildDoneNormally) ∧
      SameOutside F m m' := by
  let m₁ := (m.setInput (.a F) ((m.foos F).input - 1)).setInput (.b F) ((m.foos F).input - 2)
  let frame : Frame 1 := { m.frames F with
    seed := some ⟨m.seeds, F⟩, firstChildReturnAdr := some .firstChildDoneNormally, ptid := 0 }
  let m₂ := { m₁.setFrame F frame with seeds := m.seeds + 1 }
  have hstart : coreStep (alone (c.at (.fib .first F .start) q 0 []) m) 0 =
      some (.quiet m₁ (c.at (.fib .first F .pushSeed) q 0 [])) := by
    show (if (m.foos F).input ≤ 2 then _ else _) = _
    rw [if_neg (by omega)]
    rfl
  have hpush : coreStep (alone (c.at (.fib .first F .pushSeed) q 0 []) m₁) 0 =
      some (.quiet m₂ (c.at (.fib .first F .unlockPush) (q ++ [⟨m.seeds, F⟩]) 1 [])) := by
    show some (Outcome.quiet m₂
      (((c.at (.fib .first F .pushSeed) q 0 []).mydui.setSeedQ _).goto _)) = _
    rw [Core.at_mydui]
    rfl
  -- start, push, unlock, call
  refine ⟨m₂, hm, ?_, ⟨by simp [m₂, m₁], by simp [m₂, m₁]⟩,
    ⟨by simp [m₂, frame], by simp [m₂, frame]⟩, ?_⟩
  · refine (Reaches.step _ _ hm hstart).trans ?_
    refine (Reaches.step (m := m₁) _ _ hm hpush).trans ?_
    refine (Reaches.unlock (m := m₂) hm (.fib .first F .callA) rfl).trans ?_
    exact Reaches.step (m := m₂) _ _ hm rfl
  · intro G hG
    have hne : G ≠ F ∧ G ≠ .a F ∧ G ≠ .b F := by
      refine ⟨?_, ?_, ?_⟩ <;> rintro rfl <;> refine hG ?_
      · exact FooPtr.over_self _
      · exact .inr (FooPtr.over_self _)
      · exact .inr (FooPtr.over_self _)
    simp [m₂, m₁, hne.1, hne.2.1, hne.2.2]

/-- From the return of the first child to the start of the second, with the seed still there. -/
theorem reaches_second_child {σ : Seed} (hm : m.aborted = false) (hσ : σ ∉ q)
    (hseed : (m.frames F).seed = some σ)
    (hadr : (m.frames F).firstChildReturnAdr = some .firstChildDoneNormally) :
    Reaches (alone (c.at (.fib .first (.a F) .ret) (q ++ [σ]) 0 []) m)
      (alone (c.at (.fib .first (.b F) .start) q 0 [])
        { m with released := m.released ++ [σ] }) := by
  -- there is one thread, so the lock is its own
  have hptid : (m.frames F).ptid = 0 := Subsingleton.elim _ _
  refine (Reaches.step (c.at (.fib .first F .lockPtid) (q ++ [σ]) 0 []) m hm
    rfl).trans ?_
  have hlock : coreStep (alone (c.at (.fib .first F .lockPtid) (q ++ [σ]) 0 []) m) 0 =
      some (.quiet m (c.at (.fib .first F .gotoReturnAdr) (q ++ [σ]) 1 [])) := by
    show (if (m.frames F).ptid = 0 then some (Outcome.quiet m
      ((c.at (.fib .first F .lockPtid) (q ++ [σ]) 0 []).mydui.goto _)) else _) = _
    rw [if_pos hptid, Core.at_mydui]
    rfl
  refine (Reaches.step _ _ hm hlock).trans ?_
  have hgoto : coreStep (alone (c.at (.fib .first F .gotoReturnAdr) (q ++ [σ]) 1 []) m) 0 =
      some (.quiet m (c.at (.fib .first F .firstChildDoneNormally) (q ++ [σ]) 1 [])) := by
    simp only [coreStep, alone, Core.at, baseStep, fibStep, hadr]
    rfl
  refine (Reaches.step _ _ hm hgoto).trans ?_
  have hrelease : coreStep (alone (c.at (.fib .first F .firstChildDoneNormally) (q ++ [σ]) 1 []) m)
      0 = some (.quiet { m with released := m.released ++ [σ] }
        (c.at (.fib .first F .unlockNormally) q 1 [])) := by
    have hmem : σ ∈ q ++ [σ] := by simp
    simp only [coreStep, alone, Core.at, baseStep, fibStep, hseed, hptid, hmem, true_and, if_true]
    rw [List.erase_append_right _ hσ, List.erase_cons_head, List.append_nil]
    rfl
  refine (Reaches.step _ _ hm hrelease).trans ?_
  have hunlock : coreStep (alone (c.at (.fib .first F .unlockNormally) q 1 [])
      { m with released := m.released ++ [σ] }) 0 =
        some (.eui { m with released := m.released ++ [σ] }
          (c.at (.fib .first F .checkUIMask) q 1 [])) := by
    show (if (m.frames F).ptid = 0 then _ else _) = _
    rw [if_pos hptid]
    rfl
  refine (Reaches.unlock (m := { m with released := m.released ++ [σ] }) hm _ hunlock).trans ?_
  have hcheck : coreStep (alone (c.at (.fib .first F .checkUIMask) q 0 [])
      { m with released := m.released ++ [σ] }) 0 =
        some (.quiet { m with released := m.released ++ [σ] }
          (c.at (.fib .first F .callB) q 0 [])) := by
    simp only [coreStep, alone, Core.at, baseStep, fibStep, if_true]
    rfl
  refine (Reaches.step (m := { m with released := m.released ++ [σ] }) _ _ hm hcheck).trans ?_
  exact Reaches.step (m := { m with released := m.released ++ [σ] }) _ _ hm rfl

/-- Changes below a frame compose. -/
theorem SameOutside.trans {m₁ : Shared 1} (h : SameOutside F m m₁) (h' : SameOutside F m₁ m') :
    SameOutside F m m' := fun G hG =>
  ⟨(h' G hG).1.trans (h G hG).1, (h' G hG).2.trans (h G hG).2⟩

/-- What is below the first child is below the frame. -/
theorem SameOutside.of_a (h : SameOutside (.a F) m m') : SameOutside F m m' :=
  fun G hG => h G fun hover => hG hover.of_a

/-- What is below the second child is below the frame. -/
theorem SameOutside.of_b (h : SameOutside (.b F) m m') : SameOutside F m m' :=
  fun G hG => h G fun hover => hG hover.of_b

/-- One call of `fib` on one thread returns, with the right value, and leaves everything else as it
was. -/
theorem fib_alone (c : Core 1) (k : Nat) : ∀ (F : FooPtr) (q : List Seed) (m : Shared 1),
    (m.foos F).input.toNat = k → m.aborted = false → (∀ σ ∈ q, σ.sp.depth < F.depth) →
    ∃ m', BigStep c F q m m' := by
  induction k using Nat.strongRecOn with
  | ind k ih =>
    intro F q m hk hm hq
    by_cases hn : (m.foos F).input ≤ 2
    · -- a leaf
      have hstart : coreStep (alone (c.at (.fib .first F .start) q 0 []) m) 0 =
          some (.quiet (m.setOutput F 1) (c.at (.fib .first F .ret) q 0 [])) := by
        show (if (m.foos F).input ≤ 2 then _ else _) = _
        rw [if_pos hn]
        rfl
      refine ⟨m.setOutput F 1, .step _ _ hm hstart, hm, ?_, fun G hG => ⟨?_, rfl⟩⟩
      · rw [fibValue_leaf hn]
        simp
      · refine Function.update_of_ne ?_ _ _
        rintro rfl
        exact hG (FooPtr.over_self _)
    · -- the frame and its two children are apart
      have hna : ¬ (FooPtr.a F).Over F := fun h =>
        absurd h.depth_le (Nat.not_succ_le_self _)
      have hnb : ¬ (FooPtr.b F).Over F := fun h =>
        absurd h.depth_le (Nat.not_succ_le_self _)
      have hab : ¬ (FooPtr.a F).Over (.b F) := fun h =>
        FooPtr.not_over_both h (FooPtr.over_self _)
      have hba : ¬ (FooPtr.b F).Over (.a F) := fun h =>
        FooPtr.not_over_both (FooPtr.over_self _) h
      have hσ : (⟨m.seeds, F⟩ : Seed) ∉ q := fun h => Nat.lt_irrefl _ (hq _ h)
      -- up to the first child
      obtain ⟨m₂, hm₂, hreach, hin, hframe, hout⟩ :=
        reaches_first_child (c := c) (q := q) hm (F := F) (by omega)
      have hdepth : ∀ τ ∈ q ++ [⟨m.seeds, F⟩], τ.sp.depth < (FooPtr.a F).depth :=
        List.forall_mem_append.mpr ⟨fun τ hτ => Nat.lt_succ_of_lt (hq τ hτ),
          List.forall_mem_singleton.mpr (Nat.lt_succ_self F.depth)⟩
      obtain ⟨m₃, hfirst⟩ := ih ((m.foos F).input - 1).toNat (by omega) (.a F) _ m₂
        (by rw [hin.1]) hm₂ hdepth
      -- between the children
      have hF₃ : m₃.frames F = m₂.frames F := (hfirst.outside F hna).2
      have hsecondReach := reaches_second_child (c := c) (F := F) hfirst.aborted hσ
        (by rw [hF₃]; exact hframe.1) (by rw [hF₃]; exact hframe.2)
      set m₄ : Shared 1 := { m₃ with released := m₃.released ++ [⟨m.seeds, F⟩] } with hm₄
      have hb₄ : (m₄.foos (.b F)).input = (m.foos F).input - 2 := by
        show (m₃.foos (.b F)).input = _
        rw [(hfirst.outside _ hab).1, hin.2]
      obtain ⟨m₅, hsecond⟩ := ih ((m.foos F).input - 2).toNat (by omega) (.b F) q m₄
        (by rw [hb₄]) hfirst.aborted fun τ hτ => Nat.lt_succ_of_lt (hq τ hτ)
      -- the sum of the two results
      have ha₅ : (m₅.foos (.a F)).output = BitVec.ofNat 32 (fibValue ((m.foos F).input - 1)) := by
        rw [(hsecond.outside _ hba).1, ← hin.1]
        exact hfirst.output
      have hb₅ : (m₅.foos (.b F)).output = BitVec.ofNat 32 (fibValue ((m.foos F).input - 2)) := by
        rw [← hb₄]
        exact hsecond.output
      refine ⟨m₅.setOutput F ((m₅.foos (.a F)).output + (m₅.foos (.b F)).output), ?_,
        hsecond.aborted, ?_, ?_⟩
      · refine hreach.trans (hfirst.reaches.trans (hsecondReach.trans (hsecond.reaches.trans ?_)))
        refine (Reaches.step (c.at (.fib .first F .sum) q 0 []) m₅ hsecond.aborted rfl).trans ?_
        exact Reaches.step _ _ hsecond.aborted rfl
      · show (Function.update m₅.foos F _ F).output = _
        rw [Function.update_self, fibValue_inner (by omega), ha₅, hb₅]
      · have hrelease : SameOutside F m₃ m₄ := fun _ _ => ⟨rfl, rfl⟩
        refine hout.trans (hfirst.outside.of_a.trans (hrelease.trans
          (hsecond.outside.of_b.trans fun G hG => ⟨?_, rfl⟩)))
        refine Function.update_of_ne ?_ _ _
        rintro rfl
        exact hG (FooPtr.over_self _)

/-- The ULI build on one thread: `startfib(n)` returns with the value of the sequence at `n`, and
no assertion fails on the way. -/
theorem startfib_alone (n : Int) (stubFound : Bool) :
    ∃ sched s, run step (initial 1 n stubFound) sched = some s ∧
    (s.cores 0).base = .returned ∧ s.shared.aborted = false ∧
    (s.shared.foos .root).output = BitVec.ofNat 32 (fibValue n) := by
  have hinit : alone (((initial 1 n stubFound).cores 0).at (.fib .first .root .start) [] 0 [])
      (initial 1 n stubFound).shared = initial 1 n stubFound := by
    refine congrArg (State.mk · _) (funext fun u => ?_)
    rw [Subsingleton.elim u 0]
    rfl
  obtain ⟨m', h⟩ := fib_alone ((initial 1 n stubFound).cores 0) _ .root []
    (initial 1 n stubFound).shared rfl rfl (List.forall_mem_nil _)
  obtain ⟨sched, hrun⟩ := h.reaches.trans (Reaches.step
    (((initial 1 n stubFound).cores 0).at .returned [] 0 []) m' h.aborted rfl)
  rw [hinit] at hrun
  exact ⟨sched, _, hrun, rfl, h.aborted, h.output⟩

end

end Stacklets.Steal

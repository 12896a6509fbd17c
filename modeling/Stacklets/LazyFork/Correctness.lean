import Stacklets.Lib.Runs
import Stacklets.LazyFork.Forks

/-!
# `Stacklets.LazyFork.Correctness`: what every run of the lazy-fork runtime satisfies

`inv_run` collects the step lemmas: in every state that a run of `startfib(n)` reaches, some
phases explain the state. The properties of the runtime are then read off the phases:

* `firstFork_correct`: the result of `fib`, and the calls and returns of the call tree;
* `seed_ownership`: who releases a seed, and what follows for the join;
* `stack_discipline`: who runs on a stacklet, and that calls and returns happen on its top;
* `lock_discipline`: who holds which seed lock, and that no assertion fails.
-/

set_option autoImplicit false

namespace Stacklets.LazyFork

open Lib

section
variable {P : Nat} {n : Int} {s s' : State P} {φ : FooPtr → Phase P} {ρ : RootPhase P}
  {q : Tid P → List FooPtr} {t u : Tid P} {F G : FooPtr} {l : FibPC}

/-! ### The invariant over runs -/

/-- Every step in the code of `fib` keeps the invariant. -/
theorem inv_fibStep (h : Follows n s φ ρ q) (hpc : s.pc t = .fib F l)
    (hs : fibStep s t F l = some s') : Inv n s' := by
  cases l with
  | start => exact h.start hpc hs
  | leaf => exact h.leaf hpc hs
  | initSeed => exact h.initSeed hpc hs
  | pushLock => exact h.pushLock hpc hs
  | pushLink => exact h.pushLink hpc hs
  | setReturnAdr => exact h.setReturnAdr hpc hs
  | pushUnlock => exact h.pushUnlock hpc hs
  | callA => exact h.callA hpc hs
  | lockPtid => exact h.lockPtid hpc hs
  | gotoReturnAdr => exact h.gotoReturnAdr hpc hs
  | firstChildDoneNormally => exact h.firstChildDoneNormally hpc hs
  | unlockNormally => exact h.unlockNormally hpc hs
  | callB => exact h.callB hpc hs
  | sum => exact h.sum hpc hs
  | secondChildSteal => exact h.secondChildSteal hpc hs
  | setSyncCounter => exact h.setSyncCounter hpc hs
  | stackletForkStub => exact h.stackletForkStub hpc hs
  | firstChildDone => exact h.firstChildDone hpc hs
  | firstDecrement => exact h.firstDecrement hpc hs
  | secondChildDone => exact h.secondChildDone hpc hs
  | suspendStub => exact h.suspendStub hpc hs
  | allReturned => exact h.allReturned hpc hs
  | ret => exact h.ret hpc hs

/-- Every step keeps the invariant. -/
theorem inv_step (hi : Inv n s) (hs : step s t = some s') : Inv n s' := by
  obtain ⟨φ, ρ, q, h⟩ := hi
  cases hpc : s.pc t with
  | firstFork => exact h.firstFork hpc hs
  | stackletFork lab sp arg x => exact h.stackletFork hpc hs
  | newStacklet lab sp arg => exact h.newStacklet hpc hs
  | fib F l => exact inv_fibStep h hpc (by rw [← hs, step, hpc])
  | stubRoutine S => exact h.stubRoutine hpc hs
  | finishStubRoutine S => exact h.finishStubRoutine hpc hs
  | peek k => exact h.peek hpc hs
  | peekLock k => exact h.peekLock hpc hs
  | peekAgain k => exact h.peekAgain hpc hs
  | peekUnlock k => exact h.peekUnlock hpc hs
  | takeSeed k seed => exact h.takeSeed hpc hs
  | readyQ => exact h.readyQ hpc hs
  | returned | assertFailed | wild => simp [step, hpc] at hs

/-- The invariant holds in every state that a run of `startfib(n)` reaches. -/
theorem inv_run {ts : List (Tid P)} (hrun : run step (initial P n) ts = some s) : Inv n s :=
  run_induction (fun _ _ _ hi hs => inv_step hi hs) ts _ _ (inv_initial P n) hrun

/-! ### The result -/

/-- Once the first `fib` has returned, no frame is live. -/
theorem Follows.status_of_done (h : Follows n s φ ρ q) (hρ : ρ.status = .done) (F : FooPtr) :
    (φ F).status ≠ .active := by
  induction F with
  | root =>
    rw [h.edges.status, statusIn, hρ]
    simp
  | a F ih =>
    rw [h.edges.status, statusIn]
    intro hA
    obtain ⟨y, hp⟩ := Phase.eq_running hA
    exact ih (by rw [hp]; rfl)
  | b F ih =>
    rw [h.edges.status, statusIn]
    intro hB
    rcases Phase.eq_inB hB with hp | ⟨x, hp⟩ <;> exact ih (by rw [hp]; rfl)

/-- Once the first `fib` has returned, every node of the call tree has returned. -/
theorem Follows.finished_of_done (h : Follows n s φ ρ q) (hρ : ρ.status = .done)
    (hF : InTree n F) : ∃ how, φ F = .finished how := by
  -- The children of an inner node that has returned have returned.
  have hinner : ∀ G, (∃ how, φ G = .finished how) → 2 < inputOf n G →
      (φ G).statusA = .done ∧ (φ G).statusB = .done := by
    rintro G ⟨how, hG⟩ hn
    have hleaf := (h.nodes G).leaf
    rw [hG] at hleaf ⊢
    cases how with
    | leaf => exact absurd (hleaf trivial) (by omega)
    | normal | joined => exact ⟨rfl, rfl⟩
  induction hF with
  | root => exact Phase.eq_finished (by rw [h.edges.status]; exact hρ)
  | a _ hn ih => exact Phase.eq_finished (by rw [h.edges.status]; exact (hinner _ ih hn).1)
  | b _ hn ih => exact Phase.eq_finished (by rw [h.edges.status]; exact (hinner _ ih hn).2)

/-- When `firstFork` returns to `startfib(n)`, on whichever pthread and after whatever
interleaving, `a->output` is the value of the sequence at `n`, every node of the call tree has
been called once and has returned once, and all seed queues are empty. -/
theorem firstFork_correct {ts : List (Tid P)} (hrun : run step (initial P n) ts = some s)
    (hret : s.pc t = .returned) :
    (s.foos .root).output = BitVec.ofNat 32 (fibValue n) ∧
      (∀ F, InTree n F → (s.tally F).calls = 1 ∧ (s.tally F).returns = 1) ∧
      ∀ x, s.seedStacks x = SeedQueue.empty := by
  obtain ⟨φ, ρ, q, h⟩ := inv_run hrun
  have hρ : ρ = .returned t := (h.control.token t .returned).mpr (by simp [hret])
  have hdone : ρ.status = .done := by rw [hρ]; rfl
  refine ⟨?_, ?_, ?_⟩
  · obtain ⟨how, hroot⟩ := h.finished_of_done hdone .root
    exact (h.nodes .root).output (by rw [hroot]; trivial)
  · intro F hF
    obtain ⟨how, hp⟩ := h.finished_of_done hdone hF
    rw [(h.nodes F).tally, hp]
    cases how <;> exact ⟨rfl, rfl⟩
  · intro x
    have hq : q x = [] := by
      refine List.eq_nil_iff_forall_not_mem.mpr fun F hF => ?_
      rw [h.queues.mem] at hF
      refine h.status_of_done hdone F ?_
      cases hp : φ F <;> simp [hp] at hF ⊢
    have hrep := h.queues.rep x
    rw [hq] at hrep
    exact hrep.eq_empty

/-- Two pthreads run `startfib(3)`, and pthread 1 steals the second child of the first frame. -/
theorem firstFork_correct_steal : ∃ s, run step (initial 1 3)
      (List.replicate 9 0 ++ List.replicate 18 1 ++ List.replicate 12 0) = some s ∧
    s.pc 0 = .returned ∧ (s.tally .root).thiefReleases = 1 ∧ (s.foos .root).output = 2 := by
  have h : (run step (initial 1 3)
      (List.replicate 9 0 ++ List.replicate 18 1 ++ List.replicate 12 0)).map
        (fun s => (s.pc 0, (s.tally .root).thiefReleases)) = some (.returned, 1) := by
    decide +kernel
  obtain ⟨s, hrun, hs⟩ := Option.map_eq_some_iff.mp h
  obtain ⟨hpc, hsteal⟩ := Prod.mk.inj hs
  refine ⟨s, hrun, hpc, hsteal, ?_⟩
  rw [(firstFork_correct hrun hpc).1]
  simp [fibValue]

/-! ### Seeds -/

/-- While its lock is free, a seed that its frame pushed and has not asked back is linked as
long as no thief has changed the return address. -/
theorem Follows.linked_iff (h : Follows n s φ ρ q) (hpush : 0 < (s.tally F).pushes)
    (hpass : (s.tally F).passes = 0) (hfree : s.seedStackLocks (s.frames F).ptid = none) :
    (s.seedStacks (s.frames F).ptid).Linked s.seeds F ↔
      (s.frames F).firstChildReturnAdr = some .firstChildDoneNormally := by
  have hn := h.nodes F
  rw [(h.queues.rep _).linked_iff, h.queues.mem]
  rw [hn.tally] at hpush hpass
  have hnobody : ∀ u, lockHeld s u (s.pc u) ≠ some (s.frames F).ptid := by
    intro u hu
    have := (h.locks _ u).mpr hu
    rw [hfree] at this
    cases this
  cases hp : φ F with
  | pre t l =>
    -- The pthread that pushes still holds the lock of its own queue.
    have hpc : s.pc t = .fib F l := h.pc_of_at (by rw [hp]; exact ⟨rfl, rfl⟩)
    have hheld := hnobody t
    have hframe := hn.frame
    rw [hp] at hpush hframe
    rw [hpc] at hheld
    have hl : l = .setReturnAdr ∨ l = .pushUnlock := by cases l <;> simp at hpush ⊢
    rcases hl with rfl | rfl
    · exact iff_of_false hheld (by rw [show _ = none from hframe]; simp)
    · exact absurd (congrArg some hframe.2.symm) hheld
  | both x y =>
    have hframe := hn.frame
    rw [hp] at hframe
    rcases h.second_cases hp with rfl | hpast | ⟨u, hu, -⟩
    · simpa using hframe.1
    · obtain ⟨hnone, hadr⟩ := hpast.taken (s.frames F).ptid
      rw [hframe.1, hadr]
      show y.linkedIn _ = _ ↔ _
      rw [hnone]
      simp
    · exact absurd hu (hnobody u)
  | finished how =>
    rw [hp] at hpush hpass
    cases how <;> simp at hpush hpass
  | idle => simp [hp] at hpush
  | normal | inB | joined => simp [hp] at hpass

/-- What the tally of a frame says in every phase: the seed is released at most once, and only
a frame whose seed was stolen decrements and joins. -/
theorem Phase.Valid.tally {p : Phase P} (hv : p.Valid) :
    p.tally.parentReleases + p.tally.thiefReleases ≤ 1 ∧ p.tally.decrements ≤ 2 ∧
      (0 < p.tally.decrements → p.tally.thiefReleases = 1) ∧ p.tally.joins ≤ 1 := by
  cases p with
  | both x y =>
    have hx := hv.1
    cases x <;> cases y <;> simp_all
  | finished how => cases how <;> simp
  | _ => simp

/-- A frame that is about to return, or has returned, has given up the seed it pushed. -/
theorem Follows.freed_of_ret (h : Follows n s φ ρ q)
    (hret : (∃ t, s.pc t = .fib F .ret) ∨ 0 < (s.tally F).returns)
    (hpush : 0 < (s.tally F).pushes) :
    (s.tally F).parentReleases + (s.tally F).thiefReleases = 1 ∧ (φ F).Freed ∧
      ∀ i, (φ F).linkedIn i = none := by
  rw [(h.nodes F).tally] at hret hpush ⊢
  rcases hret with ⟨t, hpc⟩ | hret
  · rcases h.place hpc (by simp) with hp | hp | hp <;> rw [hp] at hpush ⊢ <;> simp_all
  · cases hp : φ F with
    | finished how =>
      rw [hp] at hpush
      cases how <;> simp_all
    | _ => simp [hp] at hret

/-- Whoever is about to call `releaseSeed` on a seed finds it linked. -/
theorem Follows.linked_of_release (h : Follows n s φ ρ q)
    (hrel : s.pc t = .fib F .firstChildDoneNormally ∨ ∃ k, s.pc t = .takeSeed k F) :
    ∃ x, φ F = .both x .seed := by
  rcases hrel with hpc | ⟨k, hpc⟩
  · obtain ⟨y, hp⟩ : ∃ y, φ F = .both (.code t .firstChildDoneNormally) y :=
      h.place hpc (by simp)
    have hv := (h.nodes F).valid
    rw [hp] at hv
    exact ⟨_, hp.trans (by rw [show y = .seed from hv.1])⟩
  · obtain ⟨x, hp, -⟩ := h.taken hpc
    exact ⟨x, hp⟩

/-- A frame joins only when both of its children have returned. -/
theorem Follows.written_of_join (h : Follows n s φ ρ q) (hjoin : 0 < (s.tally F).joins) :
    0 < (s.tally (.a F)).writes ∧ 0 < (s.tally (.b F)).writes := by
  rw [(h.nodes F).tally] at hjoin
  have hdone : ∀ G, (φ G).status = .done → 0 < (s.tally G).writes := by
    intro G hG
    obtain ⟨how, hp⟩ := Phase.eq_finished hG
    rw [(h.nodes G).tally, hp]
    cases how <;> simp
  have hstatus : (φ F).statusA = .done ∧ (φ F).statusB = .done := by
    cases hp : φ F with
    | joined t l => exact ⟨rfl, rfl⟩
    | finished how =>
      rw [hp] at hjoin
      cases how <;> simp_all
    | _ => simp [hp] at hjoin
  exact ⟨hdone _ (by rw [h.edges.status]; exact hstatus.1),
    hdone _ (by rw [h.edges.status]; exact hstatus.2)⟩

/-- In every state that a run reaches, and for every frame `F`:

* while the lock of `ptid` is free, a seed that has been pushed and whose first child has not
  passed `seedStackLock(ptid)` is linked exactly if `firstChildReturnAdr` is
  `FirstChildDoneNormally`;
* the seed is released at most once, and once by the time the frame returns, and it is then
  freed and in no queue;
* `releaseSeed` finds the seed allocated;
* the frame decrements `syncCounter` at most twice and only after a steal, and reaches
  `AllReturned` at most once and only after both children have written their output. -/
theorem seed_ownership {ts : List (Tid P)} (hrun : run step (initial P n) ts = some s)
    (F : FooPtr) :
    (0 < (s.tally F).pushes → (s.tally F).passes = 0 →
      s.seedStackLocks (s.frames F).ptid = none →
      ((s.seedStacks (s.frames F).ptid).Linked s.seeds F ↔
        (s.frames F).firstChildReturnAdr = some .firstChildDoneNormally)) ∧
    (s.tally F).parentReleases + (s.tally F).thiefReleases ≤ 1 ∧
    ((∃ t, s.pc t = .fib F .ret) ∨ 0 < (s.tally F).returns → 0 < (s.tally F).pushes →
      (s.tally F).parentReleases + (s.tally F).thiefReleases = 1 ∧
        (s.seeds F).live = false ∧ ∀ x, ¬ (s.seedStacks x).Linked s.seeds F) ∧
    (∀ t, s.pc t = .fib F .firstChildDoneNormally ∨ (∃ k, s.pc t = .takeSeed k F) →
      (s.seeds F).live = true) ∧
    (0 < (s.tally F).decrements → (s.tally F).thiefReleases = 1) ∧
    (s.tally F).decrements ≤ 2 ∧ (s.tally F).joins ≤ 1 ∧
    (0 < (s.tally F).joins → 0 < (s.tally (.a F)).writes ∧ 0 < (s.tally (.b F)).writes) := by
  obtain ⟨φ, ρ, q, h⟩ := inv_run hrun
  have hn := h.nodes F
  obtain ⟨honce, htwo, hstolen, hjoin⟩ := hn.valid.tally
  rw [← hn.tally] at honce htwo hstolen hjoin
  refine ⟨h.linked_iff, honce, ?_, ?_, hstolen, htwo, hjoin, h.written_of_join⟩
  · intro hret hpush
    obtain ⟨hone, hfreed, hlinked⟩ := h.freed_of_ret hret hpush
    refine ⟨hone, hn.seed.2.2 hfreed, fun x => ?_⟩
    rw [(h.queues.rep x).linked_iff, h.queues.mem, hlinked]
    simp
  · intro t hrel
    obtain ⟨x, hp⟩ := h.linked_of_release hrel
    have hdata := hn.seed.2.1 (s.frames F).ptid (s.frames F).ptid (by rw [hp]; rfl)
    simp only [Seed.data, Prod.mk.injEq] at hdata
    exact hdata.2.2

/-- Behind its `seedStackUnlock` the first frame of `startfib(3)` has its seed in queue 0. -/
theorem seed_ownership_linked : ∃ s, run step (initial 1 3) (List.replicate 9 0) = some s ∧
    (s.seedStacks 0).Linked s.seeds .root := by
  have h : (run step (initial 1 3) (List.replicate 9 0)).map (fun s =>
      ((s.tally .root).pushes, (s.tally .root).passes, (s.frames .root).ptid,
        s.seedStackLocks 0, (s.frames .root).firstChildReturnAdr))
      = some (1, 0, 0, none, some .firstChildDoneNormally) := by
    decide +kernel
  obtain ⟨s, hrun, hs⟩ := Option.map_eq_some_iff.mp h
  simp only [Prod.mk.injEq] at hs
  obtain ⟨hpush, hpass, hptid, hfree, hadr⟩ := hs
  have hown := (seed_ownership hrun .root).1
  rw [hpush, hpass, hptid, hfree, hadr] at hown
  exact ⟨s, hrun, (hown Nat.one_pos rfl rfl).mpr rfl⟩

/-! ### Stacklets -/

/-- The stacklet that a pthread runs on. The functions of `suspend`, `stackletFork` and
`finishStubRoutine` run on the system stack. -/
def PC.stacklet (s : State P) : PC P → Option FooPtr
  | .fib F _ => some (s.frames F).home
  | .stubRoutine S => some S
  | _ => none

/-- The code of a frame that makes no call: a thief before the stack switch of
`stackletForkStub`, a finisher before its decrement, and a pthread that has only the stack
switch of `suspendStub` left. -/
def FibPC.CallFree (l : FibPC) : Prop :=
  l ∈ [FibPC.secondChildSteal, .setSyncCounter, .stackletForkStub, .secondChildDone, .suspendStub]

/-- A pthread in call-free code. -/
def PC.CallFree : PC P → Prop
  | .fib _ l => l.CallFree
  | _ => False

/-- A frame is live from its call to its return. -/
def Live (s : State P) (F : FooPtr) : Prop := (s.tally F).returns < (s.tally F).calls

/-- The live frames are those with an active phase. -/
theorem Follows.live_iff (h : Follows n s φ ρ q) (F : FooPtr) :
    Live s F ↔ (φ F).status = .active := by
  rw [Live, (h.nodes F).tally]
  cases φ F with
  | finished how => cases how <;> simp
  | _ => simp

/-- A pthread outside of the call-free code is in a live frame that runs no child above it. -/
theorem Follows.top_of_code (h : Follows n s φ ρ q) (hpc : s.pc t = .fib F l)
    (hl : ¬ l.CallFree) :
    (φ F).status = .active ∧ ∃ rest, s.stacklets (s.frames F).home = F :: rest := by
  have hne : l ≠ .suspendStub := by
    rintro rfl
    exact hl (by simp [FibPC.CallFree])
  have hp := h.place hpc hne
  have hshape : (φ F).status = .active ∧ ¬ (φ F).RunsA ∧ φ F ≠ .inB := by
    cases l <;> simp [FibPC.CallFree] at hl <;> simp only [Phase.Place] at hp
    case ret => rcases hp with hp | hp | hp <;> simp [hp]
    case callA | lockPtid | gotoReturnAdr | firstChildDoneNormally | firstChildDone
        | firstDecrement =>
      obtain ⟨y, hp⟩ := hp
      simp [hp]
    all_goals simp [hp]
  exact ⟨hshape.1, h.stacklets.top hshape.1 hshape.2.1 hshape.2.2⟩

/-- The second strand only runs call-free code in the frame. -/
theorem Second.Valid.callFree {y : Second P} {k : FibPC} (h : y.Valid) (hk : y.At t k) :
    k.CallFree := by
  cases y with
  | steal v l =>
    obtain ⟨-, rfl⟩ := hk
    cases k <;> first | exact h.elim | simp [FibPC.CallFree]
  | dec v =>
    obtain ⟨-, rfl⟩ := hk
    simp [FibPC.CallFree]
  | _ => exact hk.elim

/-- Two pthreads outside of the call-free code of a frame are the same. -/
theorem Follows.unique_in_frame {m : FibPC} (h : Follows n s φ ρ q) (ht : s.pc t = .fib F l)
    (hu : s.pc u = .fib F m) (hl : ¬ l.CallFree) (hm : ¬ m.CallFree) : t = u := by
  have hne : ∀ k : FibPC, ¬ k.CallFree → k ≠ .suspendStub := by
    rintro k hk rfl
    exact hk (by simp [FibPC.CallFree])
  have hat := h.at ht (hne l hl)
  have hau := h.at hu (hne m hm)
  have hv := (h.nodes F).valid
  cases hp : φ F with
  | both x y =>
    rw [hp] at hat hau hv
    -- The places in the second strand are call-free, so both are in the other one.
    have h₁ := hat.resolve_right fun h' => hl (hv.2.callFree h')
    have h₂ := hau.resolve_right fun h' => hm (hv.2.callFree h')
    cases x with
    | code v k => exact h₁.1.trans h₂.1.symm
    | _ => exact h₁.elim
  | pre v k | normal v k | joined v k =>
    rw [hp] at hat hau
    exact hat.1.trans hau.1.symm
  | _ => simp [hp] at hat

/-- In every state that a run reaches:

* a stacklet holds its live frames;
* at most one pthread runs on a stacklet outside of call-free code;
* a thief in a frame holds the lock of its `ptid` up to the stack switch;
* a pthread outside of call-free code, so at every call and at the return, is in the topmost
  live frame of the stacklet;
* when a pthread is at the store to `f->output` or at the `return`, every other pthread in the
  frame has only the stack switch of `suspendStub` left. -/
theorem stack_discipline {ts : List (Tid P)} (hrun : run step (initial P n) ts = some s) :
    (∀ S F, F ∈ s.stacklets S ↔ Live s F ∧ (s.frames F).home = S) ∧
    (∀ t u S, (s.pc t).stacklet s = some S → (s.pc u).stacklet s = some S →
      ¬ (s.pc t).CallFree → ¬ (s.pc u).CallFree → t = u) ∧
    (∀ t F l, s.pc t = .fib F l →
      l = .secondChildSteal ∨ l = .setSyncCounter ∨ l = .stackletForkStub →
      s.seedStackLocks (s.frames F).ptid = some t) ∧
    (∀ t F l, s.pc t = .fib F l → ¬ l.CallFree →
      ∃ rest, s.stacklets (s.frames F).home = F :: rest) ∧
    (∀ t u F l m, s.pc t = .fib F l → s.pc u = .fib F m → u ≠ t →
      l = .leaf ∨ l = .sum ∨ l = .allReturned ∨ l = .ret → m = .suspendStub) := by
  obtain ⟨φ, ρ, q, h⟩ := inv_run hrun
  refine ⟨?_, ?_, ?_, fun t F l hpc hl => (h.top_of_code hpc hl).2, ?_⟩
  · intro S F
    rw [h.live_iff, h.stacklets.mem]
  · intro t u S ht hu hft hfu
    -- The function at the base of a stacklet in `stubRoutine` has returned.
    have hstub : ∀ v w F l, s.pc v = .stubRoutine S → s.pc w = .fib F l →
        (s.frames F).home = S → l.CallFree := by
      intro v w F l hv hw hhome
      by_contra hl
      have hactive := h.home_active F (h.top_of_code hw hl).1
      have hfork : forkOf φ ρ S = some (.stub v) :=
        (h.control.token v (.stub S)).mpr (by simp [hv])
      rw [hhome, h.edges.status, statusIn_of_fork hfork] at hactive
      cases hactive
    cases hpt : s.pc t with
    | fib F l =>
      rw [hpt] at ht hft
      obtain rfl := Option.some.inj ht
      cases hpu : s.pc u with
      | fib G m =>
        rw [hpu] at hu hfu
        obtain ⟨rest, hF⟩ := (h.top_of_code hpt hft).2
        obtain ⟨rest', hG⟩ := (h.top_of_code hpu hfu).2
        rw [Option.some.inj hu, hF] at hG
        obtain rfl := (List.cons.inj hG).1
        exact h.unique_in_frame hpt hpu hft hfu
      | stubRoutine R =>
        rw [hpu] at hu
        obtain rfl := Option.some.inj hu
        exact absurd (hstub u t F l hpu hpt rfl) hft
      | _ => simp [hpu, PC.stacklet] at hu
    | stubRoutine R =>
      rw [hpt] at ht
      obtain rfl := Option.some.inj ht
      cases hpu : s.pc u with
      | fib G m =>
        rw [hpu] at hu hfu
        exact absurd (hstub t u G m hpt hpu (Option.some.inj hu)) hfu
      | stubRoutine R' =>
        rw [hpu] at hu
        obtain rfl := Option.some.inj hu
        have h₁ := (h.control.token t (.stub R')).mpr (by simp [hpt])
        have h₂ := (h.control.token u (.stub R')).mpr (by simp [hpu])
        simpa using h₁.symm.trans h₂
      | _ => simp [hpu, PC.stacklet] at hu
    | _ => simp [hpt, PC.stacklet] at ht
  · intro t F l hpc hl
    refine (h.locks _ t).mpr ?_
    rw [hpc]
    rcases hl with rfl | rfl | rfl <;> rfl
  · intro t u F l m ht hu hne hl
    by_contra hm
    have hplace := h.place ht (by rcases hl with rfl | rfl | rfl | rfl <;> simp)
    have hat := h.at hu hm
    -- In each of these phases pthread `t` is alone in the frame.
    have halone : (φ F).At u m → u = t := by
      rcases hl with rfl | rfl | rfl | rfl
      case inr.inr.inr => rcases hplace with hp | hp | hp <;> rw [hp] <;> exact fun h' => h'.1
      all_goals
        have hp : φ F = _ := hplace
        rw [hp]
        exact fun h' => h'.1
    exact hne (halone hat)

/-- Pthread 1 is in the first frame as a thief while pthread 0 runs the first child above it. -/
theorem stack_discipline_steal : ∃ s, run step (initial 1 3)
      (List.replicate 9 0 ++ List.replicate 7 1 ++ [0]) = some s ∧
    s.seedStackLocks (s.frames .root).ptid = some 1 ∧
    ∃ rest, s.stacklets (s.frames (.a .root)).home = .a .root :: rest := by
  have h : (run step (initial 1 3) (List.replicate 9 0 ++ List.replicate 7 1 ++ [0])).map
      (fun s => (s.pc 0, s.pc 1)) =
        some (.fib (.a .root) .start, .fib .root .secondChildSteal) := by
    decide +kernel
  obtain ⟨s, hrun, hs⟩ := Option.map_eq_some_iff.mp h
  obtain ⟨h₀, h₁⟩ := Prod.mk.inj hs
  obtain ⟨-, -, hthief, htop, -⟩ := stack_discipline hrun
  exact ⟨s, hrun, hthief 1 .root _ h₁ (.inl rfl), htop 0 _ _ h₀ (by simp [FibPC.CallFree])⟩

/-! ### Locks -/

/-- The seed lock that a pthread asks for in its next step. -/
def PC.locks (s : State P) (t : Tid P) : PC P → Option (Tid P)
  | .firstFork => some 0
  | .fib _ .pushLock => some t
  | .fib F .lockPtid => some (s.frames F).ptid
  | .peekLock k => some (k.victim t)
  | _ => none

/-- The seed lock that a pthread releases in its next step. -/
def PC.unlocks (s : State P) (t : Tid P) : PC P → Option (Tid P)
  | .stackletFork _ _ _ x => some x
  | .fib _ .pushUnlock => some t
  | .fib F .unlockNormally => some (s.frames F).ptid
  | .fib F .firstChildDone => some (s.frames F).ptid
  | .peekUnlock k => some (k.victim t)
  | _ => none

/-- In every state that a run reaches, and for every pthread `t`: the lock that `t` is about
to release is held by `t`, the lock that `t` is about to take is not, `t` holds at most one
lock, it holds none at the start of `fib`, at the head of the loop of `suspend` and behind
`firstFork`, and no assertion of `t` has failed. -/
theorem lock_discipline {ts : List (Tid P)} (hrun : run step (initial P n) ts = some s)
    (t : Tid P) :
    (∀ x, (s.pc t).unlocks s t = some x → s.seedStackLocks x = some t) ∧
    (∀ x, (s.pc t).locks s t = some x → s.seedStackLocks x ≠ some t) ∧
    (∀ x y, s.seedStackLocks x = some t → s.seedStackLocks y = some t → x = y) ∧
    ((∃ F, s.pc t = .fib F .start) ∨ s.pc t = .peek .own ∨ s.pc t = .returned →
      ∀ x, s.seedStackLocks x ≠ some t) ∧
    s.pc t ≠ .assertFailed := by
  obtain ⟨φ, ρ, q, h⟩ := inv_run hrun
  -- the control point alone says which lock the pthread holds
  have hlocks := fun x => h.locks x t
  refine ⟨?_, ?_, ?_, ?_, ?_⟩
  · intro x hx
    rw [hlocks]
    cases hpc : s.pc t with
    | fib F l => cases l <;> simp_all [PC.unlocks]
    | _ => simp_all [PC.unlocks]
  · intro x hx
    rw [ne_eq, hlocks]
    cases hpc : s.pc t with
    | fib F l => cases l <;> simp_all [PC.locks]
    | _ => simp_all [PC.locks]
  · intro x y hx hy
    rw [hlocks] at hx hy
    exact Option.some.inj (hx.symm.trans hy)
  · intro hpc x
    rw [ne_eq, hlocks]
    rcases hpc with ⟨F, hpc⟩ | hpc | hpc <;> simp [hpc]
  · intro hpc
    have := h.control.ok t
    rw [hpc] at this
    exact this

/-- The thief holds lock 0 when it comes to the `seedStackUnlock` in `stackletFork`. -/
theorem lock_discipline_steal : ∃ s, run step (initial 1 3)
      (List.replicate 9 0 ++ List.replicate 10 1) = some s ∧ s.seedStackLocks 0 = some 1 := by
  have h : (run step (initial 1 3) (List.replicate 9 0 ++ List.replicate 10 1)).map
      (fun s => (s.pc 1).unlocks s 1) = some (some 0) := by
    decide +kernel
  obtain ⟨s, hrun, hs⟩ := Option.map_eq_some_iff.mp h
  exact ⟨s, hrun, (lock_discipline hrun 1).1 0 hs⟩

end

end Stacklets.LazyFork

import Stacklets.Mythreads.ForkJoin

/-!
# `Stacklets.Mythreads.Lifetime`: the records of the mythreads and `freeThread`

The record of a mythread is freed by the one that joins it: in `mythread_join`, when it finds the
mythread done, or in `mythread_yield_and_wait`, when it was blocked. `Pool.touches` lists the
records whose fields a step reads or writes. The stack of a mythread is not one of the fields.

* `record_lifetime`: in a fork-join program where every join finds the other mythread done, a
  record is freed once, behind the last unlock of the exit, and nobody touches it any more.
* `touches_freed_record`: in `mythread_yield_and_wait` the lock is unlocked behind `freeThread`.
-/

set_option autoImplicit false

namespace Stacklets.Mythreads

open Function (update update_self update_of_ne forall_update_iff)
open Lib

/-! ### Roles -/

section
variable {P M : Type*}

/-- What a thread at a task has to do with a record. -/
inductive Role (M : Type*)
  /-- In a join with `x`, up to the test of its `Done` bit. -/
  | early (x : M)
  /-- Behind the test. -/
  | late (x : M)
  /-- In the exit of `x`, behind `setDone` and with its lock. -/
  | exits (x : M)
  /-- Blocked in a join, or back from there. -/
  | blocked
  | other

/-- The role of a thread at a task. -/
def Task.role : Task M → Role M
  | .joinLock _ x | .joinTest _ x => .early x
  | .joinDetach _ x | .joinUnlock _ x | .joinFree _ x => .late x
  | .joinPush _ _ | .joinSave _ _ | .joinSwitch _ _ | .joinRelease _ => .blocked
  | .wakeLock _ _ | .wakeFree _ _ | .wakeUnlock _ _ => .blocked
  | .exitTest m | .exitTake m | .exitUnlock m _ | .exitWaiters m | .exitLoop m _ _
  | .exitInsert m _ _ _ | .exitClear m _ | .exitSwitch m _ | .exitRelease m _ => .exits m
  | _ => .other

/-- The records whose fields the next step of a thread at a task reads or writes. -/
def Task.touches (k : Task M) (c : Call (Item M)) : List M :=
  match k with
  | .schedule => (c.taken.bind Item.mythread).toList
  | .createPush _ x | .createFlag _ x | .createResume _ x => [x]
  | .createSave m _ => [m]
  | .joinLock _ x | .joinTest _ x | .joinDetach _ x | .joinUnlock _ x | .joinFree _ x => [x]
  -- `waitingon` of `m` is written too
  | .joinPush m x => [x, m]
  | .joinSave m _ => [m]
  | .joinRelease x => [x]
  | .wakeLock _ x | .wakeFree _ x => [x]
  -- `lastjoin` of `m` is read
  | .wakeUnlock m x => [x, m]
  | .exitLock m | .exitDone m | .exitTest m | .exitTake m | .exitUnlock m _ | .exitWaiters m
  | .exitClear m _ | .exitRelease m _ => [m]
  | .exitLoop _ ws _ => ws.head?.toList
  | .exitResume _ w | .exitNext _ w => w.toList
  | _ => []

namespace Pool

/-- The records whose fields the next step reads or writes. The steps of `sbuf_insert` and
`sbuf_remove` use the addresses only. -/
def touches (s : Pool P M) : PoolAct P M → List M
  | .go t => if (s.sys.calls t).isFree then (s.tasks t).touches (s.sys.calls t) else []
  -- the new record, and `children` of the one that creates it
  | .create t child => child :: (s.tasks t).body.toList
  | _ => []

/-- A join finds the other mythread done. -/
def FindsDone (s : Pool P M) : PoolAct P M → Prop
  | .go t => ∀ m x, s.tasks t = .joinTest m x → (s.records x).done = true
  | _ => True

end Pool

/-! ### What a step does to the roles -/

/-- How the record of `x` gets older in a step of a thread at the task `k`. -/
structure Record.Ages (k : Task M) (x : M) (r r' : Record P M) : Prop where
  finished : r.finished = true → r'.finished = true
  joinCalled : r.joinCalled = true → r'.joinCalled = true
  freed : r.freed = true → r'.freed = true
  frees : r'.freed = true → r.freed = true ∨ ∃ m, k = .joinFree m x ∨ k = .wakeFree m x
  context : ∀ y, r'.context = .inJoin y → r.context = .inJoin y ∨ k = .joinSave x y

/-- A record that stays as it is. -/
theorem Record.Ages.refl (k : Task M) (x : M) (r : Record P M) : r.Ages k x r :=
  ⟨id, id, id, .inl, fun _ => .inl⟩

/-- The role of a thread behind a step from the task `k`. -/
inductive Pool.RoleStep (s : Pool P M) (k : Task M) : Role M → Prop
  | same (h : ∀ m x, k ≠ .joinFree m x) : RoleStep s k k.role
  | other : RoleStep s k .other
  | early (x : M) (h : (s.records x).joinCalled = false) : RoleStep s k (.early x)
  | late (m x : M) (h : k = .joinTest m x) : RoleStep s k (.late x)
  | exits (m : M) (h : k = .exitDone m) : RoleStep s k (.exits m)
  | blocks (m x : M) (h : k = .joinTest m x) (hdone : (s.records x).done = false) :
      RoleStep s k .blocked
  | wakes (m x : M) (h : (s.records m).context = .inJoin x) : RoleStep s k .blocked

/-- The step that ends a join of a mythread that is done. -/
def Task.isJoinFree : Task M → Bool
  | .joinFree _ _ => true
  | _ => false

/-- The test for `joinFree` is right. -/
theorem Task.ne_joinFree {k : Task M} (h : k.isJoinFree = false) (m x : M) : k ≠ .joinFree m x := by
  rintro rfl
  cases h

/-- A thread keeps its role except at the end of a join. -/
theorem Pool.RoleStep.keep {s : Pool P M} {k : Task M} (h : k.isJoinFree = false) :
    s.RoleStep k k.role :=
  .same (k.ne_joinFree h)

/-- What a step of `t` does to its role and to the records. -/
structure Pool.Traces (s s' : Pool P M) (t : Option P) : Prop where
  tasks : ∀ u, u ≠ t → s'.tasks u = s.tasks u
  role : s.RoleStep (s.tasks t) (s'.tasks t).role
  records : ∀ x, (s.records x).Ages (s.tasks t) x (s'.records x)
  joins : ∀ e ∈ s'.joins, e ∈ s.joins ∨ (∃ m, s.tasks t = .joinFree m e.2.1 ∨
    s.tasks t = .wakeUnlock m e.2.1)
  frees : ∀ m x, s.tasks t = .joinFree m x → (s'.records x).freed = true

end

section
variable {P M : Type*} [DecidableEq P] [DecidableEq M] {s s' : Pool P M} {t : Option P} {p : P}
  {k k' : Task M} {m x : M} {r : Record P M}

namespace Pool

omit [DecidableEq P] in
/-- One record gets older and the others stay. -/
theorem ages_update (h : (s.records x).Ages k x r) (y : M) :
    (s.records y).Ages k y (update s.records x r y) :=
  (forall_update_iff s.records fun y r => (s.records y).Ages k y r).mpr
    ⟨h, fun _ _ => .refl ..⟩ y

omit [DecidableEq M] in
/-- A step that is not the end of a join. -/
theorem traces_of_turn (hk : s.tasks t = k) (htasks : s'.tasks = update s.tasks t k')
    (hrole : s.RoleStep k k'.role) (hrecords : ∀ y, (s.records y).Ages k y (s'.records y))
    (hjoins : s'.joins = s.joins) (hfree : k.isJoinFree = false) : s.Traces s' t := by
  subst hk
  refine ⟨fun u hu => by rw [htasks, update_of_ne hu], ?_, hrecords, ?_,
    fun m x h => absurd h (Task.ne_joinFree hfree m x)⟩
  · rw [htasks, update_self]
    exact hrole
  · intro e he
    rw [hjoins] at he
    exact .inl he

/-- `mythread_resume`. -/
theorem traces_of_resume (hk : s.tasks (some p) = k) (hfree : k.isJoinFree = false)
    (htasks : s'.tasks = update s.tasks (some p) ((s.records m).context.task m))
    (hrecords : s'.records = update s.records m (s.records m).resumed)
    (hjoins : s'.joins = s.joins) : s.Traces s' (some p) := by
  refine traces_of_turn hk htasks ?_ ?_ hjoins hfree
  · cases hcon : (s.records m).context with
    | fresh | inCreate => exact .other
    | inJoin y => exact .wakes m y hcon
  · rw [hrecords]
    exact ages_update ⟨id, id, id, .inl, fun _ => .inl⟩

/-- What each step of a pthread does to the roles. -/
theorem traces_of_taskStep (hs : s.taskStep p = some s') : s.Traces s' (some p) := by
  -- a write to one record that neither frees it nor saves a context
  have hplain : ∀ {k : Task M} {x : M} {r : Record P M},
      ((s.records x).finished = true → r.finished = true) →
      ((s.records x).joinCalled = true → r.joinCalled = true) →
      r.freed = (s.records x).freed →
      (∀ y, r.context = .inJoin y → (s.records x).context = .inJoin y ∨ k = .joinSave x y) →
      ∀ y, (s.records y).Ages k y (update s.records x r y) :=
    fun hfin hcalled hfreed hcontext => ages_update
      ⟨hfin, hcalled, fun h => hfreed.trans h, fun h => .inl (hfreed.symm.trans h), hcontext⟩
  cases hk : s.tasks (some p) <;> simp only [Pool.taskStep, hk] at hs
  case start =>
    split at hs <;> cases hs
    exact traces_of_turn hk rfl .other (fun _ => .refl ..) rfl rfl
  case schedule =>
    split at hs
    · cases hs
      exact traces_of_resume hk rfl rfl rfl rfl
    · cases hs
      exact traces_of_turn hk rfl .other (fun _ => .refl ..) rfl rfl
    · cases hs
  case create m x =>
    split at hs
    · cases hs
      exact traces_of_turn hk rfl .other (fun _ => .refl ..) rfl rfl
    · cases hs
      exact traces_of_turn hk rfl .other (fun _ => .refl ..) rfl rfl
    · cases hs
  case createPush m x =>
    cases hs
    exact traces_of_turn hk rfl .other (hplain id id rfl fun _ => .inl) rfl rfl
  case createFlag m x =>
    cases hs
    exact traces_of_turn hk rfl .other (hplain id id rfl fun _ => .inl) rfl rfl
  case createSave m x =>
    cases hs
    exact traces_of_turn hk rfl .other (hplain id id rfl (by simp)) rfl rfl
  case createResume m x =>
    cases hs
    exact traces_of_resume hk rfl rfl rfl rfl
  case joinLock m x | exitLock m | wakeLock m x =>
    obtain ⟨-, heq⟩ := Option.ite_none_right_eq_some.mp hs
    cases heq
    exact traces_of_turn hk rfl (.keep rfl) (hplain id id rfl fun _ => .inl) rfl rfl
  case joinTest m x =>
    split at hs
    · cases hs
      exact traces_of_turn hk rfl (.late m x rfl) (fun _ => .refl ..) rfl rfl
    · rename_i hdone
      cases hs
      exact traces_of_turn hk rfl (.blocks m x rfl (Bool.eq_false_iff.mpr hdone))
        (fun _ => .refl ..) rfl rfl
  case joinDetach m x | joinUnlock m x | exitTake m | exitClear m w =>
    cases hs
    exact traces_of_turn hk rfl (.keep rfl) (hplain id id rfl fun _ => .inl) rfl rfl
  case joinSwitch m x | exitWaiters m | exitSwitch m w =>
    cases hs
    exact traces_of_turn hk rfl (.keep rfl) (fun _ => .refl ..) rfl rfl
  case joinFree m x =>
    cases hs
    refine ⟨fun u hu => update_of_ne hu .., ?_,
      ages_update ⟨id, id, fun _ => rfl, fun _ => .inr ⟨m, .inl hk⟩, fun _ => .inl⟩, ?_, ?_⟩
    · rw [hk]
      show s.RoleStep _ (update s.tasks (some p) (.run m) (some p)).role
      rw [update_self]
      exact .other
    · intro e he
      rcases List.mem_append.mp he with hold | hnew
      · exact .inl hold
      · rw [List.mem_singleton.mp hnew]
        exact .inr ⟨m, .inl hk⟩
    · intro v y h
      cases hk.symm.trans h
      show (update s.records x _ x).freed = true
      rw [update_self]
  case joinPush m x =>
    cases hs
    exact traces_of_turn hk rfl (.keep rfl) (hplain id id rfl fun _ => .inl) rfl rfl
  case joinSave m x =>
    cases hs
    exact traces_of_turn hk rfl (.keep rfl)
      (hplain id id rfl fun y h => .inr (by rw [Context.inJoin.inj h])) rfl rfl
  case joinRelease x =>
    cases hs
    exact traces_of_turn hk rfl .other (hplain id id rfl fun _ => .inl) rfl rfl
  case wakeFree m x =>
    cases hs
    exact traces_of_turn hk rfl (.keep rfl)
      (ages_update ⟨id, id, fun _ => rfl, fun _ => .inr ⟨m, .inr rfl⟩, fun _ => .inl⟩) rfl rfl
  case wakeUnlock m x =>
    cases hs
    refine ⟨fun u hu => update_of_ne hu .., ?_, hplain id id rfl fun _ => .inl, ?_, ?_⟩
    · show s.RoleStep _ (update s.tasks (some p) (.run m) (some p)).role
      rw [update_self]
      exact .other
    · intro e he
      rcases List.mem_append.mp he with hold | hnew
      · exact .inl hold
      · rw [List.mem_singleton.mp hnew]
        exact .inr ⟨m, .inr hk⟩
    · intro v y h
      cases hk.symm.trans h
  case exitDone m =>
    cases hs
    exact traces_of_turn hk rfl (.exits m rfl) (hplain (fun _ => rfl) id rfl fun _ => .inl) rfl
      rfl
  case exitTest m =>
    split at hs <;> cases hs <;>
      exact traces_of_turn hk rfl (.keep rfl) (fun _ => .refl ..) rfl rfl
  case exitUnlock m w | exitRelease m w =>
    cases hs
    exact traces_of_turn hk rfl .other (hplain id id rfl fun _ => .inl) rfl rfl
  case exitResume m w =>
    cases w with
    | some w =>
      cases hs
      exact traces_of_resume hk rfl rfl rfl rfl
    | none =>
      cases hs
      exact traces_of_turn hk rfl .other (fun _ => .refl ..) rfl rfl
  case exitLoop m ws parent =>
    cases ws with
    | nil =>
      cases hs
      exact traces_of_turn hk rfl (.keep rfl) (fun _ => .refl ..) rfl rfl
    | cons w ws =>
      cases hs
      exact traces_of_turn hk rfl (.keep rfl) (hplain id id rfl fun _ => .inl) rfl rfl
  case exitInsert m w ws parent =>
    split at hs
    · cases hs
      exact traces_of_turn hk rfl (.keep rfl) (fun _ => .refl ..) rfl rfl
    · cases hs
      exact traces_of_turn hk rfl (.keep rfl) (fun _ => .refl ..) rfl rfl
    · cases hs
  case exitNext m w =>
    cases w with
    | some w =>
      cases hs
      exact traces_of_resume hk rfl rfl rfl rfl
    | none =>
      cases hs
      exact traces_of_turn hk rfl .other (fun _ => .refl ..) rfl rfl
  -- the body of a mythread, and the tasks that are over
  all_goals cases hs

omit [DecidableEq M] in
/-- What each step of the program does to the roles. -/
theorem traces_of_mainStep (hs : s.mainStep = some s') : s.Traces s' none := by
  unfold Pool.mainStep at hs
  split at hs
  · rename_i hk _
    cases hs
    exact traces_of_turn hk rfl .other (fun _ => .refl ..) rfl rfl
  · rename_i hk _
    cases hs
    exact traces_of_turn hk rfl .other (fun _ => .refl ..) rfl rfl
  · cases hs

/-- `mythread_create` up to its call of `sbuf_insert`. -/
theorem traces_of_callCreate (hI : s.Inv) {parent : Option M} (hk : s.tasks t = k)
    (hs : s.callCreate t x parent k' = some s') (hrole : k'.role = .other)
    (hfree : k.isJoinFree = false) : s.Traces s' t := by
  obtain ⟨hnew, heq⟩ := Option.ite_none_left_eq_some.mp hs
  cases heq
  refine traces_of_turn hk rfl (by rw [hrole]; exact .other) (ages_update ?_) rfl hfree
  rw [(hI.records x).blank (Bool.eq_false_iff.mpr hnew)]
  exact ⟨nofun, nofun, nofun, nofun, nofun⟩

section
variable [Fintype P] {n : Capacity} {a : PoolAct P M}

/-- Every step of a fork-join program is one of some thread. -/
theorem traces_of_step (hok : PoolOk n s) (hI : s.Inv) (hfj : s.ForkJoin a)
    (hdone : s.FindsDone a) (hs : s.step n a = some s') :
    ∃ t, s.Traces s' t ∧ ∀ m x, s.tasks t = .joinTest m x → (s.records x).done = true := by
  cases Pool.stepOf hs with
  | main hfree hs => exact ⟨none, traces_of_mainStep hs, hdone⟩
  | task p hfree hs => exact ⟨some p, traces_of_taskStep hs, hdone⟩
  | call t sys hbusy =>
    -- a thread that frees a record is in no call
    have hfree : ∀ m x, s.tasks t ≠ .joinFree m x := by
      intro m x hk
      have hfits := hok.fits t
      rw [hk] at hfits
      exact absurd hfits (Bool.eq_false_iff.mp hbusy)
    exact ⟨t, ⟨fun _ _ => rfl, .same hfree, fun _ => .refl .., fun _ => .inl,
      fun m x h => absurd h (hfree m x)⟩, hdone⟩
  | create x hmain hs =>
    exact ⟨none, traces_of_callCreate hI hmain.1 hs rfl rfl, by rw [hmain.1]; simp⟩
  | fork p m x hk hs => exact ⟨some p, traces_of_callCreate hI hk hs rfl rfl, by rw [hk]; simp⟩
  | join p m who hk =>
    refine ⟨some p, ?_, by rw [hk]; simp⟩
    exact traces_of_turn hk rfl (.early who (hfj m hk).2)
      (ages_update ⟨id, fun _ => rfl, id, .inl, fun _ => .inl⟩) rfl rfl
  | exit p m hk =>
    exact ⟨some p, traces_of_turn hk rfl .other (fun _ => .refl ..) rfl rfl, by rw [hk]; simp⟩
  | start hmain =>
    refine ⟨none, ⟨fun _ _ => rfl, .same ?_, fun _ => .refl .., fun _ => .inl, ?_⟩, ?_⟩ <;>
      rw [hmain.1] <;> simp

end

/-! ### Lifetimes -/

/-- The exit of `x` has released its lock, if it has come that far. -/
def ExitOver (s : Pool P M) (x : M) : Prop := ∀ u, (s.tasks u).role ≠ .exits x

/-- The record of `x` is not used any more. -/
structure Gone (s : Pool P M) (x : M) : Prop where
  finished : (s.records x).finished = true
  joinCalled : (s.records x).joinCalled = true
  unused : ∀ u, (s.tasks u).role ≠ .early x ∧ (s.tasks u).role ≠ .late x
  exited : s.ExitOver x

/-- What holds for the records when no join is blocked. -/
structure Lifetimes (s : Pool P M) : Prop where
  unblocked : ∀ t, (s.tasks t).role ≠ .blocked
  contexts : ∀ m y, (s.records m).context ≠ .inJoin y
  late : ∀ t x, (s.tasks t).role = .late x → s.ExitOver x
  freed : ∀ x, (s.records x).freed = true → s.Gone x
  joins : ∀ e ∈ s.joins, (s.records e.2.1).freed = true

omit [DecidableEq P] [DecidableEq M] in
/-- No record is in use yet. -/
theorem lifetimes_initial : (Pool.initial P M).Lifetimes where
  unblocked t := by rcases t with _ | _ <;> nofun
  contexts _ _ := nofun
  late t x h := by rcases t with _ | _ <;> cases h
  freed x h := nomatch h
  joins e he := nomatch he

omit [DecidableEq P] [DecidableEq M] in
/-- A thread in a join with `x` executes the body of the parent of `x`. -/
theorem Inv.parent_of_role (hI : s.Inv)
    (h : (s.tasks t).role = .early x ∨ (s.tasks t).role = .late x) :
    ∃ m, (s.records x).parent = some m ∧ (s.tasks t).body = some m := by
  have htask := hI.tasks t
  cases hk : s.tasks t with
  | joinLock m y | joinTest m y | joinDetach m y | joinUnlock m y | joinFree m y =>
    rw [hk] at h htask
    have hy : y = x := by
      rcases h with h | h <;> cases h
      rfl
    subst hy
    exact ⟨m, htask.1, rfl⟩
  | _ =>
    rw [hk] at h
    rcases h with h | h <;> cases h

omit [DecidableEq P] [DecidableEq M] in
/-- Behind the test of the `Done` bit, the other mythread has finished. -/
theorem Inv.finished_of_late (hI : s.Inv) (h : (s.tasks t).role = .late x) :
    (s.records x).finished = true ∧ (s.records x).joinCalled = true := by
  have htask := hI.tasks t
  cases hk : s.tasks t with
  | joinDetach m y | joinUnlock m y | joinFree m y =>
    rw [hk] at h htask
    cases h
    exact ⟨htask.2.2, htask.2.1⟩
  | _ =>
    rw [hk] at h
    cases h

omit [DecidableEq P] [DecidableEq M] in
/-- A thread in the role of an exit has the lock of its mythread. -/
theorem Inv.locks_of_exits (h : (s.tasks t).role = .exits x) :
    (s.tasks t).locks = some x ∧ (s.tasks t).exiting = some x := by
  cases hk : s.tasks t with
  | exitTest _ | exitTake _ | exitUnlock _ _ | exitWaiters _ | exitLoop _ _ _ | exitInsert _ _ _ _
  | exitClear _ _ | exitSwitch _ _ | exitRelease _ _ =>
    rw [hk] at h
    cases h
    exact ⟨rfl, rfl⟩
  | _ =>
    rw [hk] at h
    cases h

omit [DecidableEq P] [DecidableEq M] in
/-- A thread that is about to execute `setDone(x)` finds `x` not finished. -/
theorem Inv.not_finished_of_exitDone (hI : s.Inv) (hk : s.tasks t = .exitDone x) :
    (s.records x).finished = false := by
  have h := hI.body t x (by rw [hk]; rfl)
  rw [hk] at h
  exact h

/-! ### Steps -/

omit [DecidableEq P] [DecidableEq M] in
/-- The exit of a finished mythread does not begin again. -/
theorem Traces.exitOver_keep (hT : s.Traces s' t) (hI : s.Inv)
    (hfin : (s.records x).finished = true) (h : s.ExitOver x) : s'.ExitOver x := by
  intro u hu
  by_cases hut : u = t
  · subst hut
    generalize hrole : (s'.tasks u).role = ρ at hu
    have hstep := hT.role
    rw [hrole] at hstep
    cases hstep with
    | same => exact h u hu
    | exits m hk =>
      cases hu
      exact absurd (hfin.symm.trans (hI.not_finished_of_exitDone hk)) nofun
    | _ => cases hu
  · rw [hT.tasks u hut] at hu
    exact h u hu

omit [DecidableEq P] [DecidableEq M] in
/-- A record that is not used stays so. -/
theorem Traces.gone_keep (hT : s.Traces s' t) (hI : s.Inv) (h : s.Gone x) : s'.Gone x := by
  refine ⟨(hT.records x).finished h.finished, (hT.records x).joinCalled h.joinCalled, ?_,
    hT.exitOver_keep hI h.finished h.exited⟩
  intro u
  by_cases hut : u = t
  · subst hut
    generalize hrole : (s'.tasks u).role = ρ
    have hstep := hT.role
    rw [hrole] at hstep
    cases hstep with
    | same => exact h.unused u
    | early y hcalled =>
      refine ⟨fun hy => ?_, nofun⟩
      cases hy
      exact absurd (h.joinCalled.symm.trans hcalled) nofun
    | late m y hk =>
      refine ⟨nofun, fun hy => ?_⟩
      cases hy
      exact (h.unused u).1 (by rw [hk]; rfl)
    | _ => exact ⟨nofun, nofun⟩
  · rw [hT.tasks u hut]
    exact h.unused u

omit [DecidableEq P] [DecidableEq M] in
/-- A record that is freed now is not used any more. -/
theorem Lifetimes.gone_of_joinFree (hL : s.Lifetimes) (hI : s.Inv) (hT : s.Traces s' t)
    (hk : s.tasks t = .joinFree m x) : s'.Gone x := by
  have hlate : (s.tasks t).role = .late x := by rw [hk]; rfl
  obtain ⟨hfin, hcalled⟩ := hI.finished_of_late hlate
  refine ⟨(hT.records x).finished hfin, (hT.records x).joinCalled hcalled, ?_,
    hT.exitOver_keep hI hfin (hL.late t x hlate)⟩
  intro u
  by_cases hut : u = t
  · subst hut
    generalize hrole : (s'.tasks u).role = ρ
    have hstep := hT.role
    rw [hrole, hk] at hstep
    cases hstep with
    | same h => exact absurd rfl (h m x)
    | early y h =>
      refine ⟨fun hy => ?_, nofun⟩
      cases hy
      exact absurd (hcalled.symm.trans h) nofun
    | late m y h => cases h
    | _ => exact ⟨nofun, nofun⟩
  · rw [hT.tasks u hut]
    -- the parent of `x` is the one that joins it, and it is in one place
    have hother : ¬ ((s.tasks u).role = .early x ∨ (s.tasks u).role = .late x) := by
      intro hu
      obtain ⟨v, hv, hbody⟩ := hI.parent_of_role hu
      obtain ⟨w, hw, hbody'⟩ := hI.parent_of_role (.inr hlate)
      cases hv.symm.trans hw
      exact hut (hI.hand_unique (mem_hands_body hbody) (mem_hands_body hbody'))
    exact ⟨fun h => hother (.inl h), fun h => hother (.inr h)⟩

omit [DecidableEq P] [DecidableEq M] in
/-- A thread that has found `x` done has the lock, so the exit of `x` has released it. -/
theorem Inv.exitOver_of_joinTest (hI : s.Inv) (hT : s.Traces s' t)
    (hk : s.tasks t = .joinTest m x) (hdone : (s.records x).done = true) : s'.ExitOver x := by
  refine hT.exitOver_keep hI ((hI.records x).done hdone) fun u hu => ?_
  obtain rfl := hI.lock_unique (t := t) (by rw [hk]; rfl) (Inv.locks_of_exits hu).1
  rw [hk] at hu
  cases hu

omit [DecidableEq P] [DecidableEq M] in
/-- Every step keeps the lifetimes, if a join finds its mythread done. -/
theorem Lifetimes.step (hL : s.Lifetimes) (hI : s.Inv) (hT : s.Traces s' t)
    (hdone : ∀ m x, s.tasks t = .joinTest m x → (s.records x).done = true) : s'.Lifetimes := by
  have hne : ∀ {k'}, s.tasks t = k' → k'.role ≠ .blocked := by
    rintro _ rfl
    exact hL.unblocked t
  constructor
  case unblocked =>
    intro u hu
    by_cases hut : u = t
    · subst hut
      generalize hrole : (s'.tasks u).role = ρ at hu
      have hstep := hT.role
      rw [hrole] at hstep
      cases hstep with
      | same => exact hL.unblocked u hu
      -- every join finds its mythread done, so nobody gets blocked
      | blocks m x hk hnot => exact absurd ((hdone m x hk).symm.trans hnot) nofun
      | wakes m x hcontext => exact hL.contexts m x hcontext
      | _ => cases hu
    · rw [hT.tasks u hut] at hu
      exact hL.unblocked u hu
  case contexts =>
    intro m y hy
    rcases (hT.records m).context y hy with hold | hk
    · exact hL.contexts m y hold
    · exact hne hk rfl
  case late =>
    intro u x hu
    by_cases hut : u = t
    · subst hut
      generalize hrole : (s'.tasks u).role = ρ at hu
      have hstep := hT.role
      rw [hrole] at hstep
      cases hstep with
      | same => exact hT.exitOver_keep hI (hI.finished_of_late hu).1 (hL.late u x hu)
      | late m y hk =>
        cases hu
        exact hI.exitOver_of_joinTest hT hk (hdone m x hk)
      | _ => cases hu
    · rw [hT.tasks u hut] at hu
      exact hT.exitOver_keep hI (hI.finished_of_late hu).1 (hL.late u x hu)
  case freed =>
    intro x hx
    rcases (hT.records x).frees hx with hold | ⟨m, hk | hk⟩
    · exact hT.gone_keep hI (hL.freed x hold)
    · exact hL.gone_of_joinFree hI hT hk
    · exact absurd rfl (hne hk)
  case joins =>
    intro e he
    rcases hT.joins e he with hold | ⟨m, hk | hk⟩
    · exact (hT.records _).freed (hL.joins e hold)
    · exact hT.frees m _ hk
    · exact absurd rfl (hne hk)

/-! ### What a step touches -/

omit [DecidableEq P] [DecidableEq M] in
/-- Nobody touches a freed record. -/
theorem Lifetimes.touches_task (hL : s.Lifetimes) (hI : s.Inv)
    (hx : x ∈ (s.tasks t).touches (s.sys.calls t)) : (s.records x).freed = false := by
  have halive : ∀ {y}, (s.records y).finished = false → (s.records y).freed = false := by
    intro y hy
    by_contra hfreed
    exact absurd ((hL.freed y (by simpa using hfreed)).finished.symm.trans hy) nofun
  -- what a thread will make ready is alive
  have hready : ∀ {y}, y ∈ s.ready t → (s.records y).freed = false :=
    fun hy => halive (hI.ready t _ hy).alive
  -- nobody joins or exits a freed record
  have hrole : ∀ {y}, (s.tasks t).role = .early y ∨ (s.tasks t).role = .late y ∨
      (s.tasks t).role = .exits y → (s.records y).freed = false := by
    intro y hy
    by_contra hfreed
    have hgone := hL.freed y (by simpa using hfreed)
    rcases hy with h | h | h
    · exact (hgone.unused t).1 h
    · exact (hgone.unused t).2 h
    · exact hgone.exited t h
  have hbody : ∀ {y}, (s.tasks t).body = some y → (s.tasks t).exiting = none →
      (s.records y).freed = false := by
    intro y hy hexit
    have h := hI.body t y hy
    rw [hexit] at h
    exact halive h
  cases hk : s.tasks t with
  | schedule | createPush m y | createFlag m y | createResume m y | exitResume m y | exitNext m y =>
    rw [hk] at hx
    exact hready (by rw [ready_of hk]; exact hx)
  | createSave m y =>
    rw [hk] at hx
    cases List.mem_singleton.mp hx
    exact halive (hI.waits y _ (hI.taskOk hk)).alive
  | joinLock m y | joinTest m y =>
    rw [hk] at hx
    cases List.mem_singleton.mp hx
    exact hrole (.inl (by rw [hk]; rfl))
  | joinDetach m y | joinUnlock m y | joinFree m y =>
    rw [hk] at hx
    cases List.mem_singleton.mp hx
    exact hrole (.inr (.inl (by rw [hk]; rfl)))
  -- a join that blocks does not occur in these runs
  | joinPush m y | joinSave m y | joinRelease y | wakeLock m y | wakeFree m y | wakeUnlock m y =>
    exact absurd (by rw [hk]; rfl) (hL.unblocked t)
  | exitLock m | exitDone m =>
    rw [hk] at hx
    cases List.mem_singleton.mp hx
    exact hbody (by rw [hk]; rfl) (by rw [hk]; rfl)
  | exitTest m | exitTake m | exitUnlock m w | exitWaiters m | exitClear m w | exitRelease m w =>
    rw [hk] at hx
    cases List.mem_singleton.mp hx
    exact hrole (.inr (.inr (by rw [hk]; rfl)))
  | exitLoop m ws parent =>
    rw [hk] at hx
    refine hready ?_
    rw [ready_of hk]
    exact List.mem_append_left _ (List.mem_of_mem_head? (Option.mem_toList.mp hx))
  | _ =>
    rw [hk] at hx
    cases hx

omit [DecidableEq P] [DecidableEq M] in
/-- A create touches a fresh record and that of its caller. -/
theorem Lifetimes.touches_create (hL : s.Lifetimes) (hI : s.Inv)
    (hfree : (s.records m).created = false) (hexit : (s.tasks t).exiting = none)
    (hx : x ∈ m :: (s.tasks t).body.toList) : (s.records x).freed = false := by
  rcases List.mem_cons.mp hx with rfl | hx
  · rw [(hI.records x).blank hfree]
    rfl
  · have hfin := hI.body t x (Option.mem_toList.mp hx)
    rw [hexit] at hfin
    by_contra hfreed
    exact absurd ((hL.freed x (by simpa using hfreed)).finished.symm.trans hfin) nofun

omit [DecidableEq P] [DecidableEq M] in
/-- An exit with its lock has the role of an exit. -/
theorem role_of_exiting (hexit : (s.tasks t).exiting = some x)
    (hlock : (s.tasks t).locks = some x) : (s.tasks t).role = .exits x := by
  cases hk : s.tasks t <;> rw [hk] at hexit hlock <;> cases hexit <;> first | rfl | cases hlock

section
variable [Fintype P] {n : Capacity}

/-- A fork-join program with any number of pthreads and any capacity of the buffer, after any run
in which every join found the other mythread done, and in which the points of the buffer are not
negative, or the buffer has one cell:

- a record that is freed next was not freed before, and the exit of its mythread has set `Done`
  and released the lock;
- the record of a mythread is freed when the join with it returns;
- no step reads or writes a record that was freed. -/
theorem record_lifetime {as : List (PoolAct P M)}
    (hok : RunUnder (Pool.step n) (fun s a => s.ForkJoin a ∧ s.FindsDone a) (Pool.initial P M) as)
    (hrun : run (Pool.step n) (Pool.initial P M) as = some s)
    (hint : s.sys.shared.put.length < 2 ^ 31 - 1 ∨ n.val = 1) :
    (∀ t m x, s.tasks t = .joinFree m x ∨ s.tasks t = .wakeFree m x →
      (s.records x).freed = false ∧ (s.records x).finished = true ∧
        ∀ u, (s.tasks u).exiting = some x → (s.tasks u).locks ≠ some x) ∧
    (∀ m who v, (m, who, v) ∈ s.joins → (s.records who).freed = true) ∧
    ∀ a s', s.step n a = some s' → ∀ x ∈ s.touches a, (s.records x).freed = false := by
  obtain ⟨hforkJoin, hlives⟩ : s.ForkJoinOk n ∧ (s.Unwrapped n → s.Lifetimes) := by
    refine runUnder_induction (I := fun s => s.ForkJoinOk n ∧ (s.Unwrapped n → s.Lifetimes)) ?_ as
      _ _ ⟨forkJoinOk_initial n, fun _ => lifetimes_initial⟩ hok hrun
    rintro s a s' ⟨h, hL⟩ ⟨hfj, hdone⟩ hs
    refine ⟨h.step hfj hs, fun hint => ?_⟩
    have hback := unwrapped_of_step h.pool hs hint
    -- the lifetimes need unwrapped counters, now and in the former state
    obtain ⟨t, hT, htest⟩ := traces_of_step h.pool (h.lives hback) hfj hdone hs
    exact (hL hback).step (h.lives hback) hT htest
  have hI := hforkJoin.lives hint
  have hL := hlives hint
  refine ⟨?_, fun m who v he => hL.joins _ he, ?_⟩
  · rintro t m x (hk | hk)
    · have hlate : (s.tasks t).role = .late x := by rw [hk]; rfl
      refine ⟨hL.touches_task hI (t := t) (by rw [hk]; exact .head _),
        (hI.finished_of_late hlate).1, fun u hexit hlock => ?_⟩
      exact hL.late t x hlate u (role_of_exiting hexit hlock)
    · exact absurd (by rw [hk]; rfl) (hL.unblocked t)
  · intro a s' hs x hx
    cases Pool.stepOf hs with
    | main hfree | task p hfree =>
      rw [Pool.touches, if_pos hfree] at hx
      exact hL.touches_task hI hx
    | call t sys hbusy =>
      rw [Pool.touches, hbusy] at hx
      cases hx
    | create y hmain hs =>
      obtain ⟨hnew, -⟩ := Option.ite_none_left_eq_some.mp hs
      exact hL.touches_create hI (Bool.eq_false_iff.mpr hnew) (by rw [hmain.1]; rfl) hx
    | fork p m y hk hs =>
      obtain ⟨hnew, -⟩ := Option.ite_none_left_eq_some.mp hs
      exact hL.touches_create hI (Bool.eq_false_iff.mpr hnew) (by rw [hk]; rfl) hx
    | join | exit | start => cases hx

end

end Pool

end

/-! ### Runs -/

instance {P M : Type*} [DecidableEq M] [Fintype M] (s : Pool P M) :
    ∀ a, Decidable (s.FindsDone a)
  | .go t => inferInstanceAs (Decidable (∀ m x, s.tasks t = .joinTest m x →
      (s.records x).done = true))
  | .create _ _ | .join _ _ | .exit _ | .start => isTrue trivial

/-- One pthread, and a buffer of one cell. The mythread 0 creates 1 and 2. The buffer is full for
2, so it is executed in place. Then 0 joins 2, up to `freeThread`. -/
def joinsDone : List (PoolAct (Fin 1) (Fin 3)) :=
  List.flatten [.create none 0 :: goes none 13, .start :: goes (some 0) 22,
    .create (some 0) 1 :: goes (some 0) 13, .create (some 0) 2 :: goes (some 0) 7,
    .exit 0 :: goes (some 0) 6, .join 0 2 :: goes (some 0) 4]

/-- The run above: the record of a done mythread is about to be freed. -/
theorem record_lifetime_joinsDone :
    ∃ s, RunUnder (Pool.step ⟨1, by decide, by decide⟩)
        (fun s a => s.ForkJoin a ∧ s.FindsDone a)
        (Pool.initial (Fin 1) (Fin 3)) joinsDone ∧
      run (Pool.step ⟨1, by decide, by decide⟩) (Pool.initial (Fin 1) (Fin 3)) joinsDone = some s ∧
      s.tasks (some 0) = .joinFree 0 2 ∧ (s.records 2).freed = false ∧
      (s.records 2).finished = true := by
  have hok : RunUnder (Pool.step ⟨1, by decide, by decide⟩)
      (fun s a => s.ForkJoin a ∧ s.FindsDone a)
      (Pool.initial (Fin 1) (Fin 3)) joinsDone := by
    decide +kernel
  have h : (run (Pool.step ⟨1, by decide, by decide⟩) (Pool.initial (Fin 1) (Fin 3))
      joinsDone).map (fun s => decide (s.tasks (some 0) = .joinFree 0 2)) = some true := by
    decide +kernel
  obtain ⟨s, hrun, hs⟩ := Option.map_eq_some_iff.mp h
  have hk := of_decide_eq_true hs
  obtain ⟨hfrees, -, -⟩ := Pool.record_lifetime hok hrun (.inr rfl)
  obtain ⟨hfreed, hfin, -⟩ := hfrees (some 0) 0 2 (.inl hk)
  exact ⟨s, hok, hrun, hk, hfreed, hfin⟩

/-- One pthread. The mythread 0 creates 1, and is blocked in the join with it. The exit of 1 puts 0
back, and 0 goes on up to the unlock behind `freeThread`. -/
def joinsRunning : List (PoolAct (Fin 1) (Fin 2)) :=
  List.flatten [.create none 0 :: goes none 13, .start :: goes (some 0) 22,
    .create (some 0) 1 :: goes (some 0) 13, .join 0 1 :: goes (some 0) 27,
    .exit 0 :: goes (some 0) 46]

/-- `mythread_yield_and_wait` unlocks the lock of the record that it has freed. -/
theorem touches_freed_record :
    ∃ s s', RunUnder (Pool.step ⟨1, by decide, by decide⟩)
        Pool.ForkJoin (Pool.initial (Fin 1) (Fin 2)) joinsRunning ∧
      run (Pool.step ⟨1, by decide, by decide⟩) (Pool.initial (Fin 1) (Fin 2)) joinsRunning =
        some s ∧
      s.step ⟨1, by decide, by decide⟩ (.go (some 0)) = some s' ∧
      s.tasks (some 0) = .wakeUnlock 0 1 ∧ 1 ∈ s.touches (.go (some 0)) ∧
      (s.records 1).freed = true := by
  have hok : RunUnder (Pool.step ⟨1, by decide, by decide⟩)
      Pool.ForkJoin (Pool.initial (Fin 1) (Fin 2)) joinsRunning := by
    decide +kernel
  have h : (run (Pool.step ⟨1, by decide, by decide⟩) (Pool.initial (Fin 1) (Fin 2))
      joinsRunning).bind (fun s => (s.step ⟨1, by decide, by decide⟩ (.go (some 0))).map fun _ =>
        (s.tasks (some 0) = .wakeUnlock 0 1 ∧ 1 ∈ s.touches (.go (some 0)) ∧
          (s.records 1).freed = true : Bool)) = some true := by
    decide +kernel
  obtain ⟨s, hrun, hs⟩ := Option.bind_eq_some_iff.mp h
  obtain ⟨s', hstep, hs'⟩ := Option.map_eq_some_iff.mp hs
  exact ⟨s, s', hok, hrun, hstep, of_decide_eq_true hs'⟩

end Stacklets.Mythreads

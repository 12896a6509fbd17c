import Mathlib.Algebra.BigOperators.Group.Finset.Basic
import Mathlib.Algebra.BigOperators.Ring.Finset
import Mathlib.Data.Int.Order.Basic
import Stacklets.Mythreads.Fifo
import Stacklets.Mythreads.Pool

/-!
# `Stacklets.Mythreads.Idle`: the calls of the pthreads and the count of the idle ones

What the steps of a program do to the buffer and to `idlep_count`. A step is a step of a call
(`Pool.step_cases`, first case), or it leaves the buffer as it is and turns one thread to another
task (`Turn`). From this the module derives what `sbuf_remove` relies on:

* `Task.Fits`: a thread is in a call of the kind that its task is behind, so a pthread in
  `sbuf_remove` runs no mythread;
* `IdleOk`: `idlep_count` is the number of the pthreads between its increment and its decrement;
* `Contents`: a property that every item has when it is inserted holds for all items in the
  buffer and on their way to it or from it.
-/

set_option autoImplicit false

namespace Stacklets.Mythreads

open Function (update update_self update_of_ne update_eq_self)
open Lib

/-! ### Tasks and calls -/

section
variable {P M I : Type*}

/-- The item that a thread has in its hands. -/
def RemovePC.item : RemovePC I → Option I
  | .testTrial _ item | .setFront _ item | .loadRemoved item | .storeRemoved _ item
  | .clear item => some item
  | _ => none

/-- The item that a call inserts, has read or has returned. -/
@[simp] def Call.item : Call I → Option I
  | .insert item _ => some item
  | .create _ item _ => some item
  | .remove pc => pc.item
  | .removed item => some item
  | _ => none

/-- The pthread is counted in `idlep_count`. -/
@[simp] def Call.counted : Call I → Bool
  | .remove .incUnlock | .remove .spinRemoved | .remove (.spinInserted _) | .remove .decLock
  | .remove .dec => true
  | _ => false

/-- The thread is in `signal_exit_task`, or ended there. -/
@[simp] def Call.signals : Call I → Bool
  | .signal _ | .create _ _ _ | .gone => true
  | _ => false

/-- The thread executes the code of a mythread, or of `main` in `mythread_create`. -/
@[simp] def Task.busy : Task M → Bool
  | .main | .start | .schedule | .ended | .crashed => false
  | _ => true

/-- The task is one of the thread that runs `main`. -/
@[simp] def Task.isMain : Task M → Bool
  | .main | .mainCreate _ | .crashed => true
  | _ => false

/-- The call is one that the task can be behind. -/
def Task.Fits (k : Task M) (c : Call (Item M)) : Prop :=
  match k with
  | .schedule =>
    match c with
    | .remove _ | .removed _ | .signal _ | .gone => True
    | .create _ item _ => item = .exit
    | _ => False
  | .create _ x | .exitInsert _ x _ _ => c.isFree = true ∨ ∃ pc, c = .insert (.task x) pc
  | .mainCreate x => c.isFree = true ∧ c.item = none ∨ ∃ pc, c = .insert (.task x) pc
  | .main => c.isFree = true ∧ c.item = none
  | _ => c.isFree = true

/-- A free thread has no token, is not counted, and is not in `signal_exit_task`. -/
theorem Call.of_isFree {c : Call I} (h : c.isFree = true) :
    c.rear = none ∧ c.front = none ∧ c.counted = false ∧ c.signals = false := by
  cases c <;> first | exact ⟨rfl, rfl, rfl, rfl⟩ | cases h

/-! ### The steps of a program -/

variable {s s' : Pool P M} {p : P} {t : Option P}

/-- The thread `t` of `s` turns to the task `k`, with the call `c`. -/
structure Turn (s : Pool P M) (t : Option P) (k : Task M) (c : Call (Item M)) : Prop where
  free : (s.sys.calls t).isFree = true
  fits : k.Fits c
  call : c.isFree = true ∨ c = .remove .emptyRemoved ∨ ∃ x, c = .insert x .fullInserted
  /-- Only the records of mythreads are inserted. -/
  item : ∀ x, c.item = some x → (s.sys.calls t).item = some x ∨
    ∃ m, x = .task m ∧ c = .insert (.task m) .fullInserted
  /-- A pthread gets to the code of a mythread from there, or by `mythread_resume`. -/
  busy : k.busy = true → (s.tasks t).busy = true ∨
    (s.tasks t = .schedule ∧ ∃ m, s.sys.calls t = .removed (.task m)) ∨
    (t = none ∧ s.started = false)
  ended : k = .ended → s.tasks t = .schedule ∧
    ∃ x, s.sys.calls t = .removed x ∧ ∀ m, x ≠ .task m
  start : k ≠ .start → s.tasks t = .start → s.started = true
  main : t = none → k.isMain = true ∧ (s.started = true → s.tasks none ≠ .main)

/-- A thread that turned to something has no token, is not counted, and is not in
`signal_exit_task`. -/
theorem Turn.of_call {k : Task M} {c : Call (Item M)} (h : Turn s t k c) :
    c.rear = none ∧ c.front = none ∧ c.counted = false ∧ c.signals = false := by
  obtain hfree | rfl | ⟨x, rfl⟩ := h.call
  · exact Call.of_isFree hfree
  · exact ⟨rfl, rfl, rfl, rfl⟩
  · exact ⟨rfl, rfl, rfl, rfl⟩

/-- The call stays as it is, and the task is one that is behind no call. -/
theorem Turn.keep {k : Task M} (hfree : (s.sys.calls (some p)).isFree = true)
    (hfits : k.Fits (s.sys.calls (some p))) (hbusy : (s.tasks (some p)).busy = true)
    (hended : k ≠ .ended) : Turn s (some p) k (s.sys.calls (some p)) where
  free := hfree
  fits := hfits
  call := .inl hfree
  item _ hx := .inl hx
  busy _ := .inl hbusy
  ended h := absurd h hended
  start _ h := by rw [h] at hbusy; cases hbusy
  main h := nomatch h

/-- The pthread calls `sbuf_remove`. -/
theorem Turn.scheduleNext (hfree : (s.sys.calls (some p)).isFree = true)
    (hstart : s.tasks (some p) = .start → s.started = true) :
    Turn s (some p) .schedule (.remove .emptyRemoved) where
  free := hfree
  fits := trivial
  call := .inr (.inl rfl)
  item _ hx := nomatch hx
  busy h := nomatch h
  ended h := nomatch h
  start _ h := hstart h
  main h := nomatch h

/-- The pthread calls `sbuf_insert` in the code of a mythread. -/
theorem Turn.insert {k : Task M} {x : M} (hfree : (s.sys.calls (some p)).isFree = true)
    (hfits : k.Fits (.insert (.task x) .fullInserted)) (hbusy : (s.tasks (some p)).busy = true)
    (hended : k ≠ .ended) : Turn s (some p) k (.insert (.task x) .fullInserted) where
  free := hfree
  fits := hfits
  call := .inr (.inr ⟨_, rfl⟩)
  item _ hx := .inr ⟨x, (Option.some.inj hx).symm, rfl⟩
  busy _ := .inl hbusy
  ended h := absurd h hended
  start _ h := by rw [h] at hbusy; cases hbusy
  main h := nomatch h

/-- The pthread resumes a mythread. -/
theorem Turn.resume {k : Task M} (hfree : (s.sys.calls (some p)).isFree = true)
    (hfits : k.Fits .idle) (hended : k ≠ .ended) (hstart : s.tasks (some p) ≠ .start)
    (hbusy : (s.tasks (some p)).busy = true ∨
      s.tasks (some p) = .schedule ∧ ∃ m, s.sys.calls (some p) = .removed (.task m)) :
    Turn s (some p) k .idle where
  free := hfree
  fits := hfits
  call := .inl rfl
  item _ hx := nomatch hx
  busy _ := hbusy.imp_right .inl
  ended h := absurd h hended
  start _ h := absurd h hstart
  main h := nomatch h

variable [DecidableEq P]

/-- `s'` is `s` with the thread `t` turned to the task `k` and the call `c`, as far as the
buffer and the tasks go. -/
structure Turned (s s' : Pool P M) (t : Option P) (k : Task M) (c : Call (Item M)) : Prop where
  sys : s'.sys = s.sys.setCall t c
  tasks : s'.tasks = update s.tasks t k
  started : s'.started = s.started

theorem Turned.keep {k : Task M} (htasks : s'.tasks = update s.tasks t k)
    (hsys : s'.sys = s.sys) (hstarted : s'.started = s.started) :
    Turned s s' t k (s.sys.calls t) :=
  ⟨by rw [hsys, Sys.setCall, update_eq_self], htasks, hstarted⟩

/-- A step in the code of a mythread that does not touch the buffer. -/
theorem exists_turn_keep {k : Task M} (htasks : s'.tasks = update s.tasks (some p) k)
    (hsys : s'.sys = s.sys) (hstarted : s'.started = s.started)
    (hfree : (s.sys.calls (some p)).isFree = true) (hfits : k.Fits (s.sys.calls (some p)))
    (hbusy : (s.tasks (some p)).busy = true) (hended : k ≠ .ended) :
    ∃ k c, Turn s (some p) k c ∧ Turned s s' (some p) k c :=
  ⟨_, _, .keep hfree hfits hbusy hended, .keep htasks hsys hstarted⟩

variable [DecidableEq M]

/-- A step that ends in `mythread_resume(m)`. -/
theorem exists_turn_resume {s₁ : Pool P M} (m : M) (hfree : (s.sys.calls (some p)).isFree = true)
    (hstart : s.tasks (some p) ≠ .start)
    (hbusy : (s.tasks (some p)).busy = true ∨
      s.tasks (some p) = .schedule ∧ ∃ m, s.sys.calls (some p) = .removed (.task m))
    (hsys : s₁.sys = s.sys) (htasks : s₁.tasks = s.tasks) (hstarted : s₁.started = s.started) :
    ∃ k c, Turn s (some p) k c ∧ Turned s (s₁.resume p m) (some p) k c := by
  refine ⟨(s₁.records m).context.task m, .idle, ?_, ?_, ?_, hstarted⟩
  · cases (s₁.records m).context <;> exact .resume hfree rfl (by simp [Context.task]) hstart hbusy
  · rw [← hsys]
    rfl
  · rw [← htasks]
    rfl

/-- A step of a pthread in its own code turns it to another task, and leaves the buffer and the
other threads as they are. -/
theorem taskStep_turn (hfree : (s.sys.calls (some p)).isFree = true)
    (hs : s.taskStep p = some s') :
    ∃ k c, Turn s (some p) k c ∧ Turned s s' (some p) k c := by
  cases hk : s.tasks (some p) <;> simp only [Pool.taskStep, hk] at hs
  case start =>
      split at hs <;> cases hs
      exact ⟨_, _, .scheduleNext hfree fun _ => ‹_›, rfl, rfl, rfl⟩
  case schedule =>
      split at hs
      · rename_i m hcall
        cases hs
        exact exists_turn_resume _ hfree (by simp [hk]) (.inr ⟨hk, m, hcall⟩) rfl rfl rfl
      · rename_i x hx hcall
        cases hs
        exact ⟨.ended, _, ⟨hfree, hfree, .inl hfree, fun _ h => .inl h, (nomatch ·),
          fun _ => ⟨hk, x, hcall, hx⟩, fun _ h => by simp [hk] at h, (nomatch ·)⟩,
          .keep rfl rfl rfl⟩
      · cases hs
  case create m child =>
      split at hs <;> cases hs
      · exact exists_turn_keep rfl rfl rfl hfree hfree (by rw [hk]; rfl) (by simp)
      · exact exists_turn_keep rfl rfl rfl hfree hfree (by rw [hk]; rfl) (by simp)
  case exitInsert m w ws parent =>
      split at hs <;> cases hs
      · exact exists_turn_keep rfl rfl rfl hfree hfree (by rw [hk]; rfl) (by simp)
      · exact exists_turn_keep rfl rfl rfl hfree hfree (by rw [hk]; rfl) (by simp)
  case createResume m child =>
      cases hs
      exact exists_turn_resume _ hfree (by simp [hk]) (.inl (by rw [hk]; rfl)) rfl rfl rfl
  case exitResume m w =>
      cases w with
      | none =>
        cases hs
        exact exists_turn_keep rfl rfl rfl hfree hfree (by rw [hk]; rfl) (by simp)
      | some w =>
        cases hs
        exact exists_turn_resume _ hfree (by simp [hk]) (.inl (by rw [hk]; rfl)) rfl rfl rfl
  case exitNext m parent =>
      cases parent with
      | none =>
        cases hs
        exact ⟨_, _, .scheduleNext hfree (by simp [hk]), rfl, rfl, rfl⟩
      | some w =>
        cases hs
        exact exists_turn_resume _ hfree (by simp [hk]) (.inl (by rw [hk]; rfl)) rfl rfl rfl
  case joinRelease who =>
      cases hs
      exact ⟨_, _, .scheduleNext hfree (by simp [hk]), rfl, rfl, rfl⟩
  case exitLoop m ws parent =>
      cases ws with
      | nil =>
        cases hs
        exact exists_turn_keep rfl rfl rfl hfree hfree (by rw [hk]; rfl) (by simp)
      | cons w ws =>
        cases hs
        exact ⟨.exitInsert m w ws parent, _, .insert hfree (.inr ⟨_, rfl⟩) (by rw [hk]; rfl)
          (by simp), rfl, rfl, rfl⟩
  case joinLock m who | wakeLock m who | exitLock m =>
      unfold Pool.lock at hs
      split at hs <;> cases hs
      exact exists_turn_keep rfl rfl rfl hfree hfree (by rw [hk]; rfl) (by simp)
  case joinTest m who =>
      split at hs <;> cases hs
      · exact exists_turn_keep rfl rfl rfl hfree hfree (by rw [hk]; rfl) (by simp)
      · exact exists_turn_keep rfl rfl rfl hfree hfree (by rw [hk]; rfl) (by simp)
  case exitTest m =>
      split at hs <;> cases hs
      · exact exists_turn_keep rfl rfl rfl hfree hfree (by rw [hk]; rfl) (by simp)
      · exact exists_turn_keep rfl rfl rfl hfree hfree (by rw [hk]; rfl) (by simp)
  -- the steps on one record, which are never blocked
  all_goals
    cases hs
    try exact exists_turn_keep rfl rfl rfl hfree hfree (by rw [hk]; rfl) (by simp)

omit [DecidableEq M] in
/-- A step of `main` in its own code. -/
theorem mainStep_turn (hfree : (s.sys.calls none).isFree = true) (hs : s.mainStep = some s') :
    ∃ k c, Turn s none k c ∧ Turned s s' none k c := by
  have hturn : ∀ {k : Task M} {child : M}, s.tasks none = .mainCreate child → k.busy = false →
      k ≠ .ended → k.isMain = true → k.Fits (s.sys.calls none) →
      Turn s none k (s.sys.calls none) := by
    intro k child hk hbusy hended hmain hfits
    exact ⟨hfree, hfits, .inl hfree, fun _ h => .inl h,
      fun h => (Bool.false_ne_true (hbusy.symm.trans h)).elim, fun h => absurd h hended,
      fun _ h => (by rw [hk] at h; cases h), fun _ => ⟨hmain, fun _ => by simp [hk]⟩⟩
  unfold Pool.mainStep at hs
  split at hs
  · rename_i hk hcall
    cases hs
    exact ⟨.main, _, hturn hk rfl (by simp) rfl (by rw [hcall]; exact ⟨rfl, rfl⟩),
      .keep rfl rfl rfl⟩
  · rename_i hk hcall
    cases hs
    exact ⟨.crashed, _, hturn hk rfl (by simp) rfl hfree, .keep rfl rfl rfl⟩
  · cases hs

/-- `mythread_create` begins with a call of `sbuf_insert`. -/
theorem callCreate_turn {child : M} {parent : Option M} {k : Task M}
    (hs : s.callCreate t child parent k = some s') :
    Turned s s' t k (.insert (.task child) .fullInserted) := by
  unfold Pool.callCreate at hs
  split at hs <;> cases hs
  exact ⟨rfl, rfl, rfl⟩

variable [Fintype P] {n : Capacity} {a : PoolAct P M}

/-- What a step of the pool is: one of the code of a thread, one of its call of the buffer, or a
call that the program or a mythread makes. -/
inductive Pool.StepOf (n : Capacity) (s : Pool P M) : PoolAct P M → Pool P M → Prop
  | main {s' : Pool P M} (free : (s.sys.calls none).isFree = true)
      (does : s.mainStep = some s') : StepOf n s (.go none) s'
  | task {s' : Pool P M} (p : P) (free : (s.sys.calls (some p)).isFree = true)
      (does : s.taskStep p = some s') : StepOf n s (.go (some p)) s'
  | call (t : Option P) (sys : Sys (Option P) (Item M)) (busy : (s.sys.calls t).isFree = false)
      (does : s.sys.step n (Fintype.card P)
        (callAct (Fintype.card P) t (s.sys.calls t)) = some sys) :
      StepOf n s (.go t) { s with sys := sys }
  | create {s' : Pool P M} (x : M) (idle : s.tasks none = .main ∧ s.started = false)
      (does : s.callCreate none x none (.mainCreate x) = some s') : StepOf n s (.create none x) s'
  | fork {s' : Pool P M} (p : P) (m x : M) (runs : s.tasks (some p) = .run m)
      (does : s.callCreate (some p) x (some m) (.create m x) = some s') :
      StepOf n s (.create (some p) x) s'
  | join (p : P) (m who : M) (runs : s.tasks (some p) = .run m)
      (created : (s.records who).created = true) :
      StepOf n s (.join p who) ((s.setRecord who
        { s.records who with joinCalled := true }).setTask (some p) (.joinLock m who))
  | exit (p : P) (m : M) (runs : s.tasks (some p) = .run m) :
      StepOf n s (.exit p) (s.setTask (some p) (.exitLock m))
  | start (idle : s.tasks none = .main ∧ s.started = false) :
      StepOf n s .start { s with started := true }

/-- Every step is one of these. -/
theorem Pool.stepOf (hs : s.step n a = some s') : s.StepOf n a s' := by
  cases a with
  | go t =>
    simp only [Pool.step] at hs
    split at hs
    · rename_i hfree
      cases t with
      | none => exact .main hfree hs
      | some p => exact .task p hfree hs
    · rename_i hbusy
      obtain ⟨sys, hsys, rfl⟩ := Option.map_eq_some_iff.mp hs
      exact .call t sys (Bool.eq_false_iff.mpr hbusy) hsys
  | create t x =>
    cases t with
    | none =>
      obtain ⟨hidle, hs⟩ := Option.ite_none_right_eq_some.mp hs
      exact .create x hidle hs
    | some p =>
      simp only [Pool.step] at hs
      split at hs
      · exact .fork p _ x ‹_› hs
      · cases hs
  | join p who =>
    simp only [Pool.step] at hs
    split at hs
    · obtain ⟨hcreated, heq⟩ := Option.ite_none_right_eq_some.mp hs
      cases heq
      exact .join p _ who ‹_› hcreated
    · cases hs
  | exit p =>
    simp only [Pool.step] at hs
    split at hs <;> cases hs
    exact .exit p _ ‹_›
  | start =>
    obtain ⟨hidle, heq⟩ := Option.ite_none_right_eq_some.mp hs
    cases heq
    exact .start hidle

/-- What a step of the program does to the buffer and to the tasks: a step of the call of some
thread, a thread that turns to another task, or the start of the pthreads. -/
inductive Pool.Effect (n : Capacity) (s : Pool P M) (a : PoolAct P M) (s' : Pool P M) : Prop
  | call (t : Option P) (act : a = .go t) (busy : (s.sys.calls t).isFree = false)
      (does : s.sys.step n (Fintype.card P)
        (callAct (Fintype.card P) t (s.sys.calls t)) = some s'.sys)
      (tasks : s'.tasks = s.tasks) (started : s'.started = s.started)
  | turn (t : Option P) (k : Task M) (c : Call (Item M)) (turn : Turn s t k c)
      (turned : Turned s s' t k c)
  | start (idle : s.tasks none = .main) (sys : s'.sys = s.sys)
      (tasks : s'.tasks = s.tasks) (started : s'.started = true)

/-- Every step is one of the three. -/
theorem Pool.effect_of_step (hfits : ∀ t, (s.tasks t).Fits (s.sys.calls t))
    (hs : s.step n a = some s') : Pool.Effect n s a s' := by
  have hrun : ∀ {p m}, s.tasks (some p) = .run m → (s.sys.calls (some p)).isFree = true := by
    intro p m hk
    have := hfits (some p)
    rwa [hk] at this
  cases Pool.stepOf hs with
  | main hfree hs =>
    obtain ⟨k, c, hturn, hturned⟩ := mainStep_turn hfree hs
    exact .turn none k c hturn hturned
  | task p hfree hs =>
    obtain ⟨k, c, hturn, hturned⟩ := taskStep_turn hfree hs
    exact .turn (some p) k c hturn hturned
  | call t sys hbusy hsys => exact .call t rfl hbusy hsys rfl rfl
  | create x hmain hs =>
    have hfree : (s.sys.calls none).isFree = true := by
      have hmainFits := hfits none
      rw [hmain.1] at hmainFits
      exact hmainFits.1
    refine .turn none (.mainCreate x) _ ⟨hfree, .inr ⟨_, rfl⟩, .inr (.inr ⟨_, rfl⟩),
      ?_, ?_, ?_, ?_, fun _ => ⟨rfl, fun h => by simp [hmain.2] at h⟩⟩ (callCreate_turn hs)
    · exact fun y hy => .inr ⟨x, (Option.some.inj hy).symm, rfl⟩
    · exact fun _ => .inr (.inr ⟨rfl, hmain.2⟩)
    · exact (nomatch ·)
    · intro _ h
      rw [hmain.1] at h
      cases h
  | fork p m x hk hs =>
    exact .turn (some p) (.create m x) _
      (.insert (hrun hk) (.inr ⟨_, rfl⟩) (by rw [hk]; rfl) (by simp)) (callCreate_turn hs)
  | join p m who hk =>
    exact .turn (some p) (.joinLock m who) _
      (.keep (hrun hk) (hrun hk) (by rw [hk]; rfl) (by simp)) (.keep rfl rfl rfl)
  | exit p m hk =>
    exact .turn (some p) (.exitLock m) _
      (.keep (hrun hk) (hrun hk) (by rw [hk]; rfl) (by simp)) (.keep rfl rfl rfl)
  | start hidle => exact .start hidle.1 rfl rfl rfl

end

section
variable {n : Capacity} {num : Nat}

/-- The steps of a call that the program takes. -/
theorem callStep_of_callAct {P M : Type*} [DecidableEq P] {t : Option P}
    {s s' : Sys (Option P) (Item M)}
    (hs : s.step n num (Pool.callAct num t (s.calls t)) = some s') :
    ∃ c, CallStep n num t (· = .exit) s.shared (s.calls t) s'.shared c ∧
      s'.calls = update s.calls t c := by
  cases hcall : s.calls t with
  | signal i =>
    simp only [Pool.callAct, hcall] at hs
    split at hs
    · rename_i hi
      simp only [Sys.step, hcall, if_pos hi] at hs
      cases hs
      exact ⟨_, .next rfl, rfl⟩
    · have h := callStep_of_step (· = .exit) hs
      rwa [hcall] at h
  | _ =>
    rw [hcall] at hs
    have h := callStep_of_step (· = .exit) hs
    rwa [hcall] at h

/-! ### The counters only grow -/

variable {T I : Type*} [DecidableEq T] {t : T} {exits : I → Prop} {sh sh' : Shared T I}
  {c c' : Call I}

theorem insertStep_counters {item : I} {pc : InsertPC} {out : InsertOut}
    (hs : insertStep n t item sh pc = (sh', out)) :
    sh.insertions ≤ sh'.insertions ∧ sh'.removals = sh.removals ∧
      sh'.idlepCount = sh.idlepCount ∧ sh'.doneCreatingThreads = sh.doneCreatingThreads := by
  cases pc with
  | storeInserted i =>
    cases hs
    exact ⟨Nat.le_succ _, rfl, rfl, rfl⟩
  | fullRemoved i | cas | refullRemoved i | testTrial p =>
    simp only [insertStep] at hs
    split at hs <;> cases hs <;> exact ⟨Nat.le_refl _, rfl, rfl, rfl⟩
  | _ =>
    cases hs
    exact ⟨Nat.le_refl _, rfl, rfl, rfl⟩

theorem removeStep_counters {pc : RemovePC I} {out : RemoveOut I}
    (hs : removeStep n num t sh pc = some (sh', out)) :
    sh'.insertions = sh.insertions ∧ sh.removals ≤ sh'.removals := by
  cases pc with
  | storeRemoved r item =>
    cases hs
    exact ⟨rfl, Nat.le_succ _⟩
  | _ =>
    simp only [removeStep] at hs
    try split at hs
    all_goals cases hs
    all_goals exact ⟨rfl, Nat.le_refl _⟩

theorem CallStep.counters_le (h : CallStep n num t exits sh c sh' c') :
    sh.insertions ≤ sh'.insertions ∧ sh.removals ≤ sh'.removals := by
  cases h with
  | insert hdoes | create hdoes =>
    obtain ⟨hi, hr, -⟩ := insertStep_counters hdoes
    exact ⟨hi, hr.ge⟩
  | remove hdoes =>
    obtain ⟨hi, hr⟩ := removeStep_counters hdoes
    exact ⟨hi.ge, hr⟩
  | next | last => exact ⟨Nat.le_refl _, Nat.le_refl _⟩

/-! ### The idle pthreads -/

/-- 1 for a counted pthread. -/
def Call.weight (c : Call I) : Int := if c.counted then 1 else 0

/-- A step of `sbuf_remove` counts the thread exactly when it changes `idlep_count`. -/
theorem removeStep_idle {pc : RemovePC I} {out : RemoveOut I}
    (hs : removeStep n num t sh pc = some (sh', out)) :
    sh'.idlepCount = sh.idlepCount - (Call.remove pc).weight + out.call.weight := by
  cases pc <;> simp only [removeStep] at hs <;> try split at hs
  all_goals cases hs
  all_goals simp [Call.weight]

theorem CallStep.idle (h : CallStep n num t exits sh c sh' c') :
    sh'.idlepCount = sh.idlepCount - c.weight + c'.weight := by
  cases h with
  | insert hdoes =>
    rename_i out
    rw [(insertStep_counters hdoes).2.2.1]
    cases out <;> simp [Call.weight]
  | create hdoes =>
    rename_i out
    rw [(insertStep_counters hdoes).2.2.1]
    rcases out with _ | _ | _ <;> simp [Call.weight]
  | remove hdoes => exact removeStep_idle hdoes
  | next hexit => simp [Call.weight]
  | last => simp [Call.weight]

/-! ### The test for an empty buffer -/

/-- What a pthread knows from its test for an empty buffer. Once `inserted` moved on, it knows
nothing. -/
def Shared.TestAt (n : Capacity) (s : Shared T I) : Call I → Prop
  | .remove (.emptyInserted r k) =>
    k ≤ s.insertions ∧
      ∃ r₀, r = BitVec.ofNat 32 r₀ ∧ r₀ ≤ s.removals ∧ r₀ ≤ k ∧ k ≤ r₀ + n.val
  | .remove (.testLock k) | .remove (.testIdle k) =>
    k ≤ s.insertions ∧ (k = s.insertions → k ≤ s.removals)
  | _ => True

omit [DecidableEq T] in
/-- The test is not invalidated by others: they only let the counters grow. -/
theorem Shared.TestAt.mono (h : sh.TestAt n c)
    (hle : sh.insertions ≤ sh'.insertions ∧ sh.removals ≤ sh'.removals) : sh'.TestAt n c := by
  unfold Shared.TestAt at *
  split at h
  · obtain ⟨hk, r₀, hr, hle₀, hrest⟩ := h
    exact ⟨hk.trans hle.1, r₀, hr, hle₀.trans hle.2, hrest⟩
  · exact ⟨h.1.trans hle.1, fun hk => (h.2 (by omega)).trans hle.2⟩
  · exact ⟨h.1.trans hle.1, fun hk => (h.2 (by omega)).trans hle.2⟩
  · trivial

/-- What the test finds is right as long as `inserted` has the value that it had then. -/
theorem CallStep.testAt (h : CallStep n num t exits sh c sh' c') (hc : sh.CountersOk n)
    (ht : sh.TestAt n c) : sh'.TestAt n c' := by
  cases h with
  | insert hdoes =>
    rename_i out
    cases out <;> trivial
  | create hdoes =>
    rename_i out
    rcases out with _ | _ | _ <;> trivial
  | next hexit => trivial
  | last => trivial
  | remove hdoes =>
    rename_i pc out
    cases pc <;> simp only [removeStep] at hdoes <;> try split at hdoes
    case emptyRemoved =>
        cases hdoes
        exact ⟨Nat.le_refl _, sh.removals, hc.removed, Nat.le_refl _,
          hc.removals_le.trans hc.taken_le, hc.insertions_le.trans hc.put_le⟩
    case emptyInserted.isTrue r k heq =>
        cases hdoes
        obtain ⟨hk, r₀, rfl, hle, hr, hn⟩ := ht
        refine ⟨hk, fun hkeep => ?_⟩
        -- the words are equal and less than `n` apart, so the numbers are equal
        have hint := n.int
        rw [hc.inserted, ofNat_eq_ofNat_iff (by omega) (by omega)] at heq
        omega
    case testLock.isTrue => cases hdoes; exact ht
    all_goals cases hdoes
    all_goals trivial

end

/-! ### The invariant of the pthreads -/

section
variable {P M : Type*} [DecidableEq P] {n : Capacity} {num : Nat} {t : Option P}

omit [DecidableEq P] in
/-- A thread in a call other than `sbuf_insert` is in `mythread_schedule_next`. -/
theorem Task.Fits.schedule {k : Task M} {c : Call (Item M)} (h : k.Fits c)
    (hfree : c.isFree = false) (hinsert : ∀ item pc, c ≠ .insert item pc) : k = .schedule := by
  cases k <;> simp [Task.Fits, hfree, hinsert] at h ⊢

omit [DecidableEq P] in
/-- A thread in `sbuf_insert` inserts the record that its task names. -/
theorem Task.Fits.insert {k : Task M} {item : Item M} {pc : InsertPC}
    (h : k.Fits (.insert item pc)) {c : Call (Item M)}
    (hc : c.isFree = true ∧ c.item = none ∨ ∃ pc', c = .insert item pc') :
    k.busy = true ∧ (∃ x, item = .task x) ∧ k.Fits c := by
  cases k with
  | create m x | exitInsert m x ws parent =>
    obtain hfree | ⟨pc', heq⟩ := h
    · cases hfree
    · cases heq
      exact ⟨rfl, ⟨x, rfl⟩, hc.imp_left And.left⟩
  | mainCreate x =>
    obtain hfree | ⟨pc', heq⟩ := h
    · cases hfree.1
    · cases heq
      exact ⟨rfl, ⟨x, rfl⟩, hc⟩
  | main => cases h.1
  | _ => cases h

/-- The step of a call leads to a call that the task can be behind as well. -/
theorem CallStep.fits {sh sh' : Shared (Option P) (Item M)} {c c' : Call (Item M)} {k : Task M}
    (h : CallStep n num t (· = .exit) sh c sh' c') (hk : k.Fits c) : k.Fits c' := by
  cases h with
  | insert hdoes =>
    rename_i out
    refine (hk.insert ?_).2.2
    cases out with
    | goes pc' => exact .inr ⟨pc', rfl⟩
    | returns r => exact .inl ⟨rfl, rfl⟩
  | create hdoes =>
    rename_i out
    obtain rfl := hk.schedule rfl (by simp)
    rcases out with _ | _ | _
    · exact hk
    · trivial
    · trivial
  | remove hdoes =>
    rename_i out
    obtain rfl := hk.schedule rfl (by simp)
    cases out <;> trivial
  | next hexit =>
    obtain rfl := hk.schedule rfl (by simp)
    exact hexit
  | last =>
    obtain rfl := hk.schedule rfl (by simp)
    trivial

variable [Fintype P]

/-- What holds for the pthreads and the buffer after every run. -/
structure PoolOk (n : Capacity) (s : Pool P M) : Prop where
  fits : ∀ t, (s.tasks t).Fits (s.sys.calls t)
  main : (s.tasks none).isMain = true
  started : s.started = true → s.tasks none = .main
  start : s.started = false → ∀ p, s.tasks (some p) = .start
  idle : s.sys.shared.idlepCount = ∑ p, (s.sys.calls (some p)).weight
  tests : ∀ t, s.sys.shared.TestAt n (s.sys.calls t)
  sides : ∃ ρ φ, Sides n s.sys ρ φ

theorem poolOk_initial (n : Capacity) : PoolOk n (Pool.initial P M) where
  fits t := by
    cases t
    · exact ⟨rfl, rfl⟩
    · rfl
  main := rfl
  started h := nomatch h
  start _ _ := rfl
  idle := by simp [Pool.initial, Sys.initial, Call.weight]
  tests _ := trivial
  sides := ⟨none, none, Sides.initial n _⟩

omit [Fintype P] [DecidableEq P] in
/-- `main` is never counted. -/
theorem Task.Fits.weight_main {k : Task M} {c : Call (Item M)} (h : k.Fits c)
    (hk : k.isMain = true) : c.weight = 0 := by
  have hcounted : c.counted = false := by
    cases k with
    | main => exact (Call.of_isFree h.1).2.2.1
    | crashed => exact (Call.of_isFree h).2.2.1
    | mainCreate child =>
      obtain hfree | ⟨pc, rfl⟩ := h
      · exact (Call.of_isFree hfree.1).2.2.1
      · rfl
    | _ => cases hk
  rw [Call.weight, hcounted]
  rfl

/-- The sum over all pthreads, after the call of one thread changed. -/
theorem sum_weight_update (calls : Option P → Call (Item M)) (t : Option P) (c : Call (Item M))
    (hmain : t = none → (calls none).weight = c.weight) :
    ∑ p, (update calls t c (some p)).weight =
      ∑ p, (calls (some p)).weight - (calls t).weight + c.weight := by
  cases t with
  | none =>
    have hc := hmain rfl
    have hsame : ∀ p, update calls none c (some p) = calls (some p) :=
      fun p => update_of_ne (by simp) _ _
    simp only [hsame]
    omega
  | some q =>
    have hview : (fun p => (update calls (some q) c (some p)).weight) =
        update (fun p => (calls (some p)).weight) q c.weight := by
      funext p
      by_cases hp : p = q
      · rw [hp, update_self, update_self]
      · rw [update_of_ne (by simpa using hp), update_of_ne hp]
    rw [hview, Finset.sum_update_of_mem (Finset.mem_univ q),
      ← Finset.add_sum_erase Finset.univ _ (Finset.mem_univ q), Finset.sdiff_singleton_eq_erase]
    omega

variable [DecidableEq M] {s s' : Pool P M} {a : PoolAct P M}

omit [Fintype P] [DecidableEq M] in
/-- The tasks and calls fit after the thread `t` got the task `k` and the call `c`. -/
theorem fits_update {tasks : Option P → Task M} {calls : Option P → Call (Item M)} {k : Task M}
    {c : Call (Item M)} (h : ∀ u, (tasks u).Fits (calls u)) (hk : k.Fits c) (u : Option P) :
    (update tasks t k u).Fits (update calls t c u) := by
  by_cases hu : u = t
  · rw [hu, update_self, update_self]
    exact hk
  · rw [update_of_ne hu, update_of_ne hu]
    exact h u

/-- Every step of the program keeps the invariant. -/
theorem PoolOk.step (h : PoolOk n s) (hs : s.step n a = some s') : PoolOk n s' := by
  obtain ⟨ρ, φ, hsides⟩ := h.sides
  have hmain := (h.fits none).weight_main h.main
  cases Pool.effect_of_step h.fits hs with
  | call t hact hbusy hdoes htasks hstarted =>
    obtain ⟨c, hstep, hcalls⟩ := callStep_of_callAct hdoes
    have hfits : (s.tasks t).Fits c := hstep.fits (h.fits t)
    refine ⟨?_, by rw [htasks]; exact h.main, ?_, ?_, ?_, ?_, hsides.step hdoes⟩
    · intro u
      have hall := fits_update (t := t) h.fits hfits u
      rwa [update_eq_self, ← htasks, ← hcalls] at hall
    · rw [hstarted, htasks]
      exact h.started
    · rw [hstarted, htasks]
      exact h.start
    -- The idle count moves with the weight of the call of `t`; main counts for nothing.
    · rw [hcalls, sum_weight_update, ← h.idle]
      · exact hstep.idle
      · rintro rfl
        rw [hmain, hfits.weight_main h.main]
    · intro u
      rw [hcalls]
      by_cases hu : u = t
      · rw [hu, update_self]
        exact hstep.testAt hsides.counters (h.tests t)
      · rw [update_of_ne hu]
        exact (h.tests u).mono hstep.counters_le
  | turn t k c hturn hturned =>
    have hcalls : s'.sys.calls = update s.sys.calls t c := by rw [hturned.sys]; rfl
    have hshared : s'.sys.shared = s.sys.shared := by rw [hturned.sys]; rfl
    have hweight : c.weight = 0 := by rw [Call.weight, hturn.of_call.2.2.1]; rfl
    have hold : (s.sys.calls t).weight = 0 := by
      rw [Call.weight, (Call.of_isFree hturn.free).2.2.1]
      rfl
    -- Between two calls neither side is counted: the calls before and after have weight `0`.
    refine ⟨?_, ?_, ?_, ?_, ?_, ?_, ρ, φ, ?_⟩
    · rw [hcalls, hturned.tasks]
      exact fits_update h.fits hturn.fits
    · rw [hturned.tasks]
      by_cases ht : t = none
      · rw [ht, update_self]
        exact (hturn.main ht).1
      · rw [update_of_ne (Ne.symm ht)]
        exact h.main
    · rw [hturned.started, hturned.tasks]
      intro hst
      by_cases ht : t = none
      · exact absurd (h.started hst) ((hturn.main ht).2 hst)
      · rw [update_of_ne (Ne.symm ht)]
        exact h.started hst
    · rw [hturned.started, hturned.tasks]
      intro hst p
      by_cases hp : some p = t
      · rw [hp, update_self]
        by_contra hk
        rw [hturn.start hk (hp ▸ h.start hst p)] at hst
        cases hst
      · rw [update_of_ne hp]
        exact h.start hst p
    · rw [hcalls, hshared, sum_weight_update, ← h.idle, hold, hweight]
      · omega
      · intro ht
        rw [hmain, hweight]
    · intro u
      rw [hcalls, hshared]
      by_cases hu : u = t
      · rw [hu, update_self]
        obtain hfree | rfl | ⟨x, rfl⟩ := hturn.call
        · cases c <;> trivial
        · trivial
        · trivial
      · rw [update_of_ne hu]
        exact h.tests u
    · rw [hturned.sys]
      exact hsides.turn (Call.of_isFree hturn.free).1 (Call.of_isFree hturn.free).2.1
        hturn.of_call.1 hturn.of_call.2.1
  | start hidle hsys htasks hstarted =>
    refine ⟨?_, by rw [htasks]; exact h.main, fun _ => by rw [htasks]; exact hidle, ?_, ?_, ?_,
      ρ, φ, ?_⟩
    · rw [hsys, htasks]
      exact h.fits
    · rw [hstarted]
      exact (nomatch ·)
    all_goals rw [hsys]
    · exact h.idle
    · exact h.tests
    · exact hsides

end

end Stacklets.Mythreads

import Mathlib.Data.Fintype.Card
import Stacklets.Mythreads.Sbuf

/-!
# `Stacklets.Mythreads.Pool`: the user threads of `runtime-example/mythreads_64.c`

The pthreads of a program that uses `mythread_create`, `mythread_join` and `mythread_exit`, on
top of the shared buffer. `P` is the type of the pthreads, so `num_pthreads` is its size, and
`M` names the `Thread` records. The thread `none` is the one that runs `main`: it creates
mythreads, and then it starts the pthreads and waits for them.

`Pool.step` lets one thread take its next step. A thread that is in a call of `sbuf_insert` or
`sbuf_remove` takes a step of that call. Otherwise it takes a step of its own code, `taskStep`,
which is one access to a record (a lock, `waiters`, `detached`, `insert_fail`), one
`mythread_save` or `mythread_resume`, or one change of stacks. What the body of a mythread does
next is chosen by the action: a call of `mythread_create`, `mythread_join` or `mythread_exit`.

`mythread_resume` goes to the place that `mythread_save` stored in the record (`Context`), and
it does so as often as it is called. `resumable` notes whether the context was resumed since it
was saved. The record of a mythread stays as it is when it is freed, and only `freed` notes it:
the names of records are not used again.

`mythread_join` with a name is modelled. The lists `blocked`, `putBack` and `joins`, and the
fields `parent`, `joinCalled`, `finished`, `freed`, `resumable` and `starts` are histories.
-/

set_option autoImplicit false

namespace Stacklets.Mythreads

/-- What the buffer holds: `NULL`, the record of a mythread, or that of an exit task. -/
inductive Item (M : Type*)
  | null
  | task (m : M)
  | exit
deriving DecidableEq

/-- The place that is saved in a record. -/
inductive Context (M : Type*)
  /-- The start of the body, by `mythread_save_initial`. -/
  | fresh
  /-- In `mythread_create`, while the child runs in its place. -/
  | inCreate
  /-- In `mythread_yield_and_wait(who)`, called by `mythread_join(who)`. -/
  | inJoin (who : M)
deriving DecidableEq

/-- The record of a mythread. -/
structure Record (P M : Type*) where
  created : Bool
  /-- Bit 0 of `detached`. -/
  detached : Bool
  /-- Bit 1 of `detached`. -/
  done : Bool
  insertFail : Bool
  waiters : List M
  lastjoin : Option M
  lock : Option P
  context : Context M
  /-- The mythread that created this one. -/
  parent : Option M
  /-- `mythread_join` was called for this one. -/
  joinCalled : Bool
  /-- `setDone` was executed. -/
  finished : Bool
  freed : Bool
  /-- The context was saved, and not resumed since. -/
  resumable : Bool
  /-- How often the body was started. -/
  starts : Nat

/-- Where a thread is in its own code. -/
inductive Task (M : Type*)
  /-- The thread that runs `main`. -/
  | main
  | mainCreate (child : M)
  /-- A pthread in `thread`, before `mythread_schedule_next`. -/
  | start
  /-- `mythread_schedule_next`: behind `sbuf_remove`. -/
  | schedule
  /-- In the body of `m`. -/
  | run (m : M)
  /-- `mythread_create`: behind `sbuf_insert(child)`. -/
  | create (m child : M)
  /-- `pushTL(&child->waiters, m)`. -/
  | createPush (m child : M)
  /-- `child->insert_fail = 1`. -/
  | createFlag (m child : M)
  /-- `mythread_save(m)`. -/
  | createSave (m child : M)
  /-- `mythread_resume(child)`. -/
  | createResume (m child : M)
  /-- `mythread_join`: lock `who->lock`. -/
  | joinLock (m who : M)
  /-- `isDone(who)`. -/
  | joinTest (m who : M)
  /-- `setDetached(who)`. -/
  | joinDetach (m who : M)
  /-- Unlock `who->lock`. -/
  | joinUnlock (m who : M)
  /-- `freeThread(who)`, and return `who`. -/
  | joinFree (m who : M)
  /-- `pushTL(&who->waiters, m)`. -/
  | joinPush (m who : M)
  /-- `mythread_yield_and_wait`: `mythread_save(m)`. -/
  | joinSave (m who : M)
  /-- Switch to the stack of the pthread. -/
  | joinSwitch (m who : M)
  /-- Unlock `who->lock`. -/
  | joinRelease (who : M)
  /-- Resumed in `mythread_yield_and_wait`: lock `who->lock`. -/
  | wakeLock (m who : M)
  /-- `freeThread(who)`. -/
  | wakeFree (m who : M)
  /-- Unlock `who->lock`, and return `m->lastjoin`. -/
  | wakeUnlock (m who : M)
  /-- `mythread_exit`: lock `m->lock`. -/
  | exitLock (m : M)
  /-- `setDone(m)`. -/
  | exitDone (m : M)
  /-- `if (m->insert_fail)`. -/
  | exitTest (m : M)
  /-- `w = m->waiters; m->waiters = NULL`. -/
  | exitTake (m : M)
  /-- Unlock `m->lock`. -/
  | exitUnlock (m : M) (w : Option M)
  /-- `mythread_resume(w->thread)`. -/
  | exitResume (m : M) (w : Option M)
  /-- Load `m->waiters`. -/
  | exitWaiters (m : M)
  /-- The head of the loop over the waiters. -/
  | exitLoop (m : M) (ws : List M) (parent : Option M)
  /-- Behind `sbuf_insert(w)`. -/
  | exitInsert (m w : M) (ws : List M) (parent : Option M)
  /-- `m->waiters = NULL`. -/
  | exitClear (m : M) (parent : Option M)
  /-- Switch to the stack of the pthread. -/
  | exitSwitch (m : M) (parent : Option M)
  /-- Unlock `m->lock`. -/
  | exitRelease (m : M) (parent : Option M)
  /-- `mythread_resume(parent)`, or `mythread_schedule_next`. -/
  | exitNext (m : M) (parent : Option M)
  /-- The pthread ended. -/
  | ended
  /-- A null pointer was followed. -/
  | crashed
deriving DecidableEq

/-- Where `m` goes on when its saved context is resumed. -/
def Context.task {M : Type*} (m : M) : Context M → Task M
  | .fresh => .run m
  | .inCreate => .run m
  | .inJoin who => .wakeLock m who

/-- The histories of the record, once its context is resumed. -/
def Record.resumed {P M : Type*} [DecidableEq M] (r : Record P M) : Record P M :=
  { r with
    resumable := false
    starts := if r.context = .fresh then r.starts + 1 else r.starts }

/-- The buffer, the threads and the records. -/
structure Pool (P M : Type*) where
  sys : Sys (Option P) (Item M)
  /-- `mythreads_start` was called. -/
  started : Bool
  tasks : Option P → Task M
  records : M → Record P M
  /-- Who was put in the waiters of whom, by `mythread_join`. -/
  blocked : List (M × M)
  /-- Who was put in the buffer or resumed, by the exit of whom. -/
  putBack : List (M × M)
  /-- Who returned from the join with whom, and with what value. -/
  joins : List (M × M × Option M)

/-- What happens next. -/
inductive PoolAct (P M : Type*)
  /-- A thread goes on. -/
  | go (t : Option P)
  /-- The body that `t` runs calls `mythread_create`, or `main` does. -/
  | create (t : Option P) (child : M)
  /-- The body that `p` runs calls `mythread_join(who)`. -/
  | join (p : P) (who : M)
  /-- The body that `p` runs returns, or calls `mythread_exit`. -/
  | exit (p : P)
  /-- `main` calls `mythreads_start`. -/
  | start
deriving DecidableEq

/-- `k` steps of the thread `t`. -/
def goes {P M : Type*} (t : Option P) (k : Nat) : List (PoolAct P M) := List.replicate k (.go t)

namespace Pool

section
variable {P M : Type*} [DecidableEq P] [DecidableEq M]

@[simp] def setTask (s : Pool P M) (t : Option P) (k : Task M) : Pool P M :=
  { s with tasks := Function.update s.tasks t k }

@[simp] def setCall (s : Pool P M) (t : Option P) (c : Call (Item M)) : Pool P M :=
  { s with sys := s.sys.setCall t c }

@[simp] def setRecord (s : Pool P M) (m : M) (r : Record P M) : Pool P M :=
  { s with records := Function.update s.records m r }

/-- `mythread_schedule_next` calls `sbuf_remove`. -/
def scheduleNext (s : Pool P M) (p : P) : Pool P M :=
  (s.setTask (some p) .schedule).setCall (some p) (.remove .emptyRemoved)

/-- `mythread_save(m)` at the place `k`. -/
def save (s : Pool P M) (m : M) (k : Context M) : Pool P M :=
  s.setRecord m { s.records m with context := k, resumable := true }

/-- `mythread_resume(m)`: go on at the place that is saved in the record. -/
def resume (s : Pool P M) (p : P) (m : M) : Pool P M :=
  ((s.setRecord m (s.records m).resumed).setTask (some p) ((s.records m).context.task m)).setCall
    (some p) .idle

/-- `pthread_mutex_lock(&m->lock)`, and then the task `k`. -/
def lock (s : Pool P M) (p : P) (m : M) (k : Task M) : Option (Pool P M) :=
  if (s.records m).lock = none then
    some ((s.setRecord m { s.records m with lock := some p }).setTask (some p) k)
  else none

/-- `pthread_mutex_unlock(&m->lock)`. -/
def unlock (s : Pool P M) (m : M) : Pool P M :=
  s.setRecord m { s.records m with lock := none }

/-- `freeThread(m)`. -/
def freeThread (s : Pool P M) (m : M) : Pool P M :=
  s.setRecord m { s.records m with freed := true }

/-- `pushTL(&who->waiters, m)`. -/
def pushWaiter (s : Pool P M) (who m : M) : Pool P M :=
  s.setRecord who { s.records who with waiters := m :: (s.records who).waiters }

/-- The next step of the pthread `p` in its own code. -/
def taskStep (s : Pool P M) (p : P) : Option (Pool P M) :=
  match s.tasks (some p) with
  | .start => if s.started then some (s.scheduleNext p) else none
  | .schedule =>
    match s.sys.calls (some p) with
    | .removed (.task m) => some (s.resume p m)
    -- `exit_task`, and the return of `thread` when there is no thread to run
    | .removed _ => some (s.setTask (some p) .ended)
    | _ => none
  | .create m child =>
    match s.sys.calls (some p) with
    | .inserted true => some (s.setTask (some p) (.run m))
    | .inserted false => some (s.setTask (some p) (.createPush m child))
    | _ => none
  | .createPush m child =>
    some ((s.pushWaiter child m).setTask (some p) (.createFlag m child))
  | .createFlag m child =>
    some ((s.setRecord child { s.records child with insertFail := true }).setTask (some p)
      (.createSave m child))
  | .createSave m child => some ((s.save m .inCreate).setTask (some p) (.createResume m child))
  | .createResume _ child => some (s.resume p child)
  | .joinLock m who => s.lock p who (.joinTest m who)
  | .joinTest m who =>
    if (s.records who).done then some (s.setTask (some p) (.joinDetach m who))
    else some (s.setTask (some p) (.joinPush m who))
  | .joinDetach m who =>
    some ((s.setRecord who { s.records who with detached := true, done := false }).setTask
      (some p) (.joinUnlock m who))
  | .joinUnlock m who => some ((s.unlock who).setTask (some p) (.joinFree m who))
  | .joinFree m who =>
    let s := s.freeThread who
    some ({ s with joins := s.joins ++ [(m, who, some who)] }.setTask (some p) (.run m))
  | .joinPush m who =>
    let s := s.pushWaiter who m
    some ({ s with blocked := s.blocked ++ [(m, who)] }.setTask (some p) (.joinSave m who))
  | .joinSave m who => some ((s.save m (.inJoin who)).setTask (some p) (.joinSwitch m who))
  | .joinSwitch _ who => some (s.setTask (some p) (.joinRelease who))
  | .joinRelease who => some ((s.unlock who).scheduleNext p)
  | .wakeLock m who => s.lock p who (.wakeFree m who)
  | .wakeFree m who => some ((s.freeThread who).setTask (some p) (.wakeUnlock m who))
  | .wakeUnlock m who =>
    let s := s.unlock who
    some ({ s with joins := s.joins ++ [(m, who, (s.records m).lastjoin)] }.setTask (some p)
      (.run m))
  | .exitLock m => s.lock p m (.exitDone m)
  | .exitDone m =>
    some ((s.setRecord m { s.records m with done := true, finished := true }).setTask (some p)
      (.exitTest m))
  | .exitTest m =>
    if (s.records m).insertFail then some (s.setTask (some p) (.exitTake m))
    else some (s.setTask (some p) (.exitWaiters m))
  | .exitTake m =>
    some ((s.setRecord m { s.records m with waiters := [] }).setTask (some p)
      (.exitUnlock m (s.records m).waiters.head?))
  | .exitUnlock m w => some ((s.unlock m).setTask (some p) (.exitResume m w))
  | .exitResume _ (some w) => some (s.resume p w)
  | .exitResume _ none => some (s.setTask (some p) .crashed)
  | .exitWaiters m => some (s.setTask (some p) (.exitLoop m (s.records m).waiters none))
  | .exitLoop m [] parent => some (s.setTask (some p) (.exitClear m parent))
  | .exitLoop m (w :: ws) parent =>
    some (((s.setRecord w { s.records w with lastjoin := some m }).setTask (some p)
      (.exitInsert m w ws parent)).setCall (some p) (.insert (.task w) .fullInserted))
  | .exitInsert m w ws parent =>
    match s.sys.calls (some p) with
    | .inserted true =>
      some ({ s with putBack := s.putBack ++ [(w, m)] }.setTask (some p)
        (.exitLoop m ws parent))
    | .inserted false => some (s.setTask (some p) (.exitLoop m ws (some w)))
    | _ => none
  | .exitClear m parent =>
    some ((s.setRecord m { s.records m with waiters := [] }).setTask (some p)
      (.exitSwitch m parent))
  | .exitSwitch m parent => some (s.setTask (some p) (.exitRelease m parent))
  | .exitRelease m parent => some ((s.unlock m).setTask (some p) (.exitNext m parent))
  | .exitNext m (some w) => some ({ s with putBack := s.putBack ++ [(w, m)] }.resume p w)
  | .exitNext _ none => some (s.scheduleNext p)
  | _ => none

/-- The next step of the thread that runs `main`. -/
def mainStep (s : Pool P M) : Option (Pool P M) :=
  match s.tasks none, s.sys.calls none with
  | .mainCreate _, .inserted true => some (s.setTask none .main)
  -- `get_current_pthread()->current_thread` with no pthread
  | .mainCreate _, .inserted false => some (s.setTask none .crashed)
  | _, _ => none

/-- The step of the buffer that a thread in a call takes next. In `signal_exit_task` it creates
the next exit task. -/
def callAct (num : Nat) (t : Option P) (c : Call (Item M)) : Act (Option P) (Item M) :=
  match c with
  | .signal i => if i < num then .create t .exit else .step t
  | _ => .step t

/-- A new record, with the context that `mythread_save_initial` saves. -/
def newRecord (P : Type*) {M : Type*} (parent : Option M) : Record P M where
  created := true
  detached := false
  done := false
  insertFail := false
  waiters := []
  lastjoin := none
  lock := none
  context := .fresh
  parent := parent
  joinCalled := false
  finished := false
  freed := false
  resumable := true
  starts := 0

/-- `mythread_create` up to its call of `sbuf_insert(child)`, in the task `k`. -/
def callCreate (s : Pool P M) (t : Option P) (child : M) (parent : Option M) (k : Task M) :
    Option (Pool P M) :=
  if (s.records child).created then none
  else
    some (((s.setRecord child (newRecord P parent)).setTask t k).setCall t
      (.insert (.task child) .fullInserted))

/-- One step of the program. -/
def step [Fintype P] (n : Capacity) (s : Pool P M) : PoolAct P M → Option (Pool P M)
  | .go t =>
    if (s.sys.calls t).isFree then
      match t with
      | some p => s.taskStep p
      | none => s.mainStep
    else
      (s.sys.step n (Fintype.card P) (callAct (Fintype.card P) t (s.sys.calls t))).map
        fun sys => { s with sys := sys }
  | .create none child =>
    if s.tasks none = .main ∧ s.started = false then
      s.callCreate none child none (.mainCreate child)
    else none
  | .create (some p) child =>
    match s.tasks (some p) with
    | .run m => s.callCreate (some p) child (some m) (.create m child)
    | _ => none
  | .join p who =>
    match s.tasks (some p) with
    | .run m =>
      if (s.records who).created then
        some ((s.setRecord who { s.records who with joinCalled := true }).setTask (some p)
          (.joinLock m who))
      else none
    | _ => none
  | .exit p =>
    match s.tasks (some p) with
    | .run m => some (s.setTask (some p) (.exitLock m))
    | _ => none
  | .start =>
    if s.tasks none = .main ∧ s.started = false then some { s with started := true } else none

end

/-- The state behind `mythreads_init`. No record is in use. -/
def initial (P M : Type*) : Pool P M where
  sys := Sys.initial (Option P) .null
  started := false
  tasks t := match t with
    | none => .main
    | some _ => .start
  records _ := { newRecord P none with created := false, resumable := false }
  blocked := []
  putBack := []
  joins := []

end Pool

end Stacklets.Mythreads

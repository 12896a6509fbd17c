import Stacklets.Lib.Apart
import Stacklets.Mythreads.Idle

/-!
# `Stacklets.Mythreads.Custody`: where the mythreads are

A mythread that has not ended is in the hands of a thread, in the buffer, or on the list of
waiters of another mythread. `Pool.content` reads this off a state:

* a thread has the mythread whose body it executes (`Task.body`) and those that it is about to
  insert, to resume or to put back (`Task.ready`);
* a mythread in a join, or in a create that found the buffer full, goes to the waiters of the
  other mythread as soon as it is pushed there, although its stack is in use for some more steps
  (`Task.suspended`);
* the waiters of a mythread go to the hands of the thread that executes its exit with `setDone`.

The steps of `sbuf_insert` and `sbuf_remove` move a mythread between the hands of the caller and
the buffer when `rear` or `front` is updated (`CallStep.shift`).
-/

set_option autoImplicit false

namespace Stacklets.Mythreads

open Lib

/-! ### Calls -/

section
variable {I M : Type*}

/-- The mythread that an item stands for. -/
def Item.mythread : Item M → Option M
  | .task m => some m
  | _ => none

/-- The item of `sbuf_insert` is not in the buffer. -/
def Call.pending : Call I → Bool
  | .insert _ pc => !pc.committed
  | .inserted r => !r
  | _ => false

/-- The item that has left the buffer. -/
def Call.taken : Call I → Option I
  | .remove pc => pc.committed
  | .removed item => some item
  | _ => none

/-! ### Tasks -/

namespace Task

/-- The mythread whose body the thread executes, or whose exit. -/
def body : Task M → Option M
  | .run m | .create m _ | .createPush m _ => some m
  | .joinLock m _ | .joinTest m _ | .joinDetach m _ | .joinUnlock m _ | .joinFree m _
  | .joinPush m _ => some m
  | .wakeLock m _ | .wakeFree m _ | .wakeUnlock m _ => some m
  | .exitLock m | .exitDone m | .exitTest m | .exitTake m | .exitUnlock m _ | .exitResume m _
  | .exitWaiters m | .exitLoop m _ _ | .exitInsert m _ _ _ | .exitClear m _
  | .exitSwitch m _ => some m
  | _ => none

/-- The mythread that is on the waiters of another one, with its stack in use. -/
def suspended : Task M → Option (M × M)
  | .createFlag m x | .createSave m x | .createResume m x | .joinSave m x | .joinSwitch m x =>
    some (m, x)
  | _ => none

/-- The same, as long as its context is not saved. -/
def pushing : Task M → Option (M × M)
  | .createFlag m x | .createSave m x | .joinSave m x => some (m, x)
  | _ => none

/-- The mythread whose stack is in use. -/
def stack (k : Task M) : Option M := k.body.or (k.suspended.map Prod.fst)

/-- The mythreads in the hands of the thread whose body it does not execute. -/
def ready (k : Task M) (c : Call (Item M)) (waiters : M → List M) : List M :=
  match k with
  | .mainCreate x | .create _ x => if c.pending then [x] else []
  | .schedule => (c.taken.bind Item.mythread).toList
  | .createPush _ x | .createFlag _ x | .createSave _ x | .createResume _ x => [x]
  | .exitTest m | .exitTake m | .exitWaiters m => waiters m
  | .exitUnlock _ w | .exitResume _ w => w.toList
  | .exitLoop _ ws parent => ws ++ parent.toList
  | .exitInsert _ w ws parent => (if c.pending then [w] else []) ++ (ws ++ parent.toList)
  | .exitClear _ parent | .exitSwitch _ parent | .exitRelease _ parent | .exitNext _ parent =>
    parent.toList
  | _ => []

/-- The mythread whose exit the thread executes, behind `setDone`. -/
def exiting : Task M → Option M
  | .exitTest m | .exitTake m | .exitUnlock m _ | .exitResume m _ | .exitWaiters m
  | .exitLoop m _ _ | .exitInsert m _ _ _ | .exitClear m _ | .exitSwitch m _
  | .exitRelease m _ | .exitNext m _ => some m
  | _ => none

/-- The mythread whose lock the thread has. -/
def locks : Task M → Option M
  | .joinTest _ x | .joinDetach _ x | .joinUnlock _ x | .joinPush _ x | .joinSave _ x
  | .joinSwitch _ x | .joinRelease x => some x
  | .wakeFree _ x | .wakeUnlock _ x => some x
  | .exitDone m | .exitTest m | .exitTake m | .exitUnlock m _ | .exitWaiters m
  | .exitLoop m _ _ | .exitInsert m _ _ _ | .exitClear m _ | .exitSwitch m _
  | .exitRelease m _ => some m
  | _ => none

/-- The waiters that the exit still has to put back. -/
def owed (k : Task M) (waiters : M → List M) (fail : M → Bool) : List M :=
  match k with
  | .exitTest m => if fail m then [] else waiters m
  | .exitWaiters m => waiters m
  | .exitLoop _ ws parent => ws ++ parent.toList
  | .exitInsert _ w ws parent => w :: (ws ++ parent.toList)
  | .exitClear _ parent | .exitSwitch _ parent | .exitRelease _ parent | .exitNext _ parent =>
    parent.toList
  | _ => []

end Task

/-! ### States -/

variable {P : Type*}

/-- The mythreads that wait for this one. Behind `setDone` they are in the hands of the thread
that executes the exit. -/
def Record.waits (r : Record P M) : List M := if r.finished then [] else r.waiters

/-- The places where a mythread can be. -/
inductive Place (P M : Type*)
  | hand (t : Option P)
  | buffer
  | waits (x : M)
deriving DecidableEq

namespace Pool

def ready (s : Pool P M) (t : Option P) : List M :=
  (s.tasks t).ready (s.sys.calls t) fun m => (s.records m).waiters

def hands (s : Pool P M) (t : Option P) : List M := (s.tasks t).body.toList ++ s.ready t

def owed (s : Pool P M) (t : Option P) : List M :=
  (s.tasks t).owed (fun m => (s.records m).waiters) fun m => (s.records m).insertFail

/-- The mythreads in the buffer. -/
def buffered (s : Pool P M) : List M := s.sys.shared.queue.filterMap Item.mythread

def content (s : Pool P M) : Place P M → List M
  | .hand t => s.hands t
  | .buffer => s.buffered
  | .waits x => (s.records x).waits

end Pool

end

/-! ### The steps of a call -/

section
variable {T I : Type*} [DecidableEq T] {n : Capacity} {num : Nat} {t : T} {item : I}
  {s s' : Shared T I} {pc : InsertPC} {out : InsertOut} {rpc : RemovePC I} {rout : RemoveOut I}

@[simp] def InsertOut.pending : InsertOut → Bool
  | .goes pc => !pc.committed
  | .returns r => !r

@[simp] def RemoveOut.taken : RemoveOut I → Option I
  | .goes pc => pc.committed
  | .signals => none
  | .returns item => some item

/-- `sbuf_insert` puts its item at the end of the queue, or leaves the queue as it is. -/
theorem insertStep_shift (hc : s.CountersOk n) (hs : insertStep n t item s pc = (s', out)) :
    s'.queue = s.queue ∧ out.pending = !pc.committed ∨
      s'.queue = s.queue ++ [item] ∧ pc.committed = false ∧ out.pending = false := by
  cases pc with
  | setRear p =>
    cases hs
    refine .inr ⟨?_, rfl, rfl⟩
    exact List.drop_append_of_le_length (hc.taken_le.trans hc.insertions_le)
  | fullRemoved i | cas | refullRemoved i | testTrial p =>
    simp only [insertStep] at hs
    split at hs <;> cases hs <;> exact .inl ⟨rfl, rfl⟩
  | _ =>
    cases hs
    exact .inl ⟨rfl, rfl⟩

/-- `sbuf_remove` takes the first item of the queue, or leaves the queue as it is. -/
theorem removeStep_shift (h : rpc.holds = true → s.SlotsOk n (some rpc))
    (hs : removeStep n num t s rpc = some (s', rout)) :
    s'.queue = s.queue ∧ rout.taken = rpc.committed ∨
      ∃ item, s.queue = item :: s'.queue ∧ rpc.committed = none ∧ rout.taken = some item := by
  cases rpc with
  | setFront p item =>
    have hnext := (h rfl).next p item (.inr rfl)
    cases hs
    refine .inr ⟨item, ?_, rfl, rfl⟩
    obtain ⟨hlt, hget⟩ := List.getElem?_eq_some_iff.mp hnext
    show s.put.drop s.taken.length = item :: s.put.drop (s.taken ++ [item]).length
    rw [List.drop_eq_getElem_cons hlt, hget, List.length_append, List.length_singleton]
  | _ =>
    simp only [removeStep] at hs
    try split at hs
    all_goals cases hs
    all_goals exact .inl ⟨rfl, rfl⟩

end

section
variable {P M : Type*} [DecidableEq P] {n : Capacity} {num : Nat} {t : Option P}
  {sh sh' : Shared (Option P) (Item M)} {c c' : Call (Item M)} {k : Task M}

omit [DecidableEq P] in
/-- A thread in `sbuf_insert` has the mythread that it inserts in its hands until it is put. -/
theorem Task.Fits.ready_insert {item : Item M} {pc : InsertPC} (hk : k.Fits (.insert item pc))
    (hc : c'.isFree = true ∨ ∃ pc', c' = .insert item pc') (waiters : M → List M) :
    ∃ x, item = .task x ∧
      (c'.pending = !pc.committed → k.ready c' waiters = k.ready (.insert item pc) waiters) ∧
      (pc.committed = false → c'.pending = false →
        k.ready (.insert item pc) waiters = x :: k.ready c' waiters) := by
  have hpending : (Call.insert item pc).pending = !pc.committed := rfl
  cases k with
  | create m x | mainCreate x | exitInsert m x ws parent =>
    obtain ⟨pc₁, heq⟩ : ∃ pc₁, Call.insert item pc = .insert (.task x) pc₁ := by
      rcases hk with hfree | heq
      · simp [Call.isFree] at hfree
      · exact heq
    cases heq
    refine ⟨x, rfl, ?_, ?_⟩
    · intro h
      simp only [Task.ready, h, hpending]
    · intro hpc hfalse
      simp [Task.ready, hfalse, hpending, hpc]
  | schedule => cases hk
  | main => cases hk.1
  | _ => cases hk

/-- What a step of the call of a thread does to the buffer and to its hands: nothing, a mythread
is put at the end of the buffer, or the first one is taken. -/
theorem CallStep.shift (h : CallStep n num t (· = .exit) sh c sh' c') (hk : k.Fits c)
    (hc : sh.CountersOk n) (hslots : ∀ pc, c = .remove pc → pc.holds = true →
      sh.SlotsOk n (some pc)) (waiters : M → List M) :
    (sh'.queue.filterMap Item.mythread = sh.queue.filterMap Item.mythread ∧
      k.ready c' waiters = k.ready c waiters) ∨
    (∃ x, sh'.queue.filterMap Item.mythread = sh.queue.filterMap Item.mythread ++ [x] ∧
      k.ready c waiters = x :: k.ready c' waiters) ∨
    ∃ x, sh.queue.filterMap Item.mythread = x :: sh'.queue.filterMap Item.mythread ∧
      k.ready c' waiters = x :: k.ready c waiters := by
  cases h with
  | insert hdoes =>
    rename_i item pc out
    have hfree : (out.call item).isFree = true ∨ ∃ pc', out.call item = .insert item pc' := by
      cases out with
      | goes pc' => exact .inr ⟨pc', rfl⟩
      | returns r => exact .inl rfl
    have hpending : (out.call item).pending = out.pending := by cases out <;> rfl
    obtain ⟨x, rfl, hstay, hput⟩ := hk.ready_insert hfree waiters
    rcases insertStep_shift hc hdoes with ⟨hqueue, hout⟩ | ⟨hqueue, hpc, hout⟩
    · exact .inl ⟨by rw [hqueue], hstay (hpending.trans hout)⟩
    · refine .inr (.inl ⟨x, ?_, hput hpc (hpending.trans hout)⟩)
      rw [hqueue, List.filterMap_append]
      rfl
  | create hdoes =>
    rename_i i item pc out
    obtain rfl := hk.schedule rfl (by simp)
    obtain rfl : item = .exit := hk
    refine .inl ⟨?_, ?_⟩
    -- what the exit message adds carries no mythread
    · rcases insertStep_shift hc hdoes with ⟨hqueue, -⟩ | ⟨hqueue, -⟩
      · rw [hqueue]
      · rw [hqueue, List.filterMap_append]
        exact List.append_nil _
    · rcases out with _ | _ | _ <;> rfl
  | remove hdoes =>
    rename_i pc out
    obtain rfl := hk.schedule rfl (by simp)
    have htaken : out.call.taken = out.taken := by cases out <;> rfl
    rcases removeStep_shift (hslots pc rfl) hdoes with ⟨hqueue, hout⟩ | ⟨item, hqueue, hpc, hout⟩
    · refine .inl ⟨by rw [hqueue], ?_⟩
      simp only [Task.ready, htaken, hout]
      rfl
    · have hnone : (Call.remove pc).taken = none := hpc
      rw [hqueue]
      simp only [Task.ready, htaken, hout, hnone, List.filterMap_cons]
      -- only a task carries a mythread out of the buffer
      cases item with
      | task x => exact .inr (.inr ⟨x, rfl, rfl⟩)
      | null | exit => exact .inl ⟨rfl, rfl⟩
  | next hexit | last =>
    obtain rfl := hk.schedule rfl (by simp)
    exact .inl ⟨rfl, rfl⟩

end

end Stacklets.Mythreads

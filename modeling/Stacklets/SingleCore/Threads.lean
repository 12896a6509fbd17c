import Stacklets.Lib.Runs
import Mathlib.Logic.Function.Basic

/-!
# `Stacklets.SingleCore.Threads`: the single-core thread package

The user threads of `mythreads.c`. One thread runs at a time, and it gives up the processor only
in `mythread_yield`, in a `mythread_join` that has to wait, and in `mythread_exit`. A program is
any sequence of calls, so an action of `Act` is one call by the thread that runs (or by the main
program, while no thread runs).

A thread is named by a number. `mythread_create` takes the next number, so the record of a
thread that was freed is never given to another one. `freed` lists the calls of `freeThread`,
and `stale` says that some record was read or written after it was freed. Every function notes
the records that it reads or writes with `touch`.

A waiting thread comes back out of `mythread_join` when the scheduler resumes it. The list
`joins` has one entry for each return.
-/

set_option autoImplicit false

namespace Stacklets.SingleCore

/-- Where a thread is: not created, created but not started, in `mythread_yield`, waiting in
`mythread_join(who)`, made ready again in `mythread_join(who)` by the exit of thread `v`,
running, or past `mythread_exit`. -/
inductive Context where
  | unborn
  | fresh
  | yielded
  | joining (who : Option Nat)
  | woken (who : Option Nat) (v : Nat)
  | running
  | exited
deriving DecidableEq

/-- The argument of the `mythread_join` that the thread is in. -/
def Context.joinArg : Context → Option (Option Nat)
  | .joining who | .woken who _ => some who
  | _ => none

/-- The record of a thread. `detachedBit` and `doneBit` are the two bits of `detached`. The last
three fields are not in the source: the context stands for the saved registers and the stack,
`parent` is the thread that made this one, and `detachCalled` says that it called
`mythread_detach`. -/
structure Thread where
  detachedBit : Bool
  doneBit : Bool
  waiters : List Nat
  waitingon : Option Nat
  lastjoin : Option Nat
  children : List Nat
  context : Context
  parent : Option Nat
  detachCalled : Bool

/-- A return of `mythread_join`. -/
structure Join where
  caller : Nat
  who : Option Nat
  value : Option Nat
deriving DecidableEq

structure State where
  threads : Nat → Thread
  count : Nat
  ready : List Nat
  idle : List Nat
  current : Option Nat
  freed : List Nat
  stale : Bool
  joins : List Join
  crashed : Bool

/-- The macro `setDetached`. It clears the other bit. -/
def Thread.setDetached (t : Thread) : Thread := { t with detachedBit := true, doneBit := false }

/-- Before `mythread_create`. -/
def Thread.unborn : Thread where
  detachedBit := false
  doneBit := false
  waiters := []
  waitingon := none
  lastjoin := none
  children := []
  context := .unborn
  parent := none
  detachCalled := false

/-- The record that `mythread_create` makes. -/
def Thread.new (parent : Option Nat) : Thread := { Thread.unborn with context := .fresh, parent }

/-- `removeFromIdleQue` on the list of idle threads. If the thread is the first one, the whole
list is dropped. If it is not there and the list is not empty, a null pointer is followed. -/
def removeFromIdleQue (t : Nat) : List Nat → Option (List Nat)
  | [] => some []
  | x :: xs => if x = t then some [] else if t ∈ xs then some (x :: xs.erase t) else none

/-- `removeTL` on the list of threads. If the entry is the first one, the whole list is dropped.
If there is none, an assertion fails. -/
def removeTL (t : Nat) : List Nat → Option (List Nat)
  | [] => none
  | x :: xs => if x = t then some [] else if t ∈ xs then some (x :: xs.erase t) else none

namespace State

variable (s : State)

/-- The records `ts` are read or written. -/
def touch (ts : List Nat) : State := { s with stale := s.stale || ts.any (· ∈ s.freed) }

def modify (t : Nat) (f : Thread → Thread) : State :=
  { s with threads := Function.update s.threads t (f (s.threads t)) }

def enqThread (t : Nat) : State :=
  { s.touch (s.ready.getLast?.toList ++ [t]) with ready := s.ready ++ [t] }

def freeThread (t : Nat) : State := { s.touch [t] with freed := s.freed ++ [t] }

/-- The return of `mythread_join` in thread `t`, if it is in one. The value is the one in
`lastjoin`. -/
def returns (t : Nat) : List Join :=
  match (s.threads t).context.joinArg with
  | some who => [⟨t, who, (s.threads t).lastjoin⟩]
  | none => []

/-- `mythread_resume`. -/
def resume (t : Nat) : State :=
  { (s.touch [t]).modify t ({ · with context := .running }) with
    current := some t
    joins := s.joins ++ s.returns t }

/-- `mythread_schedule_next`. If no thread is ready, `longjmp` returns to the main program. -/
def scheduleNext : State :=
  match s.ready with
  | [] => { s with current := none }
  | t :: rest => { s with ready := rest }.resume t

/-- `mythread_create`, by the thread that runs or by the main program. -/
def create : State :=
  let t := s.count
  let s := { s with threads := Function.update s.threads t (.new s.current), count := t + 1 }
  let s :=
    match s.current with
    | some c => (s.touch [c]).modify c fun r => { r with children := t :: r.children }
    | none => s
  s.enqThread t

def yield (c : Nat) : State :=
  ((s.enqThread c).modify c ({ · with context := .yielded })).scheduleNext

def detach (c : Nat) : State :=
  (s.touch [c]).modify c fun r => { r.setDetached with detachCalled := true }

/-- The end of a `mythread_join` that found a finished thread. -/
def collect (c : Nat) (who : Option Nat) (v : Nat) : State :=
  let s := ((s.touch [v]).modify v Thread.setDetached).freeThread v
  { s with joins := s.joins ++ [⟨c, who, some v⟩] }

/-- The end of a `mythread_join` that has to wait. -/
def wait (c : Nat) (who : Option Nat) : State :=
  { (s.touch [c]).modify c ({ · with waitingon := who, context := .joining who }) with
    idle := c :: s.idle }.scheduleNext

/-- A child that `mythread_join(NULL)` may return. -/
def collectable (t : Nat) : Bool := (s.threads t).doneBit && !(s.threads t).detachedBit

def join (c : Nat) (who : Option Nat) : State :=
  match who with
  | some w =>
    let s := s.touch [w]
    if (s.threads w).doneBit then s.collect c who w
    else (s.modify w fun r => { r with waiters := c :: r.waiters }).wait c who
  | none =>
    let children := (s.threads c).children
    let found := children.find? s.collectable
    let s := s.touch (c :: children.takeWhile (!s.collectable ·) ++ found.toList)
    match found with
    | some v => s.collect c none v
    | none => s.wait c none

/-- Thread `t`, which waits for `c`, is made ready. -/
def wake (c t : Nat) : Option State :=
  (removeFromIdleQue t s.idle).map fun idle =>
    (({ s with idle }.touch (s.idle.takeWhile (· ≠ t) ++ [t])).modify t fun r =>
      { r with lastjoin := some c, context := .woken (r.context.joinArg.getD none) c }).enqThread t

/-- The loop over the waiters in `mythread_exit`. -/
def wakeAll (c : Nat) : State → List Nat → Option State
  | s, [] => some s
  | s, w :: ws => (s.wake c w).bind fun s => wakeAll c s ws

/-- The first idle thread that waits for anyone. -/
def anyone : Option Nat := s.idle.find? fun t => (s.threads t).waitingon = none

/-- The part of `mythread_exit` that finds out whether somebody waits for thread `c`. The first
result is the variable `assigned`. -/
def assign (c : Nat) : Option (Bool × State) :=
  match (s.threads c).waiters with
  | w :: ws => (wakeAll c s (w :: ws)).map fun s =>
    (true, s.modify c ({ · with waiters := [] }))
  | [] =>
    if (s.threads c).detachedBit then some (false, s)
    else
      let touched := s.touch (s.idle.takeWhile (fun t => (s.threads t).waitingon ≠ none) ++
        s.anyone.toList)
      match s.anyone with
      | some t => (touched.wake c t).map (true, ·)
      | none => some (false, touched)

/-- `mythread_exit`. The result is `none` if a null pointer is followed. -/
def exit (c : Nat) : Option State :=
  (((s.touch [c]).modify c fun r => { r with doneBit := true, context := .exited }).assign c).map
    fun (assigned, s) =>
    (if (s.threads c).detachedBit || assigned then { s.freeThread c with current := none }
      else s).scheduleNext

end State

/-- The calls of a program. -/
inductive Act where
  | create
  | start
  | yield
  | detach
  | join (who : Option Nat)
  | exit
deriving DecidableEq

namespace State

/-- One call. `start` is for the main program, the calls after it are for threads, and
`mythread_join` needs the name of a thread that was created. -/
def step (s : State) (a : Act) : Option State :=
  if s.crashed then none
  else match a, s.current with
  | .create, _ => some s.create
  | .start, none => some s.scheduleNext
  | .yield, some c => some (s.yield c)
  | .detach, some c => some (s.detach c)
  | .join who, some c =>
    if ∀ w ∈ who, w < s.count then some (s.join c who) else none
  | .exit, some c => some ((s.exit c).getD { s with crashed := true })
  | _, _ => none

/-- After `mythreads_init`. -/
def initial : State where
  threads := fun _ => .unborn
  count := 0
  ready := []
  idle := []
  current := none
  freed := []
  stale := false
  joins := []
  crashed := false

/-! ### What a call does -/

variable {s s' : State}

/-- One call: its function, or a crash in `mythread_exit`. -/
theorem step_cases {a : Act} (h : s.step a = some s') :
    a = .create ∧ s' = s.create ∨ a = .start ∧ s.current = none ∧ s' = s.scheduleNext ∨
      ∃ c, s.current = some c ∧ (a = .yield ∧ s' = s.yield c ∨ a = .detach ∧ s' = s.detach c ∨
        (∃ who, a = .join who ∧ (∀ w ∈ who, w < s.count) ∧ s' = s.join c who) ∨
        a = .exit ∧ (s.exit c = some s' ∨ s' = { s with crashed := true })) := by
  unfold step at h
  split at h
  · cases h
  cases hcurrent : s.current with
  | none =>
    rw [hcurrent] at h
    cases a with
    | create => exact .inl ⟨rfl, (Option.some.inj h).symm⟩
    | start => exact .inr (.inl ⟨rfl, rfl, (Option.some.inj h).symm⟩)
    | yield | detach | join _ | exit => cases h
  | some c =>
    rw [hcurrent] at h
    cases a with
    | create => exact .inl ⟨rfl, (Option.some.inj h).symm⟩
    | start => cases h
    | yield => exact .inr (.inr ⟨c, rfl, .inl ⟨rfl, (Option.some.inj h).symm⟩⟩)
    | detach => exact .inr (.inr ⟨c, rfl, .inr (.inl ⟨rfl, (Option.some.inj h).symm⟩)⟩)
    | join who =>
      obtain ⟨hlt, heq⟩ := Option.ite_none_right_eq_some.mp h
      exact .inr (.inr ⟨c, rfl, .inr (.inr (.inl ⟨who, rfl, hlt, (Option.some.inj heq).symm⟩))⟩)
    | exit =>
      refine .inr (.inr ⟨c, rfl, .inr (.inr (.inr ⟨rfl, ?_⟩))⟩)
      have heq := Option.some.inj h
      cases hexit : s.exit c with
      | none => exact .inr (by rw [← heq, hexit]; rfl)
      | some s₁ => exact .inl (by rw [← heq, hexit]; rfl)

theorem touch_nil : s.touch [] = s := by
  unfold touch
  rw [List.any_nil, Bool.or_false]

/-- `mythread_exit` wakes the threads that wait for `c`, or the first one that waits for anyone,
or nobody. To find one, it reads idle threads `ts`. -/
theorem assign_cases {c : Nat} {assigned : Bool} (h : s.assign c = some (assigned, s')) :
    (∃ s₁, wakeAll c s (s.threads c).waiters = some s₁ ∧ assigned = true ∧
      s' = s₁.modify c ({ · with waiters := [] })) ∨
    ∃ ts, (∀ t ∈ ts, t ∈ s.idle) ∧
      ((∃ t ∈ s.anyone, (s.threads c).waiters = [] ∧ (s.threads c).detachedBit = false ∧
        (s.touch ts).wake c t = some s' ∧ assigned = true) ∨
      s' = s.touch ts ∧ assigned = false) := by
  unfold assign at h
  split at h
  · next w ws hws =>
    obtain ⟨s₁, hwake, heq⟩ := Option.map_eq_some_iff.mp h
    cases heq
    exact .inl ⟨s₁, hws ▸ hwake, rfl, rfl⟩
  · next hnil =>
    split at h
    · cases h
      exact .inr ⟨[], nofun, .inr ⟨touch_nil.symm, rfl⟩⟩
    next hattached =>
    -- the loop reads the threads up to the first that waits for anyone
    refine .inr ⟨s.idle.takeWhile (fun t => (s.threads t).waitingon ≠ none) ++ s.anyone.toList,
      ?_, ?_⟩
    · intro t ht
      rcases List.mem_append.mp ht with ht | ht
      · exact (List.takeWhile_sublist _).subset ht
      · exact List.mem_of_find?_eq_some (Option.mem_toList.mp ht)
    · dsimp only at h
      split at h
      · next t ht =>
        obtain ⟨s₁, hwake, heq⟩ := Option.map_eq_some_iff.mp h
        cases heq
        exact .inl ⟨t, ht, hnil, by simpa using hattached, hwake, rfl⟩
      · cases h
        exact .inr ⟨rfl, rfl⟩

/-- The record of a thread that calls `mythread_exit`. -/
def exitRecord (t : Thread) : Thread := { t with doneBit := true, context := .exited }

/-- At the end of `mythread_exit` the record is freed, or nobody has got it. -/
theorem exit_cases {c : Nat} (h : s.exit c = some s') :
    ∃ assigned s₁, ((s.touch [c]).modify c exitRecord).assign c = some (assigned, s₁) ∧
      (s' = { s₁.freeThread c with current := none }.scheduleNext ∨
        assigned = false ∧ s' = s₁.scheduleNext) := by
  obtain ⟨⟨assigned, s₁⟩, hassign, rfl⟩ := Option.map_eq_some_iff.mp h
  refine ⟨assigned, s₁, hassign, ?_⟩
  dsimp only
  split
  · exact .inl rfl
  · next hnot => exact .inr ⟨(Bool.or_eq_false_iff.mp (by simpa using hnot)).2, rfl⟩

end State

end Stacklets.SingleCore

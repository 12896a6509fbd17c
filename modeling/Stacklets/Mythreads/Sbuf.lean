import Mathlib.Data.BitVec
import Mathlib.Logic.Function.Basic

/-!
# `Stacklets.Mythreads.Sbuf`: the shared buffer of `runtime-example/sbuffree.c`

`insertStep` and `removeStep` follow `sbuf_insert` and `sbuf_remove`. One step is one load,
store or compare-and-swap of a field of the buffer, or one operation on `mutex_idle_count`.
`idlep_count` is read and written under the mutex only, so its update is one step. The fields
of type `int` are `BitVec 32` and wrap. `%` of C is `Int.tmod` on their signed values, and a
negative index is a cell of its own.

`trialRear` and `trialFront` hold the address of a local variable of the thread that set them,
and here the thread itself. A `while` loop around a compare-and-swap that fails stays where it
is.

`Sys` is any number of threads that call the two functions at will. `sbuf_remove` may call
`signal_exit_task`, which calls `sbuf_insert` for `num_pthreads` exit tasks. If one of these
inserts fails, `mythread_create` saves the current thread and runs the exit task at once. Where
there is no current thread, `mythread_save(NULL)` writes to address 0 and the process dies.
Otherwise `exit_task` ends the thread with the mutex in its hands. In both cases the thread does
not go on (`Call.gone`).

The lists `put`, `taken`, `accepted` and `returned` are histories, the oldest entry first, and
`insertions` and `removals` count the increments of `inserted` and `removed` without a bound.
The code does not have them, nor the `since` of some places, which is the value of `insertions`
when the thread began its test for an empty buffer.
-/

set_option autoImplicit false

namespace Stacklets.Mythreads

/-- The values that `n` can have: the positive ones of type `int`. -/
structure Capacity where
  val : Nat
  pos : 1 ≤ val
  int : val < 2 ^ 31

/-- The fields of `sbuf_t`, and the globals of `sbuffree.c`. -/
structure Shared (T I : Type*) where
  buf : Int → I
  front : BitVec 32
  rear : BitVec 32
  trialFront : Option T
  trialRear : Option T
  inserted : BitVec 32
  removed : BitVec 32
  idlepCount : Int
  doneCreatingThreads : Bool
  mutexIdleCount : Option T
  /-- The items, in the order of the updates of `rear`. -/
  put : List I
  /-- The items, in the order of the updates of `front`. -/
  taken : List I
  /-- The items for which `sbuf_insert` returned 1. -/
  accepted : List I
  /-- The items that `sbuf_remove` returned. -/
  returned : List I
  /-- The number of increments of `inserted`. -/
  insertions : Nat
  /-- The number of increments of `removed`. -/
  removals : Nat

/-- Where a thread is in `sbuf_insert`. -/
inductive InsertPC
  /-- `if ((inserted - removed) == n)`: load `inserted`. -/
  | fullInserted
  /-- Load `removed`, and compare. -/
  | fullRemoved (i : BitVec 32)
  /-- The loop of the compare-and-swap on `trialRear`. -/
  | cas
  /-- The second test, under the token: load `inserted`. -/
  | refullInserted
  /-- Load `removed`, and compare. -/
  | refullRemoved (i : BitVec 32)
  /-- `trialRear = NULL; return 0`. -/
  | fail
  /-- `insertPoint = rear + 1`. -/
  | readRear
  /-- `if (trialRear != &insertPoint)`. -/
  | testTrial (insertPoint : BitVec 32)
  /-- `trialRear = NULL; continue`. -/
  | retry
  /-- `buf[insertPoint % n] = item`. -/
  | store (insertPoint : BitVec 32)
  /-- `rear = insertPoint`. -/
  | setRear (insertPoint : BitVec 32)
  /-- `inserted++`: load. -/
  | loadInserted
  /-- `inserted++`: store. -/
  | storeInserted (i : BitVec 32)
  /-- `trialRear = NULL; return 1`. -/
  | clear
deriving DecidableEq

/-- Where a thread is in `sbuf_remove`. -/
inductive RemovePC (I : Type*)
  /-- `if (removed == inserted)`: load `removed`. -/
  | emptyRemoved
  /-- Load `inserted`, and compare. -/
  | emptyInserted (r : BitVec 32) (since : Nat)
  /-- Lock the mutex, for the test of `idlep_count`. -/
  | testLock (since : Nat)
  /-- `if (idlep_count == (num_pthreads-1))`, and `done_creating_threads = 1`. -/
  | testIdle (since : Nat)
  /-- Unlock the mutex. -/
  | testUnlock
  /-- Lock the mutex, for the increment of `idlep_count`. -/
  | incLock
  | inc
  | incUnlock
  /-- `while (removed == inserted)`: load `removed`. -/
  | spinRemoved
  /-- Load `inserted`, and compare. -/
  | spinInserted (r : BitVec 32)
  /-- Lock the mutex, for the decrement of `idlep_count`. -/
  | decLock
  | dec
  | decUnlock
  /-- The loop of the compare-and-swap on `trialFront`. -/
  | cas
  /-- The second test, under the token: load `removed`. -/
  | recheckRemoved
  /-- Load `inserted`, and compare. -/
  | recheckInserted (r : BitVec 32)
  /-- `trialFront = NULL; continue`. -/
  | release
  /-- `removePoint = 1 + front`. -/
  | readFront
  /-- `item = buf[removePoint % n]`. -/
  | readItem (removePoint : BitVec 32)
  /-- `if (trialFront != &removePoint) continue`. -/
  | testTrial (removePoint : BitVec 32) (item : I)
  /-- `front = removePoint`. -/
  | setFront (removePoint : BitVec 32) (item : I)
  /-- `removed++`: load. -/
  | loadRemoved (item : I)
  /-- `removed++`: store. -/
  | storeRemoved (r : BitVec 32) (item : I)
  /-- `trialFront = NULL; return item`. -/
  | clear (item : I)
deriving DecidableEq

/-- A step of `sbuf_insert` leads on or returns. -/
inductive InsertOut
  | goes (pc : InsertPC)
  | returns (r : Bool)

/-- A step of `sbuf_remove` leads on, calls `signal_exit_task` or returns. -/
inductive RemoveOut (I : Type*)
  | goes (pc : RemovePC I)
  | signals
  | returns (item : I)

section
variable {T I : Type*} [DecidableEq T]

/-- The cell of the index `p % n`. -/
def cell (n : Capacity) (p : BitVec 32) : Int := p.toInt.tmod n.val

/-- One step of `sbuf_insert(item)` by the thread `t`. -/
def insertStep (n : Capacity) (t : T) (item : I) (s : Shared T I) :
    InsertPC → Shared T I × InsertOut
  | .fullInserted => (s, .goes (.fullRemoved s.inserted))
  | .fullRemoved i =>
    if i - s.removed = BitVec.ofNat 32 n.val then (s, .returns false) else (s, .goes .cas)
  | .cas =>
    if s.trialRear = none then ({ s with trialRear := some t }, .goes .refullInserted)
    else (s, .goes .cas)
  | .refullInserted => (s, .goes (.refullRemoved s.inserted))
  | .refullRemoved i =>
    if i - s.removed = BitVec.ofNat 32 n.val then (s, .goes .fail) else (s, .goes .readRear)
  | .fail => ({ s with trialRear := none }, .returns false)
  | .readRear => (s, .goes (.testTrial (s.rear + 1)))
  | .testTrial p => if s.trialRear ≠ some t then (s, .goes .retry) else (s, .goes (.store p))
  | .retry => ({ s with trialRear := none }, .goes .fullInserted)
  | .store p => ({ s with buf := Function.update s.buf (cell n p) item }, .goes (.setRear p))
  | .setRear p => ({ s with rear := p, put := s.put ++ [item] }, .goes .loadInserted)
  | .loadInserted => (s, .goes (.storeInserted s.inserted))
  | .storeInserted i =>
    ({ s with inserted := i + 1, insertions := s.insertions + 1 }, .goes .clear)
  | .clear =>
    ({ s with trialRear := none, accepted := s.accepted ++ [item] }, .returns true)

/-- One step of `sbuf_remove()` by the thread `t`, with `num` pthreads. It is `none` while `t`
waits for the mutex. -/
def removeStep (n : Capacity) (num : Nat) (t : T) (s : Shared T I) :
    RemovePC I → Option (Shared T I × RemoveOut I)
  | .emptyRemoved => some (s, .goes (.emptyInserted s.removed s.insertions))
  | .emptyInserted r k =>
    if r = s.inserted then some (s, .goes (.testLock k)) else some (s, .goes .incLock)
  | .testLock k =>
    if s.mutexIdleCount = none then
      some ({ s with mutexIdleCount := some t }, .goes (.testIdle k))
    else none
  | .testIdle _ =>
    if s.idlepCount = num - 1 then some ({ s with doneCreatingThreads := true }, .signals)
    else some (s, .goes .testUnlock)
  | .testUnlock => some ({ s with mutexIdleCount := none }, .goes .incLock)
  | .incLock =>
    if s.mutexIdleCount = none then some ({ s with mutexIdleCount := some t }, .goes .inc)
    else none
  | .inc => some ({ s with idlepCount := s.idlepCount + 1 }, .goes .incUnlock)
  | .incUnlock => some ({ s with mutexIdleCount := none }, .goes .spinRemoved)
  | .spinRemoved => some (s, .goes (.spinInserted s.removed))
  | .spinInserted r =>
    if r = s.inserted then some (s, .goes .spinRemoved) else some (s, .goes .decLock)
  | .decLock =>
    if s.mutexIdleCount = none then some ({ s with mutexIdleCount := some t }, .goes .dec)
    else none
  | .dec => some ({ s with idlepCount := s.idlepCount - 1 }, .goes .decUnlock)
  | .decUnlock => some ({ s with mutexIdleCount := none }, .goes .cas)
  | .cas =>
    if s.trialFront = none then
      some ({ s with trialFront := some t }, .goes .recheckRemoved)
    else some (s, .goes .cas)
  | .recheckRemoved => some (s, .goes (.recheckInserted s.removed))
  | .recheckInserted r =>
    if r = s.inserted then some (s, .goes .release) else some (s, .goes .readFront)
  | .release => some ({ s with trialFront := none }, .goes .emptyRemoved)
  | .readFront => some (s, .goes (.readItem (1 + s.front)))
  | .readItem p => some (s, .goes (.testTrial p (s.buf (cell n p))))
  | .testTrial p item =>
    if s.trialFront ≠ some t then some (s, .goes .emptyRemoved)
    else some (s, .goes (.setFront p item))
  | .setFront p item =>
    some ({ s with front := p, taken := s.taken ++ [item] }, .goes (.loadRemoved item))
  | .loadRemoved item => some (s, .goes (.storeRemoved s.removed item))
  | .storeRemoved r item =>
    some ({ s with removed := r + 1, removals := s.removals + 1 }, .goes (.clear item))
  | .clear item =>
    some ({ s with trialFront := none, returned := s.returned ++ [item] }, .returns item)

/-! ### Threads that use the buffer -/

/-- What a thread is doing with the buffer. -/
inductive Call (I : Type*)
  | idle
  /-- In `sbuf_insert(item)`. -/
  | insert (item : I) (pc : InsertPC)
  /-- `sbuf_insert` returned. -/
  | inserted (r : Bool)
  /-- In `sbuf_remove()`. -/
  | remove (pc : RemovePC I)
  /-- `sbuf_remove` returned. -/
  | removed (item : I)
  /-- In the loop of `signal_exit_task`, called by `sbuf_remove`. -/
  | signal (i : Nat)
  /-- In the `sbuf_insert(item)` of the exit task `i`. -/
  | create (i : Nat) (item : I) (pc : InsertPC)
  /-- An insert of `signal_exit_task` failed, and the thread does not go on. -/
  | gone
deriving DecidableEq

/-- The thread is in no call. -/
def Call.isFree {I : Type*} : Call I → Bool
  | .idle | .inserted _ | .removed _ => true
  | _ => false

/-- The buffer, and what every thread is doing with it. -/
structure Sys (T I : Type*) where
  shared : Shared T I
  calls : T → Call I

/-- What happens next. -/
inductive Act (T I : Type*)
  /-- A thread goes on with its call. -/
  | step (t : T)
  /-- A thread calls `sbuf_insert(item)`. -/
  | insert (t : T) (item : I)
  /-- A thread calls `sbuf_remove()`. -/
  | remove (t : T)
  /-- A thread in `signal_exit_task` creates the next exit task. -/
  | create (t : T) (item : I)
deriving DecidableEq

/-- The thread `t` is doing `c` next. -/
@[simp] def Sys.setCall (s : Sys T I) (t : T) (c : Call I) : Sys T I :=
  { s with calls := Function.update s.calls t c }

/-- One step of a call of `t`. -/
def Sys.callStep (n : Capacity) (num : Nat) (t : T) (s : Sys T I) : Option (Sys T I) :=
  match s.calls t with
  | .insert item pc =>
    match insertStep n t item s.shared pc with
    | (sh, .goes pc') => some (({ s with shared := sh } : Sys T I).setCall t (.insert item pc'))
    | (sh, .returns r) => some (({ s with shared := sh } : Sys T I).setCall t (.inserted r))
  | .create i item pc =>
    match insertStep n t item s.shared pc with
    | (sh, .goes pc') =>
      some (({ s with shared := sh } : Sys T I).setCall t (.create i item pc'))
    | (sh, .returns true) =>
      some (({ s with shared := sh } : Sys T I).setCall t (.signal (i + 1)))
    | (sh, .returns false) => some (({ s with shared := sh } : Sys T I).setCall t .gone)
  | .remove pc =>
    match removeStep n num t s.shared pc with
    | some (sh, .goes pc') => some (({ s with shared := sh } : Sys T I).setCall t (.remove pc'))
    | some (sh, .signals) => some (({ s with shared := sh } : Sys T I).setCall t (.signal 0))
    | some (sh, .returns item) =>
      some (({ s with shared := sh } : Sys T I).setCall t (.removed item))
    | none => none
  | .signal i => if i = num then some (s.setCall t (.remove .testUnlock)) else none
  | _ => none

/-- One step of the threads. -/
def Sys.step (n : Capacity) (num : Nat) (s : Sys T I) : Act T I → Option (Sys T I)
  | .step t => s.callStep n num t
  | .insert t item =>
    if (s.calls t).isFree then some (s.setCall t (.insert item .fullInserted)) else none
  | .remove t => if (s.calls t).isFree then some (s.setCall t (.remove .emptyRemoved)) else none
  | .create t item =>
    match s.calls t with
    | .signal i =>
      if i < num then some (s.setCall t (.create i item .fullInserted)) else none
    | _ => none

end

/-- The buffer behind `sbuf_init`, with no thread in a call. The cells hold `null`. -/
def Sys.initial (T : Type*) {I : Type*} (null : I) : Sys T I where
  shared :=
    { buf := fun _ => null
      front := 0
      rear := 0
      trialFront := none
      trialRear := none
      inserted := 0
      removed := 0
      idlepCount := 0
      doneCreatingThreads := false
      mutexIdleCount := none
      put := []
      taken := []
      accepted := []
      returned := []
      insertions := 0
      removals := 0 }
  calls _ := .idle

end Stacklets.Mythreads

import Mathlib.Logic.Function.Basic

/-!
# `Stacklets.LazyFork.Spinlock`: the checked mutexes of `spinlock.c`

The seed locks are pthread mutexes of type `PTHREAD_MUTEX_ERRORCHECK`. Such a mutex knows its
owner, and the three calls the code makes report misuse by an error number. `mySpinLock` and
`mySpinUnlock` turn every error into a failed `myassert`.

`mySpinUnlock` makes two calls, `trylock` and `unlock`. They are one step here: nobody but
the owner can change the mutex between them when the caller is the owner, and when the caller
is not the owner one of the two assertions fails whatever happens between them.
-/

set_option autoImplicit false

namespace Stacklets.LazyFork

section
variable {τ : Type*} [DecidableEq τ]

/-- A mutex is its owner, if it has one. -/
abbrev Mutex (τ : Type*) := Option τ

/-- The results of the mutex calls. `ok` is the return value `0`. -/
inductive Errno
  | ok
  | ebusy
  | edeadlk
  | eperm
deriving DecidableEq

/-- `pthread_mutex_lock` on an error-checking mutex. `none`: the call waits. -/
def pthreadMutexLock (m : Mutex τ) (me : τ) : Option (Errno × Mutex τ) :=
  match m with
  | none => some (.ok, some me)
  | some owner => if owner = me then some (.edeadlk, m) else none

/-- `pthread_mutex_trylock`. -/
def pthreadMutexTrylock (m : Mutex τ) (me : τ) : Errno × Mutex τ :=
  match m with
  | none => (.ok, some me)
  | some _ => (.ebusy, m)

/-- `pthread_mutex_unlock` on an error-checking mutex. -/
def pthreadMutexUnlock (m : Mutex τ) (me : τ) : Errno × Mutex τ :=
  if m = some me then (.ok, none) else (.eperm, m)

/-- How a call of `mySpinLock` or `mySpinUnlock` ends: the mutex afterwards, or a failed
`myassert`. -/
inductive SpinResult (τ : Type*)
  | done (m : Mutex τ)
  | assertFailed
deriving DecidableEq

/-- `mySpinLock`. `none`: the caller waits. -/
def mySpinLock (m : Mutex τ) (me : τ) : Option (SpinResult τ) :=
  (pthreadMutexLock m me).map fun r => if r.1 = .ok then .done r.2 else .assertFailed

/-- `mySpinUnlock`. -/
def mySpinUnlock (m : Mutex τ) (me : τ) : SpinResult τ :=
  let r := pthreadMutexTrylock m me
  if r.1 ≠ .ebusy then .assertFailed
  else
    let r' := pthreadMutexUnlock r.2 me
    if r'.1 = .ok then .done r'.2 else .assertFailed

/-- A free mutex is taken. -/
@[simp] theorem mySpinLock_none (me : τ) : mySpinLock none me = some (.done (some me)) := rfl

/-- A mutex of the caller itself fails the assertion, any other taken mutex blocks. -/
@[simp] theorem mySpinLock_some (o me : τ) :
    mySpinLock (some o) me = if o = me then some .assertFailed else none := by
  by_cases h : o = me <;> simp [mySpinLock, pthreadMutexLock, h]

/-- The owner, and nobody else, can unlock. -/
@[simp] theorem mySpinUnlock_eq (m : Mutex τ) (me : τ) :
    mySpinUnlock m me = if m = some me then .done none else .assertFailed := by
  cases m with
  | none => rfl
  | some o =>
    by_cases h : o = me <;> simp [mySpinUnlock, pthreadMutexTrylock, pthreadMutexUnlock, h]

end

end Stacklets.LazyFork

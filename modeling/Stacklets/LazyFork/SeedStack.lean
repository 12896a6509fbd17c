import Mathlib.Logic.Function.Basic
import Stacklets.Lib.DList

/-!
# `Stacklets.LazyFork.SeedStack`: the seed queues of `seedStack.c`

A seed records a frame whose second child can still be stolen: the label `adr` to jump to
and the stack pointer `sp` of the frame. `pushSeed` links a seed at the back of a queue,
`releaseSeed` unlinks a seed from any position and frees it, and `peekSeed` reads the front.
The links are kept as the source has them, as `prev` and `next` pointers in the seeds and
`front` and `back` pointers in the queue.

`live` records whether the memory of a seed is allocated. `calloc` in `initSeed` sets it and
`free` in `releaseSeed` clears it. The code does not read it.

`SeedQueue.Represents` ties a queue to the list of its seeds. `pushSeed` appends to that
list and `releaseSeed` erases from it (`represents_pushSeed`, `represents_releaseSeed`), and
neither changes a queue with other members (`represents_pushSeed_of_disjoint`,
`represents_releaseSeed_of_disjoint`).
-/

set_option autoImplicit false

namespace Stacklets.LazyFork

open Lib

section
variable {α L S : Type*} [DecidableEq α]

/-- `Seed` of `seedStack.h`. Addresses of seeds are values of `α`, code labels of `L` and
stack pointers of `S`. The debugging field `id` is left out. -/
structure Seed (α L S : Type*) where
  adr : L
  sp : S
  prev : Option α
  next : Option α
  live : Bool

/-- `SeedQueue` of `seedStack.h`. -/
structure SeedQueue (α : Type*) where
  front : Option α
  back : Option α
deriving DecidableEq

/-- `seedStackInit`: `calloc` leaves both pointers of a queue null. -/
def SeedQueue.empty : SeedQueue α := ⟨none, none⟩

/-- `initSeed`: the seed that `calloc` and the two assignments set up. -/
def initSeed (adr : L) (sp : S) : Seed α L S :=
  { adr := adr, sp := sp, prev := none, next := none, live := true }

/-- The store `x->next = v`. -/
def setNext (heap : α → Seed α L S) (x : α) (v : Option α) : α → Seed α L S :=
  Function.update heap x { heap x with next := v }

/-- The store `x->prev = v`. -/
def setPrev (heap : α → Seed α L S) (x : α) (v : Option α) : α → Seed α L S :=
  Function.update heap x { heap x with prev := v }

/-- `free(x)`. -/
def freeSeed (heap : α → Seed α L S) (x : α) : α → Seed α L S :=
  Function.update heap x { heap x with live := false }

/-- `pushSeed` after the lock is taken: link `seed` at the back of the queue `Q`. -/
def pushSeed (heap : α → Seed α L S) (Q : SeedQueue α) (seed : α) :
    (α → Seed α L S) × SeedQueue α :=
  match Q.back with
  | some back =>
    (setPrev (setNext heap back (some seed)) seed (some back), { Q with back := some seed })
  | none => (heap, { front := some seed, back := some seed })

/-- The first `if` of `releaseSeed`: `prev->next = next`, or `Q->front = next`. -/
def unlinkPrev (heap : α → Seed α L S) (Q : SeedQueue α) (prev next : Option α) :
    (α → Seed α L S) × SeedQueue α :=
  match prev with
  | some p => (setNext heap p next, Q)
  | none => (heap, { Q with front := next })

/-- The second `if` of `releaseSeed`: `next->prev = prev`, or `Q->back = prev`. -/
def unlinkNext (heap : α → Seed α L S) (Q : SeedQueue α) (prev next : Option α) :
    (α → Seed α L S) × SeedQueue α :=
  match next with
  | some n => (setPrev heap n prev, Q)
  | none => (heap, { Q with back := prev })

/-- The two `if`s of `releaseSeed`, on the links that `seed` has on entry. -/
def unlinkSeed (heap : α → Seed α L S) (Q : SeedQueue α) (seed : α) :
    (α → Seed α L S) × SeedQueue α :=
  let r := unlinkPrev heap Q (heap seed).prev (heap seed).next
  unlinkNext r.1 r.2 (heap seed).prev (heap seed).next

/-- `releaseSeed`: unlink `seed` from the queue `Q` and free it. -/
def releaseSeed (heap : α → Seed α L S) (Q : SeedQueue α) (seed : α) :
    (α → Seed α L S) × SeedQueue α :=
  let r := unlinkSeed heap Q seed
  (freeSeed r.1 seed, r.2)

/-- The queue `Q` holds the seeds `l`, oldest first. -/
def SeedQueue.Represents (heap : α → Seed α L S) (Q : SeedQueue α) (l : List α) : Prop :=
  IsDList (fun x => (heap x).prev) (fun x => (heap x).next) Q.front Q.back l

/-- The seed `x` is linked in the queue `Q`. -/
def SeedQueue.Linked (heap : α → Seed α L S) (Q : SeedQueue α) (x : α) : Prop :=
  ∃ l, Q.Represents heap l ∧ x ∈ l

/-! ### The fields of a seed after the stores -/

@[simp] theorem setNext_prev (heap : α → Seed α L S) (x : α) (v : Option α) (y : α) :
    (setNext heap x v y).prev = (heap y).prev := by
  by_cases h : y = x <;> simp [setNext, h]

@[simp] theorem setNext_next (heap : α → Seed α L S) (x : α) (v : Option α) (y : α) :
    (setNext heap x v y).next = if y = x then v else (heap y).next := by
  by_cases h : y = x <;> simp [setNext, h]

@[simp] theorem setPrev_prev (heap : α → Seed α L S) (x : α) (v : Option α) (y : α) :
    (setPrev heap x v y).prev = if y = x then v else (heap y).prev := by
  by_cases h : y = x <;> simp [setPrev, h]

@[simp] theorem setPrev_next (heap : α → Seed α L S) (x : α) (v : Option α) (y : α) :
    (setPrev heap x v y).next = (heap y).next := by
  by_cases h : y = x <;> simp [setPrev, h]

@[simp] theorem freeSeed_prev (heap : α → Seed α L S) (x y : α) :
    (freeSeed heap x y).prev = (heap y).prev := by
  by_cases h : y = x <;> simp [freeSeed, h]

@[simp] theorem freeSeed_next (heap : α → Seed α L S) (x y : α) :
    (freeSeed heap x y).next = (heap y).next := by
  by_cases h : y = x <;> simp [freeSeed, h]

/-- The data of a seed that no link store changes. -/
def Seed.data (s : Seed α L S) : L × S × Bool := (s.adr, s.sp, s.live)

@[simp] theorem setNext_data (heap : α → Seed α L S) (x : α) (v : Option α) (y : α) :
    (setNext heap x v y).data = (heap y).data := by
  by_cases h : y = x <;> simp [setNext, Seed.data, h]

@[simp] theorem setPrev_data (heap : α → Seed α L S) (x : α) (v : Option α) (y : α) :
    (setPrev heap x v y).data = (heap y).data := by
  by_cases h : y = x <;> simp [setPrev, Seed.data, h]

/-- `pushSeed` changes links only. -/
@[simp] theorem pushSeed_data (heap : α → Seed α L S) (Q : SeedQueue α) (seed y : α) :
    ((pushSeed heap Q seed).1 y).data = (heap y).data := by
  unfold pushSeed
  cases Q.back <;> simp

/-- Unlinking changes links only. -/
@[simp] theorem unlinkSeed_data (heap : α → Seed α L S) (Q : SeedQueue α) (seed y : α) :
    ((unlinkSeed heap Q seed).1 y).data = (heap y).data := by
  unfold unlinkSeed unlinkPrev unlinkNext
  cases (heap seed).prev <;> cases (heap seed).next <;> simp

/-- `releaseSeed` changes links, and frees the released seed only. -/
theorem releaseSeed_data (heap : α → Seed α L S) (Q : SeedQueue α) (seed y : α) :
    ((releaseSeed heap Q seed).1 y).data
      = ((heap y).adr, (heap y).sp, if y = seed then false else (heap y).live) := by
  have hy := unlinkSeed_data heap Q seed y
  simp only [Seed.data, Prod.mk.injEq] at hy ⊢
  by_cases h : y = seed
  · subst h
    simp [releaseSeed, freeSeed, hy]
  · simp [releaseSeed, freeSeed, h, hy]

/-- `releaseSeed` frees the seed. -/
theorem releaseSeed_live (heap : α → Seed α L S) (Q : SeedQueue α) (seed : α) :
    ((releaseSeed heap Q seed).1 seed).live = false := by
  have h := releaseSeed_data heap Q seed seed
  simp only [Seed.data, Prod.mk.injEq, if_true] at h
  exact h.2.2

/-! ### Queues as lists -/

omit [DecidableEq α] in
/-- A fresh queue holds no seed. -/
theorem represents_empty (heap : α → Seed α L S) :
    SeedQueue.empty.Represents heap ([] : List α) := isDList_nil

/-- `pushSeed` of a fresh seed appends it to the queue. -/
theorem represents_pushSeed {heap : α → Seed α L S} {Q : SeedQueue α} {l : List α} {seed : α}
    (h : Q.Represents heap l) (hnew : seed ∉ l) (hprev : (heap seed).prev = none)
    (hnext : (heap seed).next = none) :
    (pushSeed heap Q seed).2.Represents (pushSeed heap Q seed).1 (l ++ [seed]) := by
  have hne : ∀ y ∈ l, y ≠ seed := fun y hy hys => hnew (hys ▸ hy)
  unfold SeedQueue.Represents pushSeed
  cases hb : Q.back with
  | none =>
    have hl : l = [] := h.back_eq_none_iff.mp hb
    subst hl
    refine IsDList.append h hnew (hprev.trans hb.symm) hnext (by simp) (by simp) ?_
    simp [hb]
  | some back =>
    refine IsDList.append h hnew (by simp [hb]) ?_ ?_ ?_ (by simp [hb])
    · have hback : seed ≠ back := by
        rintro rfl
        exact hnew (List.mem_of_getLast? (hb ▸ h.back_eq).symm)
      simp [hback, hnext]
    · intro y hy
      simp [hne y hy]
    · intro y hy
      simp only [setPrev_next, setNext_next, hb, Option.some.injEq]
      by_cases hyb : y = back
      · simp [hyb]
      · simp [hyb, Ne.symm hyb]

/-- `releaseSeed` of a linked seed erases it from the queue. -/
theorem represents_releaseSeed {heap : α → Seed α L S} {Q : SeedQueue α} {l : List α}
    {seed : α} (h : Q.Represents heap l) (hmem : seed ∈ l) :
    (releaseSeed heap Q seed).2.Represents (releaseSeed heap Q seed).1 (l.erase seed) := by
  obtain ⟨l₁, l₂, -, rfl, herase⟩ := List.exists_erase_eq hmem
  rw [herase]
  unfold SeedQueue.Represents releaseSeed unlinkSeed unlinkPrev unlinkNext
  refine IsDList.remove h ?_ ?_ ?_ ?_
  · intro y _
    cases (heap seed).prev <;> cases (heap seed).next <;> simp [eq_comm]
  · intro y _
    cases (heap seed).prev <;> cases (heap seed).next <;> simp [eq_comm]
  · cases (heap seed).prev <;> cases (heap seed).next <;> simp
  · cases (heap seed).prev <;> cases (heap seed).next <;> simp

/-- `pushSeed` writes to the pushed seed and to the members of the queue only. -/
theorem pushSeed_of_notMem {heap : α → Seed α L S} {Q : SeedQueue α} {l : List α} {seed y : α}
    (h : Q.Represents heap l) (hy : y ∉ l) (hne : y ≠ seed) :
    (pushSeed heap Q seed).1 y = heap y := by
  unfold pushSeed
  cases hb : Q.back with
  | none => rfl
  | some back =>
    have hback : y ≠ back := by
      rintro rfl
      exact hy (List.mem_of_getLast? (hb ▸ h.back_eq).symm)
    simp [setPrev, setNext, hne, hback]

/-- `releaseSeed` of a linked seed writes to the members of the queue only. -/
theorem releaseSeed_of_notMem {heap : α → Seed α L S} {Q : SeedQueue α} {l : List α}
    {seed y : α} (h : Q.Represents heap l) (hmem : seed ∈ l) (hy : y ∉ l) :
    (releaseSeed heap Q seed).1 y = heap y := by
  obtain ⟨l₁, l₂, rfl⟩ := List.append_of_mem hmem
  obtain ⟨hprev, hnext⟩ := h.links l₁ seed l₂ rfl
  have hne : y ≠ seed := by
    rintro rfl
    exact hy hmem
  -- The two neighbours that the release writes to are members.
  have hp : ∀ p, (heap seed).prev = some p → y ≠ p := by
    rintro p hp rfl
    exact hy (List.mem_append_left _ (List.mem_of_getLast? (hprev ▸ hp)))
  have hn : ∀ p, (heap seed).next = some p → y ≠ p := by
    rintro p hp rfl
    exact hy (List.mem_append_right _ (List.mem_cons_of_mem _ (List.mem_of_head? (hnext ▸ hp))))
  unfold releaseSeed unlinkSeed unlinkPrev unlinkNext freeSeed setPrev setNext
  cases hs : (heap seed).prev <;> cases hs' : (heap seed).next <;>
    simp_all

/-- `pushSeed` leaves a queue with other members alone. -/
theorem represents_pushSeed_of_disjoint {heap : α → Seed α L S} {Q Q' : SeedQueue α}
    {l l' : List α} {seed : α} (h : Q.Represents heap l) (h' : Q'.Represents heap l')
    (hdis : ∀ y ∈ l', y ∉ l) (hnew : seed ∉ l') :
    Q'.Represents (pushSeed heap Q seed).1 l' := by
  have hsame : ∀ y ∈ l', (pushSeed heap Q seed).1 y = heap y := fun y hy =>
    pushSeed_of_notMem h (hdis y hy) fun hys => hnew (hys ▸ hy)
  exact IsDList.congr h' (fun y hy => by simp only [hsame y hy])
    (fun y hy => by simp only [hsame y hy])

/-- `releaseSeed` leaves a queue with other members alone. -/
theorem represents_releaseSeed_of_disjoint {heap : α → Seed α L S} {Q Q' : SeedQueue α}
    {l l' : List α} {seed : α} (h : Q.Represents heap l) (h' : Q'.Represents heap l')
    (hdis : ∀ y ∈ l', y ∉ l) (hmem : seed ∈ l) :
    Q'.Represents (releaseSeed heap Q seed).1 l' := by
  have hsame : ∀ y ∈ l', (releaseSeed heap Q seed).1 y = heap y := fun y hy =>
    releaseSeed_of_notMem h hmem (hdis y hy)
  exact IsDList.congr h' (fun y hy => by simp only [hsame y hy])
    (fun y hy => by simp only [hsame y hy])

omit [DecidableEq α] in
/-- A queue without seeds is as `seedStackInit` leaves it. -/
theorem SeedQueue.Represents.eq_empty {heap : α → Seed α L S} {Q : SeedQueue α}
    (h : Q.Represents heap []) : Q = SeedQueue.empty := by
  obtain ⟨front, back⟩ := Q
  rw [SeedQueue.empty, SeedQueue.mk.injEq]
  exact ⟨h.front_eq, h.back_eq⟩

omit [DecidableEq α] in
/-- The front of a queue is its oldest seed. -/
theorem SeedQueue.Represents.front_eq {heap : α → Seed α L S} {Q : SeedQueue α} {l : List α}
    (h : Q.Represents heap l) : Q.front = l.head? := IsDList.front_eq h

omit [DecidableEq α] in
/-- A queue represents one list only, so a seed is linked exactly when it is in that list. -/
theorem SeedQueue.Represents.linked_iff {heap : α → Seed α L S} {Q : SeedQueue α} {l : List α}
    (h : Q.Represents heap l) (x : α) : Q.Linked heap x ↔ x ∈ l := by
  constructor
  · rintro ⟨l', h', hx⟩
    rwa [IsDList.unique h h']
  · exact fun hx => ⟨l, h, hx⟩

end

end Stacklets.LazyFork

import Mathlib.Logic.Function.Basic
import Stacklets.Lib.DList
import Stacklets.Lib.SList

/-!
# `Stacklets.LazyYield.Queues`: the seed stack and the ready queue of `compiler/v2`

`seedStack.c` keeps the seeds in a doubly linked list behind a dummy head. `pushSeed` links a seed
right behind the head, and `popSeed` unlinks any seed. `readyQ.c` keeps the threads that can go on
in a singly linked queue. `enqReadyQ` links a thread behind the last one and `deqReadyQ` takes the
first one off.

A seed is named by `N`, and its predecessor `none` is the dummy head. A ready thread is named by
the number that `readyQId` gives it. `SeedStackIs` and `ReadyQ.Represents` say what the pointers
spell. The list of a seed stack has the oldest seed first, so `Lib.IsDList` reads it with
the two directions exchanged.
-/

set_option autoImplicit false

namespace Stacklets.LazyYield

open Lib

/-! ### `seedStack.c` -/

/-- `struct Seed`. -/
structure Seed (N L P : Type*) where
  adr : L
  sp : P
  prev : Option N
  next : Option N

section
variable {N L P : Type*} [DecidableEq N]

/-- `initSeed`. -/
def initSeed (adr : L) (sp : P) : Seed N L P := ⟨adr, sp, none, none⟩

/-- The store `x->prev = v`. -/
def setPrev (seeds : N → Seed N L P) (x : N) (v : Option N) : N → Seed N L P :=
  Function.update seeds x { seeds x with prev := v }

/-- The store `x->next = v`. -/
def setNext (seeds : N → Seed N L P) (x : N) (v : Option N) : N → Seed N L P :=
  Function.update seeds x { seeds x with next := v }

/-- `pushSeed`. `head` is `seedDummyHead->next`. -/
def pushSeed (seeds : N → Seed N L P) (head : Option N) (seed : N) :
    (N → Seed N L P) × Option N :=
  let linked := setNext (setPrev seeds seed none) seed head
  match head with
  | some origHead => (setPrev linked origHead (some seed), some seed)
  | none => (linked, some seed)

/-- `popSeed`. -/
def popSeed (seeds : N → Seed N L P) (head : Option N) (seed : N) :
    (N → Seed N L P) × Option N :=
  let r := match (seeds seed).prev with
    | some p => (setNext seeds p (seeds seed).next, head)
    | none => (seeds, (seeds seed).next)
  match (r.1 seed).next with
  | some x => (setPrev r.1 x (r.1 seed).prev, r.2)
  | none => r

/-- The seed stack with the first seed `head` holds the seeds `l`, oldest first. -/
def SeedStackIs (seeds : N → Seed N L P) (head : Option N) (l : List N) : Prop :=
  IsDList (fun x => (seeds x).next) (fun x => (seeds x).prev) l.head? head l

variable {seeds : N → Seed N L P} {head : Option N} {l : List N} {seed : N}

omit [DecidableEq N] in
/-- The empty seed stack. -/
theorem seedStackIs_nil : SeedStackIs seeds none [] := isDList_nil

/-- What the code saved in a seed does not change when seeds are linked and unlinked. -/
def Seed.data (x : Seed N L P) : L × P := (x.adr, x.sp)

/-- Relinking a seed keeps the continuation data of all seeds. -/
@[simp] theorem data_setPrev (x y : N) (v : Option N) :
    (setPrev seeds x v y).data = (seeds y).data := by
  unfold setPrev
  by_cases hy : y = x
  · subst hy
    rw [Function.update_self]
    rfl
  · rw [Function.update_of_ne hy]

/-- Relinking a seed keeps the continuation data of all seeds. -/
@[simp] theorem data_setNext (x y : N) (v : Option N) :
    (setNext seeds x v y).data = (seeds y).data := by
  unfold setNext
  by_cases hy : y = x
  · subst hy
    rw [Function.update_self]
    rfl
  · rw [Function.update_of_ne hy]

/-- `pushSeed` writes links only. -/
theorem data_pushSeed (y : N) : ((pushSeed seeds head seed).1 y).data = (seeds y).data := by
  unfold pushSeed
  cases head <;> simp

/-- `popSeed` writes links only. -/
theorem data_popSeed (y : N) : ((popSeed seeds head seed).1 y).data = (seeds y).data := by
  unfold popSeed
  cases (seeds seed).prev with
  | none =>
    simp only
    cases (seeds seed).next <;> simp
  | some p =>
    simp only
    cases (setNext seeds p (seeds seed).next seed).next <;> simp

/-- A seed that is not linked goes to the top of the seed stack. -/
theorem SeedStackIs.push (h : SeedStackIs seeds head l) (hseed : seed ∉ l) :
    SeedStackIs (pushSeed seeds head seed).1 (pushSeed seeds head seed).2 (l ++ [seed]) := by
  have hne : ∀ y ∈ l, y ≠ seed := by
    rintro y hy rfl
    exact hseed hy
  have hhead : (pushSeed seeds head seed).2 = some seed := by
    unfold pushSeed
    cases head <;> rfl
  have hmem : ∀ x, head = some x → x ≠ seed := by
    rintro x rfl
    have hx : x ∈ l := List.mem_of_getLast? h.back_eq.symm
    exact hne x hx
  unfold SeedStackIs
  rw [hhead]
  -- the links of the new seed, those of the others, and the head
  refine IsDList.append h hseed ?_ ?_ (fun y hy => ?_) (fun y hy => ?_) ?_
  · unfold pushSeed setNext setPrev
    cases head with
    | none => simp
    | some x => simp [Ne.symm (hmem x rfl)]
  · unfold pushSeed setNext setPrev
    cases head with
    | none => simp
    | some x => simp [Ne.symm (hmem x rfl)]
  · unfold pushSeed setNext setPrev
    cases head with
    | none => simp [hne y hy]
    | some x =>
      by_cases hyx : y = x
      · subst hyx
        simp [hne y hy]
      · simp [hne y hy, hyx]
  · unfold pushSeed setNext setPrev
    cases head with
    | none => simp [hne y hy]
    | some x =>
      by_cases hyx : y = x
      · subst hyx
        simp
      · have hxy : x ≠ y := Ne.symm hyx
        simp [hne y hy, hyx, hxy]
  · rw [h.back_eq]
    cases l with
    | nil => rfl
    | cons y l => simp

/-- The links of the other seeds after `popSeed`. -/
theorem popSeed_of_ne {y : N} (hself : (seeds seed).prev ≠ some seed) :
    ((popSeed seeds head seed).1 y).next =
        (if (seeds seed).prev = some y then (seeds seed).next else (seeds y).next) ∧
      ((popSeed seeds head seed).1 y).prev =
        (if (seeds seed).next = some y then (seeds seed).prev else (seeds y).prev) := by
  unfold popSeed setNext setPrev
  cases hp : (seeds seed).prev with
  | none =>
    cases hx : (seeds seed).next with
    | none => simp [hx]
    | some x =>
      by_cases hyx : y = x
      · subst hyx
        simp [hx, hp]
      · have hxy : x ≠ y := Ne.symm hyx
        simp [hx, hyx, hxy]
  | some p =>
    have hps : seed ≠ p := by
      rintro rfl
      exact hself hp
    cases hx : (seeds seed).next with
    | none =>
      by_cases hyp : y = p
      · subst hyp
        simp [hps, hx]
      · have hpy : p ≠ y := Ne.symm hyp
        simp [hps, hx, hyp, hpy]
    | some x =>
      by_cases hyx : y = x
      · subst hyx
        by_cases hyp : y = p
        · subst hyp
          simp [hps, hx, hp]
        · have hpy : p ≠ y := Ne.symm hyp
          simp [hps, hx, hp, hyp, hpy]
      · have hxy : x ≠ y := Ne.symm hyx
        by_cases hyp : y = p
        · subst hyp
          simp [hps, hx, hyx, hxy]
        · have hpy : p ≠ y := Ne.symm hyp
          simp [hps, hx, hyx, hxy, hyp, hpy]

/-- `popSeed` changes the head only when it takes the first seed. -/
theorem popSeed_head (hself : (seeds seed).prev ≠ some seed) :
    (popSeed seeds head seed).2 =
      if (seeds seed).prev = none then (seeds seed).next else head := by
  unfold popSeed setNext
  cases hp : (seeds seed).prev with
  | none =>
    simp only
    cases (seeds seed).next <;> simp
  | some p =>
    have hps : seed ≠ p := by
      rintro rfl
      exact hself hp
    cases hx : (seeds seed).next <;> simp [hps, hx]

/-- `popSeed` takes a seed out of the stack, wherever it is. -/
theorem SeedStackIs.pop {l₁ l₂ : List N} (h : SeedStackIs seeds head (l₁ ++ seed :: l₂)) :
    SeedStackIs (popSeed seeds head seed).1 (popSeed seeds head seed).2 (l₁ ++ l₂) := by
  obtain ⟨hnext, hprev⟩ := h.links l₁ seed l₂ rfl
  have hnodup := h.nodup
  rw [List.nodup_append] at hnodup
  have hself : (seeds seed).prev ≠ some seed := by
    intro he
    have hmem : seed ∈ l₂ := List.mem_of_head? (hprev.symm.trans he)
    exact (List.nodup_cons.mp hnodup.2.1).1 hmem
  refine IsDList.remove h (fun y _ => (popSeed_of_ne hself).1)
    (fun y _ => (popSeed_of_ne hself).2) ?_ (popSeed_head hself)
  · -- The oldest seed of what is left.
    have hnext : (seeds seed).next = l₁.getLast? := hnext
    have hprev : (seeds seed).prev = l₂.head? := hprev
    rw [hnext, hprev]
    cases l₁ with
    | nil => rfl
    | cons y l => simp

end

/-! ### `readyQ.c` -/

/-- `struct ReadyThread`. -/
structure ReadyThread (L P : Type*) where
  adr : L
  sp : P
  next : Option Nat

/-- `readyDummyHead`, the ready threads and `readyQId`. -/
structure ReadyQ (L P : Type*) where
  threads : Nat → ReadyThread L P
  front : Option Nat
  back : Option Nat
  readyQId : Nat

section
variable {L P : Type*}

/-- `enqReadyQ`. -/
def ReadyQ.enq (q : ReadyQ L P) (resumeAdr : L) (stackPointer : P) : ReadyQ L P :=
  let ready := q.readyQId
  let threads := Function.update q.threads ready ⟨resumeAdr, stackPointer, none⟩
  match q.back with
  | some back =>
    { q with
      threads := Function.update threads back { threads back with next := some ready }
      back := some ready
      readyQId := q.readyQId + 1 }
  | none => { threads, front := some ready, back := some ready, readyQId := q.readyQId + 1 }

/-- `deqReadyQ` when `origFront` is at the front. -/
def ReadyQ.deq (q : ReadyQ L P) (origFront : Nat) : ReadyQ L P :=
  { q with
    front := (q.threads origFront).next
    back := if (q.threads origFront).next = none then none else q.back }

/-- The queue holds the threads with the saved contexts `l`, in order. -/
def ReadyQ.Represents (q : ReadyQ L P) (l : List (L × P)) : Prop :=
  ∃ ids : List Nat, IsSList (fun i => (q.threads i).next) q.front q.back ids ∧
    (∀ i ∈ ids, i < q.readyQId) ∧ l = ids.map fun i => ((q.threads i).adr, (q.threads i).sp)

variable {q : ReadyQ L P} {l : List (L × P)} {adr : L} {sp : P}

/-- `enqReadyQ` appends. -/
theorem ReadyQ.Represents.enq (h : q.Represents l) :
    (q.enq adr sp).Represents (l ++ [(adr, sp)]) := by
  obtain ⟨ids, hids, hlt, rfl⟩ := h
  -- the ids count up, so the new one is not in use
  have hfresh : q.readyQId ∉ ids := fun hmem => Nat.lt_irrefl _ (hlt _ hmem)
  have hne : ∀ i ∈ ids, i ≠ q.readyQId := fun i hi => Nat.ne_of_lt (hlt i hi)
  have hback : ∀ i, q.back = some i → i ∈ ids := fun i hi =>
    List.mem_of_getLast? (hids.back_eq.symm.trans hi)
  have hself : (q.enq adr sp).threads q.readyQId = ⟨adr, sp, none⟩ := by
    unfold ReadyQ.enq
    cases hb : q.back with
    | none => simp
    | some b => simp [Ne.symm (hne b (hback b hb))]
  have hother : ∀ i ∈ ids, (q.enq adr sp).threads i =
      { q.threads i with
        next := if q.back = some i then some q.readyQId else (q.threads i).next } := by
    intro i hi
    unfold ReadyQ.enq
    cases hb : q.back with
    | none => simp [hne i hi]
    | some b =>
      by_cases hib : i = b
      · subst hib
        simp [hne i hi]
      · have hbi : b ≠ i := Ne.symm hib
        simp [hne i hi, hib, hbi]
  have hends : (q.enq adr sp).front = (if q.back = none then some q.readyQId else q.front) ∧
      (q.enq adr sp).back = some q.readyQId ∧ (q.enq adr sp).readyQId = q.readyQId + 1 := by
    unfold ReadyQ.enq
    cases q.back <;> simp
  refine ⟨ids ++ [q.readyQId], ?_, ?_, ?_⟩
  · rw [hends.2.1]
    refine IsSList.append hids hfresh ?_ (fun i hi => ?_) hends.1
    · rw [hself]
    · rw [hother i hi]
  · intro i hi
    rw [hends.2.2]
    rcases List.mem_append.mp hi with hi | hi
    · have := hlt i hi
      omega
    · rw [List.mem_singleton.mp hi]
      omega
  · rw [List.map_append, List.map_singleton, hself]
    refine congrArg (· ++ [(adr, sp)]) (List.map_congr_left fun i hi => ?_)
    rw [hother i hi]

/-- The thread at the front of a queue that is not empty. -/
theorem ReadyQ.Represents.front {c : L × P} (h : q.Represents (c :: l)) :
    ∃ i, q.front = some i ∧ ((q.threads i).adr, (q.threads i).sp) = c ∧
      (q.deq i).Represents l := by
  obtain ⟨ids, hids, hlt, hl⟩ := h
  cases ids with
  | nil => cases hl
  | cons i ids =>
    obtain ⟨hc, hl⟩ := List.cons.inj hl
    refine ⟨i, hids.front_eq, hc.symm, ids, hids.tail, fun j hj => ?_, hl⟩
    exact hlt j (List.mem_cons_of_mem _ hj)

/-- An empty ready queue has no front, so `suspend` finds nothing. -/
theorem ReadyQ.Represents.front_eq_none (h : q.Represents []) : q.front = none := by
  obtain ⟨ids, hids, _, hl⟩ := h
  obtain rfl : ids = [] := List.map_eq_nil_iff.mp hl.symm
  exact hids.front_eq

end

end Stacklets.LazyYield

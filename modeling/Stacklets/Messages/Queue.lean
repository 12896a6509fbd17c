import Mathlib.Logic.Function.Basic
import Stacklets.Lib.DList

/-!
# `Stacklets.Messages.Queue`: the message queues of `queue.c`

A message queue is a doubly linked list of nodes with pointers to both ends. `enqueue` links a
node that `malloc` gave behind the last one, and `dequeue` unlinks the first one with
`queue_delete` and frees it. What stands here is what the two functions do between taking and
giving back the lock of the queue.

`Represents` ties a queue to the list of its nodes. `represents_enqueue` and
`represents_dequeue` say that the two functions append to that list and take its head, and the
lemmas `..._of_disjoint` that the other queues stay as they are. `queueDelete_of_mem` is about
`queue_delete` on a node in any position.
-/

set_option autoImplicit false

namespace Stacklets.Messages

open Lib

section
variable {N M : Type*} [DecidableEq N]

/-- `struct node_t`. `live` says that the memory is allocated. The code does not read it. -/
structure Node (N M : Type*) where
  msg : M
  prev : Option N
  next : Option N
  live : Bool

/-- `struct queue_t` without its lock. -/
structure Queue (N : Type*) where
  head : Option N
  tail : Option N
deriving DecidableEq

/-- `init_queue`. -/
def Queue.empty : Queue N := ⟨none, none⟩

/-- The store `x->next = v`. -/
def setNext (heap : N → Node N M) (x : N) (v : Option N) : N → Node N M :=
  Function.update heap x { heap x with next := v }

/-- The store `x->prev = v`. -/
def setPrev (heap : N → Node N M) (x : N) (v : Option N) : N → Node N M :=
  Function.update heap x { heap x with prev := v }

/-- `enqueue`, with the node `n`. -/
def enqueue (heap : N → Node N M) (q : Queue N) (n : N) (msg : M) : (N → Node N M) × Queue N :=
  match q.tail with
  | none =>
    (Function.update heap n { heap n with msg, prev := none, next := none }, ⟨some n, some n⟩)
  | some t =>
    (Function.update (setNext heap t (some n)) n
      { heap n with msg, prev := some t, next := none },
      { q with tail := some n })

/-- The first `if` of `queue_delete`: `n->prev->next = n->next`, or `q->head = n->next`. -/
def unlinkPrev (heap : N → Node N M) (q : Queue N) (n : N) : Option ((N → Node N M) × Queue N) :=
  match (heap n).prev with
  | some p => some (setNext heap p (heap n).next, q)
  | none => if q.head = some n then some (heap, { q with head := (heap n).next }) else none

/-- The second `if` of `queue_delete`: `n->next->prev = n->prev`, or `q->tail = n->prev`. -/
def unlinkNext (heap : N → Node N M) (q : Queue N) (n : N) : Option ((N → Node N M) × Queue N) :=
  match (heap n).next with
  | some x => some (setPrev heap x (heap n).prev, q)
  | none => if q.tail = some n then some (heap, { q with tail := (heap n).prev }) else none

/-- `queue_delete`: the pointer it returns, and the memory and the queue after it. The result is
`none` where `myassert` stops the program, which is for the `NULL` node. -/
def queueDelete (heap : N → Node N M) (q : Queue N) :
    Option N → Option (Option N × (N → Node N M) × Queue N)
  | none => none
  | some n =>
    match unlinkPrev heap q n with
    | none => some (none, heap, q)
    | some (heap₁, q₁) =>
      match unlinkNext heap₁ q₁ n with
      | none => some (none, heap₁, q₁)
      | some (heap₂, q₂) => some (some n, heap₂, q₂)

/-- `dequeue`: the message, and the memory and the queue after `free`. -/
def dequeue (heap : N → Node N M) (q : Queue N) : Option (Option M × (N → Node N M) × Queue N) :=
  match queueDelete heap q q.head with
  | none => none
  | some (none, heap', q') => some (none, heap', q')
  | some (some n, heap', q') =>
    some (some (heap' n).msg, Function.update heap' n { heap' n with live := false }, q')

/-- The queue `q` holds the nodes `l`, oldest first. -/
def Queue.Represents (heap : N → Node N M) (q : Queue N) (l : List N) : Prop :=
  IsDList (fun x => (heap x).prev) (fun x => (heap x).next) q.head q.tail l

variable {heap : N → Node N M} {q : Queue N} {l : List N} {n : N} {msg : M}

/-! ### `enqueue` -/

/-- The fields of a node after `enqueue`. -/
theorem enqueue_self :
    ((enqueue heap q n msg).1 n).msg = msg ∧ ((enqueue heap q n msg).1 n).prev = q.tail ∧
      ((enqueue heap q n msg).1 n).next = none ∧
      ((enqueue heap q n msg).1 n).live = (heap n).live := by
  unfold enqueue
  cases q.tail <;> simp

/-- `enqueue` writes to another node only the link of the tail. -/
theorem enqueue_of_ne {y : N} (hy : y ≠ n) :
    ((enqueue heap q n msg).1 y).msg = (heap y).msg ∧
      ((enqueue heap q n msg).1 y).prev = (heap y).prev ∧
      ((enqueue heap q n msg).1 y).next = (if q.tail = some y then some n else (heap y).next) ∧
      ((enqueue heap q n msg).1 y).live = (heap y).live := by
  unfold enqueue setNext
  cases q.tail with
  | none => simp [hy]
  | some t =>
    by_cases hyt : y = t
    · subst hyt
      simp [hy]
    · have hty : t ≠ y := Ne.symm hyt
      simp [hy, hyt, hty]

/-- `enqueue` appends its node. -/
theorem represents_enqueue (h : q.Represents heap l) (hn : n ∉ l) :
    (enqueue heap q n msg).2.Represents (enqueue heap q n msg).1 (l ++ [n]) := by
  have hne : ∀ y ∈ l, y ≠ n := by
    rintro y hy rfl
    exact hn hy
  have htail : (enqueue heap q n msg).2.tail = some n := by
    unfold enqueue
    cases q.tail <;> rfl
  have hhead : (enqueue heap q n msg).2.head = if q.tail = none then some n else q.head := by
    unfold enqueue
    cases q.tail <;> rfl
  unfold Queue.Represents
  rw [htail]
  exact IsDList.append h hn enqueue_self.2.1 enqueue_self.2.2.1
    (fun y hy => (enqueue_of_ne (hne y hy)).2.1) (fun y hy => (enqueue_of_ne (hne y hy)).2.2.1)
    hhead

/-- Another queue does not contain the new node or the tail of this one. -/
theorem represents_enqueue_of_disjoint {q' : Queue N} {l' : List N} (h : q.Represents heap l)
    (h' : q'.Represents heap l') (hn : n ∉ l') (hdisj : ∀ y ∈ l, y ∉ l') :
    q'.Represents (enqueue heap q n msg).1 l' := by
  have hne : ∀ y ∈ l', y ≠ n := by
    rintro y hy rfl
    exact hn hy
  refine IsDList.congr h' (fun y hy => (enqueue_of_ne (hne y hy)).2.1) fun y hy => ?_
  rw [(enqueue_of_ne (hne y hy)).2.2.1, if_neg]
  intro htail
  have hmem : y ∈ l := List.mem_of_getLast? (h.back_eq.symm.trans htail)
  exact hdisj y hmem hy

/-! ### `dequeue` -/

/-- The memory after the first node `n` has been unlinked. -/
def unlinked (heap : N → Node N M) (n : N) : N → Node N M :=
  match (heap n).next with
  | some x => setPrev heap x none
  | none => heap

/-- `queue_delete` on the first node of a queue. -/
theorem queueDelete_eq (h : q.Represents heap (n :: l)) :
    queueDelete heap q q.head = some (some n, unlinked heap n,
      ⟨(heap n).next, if (heap n).next = none then none else q.tail⟩) := by
  obtain ⟨hprev, hnext⟩ := h.links [] n l rfl
  have hprev : (heap n).prev = none := hprev
  have hhead : q.head = some n := h.front_eq
  unfold queueDelete unlinkPrev unlinked
  rw [hhead]
  simp only [hprev]
  unfold unlinkNext
  cases hx : (heap n).next with
  | some x => simp [hprev, hx]
  | none =>
    have hnil : l = [] := List.head?_eq_none_iff.mp (hnext.symm.trans hx)
    have htail : q.tail = some n := by
      rw [h.back_eq, hnil]
      rfl
    simp [htail, hprev, hx]

/-- Unlinking a node keeps all messages. -/
theorem unlinked_msg (y : N) : (unlinked heap n y).msg = (heap y).msg := by
  unfold unlinked setPrev
  cases (heap n).next with
  | none => rfl
  | some x =>
    by_cases hyx : y = x
    · subst hyx
      simp
    · simp [hyx]

/-- The memory after `dequeue` of a queue with first node `n`. -/
def dequeued (heap : N → Node N M) (n : N) : N → Node N M :=
  Function.update (unlinked heap n) n { unlinked heap n n with live := false }

/-- `dequeue` on a queue that is not empty takes its first node. -/
theorem dequeue_eq (h : q.Represents heap (n :: l)) :
    dequeue heap q = some (some (heap n).msg, dequeued heap n,
      ⟨(heap n).next, if (heap n).next = none then none else q.tail⟩) := by
  unfold dequeue
  rw [queueDelete_eq h]
  simp only [unlinked_msg, dequeued]

/-- The fields of the other nodes after `dequeue`. -/
theorem dequeued_of_ne {y : N} (hy : y ≠ n) :
    (dequeued heap n y).msg = (heap y).msg ∧
      (dequeued heap n y).prev = (if (heap n).next = some y then none else (heap y).prev) ∧
      (dequeued heap n y).next = (heap y).next ∧ (dequeued heap n y).live = (heap y).live := by
  unfold dequeued unlinked setPrev
  rw [Function.update_of_ne hy]
  cases (heap n).next with
  | none => simp
  | some x =>
    by_cases hyx : y = x
    · subst hyx
      simp
    · have hxy : x ≠ y := Ne.symm hyx
      simp [hyx, hxy]

/-- What `dequeue` leaves is the rest of the list. -/
theorem represents_dequeue (h : q.Represents heap (n :: l)) :
    (Queue.mk (heap n).next (if (heap n).next = none then none else q.tail)).Represents
      (dequeued heap n) l := by
  have hprev : (heap n).prev = none := (h.links [] n l rfl).1
  have hne : ∀ y ∈ l, y ≠ n := by
    rintro y hy rfl
    exact (List.nodup_cons.mp h.nodup).1 hy
  have h' : IsDList _ _ _ _ ([] ++ n :: l) := h
  refine IsDList.remove h' (fun y hy => ?_) (fun y hy => ?_) ?_ ?_
  · rw [(dequeued_of_ne (hne y hy)).2.1, hprev]
  · rw [(dequeued_of_ne (hne y hy)).2.2.1, hprev, if_neg (by simp)]
  · rw [hprev, if_pos rfl]
  · rw [hprev]

/-- Another queue does not contain the second node of this one. -/
theorem represents_dequeue_of_disjoint {q' : Queue N} {l' : List N}
    (h : q.Represents heap (n :: l)) (h' : q'.Represents heap l')
    (hdisj : ∀ y ∈ n :: l, y ∉ l') : q'.Represents (dequeued heap n) l' := by
  have hne : ∀ y ∈ l', y ≠ n := by
    rintro y hy rfl
    exact hdisj y List.mem_cons_self hy
  refine IsDList.congr h' (fun y hy => ?_) fun y hy => (dequeued_of_ne (hne y hy)).2.2.1
  rw [(dequeued_of_ne (hne y hy)).2.1, if_neg]
  intro hnext
  have hmem : y ∈ l := List.mem_of_head? ((h.links [] n l rfl).2.symm.trans hnext)
  exact hdisj y (List.mem_cons_of_mem _ hmem) hy

/-! ### `queue_delete` of any member -/

/-- `setNext` writes one field of one node. -/
theorem setNext_fields (heap : N → Node N M) (x y : N) (v : Option N) :
    (setNext heap x v y).msg = (heap y).msg ∧ (setNext heap x v y).prev = (heap y).prev ∧
      (setNext heap x v y).next = (if y = x then v else (heap y).next) ∧
      (setNext heap x v y).live = (heap y).live := by
  unfold setNext
  by_cases hy : y = x
  · subst hy
    simp
  · simp [hy]

/-- `setPrev` writes one field of one node. -/
theorem setPrev_fields (heap : N → Node N M) (x y : N) (v : Option N) :
    (setPrev heap x v y).msg = (heap y).msg ∧
      (setPrev heap x v y).prev = (if y = x then v else (heap y).prev) ∧
      (setPrev heap x v y).next = (heap y).next ∧
      (setPrev heap x v y).live = (heap y).live := by
  unfold setPrev
  by_cases hy : y = x
  · subst hy
    simp
  · simp [hy]

/-- For a member, the first `if` of `queue_delete` does not return `NULL`. The links of the node
itself stay. -/
theorem unlinkPrev_of_mem (h : q.Represents heap l) (hn : n ∈ l) :
    ∃ heap₁ q₁, unlinkPrev heap q n = some (heap₁, q₁) ∧
      q₁ = ⟨if (heap n).prev = none then (heap n).next else q.head, q.tail⟩ ∧ heap₁ n = heap n ∧
      ∀ y, (heap₁ y).msg = (heap y).msg ∧ (heap₁ y).prev = (heap y).prev ∧
        (heap₁ y).next = (if (heap n).prev = some y then (heap n).next else (heap y).next) ∧
        (heap₁ y).live = (heap y).live := by
  obtain ⟨l₁, l₂, rfl⟩ := List.append_of_mem hn
  obtain ⟨hprev, -⟩ := h.links l₁ n l₂ rfl
  have hprev : (heap n).prev = l₁.getLast? := hprev
  unfold unlinkPrev
  cases hp : (heap n).prev with
  | none =>
    have hnil : l₁ = [] := List.getLast?_eq_none_iff.mp (hprev.symm.trans hp)
    have hhead : q.head = some n := by
      rw [h.front_eq, hnil]
      rfl
    exact ⟨heap, { q with head := (heap n).next }, by simp [hhead], by simp, rfl, by simp⟩
  | some p =>
    have hne : n ≠ p := by
      rintro rfl
      have hlast : n ∈ l₁ := List.mem_of_getLast? (hprev.symm.trans hp)
      exact (List.nodup_append.mp h.nodup).2.2 n hlast n List.mem_cons_self rfl
    refine ⟨setNext heap p (heap n).next, q, rfl, by simp, Function.update_of_ne hne _ _, ?_⟩
    intro y
    simpa [eq_comm] using setNext_fields heap p y (heap n).next

/-- The same for the second `if`, which works on the memory `heap₁` behind the first one. -/
theorem unlinkNext_of_mem {heap₁ : N → Node N M} {q₁ : Queue N} (h : q.Represents heap l)
    (hn : n ∈ l) (heq : heap₁ n = heap n) (htail : q₁.tail = q.tail) :
    ∃ heap₂ q₂, unlinkNext heap₁ q₁ n = some (heap₂, q₂) ∧
      q₂ = ⟨q₁.head, if (heap n).next = none then (heap n).prev else q.tail⟩ ∧
      ∀ y, (heap₂ y).msg = (heap₁ y).msg ∧
        (heap₂ y).prev = (if (heap n).next = some y then (heap n).prev else (heap₁ y).prev) ∧
        (heap₂ y).next = (heap₁ y).next ∧ (heap₂ y).live = (heap₁ y).live := by
  obtain ⟨l₁, l₂, rfl⟩ := List.append_of_mem hn
  obtain ⟨-, hnext⟩ := h.links l₁ n l₂ rfl
  have hnext : (heap n).next = l₂.head? := hnext
  unfold unlinkNext
  rw [heq]
  cases hx : (heap n).next with
  | none =>
    have hnil : l₂ = [] := List.head?_eq_none_iff.mp (hnext.symm.trans hx)
    have hlast : q.tail = some n := by
      rw [h.back_eq, hnil]
      simp
    exact ⟨heap₁, { q₁ with tail := (heap n).prev }, by simp [htail, hlast], by simp, by simp⟩
  | some x =>
    refine ⟨setPrev heap₁ x (heap n).prev, q₁, rfl, by simp [← htail], ?_⟩
    intro y
    simpa [eq_comm] using setPrev_fields heap₁ x y (heap n).prev

/-- `queue_delete` of a member returns the node and takes it out of the list. -/
theorem queueDelete_of_mem (h : q.Represents heap l) (hn : n ∈ l) :
    ∃ heap' q', queueDelete heap q (some n) = some (some n, heap', q') ∧
      q'.Represents heap' (l.erase n) ∧
      ∀ y, (heap' y).msg = (heap y).msg ∧ (heap' y).live = (heap y).live := by
  obtain ⟨heap₁, q₁, hfirst, hq₁, hself, hfields₁⟩ := unlinkPrev_of_mem h hn
  have htail : q₁.tail = q.tail := by rw [hq₁]
  obtain ⟨heap₂, q₂, hsecond, hq₂, hfields₂⟩ := unlinkNext_of_mem h hn hself htail
  refine ⟨heap₂, q₂, by simp only [queueDelete, hfirst, hsecond], ?_, fun y => ?_⟩
  · obtain ⟨l₁, l₂, -, rfl, herase⟩ := List.exists_erase_eq hn
    rw [herase]
    refine IsDList.remove h (fun y _ => ?_) (fun y _ => ?_) ?_ ?_
    · rw [(hfields₂ y).2.1, (hfields₁ y).2.1]
    · rw [(hfields₂ y).2.2.1, (hfields₁ y).2.2.1]
    · rw [hq₂, hq₁]
    · rw [hq₂]
  · rw [(hfields₂ y).1, (hfields₂ y).2.2.2]
    exact ⟨(hfields₁ y).1, (hfields₁ y).2.2.2⟩
end

end Stacklets.Messages

import Stacklets.Lib.Objects
import Stacklets.Messages.Queue
import Stacklets.Util.Numerals

/-!
# `Stacklets.Messages.Contents`: a message queue as a list of messages

`Contents` is what a queue is for: a list of messages, each with the node that holds it. The
operations of `queue.c` are operations on this list. `enqueue` is given the node by `malloc`, which
is one that is not allocated. `dequeue` may be called when there is a message, and `queue_delete`
with a member.

* `queue_refines`: after any such sequence of calls, each of them has returned what the list says,
  and the pointers are a doubly linked list of the nodes in the list.
-/

set_option autoImplicit false

namespace Stacklets.Messages

open Function (update update_self update_of_ne)
open Lib

/-- A call of an operation of `queue.c`. -/
inductive QueueOp (N M : Type*)
  | isEmpty
  /-- `n` is the node that `malloc` gives. -/
  | enqueue (n : N) (msg : M)
  | dequeue
  | queueDelete (n : N)

/-- What the call returns. -/
inductive Returned (N M : Type*)
  | void
  | int (b : Bool)
  | message (msg : Option M)
  | node (n : Option N)
deriving DecidableEq

section
variable {N M : Type*} [DecidableEq N]

/-- `is_empty`. The queue `NULL` counts as empty. -/
def isEmpty : Option (Queue N) → Bool
  | none => true
  | some q => decide (q.tail = none)

/-- The memory of the nodes, and one queue. -/
structure QueueState (N M : Type*) where
  heap : N → Node N M
  queue : Queue N

/-- One call. -/
def QueueState.call (s : QueueState N M) : QueueOp N M → Option (Returned N M × QueueState N M)
  | .isEmpty => some (.int (isEmpty (some s.queue)), s)
  | .enqueue n msg =>
    if (s.heap n).live then none
    else
      let r := enqueue (update s.heap n { s.heap n with live := true }) s.queue n msg
      some (.void, ⟨r.1, r.2⟩)
  | .dequeue => (dequeue s.heap s.queue).map fun r => (.message r.1, ⟨r.2.1, r.2.2⟩)
  | .queueDelete n =>
    (queueDelete s.heap s.queue (some n)).map fun r => (.node r.1, ⟨r.2.1, r.2.2⟩)

/-- `init_queue`, with any memory. -/
def QueueState.initial (heap : N → Node N M) : QueueState N M := ⟨heap, Queue.empty⟩

/-! ### The list -/

/-- The messages in the queue, oldest first, each with its node, and which nodes are allocated. -/
structure Contents (N M : Type*) where
  items : List (N × M)
  allocated : N → Bool

/-- The nodes in the queue. -/
def Contents.nodes (c : Contents N M) : List N := c.items.map Prod.fst

/-- What a call does to the list. It is `none` for a call that is not allowed. -/
def Contents.call (c : Contents N M) : QueueOp N M → Option (Returned N M × Contents N M)
  | .isEmpty => some (.int c.items.isEmpty, c)
  | .enqueue n msg =>
    if c.allocated n then none
    else some (.void, ⟨c.items ++ [(n, msg)], update c.allocated n true⟩)
  | .dequeue =>
    match c.items with
    | [] => none
    | (n, msg) :: items =>
      some (.message (some msg), ⟨items, update c.allocated n false⟩)
  | .queueDelete n =>
    if n ∈ c.nodes then
      some (.node (some n), { c with items := c.items.eraseP fun p => decide (p.1 = n) })
    else none

/-- The list of a queue that `init_queue` has set up. -/
def Contents.initial (heap : N → Node N M) : Contents N M := ⟨[], fun n => (heap n).live⟩

/-! ### The queue holds the list -/

/-- The pointers and the messages in the memory are those of the list. -/
structure QueueState.Holds (s : QueueState N M) (c : Contents N M) : Prop where
  represents : s.queue.Represents s.heap c.nodes
  messages : ∀ p ∈ c.items, (s.heap p.1).msg = p.2
  live : ∀ n, (s.heap n).live = c.allocated n
  allocated : ∀ n ∈ c.nodes, c.allocated n = true

variable {s : QueueState N M} {c c' : Contents N M} {n : N} {msg : M} {r : Returned N M}

omit [DecidableEq N] in
theorem QueueState.Holds.initial (heap : N → Node N M) :
    (QueueState.initial heap).Holds (Contents.initial heap) where
  represents := isDList_nil
  messages := nofun
  live _ := rfl
  allocated := nofun

omit [DecidableEq N] in
/-- The pointer to the last node is null exactly for the empty list. -/
theorem QueueState.Holds.isEmpty (h : s.Holds c) :
    Messages.isEmpty (some s.queue) = c.items.isEmpty := by
  have htail : s.queue.tail = none ↔ c.nodes = [] := IsDList.back_eq_none_iff h.represents
  rw [Contents.nodes, List.map_eq_nil_iff] at htail
  rw [Messages.isEmpty, Bool.eq_iff_iff, decide_eq_true_iff, htail, List.isEmpty_iff]

/-- `malloc` gives a node that is not in the queue, and `enqueue` links it behind the others. -/
theorem QueueState.Holds.enqueue (h : s.Holds c) (hn : c.allocated n = false) :
    ∃ s', s.call (.enqueue n msg) = some (.void, s') ∧
      s'.Holds ⟨c.items ++ [(n, msg)], update c.allocated n true⟩ := by
  have hnew : n ∉ c.nodes := by
    intro hmem
    rw [h.allocated n hmem] at hn
    cases hn
  have hne : ∀ y ∈ c.nodes, y ≠ n := by
    rintro y hy rfl
    exact hnew hy
  have hfree : (s.heap n).live = false := (h.live n).trans hn
  -- the memory behind `malloc`
  have hrep : s.queue.Represents (update s.heap n { s.heap n with live := true })
      c.nodes := by
    refine IsDList.congr h.represents (fun y hy => ?_) fun y hy => ?_
    · rw [update_of_ne (hne y hy)]
    · rw [update_of_ne (hne y hy)]
  refine ⟨_, by rw [call, if_neg (by simp [hfree])], ?_, ?_, ?_, ?_⟩
  · rw [Contents.nodes, List.map_append]
    exact represents_enqueue hrep hnew
  · intro p hp
    rcases List.mem_append.mp hp with hold | hp
    · have hpn : p.1 ≠ n := hne p.1 (List.mem_map_of_mem hold)
      refine (enqueue_of_ne hpn).1.trans ?_
      rw [update_of_ne hpn]
      exact h.messages p hold
    · rw [List.mem_singleton.mp hp]
      exact enqueue_self.1
  · intro y
    by_cases hy : y = n
    · subst hy
      refine enqueue_self.2.2.2.trans ?_
      simp
    · refine (enqueue_of_ne hy).2.2.2.trans ?_
      show _ = update c.allocated n true y
      rw [update_of_ne hy, update_of_ne hy]
      exact h.live y
  · intro y hy
    show update c.allocated n true y = true
    rw [Contents.nodes, List.map_append, List.mem_append] at hy
    rcases hy with hold | hy
    · have hold : y ∈ c.nodes := hold
      rw [update_of_ne (hne y hold)]
      exact h.allocated y hold
    · rw [List.mem_singleton.mp hy]
      exact update_self ..

/-- `dequeue` takes the first node off and frees it. -/
theorem QueueState.Holds.dequeue {items : List (N × M)} (h : s.Holds c)
    (hc : c.items = (n, msg) :: items) :
    ∃ s', s.call .dequeue = some (.message (some msg), s') ∧
      s'.Holds ⟨items, update c.allocated n false⟩ := by
  have hrep : s.queue.Represents s.heap (n :: items.map Prod.fst) := by
    have hrep := h.represents
    rwa [Contents.nodes, hc] at hrep
  have hmsg : (s.heap n).msg = msg := h.messages (n, msg) (by rw [hc]; exact List.mem_cons_self)
  -- the freed node is not one of those that stay
  have hnotin : n ∉ items.map Prod.fst := (List.nodup_cons.mp hrep.nodup).1
  have hne : ∀ y ∈ items.map Prod.fst, y ≠ n := by
    rintro y hy rfl
    exact hnotin hy
  refine ⟨_, by rw [call, dequeue_eq hrep, hmsg]; rfl, represents_dequeue hrep, ?_, ?_, ?_⟩
  · intro p hp
    rw [(dequeued_of_ne (hne p.1 (List.mem_map_of_mem hp))).1]
    exact h.messages p (by rw [hc]; exact List.mem_cons_of_mem _ hp)
  · intro y
    by_cases hy : y = n
    · subst hy
      simp [dequeued]
    · show _ = update c.allocated n false y
      rw [(dequeued_of_ne hy).2.2.2, update_of_ne hy]
      exact h.live y
  · intro y hy
    have hy : y ∈ items.map Prod.fst := hy
    show update c.allocated n false y = true
    rw [update_of_ne (hne y hy)]
    exact h.allocated y (by rw [Contents.nodes, hc]; exact List.mem_cons_of_mem _ hy)

/-- The nodes behind a removal. -/
theorem map_fst_eraseP (items : List (N × M)) (n : N) :
    (items.eraseP fun p => decide (p.1 = n)).map Prod.fst = (items.map Prod.fst).erase n := by
  induction items with
  | nil => rfl
  | cons p items ih =>
    by_cases hp : p.1 = n
    · simp [hp]
    · simp [hp, ih]

/-- `queue_delete` takes a member out and returns it. The node stays allocated. -/
theorem QueueState.Holds.queueDelete (h : s.Holds c) (hn : n ∈ c.nodes) :
    ∃ s', s.call (.queueDelete n) = some (.node (some n), s') ∧
      s'.Holds { c with items := c.items.eraseP fun p => decide (p.1 = n) } := by
  -- only links change, in the neighbours of the node
  obtain ⟨heap', q', hdelete, hrep, hfields⟩ := queueDelete_of_mem h.represents hn
  have hsub : ∀ p ∈ c.items.eraseP fun p => decide (p.1 = n), p ∈ c.items := fun p hp =>
    List.mem_of_mem_eraseP hp
  refine ⟨⟨heap', q'⟩, by rw [call, hdelete]; rfl, ?_, fun p hp => ?_, fun y => ?_, ?_⟩
  · rw [Contents.nodes, map_fst_eraseP]
    exact hrep
  · exact (hfields p.1).1.trans (h.messages p (hsub p hp))
  · exact (hfields y).2.trans (h.live y)
  · intro y hy
    obtain ⟨p, hp, rfl⟩ := List.mem_map.mp hy
    exact h.allocated p.1 (List.mem_map_of_mem (hsub p hp))

/-- Each call does what the list says. -/
theorem QueueState.Holds.call (h : s.Holds c) (op : QueueOp N M)
    (hop : c.call op = some (r, c')) : ∃ s', s.call op = some (r, s') ∧ s'.Holds c' := by
  cases op with
  | isEmpty =>
    cases hop
    exact ⟨s, by rw [QueueState.call, h.isEmpty], h⟩
  | enqueue n msg =>
    obtain ⟨hn, heq⟩ := Option.ite_none_left_eq_some.mp hop
    cases heq
    exact h.enqueue (by simpa using hn)
  | dequeue =>
    rw [Contents.call] at hop
    split at hop
    · cases hop
    · rename_i n msg items hc
      cases hop
      exact h.dequeue hc
  | queueDelete n =>
    obtain ⟨hn, heq⟩ := Option.ite_none_right_eq_some.mp hop
    cases heq
    exact h.queueDelete hn

/-- Any sequence of calls that the list allows, on a queue that `init_queue` has set up in any
memory: the calls return what the list says, and at the end the pointers are a doubly linked list
of its nodes. -/
theorem queue_refines (heap : N → Node N M) {ops : List (QueueOp N M)}
    {results : List (Returned N M)}
    (h : calls Contents.call (Contents.initial heap) ops = some (results, c)) :
    ∃ s, calls QueueState.call (QueueState.initial heap) ops = some (results, s) ∧ s.Holds c :=
  calls_refines (R := QueueState.Holds) (fun _ _ op _ _ h _ hop => h.call op hop) ops _ _ _ _
    (.initial heap) (runUnder_of_forall ops (fun _ _ _ => trivial) _) h

end

/-- Three messages, of which the second one is deleted and the first one is taken. -/
def deletesMiddle : List (QueueOp (Fin 3) Nat) :=
  [.enqueue 0 10, .enqueue 1 11, .enqueue 2 12, .queueDelete 1, .dequeue, .isEmpty]

theorem queue_refines_deletesMiddle :
    ∃ s, calls QueueState.call (QueueState.initial fun _ : Fin 3 => ⟨0, none, none, false⟩)
        deletesMiddle =
      some ([.void, .void, .void, .node (some 1), .message (some 10), .int false], s) ∧
      s.queue.head = some 2 ∧ s.queue.tail = some 2 ∧ (s.heap 2).msg = 12 := by
  have h : calls Contents.call (Contents.initial fun _ : Fin 3 => ⟨0, none, none, false⟩)
      deletesMiddle = some (_, ⟨[(2, 12)], _⟩) := rfl
  obtain ⟨s, hcalls, hs⟩ := queue_refines _ h
  exact ⟨s, hcalls, hs.represents.front_eq, hs.represents.back_eq, hs.messages (2, 12) (.head _)⟩

end Stacklets.Messages

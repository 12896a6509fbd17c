import Mathlib.Data.List.Perm.Subperm
import Stacklets.Steal.Steps

/-!
# `Stacklets.Steal.Ready`: the ready queue, one access at a time

`enqReadyQ` and `deqReadyQ` take no lock (`readyQLock` is set up and never used), so each of them
is a row of separate steps. `Phase` says where a thread is inside one of them, and
`Phase.Valid q l` what the pointers then spell, when no other thread is inside: the nodes `l`, with
the pointers to the ends as far as the thread has set them. One lemma for each access says how the
phase and the nodes go on.

`contents` reads the saved contexts off the queue, from the front.
-/

set_option autoImplicit false

namespace Stacklets.Steal

open Lib

section
variable {N : Nat}

/-- Where a thread is inside `enqReadyQ` or `deqReadyQ`, and what it has at hand. -/
inductive Phase (N : Nat)
  /-- In neither. -/
  | out
  | enqLink (ready : Nat) (e : Context N)
  | enqFront (ready : Nat) (e : Context N)
  | enqBack (ready : Nat)
  | deqFront (e : Context N)
  | deqNext (e : Context N) (origFront : Nat)
  | deqBack (origFront : Nat)
deriving DecidableEq

/-- The phase of a thread: the topmost handler counts, or `suspend` without any. -/
def Core.phase (c : Core N) : Phase N :=
  match c.acts, c.base with
  | .fork msg (.enqLink ready) :: _, _ => .enqLink ready msg.context
  | .fork msg (.enqFront ready) :: _, _ => .enqFront ready msg.context
  | .fork _ (.enqBack ready) :: _, _ => .enqBack ready
  | [], .suspend (.deqFront e) => .deqFront e
  | [], .suspend (.deqNext e origFront) => .deqNext e origFront
  | [], .suspend (.deqBack _ origFront) => .deqBack origFront
  | _, _ => .out

/-- The next step of the thread is its first access to the ready queue. -/
def Core.begins (c : Core N) : Bool :=
  match c.acts, c.base with
  | .fork _ .enter :: _, _ => true
  | [], .suspend .ready => true
  | _, _ => false

/-- The pointers of the queue spell `l`, when `back` is the pointer to the last node. -/
def Spells (q : ReadyQ N) (back : Option Nat) (l : List Nat) : Prop :=
  IsSList (fun i => (q.threads i).next) q.front back l

/-- The node `ready` is filled in and not yet linked. -/
def Fresh (q : ReadyQ N) (l : List Nat) (ready : Nat) (e : Context N) : Prop :=
  ready ∉ l ∧ ready < q.readyQId ∧ q.threads ready = ⟨(), e, none⟩

/-- The ready queue while one thread is in the given phase and no other is inside. -/
def Phase.Valid (q : ReadyQ N) (l : List Nat) : Phase N → Prop
  | .out => Spells q q.back l
  | .enqLink ready e => Spells q q.back l ∧ Fresh q l ready e ∧ q.back ≠ none
  | .enqFront ready e => Spells q q.back l ∧ Fresh q l ready e ∧ q.back = none
  | .enqBack ready => Spells q (some ready) l
  | .deqFront e => Spells q q.back l ∧ ∃ i, q.front = some i ∧ (q.threads i).sp = e
  | .deqNext e origFront =>
    Spells q q.back l ∧ q.front = some origFront ∧ (q.threads origFront).sp = e
  | .deqBack origFront =>
    Spells q (if (q.threads origFront).next = none then none else q.back) l

/-- The nodes are allocated. -/
def Allocated (q : ReadyQ N) (l : List Nat) : Prop := ∀ i ∈ l, i < q.readyQId

variable {m : Shared N} {l : List Nat} {e : Context N} {ready : Nat}

/-! ### `enqReadyQ` -/

/-- The new node is not linked yet. -/
theorem newReady_valid (h : Phase.Valid m.readyQ l .out) (hl : Allocated m.readyQ l) :
    Spells (m.newReady e).readyQ m.readyQ.back l ∧
      Fresh (m.newReady e).readyQ l m.readyQ.readyQId e ∧
      Allocated (m.newReady e).readyQ l ∧
      ∀ i ∈ l, (m.newReady e).readyQ.threads i = m.readyQ.threads i := by
  have hsame : ∀ i ∈ l, (m.newReady e).readyQ.threads i = m.readyQ.threads i := fun i hi =>
    Function.update_of_ne (Nat.ne_of_lt (hl i hi)) _ _
  refine ⟨?_, ⟨fun hmem => Nat.lt_irrefl _ (hl _ hmem), Nat.lt_succ_self _, ?_⟩, ?_, hsame⟩
  · exact IsSList.congr h fun i hi => by rw [hsame i hi]
  · exact Function.update_self ..
  · exact fun i hi => Nat.lt_succ_of_lt (hl i hi)

/-- The contexts of the nodes do not depend on the links. -/
theorem setNext_sp (m : Shared N) (j : Nat) (next : Option Nat) (i : Nat) :
    ((m.setNext j next).readyQ.threads i).sp = (m.readyQ.threads i).sp := by
  show (Function.update m.readyQ.threads j _ i).sp = _
  by_cases hi : i = j
  · rw [hi, Function.update_self]
  · rw [Function.update_of_ne hi]

/-- It is linked behind the last node. -/
theorem setNext_valid {back : Nat} (h : Phase.Valid m.readyQ l (.enqLink ready e))
    (hl : Allocated m.readyQ l) (hback : m.readyQ.back = some back) :
    Phase.Valid (m.setNext back (some ready)).readyQ (l ++ [ready]) (.enqBack ready) ∧
      Allocated (m.setNext back (some ready)).readyQ (l ++ [ready]) := by
  obtain ⟨hspells, ⟨hnew, hlt, hready⟩, _⟩ := h
  have hbackmem : back ∈ l := List.mem_of_getLast? (hspells.back_eq.symm.trans hback)
  have hne : ready ≠ back := fun he => hnew (he ▸ hbackmem)
  have hnext : ∀ i, ((m.setNext back (some ready)).readyQ.threads i).next =
      if m.readyQ.back = some i then some ready else (m.readyQ.threads i).next := by
    intro i
    show (Function.update m.readyQ.threads back _ i).next = _
    by_cases hi : i = back
    · rw [hi, Function.update_self, hback, if_pos rfl]
    · rw [Function.update_of_ne hi, hback, if_neg (fun he => hi (Option.some.inj he).symm)]
  refine ⟨IsSList.append hspells hnew ?_ (fun i _ => hnext i) ?_, ?_⟩
  · rw [hnext, hback, if_neg (fun he => hne (Option.some.inj he).symm), hready]
  · rw [hback, if_neg (by simp)]
    rfl
  · intro i hi
    rcases List.mem_append.mp hi with hi | hi
    · exact hl i hi
    · rw [List.mem_singleton.mp hi]
      exact hlt

/-- In an empty queue it becomes the first one. -/
theorem enqFront_valid (h : Phase.Valid m.readyQ l (.enqFront ready e)) :
    l = [] ∧ Phase.Valid (m.setFront (some ready)).readyQ [ready] (.enqBack ready) ∧
      Allocated (m.setFront (some ready)).readyQ [ready] := by
  obtain ⟨hspells, ⟨hnew, hlt, hready⟩, hback⟩ := h
  have hnil : l = [] := List.getLast?_eq_none_iff.mp (hspells.back_eq.symm.trans hback)
  subst hnil
  have hempty : IsSList (fun i => (m.readyQ.threads i).next) none none [] := isSList_nil
  refine ⟨rfl, IsSList.append hempty hnew ?_ nofun rfl, ?_⟩
  · show (m.readyQ.threads ready).next = none
    rw [hready]
  · exact fun i hi => by rw [List.mem_singleton.mp hi]; exact hlt

/-- The queue is whole again. -/
theorem setBack_valid (h : Phase.Valid m.readyQ l (.enqBack ready)) :
    Phase.Valid (m.setBack (some ready)).readyQ l .out := h

/-! ### `deqReadyQ` -/

/-- The thread knows the first node. -/
theorem deqFront_valid {i : Nat} (h : Phase.Valid m.readyQ l (.deqFront e))
    (hfront : m.readyQ.front = some i) : Phase.Valid m.readyQ l (.deqNext e i) := by
  obtain ⟨hspells, j, hj, hsp⟩ := h
  obtain rfl : j = i := Option.some.inj (hj.symm.trans hfront)
  exact ⟨hspells, hfront, hsp⟩

/-- The first node is unlinked. -/
theorem setFront_valid {i : Nat} (h : Phase.Valid m.readyQ l (.deqNext e i)) :
    ∃ l', l = i :: l' ∧
      Phase.Valid (m.setFront (m.readyQ.threads i).next).readyQ l' (.deqBack i) := by
  obtain ⟨hspells, hfront, _⟩ := h
  cases l with
  | nil => cases hfront.symm.trans hspells.front_eq
  | cons j l' =>
    obtain rfl : i = j := Option.some.inj (hfront.symm.trans hspells.front_eq)
    exact ⟨l', rfl, IsSList.tail hspells⟩

/-- The queue is whole again when the last node is gone. -/
theorem deqBack_valid {i : Nat} (h : Phase.Valid m.readyQ l (.deqBack i)) :
    Phase.Valid (if (m.readyQ.threads i).next = none then (m.setBack none).readyQ else m.readyQ) l
      .out := by
  have h' : Spells m.readyQ (if (m.readyQ.threads i).next = none then none else m.readyQ.back) l :=
    h
  by_cases hnext : (m.readyQ.threads i).next = none
  · rw [if_pos hnext] at h' ⊢
    exact h'
  · rw [if_neg hnext] at h' ⊢
    exact h'

/-! ### What the queue holds -/

/-- The contexts of the nodes from `i` on, at most `fuel` many. -/
def walk (q : ReadyQ N) : Nat → Option Nat → List (Context N)
  | 0, _ => []
  | _ + 1, none => []
  | fuel + 1, some i => (q.threads i).sp :: walk q fuel (q.threads i).next

/-- The contexts in the queue, from the front. -/
def contents (q : ReadyQ N) : List (Context N) := walk q q.readyQId q.front

/-- The walk finds the nodes that the links spell, by induction on them. -/
theorem walk_eq {q : ReadyQ N} :
    ∀ (l : List Nat) (front : Option Nat) (fuel : Nat), front = l.head? → l.length ≤ fuel →
      (∀ l₁ i l₂, l = l₁ ++ i :: l₂ → (q.threads i).next = l₂.head?) →
      walk q fuel front = l.map fun i => (q.threads i).sp := by
  intro l
  induction l with
  | nil =>
    rintro front fuel rfl _ _
    cases fuel <;> rfl
  | cons i l ih =>
    rintro front fuel rfl hfuel hlinks
    cases fuel with
    | zero => cases hfuel
    | succ fuel =>
      show (q.threads i).sp :: walk q fuel (q.threads i).next = _
      rw [ih _ fuel (hlinks [] i l rfl) (Nat.le_of_succ_le_succ hfuel)
        fun l₁ j l₂ hl => hlinks (i :: l₁) j l₂ (by rw [hl]; rfl)]
      rfl

/-- The queue holds the contexts of its nodes. The number of allocated nodes is enough fuel. -/
theorem Spells.contents {q : ReadyQ N} {back : Option Nat} (h : Spells q back l)
    (hl : Allocated q l) : contents q = l.map fun i => (q.threads i).sp := by
  refine walk_eq l q.front q.readyQId h.front_eq ?_ h.links
  have hsub : l ⊆ List.range q.readyQId := fun i hi => List.mem_range.mpr (hl i hi)
  have hperm := List.subperm_of_subset h.nodup hsub
  simpa using hperm.length_le

end

end Stacklets.Steal

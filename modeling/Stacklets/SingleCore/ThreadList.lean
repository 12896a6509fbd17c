import Stacklets.Lib.Runs
import Stacklets.Lib.SList
import Stacklets.SingleCore.Threads

/-!
# `Stacklets.SingleCore.ThreadList`: taking one thread out of a linked list

`removeFromIdleQue` and `removeTL` of `mythreads.c`, on the pointers. Both walk along the list
with a pointer `prev` one node behind, and then link `prev` to the node after the one they found.
If the node is the first one, there is no `prev`, and both store `NULL` in the head.

`mythreads_64.c` has the same two functions. `removeFromIdleQue` has a mutex around the loop
there, but it reads the head before it takes the mutex. No function of that file calls
`addToIdleQue`, so its idle queue is always empty.

* `removeFromIdleQue_spells` and `removeTL_spells` say which list the pointers spell behind a
  call, for every list and every member. It is the list that the function of the same name in
  `Stacklets.SingleCore.Threads` gives (`removeFromIdleQue_refines`, `removeTL_refines`).
* `remove_only` says that exactly the one entry is gone if and only if it is not the first one, or
  is the only one. `remove_drops_others` is a list with the thread in front.

The pointers and the threads are of any type. The loop gets a number of turns, and the lemmas
hold for every number that exceeds the length of the list.
-/

set_option autoImplicit false

namespace Stacklets.SingleCore

open Function (update update_self update_of_ne)
open Lib

/-- How a function ends: it returns, it follows a null pointer or fails an `assert`, or it is
still in its loop after all turns. -/
inductive Result (α : Type*)
  | returns (a : α)
  | crashes
  | loops
deriving DecidableEq

section
variable {N T : Type*} [DecidableEq N] [DecidableEq T]

/-! ### The functions -/

/-- The loop `while (x && x->thread != t) { prev = x; x = x->next; }`. The result is `prev` and
`x` behind it. -/
def walk (thread : N → T) (next : N → Option N) (t : T) :
    Nat → Option N → Option N → Result (Option N × Option N)
  | 0, _, _ => .loops
  | _ + 1, prev, none => .returns (prev, none)
  | k + 1, prev, some x =>
    if thread x = t then .returns (prev, some x) else walk thread next t k (some x) (next x)

/-- The idle queue: the `next` fields of the threads, and the first thread. -/
structure IdleQue (T : Type*) where
  next : T → Option T
  idleThreads : Option T

/-- `removeFromIdleQue(t)`, with `turns` turns for the loop. -/
def IdleQue.removeFromIdleQue (q : IdleQue T) (turns : Nat) (t : T) : Result (IdleQue T) :=
  match walk id q.next t turns none q.idleThreads with
  | .returns (some prev, some idle) =>
    .returns { q with next := update q.next prev (q.next idle) }
  | .returns (some _, none) => .crashes
  | .returns (none, _) => .returns { q with idleThreads := none }
  | .crashes => .crashes
  | .loops => .loops

/-- `addToIdleQue(t)`. -/
def IdleQue.addToIdleQue (q : IdleQue T) (t : T) : IdleQue T where
  next := update q.next t q.idleThreads
  idleThreads := some t

/-- The memory of the entries of a `ThreadList`, and the head of one list. -/
structure ThreadList (N T : Type*) where
  next : N → Option N
  thread : N → T
  live : N → Bool
  head : Option N

/-- `pushTL(&head, t)`, with the entry that `calloc` returns. -/
def ThreadList.pushTL (tl : ThreadList N T) (n : N) (t : T) : ThreadList N T where
  next := update tl.next n tl.head
  thread := update tl.thread n t
  live := update tl.live n true
  head := some n

/-- `removeTL(&head, t)`, with `turns` turns for the loop. -/
def ThreadList.removeTL (tl : ThreadList N T) (turns : Nat) (t : T) : Result (ThreadList N T) :=
  match walk tl.thread tl.next t turns none tl.head with
  | .returns (some prev, some n) =>
    .returns { tl with
      next := update tl.next prev (tl.next n)
      live := update tl.live n false }
  | .returns (none, some n) =>
    .returns { tl with head := none, live := update tl.live n false }
  | .returns (_, none) => .crashes
  | .crashes => .crashes
  | .loops => .loops

/-! ### The lists that the pointers spell -/

/-- The pointers from `head` spell the list `l`, which has no node twice. -/
def Spelled (next : N → Option N) (head : Option N) (l : List N) : Prop :=
  IsSList next head l.getLast? l

omit [DecidableEq N] in
/-- The loop goes over entries that are not for `t`, and `prev` with it. The induction is on these
entries, with `prev` generalized. -/
theorem walk_skip {thread : N → T} {next : N → Option N} {t : T} {l : List N} (k : Nat) :
    ∀ (l₁ : List N) (prev head : Option N), Spelled next head (l₁ ++ l) →
    (∀ y ∈ l₁, thread y ≠ t) →
    walk thread next t (l₁.length + k) prev head =
      walk thread next t k (l₁.getLast?.or prev) l.head? := by
  intro l₁
  induction l₁ with
  | nil =>
    intro prev head hspell _
    have hhead : head = l.head? := hspell.front_eq
    rw [hhead, List.length_nil, Nat.zero_add]
    rfl
  | cons y l₁ ih =>
    intro prev head hspell hne
    have hhead : head = some y := hspell.front_eq
    rw [hhead, List.length_cons, Nat.add_right_comm, walk, if_neg (hne y List.mem_cons_self)]
    -- the rest of the list hangs on `y->next`
    have htail := IsSList.tail (l := l₁ ++ l) hspell
    rw [ih (some y) (next y) ⟨htail.nodup, htail.front_eq, rfl, htail.links⟩
      fun z hz => hne z (List.mem_cons_of_mem _ hz)]
    cases l₁ <;> simp [List.getLast?_cons]

omit [DecidableEq N] in
/-- The loop stops at the first entry for `t`, with `prev` at the entry before it. -/
theorem walk_eq {thread : N → T} {next : N → Option N} {t : T} {x : N} {l₂ : List N}
    (hx : thread x = t) (l₁ : List N) (turns : Nat) (prev head : Option N)
    (hspell : Spelled next head (l₁ ++ x :: l₂)) (hne : ∀ y ∈ l₁, thread y ≠ t)
    (hturns : l₁.length < turns) :
    walk thread next t turns prev head = .returns (l₁.getLast?.or prev, some x) := by
  obtain ⟨k, rfl⟩ : ∃ k, turns = l₁.length + (k + 1) := ⟨turns - l₁.length - 1, by omega⟩
  rw [walk_skip (k + 1) l₁ prev head hspell hne]
  exact if_pos hx

omit [DecidableEq N] in
/-- Without an entry for `t` the loop runs to the end. -/
theorem walk_eq_none {thread : N → T} {next : N → Option N} {t : T} (l : List N) (turns : Nat)
    (prev head : Option N) (hspell : Spelled next head l) (hne : ∀ y ∈ l, thread y ≠ t)
    (hturns : l.length < turns) :
    walk thread next t turns prev head = .returns (l.getLast?.or prev, none) := by
  obtain ⟨k, rfl⟩ : ∃ k, turns = l.length + (k + 1) := ⟨turns - l.length - 1, by omega⟩
  rw [walk_skip (l := []) (k + 1) l prev head (by rwa [List.append_nil]) hne]
  rfl

omit [DecidableEq N] in
/-- The empty list. -/
theorem spelled_nil {next : N → Option N} : Spelled next none [] := isSList_nil

omit [DecidableEq N] in
/-- A null pointer spells the empty list only. -/
theorem Spelled.eq_nil {next : N → Option N} {l : List N} (h : Spelled next none l) : l = [] :=
  List.head?_eq_none_iff.mp h.front_eq.symm

/-- The store `prev->next = x->next` takes `x` out, if there is a `prev`. -/
theorem Spelled.unlink {next : N → Option N} {head : Option N} {l₁ l₂ : List N} {p x : N}
    (h : Spelled next head (l₁ ++ p :: x :: l₂)) :
    Spelled (update next p (next x)) head (l₁ ++ p :: l₂) :=
  IsSList.unlink h (update_self ..) fun _ _ hz => update_of_ne hz ..

/-- What is left of a list when the entry behind `l₁` is taken out: everything but this entry,
or nothing if it was the first one. -/
def leftOver (l₁ l₂ : List N) : List N := if l₁ = [] then [] else l₁ ++ l₂

omit [DecidableEq N] in
/-- The rest is complete unless the entry was the first of several. -/
theorem leftOver_eq {l₁ l₂ : List N} (h : l₁ ≠ [] ∨ l₂ = []) : leftOver l₁ l₂ = l₁ ++ l₂ := by
  unfold leftOver
  split
  · next hnil =>
    rcases h with hne | rfl
    · exact absurd hnil hne
    · rw [hnil]
      rfl
  · rfl

omit [DecidableEq N] in
/-- The pointers that spell what is left spell everything but the entry in this case only. -/
theorem Spelled.of_leftOver {next : N → Option N} {head : Option N} {l₁ l₂ : List N}
    (h : Spelled next head (leftOver l₁ l₂)) (h' : Spelled next head (l₁ ++ l₂)) :
    l₁ ≠ [] ∨ l₂ = [] := by
  by_cases hnil : l₁ = []
  · subst hnil
    have hhead : head = none := h.front_eq
    exact .inr (hhead ▸ h').eq_nil
  · exact .inl hnil

omit [DecidableEq N] in
/-- Turns for the whole list are enough to reach an entry of it. -/
theorem turns_enough {l₁ l₂ : List N} {x : N} {turns : Nat} (h : (l₁ ++ x :: l₂).length < turns) :
    l₁.length < turns := by
  rw [List.length_append] at h
  omega

/-- What `removeFromIdleQue` does to an idle queue that has the thread. Threads that are not in
the queue keep their links. -/
theorem removeFromIdleQue_spells {q : IdleQue T} {l₁ l₂ : List T} {t : T} {turns : Nat}
    (h : Spelled q.next q.idleThreads (l₁ ++ t :: l₂)) (hturns : l₁.length < turns) :
    ∃ q', q.removeFromIdleQue turns t = .returns q' ∧
      Spelled q'.next q'.idleThreads (leftOver l₁ l₂) ∧
      ∀ y ∉ l₁ ++ t :: l₂, q'.next y = q.next y := by
  have hbefore : ∀ y ∈ l₁, id y ≠ t := by
    rintro y hy rfl
    exact (List.nodup_append.mp h.nodup).2.2 y hy y List.mem_cons_self rfl
  have hwalk := walk_eq (id_eq t) l₁ turns none q.idleThreads h hbefore hturns
  unfold IdleQue.removeFromIdleQue
  rw [hwalk]
  rcases List.eq_nil_or_concat l₁ with rfl | ⟨l, p, rfl⟩
  · exact ⟨_, rfl, spelled_nil, fun _ _ => rfl⟩
  · have hlast : (l ++ [p]).getLast?.or none = some p := by simp
    rw [List.concat_eq_append] at h ⊢
    rw [hlast]
    refine ⟨_, rfl, ?_, ?_⟩
    · rw [leftOver_eq (.inl (by simp)), List.append_assoc]
      exact Spelled.unlink (x := t) (by simpa using h)
    · intro y hy
      exact update_of_ne (by rintro rfl; exact hy (by simp)) ..

/-- What `removeTL` does to a list whose first entry for `t` is `n`. The entry is freed. The
other entries stay allocated, and keep their threads. -/
theorem removeTL_spells {tl : ThreadList N T} {l₁ l₂ : List N} {n : N} {turns : Nat}
    (h : Spelled tl.next tl.head (l₁ ++ n :: l₂))
    (hbefore : ∀ y ∈ l₁, tl.thread y ≠ tl.thread n) (hturns : l₁.length < turns) :
    ∃ tl', tl.removeTL turns (tl.thread n) = .returns tl' ∧
      Spelled tl'.next tl'.head (leftOver l₁ l₂) ∧ tl'.thread = tl.thread ∧
      tl'.live = update tl.live n false := by
  have hwalk := walk_eq rfl l₁ turns none tl.head h hbefore hturns
  unfold ThreadList.removeTL
  rw [hwalk]
  rcases List.eq_nil_or_concat l₁ with rfl | ⟨l, p, rfl⟩
  · exact ⟨_, rfl, spelled_nil, rfl, rfl⟩
  · have hlast : (l ++ [p]).getLast?.or none = some p := by simp
    rw [List.concat_eq_append] at h ⊢
    rw [hlast]
    refine ⟨_, rfl, ?_, rfl, rfl⟩
    rw [leftOver_eq (.inl (by simp)), List.append_assoc]
    exact Spelled.unlink (x := n) (by simpa using h)

/-- `addToIdleQue` and `pushTL` put a new entry in front. -/
theorem Spelled.cons {next : N → Option N} {head : Option N} {l : List N} {x : N}
    (h : Spelled next head l) (hx : x ∉ l) :
    Spelled (update next x head) (some x) (x :: l) :=
  IsSList.cons h hx (update_self ..) fun y hy =>
    update_of_ne (by rintro rfl; exact hx hy) ..

/-! ### Sequences of calls on the idle queue -/

/-- The calls on the idle queue. -/
inductive IdleAct (T : Type*)
  | add (t : T)
  | remove (t : T)
deriving DecidableEq

/-- The idle queue, and the threads that were added and not yet removed, the newest first. -/
structure Parking (T : Type*) where
  que : IdleQue T
  parked : List T

/-- One call. A thread is added while it is not parked, and removed while it is. -/
def Parking.step (s : Parking T) : IdleAct T → Option (Parking T)
  | .add t => if t ∈ s.parked then none else some ⟨s.que.addToIdleQue t, t :: s.parked⟩
  | .remove t =>
    if t ∈ s.parked then
      match s.que.removeFromIdleQue (s.parked.length + 1) t with
      | .returns que => some ⟨que, s.parked.erase t⟩
      | _ => none
    else none

/-- After `init_q`. -/
def Parking.initial (T : Type*) : Parking T := ⟨⟨fun _ => none, none⟩, []⟩

/-- The thread to be removed is not the first one, or nothing comes behind it. -/
def Parking.NotFirst (s : Parking T) : IdleAct T → Prop
  | .add _ => True
  | .remove t => s.que.idleThreads ≠ some t ∨ s.que.next t = none

instance (s : Parking T) : ∀ a, Decidable (s.NotFirst a)
  | .add _ => isTrue trivial
  | .remove t => inferInstanceAs (Decidable (s.que.idleThreads ≠ some t ∨ s.que.next t = none))

/-- The idle queue holds exactly the parked threads. -/
def Parking.Kept (s : Parking T) : Prop := Spelled s.que.next s.que.idleThreads s.parked

omit [DecidableEq N] in
/-- The condition on the pointers, in terms of the list. -/
theorem Spelled.first_or_last {next : N → Option N} {head : Option N} {l₁ l₂ : List N} {x : N}
    (h : Spelled next head (l₁ ++ x :: l₂)) :
    (head ≠ some x ∨ next x = none) ↔ (l₁ ≠ [] ∨ l₂ = []) := by
  rw [h.links l₁ x l₂ rfl, List.head?_eq_none_iff]
  refine or_congr_left ⟨?_, ?_⟩
  · rintro hfirst rfl
    exact hfirst h.front_eq
  · -- the head of the list is another node, as no node is there twice
    intro hne heq
    cases l₁ with
    | nil => exact hne rfl
    | cons y l₁ =>
      obtain rfl : y = x := Option.some.inj (h.front_eq.symm.trans heq)
      exact (List.nodup_cons.mp h.nodup).1 (List.mem_append_right _ List.mem_cons_self)

/-- A call that meets the condition keeps the queue in step with the parked threads. -/
theorem Parking.Kept.step {s s' : Parking T} {a : IdleAct T} (h : s.Kept) (hok : s.NotFirst a)
    (hstep : s.step a = some s') : s'.Kept := by
  cases a with
  | add t =>
    obtain ⟨hnew, heq⟩ := Option.ite_none_left_eq_some.mp hstep
    cases heq
    exact Spelled.cons h hnew
  | remove t =>
    obtain ⟨hmem, heq⟩ := Option.ite_none_right_eq_some.mp hstep
    obtain ⟨l₁, l₂, _, hl, herase⟩ := List.exists_erase_eq hmem
    have hspell : Spelled s.que.next s.que.idleThreads (l₁ ++ t :: l₂) := hl ▸ h
    have hturns : (l₁ ++ t :: l₂).length < s.parked.length + 1 := by
      rw [hl]
      exact Nat.lt_succ_self _
    obtain ⟨q', hq', hspell', _⟩ := removeFromIdleQue_spells hspell (turns_enough hturns)
    rw [hq'] at heq
    cases heq
    rw [leftOver_eq (hspell.first_or_last.mp hok)] at hspell'
    show Spelled q'.next q'.idleThreads (s.parked.erase t)
    rw [herase]
    exact hspell'

/-- Removing one thread from a list removes only that thread.

* For every idle queue and every member, `removeFromIdleQue` leaves the other members, in their
  order, if and only if the member is not the first one or is the only one.
* For every `ThreadList` and every thread of it, `removeTL` unlinks and frees the first entry of
  the thread and leaves the others, in their order, if and only if this entry is not the head or
  is the only one.
* In every sequence of calls in which the removed threads are such members, the idle queue
  holds the threads that were added and not yet removed. -/
theorem remove_only :
    (∀ (q : IdleQue T) (l : List T) (t : T), Spelled q.next q.idleThreads l → t ∈ l →
      ∀ turns > l.length,
      ((∃ q', q.removeFromIdleQue turns t = .returns q' ∧
        Spelled q'.next q'.idleThreads (l.erase t)) ↔
        (q.idleThreads ≠ some t ∨ q.next t = none))) ∧
    (∀ (tl : ThreadList N T) (l₁ l₂ : List N) (n : N), Spelled tl.next tl.head (l₁ ++ n :: l₂) →
      (∀ y ∈ l₁, tl.thread y ≠ tl.thread n) → ∀ turns > (l₁ ++ n :: l₂).length,
      ((∃ tl', tl.removeTL turns (tl.thread n) = .returns tl' ∧
        Spelled tl'.next tl'.head (l₁ ++ l₂) ∧ tl'.thread = tl.thread ∧
        tl'.live = update tl.live n false) ↔
        (tl.head ≠ some n ∨ tl.next n = none))) ∧
    (∀ (as : List (IdleAct T)) (s : Parking T),
      RunUnder Parking.step Parking.NotFirst (Parking.initial T) as →
      run Parking.step (Parking.initial T) as = some s → s.Kept) := by
  refine ⟨?_, ?_, ?_⟩
  · intro q l t hspell hmem turns hturns
    -- what the call leaves is known, so both directions compare lists
    obtain ⟨l₁, l₂, _, rfl, herase⟩ := List.exists_erase_eq hmem
    obtain ⟨q', hq', hspell', _⟩ := removeFromIdleQue_spells hspell (turns_enough hturns)
    rw [herase, hspell.first_or_last, hq']
    constructor
    · rintro ⟨_, ⟨⟩, hrest⟩
      exact hspell'.of_leftOver hrest
    · exact fun hok => ⟨q', rfl, leftOver_eq hok ▸ hspell'⟩
  · intro tl l₁ l₂ n hspell hbefore turns hturns
    obtain ⟨tl', htl', hspell', hthread, hlive⟩ :=
      removeTL_spells hspell hbefore (turns_enough hturns)
    rw [hspell.first_or_last, htl']
    constructor
    · rintro ⟨_, ⟨⟩, hrest, _⟩
      exact hspell'.of_leftOver hrest
    · exact fun hok => ⟨tl', rfl, leftOver_eq hok ▸ hspell', hthread, hlive⟩
  · intro as s hok hrun
    have hinit : (Parking.initial T).Kept := spelled_nil
    exact runUnder_induction (fun _ _ _ h hok hstep => Parking.Kept.step h hok hstep) as _ s
      hinit hok hrun

end

/-! ### The lists of the package -/

/-- What the function of the package leaves of a list that has the thread. -/
theorem removeTL_append {l₁ l₂ : List Nat} {t : Nat} (hnot : t ∉ l₁) :
    SingleCore.removeTL t (l₁ ++ t :: l₂) = some (leftOver l₁ l₂) := by
  cases l₁ with
  | nil => simp [SingleCore.removeTL, leftOver]
  | cons x l₁ =>
    obtain ⟨hx, ht⟩ : t ≠ x ∧ t ∉ l₁ := by simpa using hnot
    simp [SingleCore.removeTL, leftOver, Ne.symm hx, List.erase_append_right _ ht]

/-- A thread that is not in the list is not found. -/
theorem removeTL_eq_none {l : List Nat} {t : Nat} (hnot : t ∉ l) :
    SingleCore.removeTL t l = none := by
  cases l with
  | nil => rfl
  | cons x l =>
    obtain ⟨hx, ht⟩ : t ≠ x ∧ t ∉ l := by simpa using hnot
    simp [SingleCore.removeTL, Ne.symm hx, ht]

/-- The two functions of the package differ on the empty list only. -/
theorem removeFromIdleQue_eq {l : List Nat} (t : Nat) (hne : l ≠ []) :
    SingleCore.removeFromIdleQue t l = SingleCore.removeTL t l := by
  cases l with
  | nil => exact absurd rfl hne
  | cons x l => rfl

/-- The same list as in the model of the package, where the queue is a list. A call that
follows a null pointer there does so on the pointers too. -/
theorem removeFromIdleQue_refines {q : IdleQue Nat} {l : List Nat} {t turns : Nat}
    (h : Spelled q.next q.idleThreads l) (hturns : l.length < turns) :
    match SingleCore.removeFromIdleQue t l with
    | some l' => ∃ q', q.removeFromIdleQue turns t = .returns q' ∧
        Spelled q'.next q'.idleThreads l'
    | none => q.removeFromIdleQue turns t = .crashes := by
  by_cases hmem : t ∈ l
  · obtain ⟨l₁, l₂, hnot, rfl, _⟩ := List.exists_erase_eq hmem
    obtain ⟨q', hq', hspell, _⟩ := removeFromIdleQue_spells h (turns_enough hturns)
    rw [removeFromIdleQue_eq t (by simp), removeTL_append hnot]
    exact ⟨q', hq', hspell⟩
  · -- the loop runs to the end, and `prev` is the last thread of the queue
    have hnone : ∀ y ∈ l, id y ≠ t := fun y hy => ne_of_mem_of_not_mem hy hmem
    have hwalk := walk_eq_none l turns none q.idleThreads h hnone hturns
    unfold IdleQue.removeFromIdleQue
    rw [hwalk]
    cases l with
    | nil => exact ⟨_, rfl, spelled_nil⟩
    | cons x l =>
      rw [removeFromIdleQue_eq t (by simp), removeTL_eq_none hmem]
      simp [List.getLast?_cons]

/-- The same for `removeTL`. The package has the threads of the entries. -/
theorem removeTL_refines {N : Type*} [DecidableEq N] {tl : ThreadList N Nat} {l : List N}
    {t turns : Nat} (h : Spelled tl.next tl.head l) (hturns : l.length < turns) :
    match SingleCore.removeTL t (l.map tl.thread) with
    | some ts => ∃ tl' l', tl.removeTL turns t = .returns tl' ∧ Spelled tl'.next tl'.head l' ∧
        l'.map tl'.thread = ts
    | none => tl.removeTL turns t = .crashes := by
  by_cases hmem : t ∈ l.map tl.thread
  · obtain ⟨ts₁, ts₂, hnot, hts, _⟩ := List.exists_erase_eq hmem
    obtain ⟨l₁, l', rfl, rfl, hl'⟩ := List.map_eq_append_iff.mp hts
    obtain ⟨n, l₂, rfl, rfl, rfl⟩ := List.map_eq_cons_iff.mp hl'
    obtain ⟨tl', htl', hspell, hthread, _⟩ := removeTL_spells h
      (fun y hy heq => hnot (heq ▸ List.mem_map_of_mem hy)) (turns_enough hturns)
    rw [hts, removeTL_append hnot]
    refine ⟨tl', leftOver l₁ l₂, htl', hspell, ?_⟩
    rw [hthread]
    cases l₁ <;> simp [leftOver]
  · rw [removeTL_eq_none hmem]
    have hnone : ∀ y ∈ l, tl.thread y ≠ t :=
      fun y hy => ne_of_mem_of_not_mem (List.mem_map_of_mem hy) hmem
    unfold ThreadList.removeTL
    rw [walk_eq_none l turns none tl.head h hnone hturns]
    cases l.getLast?.or none <;> rfl

/-- Threads 1, 2 and 3 are parked, and 2 and then 1 are removed. Neither is the newest one. -/
def newestStays : List (IdleAct Nat) := [.add 1, .add 2, .add 3, .remove 2, .remove 1]

/-- A list with an entry `10` for thread 1 behind an entry `20` for thread 2. -/
def twoEntries : ThreadList Nat Nat :=
  (ThreadList.pushTL ⟨fun _ => none, fun _ => 0, fun _ => false, none⟩ 10 1).pushTL 20 2

/-- What `twoEntries` spells. -/
theorem spelled_twoEntries : Spelled twoEntries.next twoEntries.head ([20] ++ 10 :: []) :=
  Spelled.cons (Spelled.cons spelled_nil (by simp)) (by decide)

/-- A parking that keeps its list, and a removal that loses nothing. -/
theorem remove_only_newestStays :
    (∃ s, run Parking.step (Parking.initial Nat) newestStays = some s ∧ s.parked = [3] ∧ s.Kept) ∧
    ∃ tl, twoEntries.removeTL 3 1 = .returns tl ∧ Spelled tl.next tl.head [20] := by
  constructor
  · have hok : RunUnder Parking.step Parking.NotFirst (Parking.initial Nat) newestStays := by
      decide
    have h : (run Parking.step (Parking.initial Nat) newestStays).map Parking.parked =
        some [3] := by
      decide
    obtain ⟨s, hrun, hs⟩ := Option.map_eq_some_iff.mp h
    exact ⟨s, hrun, hs, (remove_only (N := Nat)).2.2 newestStays s hok hrun⟩
  · obtain ⟨tl, htl, hspell, _⟩ := ((remove_only (T := Nat)).2.1 twoEntries [20] [] 10
      spelled_twoEntries (by decide) 3 (by decide)).mpr (by decide)
    exact ⟨tl, htl, hspell⟩

/-- Threads 1 and 2 are parked, and thread 2 is removed. -/
def newestLeaves : List (IdleAct Nat) := [.add 1, .add 2, .remove 2]

/-- Thread 1 is gone from the idle queue with thread 2. In the same way, `removeTL` of the
thread in front drops the entry behind it, which is not freed. -/
theorem remove_drops_others :
    (∃ s, run Parking.step (Parking.initial Nat) newestLeaves = some s ∧ s.parked = [1] ∧
      s.que.idleThreads = none) ∧
    ∃ tl, twoEntries.removeTL 3 2 = .returns tl ∧ tl.head = none ∧ tl.live 10 = true := by
  constructor
  · have h : (run Parking.step (Parking.initial Nat) newestLeaves).map
        (fun s => (s.parked = [1] ∧ s.que.idleThreads = none : Bool)) = some true := by
      decide
    obtain ⟨s, hrun, hs⟩ := Option.map_eq_some_iff.mp h
    exact ⟨s, hrun, of_decide_eq_true hs⟩
  · exact ⟨_, rfl, rfl, rfl⟩

end Stacklets.SingleCore

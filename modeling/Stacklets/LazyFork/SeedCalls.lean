import Mathlib.Data.List.Perm.Subperm
import Stacklets.LazyFork.SeedStack
import Stacklets.Lib.Objects
import Stacklets.Util.Numerals

/-!
# `Stacklets.LazyFork.SeedCalls`: a seed queue under any sequence of calls

Thieves and parents release seeds in an order that has nothing to do with the order in which they
were pushed. `SeedHistory` says what the queue holds: the pushed seeds in the order of the pushes,
minus the released ones. `initSeed` gives a seed that is not allocated, `pushSeed` may be called
once with it, and `releaseSeed` with a seed that is linked. The functions are the same in
`compiler/v3` and `compiler/uli`, except for the locks, which are left out here.

* `seedQueue_refines`: after any such sequence of calls, `next` and `prev` visit these seeds in
  opposite orders, and `peekSeed` and `checkSeedQue` return the oldest one.
-/

set_option autoImplicit false

namespace Stacklets.LazyFork

open Function (update update_self update_of_ne)
open Lib

/-- A call of a function of `seedStack.c`. -/
inductive SeedOp (α L S : Type*)
  /-- `seed` is the address that `calloc` gives. -/
  | initSeed (seed : α) (adr : L) (sp : S)
  | pushSeed (seed : α)
  | releaseSeed (seed : α)
  | peekSeed
  | checkSeedQue

section
variable {α L S : Type*}

/-- `peekSeed`. The second test, with the lock, finds what the first one has found. -/
def peekSeed (Q : SeedQueue α) : Option α :=
  match Q.front with
  | none => none
  | some seed => some seed

/-- `checkSeedQue`. -/
def checkSeedQue (Q : SeedQueue α) : Option α := Q.front

/-- The memory of the seeds, and one queue. -/
structure SeedState (α L S : Type*) where
  heap : α → Seed α L S
  queue : SeedQueue α

/-- `seedStackInit`, with any memory. -/
def SeedState.initial (heap : α → Seed α L S) : SeedState α L S := ⟨heap, SeedQueue.empty⟩

/-- The calls so far, and which seeds are allocated. -/
structure SeedHistory (α : Type*) where
  pushed : List α
  released : List α
  /-- The seeds of `initSeed` that have not been pushed. -/
  fresh : α → Bool
  allocated : α → Bool

/-- The history of a queue that `seedStackInit` has set up. -/
def SeedHistory.initial (heap : α → Seed α L S) : SeedHistory α :=
  ⟨[], [], fun _ => false, fun x => (heap x).live⟩

variable [DecidableEq α]

/-- One call, with what it returns. -/
def SeedState.call (s : SeedState α L S) : SeedOp α L S → Option (Option α × SeedState α L S)
  | .initSeed seed adr sp =>
    if (s.heap seed).live then none
    else some (some seed, { s with heap := update s.heap seed (initSeed adr sp) })
  | .pushSeed seed =>
    let r := pushSeed s.heap s.queue seed
    some (none, ⟨r.1, r.2⟩)
  | .releaseSeed seed =>
    let r := releaseSeed s.heap s.queue seed
    some (none, ⟨r.1, r.2⟩)
  | .peekSeed => some (peekSeed s.queue, s)
  | .checkSeedQue => some (checkSeedQue s.queue, s)

namespace SeedHistory

/-- The pushed seeds in the order of the pushes, minus the released ones. A seed can be pushed
again at the same address once it is released, and then it is the earlier one that is gone. -/
def linked (h : SeedHistory α) : List α := h.pushed.diff h.released

/-- What a call returns and records. It is `none` for a call that is not allowed. -/
def call (h : SeedHistory α) : SeedOp α L S → Option (Option α × SeedHistory α)
  | .initSeed seed _ _ =>
    if h.allocated seed then none
    else some (some seed, { h with
      fresh := update h.fresh seed true
      allocated := update h.allocated seed true })
  | .pushSeed seed =>
    if h.fresh seed then
      some (none, { h with
        pushed := h.pushed ++ [seed], fresh := update h.fresh seed false })
    else none
  | .releaseSeed seed =>
    if seed ∈ h.linked then
      some (none, { h with
        released := h.released ++ [seed]
        allocated := update h.allocated seed false })
    else none
  | .peekSeed => some (h.linked.head?, h)
  | .checkSeedQue => some (h.linked.head?, h)

end SeedHistory

/-! ### The list of the linked seeds -/

/-- A push behind the releases of earlier pushes. -/
theorem diff_append_singleton {l r : List α} (x : α) (h : r.Subperm l) :
    (l ++ [x]).diff r = l.diff r ++ [x] := by
  induction r generalizing l with
  | nil => rfl
  | cons a r ih =>
    have hmem : a ∈ l := h.subset List.mem_cons_self
    have hrest : r.Subperm (l.erase a) := by simpa using h.erase a
    rw [List.diff_cons, List.diff_cons, List.erase_append_left _ hmem]
    exact ih hrest

/-- The memory and the queue are as the history says. -/
structure SeedState.Holds (s : SeedState α L S) (h : SeedHistory α) : Prop where
  /-- What was pushed is released or linked. -/
  split : h.pushed.Perm (h.released ++ h.linked)
  represents : s.queue.Represents s.heap h.linked
  live : ∀ x, (s.heap x).live = h.allocated x
  allocated : ∀ x ∈ h.linked, h.allocated x = true
  fresh : ∀ x, h.fresh x = true → h.allocated x = true ∧ x ∉ h.linked ∧
    (s.heap x).prev = none ∧ (s.heap x).next = none

variable {s : SeedState α L S} {h h' : SeedHistory α} {x : α} {r : Option α}

theorem SeedState.Holds.initial (heap : α → Seed α L S) :
    (SeedState.initial heap).Holds (SeedHistory.initial heap) where
  split := .refl _
  represents := represents_empty heap
  live _ := rfl
  allocated := nofun
  fresh := nofun

theorem SeedState.Holds.peekSeed (hs : s.Holds h) :
    LazyFork.peekSeed s.queue = h.linked.head? := by
  rw [LazyFork.peekSeed, ← hs.represents.front_eq]
  cases s.queue.front <;> rfl

/-- A new seed is not linked, and has no links. -/
theorem SeedState.Holds.initSeed (hs : s.Holds h) (adr : L) (sp : S)
    (hx : h.allocated x = false) :
    SeedState.Holds { s with heap := update s.heap x (LazyFork.initSeed adr sp) } { h with
      fresh := update h.fresh x true
      allocated := update h.allocated x true } := by
  -- the linked and the fresh seeds are allocated, so none of them is the new one
  have hne : ∀ y, h.allocated y = true → y ≠ x := by
    rintro y hy rfl
    rw [hx] at hy
    cases hy
  have hheap : ∀ y, y ≠ x →
      update s.heap x (LazyFork.initSeed adr sp) y = s.heap y := fun y hy =>
    update_of_ne hy _ _
  refine ⟨hs.split, ?_, fun y => ?_, fun y hy => ?_, fun y hy => ?_⟩
  · have hsame := fun y hy => hheap y (hne y (hs.allocated y hy))
    exact IsDList.congr hs.represents (fun y hy => congrArg Seed.prev (hsame y hy))
      fun y hy => congrArg Seed.next (hsame y hy)
  · show (update s.heap x _ y).live = update h.allocated x true y
    by_cases hyx : y = x
    · rw [hyx, update_self, update_self]
      rfl
    · rw [hheap y hyx, update_of_ne hyx]
      exact hs.live y
  · show update h.allocated x true y = true
    have hold : h.allocated y = true := hs.allocated y hy
    rw [update_of_ne (hne y hold)]
    exact hold
  · have hy : update h.fresh x true y = true := hy
    show update h.allocated x true y = true ∧ y ∉ h.linked ∧
      (update s.heap x _ y).prev = none ∧ (update s.heap x _ y).next = none
    by_cases hyx : y = x
    · rw [hyx, update_self, update_self]
      exact ⟨rfl, fun hmem => hne x (hs.allocated x hmem) rfl, rfl, rfl⟩
    · rw [update_of_ne hyx] at hy
      rw [hheap y hyx, update_of_ne hyx]
      exact hs.fresh y hy

/-- A fresh seed is linked behind the others. -/
theorem SeedState.Holds.pushSeed (hs : s.Holds h) (hx : h.fresh x = true) :
    SeedState.Holds ⟨(LazyFork.pushSeed s.heap s.queue x).1,
        (LazyFork.pushSeed s.heap s.queue x).2⟩
      { h with pushed := h.pushed ++ [x], fresh := update h.fresh x false } := by
  obtain ⟨halloc, hnew, hprev, hnext⟩ := hs.fresh x hx
  -- the releases so far are of earlier pushes, and take nothing of the new one
  have hsub : h.released.Subperm h.pushed :=
    ((List.sublist_append_left _ _).subperm).trans hs.split.symm.subperm
  have hlinked : (h.pushed ++ [x]).diff h.released = h.linked ++ [x] :=
    diff_append_singleton x hsub
  refine ⟨?_, ?_, fun y => ?_, fun y hy => ?_, fun y hy => ?_⟩
  · show (h.pushed ++ [x]).Perm (h.released ++ (h.pushed ++ [x]).diff h.released)
    rw [hlinked, ← List.append_assoc]
    exact hs.split.append_right [x]
  · show SeedQueue.Represents _ _ ((h.pushed ++ [x]).diff h.released)
    rw [hlinked]
    exact represents_pushSeed hs.represents hnew hprev hnext
  · have hdata := pushSeed_data s.heap s.queue x y
    exact (congrArg (fun d => d.2.2) hdata).trans (hs.live y)
  · have hy : y ∈ (h.pushed ++ [x]).diff h.released := hy
    rw [hlinked, List.mem_append, List.mem_singleton] at hy
    rcases hy with hold | rfl
    · exact hs.allocated y hold
    · exact halloc
  · have hy : update h.fresh x false y = true := hy
    have hyx : y ≠ x := by
      rintro rfl
      rw [update_self] at hy
      cases hy
    rw [update_of_ne hyx] at hy
    obtain ⟨hyalloc, hynew, hyprev, hynext⟩ := hs.fresh y hy
    show h.allocated y = true ∧ y ∉ (h.pushed ++ [x]).diff h.released ∧ _
    have hsame := pushSeed_of_notMem hs.represents hynew hyx
    rw [hlinked]
    exact ⟨hyalloc, by simp [hynew, hyx], (congrArg Seed.prev hsame).trans hyprev,
      (congrArg Seed.next hsame).trans hynext⟩

/-- A linked seed is taken out, wherever it is. -/
theorem SeedState.Holds.releaseSeed (hs : s.Holds h) (hx : x ∈ h.linked) :
    SeedState.Holds ⟨(LazyFork.releaseSeed s.heap s.queue x).1,
        (LazyFork.releaseSeed s.heap s.queue x).2⟩
      { h with
        released := h.released ++ [x]
        allocated := update h.allocated x false } := by
  have hlinked : h.pushed.diff (h.released ++ [x]) = h.linked.erase x := by
    rw [List.diff_append, List.diff_cons, List.diff_nil, SeedHistory.linked]
  -- no seed is linked twice, so the freed one is linked no more
  have hnotin : x ∉ h.linked.erase x := hs.represents.nodup.not_mem_erase
  have hne : ∀ y ∈ h.linked.erase x, y ≠ x := by
    rintro y hy rfl
    exact hnotin hy
  refine ⟨?_, ?_, fun y => ?_, fun y hy => ?_, fun y hy => ?_⟩
  · show h.pushed.Perm (h.released ++ [x] ++ h.pushed.diff (h.released ++ [x]))
    rw [hlinked, List.append_assoc]
    exact hs.split.trans ((List.perm_cons_erase hx).append_left _)
  · show SeedQueue.Represents _ _ (h.pushed.diff (h.released ++ [x]))
    rw [hlinked]
    exact represents_releaseSeed hs.represents hx
  · show _ = update h.allocated x false y
    have hdata := congrArg (fun d => d.2.2) (releaseSeed_data s.heap s.queue x y)
    refine hdata.trans ?_
    by_cases hyx : y = x
    · rw [hyx, update_self]
      exact if_pos rfl
    · rw [update_of_ne hyx]
      exact (if_neg hyx).trans (hs.live y)
  · have hy : y ∈ h.pushed.diff (h.released ++ [x]) := hy
    rw [hlinked] at hy
    show update h.allocated x false y = true
    rw [update_of_ne (hne y hy)]
    exact hs.allocated y (List.mem_of_mem_erase hy)
  · obtain ⟨hyalloc, hynew, hyprev, hynext⟩ := hs.fresh y hy
    have hyx : y ≠ x := by
      rintro rfl
      exact hynew hx
    show update h.allocated x false y = true ∧
      y ∉ h.pushed.diff (h.released ++ [x]) ∧ _
    have hsame := releaseSeed_of_notMem hs.represents hx hynew
    rw [hlinked, update_of_ne hyx]
    exact ⟨hyalloc, fun hmem => hynew (List.mem_of_mem_erase hmem),
      (congrArg Seed.prev hsame).trans hyprev, (congrArg Seed.next hsame).trans hynext⟩

/-- Each call does what the history says. -/
theorem SeedState.Holds.call (hs : s.Holds h) (op : SeedOp α L S)
    (hop : h.call op = some (r, h')) : ∃ s', s.call op = some (r, s') ∧ s'.Holds h' := by
  cases op with
  | initSeed seed adr sp =>
    obtain ⟨hx, heq⟩ := Option.ite_none_left_eq_some.mp hop
    cases heq
    have hx : h.allocated seed = false := by simpa using hx
    have hfree : (s.heap seed).live = false := (hs.live seed).trans hx
    exact ⟨_, by rw [SeedState.call, hfree]; rfl, hs.initSeed adr sp hx⟩
  | pushSeed seed =>
    obtain ⟨hx, heq⟩ := Option.ite_none_right_eq_some.mp hop
    cases heq
    exact ⟨_, rfl, hs.pushSeed hx⟩
  | releaseSeed seed =>
    obtain ⟨hx, heq⟩ := Option.ite_none_right_eq_some.mp hop
    cases heq
    exact ⟨_, rfl, hs.releaseSeed hx⟩
  | peekSeed =>
    cases hop
    exact ⟨s, by rw [SeedState.call, hs.peekSeed], hs⟩
  | checkSeedQue =>
    cases hop
    exact ⟨s, by rw [SeedState.call, checkSeedQue, hs.represents.front_eq], hs⟩

/-- Any sequence of calls that the history allows, on a queue that `seedStackInit` has set up in
any memory: the calls return what the history says, and at the end

- `front` and `back` are both null or both not;
- `next` from `front` and `prev` from `back` visit the linked seeds in opposite orders;
- `peekSeed` and `checkSeedQue` return the oldest linked seed. -/
theorem seedQueue_refines (heap : α → Seed α L S) {ops : List (SeedOp α L S)}
    {results : List (Option α)}
    (hops : calls SeedHistory.call (SeedHistory.initial heap) ops = some (results, h)) :
    ∃ s, calls SeedState.call (SeedState.initial heap) ops = some (results, s) ∧
      (s.queue.front = none ↔ s.queue.back = none) ∧
      Spells (fun x => (s.heap x).next) s.queue.front h.linked ∧
      Spells (fun x => (s.heap x).prev) s.queue.back h.linked.reverse ∧
      LazyFork.peekSeed s.queue = h.linked.head? ∧ checkSeedQue s.queue = h.linked.head? := by
  obtain ⟨s, hcalls, hs⟩ := calls_refines (R := SeedState.Holds)
    (fun _ _ op _ _ hs _ hop => hs.call op hop) ops (SeedState.initial heap) _ _ _
    (.initial heap) (runUnder_of_forall ops (fun _ _ _ => trivial) _) hops
  have hrep : IsDList _ _ _ _ _ := hs.represents
  exact ⟨s, hcalls, hrep.front_eq_none_iff.trans hrep.back_eq_none_iff.symm, hrep.spells_next,
    hrep.spells_prev, hs.peekSeed, hrep.front_eq⟩

end

/-- Three seeds are pushed and the middle one is released. Its memory is used again. -/
def releasesMiddle : List (SeedOp (Fin 3) Unit Unit) :=
  [.initSeed 0 () (), .pushSeed 0, .initSeed 1 () (), .initSeed 2 () (), .pushSeed 1, .pushSeed 2,
    .releaseSeed 1, .initSeed 1 () (), .peekSeed, .pushSeed 1, .releaseSeed 0]

theorem seedQueue_refines_releasesMiddle :
    ∃ s, calls SeedState.call
          (SeedState.initial fun _ : Fin 3 => ⟨(), (), none, none, false⟩) releasesMiddle =
        some ([some 0, none, some 1, some 2, none, none, none, some 1, some 0, none, none], s) ∧
      Spells (fun x => (s.heap x).next) s.queue.front [2, 1] ∧
      LazyFork.peekSeed s.queue = some 2 := by
  have h : calls SeedHistory.call
      (SeedHistory.initial fun _ : Fin 3 => (⟨(), (), none, none, false⟩ : Seed _ Unit Unit))
      releasesMiddle = some (_, ⟨[0, 1, 2, 1], [1, 0], _, _⟩) := rfl
  obtain ⟨s, hcalls, -, hnext, -, hpeek, -⟩ := seedQueue_refines _ h
  exact ⟨s, hcalls, hnext, hpeek⟩

end Stacklets.LazyFork

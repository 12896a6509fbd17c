import Mathlib.Algebra.Order.BigOperators.Group.Finset
import Stacklets.Lib.Fair
import Stacklets.Lib.Ledger
import Stacklets.LazyFork.CallTree
import Stacklets.LazyFork.Correctness

/-!
# `Stacklets.LazyFork.Termination`: `startfib` returns under every fair schedule

The other modules say what holds when `firstFork` returns. Here it is shown that it returns, on
any number of pthreads, if every pthread gets its turn again and again. Nothing more is asked of
the scheduler: the seed locks may be taken in any order, and thieves may lose every race.

A step is of one of three kinds (`Effect`):

* an event: a call, a return, a store of a result, a push, a passage of `seedStackLock(ptid)`, a
  release of a seed or a decrement. A frame has at most eight of them, and the call tree is finite;
* a quiet step, that brings the pthread closer to its next event;
* a step of the search in `suspend` that finds nothing. It changes nothing but the place of the
  pthread, and a pthread can make such steps forever.

A thief that saw a seed and finds it gone under the lock goes back to its search without an
event. Such a pthread is farther from the next event than before, so a release of a seed has to
pay for the pthreads that it disappoints. That is why an event weighs as much as the way of all
pthreads together.
-/

set_option autoImplicit false

namespace Stacklets.LazyFork

open Lib

section
variable {P : Nat} {n : Int} {s s' : State P} {φ : FooPtr → Phase P} {ρ : RootPhase P}
  {q : Tid P → List FooPtr} {t u : Tid P} {F G : FooPtr} {l : FibPC} {c : PC P}

/-! ### The rank of a state -/

/-- The number of events of a frame so far. -/
def Tally.events (k : Tally) : Nat :=
  k.calls + k.writes + k.returns + k.pushes + k.passes + k.parentReleases + k.thiefReleases +
    k.decrements

/-- An upper bound for the steps up to the next event, in the code of a frame. -/
def FibPC.distance : FibPC → Nat
  | .start => 4
  | .initSeed => 3
  | .pushLock => 2
  | .leaf | .pushLink => 1
  | .setReturnAdr => 3
  | .pushUnlock => 2
  | .callA => 1
  | .lockPtid => 4
  | .gotoReturnAdr => 3
  | .firstChildDone => 2
  | .firstChildDoneNormally | .firstDecrement => 1
  | .unlockNormally => 2
  | .callB => 1
  | .secondChildSteal => 5
  | .setSyncCounter => 4
  | .stackletForkStub => 3
  | .secondChildDone | .sum | .allReturned | .ret => 1
  | .suspendStub => 5

/-- The way back of a pthread in `peekSeed` if its victim has no seed left. -/
def detour (s : State P) (t : Tid P) (k : Search) : Nat :=
  if (s.seedStacks (k.victim t)).front = none then 4 else 0

/-- An upper bound for the steps up to the next event or back into the search. -/
def PC.distance (s : State P) (t : Tid P) : PC P → Nat
  | .firstFork => 3
  | .stackletFork _ _ _ _ => 2
  | .newStacklet _ _ _ => 1
  | .fib _ l => l.distance
  | .stubRoutine _ => 3
  | .finishStubRoutine _ => 2
  | .peek _ => 4
  | .peekLock k => 3 + detour s t k
  | .peekAgain k => 2 + detour s t k
  | .peekUnlock _ => 5
  | .takeSeed _ _ => 1
  | .readyQ => 4
  | .returned | .assertFailed | .wild => 0

/-- The places of a pthread that looks for work and has not seen any. -/
def PC.Searching : PC P → Prop
  | .peek _ => True
  | .readyQ => True
  | _ => False

/-- The events that are still to come. -/
def eventsLeft (n : Int) (s : State P) : Nat := ∑ F ∈ callTree n, (8 - (s.tally F).events)

/-- The rank: an event weighs as much as the way of all pthreads together. -/
def rank (n : Int) (s : State P) : Nat :=
  8 * (P + 1) * eventsLeft n s + total (fun t c => c.distance s t) s.pc

theorem FibPC.distance_le (l : FibPC) : l.distance ≤ 5 := by
  cases l <;> decide

theorem PC.distance_le (s : State P) (t : Tid P) (c : PC P) : c.distance s t ≤ 7 := by
  have hdetour : ∀ k, detour s t k ≤ 4 := fun k => by
    unfold detour
    split <;> omega
  cases c with
  | fib F l => exact Nat.le_trans l.distance_le (by omega)
  | peekLock k | peekAgain k =>
    have := hdetour k
    simp only [PC.distance]
    omega
  | _ => simp [PC.distance]

/-! ### The three kinds of steps -/

/-- What a step of `t` does to the rank. -/
inductive Effect (t : Tid P) (s s' : State P) : Prop
  /-- An event of the frame `F`. -/
  | event (F : FooPtr) (hF : (s.tally F).events < (s'.tally F).events)
      (hothers : ∀ G, G ≠ F → s'.tally G = s.tally G)
  /-- The pthread comes closer to its next event. -/
  | quiet (c : PC P) (hpc : s'.pc = Function.update s.pc t c) (htally : s'.tally = s.tally)
      (hqueues : s'.seedStacks = s.seedStacks) (hlt : c.distance s t < (s.pc t).distance s t)
  /-- The search goes on. -/
  | search (c : PC P) (hpc : (s.pc t).Searching) (hc : c.Searching) (hs' : s' = s.goto t c)

/-- An event of one frame. -/
theorem Effect.count {f : Tally → Tally} (hf : (s.tally F).events < (f (s.tally F)).events)
    (htally : s'.tally = Function.update s.tally F (f (s.tally F))) : Effect t s s' :=
  .event F (by rw [htally, Function.update_self]; exact hf) fun G hG => by
    rw [htally, Function.update_of_ne hG]

/-- A step that only moves the pthread. -/
theorem Effect.goto (hlt : c.distance s t < (s.pc t).distance s t) : Effect t s (s.goto t c) :=
  .quiet c rfl rfl rfl hlt

/-- A step that takes a lock, or fails its assertion. -/
theorem Effect.seedStackLock {x : Tid P} (hlt : c.distance s t < (s.pc t).distance s t)
    (hs : s.seedStackLock t x c = some s') : Effect t s s' := by
  obtain ⟨r, -, rfl⟩ := Option.map_eq_some_iff.mp hs
  cases r with
  | done m => exact .quiet c rfl rfl rfl hlt
  | assertFailed => exact .quiet .assertFailed rfl rfl rfl (Nat.zero_lt_of_lt hlt)

/-- A step that releases a lock, or fails its assertion. -/
theorem Effect.seedStackUnlock (x : Tid P) (hlt : c.distance s t < (s.pc t).distance s t) :
    Effect t s (s.seedStackUnlock t x c) := by
  unfold State.seedStackUnlock
  cases mySpinUnlock (s.seedStackLocks x) t with
  | done m => exact .quiet c rfl rfl rfl hlt
  | assertFailed => exact .quiet .assertFailed rfl rfl rfl (Nat.zero_lt_of_lt hlt)

/-- The search goes on behind `getSeedIfAvailableFrom`. -/
theorem Search.next_searching (k : Search) : (k.next : PC P).Searching := by
  match k with
  | .own | .scan 0 | .scan 1 | .scan 2 => trivial

theorem PC.Searching.distance (h : c.Searching) : c.distance s t = 4 := by
  cases c with
  | peek | readyQ => rfl
  | _ => cases h

/-- The jump behind `seedStackLock(ptid)` goes to one of the two labels for the first child. -/
theorem Follows.firstChildReturnAdr (h : Follows n s φ ρ q)
    (hpc : s.pc t = .fib F .gotoReturnAdr) :
    (s.frames F).firstChildReturnAdr = some .firstChildDoneNormally ∨
      (s.frames F).firstChildReturnAdr = some .firstChildDone := by
  obtain ⟨y, hp⟩ : ∃ y, φ F = .both (.code t .gotoReturnAdr) y := h.place hpc (by simp)
  have hframe := (h.nodes F).frame
  rw [hp] at hframe
  rw [hframe.1]
  cases y with
  | seed => exact .inl rfl
  | steal v l => cases l <;> simp
  | _ => exact .inr rfl

/-- The kind of a step in the code of `fib`. -/
theorem Follows.fibStep_effect (h : Follows n s φ ρ q) (hpc : s.pc t = .fib F l)
    (hs : fibStep s t F l = some s') : Effect t s s' := by
  have hlt : ∀ m : FibPC, m.distance < l.distance →
      (PC.fib F m : PC P).distance s t < (s.pc t).distance s t := fun m hm => by
    rw [hpc]
    exact hm
  cases l with
  -- the quiet steps: each goes to a place of smaller distance
  | start =>
    simp only [fibStep] at hs
    split at hs <;> cases hs
    · exact .goto (hlt _ (by decide))
    · exact .quiet (.fib F .initSeed) rfl rfl rfl (hlt _ (by decide))
  | initSeed =>
    cases hs
    exact .quiet (.fib F .pushLock) rfl rfl rfl (hlt _ (by decide))
  | pushLock => exact .seedStackLock (hlt _ (by decide)) hs
  | setReturnAdr =>
    cases hs
    exact .quiet (.fib F .pushUnlock) rfl rfl rfl (hlt _ (by decide))
  | pushUnlock =>
    cases hs
    exact .seedStackUnlock t (hlt _ (by decide))
  | gotoReturnAdr =>
    rcases h.firstChildReturnAdr hpc with hadr | hadr <;> rw [fibStep, hadr] at hs <;> cases hs
    · exact .goto (hlt _ (by decide))
    · exact .goto (hlt _ (by decide))
  | unlockNormally | firstChildDone =>
    cases hs
    exact .seedStackUnlock _ (hlt _ (by decide))
  | secondChildSteal =>
    cases hs
    exact .quiet (.fib F .setSyncCounter) rfl rfl rfl (hlt _ (by decide))
  | setSyncCounter =>
    cases hs
    exact .quiet (.fib F .stackletForkStub) rfl rfl rfl (hlt _ (by decide))
  | stackletForkStub =>
    cases hs
    exact .goto (by rw [hpc]; exact Nat.lt_succ_self 2)
  | suspendStub =>
    cases hs
    exact .goto (by rw [hpc]; exact Nat.lt_succ_self 4)
  -- the events: each adds to the tally of one frame
  | leaf | sum | allReturned =>
    cases hs
    exact .count (F := F) (f := fun k => { k with writes := k.writes + 1 })
      (by simp only [Tally.events]; omega) rfl
  | pushLink =>
    cases hs
    exact .count (F := F) (f := fun k => { k with pushes := k.pushes + 1 })
      (by simp only [Tally.events]; omega) rfl
  | callA =>
    cases hs
    exact .count (F := .a F) (f := fun k => { k with calls := k.calls + 1 })
      (by simp only [Tally.events]; omega) rfl
  | callB =>
    cases hs
    exact .count (F := .b F) (f := fun k => { k with calls := k.calls + 1 })
      (by simp only [Tally.events]; omega) rfl
  | lockPtid =>
    -- the passage is counted whether the lock is taken or the assertion fails
    obtain ⟨r, -, rfl⟩ := Option.map_eq_some_iff.mp hs
    cases r <;>
      exact .count (F := F) (f := fun k => { k with passes := k.passes + 1 })
        (by simp only [Tally.events]; omega) rfl
  | firstChildDoneNormally =>
    cases hs
    exact .count (F := F) (f := fun k => { k with parentReleases := k.parentReleases + 1 })
      (by simp only [Tally.events]; omega) rfl
  | firstDecrement | secondChildDone =>
    cases hs
    unfold State.decrement
    dsimp only
    -- the decrement to zero is the join of the frame as well
    split
    · exact .count (F := F) (f := fun k => { k with decrements := k.decrements + 1 })
        (by simp only [Tally.events]; omega) rfl
    · exact .count (F := F)
        (f := fun k => { k with decrements := k.decrements + 1, joins := k.joins + 1 })
        (by simp only [Tally.events]; omega) (by simp)
  | ret =>
    cases hs
    exact .count (F := F) (f := fun k => { k with returns := k.returns + 1 })
      (by simp only [Tally.events]; omega) rfl

/-- The stub of a stacklet that is done leads back to `firstFork` or to `SecondChildDone`. -/
theorem Follows.jump_finish (h : Follows n s φ ρ q) (hpc : s.pc t = .finishStubRoutine F) :
    (jump (s.stubs F).parentSP (s.stubs F).parentPC : PC P).distance s t ≤ 1 := by
  have hfork : forkOf φ ρ F = some (.finish t) :=
    (h.control.token t (.finish F)).mpr (by simp [hpc])
  rw [h.edges.stub F _ hfork (by simp)]
  cases F <;> simp [jump, PC.distance, FibPC.distance]

/-- The kind of every step. -/
theorem Follows.effect (h : Follows n s φ ρ q) (hs : step s t = some s') : Effect t s s' := by
  cases hpc : s.pc t with
  | fib F l => exact h.fibStep_effect hpc (by rw [← hs, step, hpc])
  | firstFork =>
    rw [step, hpc] at hs
    exact .seedStackLock (by rw [hpc]; exact Nat.lt_succ_self 2) hs
  | stackletFork lab sp arg x =>
    rw [step, hpc] at hs
    cases hs
    exact .seedStackUnlock x (by rw [hpc]; exact Nat.one_lt_two)
  | newStacklet lab sp arg =>
    rw [step, hpc] at hs
    cases hs
    exact .count (F := arg) (f := fun k => { k with calls := k.calls + 1 })
      (by simp only [Tally.events]; omega) rfl
  | stubRoutine S =>
    rw [step, hpc] at hs
    cases hs
    exact .goto (by rw [hpc]; exact Nat.lt_succ_self 2)
  | finishStubRoutine S =>
    have hjump := h.jump_finish hpc
    rw [step, hpc] at hs
    cases hs
    refine .goto ?_
    rw [hpc]
    exact Nat.lt_of_le_of_lt hjump Nat.one_lt_two
  | peek k =>
    rw [step, hpc] at hs
    dsimp only at hs
    cases hfront : (s.seedStacks (k.victim t)).front with
    | none =>
      -- nothing in sight: the step that can be repeated forever
      rw [hfront] at hs
      cases hs
      exact .search k.next (by rw [hpc]; trivial) k.next_searching rfl
    | some seed =>
      rw [hfront] at hs
      cases hs
      exact .goto (by simp [hpc, PC.distance, detour, hfront])
  | peekLock k =>
    rw [step, hpc] at hs
    exact .seedStackLock (by rw [hpc]; simp only [PC.distance]; omega) hs
  | peekAgain k =>
    rw [step, hpc] at hs
    dsimp only at hs
    cases hfront : (s.seedStacks (k.victim t)).front with
    | none =>
      -- the seed is gone, and `detour` has paid for the way back
      rw [hfront] at hs
      cases hs
      exact .goto (by simp [hpc, PC.distance, detour, hfront])
    | some seed =>
      rw [hfront] at hs
      cases hs
      exact .goto (by simp [hpc, PC.distance, detour, hfront])
  | peekUnlock k =>
    rw [step, hpc] at hs
    cases hs
    refine .seedStackUnlock _ ?_
    rw [hpc, k.next_searching.distance]
    exact Nat.lt_succ_self 4
  | takeSeed k seed =>
    rw [step, hpc] at hs
    cases hs
    exact .count (F := seed) (f := fun k => { k with thiefReleases := k.thiefReleases + 1 })
      (by simp only [Tally.events]; omega) rfl
  | readyQ =>
    rw [step, hpc] at hs
    dsimp only at hs
    -- only `yield` would put something there
    rw [h.queues.readyQ] at hs
    cases hs
    exact .search (.peek (.scan 0)) (by rw [hpc]; trivial) trivial rfl
  | returned | assertFailed | wild => simp [step, hpc] at hs

/-! ### What each kind does to the rank -/

/-- A frame has at most eight events. -/
theorem Follows.events_le (h : Follows n s φ ρ q) (F : FooPtr) : (s.tally F).events ≤ 8 := by
  rw [(h.nodes F).tally]
  have hret : ∀ l, atRet l ≤ 1 := fun l => by
    unfold atRet
    split <;> omega
  cases hp : φ F with
  | pre t l =>
    have := hret l
    simp only [Phase.tally, Tally.events]
    split <;> omega
  | both x y =>
    have hv := (h.nodes F).valid
    rw [hp] at hv
    -- one call, one push, one passage, one theft and two decrements
    obtain ⟨-, htwo, -, -⟩ := hv.tally
    have hpass : x.passes ≤ 1 := by
      cases x with
      | code t l => cases l <;> simp
      | _ => simp
    have hsteal : y.steals ≤ 1 := by cases y <;> simp
    simp only [Phase.tally, Tally.events] at htwo ⊢
    omega
  | normal t l | joined t l =>
    have := hret l
    simp only [Phase.tally, Tally.events]
    omega
  | finished how => cases how <;> simp [Tally.events]
  | idle | inB => simp [Tally.events]

theorem Phase.inner_of_statusA {p : Phase P} (h : p.statusA ≠ .idle) : p.Inner := by
  cases p with
  | finished how => cases how <;> simp at h ⊢
  | _ => simp at h ⊢

theorem Phase.inner_of_statusB {p : Phase P} (h : p.statusB ≠ .idle) : p.Inner := by
  cases p with
  | finished how => cases how <;> simp at h ⊢
  | _ => simp at h ⊢

/-- A frame that has been called is a node of the call tree. -/
theorem Follows.inTree (h : Follows n s φ ρ q) (hF : φ F ≠ .idle) : InTree n F := by
  -- the caller of a frame knows that it has been called, so the caller is an inner node
  have hcalled : ∀ G, φ G ≠ .idle → statusIn φ ρ G ≠ .idle := fun G hG hidle =>
    hG (Phase.eq_idle ((h.edges.status G).trans hidle))
  have hinner : ∀ G, (φ G).Inner → φ G ≠ .idle ∧ 2 < inputOf n G := fun G hG =>
    ⟨fun hidle => by simp [hidle] at hG, (h.nodes G).inner hG⟩
  induction F with
  | root => exact .root
  | a F ih =>
    obtain ⟨hF', hn⟩ := hinner F (Phase.inner_of_statusA (hcalled _ hF))
    exact .a (ih hF') hn
  | b F ih =>
    obtain ⟨hF', hn⟩ := hinner F (Phase.inner_of_statusB (hcalled _ hF))
    exact .b (ih hF') hn

/-- The pthreads together are at most seven steps each away from their next events. -/
theorem total_distance_le (s : State P) :
    total (fun t c => c.distance s t) s.pc ≤ 7 * (P + 1) := by
  have hle := Finset.sum_le_card_nsmul Finset.univ (fun t => (s.pc t).distance s t) 7
    fun t _ => PC.distance_le s t (s.pc t)
  rw [Finset.card_fin, smul_eq_mul, Nat.mul_comm] at hle
  exact hle

/-- An event leaves fewer events to come. -/
theorem Follows.eventsLeft_lt (h : Follows n s' φ ρ q)
    (hF : (s.tally F).events < (s'.tally F).events)
    (hothers : ∀ G, G ≠ F → s'.tally G = s.tally G) : eventsLeft n s' < eventsLeft n s := by
  have hmem : F ∈ callTree n := by
    rw [mem_callTree]
    refine h.inTree fun hidle => ?_
    rw [(h.nodes F).tally, hidle] at hF
    simp [Tally.events] at hF
  have hle := h.events_le F
  refine Finset.sum_lt_sum (fun G _ => ?_) ⟨F, hmem, by omega⟩
  by_cases hG : G = F
  · rw [hG]
    omega
  · rw [hothers G hG]

/-- Every step lowers the rank, except those of the search that find nothing. -/
theorem rank_step (hi : Inv n s) (hs : step s t = some s') :
    rank n s' < rank n s ∨
      ∃ c : PC P, (s.pc t).Searching ∧ c.Searching ∧ s' = s.goto t c := by
  obtain ⟨φ', ρ', q', h'⟩ := inv_step hi hs
  obtain ⟨φ, ρ, q, h⟩ := hi
  rcases h.effect hs with ⟨F, hF, hothers⟩ | ⟨c, hpc, htally, hqueues, hlt⟩ | ⟨c, hpc, hc, hs'⟩
  · -- however far the pthreads are from their next events now, the event outweighs it
    have hlt := h'.eventsLeft_lt hF hothers
    have hfar := total_distance_le s'
    have hpay : 8 * (P + 1) * (eventsLeft n s' + 1) ≤ 8 * (P + 1) * eventsLeft n s :=
      Nat.mul_le_mul_left _ hlt
    refine .inl ?_
    unfold rank
    rw [Nat.mul_add, Nat.mul_one] at hpay
    omega
  · -- the queues have not changed, so the other pthreads are as far from their events as before
    have hdist : ∀ (u : Tid P) (c : PC P), c.distance s' u = c.distance s u := fun u c => by
      cases c <;> simp only [PC.distance, detour, hqueues]
    have hbalance := total_update (w := fun u (c : PC P) => c.distance s u) (c := s.pc) (t := t)
      (a := c)
    refine .inl ?_
    simp only [rank, eventsLeft, hdist, htally, hpc]
    omega
  · exact .inr ⟨c, hpc, hc, hs'⟩

theorem rank_step_le (hi : Inv n s) (hs : step s t = some s') : rank n s' ≤ rank n s := by
  rcases rank_step hi hs with hlt | ⟨c, hpc, hc, rfl⟩
  · exact Nat.le_of_lt hlt
  · -- the search goes from one place to another of the same distance
    have hdist : ∀ (u : Tid P) (d : PC P), d.distance (s.goto t c) u = d.distance s u :=
      fun u d => by cases d <;> rfl
    have hbalance := total_update (w := fun u (c : PC P) => c.distance s u) (c := s.pc) (t := t)
      (a := c)
    rw [hpc.distance, hc.distance] at hbalance
    have hleft : eventsLeft n (s.goto t c) = eventsLeft n s := rfl
    simp only [rank, hdist, hleft]
    show _ + total _ (Function.update s.pc t c) ≤ _
    omega

/-! ### A pthread that can go on -/

/-- Where a pthread has nothing left to do. -/
def PC.Stopped (c : PC P) : Prop := c = .returned ∨ c = .assertFailed ∨ c = .wild

theorem seedStackLock_eq_none {x : Tid P} :
    s.seedStackLock t x c = none ↔ ∃ o, s.seedStackLocks x = some o ∧ o ≠ t := by
  unfold State.seedStackLock
  rw [Option.map_eq_none_iff]
  cases s.seedStackLocks x with
  | none => simp
  | some o => by_cases ho : o = t <;> simp [ho]

/-- A pthread waits only for a lock. -/
theorem step_eq_none_iff : step s t = none ↔ (s.pc t).Stopped ∨
    ∃ x o, (s.pc t).locks s t = some x ∧ s.seedStackLocks x = some o ∧ o ≠ t := by
  unfold step
  cases s.pc t with
  | fib F l =>
    cases l with
    | start | gotoReturnAdr =>
      simp only [fibStep]
      split <;> simp [PC.locks, PC.Stopped]
    | _ => simp [fibStep, PC.locks, PC.Stopped, seedStackLock_eq_none]
  | peek k | peekAgain k | readyQ =>
    dsimp only
    split <;> simp [PC.locks, PC.Stopped]
  | _ => simp [PC.locks, PC.Stopped, seedStackLock_eq_none]

/-- A pthread that can do something else than to go on with its search. -/
def Helpful (s : State P) (t : Tid P) : Prop := ¬ (s.pc t).Searching ∧ step s t ≠ none

/-- The search of another pthread does not make a pthread wait. -/
theorem Helpful.goto (h : Helpful s t) (hu : u ≠ t) (c : PC P) : Helpful (s.goto u c) t := by
  have hpc : (s.goto u c).pc t = s.pc t := Function.update_of_ne hu.symm _ _
  have hlocks : ∀ d : PC P, d.locks (s.goto u c) t = d.locks s t := fun d => by
    cases d with
    | fib F l => cases l <;> rfl
    | _ => rfl
  refine ⟨by rw [hpc]; exact h.1, fun hnone => h.2 ?_⟩
  rw [step_eq_none_iff, hpc, hlocks] at hnone
  rw [step_eq_none_iff]
  exact hnone

/-- Whoever holds a lock can go on. -/
theorem Follows.helpful_of_holds {x : Tid P} (h : Follows n s φ ρ q)
    (hx : s.seedStackLocks x = some t) : Helpful s t := by
  rw [h.locks] at hx
  refine ⟨fun hsearch => ?_, fun hnone => ?_⟩
  · -- the search holds no lock
    cases hpc : s.pc t with
    | peek k | readyQ => simp [hpc] at hx
    | _ => simp [hpc, PC.Searching] at hsearch
  · rcases step_eq_none_iff.mp hnone with (hpc | hpc | hpc) | ⟨y, o, hy, -, -⟩
    · simp [hpc] at hx
    · simp [hpc] at hx
    · simp [hpc] at hx
    · -- nobody asks for a second lock
      cases hpc : s.pc t with
      | fib F l => cases l <;> simp [hpc, PC.locks] at hx hy
      | _ => simp [hpc, PC.locks] at hx hy

/-- A pthread that the phases account for can go on, or somebody else can. -/
theorem Follows.helpful_of_token {τ : Token} (h : Follows n s φ ρ q)
    (hτ : (s.pc t).token = some τ) (hret : s.pc t ≠ .returned) : ∃ u, Helpful s u := by
  have hsearch : ¬ (s.pc t).Searching := fun hsearch => by
    cases hpc : s.pc t with
    | peek k | readyQ => simp [hpc] at hτ
    | _ => simp [hpc, PC.Searching] at hsearch
  by_cases hnone : step s t = none
  · rcases step_eq_none_iff.mp hnone with (hpc | hpc | hpc) | ⟨x, o, -, ho, -⟩
    · exact absurd hpc hret
    · simp [hpc] at hτ
    · simp [hpc] at hτ
    · -- it waits for the lock of `o`
      exact ⟨o, h.helpful_of_holds ho⟩
  · exact ⟨t, hsearch, hnone⟩

/-- A live frame has a pthread in its code, in that of a frame below it, or between the two. The
induction goes down the call tree. -/
theorem Follows.exists_token (h : Follows n s φ ρ q) (hF : (φ F).status = .active) :
    ∃ t τ, HasToken φ ρ t τ := by
  have hdown : ∀ G, (φ G).Inner → 2 < inputOf n G := fun G => (h.nodes G).inner
  generalize hk : (inputOf n F).toNat = k
  induction k using Nat.strongRecOn generalizing F with
  | ind k ih =>
    have hchild : ∀ G, (φ F).Inner → G = .a F ∨ G = .b F → statusIn φ ρ G = .active →
        ∃ t τ, HasToken φ ρ t τ := by
      intro G hinner hG hstatus
      have hlt := hdown F hinner
      refine ih (inputOf n G).toNat ?_ ((h.edges.status G).trans hstatus) rfl
      rcases hG with rfl | rfl <;> simp only [inputOf] <;> omega
    have hv := (h.nodes F).valid
    cases hp : φ F with
    | idle | finished how => simp [hp] at hF
    | pre t l | normal t l | joined t l =>
      refine ⟨t, .fib F l, ?_⟩
      show (φ F).At t l
      rw [hp]
      exact ⟨rfl, rfl⟩
    | inB => exact hchild (.b F) (by simp [hp]) (.inr rfl) (by simp [hp])
    | both x y =>
      have hinner : (φ F).Inner := by simp [hp]
      cases x with
      | code t l =>
        refine ⟨t, .fib F l, ?_⟩
        show (φ F).At t l
        rw [hp]
        exact .inl ⟨rfl, rfl⟩
      | running => exact hchild (.a F) hinner (.inl rfl) (by simp [hp])
      | done =>
        -- the first strand is suspended, so the second one is on its way
        have hfork : ∀ w, y = .forked w → forkOf φ ρ (.b F) = some w := fun w hy => by
          show (φ F).fork = some w
          rw [hp, hy]
          rfl
        rw [hp] at hv
        cases y with
        | seed | steal t l => exact absurd hv.1.1 id
        | done => exact absurd rfl hv.1.2
        | dec t =>
          refine ⟨t, .fib F .secondChildDone, ?_⟩
          show (φ F).At t _
          rw [hp]
          exact .inr ⟨rfl, rfl⟩
        | forked w =>
          cases w with
          | unlock t => exact absurd hv.1.1 id
          | alloc t => exact ⟨t, .alloc (.b F), hfork _ rfl⟩
          | stub t => exact ⟨t, .stub (.b F), hfork _ rfl⟩
          | finish t => exact ⟨t, .finish (.b F), hfork _ rfl⟩
          | running => exact hchild (.b F) hinner (.inr rfl) (by simp [hp])

/-- As long as `firstFork` has not returned, some pthread can do more than search. -/
theorem exists_helpful (hi : Inv n s) (hret : ∀ t, s.pc t ≠ .returned) : ∃ t, Helpful s t := by
  obtain ⟨φ, ρ, q, h⟩ := hi
  -- somebody is in `firstFork`, on the way to the first stacklet or from it, or in its frames
  have htoken : ∃ t τ, HasToken φ ρ t τ := by
    cases hρ : ρ with
    | lock => exact ⟨0, .lock, ⟨rfl, rfl⟩⟩
    | returned t => exact ⟨t, .returned, rfl⟩
    | forked w =>
      cases w with
      | unlock t => exact ⟨t, .unlock .root, rfl⟩
      | alloc t => exact ⟨t, .alloc .root, rfl⟩
      | stub t => exact ⟨t, .stub .root, rfl⟩
      | finish t => exact ⟨t, .finish .root, rfl⟩
      | running => exact hρ ▸ h.exists_token (F := .root) (by rw [h.edges.status, hρ]; rfl)
  obtain ⟨t, τ, hτ⟩ := htoken
  exact h.helpful_of_token ((h.control.token t τ).mp hτ) (hret t)

/-- The result is there when `firstFork` returns. -/
theorem Follows.output_root (h : Follows n s φ ρ q) (hret : s.pc t = .returned) :
    (s.foos .root).output = BitVec.ofNat 32 (fibValue n) := by
  have hρ : ρ = .returned t := (h.control.token t .returned).mpr (by simp [hret])
  obtain ⟨how, hroot⟩ := h.finished_of_done (by rw [hρ]; rfl) .root
  exact (h.nodes .root).output (by rw [hroot]; trivial)

/-- Under every fair schedule `firstFork` returns to `startfib(n)`, on some pthread and with the
value of the sequence at `n`. -/
theorem startfib_terminates {sched : Nat → Tid P} (hfair : Fair sched) (n : Int) :
    ∃ k t, (turns step (initial P n) sched k).pc t = .returned ∧
      ((turns step (initial P n) sched k).foos .root).output = BitVec.ofNat 32 (fibValue n) := by
  obtain ⟨k, t, hret⟩ := eventually_of_rank (Inv n) (fun s => ∃ t, s.pc t = .returned)
    Helpful (rank n) (fun _ _ _ hi hs => inv_step hi hs)
    (fun _ _ _ hi hs => rank_step_le hi hs)
    (fun s hi hdone => exists_helpful hi fun t ht => hdone ⟨t, ht⟩)
    (fun s t hi hh => by
      -- it can move, and the move is none of the search
      obtain ⟨s', hs⟩ := Option.ne_none_iff_exists'.mp hh.2
      refine ⟨s', hs, (rank_step hi hs).resolve_right ?_⟩
      rintro ⟨c, hpc, -, -⟩
      exact hh.1 hpc)
    (fun s t u s' hi hh hu hs => by
      rcases rank_step hi hs with hlt | ⟨c, -, -, rfl⟩
      · exact .inl hlt
      · exact .inr (hh.goto hu c))
    hfair (inv_initial P n)
  obtain ⟨ts, hts⟩ := exists_run_turns step (initial P n) sched k
  obtain ⟨φ, ρ, q, h⟩ := inv_run hts
  exact ⟨k, t, hret, h.output_root hret⟩

/-- The schedule that gives each pthread its turn in order. -/
def roundRobin (P : Nat) (k : Nat) : Tid P := Fin.ofNat (P + 1) k

theorem fair_roundRobin (P : Nat) : Fair (roundRobin P) := fair_ofNat (P + 1)

/-- Two pthreads that take turns finish `startfib(10)`. -/
theorem startfib_terminates_roundRobin : ∃ k t,
    (turns step (initial 1 10) (roundRobin 1) k).pc t = .returned ∧
      ((turns step (initial 1 10) (roundRobin 1) k).foos .root).output = 55 := by
  obtain ⟨k, t, hret, hout⟩ := startfib_terminates (fair_roundRobin 1) 10
  refine ⟨k, t, hret, hout.trans ?_⟩
  simp [fibValue]

end

end Stacklets.LazyFork

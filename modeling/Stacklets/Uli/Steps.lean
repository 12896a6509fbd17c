import Stacklets.Uli.Cores
import Stacklets.Uli.Places

/-!
# `Stacklets.Uli.Steps`: every step of the cores is a step of the abstract locks

`Moves` says what a step does to the places and to the locks. Each lock takes a step of the
abstract lock of `Lib.HandOff`, or stays as it is (`Refines`). There is one lemma for each kind
of step of a thread and of a handler, and `inv_step` puts them together: the code simulates
the abstract locks, as long as no waiter of one lock is taken for a waiter of another (`Ok`).
-/

set_option autoImplicit false

namespace Stacklets.Uli

open Function (update update_self)
open Lib.HandOff (Stand St Ordered Event Step)

section
variable {C K : Type*} [DecidableEq K] {d : Delivery} {s : State C K} {place : C → Place C}
  {x : C} {w : Place C} {L L' : K} {pc : MainPC C K}

/-! ### Where a core stands -/

/-- A thread there has nothing to do with a lock that it does not hold. -/
def MainPC.Quiet (pc : MainPC C K) : Prop :=
  ∀ L, pc ≠ .lockReread L true ∧ pc ≠ .lockClear L ∧ pc ≠ .lockSpin L

/-- At a quiet place only the holder stands in the lock. -/
theorem standOf_of_quiet (h : pc.Quiet) (held : Bool) :
    standOf L held pc w = if held then .inside else .absent := by
  unfold standOf
  split
  · rfl
  · split
    · exact absurd rfl (h _).1
    · exact absurd rfl (h _).2.1
    · exact absurd rfl (h _).2.2
    · rfl

/-- Who has to do with a lock holds it, has just taken it, or waits for it. -/
theorem standOf_cases {held : Bool} (h : standOf L held pc w ≠ .absent) :
    held = true ∧ standOf L held pc w = .inside ∨
    pc = .lockReread L true ∧ standOf L held pc w = .claimed ∨
    pc = .lockClear L ∧ standOf L held pc w = .entitled ∨
    pc = .lockSpin L ∧ standOf L held pc w = w.stand := by
  cases held
  case true => exact .inl ⟨rfl, rfl⟩
  case false =>
    cases pc with
    | lockSpin L' | lockClear L' => by_cases hL : L' = L <;> simp_all [standOf]
    | lockReread L' won => cases won <;> by_cases hL : L' = L <;> simp_all [standOf]
    | _ => exact absurd rfl h

omit [DecidableEq K] in
/-- Who stands behind `x` is its waiter or about to be. -/
theorem Place.before_stand (h : w.stand.before = some x) :
    w = .linked x ∨ w = .handled x .setWaiter := by
  unfold Place.stand at h
  split at h <;> simp at h <;> simp [h]

/-- Who stands behind another core waits for the lock, and is its waiter or about to be. -/
theorem before_standOf {held : Bool} (h : (standOf L held pc w).before = some x) :
    pc = .lockSpin L ∧ (w = .linked x ∨ w = .handled x .setWaiter) := by
  have hne : standOf L held pc w ≠ .absent := by
    intro h'
    simp [h'] at h
  rcases standOf_cases hne with ⟨-, h'⟩ | ⟨-, h'⟩ | ⟨-, h'⟩ | ⟨hpc, h'⟩ <;> rw [h'] at h
  · cases h
  · cases h
  · cases h
  · exact ⟨hpc, Place.before_stand h⟩

/-- Who stands behind `x` for good is its waiter. -/
theorem eq_linked_of_standOf {held : Bool} (h : standOf L held pc w = .behind x) :
    w = .linked x := by
  have hb : (standOf L held pc w).before = some x := by rw [h, Stand.before]
  obtain ⟨rfl, hw | hw⟩ := before_standOf hb
  · exact hw
  · cases held <;> simp [standOf, hw, Place.stand] at h

theorem lockSt_stand (s : State C K) (place : C → Place C) (L : K) (x : C) :
    (lockSt s place L).stand x = standOf L (s.held L x) (s.main x) (place x) := rfl

/-- The stand of a core that waits for `L`. -/
theorem stand_of_spin (h : ∀ x, s.CoreOk d x) (hx : s.main x = .lockSpin L) :
    (lockSt s place L).stand x = (place x).stand := by
  have hheld : s.held L x = false := (h x).lacks L (by rw [hx]; rfl)
  simp [lockSt, standOf, hx, hheld]

end

section
variable {C K : Type*} [DecidableEq C] [DecidableEq K] {d : Delivery} {s s' : State C K}
  {place place' : C → Place C} {a : Action C K} {b c q x y : C} {w : Place C} {L L' : K}
  {pc pc' : MainPC C K} {p : AddmeCfd C K} {l l' : AddmePC C} {fs : List (Frame C K)}

/-! ### What a step does -/

/-- The lock `L` takes a step of the abstract lock, or none. Only the hand-over store of
`addme` makes somebody join. -/
def Refines (s : State C K) (place : C → Place C) (a : Action C K) (s' : State C K)
    (place' : C → Place C) (L : K) : Prop :=
  lockSt s' place' L = lockSt s place L ∨
  ∃ e, Step (lockSt s place L) e (lockSt s' place' L) ∧
    ∀ b x, e = .join b x → a = .step b ∧ ∃ p fs, s.frames b = .addme p .setOwner :: fs

/-- What the action `a` does to the places and the locks. -/
structure Moves (s : State C K) (place : C → Place C) (a : Action C K) (s' : State C K)
    (place' : C → Place C) : Prop where
  places : PlacesOk s' place'
  refines : ∀ L, Refines s place a s' place' L
  handOver : ∀ L y b, s'.main y = .lockSpin L → place' y = .handled b .setOwner →
    s'.ownerId L = some b
  next : ∀ L c w, s'.main c = .unlockTrigger L w → s'.main w = .lockSpin L

/-- A refining step keeps the abstract lock in order. -/
theorem Refines.ordered (h : Refines s place a s' place' L) (ho : Ordered (lockSt s place L)) :
    Ordered (lockSt s' place' L) := by
  rcases h with heq | ⟨e, hstep, -⟩
  · rw [heq]
    exact ho
  · exact hstep.ordered ho

/-- A move keeps the invariant. -/
theorem Moves.inv (h : Moves s place a s' place') (hi : Inv d s place)
    (hc : ∀ x, s'.CoreOk d x) : Inv d s' place' where
  cores := hc
  places := h.places
  locks L := ⟨(h.refines L).ordered (hi.locks L).ordered, h.handOver L, h.next L⟩

/-- The lock stays as it is: the stand of `c`, which moves, does not change, nor do the others. -/
theorem Refines.same (c : C) (ho : s'.ownerId L = s.ownerId L)
    (hw : s'.written L = s.written L) (hr : s'.returned L = s.returned L)
    (hl : s'.released L = s.released L)
    (hc : (lockSt s' place' L).stand c = (lockSt s place L).stand c)
    (hst : ∀ x, x ≠ c → (lockSt s' place' L).stand x = (lockSt s place L).stand x) :
    Refines s place a s' place' L := by
  refine .inl (St.ext ho (funext fun x => ?_) hw hr hl)
  by_cases hx : x = c
  · rw [hx, hc]
  · exact hst x hx

/-- The lock takes a step that changes the stand of `c` to `v`. -/
theorem Refines.step {e : Event C} {v : Stand C}
    (hstep : Step (lockSt s place L) e ⟨s'.ownerId L,
      update (lockSt s place L).stand c v, s'.written L, s'.returned L, s'.released L⟩)
    (hc : (lockSt s' place' L).stand c = v)
    (hst : ∀ x, x ≠ c → (lockSt s' place' L).stand x = (lockSt s place L).stand x)
    (he : ∀ b x, e = .join b x → a = .step b ∧ ∃ p fs, s.frames b = .addme p .setOwner :: fs) :
    Refines s place a s' place' L := by
  refine .inr ⟨e, ?_, he⟩
  have heq : lockSt s' place' L = ⟨s'.ownerId L,
      update (lockSt s place L).stand c v, s'.written L, s'.returned L,
      s'.released L⟩ := by
    refine St.ext rfl (funext fun x => ?_) rfl rfl rfl
    by_cases hx : x = c
    · simp [hx, hc]
    · simp [hx, hst x hx]
  rw [heq]
  exact hstep

/-! ### Steps of a thread -/

/-- No thread comes to the loop of `mylock`, so no hand-over is added. -/
theorem Inv.handOver_goto (h : Inv d s place) (hpc' : ∀ L, pc' ≠ .lockSpin L) (L : K) (y b : C)
    (hy : update s.main c pc' y = .lockSpin L) (hp : place y = .handled b .setOwner) :
    s.ownerId L = some b := by
  have hyc : y ≠ c := by
    rintro rfl
    exact hpc' L (by simpa using hy)
  exact (h.locks L).handOver y b (by simpa [hyc] using hy) hp

/-- A thread comes to the loop of `mylock` or leaves it, with no hand-over to itself. -/
theorem Inv.handOver_spin (h : Inv d s place) (hw : ∀ b, w ≠ .handled b .setOwner) (L : K)
    (y b : C) (hy : update s.main c pc' y = .lockSpin L)
    (hp : update place c w y = .handled b .setOwner) : s.ownerId L = some b := by
  have hyc : y ≠ c := by
    rintro rfl
    exact hw b (by simpa using hp)
  exact (h.locks L).handOver y b (by simpa [hyc] using hy) (by simpa [hyc] using hp)

/-- No thread leaves the loop of `mylock`, so the waiters of the others still wait. -/
theorem Inv.next_goto (h : Inv d s place) (hpc : ∀ L, s.main c ≠ .lockSpin L)
    (hnext : ∀ L w, pc' = .unlockTrigger L w → s.main w = .lockSpin L) (L : K) (x w : C)
    (hx : update s.main c pc' x = .unlockTrigger L w) :
    update s.main c pc' w = .lockSpin L := by
  have hw : s.main w = .lockSpin L := by
    by_cases hxc : x = c
    · subst hxc
      exact hnext L w (by simpa using hx)
    · exact (h.locks L).next x w (by simpa [hxc] using hx)
  have hwc : w ≠ c := by
    rintro rfl
    exact hpc L hw
  simpa [hwc] using hw

/-- A thread moves between two quiet places. -/
theorem Inv.goto (h : Inv d s place) (hpc : (s.main c).Quiet) (hpc' : pc'.Quiet)
    (hcl : ∀ L, s.main c ≠ .unlockClear L ∧ pc' ≠ .unlockClear L)
    (hnext : ∀ L w, pc' = .unlockTrigger L w → s.main w = .lockSpin L) :
    Moves s place a (s.goto c pc') place where
  places := h.places.goto (fun L => ⟨(hpc L).2.2, (hpc L).2.1, (hcl L).1⟩)
    (fun L => ⟨(hpc' L).2.2, (hcl L).2⟩)
  refines L := by
    exact .same c rfl rfl rfl rfl (by simp [lockSt, standOf_of_quiet hpc, standOf_of_quiet hpc'])
      fun x hx => by simp [lockSt, hx]
  handOver := h.handOver_goto fun L => (hpc' L).2.2
  next := h.next_goto (fun L => (hpc L).2.2) hnext

/-- The compare-and-swap of `mylock` takes the lock. -/
theorem Inv.lockCas (h : Inv d s place) (hpc : s.main c = .lockCas L)
    (ho : s.ownerId L = none) :
    Moves s place a ((s.writeOwner L c).goto c (.lockReread L true)) place := by
  have hheld : s.held L c = false := (h.cores c).lacks L (by rw [hpc]; rfl)
  refine ⟨?_, fun L' => ?_, fun L' y b hy hp => ?_, ?_⟩
  · exact PlacesOk.goto (s := s.writeOwner L c) h.places (by simp [hpc]) (by simp)
  · by_cases hL : L' = L
    · subst hL
      refine .step (c := c) (e := .claim c) (v := .claimed) ?_ (by simp [lockSt, standOf, hheld])
        (fun x hx => by simp [lockSt, hx]) (by simp)
      simp only [State.goto, State.writeOwner, State.setOwner, update_self]
      exact .claim c ho (by simp [lockSt, standOf, hheld, hpc])
    · exact .same c (by simp [hL]) (by simp [hL]) rfl rfl
        (by simp [lockSt, standOf, hpc, Ne.symm hL]) fun x hx => by simp [lockSt, hx]
  · -- nobody hands over a lock without an owner
    have hold := h.handOver_goto (by simp) L' y b hy hp
    by_cases hL : L' = L
    · rw [hL, ho] at hold
      cases hold
    · simpa [hL] using hold
  · exact h.next_goto (by simp [hpc]) (by simp)

/-- `mylock` has looked whether it won: the lock takes a step and the thread goes on. -/
theorem Inv.lockReread {e : Event C} {v : Stand C} (h : Inv d s place)
    (hpc : s.main c = .lockReread L true)
    (hgo : pc' = .lockClear L ∧ v = .entitled ∨ pc' = .lockTestFree L ∧ v = .absent)
    (hstep : (lockSt s place L).stand c = .claimed → Step (lockSt s place L) e
      { lockSt s place L with stand := update (lockSt s place L).stand c v })
    (he : ∀ b x, e ≠ .join b x) : Moves s place a (s.goto c pc') place := by
  have hheld : s.held L c = false := (h.cores c).lacks L (by rw [hpc]; rfl)
  rcases hgo with ⟨rfl, rfl⟩ | ⟨rfl, rfl⟩
  all_goals
    refine ⟨h.places.goto (by simp [hpc]) (by simp), fun L' => ?_, h.handOver_goto (by simp),
      h.next_goto (by simp [hpc]) (by simp)⟩
    by_cases hL : L' = L
    · subst hL
      exact .step (c := c) (hstep (by simp [lockSt, standOf, hheld, hpc]))
        (by simp [lockSt, standOf, hheld]) (fun x hx => by simp [lockSt, hx]) (by simp [he])
    · exact .same c rfl rfl rfl rfl (by simp [lockSt, standOf, hpc, Ne.symm hL])
        fun x hx => by simp [lockSt, hx]

/-- A thread that did not win is not the owner. -/
theorem Inv.ownerId_ne (h : Inv d s place) (hpc : s.main c = .lockReread L false) :
    s.ownerId L ≠ some c := by
  intro ho
  have hheld : s.held L c = false := (h.cores c).lacks L (by rw [hpc]; rfl)
  refine (h.locks L).ordered.stand_tail_ne_absent (a := c) ho ?_
  simp [lockSt, standOf, hheld, hpc]

/-- `SENDI` in `mylock`. -/
theorem Inv.lockSend (h : Inv d s place) (hpc : s.main c = .lockSend L q) :
    Moves s place a ((s.sendI q ⟨L, c⟩).goto c (.lockSpin L))
      (update place c (.queued q)) := by
  refine ⟨h.places.lockSend hpc, fun L' => ?_, h.handOver_spin (by simp),
    h.next_goto (by simp [hpc]) (by simp)⟩
  exact .same c rfl rfl rfl rfl (by simp [lockSt, standOf, hpc, Place.stand])
    fun x hx => by simp [lockSt, hx]

/-- The loop of `mylock` ends. -/
theorem Inv.lockSpin (h : Inv d s place) (hpc : s.main c = .lockSpin L)
    (ht : s.trigger c = true) :
    Moves s place a (s.goto c (.lockClear L)) (update place c .out) := by
  have htrig : place c = .triggered := (h.places.trigger_iff hpc).mp ht
  refine ⟨h.places.lockSpin hpc ht, fun L' => ?_, h.handOver_spin (by simp), fun L' x w hx => ?_⟩
  · exact .same c rfl rfl rfl rfl (by simp [lockSt, standOf, hpc, htrig, Place.stand])
      fun x hx => by simp [lockSt, hx]
  · have hxc : x ≠ c := by
      rintro rfl
      simp at hx
    have hx' : s.main x = .unlockTrigger L' w := by simpa [hxc] using hx
    have hwc : w ≠ c := by
      -- a waiter that is about to be triggered is still linked
      rintro rfl
      have hwait : s.waiterId x = some w := by
        have := (h.cores x).waiter
        rw [hx'] at this
        exact this
      have := ((h.places w).linked x).mpr ⟨hwait, by simp [hx']⟩
      rw [htrig] at this
      cases this
    simpa [hwc] using (h.locks L').next x w hx'

/-- `mylock` returns. -/
theorem Inv.lockClear (h : Inv d s place) (hpc : s.main c = .lockClear L) :
    Moves s place a (((s.setTrigger c false).lockReturns c L).goto c .app) place := by
  have hheld : s.held L c = false := (h.cores c).lacks L (by rw [hpc]; rfl)
  refine ⟨h.places.lockClear hpc, fun L' => ?_, h.handOver_goto (by simp),
    h.next_goto (by simp [hpc]) (by simp)⟩
  by_cases hL : L' = L
  · subst hL
    refine .step (c := c) (e := .enter c) (v := .inside) ?_ (by simp [lockSt, standOf])
      (fun x hx => by simp [lockSt, hx]) (by simp)
    simp only [State.goto, State.lockReturns, State.setHeld, State.setTrigger,
      update_self]
    exact .enter c (by simp [lockSt, standOf, hheld, hpc])
  · exact .same c rfl rfl (by simp [hL]) rfl (by simp [lockSt, standOf, hpc, hL, Ne.symm hL])
      fun x hx => by simp [lockSt, hx, hL]

/-- The last store of `myunlock` on the waiter. -/
theorem Inv.unlockClear (h : Inv d s place) (hpc : s.main c = .unlockClear L) :
    Moves s place a ((s.setWaiter c none).goto c (.unlockEui L)) place := by
  refine ⟨h.places.unlockClear hpc, fun L' => ?_, h.handOver_goto (by simp),
    h.next_goto (by simp [hpc]) (by simp)⟩
  exact .same c rfl rfl rfl rfl (by simp [lockSt, standOf, hpc])
    fun x hx => by simp [lockSt, hx]

/-- `*next_trigger = 1` in `myunlock`. -/
theorem Inv.unlockTrigger {w : C} (h : Inv d s place) (hpc : s.main c = .unlockTrigger L w) :
    Moves s place a (((s.setTrigger w true).lockReleased c L).goto c (.unlockClear L))
      (update place w .triggered) := by
  have hheld : s.held L c = true := (h.cores c).holds L (by rw [hpc]; rfl)
  have hwait : s.waiterId c = some w := by
    have := (h.cores c).waiter
    rw [hpc] at this
    exact this
  have hspin : s.main w = .lockSpin L := (h.locks L).next c w hpc
  have hlink : place w = .linked c := ((h.places w).linked c).mpr ⟨hwait, by simp [hpc]⟩
  have hheldw : s.held L w = false := (h.cores w).lacks L (by rw [hspin]; rfl)
  have hwc : w ≠ c := by
    rintro rfl
    simp [hpc] at hspin
  refine ⟨h.places.unlockTrigger hpc hwait, fun L' => ?_, fun L' y b hy hp => ?_,
    h.next_goto (by simp [hpc]) (by simp)⟩
  · by_cases hL : L' = L
    · subst hL
      -- the abstract step at this lock; the other locks see nothing
      refine .inr ⟨.pass c w, ?_, by simp⟩
      have hst : lockSt (((s.setTrigger w true).lockReleased c L').goto c (.unlockClear L'))
          (update place w .triggered) L' =
          { lockSt s place L' with
            stand := update
              (update (lockSt s place L').stand c .absent) w .entitled
            left := (lockSt s place L').left ++ [c] } := by
        refine St.ext rfl (funext fun x => ?_) rfl rfl (by simp [lockSt])
        by_cases hxw : x = w
        · subst hxw
          simp [lockSt, standOf, hwc, hspin, hheldw, Place.stand]
        · by_cases hx : x = c
          · subst hx
            simp [lockSt, standOf, hxw]
          · simp [lockSt, hx, hxw]
      rw [hst]
      exact .pass c w (by simp [lockSt, standOf, hheld])
        (by simp [lockSt, standOf, hspin, hheldw, hlink, Place.stand])
    · refine .same w rfl rfl rfl (by simp [hL])
        (by simp [lockSt, standOf, hwc, hspin, hL, Ne.symm hL]) fun x hxw => ?_
      by_cases hx : x = c
      · subst hx
        simp [lockSt, standOf, hpc, hL]
      · simp [lockSt, hx, hxw, hL]
  · have hyw : y ≠ w := by
      rintro rfl
      simp at hp
    exact h.handOver_goto (by simp) L' y b hy (by simpa [hyw] using hp)

/-- `L->owner_id = -1` in `myunlock`. -/
theorem Inv.unlockFree (h : Inv d s place) (hpc : s.main c = .unlockFree L)
    (hf : s.frames c = []) :
    Moves s place a (((s.setOwner L none).lockReleased c L).goto c (.unlockEui L)) place := by
  have hheld : s.held L c = true := (h.cores c).holds L (by rw [hpc]; rfl)
  have hwait : s.waiterId c = none := by
    have := (h.cores c).waiter
    rw [hpc] at this
    exact this
  have hinside : (lockSt s place L).stand c = .inside := by simp [lockSt, standOf, hheld]
  -- nobody is behind: there is no waiter, and no handler on this core
  have hnone : ∀ y, ((lockSt s place L).stand y).before ≠ some c := by
    intro y hy
    rcases (before_standOf hy).2 with hw | hw
    · have := ((h.places y).linked c).mp hw
      rw [State.Waits, hwait] at this
      cases this.1
    · exact h.places.frames_ne_nil hw hf
  have howner : s.ownerId L = some c := (h.locks L).ordered.tail_of_inside hinside hnone
  refine ⟨?_, fun L' => ?_, fun L' y b hy hp => ?_, h.next_goto (by simp [hpc]) (by simp)⟩
  · exact PlacesOk.goto (s := s) h.places (by simp [hpc]) (by simp)
  · by_cases hL : L' = L
    · subst hL
      refine .step (c := c) (e := .drop c) (v := .absent) ?_ (by simp [lockSt, standOf])
        (fun x hx => by simp [lockSt, hx]) (by simp)
      simp only [State.goto, State.lockReleased, State.setHeld, State.setOwner,
        update_self]
      exact .drop c hinside hnone
    · exact .same c (by simp [hL]) rfl rfl (by simp [hL]) (by simp [lockSt, standOf, hpc, hL])
        fun x hx => by simp [lockSt, hx, hL]
  · have hold := h.handOver_goto (by simp) L' y b hy hp
    by_cases hL : L' = L
    · -- a handler that hands this lock over would be on this core
      obtain rfl : c = b := Option.some.inj (howner.symm.trans (hL ▸ hold))
      exact absurd hf (h.places.frames_ne_nil hp)
    · simpa [hL] using hold

/-! ### Steps of a handler -/

/-- A core goes to a place with the same stand. -/
theorem lockSt_place (hw : w.stand = (place x).stand) :
    lockSt s (update place x w) L = lockSt s place L := by
  refine St.ext rfl (funext fun y => ?_) rfl rfl rfl
  by_cases hy : y = x
  · subst hy
    simp [lockSt, standOf, hw]
  · simp [lockSt, hy]

/-- Handlers come and go, and no request with them. -/
theorem Inv.setFrames {gs : List (Frame C K)} (h : Inv d s place)
    (hg : gs.filterMap Frame.request = s.requests c) :
    Moves s place a (s.setFrames c gs) place :=
  ⟨h.places.setFrames hg, fun _ => .inl rfl, fun L => (h.locks L).handOver,
    fun L => (h.locks L).next⟩

/-- No hand-over is added when a core goes to a place that is none. -/
theorem Inv.handOver_place (h : Inv d s place) (hw : ∀ b, w ≠ .handled b .setOwner) (L : K)
    (y b : C) (hy : s.main y = .lockSpin L)
    (hp : update place x w y = .handled b .setOwner) : s.ownerId L = some b := by
  have hyx : y ≠ x := by
    rintro rfl
    exact hw b (by simpa using hp)
  exact (h.locks L).handOver y b hy (by simpa [hyx] using hp)

/-- A message is taken from the queue, and its handler starts. -/
theorem Inv.dequeue {rest : List (AddmeCfd C K)} (h : Inv d s place)
    (hq : s.msgBufs c = p :: rest) :
    Moves s place a ((s.setMsgs c rest).setFrames c (.addme p .start :: s.frames c))
      (update place p.askId (.handled c .start)) := by
  have hplace := (h.places.of_message (p := p) (q := c) (by simp [hq])).1
  exact ⟨h.places.dequeue hq, fun L => .inl (lockSt_place (by simp [hplace, Place.stand])),
    h.handOver_place (by simp), fun L => (h.locks L).next⟩

section
variable (h : Inv d s place) (hf : s.frames c = .addme p l :: fs)
include h hf

/-- The handler of `p` goes on, and the asker stands as before. -/
theorem Inv.handle (hl : l ≠ .eui) (hl' : l' ≠ .eui)
    (hst : (Place.handled c l').stand = (Place.handled c l).stand)
    (ho : l' = .setOwner → s.ownerId p.L = some c) :
    Moves s place a (s.setFrames c (.addme p l' :: fs))
      (update place p.askId (.handled c l')) := by
  obtain ⟨hplace, hspin⟩ := h.places.of_top hf hl
  refine ⟨h.places.handle hf hl hl', fun L => .inl (lockSt_place (by rw [hplace, hst])),
    fun L y b hy hp => ?_, fun L => (h.locks L).next⟩
  by_cases hyp : y = p.askId
  · subst hyp
    obtain ⟨rfl, rfl⟩ : c = b ∧ l' = .setOwner := by simpa using hp
    obtain rfl : p.L = L := MainPC.lockSpin.inj (hspin.symm.trans hy)
    exact ho rfl
  · exact (h.locks L).handOver y b hy (by simpa [hyp] using hp)

/-- `SENDI` in `addme`. -/
theorem Inv.forward (hl : l ≠ .eui) (hst : (Place.handled c l).stand = .absent) (q : C) :
    Moves s place a ((s.sendI q p).setFrames c (.addme p .eui :: fs))
      (update place p.askId (.queued q)) := by
  obtain ⟨hplace, hspin⟩ := h.places.of_top hf hl
  exact ⟨h.places.forward hf hl q, fun L => .inl (lockSt_place (by rw [hplace, hst]; rfl)),
    h.handOver_place (by simp), fun L => (h.locks L).next⟩

/-- `*next_trigger = 1` in `addme`. -/
theorem Inv.grant (hl : l = .trigger) :
    Moves s place a ((s.setTrigger p.askId true).setFrames c (.addme p .eui :: fs))
      (update place p.askId .triggered) := by
  subst hl
  obtain ⟨hplace, hspin⟩ := h.places.of_top hf (by simp)
  exact ⟨h.places.grant hf (by simp), fun L => .inl (lockSt_place (by rw [hplace]; rfl)),
    h.handOver_place (by simp), fun L => (h.locks L).next⟩

/-- The asker of the handler stands where its place says. -/
theorem Inv.stand_asker (hl : l ≠ .eui) :
    (lockSt s place p.L).stand p.askId = (Place.handled c l).stand := by
  obtain ⟨hplace, hspin⟩ := h.places.of_top hf hl
  rw [stand_of_spin h.cores hspin, hplace]

/-- The handler of `p` goes on with a step of its lock. -/
theorem Inv.handle_step {e : Event C} (hl : l ≠ .eui)
    (hs' : ∀ L, L ≠ p.L → lockSt s' place L = lockSt s place L)
    (hmain : s'.main = s.main) (hheld : s'.held = s.held)
    (hstep : Step (lockSt s place p.L) e ⟨s'.ownerId p.L,
      update (lockSt s place p.L).stand p.askId (Place.handled c l').stand,
      s'.written p.L, s'.returned p.L, s'.released p.L⟩)
    (he : ∀ b x, e = .join b x → a = .step b ∧ ∃ p fs, s.frames b = .addme p .setOwner :: fs)
    (L : K) : Refines s place a s' (update place p.askId (.handled c l')) L := by
  obtain ⟨hplace, hspin⟩ := h.places.of_top hf hl
  have hfree : s.held p.L p.askId = false := (h.cores p.askId).lacks p.L (by rw [hspin]; rfl)
  by_cases hL : L = p.L
  · subst hL
    refine .step (c := p.askId) hstep ?_ (fun x hx => ?_) he
    · simp [lockSt, standOf, hmain, hheld, hspin, hfree]
    · simp [lockSt, hmain, hheld, hx]
  · refine .inl (.trans ?_ (hs' L hL))
    refine St.ext rfl (funext fun x => ?_) rfl rfl rfl
    by_cases hx : x = p.askId
    · subst hx
      simp [lockSt, standOf, hmain, hspin, Ne.symm hL]
    · simp [lockSt, hx]

/-- The compare-and-swap of `addme` takes the lock for the asker. -/
theorem Inv.addmeCas (hl : l = .cas) (ho : s.ownerId p.L = none) :
    Moves s place a ((s.writeOwner p.L p.askId).setFrames c (.addme p (.reread true) :: fs))
      (update place p.askId (.handled c (.reread true))) := by
  subst hl
  refine ⟨?_, h.handle_step hf (e := .claim p.askId) (by simp) (fun L hL => ?_) rfl rfl ?_
      (by simp),
    fun L y b hy hp => ?_, fun L => (h.locks L).next⟩
  · exact PlacesOk.handle (s := s.writeOwner p.L p.askId) h.places hf (by simp) (by simp)
  · simp [lockSt, hL]
  · simp only [State.writeOwner, State.setOwner, State.setFrames, update_self]
    exact .claim p.askId ho (by rw [h.stand_asker hf (by simp)]; rfl)
  · have hold := h.handOver_place (by simp) L y b hy hp
    by_cases hL : L = p.L
    · rw [hL, ho] at hold
      cases hold
    · simpa [hL] using hold

/-- `addme` looks whether it won for the asker, and it did. -/
theorem Inv.reread_confirm (hl : l = .reread true) (ho : s.ownerId p.L = some p.askId) :
    Moves s place a (s.setFrames c (.addme p .trigger :: fs))
      (update place p.askId (.handled c .trigger)) := by
  subst hl
  refine ⟨h.places.handle hf (by simp) (by simp), h.handle_step hf (e := .confirm p.askId)
    (by simp) (fun _ _ => rfl) rfl rfl ?_ (by simp), h.handOver_place (by simp),
    fun L => (h.locks L).next⟩
  exact .confirm p.askId (by rw [h.stand_asker hf (by simp)]; rfl) ho

/-- `addme` looks whether it won for the asker, and the lock has been handed on since. -/
theorem Inv.reread_resign (hl : l = .reread true) (ho : s.ownerId p.L ≠ some p.askId) :
    Moves s place a (s.setFrames c (.addme p .saveId :: fs))
      (update place p.askId (.handled c .saveId)) := by
  subst hl
  refine ⟨h.places.handle hf (by simp) (by simp), h.handle_step hf (e := .resign p.askId)
    (by simp) (fun _ _ => rfl) rfl rfl ?_ (by simp), h.handOver_place (by simp),
    fun L => (h.locks L).next⟩
  exact .resign p.askId (by rw [h.stand_asker hf (by simp)]; rfl) ho

/-- An asker for which `addme` did not win is not the owner. -/
theorem Inv.ownerId_ne_asker (hl : l = .reread false) : s.ownerId p.L ≠ some p.askId := by
  subst hl
  intro ho
  refine (h.locks p.L).ordered.stand_tail_ne_absent (a := p.askId) ho ?_
  rw [h.stand_asker hf (by simp)]
  rfl

/-- The only masked handler is the topmost one. -/
theorem Inv.eq_start_of_below {r : AddmeCfd C K × AddmePC C}
    (hr : r ∈ fs.filterMap Frame.request) : r.2 = .start := by
  obtain ⟨g, hg, hreq⟩ := List.mem_filterMap.mp hr
  have hm := ((h.cores c).top _ fs hf).2 g hg
  cases g with
  | poll => cases hreq
  | handler => cases hreq
  | addme p' l' =>
    cases l' <;> cases hm
    cases hreq
    rfl

/-- The hand-over store of `addme`: the asker joins the line behind this core. -/
theorem Inv.addmeSetOwner (hl : l = .setOwner) :
    Moves s place (.step c)
      ((s.writeOwner p.L p.askId).setFrames c (.addme p .setWaiter :: fs))
      (update place p.askId (.handled c .setWaiter)) := by
  subst hl
  obtain ⟨hplace, hspin⟩ := h.places.of_top hf (by simp)
  have ho : s.ownerId p.L = some c := (h.locks p.L).handOver _ _ hspin hplace
  refine ⟨?_, h.handle_step hf (e := .join c p.askId) (by simp) (fun L hL => ?_) rfl rfl ?_ ?_,
    fun L y b hy hp => ?_, fun L => (h.locks L).next⟩
  · exact PlacesOk.handle (s := s.writeOwner p.L p.askId) h.places hf (by simp) (by simp)
  · simp [lockSt, hL]
  · simp only [State.writeOwner, State.setOwner, State.setFrames, update_self]
    exact .join c p.askId ho (by rw [h.stand_asker hf (by simp)]; rfl)
  · rintro b x ⟨⟩
    exact ⟨rfl, p, fs, hf⟩
  · have hyp : y ≠ p.askId := by
      rintro rfl
      simp at hp
    have hp' : place y = .handled b .setOwner := by simpa [hyp] using hp
    have hold := (h.locks L).handOver y b hy hp'
    by_cases hL : L = p.L
    · -- the other handler would be on this core too, and only one there is masked
      obtain rfl : c = b := Option.some.inj (ho.symm.trans (hL ▸ hold))
      obtain ⟨L', -, hmem⟩ := h.places.exists_request hp'
      rw [State.requests_cons hf (by simp)] at hmem
      rcases List.mem_cons.mp hmem with heq | hmem
      · exact absurd (congrArg (·.1.askId) heq) hyp
      · exact absurd (h.eq_start_of_below hf hmem) (by simp)
    · simpa [hL] using hold

/-- The store of the waiter, over a waiter for the same lock at most. -/
theorem Inv.addmeSetWaiter (hl : l = .setWaiter)
    (hok : ∀ w, s.waiterId c = some w → s.main w = .lockSpin p.L) :
    Moves s place a ((s.setWaiter c (some p.askId)).setFrames c (.addme p .eui :: fs)) fun x =>
      if x = p.askId then .linked c else if s.waiterId c = some x then .lost else place x := by
  subst hl
  obtain ⟨hplace, hspin⟩ := h.places.of_top hf (by simp)
  have hfree : s.held p.L p.askId = false := (h.cores p.askId).lacks p.L (by rw [hspin]; rfl)
  -- a thread below a handler is not masked
  have hmain : ∀ L, s.main c ≠ .unlockClear L := by
    intro L hL
    have := (h.cores c).masked_eq_false (by simp [hf])
    rw [hL] at this
    cases this
  refine ⟨h.places.link hf (by simp) hmain, fun L => ?_, fun L y b hy hp => ?_,
    fun L => (h.locks L).next⟩
  · by_cases hL : L = p.L
    · subst hL
      refine .inr ⟨.link c p.askId, ?_, by simp⟩
      have hst : lockSt ((s.setWaiter c (some p.askId)).setFrames c (.addme p .eui :: fs))
          (fun x => if x = p.askId then .linked c
            else if s.waiterId c = some x then .lost else place x) p.L =
          { lockSt s place p.L with
            stand := fun x => if x = p.askId then .behind c
              else if (lockSt s place p.L).stand x = .behind c then .lost
              else (lockSt s place p.L).stand x } := by
        refine St.ext rfl (funext fun x => ?_) rfl rfl rfl
        by_cases hx : x = p.askId
        · subst hx
          simp [lockSt, standOf, hspin, hfree, Place.stand]
        · by_cases hw : s.waiterId c = some x
          · have hxs := hok x hw
            have hxl : place x = .linked c := ((h.places x).linked c).mpr ⟨hw, hmain⟩
            have hxh : s.held p.L x = false := (h.cores x).lacks p.L (by rw [hxs]; rfl)
            simp [lockSt, standOf, hx, hw, hxs, hxl, hxh, Place.stand]
          · have hne : (lockSt s place p.L).stand x ≠ .behind c := fun hst =>
              hw (((h.places x).linked c).mp (eq_linked_of_standOf hst)).1
            simp only [if_neg hx, if_neg hne]
            simp [lockSt, hx, hw]
      rw [hst]
      exact .link c p.askId (by rw [h.stand_asker hf (by simp)]; rfl)
    · refine .same p.askId rfl rfl rfl rfl (by simp [lockSt, standOf, hspin, Ne.symm hL])
        fun x hx => ?_
      by_cases hw : s.waiterId c = some x
      · simp [lockSt, standOf, hok x hw, Ne.symm hL]
      · simp [lockSt, hx, hw]
  · beta_reduce at hp
    split at hp
    · cases hp
    · split at hp
      · cases hp
      · exact (h.locks L).handOver y b hy hp

end

/-! ### All steps -/

/-- The lock for which the next step of `c` uses the waiter of `c`: `addme` stores a new waiter
over it, or `myunlock` takes it. -/
def State.usesWaiter (s : State C K) (c : C) : Option K :=
  match s.frames c, s.main c with
  | .addme p .setWaiter :: _, _ => some p.L
  | [], .unlockGet L => some L
  | _, _ => none

/-- The locks are kept apart: where the waiter of a core is used for a lock, it waits for that
lock. This is about the two steps that use `waiter_id`. That every trigger is for the right lock,
also the one of an `addme` grant, and that the holders exclude each other, follows from it. -/
def Apart (s : State C K) : Action C K → Prop
  | .step c => ∀ L ∈ s.usesWaiter c, ∀ w ∈ s.waiterId c, s.main w = .lockSpin L
  | _ => True

instance (s : State C K) : ∀ a, Decidable (Apart s a)
  | .step c =>
    inferInstanceAs (Decidable (∀ L ∈ s.usesWaiter c, ∀ w ∈ s.waiterId c, s.main w = .lockSpin L))
  | .mylock _ _ | .myunlock _ _ | .poll _ | .interrupt _ => isTrue trivial

/-- Every step of `addme` is a move. -/
theorem moves_addmeStep (h : Inv d s place) (hok : Apart s (.step c))
    (hf : s.frames c = .addme p l :: fs) :
    ∃ place', Moves s place (.step c) (addmeStep s c p fs l) place' := by
  cases l <;> simp only [addmeStep]
  case start =>
    have hm : Moves s place (.step c) (s.setFrames c (.addme p .retry :: fs)) _ :=
      h.handle hf (by simp) (by simp) rfl (by simp)
    exact ⟨_, hm.places, hm.refines, hm.handOver, hm.next⟩
  case retry =>
    split
    · exact ⟨_, h.handle hf (by simp) (by simp) rfl (by simp)⟩
    · rename_i ho
      exact ⟨_, h.handle hf (by simp) (by simp) rfl (fun _ => not_not.mp ho)⟩
  case testFree =>
    split <;> exact ⟨_, h.handle hf (by simp) (by simp) rfl (by simp)⟩
  case cas =>
    split
    · rename_i ho
      exact ⟨_, h.addmeCas hf rfl ho⟩
    · exact ⟨_, h.handle hf (by simp) (by simp) rfl (by simp)⟩
  case reread won =>
    cases won
    case false =>
      rw [if_pos (h.ownerId_ne_asker hf rfl)]
      exact ⟨_, h.handle hf (by simp) (by simp) rfl (by simp)⟩
    case true =>
      split
      · rename_i ho
        exact ⟨_, h.reread_resign hf rfl ho⟩
      · rename_i ho
        exact ⟨_, h.reread_confirm hf rfl (not_not.mp ho)⟩
  case saveId =>
    split <;> exact ⟨_, h.handle hf (by simp) (by simp) rfl (by simp)⟩
  case send save => exact ⟨_, h.forward hf (by simp) rfl save⟩
  case trigger => exact ⟨_, h.grant hf rfl⟩
  case setOwner => exact ⟨_, h.addmeSetOwner hf rfl⟩
  case setWaiter => exact ⟨_, h.addmeSetWaiter hf rfl (hok p.L (by simp [State.usesWaiter, hf]))⟩
  case eui =>
    have hm : Moves s place (.step c) (s.setFrames c (.poll :: fs)) place :=
      h.setFrames (by rw [State.requests, hf]; rfl)
    exact ⟨_, hm.places, hm.refines, hm.handOver, hm.next⟩

/-- Every step of a handler is a move. -/
theorem moves_frameStep {f : Frame C K} (h : Inv d s place) (hok : Apart s (.step c))
    (hf : s.frames c = f :: fs) :
    ∃ place', Moves s place (.step c) (frameStep s c fs f) place' := by
  cases f with
  | addme p l => exact moves_addmeStep h hok hf
  | poll =>
    rw [frameStep_poll]
    split <;> exact ⟨_, h.setFrames (by rw [State.requests, hf]; rfl)⟩
  | handler =>
    rw [frameStep_handler]
    split
    · exact ⟨_, h.setFrames (by rw [State.requests, hf]; rfl)⟩
    · rename_i hq
      rw [← hf]
      exact ⟨_, h.dequeue hq⟩

/-- Every step of a thread is a move. -/
theorem moves_mainStep (h : Inv d s place) (hok : Apart s (.step c)) (hf : s.frames c = [])
    (hs : mainStep s c (s.main c) = some s') : ∃ place', Moves s place (.step c) s' place' := by
  -- a step that only moves the thread, between two places where the locks do not see it
  have hquiet : ∀ pc', (s.main c).Quiet → pc'.Quiet →
      (∀ L, s.main c ≠ .unlockClear L ∧ pc' ≠ .unlockClear L) →
      (∀ L w, pc' = .unlockTrigger L w → s.main w = .lockSpin L) →
      Moves s place (.step c) (s.goto c pc') place :=
    fun pc' h₁ h₂ h₃ h₄ => h.goto h₁ h₂ h₃ h₄
  cases hpc : s.main c <;> rw [hpc] at hs hquiet <;> simp only [mainStep] at hs
  case app => cases hs
  case wild => cases hs
  case lockCas L =>
    split at hs <;> cases hs
    case isTrue ho => exact ⟨_, h.lockCas hpc ho⟩
    case isFalse =>
      exact ⟨_, hquiet _ (by simp [MainPC.Quiet]) (by simp [MainPC.Quiet]) (by simp) (by simp)⟩
  case lockReread L won =>
    cases won
    case false =>
      rw [if_pos (h.ownerId_ne hpc)] at hs
      cases hs
      exact ⟨_, hquiet _ (by simp [MainPC.Quiet]) (by simp [MainPC.Quiet]) (by simp) (by simp)⟩
    case true =>
      split at hs <;> cases hs
      -- the lock may have been handed on since the swap
      case isTrue ho =>
        exact ⟨_, h.lockReread hpc (.inr ⟨rfl, rfl⟩) (fun hst => .resign c hst ho) (by simp)⟩
      case isFalse ho =>
        exact ⟨_, h.lockReread hpc (.inl ⟨rfl, rfl⟩)
          (fun hst => .confirm c hst (not_not.mp ho)) (by simp)⟩
  case lockSaveId L =>
    cases ho : s.ownerId L <;> rw [ho] at hs <;> cases hs
    all_goals
      exact ⟨_, hquiet _ (by simp [MainPC.Quiet]) (by simp [MainPC.Quiet]) (by simp) (by simp)⟩
  case lockSend L save =>
    cases hs
    exact ⟨_, h.lockSend hpc⟩
  case lockSpin L =>
    split at hs <;> cases hs
    case isTrue ht => exact ⟨_, h.lockSpin hpc ht⟩
    case isFalse => exact ⟨_, h.setFrames (by rw [State.requests, hf]; rfl)⟩
  case lockClear L =>
    cases hs
    exact ⟨_, h.lockClear hpc⟩
  case unlockDui L =>
    cases hs
    have hm := hquiet (.unlockTest L) (by simp [MainPC.Quiet]) (by simp [MainPC.Quiet]) (by simp)
      (by simp)
    exact ⟨_, hm.places, hm.refines, hm.handOver, hm.next⟩
  case unlockGet L =>
    cases hw : s.waiterId c <;> rw [hw] at hs <;> cases hs
    case none =>
      exact ⟨_, hquiet _ (by simp [MainPC.Quiet]) (by simp [MainPC.Quiet]) (by simp) (by simp)⟩
    case some next =>
      refine ⟨_, hquiet _ (by simp [MainPC.Quiet]) (by simp [MainPC.Quiet]) (by simp) ?_⟩
      rintro L' w ⟨⟩
      exact hok L (by simp [State.usesWaiter, hf, hpc]) next hw
  case unlockTrigger L next =>
    cases hs
    exact ⟨_, h.unlockTrigger hpc⟩
  case unlockClear L =>
    cases hs
    exact ⟨_, h.unlockClear hpc⟩
  case unlockFree L =>
    cases hs
    exact ⟨_, h.unlockFree hpc hf⟩
  case unlockEui L =>
    cases hs
    have hm := hquiet .app (by simp [MainPC.Quiet]) (by simp [MainPC.Quiet]) (by simp) (by simp)
    refine ⟨_, ?_, hm.refines, hm.handOver, hm.next⟩
    exact PlacesOk.goto (s := s.setFrames c [.poll])
      (h.places.setFrames (by rw [State.requests, hf]; rfl)) (by simp [hpc]) (by simp)
  all_goals
    split at hs <;> cases hs
    all_goals
      exact ⟨_, hquiet _ (by simp [MainPC.Quiet]) (by simp [MainPC.Quiet]) (by simp) (by simp)⟩

/-- The code simulates the abstract locks: a step of the cores that keeps the locks apart keeps
the invariant, and every lock takes a step of the abstract lock or none. -/
theorem inv_step (h : Inv d s place) (hok : Apart s a) (hs : step d s a = some s') :
    ∃ place', Inv d s' place' ∧ ∀ L, Refines s place a s' place' L := by
  have hmoves : ∃ place', Moves s place a s' place' := by
    cases a <;> simp only [step] at hs
    case step c =>
      cases hf : s.frames c <;> rw [hf] at hs
      case nil => exact moves_mainStep h hok hf hs
      case cons f fs =>
        cases hs
        exact moves_frameStep h hok hf
    case interrupt c =>
      cases d <;> cases hq : s.msgBufs c <;> rw [hq] at hs <;> simp only [] at hs
      all_goals try cases hs
      split at hs <;> cases hs
      exact ⟨_, h.dequeue hq⟩
    case poll c =>
      split at hs <;> cases hs
      case isTrue hc => exact ⟨_, h.setFrames (by rw [State.requests, hc.2]; rfl)⟩
    all_goals
      split at hs <;> cases hs
      rename_i hc
      exact ⟨_, h.goto (by simp [MainPC.Quiet, hc.1]) (by simp [MainPC.Quiet]) (by simp [hc.1])
        (by simp)⟩
  obtain ⟨place', hm⟩ := hmoves
  exact ⟨place', hm.inv h (cores_step h.cores hs), hm.refines⟩

end

end Stacklets.Uli

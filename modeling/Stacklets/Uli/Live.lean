import Mathlib.Data.Fintype.Basic
import Stacklets.Uli.Correctness

/-!
# `Stacklets.Uli.Live`: when no hand-off is lost

`addme` grants a lock with a compare-and-swap on behalf of the asker and looks afterwards
whether it won. In between, the asker may already have handed the lock on, from the `POLL` in
its own loop. The handler then takes the grant for a failure and forwards the request, and
nobody has the permission to enter any more: the lock is dead (`not_live`).

`Settled` excludes exactly this: a core hands the lock over only if no other handler is in the
middle of granting the lock to it, or of linking it. In the runs whose steps are all settled no
hand-off is lost (`live`). The abstract lock stays clean, which is the invariant `Clean` of
`Lib.HandOff`.
-/

set_option autoImplicit false

namespace Stacklets.Uli

open Lib
open Lib.HandOff (Stand Clean Served)

section
variable {C K : Type*} [DecidableEq C] [DecidableEq K] {d : Delivery} {s s' : State C K}
  {place : C → Place C} {a : Action C K} {b c q x y : C} {L : K} {w : Place C}
  {pc : MainPC C K}

/-! ### Who has the permission to enter, and who waits for it -/

/-- The core `c` has the permission to enter: it won its compare-and-swap in `mylock` or was
triggered, and has not released the lock since, or a handler won the lock for it and is about
to look or to set its trigger. -/
def State.Permitted (s : State C K) (L : K) (c : C) : Prop :=
  s.held L c = true ∨ s.main c = .lockReread L true ∨ s.main c = .lockClear L ∨
  (s.main c = .lockSpin L ∧ s.trigger c = true) ∨
  ∃ b, .addme ⟨L, c⟩ (.reread true) ∈ s.frames b ∨ .addme ⟨L, c⟩ .trigger ∈ s.frames b

/-- The number of requests of `c` in the queue of `q` and in the handlers on `q` that have not
done their last store or `SENDI` for it yet. -/
def State.requestsAt (s : State C K) (c q : C) : Nat :=
  ((s.msgBufs q).filter (fun p => p.askId = c)).length +
    ((s.requests q).filter (fun r => r.1.askId = c)).length

/-- There is exactly one request of `c`. -/
def State.OneRequest (s : State C K) (c : C) : Prop :=
  ∃ q, s.requestsAt c q = 1 ∧ ∀ q', q' ≠ q → s.requestsAt c q' = 0

/-- The handler won the lock for `b` and has not looked yet, or wrote `b` to `owner_id` and not
yet to its own `waiter_id`. -/
def Frame.unsettled (b : C) : Frame C K → Bool
  | .addme p (.reread true) => p.askId = b
  | .addme p .setWaiter => p.askId = b
  | _ => false

/-- The next step of `b` is the hand-over store of `addme`. -/
def State.handsOver (s : State C K) (b : C) : Bool :=
  match s.frames b with
  | .addme _ .setOwner :: _ => true
  | _ => false

/-- A core hands the lock over only if no handler is unsettled for it. -/
def Settled (s : State C K) : Action C K → Prop
  | .step b => s.handsOver b = true → ∀ x, ∀ f ∈ s.frames x, f.unsettled b = false
  | _ => True

instance [Fintype C] (s : State C K) (L : K) (c : C) : Decidable (s.Permitted L c) :=
  inferInstanceAs (Decidable (s.held L c = true ∨ s.main c = .lockReread L true ∨
    s.main c = .lockClear L ∨ (s.main c = .lockSpin L ∧ s.trigger c = true) ∨
    ∃ b, .addme ⟨L, c⟩ (.reread true) ∈ s.frames b ∨ .addme ⟨L, c⟩ .trigger ∈ s.frames b))

instance [Fintype C] (s : State C K) : ∀ a, Decidable (Settled s a)
  | .step b => inferInstanceAs
      (Decidable (s.handsOver b = true → ∀ x, ∀ f ∈ s.frames x, f.unsettled b = false))
  | .mylock _ _ | .myunlock _ _ | .poll _ | .interrupt _ => isTrue trivial

/-! ### Clean runs -/

omit [DecidableEq C] [DecidableEq K] in
theorem State.mem_frames_of_request {p : AddmeCfd C K} {l : AddmePC C}
    (h : (p, l) ∈ s.requests b) : .addme p l ∈ s.frames b := by
  obtain ⟨f, hf, hreq⟩ := List.mem_filterMap.mp h
  cases f with
  | poll => cases hreq
  | handler => cases hreq
  | addme p' l' => cases l' <;> cases hreq <;> exact hf

omit [DecidableEq K] in
/-- A place in a handler comes from a handler. -/
theorem PlacesOk.mem_frames {l : AddmePC C} (h : PlacesOk s place) (hL : s.main c = .lockSpin L)
    (hc : place c = .handled b l) : .addme ⟨L, c⟩ l ∈ s.frames b := by
  obtain ⟨L', hL', hmem⟩ := h.exists_request hc
  obtain rfl : L' = L := MainPC.lockSpin.inj (hL'.symm.trans hL)
  exact State.mem_frames_of_request hmem

omit [DecidableEq C] in
theorem Place.eq_of_stand :
    (w.stand = .claimed → ∃ b, w = .handled b (.reread true)) ∧
    (w.stand = .entitled → w = .triggered ∨ ∃ b, w = .handled b .trigger) ∧
    w.stand ≠ .inside := by
  unfold Place.stand
  split <;> simp

/-- Who is served has the permission to enter. -/
theorem Inv.permitted (h : Inv d s place) (hc : Served (lockSt s place L) c) :
    s.Permitted L c := by
  have hne : standOf L (s.held L c) (s.main c) (place c) ≠ .absent := by
    intro h'
    simp [Served, lockSt, h'] at hc
  rcases standOf_cases hne with ⟨hheld, -⟩ | ⟨hpc, -⟩ | ⟨hpc, -⟩ | ⟨hpc, hst⟩
  · exact .inl hheld
  · exact .inr (.inl hpc)
  · exact .inr (.inr (.inl hpc))
  · -- the core waits: its trigger is set, or a handler has its request
    have hst' : (lockSt s place L).stand c = (place c).stand := hst
    rw [Served, hst'] at hc
    rcases hc with hin | hen | ⟨hcl, -⟩
    · exact absurd hin Place.eq_of_stand.2.2
    · rcases Place.eq_of_stand.2.1 hen with hw | ⟨b, hw⟩
      · exact .inr (.inr (.inr (.inl ⟨hpc, (h.places.trigger_iff hpc).mpr hw⟩)))
      · exact .inr (.inr (.inr (.inr ⟨b, .inr (h.places.mem_frames hpc hw)⟩)))
    · obtain ⟨b, hw⟩ := Place.eq_of_stand.1 hcl
      exact .inr (.inr (.inr (.inr ⟨b, .inl (h.places.mem_frames hpc hw)⟩)))

/-- With polling, a settled step makes nobody join behind a core that is being granted the lock
or linked. -/
theorem Inv.settled {p : AddmeCfd C K} {fs : List (Frame C K)} (h : Inv .poll s place)
    (hok : Settled s (.step b)) (hf : s.frames b = .addme p .setOwner :: fs) (L : K) :
    (lockSt s place L).stand b ≠ .claimed ∧ ∀ x, (lockSt s place L).stand b ≠ .joining x := by
  have hset : ∀ x, ∀ f ∈ s.frames x, f.unsettled b = false :=
    hok (by simp [State.handsOver, hf])
  have hpc := (h.cores b).polls rfl (by simp [hf])
  refine ⟨fun hst => ?_, fun x hst => ?_⟩ <;> rw [lockSt_stand] at hst
  · rcases standOf_cases (by rw [hst]; simp) with ⟨-, h'⟩ | ⟨hr, -⟩ | ⟨-, h'⟩ | ⟨hL, h'⟩
    · simp [hst] at h'
    · -- a thread in the middle of `mylock` does not poll
      simp [hr] at hpc
    · simp [hst] at h'
    · obtain ⟨x, hw⟩ := Place.eq_of_stand.1 (h'.symm.trans hst)
      have := hset x _ (h.places.mem_frames hL hw)
      simp [Frame.unsettled] at this
  · obtain ⟨hL, hw | hw⟩ := before_standOf (x := x) (by rw [hst, Stand.before])
    · rw [hw] at hst
      cases hh : s.held L b <;> simp [standOf, hL, hh, Place.stand] at hst
    · have := hset x _ (h.places.mem_frames hL hw)
      simp [Frame.unsettled] at this

/-- After every run whose steps are settled and keep the locks apart, the locks are clean. -/
theorem clean_runUnder [Subsingleton K] {as : List (Action C K)}
    (hok : RunUnder (step .poll) Settled (initial C K) as)
    (hrun : run (step .poll) (initial C K) as = some s) :
    ∃ place, Inv .poll s place ∧ ∀ L, Clean (lockSt s place L) := by
  refine runUnder_induction
    (I := fun s => ∃ place, Inv .poll s place ∧ ∀ L, Clean (lockSt s place L)) ?_ as _ s
    ⟨_, inv_initial, fun L => ⟨.inl rfl, fun y b hy => by cases hy⟩⟩ hok hrun
  rintro s a s' ⟨place, h, hclean⟩ hok hs
  obtain ⟨place', h', href⟩ := inv_step h (apart_of_inv h a) hs
  refine ⟨place', h', fun L => ?_⟩
  rcases href L with heq | ⟨e, hstep, hjoin⟩
  · rw [heq]
    exact hclean L
  · refine hstep.clean (h.locks L).ordered (hclean L) fun b x he => ?_
    obtain ⟨rfl, p, fs, hf⟩ := hjoin b x he
    exact h.settled hok hf L

omit [DecidableEq K] in
/-- A place in a queue or in a handler is that of the only request. -/
theorem PlacesOk.oneRequest (h : PlacesOk s place) (hL : s.main c = .lockSpin L)
    (hc : (∃ q, place c = .queued q) ∨ ∃ b l, place c = .handled b l) : s.OneRequest c := by
  have hat : ∀ q, s.requestsAt c q = ((place c).messages (s.main c) c q).length +
      ((place c).requests (s.main c) c q).length := fun q => by
    rw [State.requestsAt, (h c).messages, (h c).requests]
  rcases hc with ⟨q, hc⟩ | ⟨q, l, hc⟩
  all_goals
    refine ⟨q, ?_, fun q' hq' => ?_⟩ <;> rw [hat, hc, hL]
    · simp [Place.messages, Place.requests]
    · simp [Place.messages, Place.requests, Ne.symm hq']

end

section
variable {C : Type*} [DecidableEq C] {s : State C Unit} {as : List (Action C Unit)}

/-- In every state that is reached by polling, with one lock and all steps settled: if the lock
has an owner, some core has the permission to enter. A core that spins in `mylock` has exactly
one request, or is reached over the waiters from a core that has the permission. -/
theorem live (hok : RunUnder (step .poll) Settled (initial C Unit) as)
    (hrun : run (step .poll) (initial C Unit) as = some s) :
    (s.ownerId () ≠ none → ∃ c, s.Permitted () c) ∧
    ∀ c, s.main c = .lockSpin () → s.OneRequest c ∨
      ∃ h, s.Permitted () h ∧
        Relation.ReflTransGen (fun x y => s.waiterId x = some y) h c := by
  obtain ⟨place, h, hclean⟩ := clean_runUnder hok hrun
  refine ⟨fun ho => ?_, fun c hc => ?_⟩
  · obtain ⟨c, hserved⟩ := (hclean ()).exists_served ho
    exact ⟨c, h.permitted hserved⟩
  · have hst : (lockSt s place ()).stand c = (place c).stand := stand_of_spin h.cores hc
    cases hw : place c with
    | out => exact absurd hw (h.places.ne_out hc)
    | queued q => exact .inl (h.places.oneRequest hc (.inl ⟨q, hw⟩))
    | handled b l => exact .inl (h.places.oneRequest hc (.inr ⟨b, l, hw⟩))
    -- it has the permission itself, and has not seen the trigger yet
    | triggered =>
      refine .inr ⟨c, h.permitted (.inr (.inl ?_)), .refl⟩
      rw [hst, hw]
      rfl
    | linked x =>
      obtain ⟨y, hserved, hreach⟩ := (hclean ()).reaches (h.locks ()).ordered
        (show (lockSt s place ()).stand c = .behind x by rw [hst, hw]; rfl)
      refine .inr ⟨y, h.permitted hserved, hreach.lift id fun u v huv => ?_⟩
      exact (((h.places v).linked u).mp (eq_linked_of_standOf huv)).1
    -- excluded by the condition on the run
    | lost =>
      refine absurd ?_ ((hclean ()).stand_ne_lost (y := c) (h.locks ()).ordered)
      rw [hst, hw]
      rfl

end

/-- Core 1 has the lock and core 0 asks for it. Core 1 releases the lock and handles the
request: it wins the lock for core 0. Before it looks, core 2 asks core 0, which hands the lock
on. Core 1 finds that core 0 is not the owner and forwards the request to core 2, and core 2
hands the lock back to core 0. -/
def crossed : List (Action (Fin 3) Unit) :=
  List.flatten [.mylock 1 () :: steps 1 4, .mylock 0 () :: steps 0 5, .myunlock 1 () :: steps 1 10,
    .mylock 2 () :: steps 2 5, steps 0 8, steps 1 3, steps 2 7]

/-- Core 0 is the owner, and no core has the permission to enter. Cores 0 and 2 spin, and each
is the waiter of the other. -/
theorem not_live :
    ∃ s, run (step .poll) (initial (Fin 3) Unit) crossed = some s ∧
      s.ownerId () = some 0 ∧ (∀ c, ¬ s.Permitted () c) ∧
      s.main 0 = .lockSpin () ∧ s.waiterId 0 = some 2 ∧
      s.main 2 = .lockSpin () ∧ s.waiterId 2 = some 0 := by
  exact exists_of_map_decide (by decide +kernel)

/-- Core 0 has the lock, core 1 asks for it, and core 0 hands it over in a `POLL`. -/
def linked : List (Action (Fin 2) Unit) :=
  List.flatten [.mylock 0 () :: steps 0 4, .mylock 1 () :: steps 1 5, .poll 0 :: steps 0 7]

theorem live_linked :
    ∃ s, RunUnder (step .poll) Settled (initial (Fin 2) Unit) linked ∧
      run (step .poll) (initial (Fin 2) Unit) linked = some s ∧ s.ownerId () = some 1 ∧
      ∃ c, s.Permitted () c := by
  have hok : RunUnder (step .poll) Settled (initial (Fin 2) Unit) linked := by decide +kernel
  have h : (run (step .poll) (initial (Fin 2) Unit) linked).map (·.ownerId ()) =
      some (some 1) := by
    decide +kernel
  obtain ⟨s, hrun, hs⟩ := Option.map_eq_some_iff.mp h
  exact ⟨s, hok, hrun, hs, (live hok hrun).1 (by simp [hs])⟩

end Stacklets.Uli

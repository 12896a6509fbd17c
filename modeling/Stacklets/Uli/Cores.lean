import Stacklets.Uli.Invariant

/-!
# `Stacklets.Uli.Cores`: every step keeps what holds of one core

A step of a core leaves the data of the other cores alone (`step_other`), so `CoreOk` is
checked on the core that moves only. The handlers change what lies on top of a thread that is
not inside of `myunlock` (`CoreOk.setFrames`), and the thread moves when no handler is there
(`CoreOk.goto`). `cores_step` puts them together.
-/

set_option autoImplicit false

namespace Stacklets.Uli

open Function (update update_self)

section
variable {C K : Type*} {d : Delivery} {pc pc' : MainPC C K} {fs gs : List (Frame C K)}
  {flags flags' : BitVec 32} {w w' : Option C} {held held' : K → Bool}

/-! ### Moves of one core -/

/-- Outside of the masked part, `myunlock` knows nothing of its waiter. -/
theorem MainPC.knowsWaiter_of_masked_eq_false (h : pc.masked = false) : pc.KnowsWaiter w := by
  cases pc <;> trivial

/-- The handlers on top of a thread outside of `myunlock` change. -/
theorem CoreOk.setFrames (h : CoreOk d pc fs flags w held) (hm : pc.masked = false)
    (hp : d = .poll → pc = .app ∨ ∃ L, pc = .lockSpin L)
    (ht : ∀ g gs', gs = g :: gs' →
      (g.masked = true → Masked flags') ∧ ∀ g' ∈ gs', g'.masked = false) :
    CoreOk d pc gs flags' w' held where
  masked hpc := by rw [hm] at hpc; cases hpc
  top := ht
  polls hd _ := hp hd
  holds := h.holds
  lacks := h.lacks
  waiter := MainPC.knowsWaiter_of_masked_eq_false hm

/-- A core with a handler on it is outside of `myunlock`. -/
theorem CoreOk.masked_eq_false (h : CoreOk d pc fs flags w held) (hfs : fs ≠ []) :
    pc.masked = false := by
  by_contra hm
  exact hfs (h.masked (by simpa using hm)).1

/-- The topmost handler is replaced by one that has the interrupts off only if they are. -/
theorem CoreOk.replace {f g : Frame C K} (h : CoreOk d pc (f :: fs) flags w held)
    (hg : g.masked = true → Masked flags') : CoreOk d pc (g :: fs) flags' w' held := by
  refine h.setFrames (h.masked_eq_false (by simp)) (fun hd => h.polls hd (by simp)) ?_
  rintro g' gs' ⟨⟩
  exact ⟨hg, (h.top f fs rfl).2⟩

/-- The thread moves. -/
theorem CoreOk.goto (hm : pc'.masked = true → Masked flags')
    (hh : ∀ L, pc'.unlocks = some L → held' L = true)
    (hl : ∀ L, pc'.locks = some L → held' L = false) (hw : pc'.KnowsWaiter w') :
    CoreOk d pc' [] flags' w' held' where
  masked hpc := ⟨rfl, hm hpc⟩
  top f fs hf := by cases hf
  polls _ hf := absurd rfl hf
  holds := hh
  lacks := hl
  waiter := hw

/-- The thread moves within `mylock`. -/
theorem CoreOk.lock (h : CoreOk d pc [] flags w held) (hl : pc'.locks = pc.locks)
    (hm : pc'.masked = false) (hu : pc'.unlocks = none) : CoreOk d pc' [] flags w held :=
  .goto (fun hpc => by rw [hm] at hpc; cases hpc) (fun L hL => by rw [hu] at hL; cases hL)
    (fun L hL => h.lacks L (hl ▸ hL)) (MainPC.knowsWaiter_of_masked_eq_false hm)

/-- The thread moves within `myunlock`, before the releasing store. -/
theorem CoreOk.unlock (h : CoreOk d pc [] flags w held) (hu : pc'.unlocks = pc.unlocks)
    (hm : Masked flags') (hl : pc'.locks = none) (hw : pc'.KnowsWaiter w) :
    CoreOk d pc' [] flags' w held :=
  .goto (fun _ => hm) (fun L hL => h.holds L (hu ▸ hL)) (fun L hL => by rw [hl] at hL; cases hL) hw

/-- The thread moves to a place where it neither takes nor releases a lock. -/
theorem CoreOk.idle (hm : pc'.masked = true → Masked flags') (hl : pc'.locks = none)
    (hu : pc'.unlocks = none) (hw : pc'.KnowsWaiter w') : CoreOk d pc' [] flags' w' held' :=
  .goto hm (fun L hL => by rw [hu] at hL; cases hL) (fun L hL => by rw [hl] at hL; cases hL) hw

/-- `POLL` is called by a thread outside of `myunlock`. -/
theorem CoreOk.poll (h : CoreOk d pc [] flags w held) (hpc : pc = .app ∨ ∃ L, pc = .lockSpin L) :
    CoreOk d pc [.poll] flags w held := by
  have hm : pc.masked = false := by
    rcases hpc with rfl | ⟨L, rfl⟩ <;> rfl
  refine h.setFrames hm (fun _ => hpc) ?_
  rintro g gs' hg
  obtain ⟨rfl, rfl⟩ := List.cons.inj hg
  exact ⟨fun hg => (Bool.false_ne_true hg).elim, fun g' hg' => absurd hg' (List.not_mem_nil)⟩

end

section
variable {C K : Type*} [DecidableEq C] [DecidableEq K] {d : Delivery} {s s' : State C K}
  {a : Action C K} {c x : C} {f : Frame C K} {fs : List (Frame C K)}

/-- The core on which an action takes place. -/
def Action.core : Action C K → C
  | .step c | .mylock c _ | .myunlock c _ | .poll c | .interrupt c => c

/-! ### The other cores -/

/-- The two states agree on the data of the core `x` that only `x` changes. -/
structure SameCore (s s' : State C K) (x : C) : Prop where
  main : s'.main x = s.main x
  frames : s'.frames x = s.frames x
  flags : s'.flags x = s.flags x
  waiterId : s'.waiterId x = s.waiterId x
  held : ∀ L, s'.held L x = s.held L x

theorem addmeStep_other (hx : x ≠ c) (p : AddmeCfd C K) (pc : AddmePC C) :
    SameCore s (addmeStep s c p fs pc) x := by
  cases pc <;> simp only [addmeStep] <;> try split
  all_goals constructor <;> simp [hx]

theorem frameStep_other (hx : x ≠ c) (f : Frame C K) : SameCore s (frameStep s c fs f) x := by
  cases f with
  | addme p pc => exact addmeStep_other hx p pc
  | poll =>
    rw [frameStep_poll]
    split <;> constructor <;> simp [hx]
  | handler =>
    rw [frameStep_handler]
    split <;> constructor <;> simp [hx]

theorem mainStep_other (hx : x ≠ c) (pc : MainPC C K) (h : mainStep s c pc = some s') :
    SameCore s s' x := by
  have hheld : ∀ L L' v,
      update s.held L (update (s.held L) c v) L' x = s.held L' x := by
    intro L L' v
    by_cases hL : L' = L
    · subst hL
      simp [hx]
    · simp [hL]
  cases pc <;> simp only [mainStep] at h <;> try split at h
  all_goals cases h
  all_goals constructor <;> simp [hx, hheld]

theorem step_other (hx : x ≠ a.core) (h : step d s a = some s') : SameCore s s' x := by
  cases a <;> simp only [Action.core] at hx
  case step c =>
      simp only [step] at h
      split at h
      · cases h
        exact frameStep_other hx _
      · exact mainStep_other hx _ h
  case interrupt c =>
      simp only [step] at h
      split at h
      · split at h <;> cases h
        constructor <;> simp [hx]
      · cases h
  all_goals
    simp only [step] at h
    split at h <;> cases h
    constructor <;> simp [hx]

/-! ### The core that moves -/

variable {p : AddmeCfd C K}

theorem core_addmeStep (pc : AddmePC C) (hf : s.frames c = .addme p pc :: fs)
    (h : s.CoreOk d c) : (addmeStep s c p fs pc).CoreOk d c := by
  rw [State.CoreOk, hf] at h
  have htop := (h.top _ _ rfl).1
  cases pc <;> simp only [addmeStep] <;> try split
  all_goals simp only [State.CoreOk, State.setFrames, State.dui, State.eui, State.writeOwner,
    State.setOwner, State.sendI, State.setTrigger, State.setWaiter, update_self]
  -- every handler past `DUI` has the interrupts off, and keeps them off up to `EUI`
  case start => exact h.replace fun _ => masked_dui _
  case eui => exact h.replace fun hg => (Bool.false_ne_true hg).elim
  all_goals exact h.replace fun _ => htop rfl

omit [DecidableEq K] in
/-- A handler for the message that was taken starts on top of handlers that are not masked. -/
theorem core_start (h : s.CoreOk d c) (hm : (s.main c).masked = false)
    (hp : d = .poll → s.main c = .app ∨ ∃ L, s.main c = .lockSpin L)
    (hfs : ∀ g ∈ fs, g.masked = false) (rest : List (AddmeCfd C K)) :
    ((s.setMsgs c rest).setFrames c (.addme p .start :: fs)).CoreOk d c := by
  simp only [State.CoreOk, State.setFrames, State.setMsgs, update_self]
  refine CoreOk.setFrames h hm hp ?_
  rintro g gs' hg
  obtain ⟨rfl, rfl⟩ := List.cons.inj hg
  exact ⟨fun hg => (Bool.false_ne_true hg).elim, hfs⟩

theorem core_frameStep (hf : s.frames c = f :: fs) (h : s.CoreOk d c) :
    (frameStep s c fs f).CoreOk d c := by
  have h' := h
  rw [State.CoreOk, hf] at h'
  have hm := h'.masked_eq_false (by simp)
  have hp : d = .poll → s.main c = .app ∨ ∃ L, s.main c = .lockSpin L :=
    fun hd => h'.polls hd (by simp)
  have hfs := (h'.top f fs rfl).2
  -- what is below the topmost handler is not masked, also when it comes to the top
  have hpop : (s.setFrames c fs).CoreOk d c := by
    simp only [State.CoreOk, State.setFrames, update_self]
    refine CoreOk.setFrames h hm hp fun g gs' hg => ?_
    rw [hg] at hfs
    refine ⟨fun hgm => ?_, fun g' hg' => hfs g' (List.mem_cons_of_mem g hg')⟩
    rw [hfs g List.mem_cons_self] at hgm
    cases hgm
  cases f with
  | addme p pc => exact core_addmeStep pc hf h
  | poll =>
    rw [frameStep_poll]
    split
    · exact hpop
    · simp only [State.CoreOk, State.setFrames, update_self]
      exact h'.replace fun hg => (Bool.false_ne_true hg).elim
  | handler =>
    rw [frameStep_handler]
    split
    · exact hpop
    · refine core_start h hm hp ?_ _
      intro g hg
      rcases List.mem_cons.mp hg with rfl | hg
      · rfl
      · exact hfs g hg

omit [DecidableEq K] in
/-- The thread moves, and nothing else of the core changes. -/
theorem core_goto {pc : MainPC C K} (hf : s.frames c = [])
    (h : CoreOk d pc [] (s.flags c) (s.waiterId c) (s.held · c)) : (s.goto c pc).CoreOk d c := by
  simp only [State.CoreOk, State.goto, update_self, hf]
  exact h

theorem core_mainStep (hf : s.frames c = []) (h : s.CoreOk d c)
    (hs : mainStep s c (s.main c) = some s') : s'.CoreOk d c := by
  rw [State.CoreOk, hf] at h
  cases hpc : s.main c <;> rw [hpc] at hs h <;> simp only [mainStep] at hs
  case lockSaveId L =>
    cases ho : s.ownerId L <;> rw [ho] at hs <;> cases hs <;> refine core_goto hf ?_
    all_goals exact h.lock rfl rfl rfl
  case unlockGet L =>
    cases hw : s.waiterId c <;> rw [hw] at hs <;> cases hs <;> refine core_goto hf ?_
    · exact absurd hw h.waiter
    · exact h.unlock rfl (h.masked rfl).2 rfl hw
  all_goals try split at hs
  all_goals try cases hs
  all_goals simp only [State.CoreOk, State.goto, State.setFrames, State.dui, State.eui,
    State.writeOwner, State.setOwner, State.sendI, State.setTrigger, State.setWaiter,
    State.lockReturns, State.lockReleased, State.setHeld, update_self, hf]
  -- the loop of `mylock` polls, and so does `EUI`
  case lockSpin.isFalse => rw [hpc]; exact h.poll (.inr ⟨_, rfl⟩)
  case unlockEui =>
    refine CoreOk.poll (.idle (fun hm => (Bool.false_ne_true hm).elim) rfl rfl ?_) (.inl rfl)
    exact trivial
  -- `myunlock` up to the releasing store, with its lock held
  case unlockDui => exact h.unlock rfl (masked_dui _) rfl trivial
  case unlockTest.isTrue hw => exact h.unlock rfl (h.masked rfl).2 rfl hw
  case unlockTest.isFalse hw => exact h.unlock rfl (h.masked rfl).2 rfl (not_not.mp hw)
  -- behind it
  case unlockTrigger => exact .idle (fun _ => (h.masked rfl).2) rfl rfl trivial
  case unlockClear => exact .idle (fun _ => (h.masked rfl).2) rfl rfl trivial
  case unlockFree => exact .idle (fun _ => (h.masked rfl).2) rfl rfl trivial
  case lockClear => exact .idle (fun hm => (Bool.false_ne_true hm).elim) rfl rfl trivial
  all_goals exact h.lock rfl rfl rfl

omit [DecidableEq K] in
/-- An interrupt needs the flag clear, so nothing on the core is masked. -/
theorem core_interrupt (h : s.CoreOk d c) (hd : d = .anywhere) (hm : ¬ Masked (s.flags c))
    (rest : List (AddmeCfd C K)) :
    ((s.setMsgs c rest).setFrames c (.addme p .start :: s.frames c)).CoreOk d c := by
  refine core_start h ?_ (fun hp => ?_) (fun g hg => ?_) rest
  · by_contra hpc
    exact hm (h.masked (by simpa using hpc)).2
  · rw [hd] at hp
    cases hp
  · cases hf : s.frames c with
    | nil => simp [hf] at hg
    | cons f fs =>
      obtain ⟨htop, hfs⟩ := h.top f fs hf
      rcases List.mem_cons.mp (hf ▸ hg) with rfl | hg
      · by_contra hg
        exact hm (htop (by simpa using hg))
      · exact hfs g hg

/-- Every step keeps every core in order. -/
theorem cores_step (h : ∀ x, s.CoreOk d x) (hs : step d s a = some s') (x : C) :
    s'.CoreOk d x := by
  by_cases hx : x = a.core
  case neg =>
    -- another core acts, and its own variables only change there
    have hsame := step_other hx hs
    have hx := h x
    rw [State.CoreOk] at hx ⊢
    rw [hsame.main, hsame.frames, hsame.flags, hsame.waiterId]
    simp only [hsame.held]
    exact hx
  subst hx
  cases a <;> simp only [Action.core, step] at hs ⊢
  case step c =>
    cases hf : s.frames c <;> rw [hf] at hs
    case nil => exact core_mainStep hf (h c) hs
    case cons f fs =>
      cases hs
      exact core_frameStep hf (h c)
  case interrupt c =>
    cases d <;> cases hq : s.msgBufs c <;> rw [hq] at hs <;> simp only [] at hs
    all_goals try cases hs
    split at hs <;> cases hs
    case anywhere.cons.isFalse hm => exact core_interrupt (h c) rfl hm _
  case poll c =>
    split at hs <;> cases hs
    case isTrue hc =>
      have hc' := h c
      rw [State.CoreOk, hc.1, hc.2] at hc'
      simp only [State.CoreOk, State.setFrames, update_self, hc.1]
      exact hc'.poll (.inl rfl)
  case mylock c L =>
    split at hs <;> cases hs
    case isTrue hc =>
      refine core_goto hc.2.1 (.goto (fun hm => (Bool.false_ne_true hm).elim)
        (fun L' hL => by cases hL) ?_ trivial)
      rintro L' ⟨⟩
      exact hc.2.2
  case myunlock c L =>
    split at hs <;> cases hs
    case isTrue hc =>
      refine core_goto hc.2.1 (.goto (fun hm => (Bool.false_ne_true hm).elim) ?_
        (fun L' hL => by cases hL) trivial)
      rintro L' ⟨⟩
      exact hc.2.2

end

end Stacklets.Uli

import Stacklets.Uli.Invariant

/-!
# `Stacklets.Uli.Places`: where the waiting cores go

One lemma for each kind of step that a request, a waiter or a trigger can take. Every step
moves at most one waiting core to another place, except for the store of a waiter over another
one, which loses the old waiter.
-/

set_option autoImplicit false

namespace Stacklets.Uli

open Function (update update_self update_of_ne)

section
variable {C K : Type*} [DecidableEq C] {s : State C K} {place : C → Place C} {a b c q x y : C}
  {w : Place C} {pc pc' : MainPC C K} {m m' : C → List (AddmeCfd C K)}
  {r r' : C → List (AddmeCfd C K × AddmePC C)} {ws ws' : C → Prop} {t t' : Bool}
  {p : AddmeCfd C K} {l l' : AddmePC C} {fs gs : List (Frame C K)} {L : K}

/-! ### What a place says -/

theorem Place.mem_messages :
    p ∈ w.messages pc c q ↔ w = .queued q ∧ pc = .lockSpin p.L ∧ p.askId = c := by
  unfold Place.messages
  split
  · split
    case isTrue hq => cases p; simp_all; tauto
    case isFalse hq => simp [hq]
  · rename_i hno
    simp only [List.not_mem_nil, false_iff, not_and]
    intro hw hpc
    exact (hno q p.L hw hpc).elim

theorem Place.mem_requests :
    (p, l) ∈ w.requests pc c b ↔ w = .handled b l ∧ pc = .lockSpin p.L ∧ p.askId = c := by
  unfold Place.requests
  split
  · split
    case isTrue hq => cases p; simp_all; tauto
    case isFalse hq => simp [hq]
  · rename_i hno
    simp only [List.not_mem_nil, false_iff, not_and]
    intro hw hpc
    exact (hno b l p.L hw hpc).elim

/-- A message is for a core that waits, and its place is the queue. -/
theorem PlacesOk.of_message (h : PlacesOk s place) (hp : p ∈ s.msgBufs q) :
    place p.askId = .queued q ∧ s.main p.askId = .lockSpin p.L := by
  have hmem : p ∈ (s.msgBufs q).filter (fun p' => p'.askId = p.askId) := by simp [hp]
  rw [(h p.askId).messages q, Place.mem_messages] at hmem
  exact ⟨hmem.1, hmem.2.1⟩

/-- A request is for a core that waits, and its place is the handler. -/
theorem PlacesOk.of_request (h : PlacesOk s place) (hp : (p, l) ∈ s.requests b) :
    place p.askId = .handled b l ∧ s.main p.askId = .lockSpin p.L := by
  have hmem : (p, l) ∈ (s.requests b).filter (fun r => r.1.askId = p.askId) := by simp [hp]
  rw [(h p.askId).requests b, Place.mem_requests] at hmem
  exact ⟨hmem.1, hmem.2.1⟩

/-- A place in a handler is that of a request of the handler. -/
theorem PlacesOk.exists_request (h : PlacesOk s place) (hc : place c = .handled b l) :
    ∃ L, s.main c = .lockSpin L ∧ (⟨L, c⟩, l) ∈ s.requests b := by
  have hne : place c ≠ .out := by simp [hc]
  rw [ne_eq, (h c).out, not_forall] at hne
  obtain ⟨L, hL⟩ := hne
  have hreq := (h c).requests b
  rw [hc, not_not.mp hL] at hreq
  have hmem : (⟨L, c⟩, l) ∈ (s.requests b).filter (fun r => r.1.askId = c) := by
    rw [hreq]
    simp [Place.requests]
  exact ⟨L, not_not.mp hL, (List.mem_filter.mp hmem).1⟩

theorem PlacesOk.frames_ne_nil (h : PlacesOk s place) (hc : place c = .handled b l) :
    s.frames b ≠ [] := by
  intro hf
  obtain ⟨L, -, hmem⟩ := h.exists_request hc
  simp [State.requests, hf] at hmem

/-- A core that does not wait has no place. -/
theorem PlacesOk.eq_out (h : PlacesOk s place) (hc : ∀ L, s.main c ≠ .lockSpin L) :
    place c = .out :=
  (h c).out.mpr hc

/-- A core that waits has a place. -/
theorem PlacesOk.ne_out (h : PlacesOk s place) (hc : s.main c = .lockSpin L) :
    place c ≠ .out := fun ho => (h c).out.mp ho L hc

theorem PlacesOk.exists_spin (h : PlacesOk s place) (hc : place c ≠ .out) :
    ∃ L, s.main c = .lockSpin L := by
  by_contra hno
  exact hc (h.eq_out fun L hL => hno ⟨L, hL⟩)

/-- The trigger of a core that waits is set when its place says so. -/
theorem PlacesOk.trigger_iff (h : PlacesOk s place) (hc : s.main c = .lockSpin L) :
    s.trigger c = true ↔ place c = .triggered := by
  refine ⟨fun ht => ?_, (h c).triggered⟩
  rcases (h c).trigger ht with hw | ⟨L', hL'⟩
  · exact hw
  · rw [hc] at hL'
    cases hL'

/-- The trigger is clear outside of the loop and of the store behind it. -/
theorem PlacesOk.trigger_eq_false (h : PlacesOk s place) (hc : ∀ L, s.main c ≠ .lockSpin L)
    (hl : ∀ L, s.main c ≠ .lockClear L) : s.trigger c = false := by
  by_contra ht
  rcases (h c).trigger (by simpa using ht) with hw | ⟨L, hL⟩
  · rw [h.eq_out hc] at hw
    cases hw
  · exact hl L hL

/-! ### Steps of a thread -/

/-- What the memory says of a core is the same. -/
theorem Located.congr (h : Located pc m r ws t c w)
    (hm : ∀ q, (m' q).filter (fun p => p.askId = c) = (m q).filter (fun p => p.askId = c))
    (hr : ∀ b, (r' b).filter (fun p => p.1.askId = c) = (r b).filter (fun p => p.1.askId = c))
    (hw : ∀ x, ws' x ↔ ws x) (ht : t' = t) : Located pc m' r' ws' t' c w where
  out := h.out
  messages q := (hm q).trans (h.messages q)
  requests b := (hr b).trans (h.requests b)
  linked x := (h.linked x).trans (hw x).symm
  triggered hw := ht.trans (h.triggered hw)
  trigger ht' := h.trigger (ht ▸ ht')

/-- A thread that does not wait moves. -/
theorem Located.goto (h : Located pc m r ws t c w) (hpc : ∀ L, pc ≠ .lockSpin L)
    (hpc' : ∀ L, pc' ≠ .lockSpin L) (hw : ∀ x, ws' x ↔ ws x)
    (ht : t' = true → ∃ L, pc' = .lockClear L) : Located pc' m r ws' t' c w := by
  obtain rfl := h.out.mpr hpc
  exact ⟨⟨fun _ => hpc', fun _ => rfl⟩, h.messages, h.requests,
    fun x => (h.linked x).trans (hw x).symm, (nomatch ·), fun h => .inr (ht h)⟩

/-- `waiter_id` names the waiter at every place but the last store of `myunlock`. -/
theorem State.waits_goto (hpc : ∀ L, s.main c ≠ .unlockClear L) (hpc' : ∀ L, pc' ≠ .unlockClear L)
    (x y : C) : (s.goto c pc').Waits x y ↔ s.Waits x y := by
  by_cases hx : x = c
  · simp [State.Waits, hx, hpc, hpc']
  · simp [State.Waits, hx]

/-- A thread moves outside of the loop of `mylock` and of the last store of `myunlock`. -/
theorem PlacesOk.goto (h : PlacesOk s place)
    (hpc : ∀ L, s.main c ≠ .lockSpin L ∧ s.main c ≠ .lockClear L ∧ s.main c ≠ .unlockClear L)
    (hpc' : ∀ L, pc' ≠ .lockSpin L ∧ pc' ≠ .unlockClear L) : PlacesOk (s.goto c pc') place := by
  have hwaits := State.waits_goto (fun L => (hpc L).2.2) fun L => (hpc' L).2
  intro x
  by_cases hx : x = c
  · subst hx
    have ht := h.trigger_eq_false (fun L => (hpc L).1) (fun L => (hpc L).2.1)
    simp only [State.goto, update_self]
    exact (h x).goto (fun L => (hpc L).1) (fun L => (hpc' L).1) (hwaits · x)
      (fun h => by rw [ht] at h; cases h)
  · simp only [State.goto, update_of_ne hx]
    exact (h x).congr (fun _ => rfl) (fun _ => rfl) (hwaits · x) rfl

/-- `*my_trigger = 0`, and `mylock` returns. -/
theorem PlacesOk.lockClear (h : PlacesOk s place) (hpc : s.main c = .lockClear L) :
    PlacesOk ((s.setTrigger c false).goto c .app) place := by
  have hwaits : ∀ x y, ((s.setTrigger c false).goto c .app).Waits x y ↔ s.Waits x y :=
    State.waits_goto (fun _ => by simp [State.setTrigger, hpc]) (by simp)
  intro x
  by_cases hx : x = c
  · subst hx
    simp only [State.goto, State.setTrigger, update_self]
    exact (h x).goto (by simp [hpc]) (by simp) (hwaits · x) (fun h => nomatch h)
  · simp only [State.goto, State.setTrigger, update_of_ne hx]
    exact (h x).congr (fun _ => rfl) (fun _ => rfl) (hwaits · x) rfl

/-- `waiter_id = -1` in `myunlock`, whose waiter has been triggered before. -/
theorem PlacesOk.unlockClear (h : PlacesOk s place) (hpc : s.main c = .unlockClear L) :
    PlacesOk ((s.setWaiter c none).goto c (.unlockEui L)) place := by
  have hwaits : ∀ x y,
      ((s.setWaiter c none).goto c (.unlockEui L)).Waits x y ↔ s.Waits x y := by
    intro x y
    by_cases hx : x = c
    · simp [State.Waits, hx, hpc]
    · simp [State.Waits, hx]
  intro x
  by_cases hx : x = c
  · subst hx
    have ht := h.trigger_eq_false (c := x) (by simp [hpc]) (by simp [hpc])
    simp only [State.goto, State.setWaiter, update_self]
    exact (h x).goto (by simp [hpc]) (by simp) (hwaits · x) (fun h => by simp [ht] at h)
  · simp only [State.goto, State.setWaiter, update_of_ne hx]
    exact (h x).congr (fun _ => rfl) (fun _ => rfl) (hwaits · x) rfl

/-- `SENDI` in `mylock`: the thread waits, and its request is in the queue of `q`. -/
theorem PlacesOk.lockSend (h : PlacesOk s place) (hpc : s.main c = .lockSend L q) :
    PlacesOk ((s.sendI q ⟨L, c⟩).goto c (.lockSpin L)) (update place c (.queued q)) := by
  have hwaits : ∀ x y,
      ((s.sendI q ⟨L, c⟩).goto c (.lockSpin L)).Waits x y ↔ s.Waits x y :=
    State.waits_goto (fun _ => by simp [State.sendI, hpc]) (by simp)
  have hout : place c = .out := h.eq_out (by simp [hpc])
  intro x
  by_cases hx : x = c
  · subst hx
    have ht := h.trigger_eq_false (c := x) (by simp [hpc]) (by simp [hpc])
    have hx := h x
    rw [hout] at hx
    simp only [State.goto, State.sendI, update_self]
    refine ⟨by simp, fun q' => ?_, hx.requests, fun y => ?_, (nomatch ·), ?_⟩
    · -- there was no message for the core before
      have hnone : (s.msgBufs q').filter (fun p => p.askId = x) = [] := hx.messages q'
      by_cases hq : q' = q
      · subst hq
        simp [Place.messages, hnone]
      · simp [Place.messages, hnone, hq, Ne.symm hq]
    · have : ¬ s.Waits y x := fun hw => nomatch (hx.linked y).mpr hw
      simpa [this] using (hwaits y x).not.mpr this
    · simp [ht]
  · simp only [State.goto, State.sendI, update_of_ne hx]
    refine (h x).congr (fun q' => ?_) (fun _ => rfl) (hwaits · x) rfl
    by_cases hq : q' = q
    · subst hq
      simp [Ne.symm hx]
    · simp [hq]

/-- The loop of `mylock` ends. -/
theorem PlacesOk.lockSpin (h : PlacesOk s place) (hpc : s.main c = .lockSpin L)
    (ht : s.trigger c = true) :
    PlacesOk (s.goto c (.lockClear L)) (update place c .out) := by
  have hwaits : ∀ x y, (s.goto c (.lockClear L)).Waits x y ↔ s.Waits x y :=
    State.waits_goto (by simp [hpc]) (by simp)
  have htrig : place c = .triggered := (h.trigger_iff hpc).mp ht
  intro x
  by_cases hx : x = c
  · subst hx
    have hx := h x
    rw [htrig, hpc] at hx
    simp only [State.goto, update_self]
    refine ⟨by simp, hx.messages, hx.requests, fun y => ?_, (nomatch ·), by simp⟩
    have : ¬ s.Waits y x := fun hw => nomatch (hx.linked y).mpr hw
    simpa using (hwaits y x).not.mpr this
  · simp only [State.goto, update_of_ne hx]
    exact (h x).congr (fun _ => rfl) (fun _ => rfl) (hwaits · x) rfl

/-- `*next_trigger = 1` in `myunlock`. -/
theorem PlacesOk.unlockTrigger (h : PlacesOk s place) (hpc : s.main c = .unlockTrigger L a)
    (ha : s.waiterId c = some a) :
    PlacesOk ((s.setTrigger a true).goto c (.unlockClear L))
      (update place a .triggered) := by
  -- `a` is the waiter of `c` and of nobody else
  have hlink : place a = .linked c := ((h a).linked c).mpr ⟨ha, by simp [hpc]⟩
  obtain ⟨L', hspin⟩ := h.exists_spin (c := a) (by simp [hlink])
  have hac : a ≠ c := by
    rintro rfl
    simp [hpc] at hspin
  have hold : ∀ x, s.Waits x a ↔ x = c := fun x => by
    rw [← (h a).linked x, hlink, Place.linked.injEq, eq_comm]
  have hwaits : ∀ x y, ((s.setTrigger a true).goto c (.unlockClear L)).Waits x y ↔
      s.Waits x y ∧ x ≠ c := by
    intro x y
    by_cases hx : x = c
    · simp [State.Waits, hx]
    · simp [State.Waits, hx]
  intro x
  by_cases hxa : x = a
  · subst hxa
    have hx := h x
    rw [hlink] at hx
    simp only [State.goto, State.setTrigger, update_self, update_of_ne hac]
    refine ⟨by simp [hspin], hx.messages, hx.requests, fun y => ?_, fun _ => rfl,
      fun _ => .inl rfl⟩
    have : ¬ (s.Waits y x ∧ y ≠ c) := by
      rw [hold]
      exact fun h => h.2 h.1
    simpa using (hwaits y x).not.mpr this
  · have hkeep : ∀ y, ((s.setTrigger a true).goto c (.unlockClear L)).Waits y x ↔ s.Waits y x := by
      intro y
      rw [hwaits, and_iff_left_iff_imp]
      rintro ⟨hy, -⟩ rfl
      exact hxa (Option.some.inj (hy.symm.trans ha))
    by_cases hx : x = c
    · subst hx
      have ht := h.trigger_eq_false (c := x) (by simp [hpc]) (by simp [hpc])
      simp only [State.goto, State.setTrigger, update_self, update_of_ne hxa]
      exact (h x).goto (by simp [hpc]) (by simp) hkeep (fun h => by simp [ht] at h)
    · simp only [State.goto, State.setTrigger, update_of_ne hxa, update_of_ne hx]
      exact (h x).congr (fun _ => rfl) (fun _ => rfl) hkeep rfl

/-! ### Steps of a handler -/

omit [DecidableEq C] in
theorem Frame.request_addme (hl : l ≠ .eui) : (Frame.addme p l).request = some (p, l) := by
  cases l <;> first | rfl | exact absurd rfl hl

theorem State.requests_setFrames (s : State C K) (c b : C) (gs : List (Frame C K)) :
    (s.setFrames c gs).requests b =
      if b = c then gs.filterMap Frame.request else s.requests b := by
  by_cases hb : b = c <;> simp [State.requests, hb]

omit [DecidableEq C] in
theorem State.requests_cons (hf : s.frames c = .addme p l :: fs) (hl : l ≠ .eui) :
    s.requests c = (p, l) :: fs.filterMap Frame.request := by
  rw [State.requests, hf, List.filterMap_cons, Frame.request_addme hl]

/-- Handlers come and go, and no request with them. -/
theorem PlacesOk.setFrames (h : PlacesOk s place)
    (hg : gs.filterMap Frame.request = s.requests c) : PlacesOk (s.setFrames c gs) place := by
  have hreq : (s.setFrames c gs).requests = s.requests := by
    funext b
    rw [State.requests_setFrames]
    split
    · rename_i hb
      rw [hb, hg]
    · rfl
  intro x
  rw [hreq]
  exact h x

/-- The handler of `p` has no other request of the same core below it. -/
theorem PlacesOk.filter_below (h : PlacesOk s place) (hf : s.frames c = .addme p l :: fs)
    (hl : l ≠ .eui) : (fs.filterMap Frame.request).filter (fun r => r.1.askId = p.askId) = [] := by
  have hreq := (h p.askId).requests c
  obtain ⟨hw, hspin⟩ := h.of_request (p := p) (l := l) (b := c)
    (by rw [State.requests_cons hf hl]; exact List.mem_cons_self)
  rw [State.requests_cons hf hl, hw, hspin] at hreq
  simpa [Place.requests] using hreq

/-- One waiting core goes to another place, and nothing that is said of the others changes. -/
theorem PlacesOk.relocate {s' : State C K} (h : PlacesOk s place) (hmain : s'.main = s.main)
    (hm : ∀ x, x ≠ a → ∀ q, (s'.msgBufs q).filter (fun p => p.askId = x) =
      (s.msgBufs q).filter (fun p => p.askId = x))
    (hr : ∀ x, x ≠ a → ∀ b, (s'.requests b).filter (fun r => r.1.askId = x) =
      (s.requests b).filter (fun r => r.1.askId = x))
    (hw : ∀ x, x ≠ a → ∀ y, s'.Waits y x ↔ s.Waits y x)
    (ht : ∀ x, x ≠ a → s'.trigger x = s.trigger x)
    (ha : Located (s.main a) s'.msgBufs s'.requests (s'.Waits · a) (s'.trigger a) a w) :
    PlacesOk s' (update place a w) := by
  intro x
  rw [hmain]
  by_cases hx : x = a
  · subst hx
    rw [update_self]
    exact ha
  · rw [update_of_ne hx]
    exact (h x).congr (hm x hx) (hr x hx) (hw x hx) (ht x hx)

/-- A message is taken from the queue, and its handler starts. -/
theorem PlacesOk.dequeue {rest : List (AddmeCfd C K)} (h : PlacesOk s place)
    (hq : s.msgBufs c = p :: rest) :
    PlacesOk ((s.setMsgs c rest).setFrames c (.addme p .start :: s.frames c))
      (update place p.askId (.handled c .start)) := by
  obtain ⟨hw, hspin⟩ := h.of_message (p := p) (q := c) (by simp [hq])
  have hreq : ∀ b, ((s.setMsgs c rest).setFrames c (.addme p .start :: s.frames c)).requests b =
      if b = c then (p, .start) :: s.requests c else s.requests b :=
    fun b => (s.setMsgs c rest).requests_setFrames c b _
  have hp := h p.askId
  rw [hw, hspin] at hp
  refine h.relocate rfl (fun x hx q => ?_) (fun x hx b => ?_) (fun _ _ _ => .rfl)
    (fun _ _ => rfl) ⟨by simp [hspin], fun q => ?_, fun b => ?_, fun y => ?_, (nomatch ·), ?_⟩
  · by_cases hqc : q = c
    · subst hqc
      simp [hq, Ne.symm hx]
    · simp [hqc]
  · rw [hreq]
    by_cases hbc : b = c
    · simp [hbc, Ne.symm hx]
    · simp [hbc]
  · -- it was the only message for the core
    have hmsg := hp.messages q
    by_cases hqc : q = c
    · subst hqc
      simpa [hq, Place.messages] using hmsg
    · simpa [hqc, Ne.symm hqc, Place.messages] using hmsg
  · have hnone : (s.requests b).filter (fun r => r.1.askId = p.askId) = [] := hp.requests b
    rw [hreq, hspin]
    by_cases hbc : b = c
    · subst hbc
      simp [Place.requests, hnone]
    · simp [Place.requests, hnone, hbc, Ne.symm hbc]
  · exact ⟨(nomatch ·), fun hy => nomatch (hp.linked y).mpr hy⟩
  · intro ht
    simpa [hw] using hp.trigger ht

section
variable (h : PlacesOk s place) (hf : s.frames c = .addme p l :: fs) (hl : l ≠ .eui)
include h hf hl

/-- The handler of `p` has the place of the asker. -/
theorem PlacesOk.of_top : place p.askId = .handled c l ∧ s.main p.askId = .lockSpin p.L := by
  refine h.of_request ?_
  rw [State.requests_cons hf hl]
  exact List.mem_cons_self

/-- The handler of `p` goes on. -/
theorem PlacesOk.handle (hl' : l' ≠ .eui) :
    PlacesOk (s.setFrames c (.addme p l' :: fs))
      (update place p.askId (.handled c l')) := by
  obtain ⟨hw, hspin⟩ := h.of_top hf hl
  have hbelow := h.filter_below hf hl
  have hreq : ∀ b, (s.setFrames c (.addme p l' :: fs)).requests b =
      if b = c then (p, l') :: fs.filterMap Frame.request else s.requests b := fun b => by
    rw [State.requests_setFrames, List.filterMap_cons, Frame.request_addme hl']
  have hp := h p.askId
  rw [hw, hspin] at hp
  refine h.relocate rfl (fun _ _ _ => rfl) (fun x hx b => ?_) (fun _ _ _ => .rfl)
    (fun _ _ => rfl) ⟨by simp [hspin], fun q => ?_, fun b => ?_, fun y => ?_, (nomatch ·), ?_⟩
  · rw [hreq]
    by_cases hbc : b = c
    · simp [hbc, State.requests_cons hf hl, Ne.symm hx]
    · simp [hbc]
  · exact hp.messages q
  · rw [hreq, hspin]
    by_cases hbc : b = c
    · simp [hbc, Place.requests, hbelow]
    · have := hp.requests b
      simpa [hbc, Ne.symm hbc, Place.requests] using this
  · exact ⟨(nomatch ·), fun hy => nomatch (hp.linked y).mpr hy⟩
  · intro ht
    simpa [hw] using hp.trigger ht

/-- The handler of `p` is done: the requests that are left. -/
theorem PlacesOk.requests_done (x b : C) :
    (if b = c then fs.filterMap Frame.request else s.requests b).filter
      (fun r => r.1.askId = x) =
    if x = p.askId then [] else (s.requests b).filter (fun r => r.1.askId = x) := by
  obtain ⟨hw, hspin⟩ := h.of_top hf hl
  have hbelow := h.filter_below hf hl
  have hp := (h p.askId).requests b
  rw [hw, hspin] at hp
  by_cases hx : x = p.askId
  · subst hx
    by_cases hbc : b = c
    · simpa [hbc] using hbelow
    · simpa [hbc, Ne.symm hbc, Place.requests] using hp
  · by_cases hbc : b = c
    · simp [hbc, State.requests_cons hf hl, hx, Ne.symm hx]
    · simp [hbc, hx]

/-- `SENDI` in `addme`: the request goes to the queue of `q`. -/
theorem PlacesOk.forward (q : C) :
    PlacesOk ((s.sendI q p).setFrames c (.addme p .eui :: fs))
      (update place p.askId (.queued q)) := by
  obtain ⟨hw, hspin⟩ := h.of_top hf hl
  have hreq : ∀ b, ((s.sendI q p).setFrames c (.addme p .eui :: fs)).requests b =
      if b = c then fs.filterMap Frame.request else s.requests b :=
    fun b => (s.sendI q p).requests_setFrames c b _
  have hp := h p.askId
  rw [hw, hspin] at hp
  refine h.relocate rfl (fun x hx q' => ?_) (fun x hx b => ?_) (fun _ _ _ => .rfl)
    (fun _ _ => rfl) ⟨by simp [hspin], fun q' => ?_, fun b => ?_, fun y => ?_, (nomatch ·), ?_⟩
  · by_cases hq : q' = q
    · subst hq
      simp [Ne.symm hx]
    · simp [hq]
  · rw [hreq, h.requests_done hf hl, if_neg hx]
  · have hnone : (s.msgBufs q').filter (fun m => m.askId = p.askId) = [] := hp.messages q'
    rw [hspin]
    by_cases hq : q' = q
    · subst hq
      simp [Place.messages, hnone]
    · simp [Place.messages, hnone, hq, Ne.symm hq]
  · rw [hreq, h.requests_done hf hl, if_pos rfl]
    rfl
  · exact ⟨(nomatch ·), fun hy => nomatch (hp.linked y).mpr hy⟩
  · intro ht
    simpa [hw] using hp.trigger ht

/-- `*next_trigger = 1` in `addme`. -/
theorem PlacesOk.grant :
    PlacesOk ((s.setTrigger p.askId true).setFrames c (.addme p .eui :: fs))
      (update place p.askId .triggered) := by
  obtain ⟨hw, hspin⟩ := h.of_top hf hl
  have hreq : ∀ b,
      ((s.setTrigger p.askId true).setFrames c (.addme p .eui :: fs)).requests b =
        if b = c then fs.filterMap Frame.request else s.requests b :=
    fun b => (s.setTrigger p.askId true).requests_setFrames c b _
  have hp := h p.askId
  rw [hw, hspin] at hp
  refine h.relocate rfl (fun _ _ _ => rfl) (fun x hx b => ?_) (fun _ _ _ => .rfl)
    (fun x hx => ?_) ⟨by simp [hspin], hp.messages, fun b => ?_, fun y => ?_, fun _ => ?_, ?_⟩
  · rw [hreq, h.requests_done hf hl, if_neg hx]
  · exact update_of_ne hx _ _
  · rw [hreq, h.requests_done hf hl, if_pos rfl]
    rfl
  · exact ⟨(nomatch ·), fun hy => nomatch (hp.linked y).mpr hy⟩
  · exact update_self _ _ _
  · exact fun _ => .inl rfl

/-- `waiter_id = ask_id` in `addme`. The asker is the waiter now, and the old one is lost. -/
theorem PlacesOk.link (hmain : ∀ L, s.main c ≠ .unlockClear L) :
    PlacesOk ((s.setWaiter c (some p.askId)).setFrames c (.addme p .eui :: fs)) fun x =>
      if x = p.askId then .linked c else if s.waiterId c = some x then .lost else place x := by
  obtain ⟨hw, hspin⟩ := h.of_top hf hl
  have hreq : ∀ b,
      ((s.setWaiter c (some p.askId)).setFrames c (.addme p .eui :: fs)).requests b =
        if b = c then fs.filterMap Frame.request else s.requests b :=
    fun b => (s.setWaiter c (some p.askId)).requests_setFrames c b _
  have hwaits : ∀ y x,
      ((s.setWaiter c (some p.askId)).setFrames c (.addme p .eui :: fs)).Waits y x ↔
        if y = c then x = p.askId else s.Waits y x := by
    intro y x
    by_cases hy : y = c
    · simp [State.Waits, hy, hmain, eq_comm]
    · simp [State.Waits, hy]
  intro x
  beta_reduce
  have hx := h x
  by_cases hxa : x = p.askId
  · subst hxa
    rw [hw, hspin] at hx
    rw [if_pos rfl]
    refine ⟨by simp [hspin], fun q => ?_, fun b => ?_, fun y => ?_, (nomatch ·), fun ht => ?_⟩
    · exact hx.messages q
    · rw [hreq, h.requests_done hf hl, if_pos rfl]
      rfl
    · rw [hwaits]
      by_cases hy : y = c
      · simp [hy]
      · have : ¬ s.Waits y p.askId := fun hy => nomatch (hx.linked y).mpr hy
        simp [hy, Ne.symm hy, this]
    · simpa [hw] using hx.trigger ht
  · rw [if_neg hxa]
    have hreq' : ∀ b, (((s.setWaiter c (some p.askId)).setFrames c
        (.addme p .eui :: fs)).requests b).filter (fun r => r.1.askId = x) =
          (s.requests b).filter (fun r => r.1.askId = x) := fun b => by
      rw [hreq, h.requests_done hf hl, if_neg hxa]
    by_cases hold : s.waiterId c = some x
    · -- the old waiter
      rw [if_pos hold]
      have hlink : place x = .linked c := (hx.linked c).mpr ⟨hold, hmain⟩
      obtain ⟨L, hL⟩ := h.exists_spin (c := x) (by simp [hlink])
      rw [hlink] at hx
      refine ⟨by simp [hL], hx.messages, fun b => (hreq' b).trans (hx.requests b), fun y => ?_,
        (nomatch ·), fun ht => ?_⟩
      · rw [hwaits]
        by_cases hy : y = c
        · simp [hy, hxa]
        · have : ¬ s.Waits y x := fun hw => hy (Place.linked.inj ((hx.linked y).mpr hw)).symm
          simp [hy, this]
      · simpa using hx.trigger ht
    · rw [if_neg hold]
      refine hx.congr (fun _ => rfl) hreq' (fun y => ?_) rfl
      rw [hwaits]
      by_cases hy : y = c
      · simp [hy, State.Waits, hold, hxa]
      · simp [hy]

end

end

end Stacklets.Uli

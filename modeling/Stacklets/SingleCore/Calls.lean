import Stacklets.SingleCore.Invariant

/-!
# `Stacklets.SingleCore.Calls`: the calls keep the invariants

For each call of the thread package one lemma about the queues (`Kept`), and one about the
records and the results (`Inv`), which takes the queues from the first one. A call that gives up
the processor ends in `mythread_schedule_next`, so it is split there: up to that point it leads to
a state in which no thread runs, and `scheduleNext` does the rest.

`mythread_exit` hands the exiting thread out before it frees it. In between, `Inv` has the second
parameter `some c`.
-/

set_option autoImplicit false

namespace Stacklets.SingleCore

open Function (update update_self update_of_ne update_idem update_comm update_eq_self)

namespace State

section

variable {s s' : State} {c : Nat} {r h : Option Nat} {W : List Nat}

/-! ### `mythread_schedule_next` -/

/-- The first ready thread is resumed. -/
theorem Kept.resume {t : Nat} {rest : List Nat} (hK : s.Kept W none)
    (hready : s.ready = t :: rest) : ({ s with ready := rest }.resume t).Kept W (some t) := by
  have hplaces : Places none s.ctx (t :: rest) s.idle := hready ▸ hK.places
  have hisReady : (s.ctx t).isReady = true := hplaces.ready t List.mem_cons_self
  -- a ready thread waits for nothing
  have hnot : ∀ k : Context, k.isReady = false → s.ctx t ≠ k := by
    rintro k hk rfl
    exact absurd hisReady (by rw [hk]; nofun)
  refine hK.modify ({ · with context := .running }) rfl rfl (hK.lt_count (hnot _ rfl))
    hplaces.resume (fun _ => rfl) (fun heq => absurd heq (hnot _ rfl)) ?_ ?_
  · exact fun x hx hmem => absurd hmem (hK.notMem_waiters (hnot _ rfl) hx)
  · intro x hx
    refine .inr ⟨?_, hx⟩
    rintro rfl
    exact hnot _ rfl (hK.waiting _ hx)

/-- `mythread_schedule_next`, when no thread runs any more. -/
theorem Kept.scheduleNext (hK : s.Kept W none) : s.scheduleNext.Kept W s.scheduleNext.current := by
  unfold State.scheduleNext
  cases hready : s.ready with
  | nil => exact hK.same rfl rfl hready.symm rfl
  | cons t rest => exact hK.resume hready

/-- The return of a thread that is resumed. -/
theorem returns_of_isReady (hrec : (s.threads c).Ok (c ∈ s.freed))
    (hready : (s.ctx c).isReady = true) :
    (∃ who v, s.ctx c = .woken who v ∧ s.returns c = [⟨c, who, some v⟩]) ∨
      (s.returns c = [] ∧ ∀ who v, s.ctx c ≠ .woken who v) := by
  unfold returns
  unfold ctx at hready ⊢
  cases hk : (s.threads c).context with
  | woken who v => exact .inl ⟨who, v, rfl, by rw [hrec.lastjoin who v hk]; rfl⟩
  | fresh | yielded => exact .inr ⟨rfl, nofun⟩
  | unborn | joining _ | running | exited => rw [hk] at hready; cases hready

/-- A woken thread is resumed, and its join returns the thread that woke it. -/
theorem Results.resume {who : Option Nat} {v : Nat} (hres : s.Results none)
    (hc : s.ctx c = .woken who v)
    (hs : SameRecords (s.modify c ({ · with context := .running })) s')
    (hjoins : s'.joins = s.joins ++ [⟨c, who, some v⟩]) : s'.Results none := by
  have hctx : s'.ctx = update s.ctx c .running := hs.ctx.trans ctx_modify
  have hfreed : s'.freed = s.freed := hs.freed
  have hfin : ∀ t v, s.Finished t v → s'.Finished t v := fun t v hfin =>
    hs.finished (hfin.modify rfl (fun heq => by rw [hc] at heq; cases heq) fun _ => rfl)
  have hold : ∀ t who' v', s'.ctx t = .woken who' v' → t ≠ c ∧ s.ctx t = .woken who' v' := by
    intro t who' v' ht
    rw [hctx] at ht
    by_cases htc : t = c
    · subst htc
      rw [update_self] at ht
      cases ht
    · rw [update_of_ne htc] at ht
      exact ⟨htc, ht⟩
  have hv : v ∈ s.freed := (hres.wokenBy c who v hc).resolve_right nofun
  constructor
  case wokenBy =>
    intro t who' v' ht
    rw [hfreed]
    exact hres.wokenBy t who' v' (hold t who' v' ht).2
  case wokenChild => exact fun t v' ht => hfin t v' (hres.wokenChild t v' (hold t none v' ht).2)
  case wokenNew =>
    intro t v' ht e he
    obtain ⟨htc, ht⟩ := hold t none v' ht
    rw [hjoins] at he
    rcases List.mem_append.mp he with he | he
    · exact hres.wokenNew t v' ht e he
    · -- `t` waits for anyone, so nobody else was woken by the same thread
      rw [List.mem_singleton.mp he]
      intro heq
      cases heq
      exact htc (hres.wokenOnce t v ht c who hc).symm
  case wokenOnce =>
    exact fun t v' ht t' who' ht' =>
      hres.wokenOnce t v' (hold t none v' ht).2 t' who' (hold t' who' v' ht').2
  case returned =>
    intro e he
    rw [hjoins] at he
    rw [hfreed]
    rcases List.mem_append.mp he with he | he
    · exact hres.returned e he
    · rw [List.mem_singleton.mp he]
      exact ⟨v, hv, rfl⟩
  case joins =>
    refine hres.joins.append hjoins hfin fun hwho => ?_
    subst hwho
    exact ⟨v, rfl, hfin c v (hres.wokenChild c v hc), hres.wokenNew c v hc⟩

/-- The first thread of the ready queue runs. -/
theorem Inv.resume {t : Nat} {rest : List Nat} (hI : s.Inv none none)
    (hready : s.ready = t :: rest) :
    ({ s with ready := rest }.resume t).Inv (some t) none := by
  have hisReady : (s.ctx t).isReady = true :=
    hI.places.ready t (by rw [hready]; exact List.mem_cons_self)
  have hexited : s.ctx t ≠ .exited := fun heq => by rw [heq] at hisReady; cases hisReady
  have htouch : ({ s with ready := rest } : State).touch [t] = { s with ready := rest } :=
    touch_eq (by simpa using hI.notFreed hexited)
  have hkept := hI.toKept.resume hready
  unfold State.resume at hkept ⊢
  rw [htouch] at hkept ⊢
  refine hI.modify ({ · with context := .running }) ⟨rfl, rfl, rfl, rfl⟩ hkept ?_ rfl rfl nofun ?_
  · refine ⟨fun hdone => ?_, nofun, fun hmem => ?_, (hI.records t).detached, ?_, ?_⟩
    · exact absurd ((hI.records t).done hdone) hexited
    · exact absurd hmem (hI.notFreed hexited)
    · exact fun _ heq => nomatch heq
    · exact fun _ _ heq => nomatch heq
  · rcases returns_of_isReady (hI.records t) hisReady with ⟨who, v, hw, hret⟩ | ⟨hret, hw⟩
    · exact hI.results.resume hw ⟨rfl, rfl, rfl, rfl⟩ (congrArg (s.joins ++ ·) hret)
    · have hjoins : s.joins ++ s.returns t = s.joins := by rw [hret, List.append_nil]
      exact hI.results.modify ({ · with context := .running }) ⟨rfl, rfl, rfl, rfl⟩ hjoins rfl
        (fun heq => absurd heq hexited) (fun heq => absurd heq hexited) nofun

/-- `mythread_schedule_next` keeps the invariant, also when nothing is ready. -/
theorem Inv.scheduleNext (hI : s.Inv none none) :
    s.scheduleNext.Inv s.scheduleNext.current none := by
  unfold State.scheduleNext
  cases hready : s.ready with
  | nil => exact hI.same ⟨rfl, rfl, rfl, rfl⟩ hready.symm rfl rfl
  | cons t rest => exact hI.resume hready

/-! ### `mythread_yield` -/

/-- A thread in the ready queue was not freed. -/
theorem Inv.ready_notFreed (hI : s.Inv r h) {t : Nat} (ht : t ∈ s.ready) : t ∉ s.freed := by
  refine hI.notFreed fun heq => ?_
  have hready := hI.places.ready t ht
  rw [heq] at hready
  cases hready

/-- A thread in the idle queue was not freed. -/
theorem Inv.idle_notFreed (hI : s.Inv r h) {t : Nat} (ht : t ∈ s.idle) : t ∉ s.freed := by
  refine hI.notFreed fun heq => ?_
  have hjoining := hI.places.idle t ht
  rw [heq] at hjoining
  cases hjoining

/-- `enqThread` walks records that were not freed, and appends. -/
theorem enqThread_eq (hready : ∀ t ∈ s.ready, t ∉ s.freed) (hc : c ∉ s.freed) :
    s.enqThread c = { s with ready := s.ready ++ [c] } := by
  have htouch : s.touch (s.ready.getLast?.toList ++ [c]) = s := by
    refine touch_eq fun t ht => ?_
    rcases List.mem_append.mp ht with hlast | hlast
    · exact hready t (List.mem_of_getLast? (Option.mem_toList.mp hlast))
    · rw [List.mem_singleton.mp hlast]
      exact hc
  unfold enqThread
  rw [htouch]

/-- The thread that runs was not freed. -/
theorem Inv.notFreed_running (hI : s.Inv (some c) h) : c ∉ s.freed :=
  hI.notFreed (by rw [hI.ctx_running]; exact nofun)

/-- The thread that runs goes on to a context in which it does not run. -/
theorem Kept.stop {W' : List Nat} (f : Thread → Thread) (hK : s.Kept W (some c))
    (hthreads : s'.threads = (s.modify c f).threads) (hcount : s'.count = s.count)
    (hwaiters : (f (s.threads c)).waiters = (s.threads c).waiters)
    (hrunning : (f (s.threads c)).context ≠ .running)
    (hready : s'.ready = s.ready ++ [c] ∧ (f (s.threads c)).context.isReady = true ∨
      s'.ready = s.ready)
    (hidle : s'.idle = c :: s.idle ∧ (f (s.threads c)).context.isJoining = true ∨
      s'.idle = s.idle)
    (hnew : ∀ t ∈ W', t = c ∧ (f (s.threads c)).context = .joining none ∨ t ∈ W) :
    s'.Kept W' none := by
  have hc := hK.ctx_running
  refine hK.modify f hthreads hcount (hK.lt_count (by rw [hc]; nofun))
    (hK.places.stop hrunning hready hidle) (fun _ => hwaiters)
    (fun heq => by rw [hc] at heq; cases heq) ?_ ?_
  · exact fun x hx hmem => absurd hmem (hK.notMem_waiters (by rw [hc]; nofun) hx)
  · intro t ht
    refine (hnew t ht).imp_right fun hin => ⟨?_, hin⟩
    rintro rfl
    rw [hK.waiting t hin] at hc
    cases hc

/-- The thread that runs stops: `f` is what it writes to its own record. -/
theorem Inv.stop (f : Thread → Thread) (hI : s.Inv (some c) none)
    (hs : SameRecords (s.modify c f) s') (hjoins : s'.joins = s.joins)
    (hkept : s'.Kept [] none) (hrecord : (f (s.threads c)).Ok False)
    (hchildren : (f (s.threads c)).children = (s.threads c).children)
    (hparent : (f (s.threads c)).parent = (s.threads c).parent)
    (hunborn : (f (s.threads c)).context ≠ .unborn)
    (hwoken : ∀ who v, (f (s.threads c)).context ≠ .woken who v) : s'.Inv none none := by
  have hexited : s.ctx c ≠ .exited := by rw [hI.ctx_running]; exact nofun
  have hfreed : (c ∈ s.freed) = False := eq_false hI.notFreed_running
  exact hI.modify f hs hkept (by rw [hfreed]; exact hrecord) hchildren hparent (fun _ => hunborn)
    (hI.results.modify f hs hjoins hparent (fun heq => absurd heq hexited)
      (fun heq => absurd heq hexited) fun who v heq => absurd heq (hwoken who v))

/-- A thread sets its done bit in its exit, so it does not run any more. -/
theorem Inv.not_done_running (hI : s.Inv (some c) h) : (s.threads c).doneBit ≠ true := by
  intro hdone
  have hexited : s.ctx c = .exited := (hI.records c).done hdone
  rw [hI.ctx_running] at hexited
  cases hexited

/-- The processor is not given up yet. -/
theorem Kept.enqSelf (hK : s.Kept W (some c)) :
    ((s.enqThread c).modify c ({ · with context := .yielded })).Kept W none :=
  hK.stop ({ · with context := .yielded }) rfl rfl rfl nofun (.inl ⟨rfl, rfl⟩) (.inr rfl)
    fun _ ht => .inr ht

/-- `mythread_yield` keeps the queues. -/
theorem Kept.yield (hK : s.Kept W (some c)) : (s.yield c).Kept W (s.yield c).current :=
  hK.enqSelf.scheduleNext

/-- `mythread_yield` keeps the invariant. -/
theorem Inv.yield (hI : s.Inv (some c) none) : (s.yield c).Inv (s.yield c).current none := by
  have hkept := hI.toKept.enqSelf
  unfold State.yield
  refine Inv.scheduleNext ?_
  rw [enqThread_eq (fun _ => hI.ready_notFreed) hI.notFreed_running] at hkept ⊢
  refine hI.stop ({ · with context := .yielded }) ⟨rfl, rfl, rfl, rfl⟩ rfl hkept
    ⟨?_, ?_, False.elim, ?_, ?_, ?_⟩ rfl rfl nofun nofun
  · exact fun hdone => absurd hdone hI.not_done_running
  · exact fun heq => nomatch heq
  · exact fun _ => (hI.records c).detached hI.notFreed_running
  · exact fun _ heq => nomatch heq
  · exact fun _ _ heq => nomatch heq

/-! ### `mythread_join` -/

/-- The thread that runs goes to the idle queue. -/
theorem Kept.block (hK : s.Kept W (some c)) (who : Option Nat) :
    ({ s.modify c (Thread.waitFor who) with idle := c :: s.idle } : State).Kept W none :=
  hK.stop (Thread.waitFor who) rfl rfl rfl nofun (.inr rfl) (.inl ⟨rfl, rfl⟩) fun _ ht => .inr ht

/-- A join that has to wait parks the caller in the idle queue. -/
theorem Inv.block (hI : s.Inv (some c) none) (who : Option Nat) :
    ({ s.modify c (Thread.waitFor who) with idle := c :: s.idle } : State).Inv none none := by
  refine hI.stop (Thread.waitFor who) ⟨rfl, rfl, rfl, rfl⟩ rfl (hI.toKept.block who)
    ⟨?_, ?_, False.elim, ?_, ?_, ?_⟩ rfl rfl nofun nofun
  · exact fun hdone => absurd hdone hI.not_done_running
  · exact fun heq => nomatch heq
  · exact fun _ => (hI.records c).detached hI.notFreed_running
  · intro who' heq
    cases heq
    rfl
  · exact fun _ _ heq => nomatch heq

/-- A thread that waits for `w` is put on the list of `w`. -/
theorem Kept.push {w : Nat} (hK : s.Kept W r) (hc : s.ctx c = .joining (some w))
    (hwaitingon : (s.threads c).waitingon = some w)
    (hnew : s.ctx w ≠ .exited → c ∉ (s.threads w).waiters) (hlt : w < s.count) :
    (s.modify w fun t => { t with waiters := c :: t.waiters }).Kept W r := by
  have hctx : (s.modify w fun t => { t with waiters := c :: t.waiters }).ctx = s.ctx := by
    rw [ctx_modify]
    exact update_eq_self w s.ctx
  refine ⟨hctx ▸ hK.places, ?_, ?_, hctx ▸ hK.waiting, ?_⟩
  · intro x hx
    rw [hctx] at hx
    by_cases hxw : x = w
    · subst hxw
      rw [modify_self]
      exact List.nodup_cons.mpr ⟨hnew hx, hK.nodup x hx⟩
    · rw [modify_of_ne hxw]
      exact hK.nodup x hx
  · intro x hx y hy
    rw [hctx] at hx
    rw [hctx, modify_field Thread.waitingon rfl]
    by_cases hxw : x = w
    · subst hxw
      rw [modify_self] at hy
      rcases List.mem_cons.mp hy with rfl | hy
      · exact ⟨hc, hwaitingon⟩
      · exact hK.waits x hx y hy
    · rw [modify_of_ne hxw] at hy
      exact hK.waits x hx y hy
  · intro t ht
    have ht : s.count ≤ t := ht
    rw [modify_of_ne (by omega)]
    exact hK.unborn t ht

/-- Two writes to records commute when they commute on one record. -/
theorem modify_comm {f g : Thread → Thread} {t u : Nat} (hfg : ∀ x, f (g x) = g (f x)) :
    (s.modify t f).modify u g = (s.modify u g).modify t f := by
  unfold State.modify
  by_cases htu : t = u
  · subst htu
    simp only [update_self, update_idem, hfg]
  · simp only [update_of_ne htu, update_of_ne (Ne.symm htu)]
    rw [update_comm htu]

/-- Touching a record that was not freed does nothing. -/
theorem touch_one (hc : c ∉ s.freed) : s.touch [c] = s := touch_eq (by simpa using hc)

/-- The two writes of `mythread_join` by name are to different fields, so the order does not
matter. -/
theorem push_comm (s : State) (c w : Nat) :
    (s.modify w fun t => { t with waiters := c :: t.waiters }).modify c (Thread.waitFor (some w)) =
      (s.modify c (Thread.waitFor (some w))).modify w fun t =>
        { t with waiters := c :: t.waiters } :=
  modify_comm fun _ => rfl

/-- The thread that runs goes to the idle queue and to the list of `w`. -/
theorem Kept.blockOn {w : Nat} (hK : s.Kept W (some c)) (hlt : w < s.count) :
    ({ (s.modify w fun t => { t with waiters := c :: t.waiters }).modify c
        (Thread.waitFor (some w)) with idle := c :: s.idle } : State).Kept W none := by
  have hself : (s.modify c (Thread.waitFor (some w))).threads c =
      Thread.waitFor (some w) (s.threads c) := modify_self
  rw [push_comm]
  refine Kept.push (hK.block (some w)) (congrArg Thread.context hself)
    (congrArg Thread.waitingon hself) ?_ hlt
  intro hw
  show c ∉ ((s.modify c (Thread.waitFor (some w))).threads w).waiters
  rw [modify_field Thread.waiters (f := Thread.waitFor (some w)) rfl]
  refine hK.notMem_waiters (by rw [hK.ctx_running]; nofun) fun hexited => hw ?_
  have hne : w ≠ c := by
    rintro rfl
    rw [hK.ctx_running] at hexited
    cases hexited
  exact (congrArg Thread.context (modify_of_ne hne)).trans hexited

/-- A join frees the thread that it found. -/
theorem Kept.collect (hK : s.Kept W r) (who : Option Nat) {v : Nat}
    (hdone : (s.threads v).doneBit = true) : (s.collect c who v).Kept W r := by
  have hlt : v < s.count := by
    by_contra hge
    rw [hK.unborn v (by omega)] at hdone
    cases hdone
  exact ((hK.touch [v]).write (c := v) Thread.setDetached hlt rfl (fun _ => rfl) rfl).same
    rfl rfl rfl rfl

/-- `mythread_join` keeps the queues. -/
theorem Kept.join (hK : s.Kept W (some c)) (hcurrent : s.current = some c) (who : Option Nat)
    (hlt : ∀ w ∈ who, w < s.count) : (s.join c who).Kept W (s.join c who).current := by
  unfold State.join
  cases who with
  | none =>
    dsimp only
    split
    · next v hv =>
      have hdone : s.collectable v = true := List.find?_some hv
      exact hcurrent ▸ (hK.touch _).collect none (Bool.and_eq_true_iff.mp hdone).1
    · exact (((hK.touch _).touch _).block none).scheduleNext
  | some w =>
    dsimp only
    split
    · next hdone => exact hcurrent ▸ (hK.touch _).collect (some w) hdone
    · exact Kept.scheduleNext ((hK.touch [w]).blockOn (hlt w rfl) |>.same rfl rfl rfl rfl)

/-- A join finds a finished thread, frees it and returns it. -/
theorem Results.collect {who : Option Nat} {v : Nat} (hres : s.Results none) (hv : v ∉ s.freed)
    (hctx : s'.ctx = s.ctx) (hfin : ∀ t v, s.Finished t v → s'.Finished t v)
    (hfreed : s'.freed = s.freed ++ [v]) (hjoins : s'.joins = s.joins ++ [⟨c, who, some v⟩])
    (hwho : who = none → s.Finished c v) : s'.Results none := by
  -- what was returned or handed out before was freed before, so it is not `v`
  have hne : ∀ v' ∈ s.freed, v' ≠ v := by
    rintro v' hv' rfl
    exact hv hv'
  constructor
  case wokenBy =>
    intro t who' v' ht
    rw [hctx] at ht
    rw [hfreed]
    exact .inl (List.mem_append_left _ ((hres.wokenBy t who' v' ht).resolve_right nofun))
  case wokenChild =>
    intro t v' ht
    rw [hctx] at ht
    exact hfin t v' (hres.wokenChild t v' ht)
  case wokenNew =>
    intro t v' ht e he
    rw [hctx] at ht
    rw [hjoins] at he
    rcases List.mem_append.mp he with he | he
    · exact hres.wokenNew t v' ht e he
    · rw [List.mem_singleton.mp he]
      intro heq
      exact hne v' ((hres.wokenBy t none v' ht).resolve_right nofun) (Option.some.inj heq).symm
  case wokenOnce =>
    rw [hctx]
    exact hres.wokenOnce
  case returned =>
    intro e he
    rw [hjoins] at he
    rw [hfreed]
    rcases List.mem_append.mp he with he | he
    · obtain ⟨v', hv', heq⟩ := hres.returned e he
      exact ⟨v', List.mem_append_left _ hv', heq⟩
    · rw [List.mem_singleton.mp he]
      exact ⟨v, List.mem_append_right _ (List.mem_singleton_self v), rfl⟩
  case joins =>
    refine hres.joins.append hjoins hfin fun hnone => ⟨v, rfl, hfin c v (hwho hnone), ?_⟩
    intro e he heq
    obtain ⟨v', hv', heq'⟩ := hres.returned e he
    exact hne v' hv' (Option.some.inj (heq'.symm.trans heq))

/-- A join that finds a thread done frees it and returns it. -/
theorem Inv.collect (c : Nat) (who : Option Nat) {v : Nat} (hI : s.Inv r none) (hv : v ∉ s.freed)
    (hdone : (s.threads v).doneBit = true) (hwho : who = none → s.Finished c v) :
    (s.collect c who v).Inv r none := by
  have hexited : s.ctx v = .exited := (hI.records v).done hdone
  have hctx : (s.modify v Thread.setDetached).ctx = s.ctx := by
    rw [ctx_modify]
    exact update_eq_self v s.ctx
  have heq : s.collect c who v = { s.modify v Thread.setDetached with
      freed := s.freed ++ [v], joins := s.joins ++ [⟨c, who, some v⟩] } := by
    -- the record is read before `free`, so nothing freed is touched
    unfold State.collect State.freeThread
    rw [touch_one hv, touch_one (s := s.modify v Thread.setDetached) hv]
    rfl
  have hkept := hI.toKept.collect (c := c) who hdone
  rw [heq] at hkept ⊢
  constructor
  case toKept => exact hkept
  case records =>
    intro t
    show ((s.modify v Thread.setDetached).threads t).Ok (t ∈ s.freed ++ [v])
    by_cases htv : t = v
    · subst htv
      have hmem : t ∈ s.freed ++ [t] := List.mem_append_right _ (List.mem_singleton_self t)
      rw [modify_self]
      exact ⟨nofun, fun _ hnot => absurd hmem hnot, fun _ => hexited,
        fun hnot => absurd hmem hnot, (hI.records t).waitingon, (hI.records t).lastjoin⟩
    · rw [modify_of_ne htv]
      refine (hI.records t).free (List.mem_append_left _) fun hmem => ?_
      exact (hI.records t).freed ((List.mem_append.mp hmem).resolve_right (by simpa using htv))
  case family =>
    have hfam := hI.family.modify (c := v) (f := Thread.setDetached) rfl rfl id
    exact ⟨hfam.parent, hfam.born⟩
  case freedNodup => exact nodup_concat hv hI.freedNodup
  case stale => exact hI.stale
  case results =>
    refine hI.results.collect hv hctx (fun t x hfin => ?_) rfl rfl hwho
    have hfin' := hfin.modify (c := v) (f := Thread.setDetached) rfl id fun _ => rfl
    exact ⟨hfin'.parent, hfin'.exited, hfin'.attached⟩

/-- `mythread_join` by name. -/
theorem Inv.joinThread {w : Nat} (hI : s.Inv (some c) none) (hcurrent : s.current = some c)
    (hw : w ∉ s.freed) (hlt : w < s.count) :
    (s.join c (some w)).Inv (s.join c (some w)).current none := by
  unfold State.join
  simp only [touch_one hw]
  split
  · next hdone => exact hcurrent ▸ hI.collect c (some w) hw hdone nofun
  · have hblock := hI.block (some w)
    have hkept := hI.toKept.blockOn hlt
    unfold State.wait
    refine Inv.scheduleNext ?_
    rw [touch_one (s := s.modify w _) hI.notFreed_running]
    show ({ (s.modify w _).modify c (Thread.waitFor (some w)) with
      idle := c :: s.idle } : State).Inv none none
    rw [push_comm] at hkept ⊢
    have hrec := hblock.records w
    exact hblock.modify (fun t => { t with waiters := c :: t.waiters }) ⟨rfl, rfl, rfl, rfl⟩ hkept
      ⟨hrec.done, hrec.exited, hrec.freed, hrec.detached, hrec.waitingon, hrec.lastjoin⟩ rfl rfl id
      (hblock.results.modify (fun t => { t with waiters := c :: t.waiters })
        ⟨rfl, rfl, rfl, rfl⟩ rfl rfl id (fun _ => rfl) fun _ _ heq => heq)

/-- The children that the scan of `mythread_join(NULL)` reads. -/
def scanned (s : State) (c : Nat) : List Nat :=
  (s.threads c).children.takeWhile (!s.collectable ·) ++
    ((s.threads c).children.find? s.collectable).toList

/-- `mythread_join(NULL)`. -/
theorem Inv.joinAny (hI : s.Inv (some c) none) (hcurrent : s.current = some c)
    (hchildren : ∀ x ∈ s.scanned c, x ∉ s.freed) :
    (s.join c none).Inv (s.join c none).current none := by
  unfold State.join
  have htouch : s.touch (c :: (s.threads c).children.takeWhile (!s.collectable ·) ++
      ((s.threads c).children.find? s.collectable).toList) = s := by
    refine touch_eq fun t ht => ?_
    rcases List.mem_cons.mp ht with rfl | ht
    · exact hI.notFreed_running
    · exact hchildren t ht
  simp only [htouch]
  cases hfind : (s.threads c).children.find? s.collectable with
  | none =>
    show (s.wait c none).Inv (s.wait c none).current none
    unfold State.wait
    rw [touch_one hI.notFreed_running]
    exact (hI.block none).scheduleNext
  | some v =>
    have hcoll : s.collectable v = true := List.find?_some hfind
    obtain ⟨hdone, hattached⟩ := Bool.and_eq_true_iff.mp hcoll
    have hv : v ∉ s.freed :=
      hchildren v (List.mem_append_right _ (Option.mem_toList.mpr hfind))
    have hfin : s.Finished c v := by
      refine ⟨hI.family.parent c v (List.mem_of_find?_eq_some hfind), (hI.records v).done hdone, ?_⟩
      rw [← (hI.records v).detached hv]
      simpa using hattached
    exact hcurrent ▸ hI.collect c none hv hdone fun _ => hfin

/-! ### `mythread_exit` -/

/-- The context of a thread that is made ready. -/
theorem wake_ctx {t : Nat} (hwake : s.wake c t = some s') :
    s'.ctx = update s.ctx t (.woken ((s.ctx t).joinArg.getD none) c) := by
  obtain ⟨idle', -, rfl⟩ := Option.map_eq_some_iff.mp hwake
  exact ctx_modify (s := s)
    (f := fun r => { r with lastjoin := some c, context := .woken (r.context.joinArg.getD none) c })

/-- The loop over the waiters of `c`. The induction is on the list that is left. -/
theorem wakeAll_induction {P : State → Prop} {ws : List Nat}
    (hP : ∀ s t s', P s → s.ctx t = .joining (some c) → s.wake c t = some s' → P s') :
    ∀ {s s' : State}, P s → ws.Nodup → (∀ w ∈ ws, s.ctx w = .joining (some c)) →
      State.wakeAll c s ws = some s' → P s' := by
  induction ws with
  | nil =>
    intro s s' hs _ _ hwake
    cases hwake
    exact hs
  | cons w ws ih =>
    intro s s' hs hnodup hws hwake
    obtain ⟨hw, hnodup⟩ := List.nodup_cons.mp hnodup
    obtain ⟨s₁, hwake₁, hrest⟩ := Option.bind_eq_some_iff.mp hwake
    refine ih (hP s w s₁ hs (hws w List.mem_cons_self) hwake₁) hnodup ?_ hrest
    intro x hx
    rw [wake_ctx hwake₁, update_of_ne (by rintro rfl; exact hw hx)]
    exact hws x (List.mem_cons_of_mem _ hx)

/-- A thread that no other thread lists is made ready by the exit of `c`. -/
theorem Kept.wake {t : Nat} (hK : s.Kept W none) (ht : (s.ctx t).isJoining = true) (hW : t ∉ W)
    (hlists : ∀ x, s.ctx x ≠ .exited → t ∉ (s.threads x).waiters)
    (hwake : s.wake c t = some s') : s'.Kept W none := by
  obtain ⟨idle', hidle, rfl⟩ := Option.map_eq_some_iff.mp hwake
  obtain ⟨hsub, hnotIdle⟩ := removeFromIdleQue_spec hK.places.idleNodup hidle
  have hnot : ∀ k : Context, k.isJoining = false → s.ctx t ≠ k := by
    rintro k hk rfl
    exact absurd ht (by rw [hk]; nofun)
  have hnotReady : t ∉ s.ready := by
    intro hmem
    have hready := hK.places.ready t hmem
    cases hk : s.ctx t <;> rw [hk] at ht hready <;> cases ht
    cases hready
  refine hK.modify
    (fun r => { r with lastjoin := some c, context := .woken (r.context.joinArg.getD none) c })
    rfl rfl (hK.lt_count (hnot _ rfl)) (hK.places.enter rfl nofun hnotReady hnotIdle hsub)
    (fun _ => rfl) (fun heq => absurd heq (hnot _ rfl))
    (fun x hx hmem => absurd hmem (hlists x hx)) ?_
  intro x hx
  refine .inr ⟨?_, hx⟩
  rintro rfl
  exact hW hx

/-- A thread that waits for `c` by name is listed by nobody else. -/
theorem Kept.wakeNamed {t : Nat} (hK : s.Kept W none) (hc : s.ctx c = .exited)
    (ht : s.ctx t = .joining (some c)) (hwake : s.wake c t = some s') :
    s'.Kept W none ∧ s'.ctx c = .exited := by
  constructor
  · refine hK.wake (by rw [ht]; rfl) ?_ ?_ hwake
    · intro hmem
      rw [hK.waiting t hmem] at ht
      cases ht
    · intro x hx
      refine hK.notMem_waiters ?_ hx
      rw [ht]
      rintro ⟨⟩
      exact hx hc
  · rw [wake_ctx hwake, update_of_ne (by rintro rfl; rw [hc] at ht; cases ht)]
    exact hc

/-- A thread on a list has written the name of the thread it waits for, so the one that waits for
anyone is on none. -/
theorem Kept.anyone_notMem {t : Nat} (hK : s.Kept W r) (ht : t ∈ s.anyone) (x : Nat)
    (hx : s.ctx x ≠ .exited) : t ∉ (s.threads x).waiters := by
  intro hmem
  have hwaitingon : (s.threads t).waitingon = none := by
    simpa using List.find?_some ht
  rw [(hK.waits x hx t hmem).2] at hwaitingon
  cases hwaitingon

/-- The exiting thread is handed to the threads that wait for it, or to one that waits for
anyone. -/
theorem Kept.assign {assigned : Bool} (hK : s.Kept W none) (hc : s.ctx c = .exited)
    (hnodup : (s.threads c).waiters.Nodup)
    (hwaits : ∀ w ∈ (s.threads c).waiters, s.ctx w = .joining (some c))
    (hanyone : (s.threads c).waiters = [] → (s.threads c).detachedBit = false →
      ∀ t ∈ s.anyone, t ∉ W)
    (hassign : s.assign c = some (assigned, s')) : s'.Kept W none := by
  rcases assign_cases hassign with ⟨s₁, hwake, -, rfl⟩ | ⟨ts, -, hrest⟩
  · obtain ⟨hK₁, hc₁⟩ := wakeAll_induction (P := fun s => s.Kept W none ∧ s.ctx c = .exited)
      (fun _ _ _ hP ht hwake => hP.1.wakeNamed hP.2 ht hwake) ⟨hK, hc⟩ hnodup hwaits hwake
    exact hK₁.write ({ · with waiters := [] }) (hK₁.lt_count (by rw [hc₁]; nofun)) rfl
      (fun hne => absurd hc₁ hne) rfl
  · rcases hrest with ⟨t, ht, hnil, hattached, hwake, -⟩ | ⟨rfl, -⟩
    · exact (hK.touch ts).wake (hK.places.idle t (List.mem_of_find?_eq_some ht))
        (hanyone hnil hattached t ht) (hK.anyone_notMem ht) hwake
    · exact hK.touch ts

/-- The record of a thread that is made ready by the exit of `c`. -/
def wakeRecord (c : Nat) (who : Option Nat) (t : Thread) : Thread :=
  { t with lastjoin := some c, context := .woken who c }

/-- Thread `t` is woken by `c`. -/
theorem Results.wake {t : Nat} {who : Option Nat} (hres : s.Results (some c)) (hc : c ∉ s.freed)
    (hctx : s'.ctx = update s.ctx t (.woken who c))
    (hfreed : s'.freed = s.freed) (hjoins : s'.joins = s.joins)
    (hfin : ∀ t v, s.Finished t v → s'.Finished t v)
    (hanyone : ∀ t', s.ctx t' ≠ .woken none c)
    (hwho : who = none → s.Finished t c ∧ ∀ t' who', s.ctx t' ≠ .woken who' c) :
    s'.Results (some c) := by
  -- whoever is woken now is `t`, or was woken before
  have hcases : ∀ t' who' v', s'.ctx t' = .woken who' v' →
      (t' = t ∧ who' = who ∧ v' = c) ∨ (t' ≠ t ∧ s.ctx t' = .woken who' v') := by
    intro t' who' v' ht'
    rw [hctx] at ht'
    by_cases htt : t' = t
    · subst htt
      rw [update_self] at ht'
      cases ht'
      exact .inl ⟨rfl, rfl, rfl⟩
    · rw [update_of_ne htt] at ht'
      exact .inr ⟨htt, ht'⟩
  constructor
  case wokenBy =>
    intro t' who' v' ht'
    rcases hcases t' who' v' ht' with ⟨_, _, rfl⟩ | ⟨_, hold⟩
    · exact .inr rfl
    · rw [hfreed]
      exact hres.wokenBy t' who' v' hold
  case wokenChild =>
    intro t' v' ht'
    rcases hcases t' none v' ht' with ⟨rfl, hnone, rfl⟩ | ⟨_, hold⟩
    · exact hfin t' v' (hwho hnone.symm).1
    · exact hfin t' v' (hres.wokenChild t' v' hold)
  case wokenNew =>
    intro t' v' ht' e he
    rw [hjoins] at he
    rcases hcases t' none v' ht' with ⟨_, _, rfl⟩ | ⟨_, hold⟩
    · intro heq
      obtain ⟨v'', hv'', heq'⟩ := hres.returned e he
      exact hc (Option.some.inj (heq.symm.trans heq') ▸ hv'')
    · exact hres.wokenNew t' v' hold e he
  case wokenOnce =>
    intro t₁ v' ht₁ t₂ who' ht₂
    rcases hcases t₁ none v' ht₁ with ⟨rfl, hnone, rfl⟩ | ⟨_, hold₁⟩
    · rcases hcases t₂ who' v' ht₂ with ⟨rfl, _, _⟩ | ⟨_, hold₂⟩
      · rfl
      · exact absurd hold₂ ((hwho hnone.symm).2 t₂ who')
    · rcases hcases t₂ who' v' ht₂ with ⟨_, _, rfl⟩ | ⟨_, hold₂⟩
      · exact absurd hold₁ (hanyone t₁)
      · exact hres.wokenOnce t₁ v' hold₁ t₂ who' hold₂
  case returned =>
    rw [hjoins, hfreed]
    exact hres.returned
  case joins =>
    intro pre e post heq hnone
    rw [hjoins] at heq
    obtain ⟨v', hv', hchild, hnew⟩ := hres.joins pre e post heq hnone
    exact ⟨v', hv', hfin _ v' hchild, hnew⟩

/-- `wake` in a state where no idle thread is freed. -/
theorem Inv.wake_eq {t : Nat} {who : Option Nat} (hI : s.Inv none h)
    (ht : s.ctx t = .joining who) (hwake : s.wake c t = some s') :
    ∃ idle', removeFromIdleQue t s.idle = some idle' ∧
      s' = { s.modify t (wakeRecord c who) with idle := idle', ready := s.ready ++ [t] } := by
  have hnotFreed : t ∉ s.freed := hI.notFreed (by rw [ht]; exact nofun)
  obtain ⟨idle', hidle, heq⟩ := Option.map_eq_some_iff.mp hwake
  refine ⟨idle', hidle, ?_⟩
  have htouch : ({ s with idle := idle' } : State).touch (s.idle.takeWhile (· ≠ t) ++ [t]) =
      { s with idle := idle' } := by
    refine touch_eq fun x hx => ?_
    rcases List.mem_append.mp hx with hx | hx
    · exact hI.idle_notFreed ((List.takeWhile_sublist _).subset hx)
    · rw [List.mem_singleton.mp hx]
      exact hnotFreed
  have hwho : (s.threads t).context.joinArg.getD none = who := by
    rw [show (s.threads t).context = .joining who from ht]
    rfl
  rw [← heq, htouch, enqThread_eq]
  · unfold State.modify wakeRecord
    rw [← hwho]
  · exact fun _ => hI.ready_notFreed
  · exact hnotFreed

/-- A waiting thread is made ready by the exit of `c`. -/
theorem Inv.wake {t : Nat} {who : Option Nat} (hI : s.Inv none (some c)) (hc : c ∉ s.freed)
    (ht : s.ctx t = .joining who) (hkept : s'.Kept [] none)
    (hanyone : ∀ t', s.ctx t' ≠ .woken none c)
    (hwho : who = none → s.Finished t c ∧ ∀ t' who', s.ctx t' ≠ .woken who' c)
    (hwake : s.wake c t = some s') : s'.Inv none (some c) ∧ s'.freed = s.freed := by
  obtain ⟨idle', hidle, rfl⟩ := hI.wake_eq ht hwake
  have hne : s.ctx t ≠ .exited := by rw [ht]; exact nofun
  refine ⟨?_, rfl⟩
  refine hI.modify (wakeRecord c who) ⟨rfl, rfl, rfl, rfl⟩ hkept ?_ rfl rfl nofun ?_
  · have hrec := hI.records t
    refine ⟨fun hdone => absurd (hrec.done hdone) hne, ?_, ?_, hrec.detached, ?_, ?_⟩
    · exact fun heq => nomatch heq
    · exact fun hmem => absurd (hrec.freed hmem) hne
    · exact fun _ heq => nomatch heq
    · intro who' v heq
      cases heq
      rfl
  · refine hI.results.wake hc (ctx_modify (f := wakeRecord c who)) rfl rfl ?_ hanyone hwho
    intro t' v hfin
    have hfin' := hfin.modify (c := t) (f := wakeRecord c who) rfl (fun heq => absurd heq hne)
      fun _ => rfl
    exact ⟨hfin'.parent, hfin'.exited, hfin'.attached⟩

/-- What holds while `c` wakes the threads that wait for it by name. -/
structure Handing (c : Nat) (F : List Nat) (s : State) : Prop where
  inv : s.Inv none (some c)
  exited : s.ctx c = .exited
  freed : s.freed = F
  notFreed : c ∉ F
  named : ∀ t, s.ctx t ≠ .woken none c

/-- One turn of the loop that wakes the threads that wait for `c` by name. -/
theorem Handing.wake {t : Nat} {F : List Nat} (hH : s.Handing c F)
    (ht : s.ctx t = .joining (some c)) (hwake : s.wake c t = some s') : s'.Handing c F := by
  obtain ⟨hkept, hexited⟩ := hH.inv.toKept.wakeNamed hH.exited ht hwake
  obtain ⟨hI, hfreed⟩ := hH.inv.wake (hH.freed ▸ hH.notFreed) ht hkept hH.named nofun hwake
  refine ⟨hI, hexited, hfreed.trans hH.freed, hH.notFreed, ?_⟩
  intro t'
  rw [wake_ctx hwake, ht]
  by_cases htt : t' = t
  · subst htt
    rw [update_self]
    exact nofun
  · rw [update_of_ne htt]
    exact hH.named t'

/-- The thread that runs is done. -/
theorem Kept.finish (hK : s.Kept W (some c)) : (s.modify c exitRecord).Kept W none :=
  hK.stop exitRecord rfl rfl rfl nofun (.inr rfl) (.inr rfl) fun _ ht => .inr ht

/-- `mythread_exit` writes its record before it looks for a joiner. -/
theorem Inv.finish (hI : s.Inv (some c) none) : (s.modify c exitRecord).Inv none none := by
  refine hI.stop exitRecord ⟨rfl, rfl, rfl, rfl⟩ rfl hI.toKept.finish
    ⟨fun _ => rfl, fun _ _ => rfl, False.elim, ?_, ?_, ?_⟩ rfl rfl nofun nofun
  · exact fun _ => (hI.records c).detached hI.notFreed_running
  · exact fun _ heq => nomatch heq
  · exact fun _ _ heq => nomatch heq

/-- The record of an exited thread is freed. -/
theorem Inv.free (hI : s.Inv r (some c)) (hc : c ∉ s.freed) (hexited : s.ctx c = .exited) :
    (s.freeThread c).Inv r none := by
  unfold State.freeThread
  rw [touch_one hc]
  -- what is being handed out is freed from now on
  have hmem : ∀ v, v ∈ s.freed ∨ some c = some v → v ∈ s.freed ++ [c] := by
    rintro v (hv | hv)
    · exact List.mem_append_left _ hv
    · cases hv
      exact List.mem_append_right _ (List.mem_singleton_self c)
  have hfin : ∀ t v, s.Finished t v → ({ s with freed := s.freed ++ [c] } : State).Finished t v :=
    fun t v hfin => ⟨hfin.parent, hfin.exited, hfin.attached⟩
  constructor
  case toKept => exact hI.toKept.same rfl rfl rfl rfl
  case records =>
    intro t
    refine (hI.records t).free (List.mem_append_left _) fun ht => ?_
    rcases List.mem_append.mp ht with ht | ht
    · exact (hI.records t).freed ht
    · rw [List.mem_singleton.mp ht]
      exact hexited
  case family => exact ⟨hI.family.parent, hI.family.born⟩
  case freedNodup => exact nodup_concat hc hI.freedNodup
  case stale => exact hI.stale
  case results =>
    have hres := hI.results
    refine ⟨?_, fun t v ht => hfin t v (hres.wokenChild t v ht), hres.wokenNew, hres.wokenOnce,
      ?_, ?_⟩
    · exact fun t who v ht => .inl (hmem v (hres.wokenBy t who v ht))
    · intro e he
      obtain ⟨v, hv, heq⟩ := hres.returned e he
      exact ⟨v, List.mem_append_left _ hv, heq⟩
    · intro pre e post heq hnone
      obtain ⟨v, hv, hchild, hnew⟩ := hres.joins pre e post heq hnone
      exact ⟨v, hv, hfin _ v hchild, hnew⟩

/-- The list of waiters of an exited thread is dropped. -/
theorem Inv.clearWaiters (hI : s.Inv r h) (hexited : s.ctx c = .exited) :
    (s.modify c ({ · with waiters := [] })).Inv r h := by
  have hrec := hI.records c
  exact hI.modify ({ · with waiters := [] }) ⟨rfl, rfl, rfl, rfl⟩
    (hI.toKept.write ({ · with waiters := [] }) (hI.lt_count (by rw [hexited]; nofun)) rfl
      (fun hne => absurd hexited hne) rfl)
    ⟨hrec.done, hrec.exited, hrec.freed, hrec.detached, hrec.waitingon, hrec.lastjoin⟩ rfl rfl id
    (hI.results.modify ({ · with waiters := [] }) ⟨rfl, rfl, rfl, rfl⟩ rfl rfl id
      (fun _ => rfl) fun _ _ heq => heq)

/-- `mythread_exit` hands its result to its joiners, if there are any. -/
theorem Inv.assign {assigned : Bool} (hI : s.Inv none none) (hc : c ∉ s.freed)
    (hexited : s.ctx c = .exited) (hnodup : (s.threads c).waiters.Nodup)
    (hwaits : ∀ w ∈ (s.threads c).waiters, s.ctx w = .joining (some c))
    (hparent : (s.threads c).waiters = [] → (s.threads c).detachedBit = false →
      ∀ t ∈ s.anyone, (s.threads c).parent = some t)
    (hassign : s.assign c = some (assigned, s')) :
    s'.Inv none (some c) ∧ (assigned = false → s'.Inv none none) ∧ s'.freed = s.freed ∧
      s'.ctx c = .exited := by
  -- nobody was woken by `c` so far, because its record is not freed
  have hnobody : ∀ t who, s.ctx t ≠ .woken who c := fun t who ht =>
    hc ((hI.results.wokenBy t who c ht).resolve_right nofun)
  have hkept := hI.toKept.assign hexited hnodup hwaits (fun _ _ _ _ => List.not_mem_nil) hassign
  rcases assign_cases hassign with ⟨s₁, hwake, rfl, rfl⟩ | ⟨ts, hts, hrest⟩
  · have hH := wakeAll_induction (P := Handing c s.freed) (fun _ _ _ hH ht hw => hH.wake ht hw)
      ⟨hI.handing c, hexited, rfl, hc, fun t => hnobody t none⟩ hnodup hwaits hwake
    refine ⟨hH.inv.clearWaiters hH.exited, nofun, hH.freed, ?_⟩
    rw [ctx_modify]
    exact (update_self ..).trans hH.exited
  · -- the search reads idle threads only
    rw [touch_eq fun t ht => hI.idle_notFreed (hts t ht)] at hrest
    rcases hrest with ⟨t, ht, hnil, hattached, hwake, rfl⟩ | ⟨rfl, rfl⟩
    · have hjoining : s.ctx t = .joining none := by
        have hidle := hI.places.idle t (List.mem_of_find?_eq_some ht)
        have hwaitingon : (s.threads t).waitingon = none := by
          simpa using List.find?_some ht
        cases hk : s.ctx t <;> rw [hk] at hidle <;> try cases hidle
        next who => rw [← (hI.records t).waitingon who hk, hwaitingon]
      have hfin : s.Finished t c := by
        refine ⟨hparent hnil hattached t ht, hexited, ?_⟩
        rw [← (hI.records c).detached hc]
        exact hattached
      obtain ⟨hI₁, hfreed⟩ := (hI.handing c).wake hc hjoining hkept (fun t' => hnobody t' none)
        (fun _ => ⟨hfin, hnobody⟩) hwake
      refine ⟨hI₁, nofun, hfreed, ?_⟩
      rw [wake_ctx hwake, update_of_ne]
      · exact hexited
      · rintro rfl
        rw [hexited] at hjoining
        cases hjoining
    · exact ⟨hI.handing c, fun _ => hI, rfl, hexited⟩

/-- The search of `mythread_exit` does not read the record of the caller. -/
theorem anyone_exitRecord : (s.modify c exitRecord).anyone = s.anyone := by
  unfold State.anyone
  congr 1
  funext t
  rw [modify_field Thread.waitingon (f := exitRecord) rfl t]

/-- The list of waiters of the thread that exits. -/
theorem Kept.waits_exitRecord (hK : s.Kept W (some c)) :
    ((s.modify c exitRecord).threads c).waiters.Nodup ∧
      ∀ w ∈ ((s.modify c exitRecord).threads c).waiters,
        (s.modify c exitRecord).ctx w = .joining (some c) := by
  have hne : s.ctx c ≠ .exited := by rw [hK.ctx_running]; exact nofun
  rw [modify_self]
  refine ⟨hK.nodup c hne, fun w hw => ?_⟩
  have hwaits := (hK.waits c hne w hw).1
  rw [ctx_modify, update_of_ne]
  · exact hwaits
  · rintro rfl
    rw [hK.ctx_running] at hwaits
    cases hwaits

/-- The record of `mythread_exit` is that of an exited thread. -/
theorem ctx_exitRecord : (s.modify c exitRecord).ctx c = .exited := by
  rw [ctx_modify, update_self]
  rfl

/-- `mythread_exit`. -/
theorem Kept.exit (hK : s.Kept W (some c))
    (hanyone : (s.threads c).waiters = [] → (s.threads c).detachedBit = false →
      ∀ t ∈ s.anyone, t ∉ W)
    (hexit : s.exit c = some s') : s'.Kept W s'.current := by
  obtain ⟨assigned, s₁, hassign, hend⟩ := exit_cases hexit
  have hself : (s.modify c exitRecord).threads c = exitRecord (s.threads c) := modify_self
  have hK₁ : s₁.Kept W none := by
    refine (hK.finish.touch [c]).assign ctx_exitRecord hK.waits_exitRecord.1
      hK.waits_exitRecord.2 ?_ hassign
    show ((s.modify c exitRecord).threads c).waiters = [] →
      ((s.modify c exitRecord).threads c).detachedBit = false →
      ∀ t ∈ (s.modify c exitRecord).anyone, t ∉ W
    rw [hself, anyone_exitRecord]
    exact hanyone
  rcases hend with rfl | ⟨-, rfl⟩
  · exact Kept.scheduleNext (hK₁.same rfl rfl rfl rfl)
  · exact hK₁.scheduleNext

/-- `mythread_exit` keeps the invariant, if the thread that joins any child is the parent. -/
theorem Inv.exit (hI : s.Inv (some c) none)
    (hparent : (s.threads c).waiters = [] → (s.threads c).detachedBit = false →
      ∀ t ∈ s.anyone, (s.threads c).parent = some t)
    (hexit : s.exit c = some s') : s'.Inv s'.current none := by
  obtain ⟨assigned, s₁, hassign, hend⟩ := exit_cases hexit
  rw [touch_one hI.notFreed_running] at hassign
  have hself : (s.modify c exitRecord).threads c = exitRecord (s.threads c) := modify_self
  obtain ⟨hI₁, hnobody, hfreed, hexited⟩ := hI.finish.assign (c := c) hI.notFreed_running
    ctx_exitRecord hI.waits_exitRecord.1 hI.waits_exitRecord.2
    (by rw [hself, anyone_exitRecord]; exact hparent) hassign
  have hnotFreed : c ∉ s₁.freed := by rw [hfreed]; exact hI.notFreed_running
  rcases hend with rfl | ⟨hfalse, rfl⟩
  · exact Inv.scheduleNext ((hI₁.free hnotFreed hexited).same ⟨rfl, rfl, rfl, rfl⟩ rfl rfl rfl)
  · exact (hnobody hfalse).scheduleNext

/-! ### `mythread_create` and `mythread_detach` -/

/-- A new thread is put in the ready queue. -/
theorem Kept.newThread (hK : s.Kept W r) (p : Option Nat) :
    ({ s.modify s.count (fun _ => .new p) with
      count := s.count + 1, ready := s.ready ++ [s.count] } : State).Kept W r := by
  have hunborn := hK.ctx_count
  have hctx : (s.modify s.count fun _ => .new p).ctx = update s.ctx s.count .fresh :=
    ctx_modify
  have hne : ∀ t, s.ctx t ≠ .unborn → t ≠ s.count := by
    rintro t ht rfl
    exact ht hunborn
  have hwaiters := modify_field (s := s) (c := s.count) (f := fun _ => .new p) Thread.waiters
    (by rw [hK.unborn s.count (Nat.le_refl _)]; rfl)
  have hexited : ∀ x, (s.modify s.count fun _ => .new p).ctx x ≠ .exited → s.ctx x ≠ .exited := by
    intro x hx heq
    rw [hctx, update_of_ne (hne x (by rw [heq]; nofun))] at hx
    exact hx heq
  constructor
  case places =>
    show Places r (s.modify s.count fun _ => .new p).ctx (s.ready ++ [s.count]) s.idle
    rw [hctx]
    -- a number that is not given out is in no place
    refine hK.places.enter rfl ?_ ?_ ?_ (List.Sublist.refl _)
    · intro hrun
      exact hne _ (by rw [(hK.places.running _).mpr hrun]; nofun) rfl
    · intro hmem
      have hready := hK.places.ready _ hmem
      rw [hunborn] at hready
      cases hready
    · intro hmem
      have hidle := hK.places.idle _ hmem
      rw [hunborn] at hidle
      cases hidle
  case nodup =>
    intro x hx
    show ((s.modify s.count fun _ => .new p).threads x).waiters.Nodup
    rw [hwaiters]
    exact hK.nodup x (hexited x hx)
  case waits =>
    intro x hx w hw
    have hw : w ∈ (s.threads x).waiters := hwaiters x ▸ hw
    obtain ⟨hjoining, hwaitingon⟩ := hK.waits x (hexited x hx) w hw
    have hwc := hne w (by rw [hjoining]; nofun)
    show (s.modify s.count fun _ => .new p).ctx w = _ ∧
      ((s.modify s.count fun _ => .new p).threads w).waitingon = _
    rw [hctx, update_of_ne hwc, modify_of_ne hwc]
    exact ⟨hjoining, hwaitingon⟩
  case waiting =>
    intro t ht
    have hjoining := hK.waiting t ht
    show (s.modify s.count fun _ => .new p).ctx t = _
    rw [hctx, update_of_ne (hne t (by rw [hjoining]; nofun))]
    exact hjoining
  case unborn =>
    intro t ht
    have ht : s.count + 1 ≤ t := ht
    show (s.modify s.count fun _ => .new p).threads t = .unborn
    rw [modify_of_ne (by omega)]
    exact hK.unborn t (by omega)

/-- A new record, with a parent that does not know it yet. -/
theorem Inv.newThread (hI : s.Inv r none) (p : Option Nat) :
    ({ s.modify s.count (fun _ => .new p) with
      count := s.count + 1, ready := s.ready ++ [s.count] } : State).Inv r none := by
  have hrecord : s.threads s.count = .unborn := hI.unborn s.count (Nat.le_refl _)
  have hctx : (s.modify s.count fun _ => .new p).ctx = update s.ctx s.count .fresh :=
    ctx_modify
  have hne : ∀ t, s.ctx t ≠ .unborn → t ≠ s.count := by
    rintro t ht rfl
    exact ht hI.ctx_count
  have hnotFreed : s.count ∉ s.freed := hI.notFreed (by rw [hI.ctx_count]; exact nofun)
  constructor
  case toKept => exact hI.toKept.newThread p
  case records =>
    refine records_modify (f := fun _ => .new p) hI.records
      ⟨nofun, ?_, fun hmem => absurd hmem hnotFreed, fun _ => rfl, ?_, ?_⟩
    · exact fun heq => nomatch heq
    · exact fun _ heq => nomatch heq
    · exact fun _ _ heq => nomatch heq
  case family =>
    have hfam := hI.family
    have hchildren := modify_field (s := s) (c := s.count) (f := fun _ => .new p) Thread.children
      (by rw [hrecord]; rfl)
    refine ⟨fun t x hx => ?_, fun t x hx => ?_⟩
    · have hx : x ∈ (s.threads t).children := hchildren t ▸ hx
      show ((s.modify s.count fun _ => .new p).threads x).parent = some t
      rw [modify_of_ne (hne x (hfam.born t x hx))]
      exact hfam.parent t x hx
    · have hx : x ∈ (s.threads t).children := hchildren t ▸ hx
      show (s.modify s.count fun _ => .new p).ctx x ≠ .unborn
      rw [hctx, update_of_ne (hne x (hfam.born t x hx))]
      exact hfam.born t x hx
  case freedNodup => exact hI.freedNodup
  case stale => exact hI.stale
  case results =>
    refine hI.results.mono rfl rfl ?_ ?_
    · intro t who v ht
      have ht : (s.modify s.count fun _ => .new p).ctx t = .woken who v := ht
      rw [hctx] at ht
      by_cases htc : t = s.count
      · subst htc
        rw [update_self] at ht
        cases ht
      · rw [update_of_ne htc] at ht
        exact ht
    · intro t v hfin
      have heq : (s.modify s.count fun _ => .new p).threads v = s.threads v :=
        modify_of_ne (hne v (by rw [hfin.exited]; nofun))
      exact ⟨(congrArg Thread.parent heq).trans hfin.parent,
        (congrArg Thread.context heq).trans hfin.exited,
        (congrArg Thread.detachCalled heq).trans hfin.attached⟩

/-- A thread gets a child. -/
theorem Kept.addChild (hK : s.Kept W r) (t : Nat) (hc : s.ctx c ≠ .unborn) :
    (s.modify c fun x => { x with children := t :: x.children }).Kept W r :=
  hK.write (fun x => { x with children := t :: x.children }) (hK.lt_count hc) rfl (fun _ => rfl) rfl

/-- The parent learns of its new child. -/
theorem Inv.addChild {t : Nat} (hI : s.Inv r none) (hparent : (s.threads t).parent = some c)
    (hborn : s.ctx t ≠ .unborn) (hc : s.ctx c ≠ .unborn) :
    (s.modify c fun x => { x with children := t :: x.children }).Inv r none := by
  have hctx : (s.modify c fun x => { x with children := t :: x.children }).ctx = s.ctx := by
    rw [ctx_modify]
    exact update_eq_self c s.ctx
  have hrec := hI.records c
  constructor
  case toKept => exact hI.toKept.addChild t hc
  case records =>
    exact records_modify hI.records
      ⟨hrec.done, hrec.exited, hrec.freed, hrec.detached, hrec.waitingon, hrec.lastjoin⟩
  case family =>
    have hfam := hI.family
    -- the only new child is `t`, at its parent
    have hmem : ∀ u x, x ∈ ((s.modify c fun x => { x with children := t :: x.children }).threads
        u).children → x ∈ (s.threads u).children ∨ (u = c ∧ x = t) := by
      intro u x hx
      by_cases huc : u = c
      · subst huc
        rw [modify_self] at hx
        rcases List.mem_cons.mp hx with rfl | hx
        · exact .inr ⟨rfl, rfl⟩
        · exact .inl hx
      · rw [modify_of_ne huc] at hx
        exact .inl hx
    refine ⟨fun u x hx => ?_, fun u x hx => ?_⟩
    · rw [modify_field Thread.parent rfl]
      rcases hmem u x hx with hx | ⟨rfl, rfl⟩
      · exact hfam.parent u x hx
      · exact hparent
    · rw [hctx]
      rcases hmem u x hx with hx | ⟨rfl, rfl⟩
      · exact hfam.born u x hx
      · exact hborn
  case freedNodup => exact hI.freedNodup
  case stale => exact hI.stale
  case results =>
    exact hI.results.modify (fun x => { x with children := t :: x.children }) ⟨rfl, rfl, rfl, rfl⟩
      rfl rfl id (fun _ => rfl) fun _ _ heq => heq

/-- The caller is not the thread that it creates. -/
theorem Kept.ctx_newThread (hK : s.Kept W (some c)) (p : Option Nat) :
    (s.modify s.count fun _ => .new p).ctx c = .running := by
  have hne : c ≠ s.count := by
    rintro rfl
    exact absurd (hK.ctx_running.symm.trans hK.ctx_count) nofun
  rw [ctx_modify, update_of_ne hne, hK.ctx_running]

/-- `mythread_create`. -/
theorem Kept.create (hK : s.Kept W s.current) : s.create.Kept W s.create.current := by
  have hnew := hK.newThread s.current
  unfold State.create
  cases hcurrent : s.current with
  | none =>
    rw [hcurrent] at hnew
    exact hnew.same rfl rfl rfl rfl
  | some c =>
    rw [hcurrent] at hnew hK
    have hc : (s.modify s.count fun _ => .new (some c)).ctx c ≠ .unborn := by
      rw [hK.ctx_newThread]
      exact nofun
    exact (hnew.addChild s.count hc).same rfl rfl rfl rfl

/-- `mythread_create` keeps the invariant. -/
theorem Inv.create (hI : s.Inv s.current none) : s.create.Inv s.create.current none := by
  have hnotFreed : s.count ∉ s.freed := hI.notFreed (by rw [hI.ctx_count]; exact nofun)
  have hnew := hI.newThread s.current
  unfold State.create
  cases hcurrent : s.current with
  | none =>
    rw [hcurrent] at hnew
    dsimp only
    rw [enqThread_eq]
    · exact hnew.same ⟨rfl, rfl, rfl, rfl⟩ rfl rfl rfl
    · exact fun _ => hI.ready_notFreed
    · exact hnotFreed
  | some c =>
    rw [hcurrent] at hnew hI
    dsimp only
    rw [touch_one, enqThread_eq]
    · refine (hnew.addChild (c := c) (t := s.count) ?_ ?_ ?_).same ⟨rfl, rfl, rfl, rfl⟩ rfl rfl
        rfl
      · exact congrArg Thread.parent (modify_self (s := s) (f := fun _ => .new (some c)))
      · show (s.modify s.count fun _ => .new (some c)).ctx s.count ≠ _
        rw [ctx_modify, update_self]
        exact nofun
      · show (s.modify s.count fun _ => .new (some c)).ctx c ≠ _
        rw [hI.ctx_newThread]
        exact nofun
    · exact fun _ => hI.ready_notFreed
    · exact hnotFreed
    · exact hI.notFreed_running

/-- `mythread_detach`. -/
theorem Kept.detach (hK : s.Kept W (some c)) : (s.detach c).Kept W (some c) :=
  (hK.touch [c]).write (fun x => { x.setDetached with detachCalled := true })
    (hK.lt_count (by rw [hK.ctx_running]; nofun)) rfl (fun _ => rfl) rfl

/-- `mythread_detach` keeps the invariant. -/
theorem Inv.detach (hI : s.Inv (some c) none) : (s.detach c).Inv (some c) none := by
  have hkept := hI.toKept.detach
  have hexited : s.ctx c ≠ .exited := by rw [hI.ctx_running]; exact nofun
  unfold State.detach at hkept ⊢
  rw [touch_one hI.notFreed_running] at hkept ⊢
  refine hI.modify (fun x => { x.setDetached with detachCalled := true }) ⟨rfl, rfl, rfl, rfl⟩ hkept
    ⟨nofun, fun heq => absurd heq hexited, fun hmem => absurd hmem hI.notFreed_running,
      fun _ => rfl, (hI.records c).waitingon, (hI.records c).lastjoin⟩ rfl rfl id ?_
  exact hI.results.modify (fun x => { x.setDetached with detachCalled := true })
    ⟨rfl, rfl, rfl, rfl⟩ rfl rfl id (fun heq => absurd heq hexited) fun _ _ heq => heq

/-! ### Every call -/

/-- There is no thread in the initial state. -/
theorem kept_initial : initial.Kept [] none where
  places := ⟨fun _ => ⟨nofun, nofun⟩, List.nodup_nil, nofun, List.nodup_nil, nofun⟩
  nodup := fun _ _ => List.nodup_nil
  waits := fun _ _ _ hw => absurd hw List.not_mem_nil
  waiting := nofun
  unborn := fun _ _ => rfl

/-- One call of the package. The threads of `W` stay where they are, unless a thread exits and
takes one of them for a thread that waits for anyone. -/
theorem Kept.step {a : Act} (hK : s.Kept W s.current)
    (hanyone : a = .exit → ∀ c ∈ s.current, (s.threads c).waiters = [] →
      (s.threads c).detachedBit = false → ∀ t ∈ s.anyone, t ∉ W)
    (hstep : s.step a = some s') : s'.Kept W s'.current := by
  rcases step_cases hstep with ⟨rfl, rfl⟩ | ⟨rfl, hcurrent, rfl⟩ | ⟨c, hcurrent, hcall⟩
  · exact hK.create
  · exact (hcurrent ▸ hK).scheduleNext
  · have hK' : s.Kept W (some c) := hcurrent ▸ hK
    rcases hcall with ⟨rfl, rfl⟩ | ⟨rfl, rfl⟩ | ⟨who, rfl, hlt, rfl⟩ | ⟨rfl, hexit | rfl⟩
    · exact hK'.yield
    · exact hcurrent ▸ hK'.detach
    · exact hK'.join hcurrent who hlt
    · exact hK'.exit (hanyone rfl c hcurrent) hexit
    · exact hK.same rfl rfl rfl rfl

end

end State

end Stacklets.SingleCore

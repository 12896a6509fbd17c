import Stacklets.SingleCore.Threads
import Mathlib.Data.List.Nodup

/-!
# `Stacklets.SingleCore.Invariant`: contexts, queues and records agree

Two invariants of the single-core thread package. `Kept` is about the queues and the lists of
waiters, and it does not matter for it how records are freed. `Inv` adds a part for each record
(`Thread.Ok`), one for the lists of children (`FamilyOk`) and one for the values that joins
returned or are going to return (`Results`). Each part looks at a few fields, so a call keeps
most of them because it does not write those fields. The lemmas of this module say so, part by
part, and `Kept.modify` and `Inv.modify` put them together for a call that writes one record.
-/

set_option autoImplicit false

namespace Stacklets.SingleCore

open Function (update update_self update_of_ne update_eq_self)

/-! ### The parts of the invariant -/

/-- A thread that may stand in the ready queue. -/
def Context.isReady : Context → Bool
  | .fresh | .yielded | .woken _ _ => true
  | _ => false

def Context.isJoining : Context → Bool
  | .joining _ => true
  | _ => false

/-- The thread that runs, the ready queue and the idle queue agree with the contexts. -/
structure Places (r : Option Nat) (ctx : Nat → Context) (ready idle : List Nat) : Prop where
  running : ∀ t, ctx t = .running ↔ r = some t
  readyNodup : ready.Nodup
  ready : ∀ t ∈ ready, (ctx t).isReady = true
  idleNodup : idle.Nodup
  idle : ∀ t ∈ idle, (ctx t).isJoining = true

/-- The fields of a record agree with the context of its thread. -/
structure Thread.Ok (isFreed : Prop) (t : Thread) : Prop where
  done : t.doneBit = true → t.context = .exited
  exited : t.context = .exited → ¬ isFreed → t.doneBit = true
  freed : isFreed → t.context = .exited
  detached : ¬ isFreed → t.detachedBit = t.detachCalled
  waitingon : ∀ who, t.context = .joining who → t.waitingon = who
  lastjoin : ∀ who v, t.context = .woken who v → t.lastjoin = some v

namespace State

def ctx (s : State) (t : Nat) : Context := (s.threads t).context

/-- The queues agree with the contexts, and the waiters of a thread that has not exited wait for
it. `r` is the thread that runs, and the threads of `W` wait for nobody. -/
structure Kept (W : List Nat) (r : Option Nat) (s : State) : Prop where
  places : Places r s.ctx s.ready s.idle
  nodup : ∀ x, s.ctx x ≠ .exited → (s.threads x).waiters.Nodup
  waits : ∀ x, s.ctx x ≠ .exited → ∀ w ∈ (s.threads x).waiters,
    s.ctx w = .joining (some x) ∧ (s.threads w).waitingon = some x
  waiting : ∀ t ∈ W, s.ctx t = .joining none
  unborn : ∀ t, s.count ≤ t → s.threads t = .unborn

/-- The children of a thread were created by it. -/
structure FamilyOk (s : State) : Prop where
  parent : ∀ t, ∀ x ∈ (s.threads t).children, (s.threads x).parent = some t
  born : ∀ t, ∀ x ∈ (s.threads t).children, s.ctx x ≠ .unborn

/-- Thread `v` is a child of `t` that has exited and was not detached. -/
structure Finished (s : State) (t v : Nat) : Prop where
  parent : (s.threads v).parent = some t
  exited : s.ctx v = .exited
  attached : (s.threads v).detachCalled = false

/-- Every value that `mythread_join(NULL)` returned is a finished child of the caller, and no
earlier join returned it. -/
def JoinsOk (s : State) : Prop :=
  ∀ pre e post, s.joins = pre ++ e :: post → e.who = none →
    ∃ v, e.value = some v ∧ s.Finished e.caller v ∧ ∀ e' ∈ pre, e'.value ≠ some v

/-- The values that joins have returned and that woken threads are going to return. `h` is a
thread in the middle of `mythread_exit`, which is handed out and not yet freed. -/
structure Results (h : Option Nat) (s : State) : Prop where
  wokenBy : ∀ t who v, s.ctx t = .woken who v → v ∈ s.freed ∨ h = some v
  wokenChild : ∀ t v, s.ctx t = .woken none v → s.Finished t v
  wokenNew : ∀ t v, s.ctx t = .woken none v → ∀ e ∈ s.joins, e.value ≠ some v
  wokenOnce : ∀ t v, s.ctx t = .woken none v → ∀ t' who, s.ctx t' = .woken who v → t' = t
  returned : ∀ e ∈ s.joins, ∃ v ∈ s.freed, e.value = some v
  joins : s.JoinsOk

/-- The invariant. `r` is the thread that runs. -/
structure Inv (r h : Option Nat) (s : State) : Prop extends Kept [] r s where
  records : ∀ t, (s.threads t).Ok (t ∈ s.freed)
  family : s.FamilyOk
  freedNodup : s.freed.Nodup
  stale : s.stale = false
  results : s.Results h

end State

/-! ### Queues -/

theorem nodup_concat {l : List Nat} {c : Nat} (hc : c ∉ l) (hl : l.Nodup) : (l ++ [c]).Nodup := by
  rw [← List.concat_eq_append]
  exact hl.concat hc

section Places

variable {r : Option Nat} {ctx : Nat → Context} {ready idle : List Nat} {c : Nat}

namespace Places

/-- The thread that runs stops. It goes to the end of the ready queue, or to the idle queue, or
to neither, as its new context says. -/
theorem stop {k : Context} {ready' idle' : List Nat} (h : Places (some c) ctx ready idle)
    (hk : k ≠ .running)
    (hready : ready' = ready ++ [c] ∧ k.isReady = true ∨ ready' = ready)
    (hidle : idle' = c :: idle ∧ k.isJoining = true ∨ idle' = idle) :
    Places none (update ctx c k) ready' idle' := by
  have hc : ctx c = .running := (h.running c).mpr rfl
  -- the thread that runs is in no queue
  have hnotReady : c ∉ ready := fun hmem => by simpa [hc, Context.isReady] using h.ready c hmem
  have hnotIdle : c ∉ idle := fun hmem => by simpa [hc, Context.isJoining] using h.idle c hmem
  constructor
  case running =>
    intro t
    by_cases htc : t = c
    · subst htc
      rw [update_self]
      exact ⟨fun hr => absurd hr hk, nofun⟩
    · rw [update_of_ne htc, h.running t]
      exact ⟨fun hr => absurd (Option.some.inj hr).symm htc, nofun⟩
  case readyNodup =>
    rcases hready with ⟨rfl, _⟩ | rfl
    · exact nodup_concat hnotReady h.readyNodup
    · exact h.readyNodup
  case ready =>
    intro t ht
    by_cases htc : t = c
    · subst htc
      rw [update_self]
      rcases hready with ⟨_, hk'⟩ | rfl
      · exact hk'
      · exact absurd ht hnotReady
    · rw [update_of_ne htc]
      rcases hready with ⟨rfl, _⟩ | rfl
      · rcases List.mem_append.mp ht with hold | hnew
        · exact h.ready t hold
        · exact absurd (List.mem_singleton.mp hnew) htc
      · exact h.ready t ht
  case idleNodup =>
    rcases hidle with ⟨rfl, _⟩ | rfl
    · exact List.nodup_cons.mpr ⟨hnotIdle, h.idleNodup⟩
    · exact h.idleNodup
  case idle =>
    intro t ht
    by_cases htc : t = c
    · subst htc
      rw [update_self]
      rcases hidle with ⟨_, hk'⟩ | rfl
      · exact hk'
      · exact absurd ht hnotIdle
    · rw [update_of_ne htc]
      rcases hidle with ⟨rfl, _⟩ | rfl
      · exact h.idle t ((List.mem_cons.mp ht).resolve_left htc)
      · exact h.idle t ht

/-- The first thread of the ready queue runs. -/
theorem resume (h : Places none ctx (c :: ready) idle) :
    Places (some c) (update ctx c .running) ready idle := by
  have hnotReady : c ∉ ready := (List.nodup_cons.mp h.readyNodup).1
  have hnotIdle : c ∉ idle := by
    intro hmem
    have hr := h.ready c List.mem_cons_self
    have hj := h.idle c hmem
    cases hk : ctx c <;> rw [hk] at hr hj <;> cases hr <;> cases hj
  constructor
  case running =>
    intro t
    by_cases htc : t = c
    · subst htc
      rw [update_self]
      exact ⟨fun _ => rfl, fun _ => rfl⟩
    · rw [update_of_ne htc, h.running t]
      exact ⟨nofun, fun hr => absurd (Option.some.inj hr).symm htc⟩
  case readyNodup => exact (List.nodup_cons.mp h.readyNodup).2
  case ready =>
    intro t ht
    rw [update_of_ne (by rintro rfl; exact hnotReady ht)]
    exact h.ready t (List.mem_cons_of_mem _ ht)
  case idleNodup => exact h.idleNodup
  case idle =>
    intro t ht
    rw [update_of_ne (by rintro rfl; exact hnotIdle ht)]
    exact h.idle t ht

/-- A thread that is in no queue and does not run enters the ready queue. Threads may leave the
idle queue on the way. -/
theorem enter {k : Context} {idle' : List Nat} (h : Places r ctx ready idle)
    (hk : k.isReady = true) (hrun : r ≠ some c) (hnotReady : c ∉ ready) (hnotIdle : c ∉ idle')
    (hsub : idle'.Sublist idle) :
    Places r (update ctx c k) (ready ++ [c]) idle' := by
  constructor
  case running =>
    intro t
    by_cases htc : t = c
    · subst htc
      rw [update_self]
      exact ⟨fun heq => (by rw [heq] at hk; cases hk), fun heq => absurd heq hrun⟩
    · rw [update_of_ne htc]
      exact h.running t
  case readyNodup =>
    exact nodup_concat hnotReady h.readyNodup
  case ready =>
    intro t ht
    by_cases htc : t = c
    · subst htc
      rw [update_self]
      exact hk
    · rw [update_of_ne htc]
      exact h.ready t ((List.mem_append.mp ht).resolve_right (by simpa using htc))
  case idleNodup => exact h.idleNodup.sublist hsub
  case idle =>
    intro t ht
    rw [update_of_ne (by rintro rfl; exact hnotIdle ht)]
    exact h.idle t (hsub.subset ht)

end Places

/-- `removeFromIdleQue` leaves a part of the queue, without the thread. -/
theorem removeFromIdleQue_spec {t : Nat} (hnodup : idle.Nodup) {idle' : List Nat}
    (h : removeFromIdleQue t idle = some idle') : idle'.Sublist idle ∧ t ∉ idle' := by
  cases idle with
  | nil =>
    cases h
    exact ⟨.refl _, List.not_mem_nil⟩
  | cons x xs =>
    obtain ⟨_, hxs⟩ := List.nodup_cons.mp hnodup
    rw [removeFromIdleQue] at h
    split at h
    · cases h
      exact ⟨List.nil_sublist _, List.not_mem_nil⟩
    next hx =>
    split at h
    · cases h
      refine ⟨List.Sublist.cons_cons x List.erase_sublist, ?_⟩
      rw [List.mem_cons, not_or]
      exact ⟨Ne.symm hx, hxs.not_mem_erase⟩
    · cases h

/-- It follows a null pointer only if the thread is not in the queue. -/
theorem notMem_of_removeFromIdleQue_eq_none {t : Nat} (h : removeFromIdleQue t idle = none) :
    t ∉ idle := by
  cases idle with
  | nil => cases h
  | cons x xs =>
    rw [removeFromIdleQue] at h
    split at h
    · cases h
    next hx =>
    split at h
    · cases h
    · next hxs =>
      rw [List.mem_cons, not_or]
      exact ⟨Ne.symm hx, hxs⟩

end Places

/-! ### Records -/

/-- A record that is freed has to belong to an exited thread, and nothing else. -/
theorem Thread.Ok.free {p q : Prop} {t : Thread} (ht : t.Ok p) (hpq : p → q)
    (hq : q → t.context = .exited) : t.Ok q where
  done := ht.done
  exited := fun hexited hnot => ht.exited hexited (mt hpq hnot)
  freed := hq
  detached := fun hnot => ht.detached (mt hpq hnot)
  waitingon := ht.waitingon
  lastjoin := ht.lastjoin

/-- The record of a thread that begins to wait. -/
def Thread.waitFor (who : Option Nat) (t : Thread) : Thread :=
  { t with waitingon := who, context := .joining who }

/-! ### Fields that a call does not write -/

namespace State

section

variable {s s' : State} {f : Thread → Thread} {c : Nat} {r r' h : Option Nat} {W : List Nat}

/-- A field that `f` leaves alone is the same in all records. -/
theorem modify_field {β : Type} (g : Thread → β) (hf : g (f (s.threads c)) = g (s.threads c))
    (t : Nat) : g ((s.modify c f).threads t) = g (s.threads t) := by
  show g (update s.threads c (f (s.threads c)) t) = _
  by_cases htc : t = c
  · subst htc
    rw [update_self, hf]
  · rw [update_of_ne htc]

/-- A write to a record is read back. -/
theorem modify_self : (s.modify c f).threads c = f (s.threads c) := update_self ..

/-- A write to a record leaves the others alone. -/
theorem modify_of_ne {t : Nat} (htc : t ≠ c) : (s.modify c f).threads t = s.threads t :=
  update_of_ne htc ..

/-- What a write to a record does to the contexts. -/
theorem ctx_modify : (s.modify c f).ctx = update s.ctx c (f (s.threads c)).context := by
  funext t
  by_cases htc : t = c
  · subst htc
    rw [update_self, ctx, modify_self]
  · rw [update_of_ne htc, ctx, modify_of_ne htc]
    rfl

/-- A read of records that are not freed changes nothing. -/
theorem touch_eq {ts : List Nat} (hts : ∀ t ∈ ts, t ∉ s.freed) : s.touch ts = s := by
  have hany : ts.any (· ∈ s.freed) = false := by
    simpa using hts
  unfold touch
  rw [hany, Bool.or_false]

/-- A write that keeps its record in order keeps them all. -/
theorem records_modify (hrec : ∀ t, (s.threads t).Ok (t ∈ s.freed))
    (hc : (f (s.threads c)).Ok (c ∈ s.freed)) :
    ∀ t, ((s.modify c f).threads t).Ok (t ∈ s.freed) := by
  intro t
  by_cases htc : t = c
  · subst htc
    rw [modify_self]
    exact hc
  · rw [modify_of_ne htc]
    exact hrec t

/-- The lists of children stay. -/
theorem FamilyOk.modify (hfam : s.FamilyOk)
    (hchildren : (f (s.threads c)).children = (s.threads c).children)
    (hparent : (f (s.threads c)).parent = (s.threads c).parent)
    (hborn : s.ctx c ≠ .unborn → (f (s.threads c)).context ≠ .unborn) :
    (s.modify c f).FamilyOk where
  parent := fun t x hx => by
    rw [modify_field Thread.children hchildren] at hx
    rw [modify_field Thread.parent hparent]
    exact hfam.parent t x hx
  born := fun t x hx => by
    rw [modify_field Thread.children hchildren] at hx
    rw [ctx_modify]
    by_cases hxc : x = c
    · subst hxc
      rw [update_self]
      exact hborn (hfam.born t x hx)
    · rw [update_of_ne hxc]
      exact hfam.born t x hx

/-! ### The queues and the lists of waiters -/

namespace Kept

/-- A thread waits for those that list it, so one whose context is another one is in no list. -/
theorem notMem_waiters (hK : s.Kept W r) {t x : Nat} (ht : s.ctx t ≠ .joining (some x))
    (hx : s.ctx x ≠ .exited) : t ∉ (s.threads x).waiters :=
  fun hmem => ht (hK.waits x hx t hmem).1

/-- The thread that runs has no saved context. -/
theorem ctx_running (hK : s.Kept W (some c)) : s.ctx c = .running :=
  (hK.places.running c).mpr rfl

/-- Every thread was created. -/
theorem lt_count (hK : s.Kept W r) (hc : s.ctx c ≠ .unborn) : c < s.count := by
  by_contra hge
  exact hc (congrArg Thread.context (hK.unborn c (by omega)))

/-- The next record is not in use. -/
theorem ctx_count (hK : s.Kept W r) : s.ctx s.count = .unborn :=
  congrArg Thread.context (hK.unborn s.count (Nat.le_refl _))

/-- A call that writes no record and no queue. -/
theorem same (hK : s.Kept W r) (hthreads : s'.threads = s.threads) (hcount : s'.count = s.count)
    (hready : s'.ready = s.ready) (hidle : s'.idle = s.idle) : s'.Kept W r := by
  have hctx : s'.ctx = s.ctx := by
    funext t
    rw [ctx, hthreads]
    rfl
  exact ⟨by rw [hctx, hready, hidle]; exact hK.places, by rw [hctx, hthreads]; exact hK.nodup,
    by rw [hctx, hthreads]; exact hK.waits, by rw [hctx]; exact hK.waiting,
    by rw [hthreads, hcount]; exact hK.unborn⟩

/-- Touching records keeps the queues. -/
theorem touch (hK : s.Kept W r) (ts : List Nat) : (s.touch ts).Kept W r :=
  hK.same rfl rfl rfl rfl

/-- A call that writes the record of `c` with `f`, and queues. The list of waiters of `c` stays,
or does not count because `c` has exited. Thread `c` goes on waiting for the threads that list
it, and it is the only new thread that `W'` may have. -/
theorem modify {W' : List Nat} (f : Thread → Thread) (hK : s.Kept W r)
    (hthreads : s'.threads = (s.modify c f).threads) (hcount : s'.count = s.count)
    (hc : c < s.count)
    (hplaces : Places r' (update s.ctx c (f (s.threads c)).context) s'.ready s'.idle)
    (hwaiters : (f (s.threads c)).context ≠ .exited →
      (f (s.threads c)).waiters = (s.threads c).waiters)
    (hexited : s.ctx c = .exited → (f (s.threads c)).context = .exited)
    (hwaits : ∀ x, s.ctx x ≠ .exited → c ∈ (s.threads x).waiters →
      (f (s.threads c)).context = .joining (some x) ∧ (f (s.threads c)).waitingon = some x)
    (hnew : ∀ t ∈ W', t = c ∧ (f (s.threads c)).context = .joining none ∨ t ≠ c ∧ t ∈ W) :
    s'.Kept W' r' := by
  have hctx : s'.ctx = update s.ctx c (f (s.threads c)).context := by
    rw [← ctx_modify]
    funext t
    rw [ctx, hthreads]
    rfl
  -- whoever has not exited now had not before, and has the same waiters
  have hold : ∀ x, s'.ctx x ≠ .exited →
      s.ctx x ≠ .exited ∧ (s'.threads x).waiters = (s.threads x).waiters := by
    intro x hx
    rw [hctx] at hx
    rw [hthreads]
    by_cases hxc : x = c
    · subst hxc
      rw [update_self] at hx
      rw [modify_self]
      exact ⟨mt hexited hx, hwaiters hx⟩
    · rw [update_of_ne hxc] at hx
      rw [modify_of_ne hxc]
      exact ⟨hx, rfl⟩
  constructor
  case places =>
    rw [hctx]
    exact hplaces
  case nodup =>
    intro x hx
    rw [(hold x hx).2]
    exact hK.nodup x (hold x hx).1
  case waits =>
    intro x hx w hw
    rw [(hold x hx).2] at hw
    rw [hctx, hthreads]
    by_cases hwc : w = c
    · subst hwc
      rw [update_self, modify_self]
      exact hwaits x (hold x hx).1 hw
    · rw [update_of_ne hwc, modify_of_ne hwc]
      exact hK.waits x (hold x hx).1 w hw
  case waiting =>
    intro t ht
    rw [hctx]
    rcases hnew t ht with ⟨rfl, hcontext⟩ | ⟨hne, hin⟩
    · rw [update_self]
      exact hcontext
    · rw [update_of_ne hne]
      exact hK.waiting t hin
  case unborn =>
    intro t ht
    rw [hcount] at ht
    rw [hthreads, modify_of_ne (by omega)]
    exact hK.unborn t ht

/-- A call that writes other fields of the record of `c`. -/
theorem write (f : Thread → Thread) (hK : s.Kept W r) (hc : c < s.count)
    (hcontext : (f (s.threads c)).context = (s.threads c).context)
    (hwaiters : s.ctx c ≠ .exited → (f (s.threads c)).waiters = (s.threads c).waiters)
    (hwaitingon : (f (s.threads c)).waitingon = (s.threads c).waitingon) :
    (s.modify c f).Kept W r := by
  refine hK.modify f rfl rfl hc ?_ ?_ hcontext.trans ?_ ?_
  · rw [hcontext, show (s.threads c).context = s.ctx c from rfl, update_eq_self]
    exact hK.places
  · rw [hcontext]
    exact hwaiters
  · intro x hx hmem
    rw [hcontext, hwaitingon]
    exact hK.waits x hx c hmem
  · intro t ht
    rw [hcontext]
    by_cases htc : t = c
    · exact .inl ⟨htc, htc ▸ hK.waiting t ht⟩
    · exact .inr ⟨htc, ht⟩

end Kept

/-! ### The results of joins -/

/-- No thread is woken and no join returns. -/
theorem Results.mono (hres : s.Results h) (hfreed : s'.freed = s.freed)
    (hjoins : s'.joins = s.joins)
    (hwoken : ∀ t who v, s'.ctx t = .woken who v → s.ctx t = .woken who v)
    (hfin : ∀ t v, s.Finished t v → s'.Finished t v) : s'.Results h where
  wokenBy := fun t who v ht => by
    rw [hfreed]
    exact hres.wokenBy t who v (hwoken t who v ht)
  wokenChild := fun t v ht => hfin t v (hres.wokenChild t v (hwoken t none v ht))
  wokenNew := fun t v ht => by
    rw [hjoins]
    exact hres.wokenNew t v (hwoken t none v ht)
  wokenOnce := fun t v ht t' who ht' =>
    hres.wokenOnce t v (hwoken t none v ht) t' who (hwoken t' who v ht')
  returned := by
    rw [hjoins, hfreed]
    exact hres.returned
  joins := fun pre e post heq hwho => by
    rw [hjoins] at heq
    obtain ⟨v, hv, hchild, hnew⟩ := hres.joins pre e post heq hwho
    exact ⟨v, hv, hfin _ v hchild, hnew⟩

/-- A finished thread stays finished when another record, or only other fields, are written. -/
theorem Finished.modify {t v : Nat} (hfin : s.Finished t v)
    (hparent : (f (s.threads c)).parent = (s.threads c).parent)
    (hcontext : s.ctx c = .exited → (f (s.threads c)).context = .exited)
    (hdetach : s.ctx c = .exited →
      (f (s.threads c)).detachCalled = (s.threads c).detachCalled) :
    (s.modify c f).Finished t v := by
  by_cases hvc : v = c
  · subst hvc
    refine ⟨?_, ?_, ?_⟩
    · rw [modify_self, hparent]
      exact hfin.parent
    · rw [ctx_modify, update_self]
      exact hcontext hfin.exited
    · rw [modify_self, hdetach hfin.exited]
      exact hfin.attached
  · refine ⟨?_, ?_, ?_⟩
    · rw [modify_of_ne hvc]
      exact hfin.parent
    · rw [ctx, modify_of_ne hvc]
      exact hfin.exited
    · rw [modify_of_ne hvc]
      exact hfin.attached

/-- A new entry of `joins`. -/
theorem JoinsOk.append {e : Join} (hj : s.JoinsOk) (hjoins : s'.joins = s.joins ++ [e])
    (hfin : ∀ t v, s.Finished t v → s'.Finished t v)
    (he : e.who = none → ∃ v, e.value = some v ∧ s'.Finished e.caller v ∧
      ∀ e' ∈ s.joins, e'.value ≠ some v) : s'.JoinsOk := by
  intro pre e₁ post heq hwho
  rw [hjoins] at heq
  -- the entry is the new one or an old one
  rcases List.eq_nil_or_concat post with rfl | ⟨post', e₂, rfl⟩
  · obtain ⟨rfl, hlast⟩ := List.append_inj' heq rfl
    cases hlast
    exact he hwho
  · rw [List.concat_eq_append, ← List.cons_append, ← List.append_assoc] at heq
    obtain ⟨hold, _⟩ := List.append_inj' heq rfl
    obtain ⟨v, hv, hchild, hnew⟩ := hj pre e₁ post' hold hwho
    exact ⟨v, hv, hfin _ v hchild, hnew⟩

/-- Only exited threads are freed. -/
theorem Inv.notFreed (hI : s.Inv r h) {t : Nat} (ht : s.ctx t ≠ .exited) : t ∉ s.freed :=
  fun hmem => ht ((hI.records t).freed hmem)

/-- Two states with the same records and the same freed list. -/
structure SameRecords (s s' : State) : Prop where
  threads : s'.threads = s.threads
  count : s'.count = s.count
  freed : s'.freed = s.freed
  stale : s'.stale = s.stale

/-- The contexts are in the records. -/
theorem SameRecords.ctx (hs : SameRecords s s') : s'.ctx = s.ctx := by
  funext t
  rw [State.ctx, hs.threads]
  rfl

/-- Whether a child is finished is in the records. -/
theorem SameRecords.finished (hs : SameRecords s s') {t v : Nat} (hfin : s.Finished t v) :
    s'.Finished t v :=
  ⟨by rw [hs.threads]; exact hfin.parent, by rw [hs.ctx]; exact hfin.exited,
    by rw [hs.threads]; exact hfin.attached⟩

/-- The record of `c` is written, no thread is woken by it and no join returns. -/
theorem Results.modify (f : Thread → Thread) (hres : s.Results h)
    (hs : SameRecords (s.modify c f) s') (hjoins : s'.joins = s.joins)
    (hparent : (f (s.threads c)).parent = (s.threads c).parent)
    (hcontext : s.ctx c = .exited → (f (s.threads c)).context = .exited)
    (hdetach : s.ctx c = .exited →
      (f (s.threads c)).detachCalled = (s.threads c).detachCalled)
    (hwoken : ∀ who v, (f (s.threads c)).context = .woken who v → s.ctx c = .woken who v) :
    s'.Results h := by
  refine hres.mono hs.freed hjoins ?_ fun t v hfin =>
    hs.finished (hfin.modify hparent hcontext hdetach)
  intro t who v ht
  rw [hs.ctx, ctx_modify] at ht
  by_cases htc : t = c
  · subst htc
    rw [update_self] at ht
    exact hwoken who v ht
  · rw [update_of_ne htc] at ht
    exact ht

/-- What the invariant does not mention may change. -/
theorem Inv.same (hI : s.Inv r h) (hs : SameRecords s s') (hready : s'.ready = s.ready)
    (hidle : s'.idle = s.idle) (hjoins : s'.joins = s.joins) : s'.Inv r h where
  toKept := hI.toKept.same hs.threads hs.count hready hidle
  records := by rw [hs.threads, hs.freed]; exact hI.records
  family := ⟨by rw [hs.threads]; exact hI.family.parent,
    by rw [hs.ctx, hs.threads]; exact hI.family.born⟩
  freedNodup := by rw [hs.freed]; exact hI.freedNodup
  stale := hs.stale.trans hI.stale
  results := hI.results.mono hs.freed hjoins (fun _ _ _ heq => by rwa [hs.ctx] at heq)
    fun _ _ hfin => hs.finished hfin

/-- A call that writes the record of `c` with `f`. What is left to prove is about that one record
and the results. -/
theorem Inv.modify (f : Thread → Thread) (hI : s.Inv r h) {h' : Option Nat}
    (hs : SameRecords (s.modify c f) s') (hkept : s'.Kept [] r')
    (hrecord : (f (s.threads c)).Ok (c ∈ s.freed))
    (hchildren : (f (s.threads c)).children = (s.threads c).children)
    (hparent : (f (s.threads c)).parent = (s.threads c).parent)
    (hborn : s.ctx c ≠ .unborn → (f (s.threads c)).context ≠ .unborn)
    (hresults : s'.Results h') : s'.Inv r' h' where
  toKept := hkept
  records := by
    rw [hs.threads, hs.freed]
    exact records_modify hI.records hrecord
  family := by
    have hfam := hI.family.modify hchildren hparent hborn
    exact ⟨by rw [hs.threads]; exact hfam.parent, by rw [hs.ctx, hs.threads]; exact hfam.born⟩
  freedNodup := by rw [hs.freed]; exact hI.freedNodup
  stale := hs.stale.trans hI.stale
  results := hresults

/-- Nobody was handed out so far, so `c` may be the one. -/
theorem Inv.handing (hI : s.Inv r none) (c : Nat) : s.Inv r (some c) :=
  { hI with results := { hI.results with
      wokenBy := fun t who v ht => (hI.results.wokenBy t who v ht).imp_right nofun } }

end

end State

end Stacklets.SingleCore

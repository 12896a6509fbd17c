import Stacklets.Mythreads.Custody

/-!
# `Stacklets.Mythreads.Lives`: the invariant of fork-join programs

`Pool.Inv` says what holds for the mythreads of a fork-join program, by the place where they are
(`Pool.content`): a mythread that can be resumed has a context that was not resumed since it was
saved (`Ready`), one that waits for another one is its parent (`Waiting`), and so on.

A step of a thread changes the records in few ways. `Record.Changes` lists them by the task of
the thread, and `Pool.Guar` says that a step does nothing else. The other threads rely on this:
what they know stays true, because a change needs the lock of the record or the mythread itself,
and nobody else has these. `Inv.of_guar` puts this together. What it leaves to prove is about the
thread that takes the step.
-/

set_option autoImplicit false

namespace Stacklets.Mythreads

open Lib

section
variable {P M : Type*}

/-! ### The invariant -/

/-- A record before `mythread_create`. -/
def Record.blank (P M : Type*) : Record P M :=
  { Pool.newRecord P none with created := false, resumable := false }

/-- What the fields of one record have to do with each other. -/
structure Record.Ok (r : Record P M) : Prop where
  blank : r.created = false → r = .blank P M
  done : r.done = true → r.finished = true
  detached : r.finished = true → r.done = false → r.detached = true
  called : r.detached = true → r.joinCalled = true
  starts : r.starts ≤ 1
  fresh : r.resumable = true → r.context = .fresh → r.starts = 0

namespace Pool

/-- The mythread `m` can be resumed. If it comes back to a join, the other one has finished. -/
structure Ready (s : Pool P M) (m : M) : Prop where
  resumable : (s.records m).resumable = true
  alive : (s.records m).finished = false
  joined : ∀ y, (s.records m).context = .inJoin y → (s.records y).finished = true

/-- The mythread `m` waits for `x`, in a join or in the create of `x`. -/
structure Waiting (s : Pool P M) (m x : M) : Prop where
  parent : (s.records x).parent = some m
  alive : (s.records m).finished = false
  saved : (∃ t, (s.tasks t).pushing = some (m, x)) ∨
    (s.records m).resumable = true ∧ ∀ y, (s.records m).context = .inJoin y → y = x
  blocked : (m, x) ∈ s.blocked ∨ (s.records x).insertFail = true ∨
    ∃ t, s.tasks t = .createFlag m x

/-- `w` was blocked in a join with `x`, and was not put back. -/
def Owed (s : Pool P M) (w x : M) : Prop := (w, x) ∈ s.blocked ∧ (w, x) ∉ s.putBack

/-- What a thread knows at its task. -/
def TaskOk (s : Pool P M) : Task M → Prop
  | .create m x | .createPush m x =>
    (s.records x).parent = some m ∧ ∀ w, (w, x) ∉ s.blocked
  | .createFlag m x => m ∈ (s.records x).waits ∧ ∀ w, (w, x) ∉ s.blocked
  | .createSave m x | .createResume m x | .joinSave m x | .joinSwitch m x =>
    m ∈ (s.records x).waits
  | .joinLock m x | .joinTest m x =>
    (s.records x).parent = some m ∧ (s.records x).joinCalled = true ∧
      (s.records x).detached = false
  | .joinDetach m x | .joinUnlock m x | .joinFree m x =>
    (s.records x).parent = some m ∧ (s.records x).joinCalled = true ∧
      (s.records x).finished = true
  | .joinPush m x => (s.records x).parent = some m ∧ (s.records x).finished = false
  | .wakeLock _ x | .wakeFree _ x | .wakeUnlock _ x => (s.records x).finished = true
  | _ => True

/-- What a thread knows at its task in the exit of `x`. -/
structure ExitOk (s : Pool P M) (t : Option P) (x : M) : Prop where
  finished : (s.records x).finished = true
  one : (s.owed t).length ≤ 1
  owed : ∀ w ∈ s.owed t, s.Owed w x

/-- The locks are with the threads whose tasks say so. -/
def LocksOk (s : Pool P M) : Prop :=
  ∀ t x, (s.tasks t).locks = some x ↔ (s.records x).lock.map some = some t

structure Inv (s : Pool P M) : Prop where
  apart : Apart s.content
  born : ∀ i, ∀ m ∈ s.content i, (s.records m).created = true
  records : ∀ m, (s.records m).Ok
  ready : ∀ t, ∀ m ∈ s.ready t, s.Ready m
  buffered : ∀ m ∈ s.buffered, s.Ready m
  waits : ∀ x, ∀ m ∈ (s.records x).waits, s.Waiting m x
  body : ∀ t m, (s.tasks t).body = some m →
    (s.records m).finished = (s.tasks t).exiting.isSome
  tasks : ∀ t, s.TaskOk (s.tasks t)
  locks : s.LocksOk
  exits : ∀ t x, (s.tasks t).exiting = some x → s.ExitOk t x
  exitOnce : ∀ t u x, (s.tasks t).exiting = some x → (s.tasks u).exiting = some x → t = u
  failed : ∀ x, (s.records x).insertFail = true →
    (s.records x).finished = true ∨ ∃ m, m ∈ (s.records x).waits
  joins : ∀ e ∈ s.joins, (s.records e.2.1).finished = true
  putNodup : s.putBack.Nodup
  putBack : ∀ w x, (w, x) ∈ s.putBack → (w, x) ∈ s.blocked ∧ (s.records x).finished = true
  blockedNodup : s.blocked.Nodup
  unfailed : ∀ w x, (w, x) ∈ s.blocked →
    (s.records x).created = true ∧ (s.records x).insertFail = false
  blocked : ∀ w x, (w, x) ∈ s.blocked → (w, x) ∈ s.putBack ∨ w ∈ (s.records x).waits ∨
    ∃ t, (s.tasks t).exiting = some x ∧ w ∈ s.owed t

end Pool

/-! ### What a step may change -/

/-- The changes of the record of `x` in one step of a thread at the task `k`, with the mythreads
`ready` in its hands. -/
structure Record.Changes (k : Task M) (ready : List M) (x : M) (r r' : Record P M) : Prop where
  created : r.created = true → r'.created = true
  parent : r.created = true → r'.parent = r.parent
  joinCalled : r.joinCalled = true → r'.joinCalled = true
  finished : r'.finished = r.finished ∨ k = .exitDone x ∧ r'.finished = true
  waiters : r'.waiters = r.waiters ∨ k = .exitTake x ∨ (∃ w, k = .exitClear x w) ∨
    ∃ m, (k = .createPush m x ∨ k = .joinPush m x) ∧ r'.waiters = m :: r.waiters
  detached : r'.detached = r.detached ∨ ∃ m, k = .joinDetach m x
  insertFail : r'.insertFail = r.insertFail ∨ r'.insertFail = true ∧ ∃ m, k = .createFlag m x
  context : r.created = true → (r'.context = r.context ∧ r'.resumable = r.resumable) ∨
    x ∈ ready ∨ ∃ y, k.pushing = some (x, y)

/-- A record that stays as it is. -/
theorem Record.Changes.refl (k : Task M) (ready : List M) (x : M) (r : Record P M) :
    r.Changes k ready x r where
  created h := h
  parent _ := rfl
  joinCalled h := h
  finished := .inl rfl
  waiters := .inl rfl
  detached := .inl rfl
  insertFail := .inl rfl
  context _ := .inl ⟨rfl, rfl⟩

/-- What a step of the thread `t` from `s` to `s'` guarantees to the other threads. -/
structure Pool.Guar (s s' : Pool P M) (t : Option P) : Prop where
  tasks : ∀ u, u ≠ t → s'.tasks u = s.tasks u
  calls : ∀ u, u ≠ t → s'.sys.calls u = s.sys.calls u
  records : ∀ x, (s.records x).Changes (s.tasks t) (s.ready t) x (s'.records x)
  pushing : ∀ m x, (s.tasks t).pushing = some (m, x) → (s'.tasks t).pushing = some (m, x) ∨
    (s'.records m).resumable = true ∧ ∀ y, (s'.records m).context = .inJoin y → y = x
  flag : ∀ m x, s.tasks t = .createFlag m x → (s'.records x).insertFail = true
  blocked : s'.blocked = s.blocked ∨
    ∃ m x, s.tasks t = .joinPush m x ∧ s'.blocked = s.blocked ++ [(m, x)]
  putBack : s'.putBack = s.putBack ∨
    ∃ w x, (s.tasks t).exiting = some x ∧ w ∈ s.owed t ∧ s'.putBack = s.putBack ++ [(w, x)]

namespace Pool

/-! ### A mythread is in one place -/

section
variable {s : Pool P M} {t u : Option P} {m x y : M}

/-- A thread has the mythread in its hands whose body it executes. -/
theorem mem_hands_body (h : (s.tasks t).body = some m) : m ∈ s.hands t := by
  rw [hands, h]
  exact List.mem_cons_self

/-- A thread has the mythreads in its hands that it will make ready. -/
theorem mem_hands_ready (h : m ∈ s.ready t) : m ∈ s.hands t := List.mem_append_right _ h

/-- The same, when the task is known. -/
theorem mem_hands_of {k : Task M} (hk : s.tasks t = k)
    (h : m ∈ k.ready (s.sys.calls t) fun m => (s.records m).waiters) : m ∈ s.hands t := by
  subst hk
  exact mem_hands_ready h

/-- No mythread is in the hands of two threads. -/
theorem Inv.hand_unique (hI : s.Inv) (ht : m ∈ s.hands t) (hu : m ∈ s.hands u) : t = u :=
  Place.hand.inj (hI.apart.unique (i := .hand t) (j := .hand u) ht hu)

/-- A mythread in the hands of a thread does not wait for another one. -/
theorem Inv.not_waits (hI : s.Inv) (ht : m ∈ s.hands t) : m ∉ (s.records x).waits :=
  hI.apart.not_mem (i := .hand t) (j := .waits x) ht nofun

/-- A lock has one holder. -/
theorem Inv.lock_unique (hI : s.Inv) (ht : (s.tasks t).locks = some x)
    (hu : (s.tasks u).locks = some x) : t = u :=
  Option.some.inj (((hI.locks t x).mp ht).symm.trans ((hI.locks u x).mp hu))

/-- A record with a parent is in use. -/
theorem Inv.created_of_parent (hI : s.Inv) (h : (s.records x).parent = some m) :
    (s.records x).created = true := by
  cases hc : (s.records x).created with
  | true => rfl
  | false =>
    rw [(hI.records x).blank hc] at h
    cases h

/-- A finished mythread was created. -/
theorem Inv.created_of_finished (hI : s.Inv) (h : (s.records x).finished = true) :
    (s.records x).created = true := by
  cases hc : (s.records x).created with
  | true => rfl
  | false =>
    rw [(hI.records x).blank hc] at h
    cases h

/-- Only the parent waits for a mythread. -/
theorem Inv.waits_length (hI : s.Inv) (x : M) : (s.records x).waits.length ≤ 1 := by
  match hl : (s.records x).waits with
  | [] => exact Nat.zero_le _
  | [_] => exact Nat.le_refl _
  | a :: b :: l =>
    have ha := (hI.waits x a (by rw [hl]; exact .head _)).parent
    have hb := (hI.waits x b (by rw [hl]; exact .tail _ (.head _))).parent
    have hnodup := hI.apart.nodup (.waits x)
    rw [show s.content (.waits x) = a :: b :: l from hl,
      Option.some.inj (ha.symm.trans hb)] at hnodup
    exact absurd (List.mem_cons_self ..) (List.nodup_cons.mp hnodup).1

/-- The mythreads that a thread has just pushed are on the waiters of the other one. -/
theorem Inv.waits_of_pushing (hI : s.Inv) (h : (s.tasks t).pushing = some (m, x)) :
    m ∈ (s.records x).waits := by
  have htask := hI.tasks t
  cases hk : s.tasks t with
  | createFlag m x | createSave m x | joinSave m x =>
    rw [hk] at h htask
    cases h
    first
    | exact htask.1
    | exact htask
  | _ =>
    rw [hk] at h
    cases h

end

/-! ### What the other threads rely on -/

section
variable {s s' : Pool P M} {t u : Option P} {m x y w : M}

/-- A finished mythread stays finished. -/
theorem Guar.finished_mono (hG : s.Guar s' t) (h : (s.records x).finished = true) :
    (s'.records x).finished = true := by
  rcases (hG.records x).finished with heq | ⟨-, heq⟩
  · exact heq.trans h
  · exact heq

/-- Only the thread that executes the body of a mythread can finish it. -/
theorem Guar.finished_eq (hG : s.Guar s' t) (h : m ∉ s.hands t) :
    (s'.records m).finished = (s.records m).finished := by
  rcases (hG.records m).finished with heq | ⟨hk, -⟩
  · exact heq
  · exact absurd (mem_hands_body (by rw [hk]; rfl)) h

/-- What was blocked once stays in the history. -/
theorem Guar.blocked_mono (hG : s.Guar s' t) (h : (w, x) ∈ s.blocked) : (w, x) ∈ s'.blocked := by
  rcases hG.blocked with heq | ⟨_, _, -, heq⟩
  · rw [heq]
    exact h
  · rw [heq]
    exact List.mem_append_left _ h

/-- A pair that is put back by nobody but the exit of `x` is not put back by another thread. -/
theorem Inv.owed_keep (hI : s.Inv) (hG : s.Guar s' t) (hu : u ≠ t)
    (hx : (s.tasks u).exiting = some x) (h : s.Owed w x) : s'.Owed w x := by
  refine ⟨hG.blocked_mono h.1, ?_⟩
  rcases hG.putBack with heq | ⟨_, y, hy, -, heq⟩
  · rw [heq]
    exact h.2
  · rw [heq]
    intro hmem
    rcases List.mem_append.mp hmem with hold | hnew
    · exact h.2 hold
    · cases List.mem_singleton.mp hnew
      exact hu (hI.exitOnce u t _ hx hy)

/-- Nobody changes the waiters of a mythread that another thread has, with its lock. -/
theorem Inv.waiters_keep (hI : s.Inv) (hG : s.Guar s' t) (hu : u ≠ t) (hm : m ∈ s.hands u)
    (hlock : (s.tasks u).locks = some m) : (s'.records m).waiters = (s.records m).waiters := by
  have hne : m ∉ s.hands t := fun ht => hu (hI.hand_unique hm ht)
  rcases (hG.records m).waiters with heq | hk | ⟨_, hk⟩ | ⟨_, hk | hk, -⟩
  · exact heq
  · exact absurd (mem_hands_body (by rw [hk]; rfl)) hne
  · exact absurd (mem_hands_body (by rw [hk]; rfl)) hne
  · exact absurd (mem_hands_of hk List.mem_cons_self) hne
  · exact absurd (hI.lock_unique hlock (by rw [hk]; rfl)) hu

/-- Only the thread that has a mythread writes its failed insert. -/
theorem Guar.insertFail_eq (hG : s.Guar s' t) (hm : m ∉ s.hands t) :
    (s'.records m).insertFail = (s.records m).insertFail := by
  rcases (hG.records m).insertFail with heq | ⟨-, _, hk⟩
  · exact heq
  · exact absurd (mem_hands_of hk List.mem_cons_self) hm

/-- The other threads have the same mythreads in their hands. -/
theorem Inv.ready_keep (hI : s.Inv) (hG : s.Guar s' t) (hu : u ≠ t) : s'.ready u = s.ready u := by
  rw [Pool.ready, Pool.ready, hG.tasks u hu, hG.calls u hu]
  cases hk : s.tasks u with
  | exitTest m | exitTake m | exitWaiters m =>
    exact hI.waiters_keep hG hu (mem_hands_body (by rw [hk]; rfl)) (by rw [hk]; rfl)
  | _ => rfl

/-- A step of `t` takes nothing out of the hands of the others. -/
theorem Inv.hands_keep (hI : s.Inv) (hG : s.Guar s' t) (hu : u ≠ t) :
    s'.hands u = s.hands u := by
  rw [Pool.hands, Pool.hands, hI.ready_keep hG hu, hG.tasks u hu]

/-- The other threads have to put back the same mythreads. -/
theorem Inv.owed_eq (hI : s.Inv) (hG : s.Guar s' t) (hu : u ≠ t) : s'.owed u = s.owed u := by
  rw [Pool.owed, Pool.owed, hG.tasks u hu]
  have hkeep : ∀ {m}, (s.tasks u).body = some m → (s.tasks u).locks = some m →
      (s'.records m).waiters = (s.records m).waiters :=
    fun hbody hlock => hI.waiters_keep hG hu (mem_hands_body hbody) hlock
  cases hk : s.tasks u with
  | exitTest m =>
    have hbody : (s.tasks u).body = some m := by rw [hk]; rfl
    have hfail := hG.insertFail_eq fun ht =>
      hu (hI.hand_unique (mem_hands_body hbody) ht)
    simp only [Task.owed, hkeep hbody (by rw [hk]; rfl), hfail]
  | exitWaiters m => exact hkeep (by rw [hk]; rfl) (by rw [hk]; rfl)
  | _ => rfl

/-- The waiters of `x` stay, if `x` is not finished and nobody is pushed. -/
theorem Inv.waits_keep (hI : s.Inv) (hG : s.Guar s' t) (hdone : s.tasks t ≠ .exitDone x)
    (hcreate : ∀ m, s.tasks t ≠ .createPush m x) (hjoin : ∀ m, s.tasks t ≠ .joinPush m x) :
    (s'.records x).waits = (s.records x).waits := by
  have hfin : (s'.records x).finished = (s.records x).finished :=
    (hG.records x).finished.resolve_right fun h => hdone h.1
  have hover : ∀ {k : Task M}, s.tasks t = k → k.exiting = some x →
      (s'.records x).waits = (s.records x).waits := by
    intro k hk hx
    have hx := (hI.exits t x (by rw [hk]; exact hx)).finished
    rw [Record.waits, Record.waits, hfin, if_pos hx, if_pos hx]
  rcases (hG.records x).waiters with heq | hk | ⟨_, hk⟩ | ⟨m, hk | hk, -⟩
  · rw [Record.waits, Record.waits, hfin, heq]
  · exact hover hk rfl
  · exact hover hk rfl
  · exact absurd hk (hcreate m)
  · exact absurd hk (hjoin m)

/-- A waiter stays one until the other mythread is finished. -/
theorem Inv.waits_mono (hI : s.Inv) (hG : s.Guar s' t) (hdone : s.tasks t ≠ .exitDone x)
    (h : m ∈ (s.records x).waits) : m ∈ (s'.records x).waits := by
  have hnot : (s.records x).finished = false := by
    cases hfin : (s.records x).finished with
    | false => rfl
    | true =>
      rw [Record.waits, if_pos hfin] at h
      cases h
  have hfin : (s'.records x).finished = false :=
    ((hG.records x).finished.resolve_right fun h => hdone h.1).trans hnot
  have hpush : ∀ {w}, (s'.records x).waiters = w :: (s.records x).waiters →
      m ∈ (s'.records x).waits := by
    intro w heq
    rw [Record.waits, hnot] at h
    rw [Record.waits, hfin, heq]
    exact List.mem_cons_of_mem _ h
  by_cases hcreate : ∃ w, s.tasks t = .createPush w x ∨ s.tasks t = .joinPush w x
  · rcases (hG.records x).waiters with heq | hk | ⟨_, hk⟩ | ⟨_, -, heq⟩
    · rw [Record.waits, hfin, heq]
      rw [Record.waits, hnot] at h
      exact h
    · obtain ⟨w, hw | hw⟩ := hcreate <;> rw [hk] at hw <;> cases hw
    · obtain ⟨w, hw | hw⟩ := hcreate <;> rw [hk] at hw <;> cases hw
    · exact hpush heq
  · rw [hI.waits_keep hG hdone (fun w hw => hcreate ⟨w, .inl hw⟩) fun w hw =>
      hcreate ⟨w, .inr hw⟩]
    exact h

/-- The context of a mythread that is not in the hands of `t` stays, unless `t` has just pushed
it. -/
theorem Guar.context_eq (hG : s.Guar s' t) (hcreated : (s.records m).created = true)
    (hhands : m ∉ s.hands t) (hpush : ∀ y, (s.tasks t).pushing ≠ some (m, y)) :
    (s'.records m).context = (s.records m).context ∧
      (s'.records m).resumable = (s.records m).resumable := by
  rcases (hG.records m).context hcreated with heq | hready | ⟨y, hy⟩
  · exact heq
  · exact absurd (mem_hands_ready hready) hhands
  · exact absurd hy (hpush y)

/-- A mythread with the same context can be resumed as before. -/
theorem Ready.keep (hG : s.Guar s' t) (h : s.Ready m)
    (hcontext : (s'.records m).context = (s.records m).context)
    (hresumable : (s'.records m).resumable = (s.records m).resumable)
    (hfin : (s'.records m).finished = (s.records m).finished) : s'.Ready m where
  resumable := hresumable.trans h.resumable
  alive := hfin.trans h.alive
  joined y hy := hG.finished_mono (h.joined y (hcontext ▸ hy))

/-- What the thread `t` does not have can be resumed as before. -/
theorem Inv.ready_other (hI : s.Inv) (hG : s.Guar s' t) {i : Place P M} (hm : m ∈ s.content i)
    (hhand : i ≠ .hand t) (hwaits : ∀ x, i ≠ .waits x) (h : s.Ready m) : s'.Ready m := by
  have hnot : m ∉ s.hands t := hI.apart.not_mem (i := i) (j := .hand t) hm hhand
  have hpush : ∀ y, (s.tasks t).pushing ≠ some (m, y) := fun y hy =>
    hI.apart.not_mem (i := i) (j := .waits y) hm (hwaits y) (hI.waits_of_pushing hy)
  obtain ⟨hcontext, hresumable⟩ := hG.context_eq (hI.born i m hm) hnot hpush
  exact h.keep hG hcontext hresumable (hG.finished_eq hnot)

/-- Who waits goes on waiting. -/
theorem Inv.waiting_keep (hI : s.Inv) (hG : s.Guar s' t) (hm : m ∈ (s.records x).waits) :
    s'.Waiting m x := by
  have h := hI.waits x m hm
  have hnot : m ∉ s.hands t := fun ht => hI.not_waits ht hm
  constructor
  case parent => exact ((hG.records x).parent (hI.created_of_parent h.parent)).trans h.parent
  case alive => exact (hG.finished_eq hnot).trans h.alive
  case saved =>
    by_cases hpush : ∃ y, (s.tasks t).pushing = some (m, y)
    · obtain ⟨y, hy⟩ := hpush
      -- it waits for one mythread only
      obtain rfl : y = x := Place.waits.inj
        (hI.apart.unique (i := .waits y) (j := .waits x) (hI.waits_of_pushing hy) hm)
      exact (hG.pushing m y hy).imp_left fun hy' => ⟨t, hy'⟩
    · obtain ⟨hcontext, hresumable⟩ := hG.context_eq (hI.born (.waits x) m hm) hnot
        fun y hy => hpush ⟨y, hy⟩
      rcases h.saved with ⟨u, hu⟩ | ⟨hres, hjoin⟩
      · left
        refine ⟨u, ?_⟩
        rw [hG.tasks u (by rintro rfl; exact hpush ⟨x, hu⟩)]
        exact hu
      · right
        rw [hcontext, hresumable]
        exact ⟨hres, hjoin⟩
  case blocked =>
    rcases h.blocked with hin | hfail | ⟨u, hu⟩
    · exact .inl (hG.blocked_mono hin)
    · rcases (hG.records x).insertFail with heq | ⟨heq, -⟩
      · exact .inr (.inl (heq.trans hfail))
      · exact .inr (.inl heq)
    · by_cases hut : u = t
      · subst hut
        exact .inr (.inl (hG.flag m x hu))
      · exact .inr (.inr ⟨u, (hG.tasks u hut).trans hu⟩)

/-- Nobody else blocks in a join with a mythread whose parent a thread has. -/
theorem Guar.unblocked (hG : s.Guar s' t) (hm : ∀ v, s.tasks t ≠ .joinPush v x)
    (h : ∀ w, (w, x) ∉ s.blocked) : ∀ w, (w, x) ∉ s'.blocked := by
  intro w hw
  rcases hG.blocked with heq | ⟨v, y, hk, heq⟩
  · rw [heq] at hw
    exact h w hw
  · rw [heq] at hw
    rcases List.mem_append.mp hw with hold | hnew
    · exact h w hold
    · cases List.mem_singleton.mp hnew
      exact hm _ hk

/-- What the other threads know stays true. -/
theorem Inv.taskOk_keep (hI : s.Inv) (hG : s.Guar s' t) (hu : u ≠ t) :
    s'.TaskOk (s'.tasks u) := by
  rw [hG.tasks u hu]
  have h := hI.tasks u
  have hparent : ∀ {m x}, (s.records x).parent = some m → (s'.records x).parent = some m :=
    fun hp => ((hG.records _).parent (hI.created_of_parent hp)).trans hp
  have hother : ∀ {m k}, (s.tasks u).body = some m → s.tasks t = k → k.body ≠ some m := by
    intro m k hbody hk hk'
    exact hu (hI.hand_unique (mem_hands_body hbody) (mem_hands_body (by rw [hk]; exact hk')))
  cases hk : s.tasks u with
  | create m x | createPush m x =>
    rw [hk] at h
    refine ⟨hparent h.1, hG.unblocked (fun v hv => ?_) h.2⟩
    have hv' := hI.tasks t
    rw [hv] at hv'
    exact hother (by rw [hk]; rfl) hv (hv'.1.symm.trans h.1)
  | createFlag m x =>
    rw [hk] at h
    have hx : x ∈ s.hands u := mem_hands_of hk List.mem_cons_self
    refine ⟨hI.waits_mono hG (fun hd => ?_) h.1, hG.unblocked (fun v hv => ?_) h.2⟩
    · exact hu (hI.hand_unique hx (mem_hands_body (by rw [hd]; rfl)))
    · -- the parent waits, so it is not in a join
      have hv' := hI.tasks t
      rw [hv] at hv'
      have hvm : v = m := Option.some.inj (hv'.1.symm.trans (hI.waits x m h.1).parent)
      exact hI.not_waits (mem_hands_body (by rw [hv]; rfl)) (hvm ▸ h.1)
  | createSave m x | createResume m x =>
    rw [hk] at h
    have hx : x ∈ s.hands u := mem_hands_of hk List.mem_cons_self
    refine hI.waits_mono hG (fun hd => ?_) h
    exact hu (hI.hand_unique hx (mem_hands_body (by rw [hd]; rfl)))
  | joinSave m x | joinSwitch m x =>
    rw [hk] at h
    refine hI.waits_mono hG (fun hd => ?_) h
    exact hu (hI.lock_unique (by rw [hk]; rfl) (by rw [hd]; rfl))
  | joinLock m x | joinTest m x =>
    rw [hk] at h
    refine ⟨hparent h.1, (hG.records x).joinCalled h.2.1, ?_⟩
    rcases (hG.records x).detached with heq | ⟨v, hv⟩
    · exact heq.trans h.2.2
    · have hv' := hI.tasks t
      rw [hv] at hv'
      exact absurd (hv'.1.symm.trans h.1) (hother (by rw [hk]; rfl) hv)
  | joinDetach m x | joinUnlock m x | joinFree m x =>
    rw [hk] at h
    exact ⟨hparent h.1, (hG.records x).joinCalled h.2.1, hG.finished_mono h.2.2⟩
  | joinPush m x =>
    rw [hk] at h
    refine ⟨hparent h.1, ?_⟩
    rcases (hG.records x).finished with heq | ⟨hd, -⟩
    · exact heq.trans h.2
    · exact absurd (hI.lock_unique (by rw [hk]; rfl) (by rw [hd]; rfl)) hu
  | wakeLock m x | wakeFree m x | wakeUnlock m x =>
    rw [hk] at h
    exact hG.finished_mono h
  | _ => trivial

/-! ### A step keeps the invariant -/

/-- What is left to prove about the thread `t` that takes the step. -/
structure Does (s s' : Pool P M) (t : Option P) : Prop where
  apart : Apart s'.content
  born : ∀ m ∈ s'.hands t, (s'.records m).created = true
  records : ∀ m, (s'.records m).Ok
  ready : ∀ m ∈ s'.ready t, s'.Ready m
  buffered : ∀ m ∈ s'.buffered, m ∈ s.buffered ∨ s'.Ready m ∧ (s'.records m).created = true
  waits : ∀ x, ∀ m ∈ (s'.records x).waits, m ∈ (s.records x).waits ∨
    s'.Waiting m x ∧ (s'.records m).created = true
  body : ∀ m, (s'.tasks t).body = some m →
    (s'.records m).finished = (s'.tasks t).exiting.isSome
  task : s'.TaskOk (s'.tasks t)
  locks : s'.LocksOk
  exit : ∀ x, (s'.tasks t).exiting = some x →
    s'.ExitOk t x ∧ ((s.tasks t).exiting = some x ∨ (s.records x).finished = false)
  joins : ∀ e ∈ s'.joins, e ∈ s.joins ∨ (s'.records e.2.1).finished = true
  owed : ∀ x w, (s.tasks t).exiting = some x → w ∈ s.owed t →
    (w, x) ∈ s'.putBack ∨ (s'.tasks t).exiting = some x ∧ w ∈ s'.owed t
  done : ∀ x, s.tasks t = .exitDone x → (s'.tasks t).exiting = some x ∧
    ((s.records x).insertFail = false → ∀ w ∈ (s.records x).waits, w ∈ s'.owed t)
  blocked : ∀ w x, (w, x) ∈ s'.blocked → (w, x) ∈ s.blocked ∨
    ((s'.records x).created = true ∧ (s'.records x).insertFail = false) ∧
      w ∈ (s'.records x).waits

/-- The exits of the other threads stay in order. -/
theorem Inv.exits_keep (hI : s.Inv) (hG : s.Guar s' t) (hu : u ≠ t)
    (hx : (s.tasks u).exiting = some x) : s'.ExitOk u x := by
  have h := hI.exits u x hx
  constructor
  case finished => exact hG.finished_mono h.finished
  case one =>
    rw [hI.owed_eq hG hu]
    exact h.one
  case owed =>
    rw [hI.owed_eq hG hu]
    exact fun w hw => hI.owed_keep hG hu hx (h.owed w hw)

/-- A mythread that was run in place of its parent still has it as a waiter, or is finished. -/
theorem Inv.failed_keep (hI : s.Inv) (hG : s.Guar s' t) (hdone : s.tasks t = .exitDone x →
    (s'.records x).finished = true) (h : (s'.records x).insertFail = true) :
    (s'.records x).finished = true ∨ ∃ m, m ∈ (s'.records x).waits := by
  by_cases hd : s.tasks t = .exitDone x
  · exact .inl (hdone hd)
  · have hold : (s.records x).finished = true ∨ ∃ m, m ∈ (s.records x).waits := by
      rcases (hG.records x).insertFail with heq | ⟨-, m, hk⟩
      · exact hI.failed x (heq.symm.trans h)
      · have htask := hI.tasks t
        rw [hk] at htask
        exact .inr ⟨m, htask.1⟩
    rcases hold with hfin | ⟨m, hm⟩
    · exact .inl (hG.finished_mono hfin)
    · exact .inr ⟨m, hI.waits_mono hG hd hm⟩

/-- A pair that is put back was blocked, and is put back for the first time. -/
theorem Inv.putBack_keep (hI : s.Inv) (hG : s.Guar s' t) :
    s'.putBack.Nodup ∧ ∀ w x, (w, x) ∈ s'.putBack →
      (w, x) ∈ s'.blocked ∧ (s'.records x).finished = true := by
  have hold : ∀ w x, (w, x) ∈ s.putBack →
      (w, x) ∈ s'.blocked ∧ (s'.records x).finished = true := fun w x hmem =>
    ⟨hG.blocked_mono (hI.putBack w x hmem).1, hG.finished_mono (hI.putBack w x hmem).2⟩
  rcases hG.putBack with heq | ⟨w, x, hx, hw, heq⟩
  · rw [heq]
    exact ⟨hI.putNodup, hold⟩
  · have hexit := hI.exits t x hx
    obtain ⟨hblocked, hnot⟩ := hexit.owed w hw
    rw [heq]
    constructor
    · rw [← List.concat_eq_append]
      exact hI.putNodup.concat hnot
    · intro w' x' hmem
      rcases List.mem_append.mp hmem with hmem | hnew
      · exact hold w' x' hmem
      · cases List.mem_singleton.mp hnew
        exact ⟨hG.blocked_mono hblocked, hG.finished_mono hexit.finished⟩

/-- Nobody blocks twice in a join with the same mythread. -/
theorem Inv.blockedNodup_keep (hI : s.Inv) (hG : s.Guar s' t) : s'.blocked.Nodup := by
  rcases hG.blocked with heq | ⟨m, x, hk, heq⟩
  · rw [heq]
    exact hI.blockedNodup
  · have htask := hI.tasks t
    rw [hk] at htask
    have hmine : m ∈ s.hands t := mem_hands_body (by rw [hk]; rfl)
    rw [heq, ← List.concat_eq_append]
    refine hI.blockedNodup.concat fun hmem => ?_
    -- `x` is not finished, and `m` does not wait for it
    have hfin : ∀ {b : Bool}, (s.records x).finished = b → b = false := by
      rintro _ rfl
      exact htask.2
    rcases hI.blocked m x hmem with hput | hwaits | ⟨u, hu, -⟩
    · exact absurd (hfin (hI.putBack m x hput).2) nofun
    · exact hI.not_waits hmine hwaits
    · exact absurd (hfin (hI.exits u x hu).finished) nofun

/-- Who was blocked waits, is in the hands of the exit, or was put back. -/
theorem Inv.blocked_keep (hI : s.Inv) (hG : s.Guar s' t) (h : s.Does s' t)
    (hwx : (w, x) ∈ s.blocked) : (w, x) ∈ s'.putBack ∨ w ∈ (s'.records x).waits ∨
      ∃ u, (s'.tasks u).exiting = some x ∧ w ∈ s'.owed u := by
  rcases hI.blocked w x hwx with hput | hwaits | ⟨u, hu, hw⟩
  · left
    rcases hG.putBack with heq | ⟨_, _, -, -, heq⟩
    · rw [heq]
      exact hput
    · rw [heq]
      exact List.mem_append_left _ hput
  · right
    by_cases hd : s.tasks t = .exitDone x
    · obtain ⟨hexit, howed⟩ := h.done x hd
      exact .inr ⟨t, hexit, howed (hI.unfailed w x hwx).2 w hwaits⟩
    · exact .inl (hI.waits_mono hG hd hwaits)
  · by_cases hut : u = t
    · subst hut
      exact (h.owed x w hu hw).imp_right fun hnew => .inr ⟨u, hnew⟩
    · right
      right
      refine ⟨u, ?_, ?_⟩
      · rw [hG.tasks u hut]
        exact hu
      · rw [hI.owed_eq hG hut]
        exact hw

/-- A step of `t` keeps the invariant. -/
theorem Inv.of_guar (hI : s.Inv) (hG : s.Guar s' t) (h : s.Does s' t) : s'.Inv := by
  have hborn : ∀ i, ∀ m ∈ s.content i, (s'.records m).created = true := fun i m hm =>
    (hG.records m).created (hI.born i m hm)
  constructor
  case apart => exact h.apart
  case born =>
    intro i m hm
    cases i with
    | hand u =>
      by_cases hu : u = t
      · subst hu
        exact h.born m hm
      · have hm : m ∈ s'.hands u := hm
        rw [hI.hands_keep hG hu] at hm
        exact hborn (.hand u) m hm
    | buffer => exact (h.buffered m hm).elim (hborn .buffer m) fun hnew => hnew.2
    | waits x => exact (h.waits x m hm).elim (hborn (.waits x) m) fun hnew => hnew.2
  case records => exact h.records
  case ready =>
    intro u m hm
    by_cases hu : u = t
    · subst hu
      exact h.ready m hm
    · rw [hI.ready_keep hG hu] at hm
      exact hI.ready_other hG (i := .hand u) (mem_hands_ready hm) (by simpa using hu) nofun
        (hI.ready u m hm)
  case buffered =>
    intro m hm
    rcases h.buffered m hm with hold | hnew
    · exact hI.ready_other hG (i := .buffer) hold nofun nofun (hI.buffered m hold)
    · exact hnew.1
  case waits =>
    intro x m hm
    rcases h.waits x m hm with hold | hnew
    · exact hI.waiting_keep hG hold
    · exact hnew.1
  case body =>
    intro u m hm
    by_cases hu : u = t
    · subst hu
      exact h.body m hm
    · rw [hG.tasks u hu] at hm ⊢
      rw [hG.finished_eq fun ht => hu (hI.hand_unique (mem_hands_body hm) ht)]
      exact hI.body u m hm
  case tasks =>
    intro u
    by_cases hu : u = t
    · subst hu
      exact h.task
    · exact hI.taskOk_keep hG hu
  case locks => exact h.locks
  case exits =>
    intro u x hx
    by_cases hu : u = t
    · subst hu
      exact (h.exit x hx).1
    · rw [hG.tasks u hu] at hx
      exact hI.exits_keep hG hu hx
  case exitOnce =>
    -- a thread that comes to the exit of `x` finds it not finished
    have hkey : ∀ u x, u ≠ t → (s'.tasks t).exiting = some x → (s'.tasks u).exiting ≠ some x := by
      intro u x hu ht hux
      rw [hG.tasks u hu] at hux
      rcases (h.exit x ht).2 with hold | hnot
      · exact hu (hI.exitOnce u t x hux hold)
      · rw [(hI.exits u x hux).finished] at hnot
        cases hnot
    intro u v x hu hv
    by_cases hut : u = t
    · subst hut
      by_contra hne
      exact hkey v x (Ne.symm hne) hu hv
    · by_cases hvt : v = t
      · subst hvt
        exact absurd hu (hkey u x hut hv)
      · rw [hG.tasks u hut] at hu
        rw [hG.tasks v hvt] at hv
        exact hI.exitOnce u v x hu hv
  case failed =>
    exact fun x hx => hI.failed_keep hG (fun hd => ((h.exit x (h.done x hd).1).1).finished) hx
  case joins =>
    intro e he
    rcases h.joins e he with hold | hnew
    · exact hG.finished_mono (hI.joins e hold)
    · exact hnew
  case putNodup => exact (hI.putBack_keep hG).1
  case putBack => exact (hI.putBack_keep hG).2
  case blockedNodup => exact hI.blockedNodup_keep hG
  case unfailed =>
    intro w x hwx
    rcases h.blocked w x hwx with hold | hnew
    · obtain ⟨hcreated, hfail⟩ := hI.unfailed w x hold
      refine ⟨(hG.records x).created hcreated, ?_⟩
      rcases (hG.records x).insertFail with heq | ⟨-, m, hk⟩
      · exact heq.trans hfail
      · have htask := hI.tasks t
        rw [hk] at htask
        exact absurd hold (htask.2 w)
    · exact hnew.1
  case blocked =>
    intro w x hwx
    rcases h.blocked w x hwx with hold | hnew
    · exact hI.blocked_keep hG h hold
    · exact .inr (.inl hnew.2)

end

end Pool

end

end Stacklets.Mythreads

import Stacklets.Mythreads.Lives

/-!
# `Stacklets.Mythreads.LifeSteps`: the steps of a fork-join program keep the invariant

Most steps of a thread leave the mythreads where they are (`Inv.keep`). The others are:

* a step of `sbuf_insert` or `sbuf_remove`, between the hands of the thread and the buffer
  (`Inv.call`);
* `mythread_resume` (`Inv.resume`), where the thread goes on with a mythread that it has;
* `pushTL(&x->waiters, m)` (`Inv.push`), from the hands to the waiters;
* `setDone` (`Inv.finish`), from the waiters to the hands;
* `mythread_create` (`Inv.create`), where a new mythread comes to the hands.
-/

set_option autoImplicit false

namespace Stacklets.Mythreads

open Function (update update_self update_of_ne forall_update_iff)
open Lib

section
variable {P M : Type*} [DecidableEq P] [DecidableEq M] {s s' : Pool P M} {t : Option P} {p : P}
  {k : Task M} {c : Call (Item M)} {m x : M} {r : Record P M}

/-! ### Writes to one record -/

/-- The fields that `Record.Changes` is about. -/
def Record.core (r : Record P M) :
    (Bool × Option M × Bool × Bool) × List M × Bool × Bool × Context M × Bool :=
  ((r.created, r.parent, r.joinCalled, r.finished), r.waiters, r.detached, r.insertFail,
    r.context, r.resumable)

omit [DecidableEq P] [DecidableEq M] in
/-- The other fields can be written at will. -/
theorem Record.Changes.of_core {r r' : Record P M} {l : List M} (h : r'.core = r.core) :
    r.Changes k l x r' := by
  unfold Record.core at h
  simp only [Prod.mk.injEq] at h
  obtain ⟨⟨hcreated, hparent, hcalled, hfin⟩, hwaiters, hdetached, hfail, hcontext, hres⟩ := h
  exact ⟨fun h => hcreated.trans h, fun _ => hparent, fun h => hcalled.trans h, .inl hfin,
    .inl hwaiters, .inl hdetached, .inl hfail, fun _ => .inl ⟨hcontext, hres⟩⟩

omit [DecidableEq P] in
/-- A write that keeps the core of its record keeps them all. -/
theorem core_update (h : r.core = (s.records x).core) (y : M) :
    (update s.records x r y).core = (s.records y).core :=
  (forall_update_iff s.records fun y r => r.core = (s.records y).core).mpr
    ⟨h, fun _ _ => rfl⟩ y

omit [DecidableEq P] in
/-- A write that keeps the lock of its record keeps them all. -/
theorem lock_update (h : r.lock = (s.records x).lock) (y : M) :
    (update s.records x r y).lock = (s.records y).lock :=
  (forall_update_iff s.records fun y r => r.lock = (s.records y).lock).mpr
    ⟨h, fun _ _ => rfl⟩ y

omit [DecidableEq P] in
/-- A write to one record. -/
theorem changes_update {l : List M} (h : (s.records x).Changes k l x r) (y : M) :
    (s.records y).Changes k l y (update s.records x r y) :=
  (forall_update_iff s.records fun y r => (s.records y).Changes k l y r).mpr
    ⟨h, fun _ _ => .refl ..⟩ y

omit [DecidableEq P] in
/-- A write that keeps its record in order keeps them all. -/
theorem ok_update (h : ∀ y, (s.records y).Ok) (hx : r.Ok) (y : M) :
    (update s.records x r y).Ok :=
  (forall_update_iff s.records fun _ r => r.Ok).mpr ⟨hx, fun y _ => h y⟩ y

omit [DecidableEq P] [DecidableEq M] in
/-- Whether a created record is in order depends on few of its fields. -/
theorem Record.Ok.of_core {r r' : Record P M} (h : r.Ok) (hcreated : r.created = true)
    (hcore : r'.core = r.core) (hdone : r'.done = r.done) (hstarts : r'.starts = r.starts) :
    r'.Ok := by
  unfold Record.core at hcore
  simp only [Prod.mk.injEq] at hcore
  obtain ⟨⟨hcreated', -, hcalled, hfin⟩, -, hdetached, -, hcontext, hres⟩ := hcore
  constructor
  case blank =>
    intro hc
    rw [hcreated', hcreated] at hc
    cases hc
  case done =>
    rw [hdone, hfin]
    exact h.done
  case detached =>
    rw [hdone, hfin, hdetached]
    exact h.detached
  case called =>
    rw [hdetached, hcalled]
    exact h.called
  case starts =>
    rw [hstarts]
    exact h.starts
  case fresh =>
    rw [hres, hcontext, hstarts]
    exact h.fresh

/-- The tasks whose step moves a mythread to the waiters of another one, or from there. -/
def Task.moves : Task M → Bool
  | .createPush _ _ | .joinPush _ _ | .exitDone _ => true
  | _ => false

/-! ### Locks -/

namespace Pool

omit [DecidableEq M] in
/-- A step that takes no lock and gives none back. -/
theorem LocksOk.keep (h : s.LocksOk) (htasks : s'.tasks = update s.tasks t k)
    (hk : k.locks = (s.tasks t).locks)
    (hlock : ∀ x, (s'.records x).lock = (s.records x).lock) : s'.LocksOk := by
  intro u x
  rw [htasks, hlock]
  by_cases hu : u = t
  · subst hu
    rw [update_self, hk]
    exact h u x
  · rw [update_of_ne hu]
    exact h u x

/-- A pthread takes a free lock. -/
theorem LocksOk.acquire (h : s.LocksOk)
    (htasks : s'.tasks = update s.tasks (some p) k)
    (hold : (s.tasks (some p)).locks = none) (hk : k.locks = some x)
    (hfree : (s.records x).lock = none)
    (hrecords : s'.records = update s.records x { s.records x with lock := some p }) :
    s'.LocksOk := by
  intro u y
  rw [htasks, hrecords]
  by_cases hy : y = x
  · subst hy
    rw [update_self]
    by_cases hu : u = some p
    · subst hu
      rw [update_self, hk]
      exact ⟨fun _ => rfl, fun _ => rfl⟩
    · rw [update_of_ne hu, h u y, hfree]
      exact ⟨by simp, fun heq => absurd (Option.some.inj heq).symm hu⟩
  · rw [update_of_ne hy]
    by_cases hu : u = some p
    · subst hu
      rw [update_self, hk, ← h (some p) y, hold]
      exact ⟨fun heq => absurd (Option.some.inj heq).symm hy, by simp⟩
    · rw [update_of_ne hu]
      exact h u y

/-- A thread gives its lock back. -/
theorem LocksOk.release (h : s.LocksOk) (htasks : s'.tasks = update s.tasks t k)
    (hold : (s.tasks t).locks = some x) (hk : k.locks = none)
    (hrecords : s'.records = update s.records x { s.records x with lock := none }) :
    s'.LocksOk := by
  have hmine := (h t x).mp hold
  intro u y
  rw [htasks, hrecords]
  by_cases hu : u = t
  · subst hu
    rw [update_self, hk]
    refine ⟨by simp, fun heq => ?_⟩
    by_cases hy : y = x
    · rw [hy, update_self] at heq
      cases heq
    · rw [update_of_ne hy, ← h u y, hold] at heq
      exact absurd (Option.some.inj heq).symm hy
  · rw [update_of_ne hu, h u y]
    by_cases hy : y = x
    · subst hy
      rw [update_self, hmine]
      exact ⟨fun heq => absurd (Option.some.inj heq).symm hu, by simp⟩
    · rw [update_of_ne hy]

/-! ### Steps that leave the mythreads where they are -/

/-- What becomes of the mythreads that the thread `t` has to put back, when it turns to the
task `k`. -/
inductive Pays (s s' : Pool P M) (t : Option P) (k : Task M) : Prop
  | keeps (exiting : k.exiting = (s.tasks t).exiting) (owed : s'.owed t = s.owed t)
      (putBack : s'.putBack = s.putBack)
  | leaves (exiting : k.exiting = none) (body : k.body = none) (owed : s.owed t = [])
      (putBack : s'.putBack = s.putBack)
  | pays (x w : M) (exiting : k.exiting = (s.tasks t).exiting)
      (old : (s.tasks t).exiting = some x) (owed : s.owed t = [w]) (rest : s'.owed t = [])
      (putBack : s'.putBack = s.putBack ++ [(w, x)])

omit [DecidableEq P] [DecidableEq M] in
/-- What a step adds to the mythreads that were put back. -/
theorem Pays.putBack (h : Pays s s' t k) : s'.putBack = s.putBack ∨
    ∃ w x, (s.tasks t).exiting = some x ∧ w ∈ s.owed t ∧ s'.putBack = s.putBack ++ [(w, x)] := by
  cases h with
  | keeps _ _ hput => exact .inl hput
  | leaves _ _ _ hput => exact .inl hput
  | pays x w _ hx howed _ hput => exact .inr ⟨w, x, hx, by rw [howed]; exact .head _, hput⟩

omit [DecidableEq M] in
/-- The guarantee of a thread that turns to the task `k`. -/
theorem guar_of_turned (hturn : Turned s s' t k c)
    (hchanges : ∀ x, (s.records x).Changes (s.tasks t) (s.ready t) x (s'.records x))
    (hpush : ∀ m x, (s.tasks t).pushing = some (m, x) → k.pushing = some (m, x) ∨
      (s'.records m).resumable = true ∧ ∀ y, (s'.records m).context = .inJoin y → y = x)
    (hflag : ∀ m x, s.tasks t = .createFlag m x → (s'.records x).insertFail = true)
    (hblocked : s'.blocked = s.blocked ∨
      ∃ m x, s.tasks t = .joinPush m x ∧ s'.blocked = s.blocked ++ [(m, x)])
    (hputBack : s'.putBack = s.putBack ∨ ∃ w x, (s.tasks t).exiting = some x ∧ w ∈ s.owed t ∧
      s'.putBack = s.putBack ++ [(w, x)]) : s.Guar s' t where
  tasks u hu := by rw [hturn.tasks, update_of_ne hu]
  calls u hu := by
    rw [hturn.sys]
    exact update_of_ne hu ..
  records := hchanges
  pushing m x h := by
    rw [hturn.tasks, update_self]
    exact hpush m x h
  flag := hflag
  blocked := hblocked
  putBack := hputBack

omit [DecidableEq M] in
/-- A turn of a call does not touch the buffer. -/
theorem buffered_of_turned (hturn : Turned s s' t k c) : s'.buffered = s.buffered := by
  rw [buffered, buffered, hturn.sys]
  rfl

omit [DecidableEq M] in
/-- Only the hands of `t` change, and lists of waiters. -/
theorem Inv.content_keep (hI : s.Inv) (hG : s.Guar s' t) (hturn : Turned s s' t k c)
    {i : Place P M} (hi : i ≠ .hand t)
    (hwaits : ∀ x, i = .waits x → (s'.records x).waits = (s.records x).waits) :
    s'.content i = s.content i := by
  cases i with
  | hand u => exact hI.hands_keep hG fun hu => hi (by rw [hu])
  | buffer => exact buffered_of_turned hturn
  | waits x => exact hwaits x rfl

omit [DecidableEq P] [DecidableEq M] in
/-- Most steps leave the waiters as they are, and finish no mythread. -/
theorem Inv.stay (hI : s.Inv) (hG : s.Guar s' t) (hstay : (s.tasks t).moves = false) :
    (∀ x, (s'.records x).waits = (s.records x).waits) ∧
      (∀ x, (s'.records x).finished = (s.records x).finished) ∧ ∀ x, s.tasks t ≠ .exitDone x := by
  have hne : ∀ {k'}, s.tasks t = k' → k'.moves = false := by
    rintro _ rfl
    exact hstay
  refine ⟨fun x => ?_, fun x => ?_, fun x hx => nomatch hne hx⟩
  · exact hI.waits_keep hG (fun h => nomatch hne h) (fun _ h => nomatch hne h)
      fun _ h => nomatch hne h
  · exact (hG.records x).finished.resolve_right fun h => nomatch hne h.1

omit [DecidableEq M] in
/-- The thread `t` turns to the task `k`, and has the same mythreads in its hands, or fewer. -/
theorem Inv.keep (hI : s.Inv) (hturn : Turned s s' t k c)
    (hchanges : ∀ x, (s.records x).Changes (s.tasks t) (s.ready t) x (s'.records x))
    (hok : ∀ x, (s'.records x).Ok) (hstay : (s.tasks t).moves = false)
    (hpush : ∀ m x, (s.tasks t).pushing = some (m, x) → k.pushing = some (m, x) ∨
      (s'.records m).resumable = true ∧ ∀ y, (s'.records m).context = .inJoin y → y = x)
    (hflag : ∀ m x, s.tasks t = .createFlag m x → (s'.records x).insertFail = true)
    (hcontext : ∀ m ∈ s'.ready t, (s'.records m).context = (s.records m).context ∧
      (s'.records m).resumable = (s.records m).resumable)
    (hready : (s'.ready t).Sublist (s.ready t))
    (hbody : k.body = (s.tasks t).body ∨ k.body = none) (hpays : s.Pays s' t k)
    (hblocked : s'.blocked = s.blocked) (htask : s'.TaskOk k) (hlocks : s'.LocksOk)
    (hjoins : ∀ e ∈ s'.joins, e ∈ s.joins ∨ (s'.records e.2.1).finished = true) : s'.Inv := by
  have hk : s'.tasks t = k := by rw [hturn.tasks, update_self]
  have hG := guar_of_turned hturn hchanges hpush hflag (.inl hblocked) hpays.putBack
  obtain ⟨hwaits, hfin, hne⟩ := hI.stay hG hstay
  have hbuffer := buffered_of_turned hturn
  have hsub : (s'.hands t).Sublist (s.hands t) := by
    rw [hands, hands, hk]
    refine List.Sublist.append ?_ hready
    rcases hbody with heq | heq <;> rw [heq]
    exact List.nil_sublist _
  refine hI.of_guar hG ?_
  constructor
  case apart =>
    exact hI.apart.shrink (i := .hand t) hsub.subperm fun i hi =>
      hI.content_keep hG hturn hi fun x _ => hwaits x
  case born => exact fun m hm => (hchanges m).created (hI.born (.hand t) m (hsub.subset hm))
  case records => exact hok
  case ready =>
    intro m hm
    obtain ⟨hcon, hres⟩ := hcontext m hm
    exact (hI.ready t m (hready.subset hm)).keep hG hcon hres (hfin m)
  case buffered =>
    intro m hm
    rw [hbuffer] at hm
    exact .inl hm
  case waits =>
    intro x m hm
    rw [hwaits] at hm
    exact .inl hm
  case body =>
    intro m hm
    rw [hk] at hm ⊢
    have hold : k.exiting = (s.tasks t).exiting := by
      cases hpays with
      | keeps hex => exact hex
      | leaves _ hnone =>
        rw [hnone] at hm
        cases hm
      | pays _ _ hex => exact hex
    rw [hold, hfin]
    rcases hbody with heq | heq
    · exact hI.body t m (heq.symm.trans hm)
    · rw [heq] at hm
      cases hm
  case task =>
    rw [hk]
    exact htask
  case locks => exact hlocks
  case exit =>
    intro x hx
    rw [hk] at hx
    cases hpays with
    | keeps hex howed hput =>
      rw [hex] at hx
      have h := hI.exits t x hx
      refine ⟨⟨hG.finished_mono h.finished, by rw [howed]; exact h.one, ?_⟩, .inl hx⟩
      intro w hw
      rw [howed] at hw
      rw [Owed, hblocked, hput]
      exact h.owed w hw
    | leaves hnone =>
      rw [hnone] at hx
      cases hx
    | pays y w hex hy howed hrest hput =>
      rw [hex] at hx
      refine ⟨⟨hG.finished_mono (hI.exits t x hx).finished, by rw [hrest]; exact Nat.zero_le _,
        ?_⟩, .inl hx⟩
      rw [hrest]
      simp
  case joins => exact hjoins
  case owed =>
    intro x w hx hw
    cases hpays with
    | keeps hex howed =>
      rw [hk, hex, howed]
      exact .inr ⟨hx, hw⟩
    | leaves _ _ hnil =>
      rw [hnil] at hw
      cases hw
    | pays y v _ hy howed _ hput =>
      -- the only mythread that was left is put back
      rw [howed] at hw
      cases List.mem_singleton.mp hw
      cases hx.symm.trans hy
      left
      rw [hput]
      exact List.mem_append_right _ (List.mem_singleton_self _)
  case done => exact fun x hd => absurd hd (hne x)
  case blocked =>
    intro w x hwx
    rw [hblocked] at hwx
    exact .inl hwx

/-- The same for a step that writes one record. -/
theorem Inv.modify (hI : s.Inv) {k k' : Task M} (hk : s.tasks t = k) (hturn : Turned s s' t k' c)
    (hrecords : s'.records = update s.records x r)
    (hchanges : (s.records x).Changes k (s.ready t) x r) (hok : r.Ok)
    (hlock : r.lock = (s.records x).lock) (hstay : k.moves = false)
    (hpush : ∀ m y, k.pushing = some (m, y) → k'.pushing = some (m, y) ∨
      (s'.records m).resumable = true ∧ ∀ z, (s'.records m).context = .inJoin z → z = y)
    (hflag : ∀ m y, k = .createFlag m y → (s'.records y).insertFail = true)
    (hcontext : x ∈ s'.ready t →
      r.context = (s.records x).context ∧ r.resumable = (s.records x).resumable)
    (hready : ∀ w, (k'.ready c w).Sublist (s.ready t)) (hbody : k'.body = k.body)
    (hexit : k'.exiting = k.exiting) (howed : ∀ w f, k'.owed w f = s.owed t)
    (hlocks : k'.locks = k.locks) (hblocked : s'.blocked = s.blocked)
    (hputBack : s'.putBack = s.putBack) (hjoins : s'.joins = s.joins) (htask : s'.TaskOk k') :
    s'.Inv := by
  subst hk
  have hk' : s'.tasks t = k' := by rw [hturn.tasks, update_self]
  have hcall : s'.sys.calls t = c := by
    rw [hturn.sys]
    exact update_self ..
  refine hI.keep hturn (by rw [hrecords]; exact changes_update hchanges)
    (by rw [hrecords]; exact ok_update hI.records hok) hstay hpush hflag ?_ ?_ (.inl hbody)
    (.keeps hexit ?_ hputBack) hblocked htask
    (hI.locks.keep hturn.tasks hlocks (by rw [hrecords]; exact lock_update hlock)) ?_
  · intro m hm
    by_cases hmx : m = x
    · subst hmx
      rw [hrecords, update_self]
      exact hcontext hm
    · rw [hrecords, update_of_ne hmx]
      exact ⟨rfl, rfl⟩
  · rw [Pool.ready, hk', hcall]
    exact hready _
  · rw [Pool.owed, hk']
    exact howed _ _
  · intro e he
    rw [hjoins] at he
    exact .inl he

omit [DecidableEq P] [DecidableEq M] in
/-- What a thread knows is about the fields in `Record.core`. -/
theorem TaskOk.of_core (hcore : ∀ x, (s'.records x).core = (s.records x).core)
    (hblocked : s'.blocked = s.blocked) (h : s.TaskOk k) : s'.TaskOk k := by
  have hparent : ∀ x, (s'.records x).parent = (s.records x).parent :=
    fun x => congrArg (fun f => f.1.2.1) (hcore x)
  have hcalled : ∀ x, (s'.records x).joinCalled = (s.records x).joinCalled :=
    fun x => congrArg (fun f => f.1.2.2.1) (hcore x)
  have hfin : ∀ x, (s'.records x).finished = (s.records x).finished :=
    fun x => congrArg (fun f => f.1.2.2.2) (hcore x)
  have hwaits : ∀ x, (s'.records x).waits = (s.records x).waits := by
    intro x
    rw [Record.waits, Record.waits, hfin]
    exact congrArg (fun l => if (s.records x).finished then [] else l)
      (congrArg (fun f => f.2.1) (hcore x))
  have hdetached : ∀ x, (s'.records x).detached = (s.records x).detached :=
    fun x => congrArg (fun f => f.2.2.1) (hcore x)
  cases k <;>
    simp only [TaskOk, hparent, hcalled, hfin, hwaits, hdetached, hblocked] at h ⊢ <;> exact h

omit [DecidableEq M] in
/-- The same for a step that writes none of the fields in `Record.core`. -/
theorem Inv.minor (hI : s.Inv) {k k' : Task M} (hk : s.tasks t = k) (hturn : Turned s s' t k' c)
    (hcore : ∀ x, (s'.records x).core = (s.records x).core) (hok : ∀ x, (s'.records x).Ok)
    (hplain : k.moves = false ∧ k.pushing = none) (hbody : k'.body = k.body ∨ k'.body = none)
    (hready : (k'.ready c fun m => (s.records m).waiters).Sublist
      (k.ready (s.sys.calls t) fun m => (s.records m).waiters))
    (hexit : k'.exiting = k.exiting ∧
        (k'.owed (fun m => (s.records m).waiters) fun m => (s.records m).insertFail) =
          k.owed (fun m => (s.records m).waiters) (fun m => (s.records m).insertFail) ∨
      k'.exiting = none ∧ k'.body = none ∧
        (k.owed (fun m => (s.records m).waiters) fun m => (s.records m).insertFail) = [])
    (hblocked : s'.blocked = s.blocked) (hputBack : s'.putBack = s.putBack)
    (htask : s.TaskOk k') (hlocks : s'.LocksOk)
    (hjoins : ∀ e ∈ s'.joins, e ∈ s.joins ∨ (s.records e.2.1).finished = true) : s'.Inv := by
  subst hk
  have hk' : s'.tasks t = k' := by rw [hturn.tasks, update_self]
  have hcall : s'.sys.calls t = c := by
    rw [hturn.sys]
    exact update_self ..
  -- the parts of `core`, one by one
  have hwaiters : (fun m => (s'.records m).waiters) = fun m => (s.records m).waiters :=
    funext fun m => congrArg (fun f => f.2.1) (hcore m)
  have hfail : (fun m => (s'.records m).insertFail) = fun m => (s.records m).insertFail :=
    funext fun m => congrArg (fun f => f.2.2.2.1) (hcore m)
  have hflag : ∀ m x, s.tasks t = .createFlag m x → (s'.records x).insertFail = true := by
    intro m x h
    have hpush := hplain.2
    rw [h] at hpush
    cases hpush
  refine hI.keep hturn (fun x => .of_core (hcore x)) hok hplain.1
    (fun m x h => by rw [hplain.2] at h; cases h) hflag (fun m _ => ?_) ?_ hbody ?_ hblocked
    (htask.of_core hcore hblocked) hlocks fun e he => ?_
  · exact ⟨congrArg (fun f => f.2.2.2.2.1) (hcore m), congrArg (fun f => f.2.2.2.2.2) (hcore m)⟩
  · rw [Pool.ready, hk', hcall, hwaiters]
    exact hready
  · rcases hexit with ⟨hex, howed⟩ | ⟨hnone, hbody, hnil⟩
    · refine .keeps hex ?_ hputBack
      rw [Pool.owed, hk', hwaiters, hfail]
      exact howed
    · exact .leaves hnone hbody hnil hputBack
  · exact (hjoins e he).imp_right fun h =>
      (congrArg (fun f => f.1.2.2.2) (hcore e.2.1)).trans h

/-- The task `k'` comes behind `k` in the same code: nothing changes hands. -/
structure Follows (s : Pool P M) (t : Option P) (k k' : Task M) (c : Call (Item M)) : Prop where
  old : s.tasks t = k
  plain : k.moves = false ∧ k.pushing = none
  body : k'.body = k.body
  ready : (k'.ready c fun m => (s.records m).waiters) =
    k.ready (s.sys.calls t) fun m => (s.records m).waiters
  exiting : k'.exiting = k.exiting
  owed : (k'.owed (fun m => (s.records m).waiters) fun m => (s.records m).insertFail) =
    k.owed (fun m => (s.records m).waiters) fun m => (s.records m).insertFail

omit [DecidableEq M] in
/-- A step that writes no record. -/
theorem Inv.turn (hI : s.Inv) {k' : Task M} (hturn : Turned s s' t k' c)
    (h : s.Follows t k k' c) (hrecords : s'.records = s.records) (hlocks : k'.locks = k.locks)
    (hblocked : s'.blocked = s.blocked) (hputBack : s'.putBack = s.putBack)
    (hjoins : s'.joins = s.joins) (htask : s.TaskOk k') : s'.Inv := by
  refine hI.minor h.old hturn (fun x => by rw [hrecords]) (by rw [hrecords]; exact hI.records)
    h.plain (.inl h.body) ?_ (.inl ⟨h.exiting, h.owed⟩) hblocked hputBack htask ?_ ?_
  · rw [h.ready]
  · exact hI.locks.keep hturn.tasks (by rw [h.old]; exact hlocks) fun x => by rw [hrecords]
  · intro e he
    rw [hjoins] at he
    exact .inl he

/-- A step that writes some other field of one record. -/
theorem Inv.write (hI : s.Inv) {k' : Task M} (hturn : Turned s s' t k' c)
    (h : s.Follows t k k' c) (hrecords : s'.records = update s.records x r)
    (hcreated : (s.records x).created = true) (hcore : r.core = (s.records x).core)
    (hdone : r.done = (s.records x).done) (hstarts : r.starts = (s.records x).starts)
    (hlocks : s'.LocksOk) (hblocked : s'.blocked = s.blocked) (hputBack : s'.putBack = s.putBack)
    (hjoins : ∀ e ∈ s'.joins, e ∈ s.joins ∨ (s.records e.2.1).finished = true)
    (htask : s.TaskOk k') : s'.Inv := by
  refine hI.minor h.old hturn (by rw [hrecords]; exact core_update hcore) ?_ h.plain
    (.inl h.body) ?_ (.inl ⟨h.exiting, h.owed⟩) hblocked hputBack htask hlocks hjoins
  · rw [hrecords]
    exact ok_update hI.records ((hI.records x).of_core hcreated hcore hdone hstarts)
  · rw [h.ready]

/-- `pthread_mutex_lock`. -/
theorem Inv.lock (hI : s.Inv) {k' : Task M} (hs : s.lock p x k' = some s')
    (h : s.Follows (some p) k k' (s.sys.calls (some p)))
    (hcreated : (s.records x).created = true) (hold : k.locks = none) (hnew : k'.locks = some x)
    (htask : s.TaskOk k') : s'.Inv := by
  obtain ⟨hfree, heq⟩ := Option.ite_none_right_eq_some.mp hs
  cases heq
  refine hI.write (.keep rfl rfl rfl) h rfl hcreated rfl rfl rfl ?_ rfl rfl (fun e he => .inl he)
    htask
  exact hI.locks.acquire rfl (by rw [h.old]; exact hold) hnew hfree rfl

/-- `pthread_mutex_unlock`. The thread may go on with a call. -/
theorem Inv.unlock (hI : s.Inv) {k' : Task M} (hturn : Turned s s' t k' c)
    (h : s.Follows t k k' c) (hrecords : s'.records = (s.unlock x).records)
    (hold : k.locks = some x) (hnew : k'.locks = none)
    (hblocked : s'.blocked = s.blocked) (hputBack : s'.putBack = s.putBack)
    (hjoins : ∀ e ∈ s'.joins, e ∈ s.joins ∨ (s.records e.2.1).finished = true)
    (htask : s.TaskOk k') : s'.Inv := by
  have hold : (s.tasks t).locks = some x := by rw [h.old]; exact hold
  have hcreated : (s.records x).created = true := by
    have hmine := (hI.locks t x).mp hold
    cases hc : (s.records x).created with
    | true => rfl
    | false =>
      rw [(hI.records x).blank hc] at hmine
      cases hmine
  exact hI.write hturn h hrecords hcreated rfl rfl rfl
    (hI.locks.release hturn.tasks hold hnew hrecords) hblocked hputBack hjoins htask

/-! ### `mythread_resume` -/

omit [DecidableEq P] in
/-- A record that is resumed is in order. -/
theorem ok_resumed (h : r.Ok) (hcreated : r.created = true) (hres : r.resumable = true) :
    r.resumed.Ok where
  blank hc := by
    rw [show r.resumed.created = r.created from rfl, hcreated] at hc
    cases hc
  done := h.done
  detached := h.detached
  called := h.called
  starts := by
    show (if r.context = .fresh then r.starts + 1 else r.starts) ≤ 1
    split
    · next hfresh => rw [h.fresh hres hfresh]
    · exact h.starts
  fresh hres' := nomatch hres'

/-- A pthread goes on with a mythread that it has. -/
theorem Inv.resume (hI : s.Inv) (hm : m ∈ s.ready (some p))
    (hturn : Turned s s' (some p) ((s.records m).context.task m) .idle)
    (hrecords : s'.records = update s.records m (s.records m).resumed)
    (hstay : (s.tasks (some p)).moves = false) (hpush : (s.tasks (some p)).pushing = none)
    (hlocks : (s.tasks (some p)).locks = none) (hblocked : s'.blocked = s.blocked)
    (hputBack : s'.putBack = s.putBack ∨ ∃ w x, (s.tasks (some p)).exiting = some x ∧
      w ∈ s.owed (some p) ∧ s'.putBack = s.putBack ++ [(w, x)])
    (howed : ∀ x w, (s.tasks (some p)).exiting = some x → w ∈ s.owed (some p) →
      (w, x) ∈ s'.putBack) (hjoins : s'.joins = s.joins) : s'.Inv := by
  have hk : s'.tasks (some p) = (s.records m).context.task m := by
    rw [hturn.tasks, update_self]
  have hready := hI.ready (some p) m hm
  have hcreated := hI.born (.hand (some p)) m (mem_hands_ready hm)
  have hchanges : ∀ x, (s.records x).Changes (s.tasks (some p)) (s.ready (some p)) x
      (s'.records x) := by
    rw [hrecords]
    exact changes_update ⟨id, fun _ => rfl, id, .inl rfl, .inl rfl, .inl rfl, .inl rfl,
      fun _ => .inr (.inl hm)⟩
  have hflag : ∀ m x, s.tasks (some p) = .createFlag m x → (s'.records x).insertFail = true := by
    intro v x hv
    rw [hv] at hpush
    cases hpush
  have hG := guar_of_turned hturn hchanges (fun v x hv => by rw [hpush] at hv; cases hv) hflag
    (.inl hblocked) hputBack
  obtain ⟨hwaits, hfin, hne⟩ := hI.stay hG hstay
  -- the task is one of the body of `m`, and there is nothing else in the hands
  obtain ⟨hbody, hexit, hnone, hrest⟩ :
      ((s.records m).context.task m).body = some m ∧
        ((s.records m).context.task m).exiting = none ∧
        ((s.records m).context.task m).locks = none ∧
        ∀ c w, ((s.records m).context.task m).ready c w = [] := by
    cases (s.records m).context <;> exact ⟨rfl, rfl, rfl, fun _ _ => rfl⟩
  have hnil : s'.ready (some p) = [] := by rw [Pool.ready, hk, hrest]
  have hhands : s'.hands (some p) = [m] := by rw [hands, hnil, hk, hbody]; rfl
  refine hI.of_guar hG ?_
  constructor
  case apart =>
    refine hI.apart.shrink (i := .hand (some p)) ?_ ?_
    · show (s'.hands (some p)).Subperm (s.hands (some p))
      rw [hhands]
      exact List.singleton_subperm_iff.mpr (mem_hands_ready hm)
    · exact fun i hi => hI.content_keep hG hturn hi fun x _ => hwaits x
  case born =>
    intro v hv
    rw [hhands] at hv
    cases List.mem_singleton.mp hv
    exact (hchanges m).created hcreated
  case records =>
    rw [hrecords]
    exact ok_update hI.records (ok_resumed (hI.records m) hcreated hready.resumable)
  case ready =>
    rw [hnil]
    simp
  case buffered =>
    intro v hv
    rw [buffered_of_turned hturn] at hv
    exact .inl hv
  case waits =>
    intro x v hv
    rw [hwaits] at hv
    exact .inl hv
  case body =>
    intro v hv
    rw [hk, hbody] at hv
    cases hv
    rw [hk, hexit, hfin]
    exact hready.alive
  case task =>
    rw [hk]
    cases hcon : (s.records m).context with
    | fresh | inCreate => trivial
    | inJoin y => exact (hfin y).trans (hready.joined y hcon)
  case locks =>
    refine hI.locks.keep hturn.tasks (hnone.trans hlocks.symm) ?_
    rw [hrecords]
    exact lock_update rfl
  case exit =>
    intro x hx
    rw [hk, hexit] at hx
    cases hx
  case joins =>
    intro e he
    rw [hjoins] at he
    exact .inl he
  case owed => exact fun x w hx hw => .inl (howed x w hx hw)
  case done => exact fun x hd => absurd hd (hne x)
  case blocked =>
    intro w x hwx
    rw [hblocked] at hwx
    exact .inl hwx

/-! ### `pushTL` -/

omit [DecidableEq P] [DecidableEq M] in
/-- A step of a thread that is in no exit, neither before it nor behind it, and that leaves the
buffer alone. -/
theorem Does.of_quiet (hbuffer : s'.buffered = s.buffered) (hjoins : s'.joins = s.joins)
    (hold : (s.tasks t).exiting = none) (hnew : (s'.tasks t).exiting = none)
    (hdone : ∀ x, s.tasks t ≠ .exitDone x) (apart : Apart s'.content)
    (born : ∀ m ∈ s'.hands t, (s'.records m).created = true) (records : ∀ m, (s'.records m).Ok)
    (ready : ∀ m ∈ s'.ready t, s'.Ready m)
    (waits : ∀ x, ∀ m ∈ (s'.records x).waits, m ∈ (s.records x).waits ∨
      s'.Waiting m x ∧ (s'.records m).created = true)
    (body : ∀ m, (s'.tasks t).body = some m → (s'.records m).finished = false)
    (task : s'.TaskOk (s'.tasks t)) (locks : s'.LocksOk)
    (blocked : ∀ w x, (w, x) ∈ s'.blocked → (w, x) ∈ s.blocked ∨
      ((s'.records x).created = true ∧ (s'.records x).insertFail = false) ∧
        w ∈ (s'.records x).waits) : s.Does s' t where
  apart := apart
  born := born
  records := records
  ready := ready
  buffered m hm := .inl (hbuffer ▸ hm)
  waits := waits
  body m hm := by
    rw [hnew]
    exact body m hm
  task := task
  locks := locks
  exit x hx := by
    rw [hnew] at hx
    cases hx
  joins e he := .inl (hjoins ▸ he)
  owed x w hx := by
    rw [hold] at hx
    cases hx
  done x hd := absurd hd (hdone x)
  blocked := blocked

/-- The mythread `m` goes from the hands of `t` to the waiters of `x`. -/
theorem Inv.push (hI : s.Inv) (hold : s.tasks t = .createPush m x ∨ s.tasks t = .joinPush m x)
    (hturn : Turned s s' t k c) (hpush : k.pushing = some (m, x)) (hbody : k.body = none)
    (hexit : k.exiting = none) (hlocks : k.locks = (s.tasks t).locks)
    (hready : s'.ready t = s.ready t)
    (hrecords : s'.records = update s.records x
      { s.records x with waiters := m :: (s.records x).waiters })
    (hparent : (s.records x).parent = some m) (hfin : (s.records x).finished = false)
    (hblocked : s'.blocked = s.blocked ∧ k = .createFlag m x ∨
      s.tasks t = .joinPush m x ∧ s'.blocked = s.blocked ++ [(m, x)] ∧
        (s.records x).insertFail = false)
    (hputBack : s'.putBack = s.putBack) (hjoins : s'.joins = s.joins)
    (htask : m ∈ (s'.records x).waits → s'.TaskOk k) : s'.Inv := by
  have hk : s'.tasks t = k := by rw [hturn.tasks, update_self]
  obtain ⟨hold_body, hold_exit, hold_push, hold_flag, hold_done⟩ :
      (s.tasks t).body = some m ∧ (s.tasks t).exiting = none ∧ (s.tasks t).pushing = none ∧
        (∀ m x, s.tasks t ≠ .createFlag m x) ∧ ∀ x, s.tasks t ≠ .exitDone x := by
    rcases hold with hk₀ | hk₀ <;> rw [hk₀] <;> exact ⟨rfl, rfl, rfl, by simp, by simp⟩
  have hmine : m ∈ s.hands t := mem_hands_body hold_body
  have hchanges : ∀ y, (s.records y).Changes (s.tasks t) (s.ready t) y (s'.records y) := by
    rw [hrecords]
    exact changes_update ⟨id, fun _ => rfl, id, .inl rfl, .inr (.inr (.inr ⟨m, hold, rfl⟩)),
      .inl rfl, .inl rfl, fun _ => .inl ⟨rfl, rfl⟩⟩
  have hG := guar_of_turned hturn hchanges (fun v y hv => by rw [hold_push] at hv; cases hv)
    (fun v y hv => absurd hv (hold_flag v y))
    (hblocked.imp And.left fun h => ⟨m, x, h.1, h.2.1⟩) (.inl hputBack)
  have hself : s'.records x = { s.records x with waiters := m :: (s.records x).waiters } := by
    rw [hrecords, update_self]
  have hother : ∀ y, y ≠ x → s'.records y = s.records y := fun y hy => by
    rw [hrecords, update_of_ne hy]
  have hwaits : (s'.records x).waits = m :: (s.records x).waits := by
    rw [Record.waits, Record.waits, hself, hfin]
    rfl
  have hmem : m ∈ (s'.records x).waits := by
    rw [hwaits]
    exact List.mem_cons_self
  have hhands : s.hands t = m :: s.ready t := by rw [hands, hold_body]; rfl
  have hhands' : s'.hands t = s.ready t := by rw [hands, hk, hbody, hready]; rfl
  have hcreated : (s'.records m).created = true :=
    (hchanges m).created (hI.born (.hand t) m hmine)
  have hxcreated : (s.records x).created = true := hI.created_of_parent hparent
  have halive : (s'.records m).finished = false := by
    have h := hI.body t m hold_body
    rw [hold_exit] at h
    exact ((hchanges m).finished.resolve_right fun hd => hold_done m hd.1).trans h
  refine hI.of_guar hG (.of_quiet (buffered_of_turned hturn) hjoins hold_exit (hk ▸ hexit) hold_done
    ?apart ?born ?records ?ready ?waits ?body ?task ?locks ?blocked)
  case apart =>
    -- `m` moves from the hands of `t` to the waiters of `x`; no other place changes.
    refine hI.apart.exchange (i := .hand t) (j := .waits x) (by simp) ?_ ?_
    · show (s'.hands t ++ (s'.records x).waits).Subperm (s.hands t ++ (s.records x).waits)
      rw [hhands, hhands', hwaits]
      exact List.perm_middle.subperm
    · intro i hi hj
      refine hI.content_keep hG hturn hi ?_
      rintro y rfl
      rw [hother y fun hy => hj (by rw [hy])]
  case born =>
    intro v hv
    rw [hhands'] at hv
    exact (hchanges v).created (hI.born (.hand t) v (mem_hands_ready hv))
  case records =>
    rw [hrecords]
    have h := hI.records x
    refine ok_update hI.records ⟨fun hc => ?_, h.done, h.detached, h.called, h.starts, h.fresh⟩
    exact absurd (hxcreated.symm.trans hc) (by simp)
  case ready =>
    intro v hv
    rw [hready] at hv
    obtain ⟨hcon, hres⟩ : (s'.records v).context = (s.records v).context ∧
        (s'.records v).resumable = (s.records v).resumable := by
      by_cases hv : v = x
      · rw [hv, hself]
        exact ⟨rfl, rfl⟩
      · rw [hother v hv]
        exact ⟨rfl, rfl⟩
    exact (hI.ready t v hv).keep hG hcon hres
      ((hchanges v).finished.resolve_right fun hd => hold_done v hd.1)
  case waits =>
    intro y v hv
    by_cases hy : y = x
    · subst hy
      rw [hwaits] at hv
      rcases List.mem_cons.mp hv with rfl | hold
      · refine .inr ⟨⟨?_, halive, .inl ⟨t, by rw [hk]; exact hpush⟩, ?_⟩, hcreated⟩
        · rw [hself]
          exact hparent
        · rcases hblocked with ⟨-, hflag⟩ | ⟨-, heq, -⟩
          · exact .inr (.inr ⟨t, by rw [hk]; exact hflag⟩)
          · rw [heq]
            exact .inl (List.mem_append_right _ (List.mem_singleton_self _))
      · exact .inl hold
    · rw [hother y hy] at hv
      exact .inl hv
  case body =>
    intro v hv
    rw [hk, hbody] at hv
    cases hv
  case task =>
    rw [hk]
    exact htask hmem
  case locks =>
    refine hI.locks.keep hturn.tasks hlocks ?_
    rw [hrecords]
    exact lock_update rfl
  case blocked =>
    intro w y hwy
    rcases hblocked with ⟨heq, -⟩ | ⟨-, heq, hfail⟩
    · rw [heq] at hwy
      exact .inl hwy
    · rw [heq] at hwy
      rcases List.mem_append.mp hwy with hold | hnew
      · exact .inl hold
      · cases List.mem_singleton.mp hnew
        refine .inr ⟨?_, hmem⟩
        rw [hself]
        exact ⟨hxcreated, hfail⟩

/-! ### `setDone` -/

omit [DecidableEq P] [DecidableEq M] in
/-- The context of a mythread that waits for `m` is saved, when a thread has `m` and its lock. -/
theorem Inv.saved (hI : s.Inv) {w : M} (hm : m ∈ s.hands t) (hlock : (s.tasks t).locks = some m)
    (hnot : ∀ v y, s.tasks t ≠ .createFlag v y ∧ s.tasks t ≠ .createSave v y ∧
      s.tasks t ≠ .joinSave v y) (hw : w ∈ (s.records m).waits) :
    (s.records w).resumable = true ∧ ∀ y, (s.records w).context = .inJoin y → y = m := by
  rcases (hI.waits m w hw).saved with ⟨u, hu⟩ | h
  · have hmine : ∀ {k'}, s.tasks u = k' → m ∈ s.hands u ∨ k'.locks = some m → u = t := by
      rintro _ rfl (h | h)
      · exact hI.hand_unique h hm
      · exact hI.lock_unique h hlock
    cases hk : s.tasks u with
    | createFlag v y =>
      rw [hk] at hu
      cases hu
      have hut := hmine hk (.inl (mem_hands_of hk List.mem_cons_self))
      exact absurd (hut ▸ hk) (hnot w m).1
    | createSave v y =>
      rw [hk] at hu
      cases hu
      have hut := hmine hk (.inl (mem_hands_of hk List.mem_cons_self))
      exact absurd (hut ▸ hk) (hnot w m).2.1
    | joinSave v y =>
      rw [hk] at hu
      cases hu
      have hut := hmine hk (.inr rfl)
      exact absurd (hut ▸ hk) (hnot w m).2.2
    | _ =>
      rw [hk] at hu
      cases hu
  · exact h

omit [DecidableEq P] [DecidableEq M] in
/-- The waiters of a mythread that exits were blocked in a join, unless it was run in place of its
parent, and none was put back before. -/
theorem Inv.waits_owed (hI : s.Inv) (hold : s.tasks t = .exitDone m) {w : M}
    (hw : w ∈ (s.records m).waits) (hfail : (s.records m).insertFail ≠ true) : s.Owed w m := by
  have hbody : (s.tasks t).body = some m := by rw [hold]; rfl
  constructor
  · rcases (hI.waits m w hw).blocked with hin | hfail' | ⟨u, hu⟩
    · exact hin
    · exact absurd hfail' hfail
    · have hut := hI.hand_unique (mem_hands_of hu List.mem_cons_self) (mem_hands_body hbody)
      rw [hut, hold] at hu
      cases hu
  · intro hput
    have hnot := hI.body t m hbody
    rw [(hI.putBack w m hput).2, hold] at hnot
    cases hnot

omit [DecidableEq P] [DecidableEq M] in
/-- The waiters of a mythread can be resumed when it has finished. -/
theorem Inv.waits_ready (hI : s.Inv) (hold : s.tasks t = .exitDone m)
    (hfin : (s'.records m).finished = true) (hother : ∀ y, y ≠ m → s'.records y = s.records y)
    {w : M} (hw : w ∈ (s.records m).waits) : s'.Ready w := by
  have hmine : m ∈ s.hands t := mem_hands_body (by rw [hold]; rfl)
  have hne : w ≠ m := by
    rintro rfl
    exact hI.not_waits hmine hw
  obtain ⟨hres, hcon⟩ := hI.saved hmine (by rw [hold]; rfl)
    (fun v y => by rw [hold]; exact ⟨by simp, by simp, by simp⟩) hw
  rw [← hother w hne] at hres hcon
  refine ⟨hres, ?_, fun y hy => ?_⟩
  · rw [hother w hne]
    exact (hI.waits m w hw).alive
  · rw [hcon y hy, hfin]

/-- The exit of `m` takes over the waiters of `m`. -/
theorem Inv.finish (hI : s.Inv) (hold : s.tasks t = .exitDone m)
    (hturn : Turned s s' t (.exitTest m) c)
    (hrecords : s'.records = update s.records m
      { s.records m with done := true, finished := true })
    (hblocked : s'.blocked = s.blocked) (hputBack : s'.putBack = s.putBack)
    (hjoins : s'.joins = s.joins) : s'.Inv := by
  have hk : s'.tasks t = .exitTest m := by rw [hturn.tasks, update_self]
  have hbody : (s.tasks t).body = some m := by rw [hold]; rfl
  have hmine : m ∈ s.hands t := mem_hands_body hbody
  have hnot : (s.records m).finished = false := by
    have h := hI.body t m hbody
    rw [hold] at h
    exact h
  have hchanges : ∀ y, (s.records y).Changes (s.tasks t) (s.ready t) y (s'.records y) := by
    rw [hrecords]
    exact changes_update ⟨id, fun _ => rfl, id, .inr ⟨hold, rfl⟩, .inl rfl, .inl rfl, .inl rfl,
      fun _ => .inl ⟨rfl, rfl⟩⟩
  have hG := guar_of_turned hturn hchanges (fun v y hv => by rw [hold] at hv; cases hv)
    (fun v y hv => by rw [hold] at hv; cases hv) (.inl hblocked) (.inl hputBack)
  have hself : s'.records m = { s.records m with done := true, finished := true } := by
    rw [hrecords, update_self]
  have hother : ∀ y, y ≠ m → s'.records y = s.records y := fun y hy => by
    rw [hrecords, update_of_ne hy]
  have hwaits : (s.records m).waits = (s.records m).waiters := by
    rw [Record.waits, hnot]
    rfl
  have hwaits' : (s'.records m).waits = [] := by
    rw [Record.waits, hself]
    rfl
  -- Setting `finished` empties `waits m`; the same threads are from now on in the hands of `t`,
  -- which holds the lock of `m` and resumes or inserts them next.
  have hready : s'.ready t = (s.records m).waits := by
    rw [hwaits, Pool.ready, hk]
    show (s'.records m).waiters = _
    rw [hself]
  have howed : s'.owed t = if (s.records m).insertFail then [] else (s.records m).waits := by
    rw [hwaits, Pool.owed, hk]
    show (if (s'.records m).insertFail then [] else (s'.records m).waiters) = _
    rw [hself]
  have hcreated := hI.born (.hand t) m hmine
  refine hI.of_guar hG ?_
  constructor
  case apart =>
    refine hI.apart.exchange (i := .hand t) (j := .waits m) (by simp) ?_ ?_
    · show (s'.hands t ++ (s'.records m).waits).Subperm (s.hands t ++ (s.records m).waits)
      rw [hwaits', hands, hands, hready, hk, hold, Pool.ready, hold]
      exact (List.Perm.of_eq (by simp [Task.body, Task.ready])).subperm
    · intro i hi hj
      refine hI.content_keep hG hturn hi ?_
      rintro y rfl
      rw [hother y fun hy => hj (by rw [hy])]
  case born =>
    intro v hv
    rw [hands, hready, hk] at hv
    rcases List.mem_append.mp hv with hv | hv
    · cases List.mem_singleton.mp hv
      exact (hchanges m).created hcreated
    · exact (hchanges v).created (hI.born (.waits m) v hv)
  case records =>
    rw [hrecords]
    have h := hI.records m
    refine ok_update hI.records
      ⟨fun hc => ?_, fun _ => rfl, fun _ hd => (by cases hd), h.called, h.starts, h.fresh⟩
    exact absurd (hcreated.symm.trans hc) (by simp)
  case ready =>
    intro w hw
    rw [hready] at hw
    exact hI.waits_ready hold (by rw [hself]) hother hw
  case buffered =>
    intro v hv
    rw [buffered_of_turned hturn] at hv
    exact .inl hv
  case waits =>
    intro y v hv
    by_cases hy : y = m
    · subst hy
      rw [hwaits'] at hv
      cases hv
    · rw [hother y hy] at hv
      exact .inl hv
  case body =>
    intro v hv
    rw [hk] at hv ⊢
    cases hv
    rw [hself]
    rfl
  case task =>
    rw [hk]
    trivial
  case locks =>
    refine hI.locks.keep hturn.tasks (by rw [hold]; rfl) ?_
    rw [hrecords]
    exact lock_update rfl
  case exit =>
    intro x hx
    rw [hk] at hx
    cases hx
    refine ⟨⟨by rw [hself], ?_, ?_⟩, .inr hnot⟩
    · rw [howed]
      split
      · exact Nat.zero_le _
      · exact hI.waits_length m
    · intro w hw
      rw [howed] at hw
      split at hw
      · cases hw
      next hfail =>
      rw [Owed, hblocked, hputBack]
      exact hI.waits_owed hold hw hfail
  case joins =>
    intro e he
    rw [hjoins] at he
    exact .inl he
  case owed =>
    intro x w hx
    rw [hold] at hx
    cases hx
  case done =>
    intro x hx
    rw [hold] at hx
    cases hx
    refine ⟨by rw [hk]; rfl, fun hfail w hw => ?_⟩
    rw [howed, hfail]
    exact hw
  case blocked =>
    intro w x hwx
    rw [hblocked] at hwx
    exact .inl hwx

/-! ### `mythread_create` -/

omit [DecidableEq P] [DecidableEq M] in
/-- A blank record has no fields that a new one could lose. -/
theorem changes_newRecord (k : Task M) (ready : List M) (x : M) (parent : Option M) :
    (Record.blank P M).Changes k ready x (newRecord P parent) :=
  ⟨nofun, nofun, nofun, .inl rfl, .inl rfl, .inl rfl, .inl rfl, nofun⟩

omit [DecidableEq P] [DecidableEq M] in
/-- A new record is in order. -/
theorem ok_newRecord (parent : Option M) : (newRecord P parent).Ok :=
  ⟨nofun, nofun, nofun, nofun, Nat.zero_le _, fun _ _ => rfl⟩

/-- A new mythread comes to the hands of `t`, which begins to insert it in the buffer. -/
theorem Inv.create (hI : s.Inv) {parent : Option M} (hfree : (s.records x).created = false)
    (hturn : Turned s s' t k (.insert (.task x) .fullInserted))
    (hrecords : s'.records = update s.records x (newRecord P parent))
    (hold : (s.tasks t).exiting = none ∧ (s.tasks t).pushing = none ∧ (s.tasks t).moves = false ∧
      (s.tasks t).locks = none ∧ s.ready t = [])
    (hbody : k.body = (s.tasks t).body) (hexit : k.exiting = none) (hlocks : k.locks = none)
    (hready : ∀ w, k.ready (.insert (.task x) .fullInserted) w = [x])
    (hblocked : s'.blocked = s.blocked) (hputBack : s'.putBack = s.putBack)
    (hjoins : s'.joins = s.joins)
    (htask : (s'.records x).parent = parent → (∀ w, (w, x) ∉ s'.blocked) → s'.TaskOk k) :
    s'.Inv := by
  have hk : s'.tasks t = k := by rw [hturn.tasks, update_self]
  obtain ⟨hold_exit, hold_push, hold_moves, hold_locks, hold_ready⟩ := hold
  have hblank := (hI.records x).blank hfree
  have hself : s'.records x = newRecord P parent := by rw [hrecords, update_self]
  have hchanges : ∀ y, (s.records y).Changes (s.tasks t) (s.ready t) y (s'.records y) := by
    rw [hrecords]
    refine changes_update ?_
    rw [hblank]
    exact changes_newRecord ..
  have hflag : ∀ m x, s.tasks t = .createFlag m x → (s'.records x).insertFail = true := by
    intro v y hv
    rw [hv] at hold_push
    cases hold_push
  have hG := guar_of_turned hturn hchanges (fun v y hv => by rw [hold_push] at hv; cases hv) hflag
    (.inl hblocked) (.inl hputBack)
  obtain ⟨hwaits, hfin, hne⟩ := hI.stay hG hold_moves
  -- What is in some place was created, so the new thread is in none yet.
  have hnowhere : ∀ i, x ∉ s.content i := by
    intro i hi
    rw [hI.born i x hi] at hfree
    cases hfree
  have hnew : s'.ready t = [x] := by
    have hcall : s'.sys.calls t = .insert (.task x) .fullInserted := by
      rw [hturn.sys]
      exact update_self ..
    rw [Pool.ready, hk, hcall]
    exact hready _
  refine hI.of_guar hG (.of_quiet (buffered_of_turned hturn) hjoins hold_exit (hk ▸ hexit) hne
    ?apart ?born ?records ?ready ?waits ?body ?task ?locks ?blocked)
  case apart =>
    refine hI.apart.add (i := .hand t) hnowhere ?_ ?_
    · show (s'.hands t).Subperm (x :: s.hands t)
      rw [hands, hands, hnew, hk, hbody, hold_ready, List.append_nil]
      exact List.perm_append_singleton _ _ |>.subperm
    · exact fun i hi => hI.content_keep hG hturn hi fun y _ => hwaits y
  case born =>
    intro v hv
    rw [hands, hnew, hk] at hv
    rcases List.mem_append.mp hv with hv | hv
    · refine (hchanges v).created (hI.born (.hand t) v (List.mem_append_left _ ?_))
      rw [← hbody]
      exact hv
    · cases List.mem_singleton.mp hv
      rw [hself]
      rfl
  case records =>
    rw [hrecords]
    exact ok_update hI.records (ok_newRecord parent)
  case ready =>
    intro v hv
    rw [hnew] at hv
    cases List.mem_singleton.mp hv
    constructor <;> rw [hself]
    · rfl
    · rfl
    · exact fun y hy => by cases hy
  case waits =>
    intro y v hv
    rw [hwaits] at hv
    exact .inl hv
  case body =>
    intro v hv
    rw [hk, hbody] at hv
    rw [hfin, hI.body t v hv, hold_exit]
    rfl
  case task =>
    rw [hk]
    refine htask (by rw [hself]; rfl) fun w hw => ?_
    rw [hblocked] at hw
    rw [(hI.unfailed w x hw).1] at hfree
    cases hfree
  case locks =>
    refine hI.locks.keep hturn.tasks (hlocks.trans hold_locks.symm) ?_
    rw [hrecords]
    exact lock_update (by rw [hblank]; rfl)
  case blocked =>
    intro w y hwy
    rw [hblocked] at hwy
    exact .inl hwy

/-! ### The calls of the buffer -/

omit [DecidableEq M] in
/-- A step of the call of `t`. -/
theorem Inv.call [Fintype P] {n : Capacity} (hI : s.Inv) (hfits : (s.tasks t).Fits (s.sys.calls t))
    (hbusy : (s.sys.calls t).isFree = false) {sys : Sys (Option P) (Item M)}
    (hstep : CallStep n (Fintype.card P) t (· = .exit) s.sys.shared (s.sys.calls t) sys.shared c)
    (hcalls : sys.calls = update s.sys.calls t c) (hc : s.sys.shared.CountersOk n)
    (hslots : ∀ pc, s.sys.calls t = .remove pc → pc.holds = true →
      s.sys.shared.SlotsOk n (some pc)) : ({ s with sys := sys } : Pool P M).Inv := by
  have hcall : sys.calls t = c := by rw [hcalls, update_self]
  -- a thread in a call is not behind a push
  obtain ⟨hpush, hmoves⟩ : (s.tasks t).pushing = none ∧ (s.tasks t).moves = false := by
    cases hk : s.tasks t with
    | create _ _ | exitInsert _ _ _ _ | mainCreate _ | schedule => exact ⟨rfl, rfl⟩
    | main =>
      rw [hk] at hfits
      exact absurd (hbusy.symm.trans hfits.1) nofun
    | _ =>
      rw [hk] at hfits
      exact absurd (hbusy.symm.trans hfits) nofun
  have hG : s.Guar { s with sys := sys } t := by
    constructor
    case tasks => exact fun _ _ => rfl
    case calls =>
      intro u hu
      show sys.calls u = _
      rw [hcalls, update_of_ne hu]
    case records => exact fun x => .refl ..
    case pushing => exact fun m x h => .inl h
    case flag =>
      intro m x hk
      rw [hk] at hpush
      cases hpush
    case blocked => exact .inl rfl
    case putBack => exact .inl rfl
  have hready : ∀ {m}, s.Ready m → ({ s with sys := sys } : Pool P M).Ready m :=
    fun h => ⟨h.resumable, h.alive, h.joined⟩
  have hother : ∀ i, i ≠ .hand t → i ≠ .buffer →
      ({ s with sys := sys } : Pool P M).content i = s.content i := by
    intro i hi hj
    cases i with
    | hand u => exact hI.hands_keep hG fun hu => hi (by rw [hu])
    | buffer => exact absurd rfl hj
    | waits x => rfl
  -- the mythreads in the hands of `t` and in the buffer are the same together
  have hshift : (({ s with sys := sys } : Pool P M).ready t ++
      ({ s with sys := sys } : Pool P M).buffered).Perm (s.ready t ++ s.buffered) := by
    show ((s.tasks t).ready (sys.calls t) _ ++ sys.shared.queue.filterMap Item.mythread).Perm
      ((s.tasks t).ready (s.sys.calls t) _ ++ s.sys.shared.queue.filterMap Item.mythread)
    rw [hcall]
    rcases hstep.shift hfits hc hslots (fun m => (s.records m).waiters) with
      ⟨hqueue, heq⟩ | ⟨x, hqueue, heq⟩ | ⟨x, hqueue, heq⟩
    · rw [hqueue, heq]
    · rw [hqueue, heq, ← List.append_assoc]
      exact List.perm_append_singleton _ _
    · rw [hqueue, heq]
      exact List.perm_middle.symm
  have hback : ∀ m, m ∈ ({ s with sys := sys } : Pool P M).ready t ∨
      m ∈ ({ s with sys := sys } : Pool P M).buffered → s.Ready m ∧
      (s.records m).created = true := by
    intro m hm
    rcases List.mem_append.mp (hshift.mem_iff.mp (List.mem_append.mpr hm)) with h | h
    · exact ⟨hI.ready t m h, hI.born (.hand t) m (mem_hands_ready h)⟩
    · exact ⟨hI.buffered m h, hI.born .buffer m h⟩
  refine hI.of_guar hG ?_
  constructor
  case apart =>
    refine hI.apart.exchange (i := .hand t) (j := .buffer) nofun ?_ hother
    show (({ s with sys := sys } : Pool P M).hands t ++
      ({ s with sys := sys } : Pool P M).buffered).Subperm (s.hands t ++ s.buffered)
    rw [hands, hands, List.append_assoc, List.append_assoc]
    exact (hshift.append_left _).subperm
  case born =>
    intro m hm
    rcases List.mem_append.mp hm with hm | hm
    · exact hI.born (.hand t) m (List.mem_append_left _ hm)
    · exact (hback m (.inl hm)).2
  case records => exact hI.records
  case ready => exact fun m hm => hready (hback m (.inl hm)).1
  case buffered =>
    exact fun m hm => .inr ⟨hready (hback m (.inr hm)).1, (hback m (.inr hm)).2⟩
  case waits => exact fun x m hm => .inl hm
  case body => exact hI.body t
  case task => exact hI.tasks t
  case locks => exact hI.locks
  case exit => exact fun x hx => ⟨⟨(hI.exits t x hx).finished, (hI.exits t x hx).one,
    (hI.exits t x hx).owed⟩, .inl hx⟩
  case joins => exact fun e he => .inl he
  case owed => exact fun x w hx hw => .inr ⟨hx, hw⟩
  case done =>
    intro x hx
    rw [hx] at hmoves
    cases hmoves
  case blocked => exact fun w x h => .inl h

end Pool

end

end Stacklets.Mythreads

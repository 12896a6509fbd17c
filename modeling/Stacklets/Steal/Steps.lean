import Stacklets.Steal.Machine

/-!
# `Stacklets.Steal.Steps`: what one step of a thread can do

`Outcome.eui_cases` and `FibEffect` say once what `myeui` and a step of `fib` leave alone.
`step_cases` splits a step of a thread into one of a handler and one of what lies below.

Both requests and stolen work are at each moment in messages, in handlers and in the bases of the
threads. `Weights` counts how many of one kind are at a thread, and `Facts` is a property of all
the messages and handlers there. Their lemmas say how the two change when a thread goes on
somewhere else, when a handler gives way to others and when a message comes in.
-/

set_option autoImplicit false

namespace Stacklets.Steal

open LazyFork (Foo FooPtr)
open Uli (Mask)

section
variable {N : Nat} {m m' : Shared N} {t : Fin N} {c c' : Core N} {o : Outcome N} {stub : Stub N}
  {F : FooPtr} {pc : FibPC} {base : Base N}

/-- `myeui` changes the mask, and may put a poll on top. When its assertion fails the process
ends. -/
theorem Outcome.eui_cases (m : Shared N) (c : Core N) :
    ∃ acts mask aborted, (acts = c.acts ∨ acts = .poll :: c.acts) ∧
      Outcome.eui m c =
        .quiet { m with aborted := aborted } { c with acts := acts, mask := mask } := by
  unfold Outcome.eui Core.myeui
  cases hunmask : c.mask.unmask .poll c.acts with
  | none => exact ⟨c.acts, c.mask, true, Or.inl rfl, rfl⟩
  | some r => exact ⟨r.2, r.1, m.aborted, Mask.unmask_acts hunmask, rfl⟩

/-- The thread runs `fib`, or has just left it. -/
def Base.Working : Base N → Prop
  | .fib _ _ _ => True
  | .getMsg (.finish _ _) _ => True
  | .suspend .poll => True
  | .returned => True
  | _ => False

/-- A return goes back to `fib`, or ends the stacklet. -/
theorem returnTo_working (h : returnTo stub F = some base) : base.Working := by
  unfold returnTo at h
  split at h
  · cases stub <;> cases h <;> trivial
  · cases F with
    | root => cases h
    | a G => cases h; trivial
    | b G => cases h; trivial

/-- Where a step of `fib(F)` goes. -/
inductive Goes (stub : Stub N) (F : FooPtr) : FibPC → Base N → Prop
  | stay (pc pc' : FibPC) : Goes stub F pc (.fib stub F pc')
  | callA : Goes stub F .callA (.fib stub (.a F) .start)
  | callB : Goes stub F .callB (.fib stub (.b F) .start)
  | suspend (counter : Int) : counter ≠ 0 → Goes stub F (.testCounter counter) (.suspend .poll)
  | ret {base : Base N} : returnTo stub F = some base → Goes stub F .ret base

/-- `fib` goes on in `fib`, or ends the stacklet. -/
theorem Goes.working (h : Goes stub F pc base) : base.Working := by
  cases h with
  | ret h => exact returnTo_working h
  | _ => trivial

/-- What a step of `fib(F)` can do to the seeds: nothing, push a new one, or unlink one. -/
inductive SeedMove (F : FooPtr) (m : Shared N) (c : Core N) (m' : Shared N) (c' : Core N) : Prop
  | none (queue : c'.seedQ = c.seedQ) (released : m'.released = m.released)
      (seeds : m'.seeds = m.seeds)
  | push (seed : Seed) (id : seed.id = m.seeds) (sp : seed.sp = F)
      (queue : c'.seedQ = c.seedQ ++ [seed]) (released : m'.released = m.released)
      (seeds : m'.seeds = m.seeds + 1)
  | release (seed : Seed) (mem : seed ∈ c.seedQ) (queue : c'.seedQ = c.seedQ.erase seed)
      (released : m'.released = m.released ++ [seed]) (seeds : m'.seeds = m.seeds)

/-- The new seed in the queue is that of the frame. -/
theorem SeedMove.mem (h : SeedMove F m c m' c') {σ : Seed} (hσ : σ ∈ c'.seedQ) :
    σ ∈ c.seedQ ∨ σ.sp = F := by
  cases h with
  | none hqueue => exact .inl (hqueue ▸ hσ)
  | push seed hid hsp hqueue =>
    rw [hqueue] at hσ
    rcases List.mem_append.mp hσ with hσ | hσ
    · exact .inl hσ
    · exact .inr (by rw [List.mem_singleton.mp hσ, hsp])
  | release seed hmem hqueue =>
    rw [hqueue] at hσ
    exact .inl (List.mem_of_mem_erase hσ)

/-- A step of `fib(F)` sends nothing, writes no other frame, and leaves the ready queue and the
record of thefts alone. -/
structure FibEffect (stub : Stub N) (F : FooPtr) (pc : FibPC) (m : Shared N) (c : Core N)
    (o : Outcome N) : Prop where
  sent : o.sent = none
  msgBufs : o.core.msgBufs = c.msgBufs
  amStealing : o.core.amStealing = c.amStealing
  acts : o.core.acts = c.acts ∨ o.core.acts = .poll :: c.acts
  base : Goes stub F pc o.core.base
  frames : ∀ H, H ≠ F → o.shared.frames H = m.frames H
  readyQ : o.shared.readyQ = m.readyQ
  stolen : o.shared.stolen = m.stolen
  starts : o.shared.starts = m.starts
  seeds : SeedMove F m c o.shared o.core

/-- A step that writes results and locals of frames only. -/
theorem FibEffect.quiet {foos : FooPtr → Foo} {frames : FooPtr → Frame N} {aborted : Bool}
    {mask : Mask} (hgoes : Goes stub F pc base) (hframes : ∀ H, H ≠ F → frames H = m.frames H) :
    FibEffect stub F pc m c (.quiet { m with foos, frames, aborted } { c with base, mask }) :=
  ⟨rfl, rfl, rfl, .inl rfl, hgoes, hframes, rfl, rfl, rfl, .none rfl rfl rfl⟩

/-- `seedStackUnlock` as the last call of the step. -/
theorem FibEffect.eui (h : Goes stub F pc base) :
    FibEffect stub F pc m c (.eui m (c.goto base)) := by
  obtain ⟨acts, mask, aborted, hacts, heui⟩ := Outcome.eui_cases m (c.goto base)
  rw [heui]
  exact ⟨rfl, rfl, rfl, hacts, h, fun _ _ => rfl, rfl, rfl, rfl, .none rfl rfl rfl⟩

/-- A frame returns, or the process ends at the assertion of `returnFromStolenWorkRoutine`. -/
theorem fibStep_ret (h : fibStep m t c stub F .ret = some o) :
    ∃ base, returnTo stub F = some base ∧
      (o = .quiet m (c.goto base) ∨ o = .quiet m.abort c ∧ stub ≠ .first) := by
  obtain ⟨base, hbase, rfl⟩ := Option.map_eq_some_iff.mp h
  refine ⟨base, hbase, ?_⟩
  by_cases hstub : m.stubAssertion base = true
  · exact Or.inl (if_pos hstub)
  · refine Or.inr ⟨if_neg hstub, ?_⟩
    rintro rfl
    -- Only `returnFromStolenWorkRoutine` has the assertion.
    unfold returnTo at hbase
    split at hbase
    · cases hbase
      exact hstub rfl
    · cases F <;> cases hbase <;> exact hstub rfl

/-- Every step of `fib` has its effect. -/
theorem fibStep_effect (hbase : c.base = .fib stub F pc)
    (h : fibStep m t c stub F pc = some o) : FibEffect stub F pc m c o := by
  -- A failed assertion ends the process and changes nothing else.
  have habort : FibEffect stub F pc m c (.quiet m.abort c) :=
    .quiet (show Goes stub F pc c.base from hbase ▸ .stay pc pc) fun _ _ => rfl
  cases pc with
  | start | gotoReturnAdr =>
    simp only [fibStep] at h
    split at h <;> cases h <;> exact .quiet (.stay _ _) fun _ _ => rfl
  | pushSeed =>
    cases h
    exact ⟨rfl, rfl, rfl, .inl rfl, .stay _ _, fun H hH => Function.update_of_ne hH _ _, rfl, rfl,
      rfl, .push ⟨m.seeds, F⟩ rfl rfl rfl rfl rfl⟩
  | unlockPush => cases h; exact .eui (.stay _ _)
  | callA => cases h; exact .quiet .callA fun _ _ => rfl
  | lockPtid | checkUIMask =>
    simp only [fibStep] at h
    split at h <;> cases h
    · exact .quiet (.stay _ _) fun _ _ => rfl
    · exact habort
  | firstChildDoneNormally =>
    simp only [fibStep] at h
    split at h
    · rename_i seed _
      split at h <;> cases h
      · rename_i hmem
        exact ⟨rfl, rfl, rfl, .inl rfl, .stay _ _, fun _ _ => rfl, rfl, rfl, rfl,
          .release seed hmem.2 rfl rfl rfl⟩
      · exact habort
    · cases h
  | unlockNormally | unlockDone =>
    simp only [fibStep] at h
    split at h <;> cases h
    · exact .eui (.stay _ _)
    · exact habort
  | callB => cases h; exact .quiet .callB fun _ _ => rfl
  | sum | allReturned => cases h; exact .quiet (.stay _ _) fun _ _ => rfl
  | firstChildDone =>
    cases h
    exact .quiet (.stay _ _) fun H hH => Function.update_of_ne hH _ _
  | testCounter counter =>
    simp only [fibStep] at h
    split at h <;> cases h
    · exact .quiet (.suspend counter (by assumption)) fun _ _ => rfl
    · exact .quiet (.stay _ _) fun _ _ => rfl
  | enQAndReturn => cases h
  | ret =>
    obtain ⟨base, hret, rfl | ⟨rfl, -⟩⟩ := fibStep_ret h
    · exact .quiet (.ret hret) fun _ _ => rfl
    · exact habort

/-! ### What is at a thread -/

/-- How many things of one kind a message, a handler and the base of a thread stand for. -/
structure Weights (N : Nat) where
  msg : Message N → Nat
  act : Act N → Nat
  base : Fin N → Base N → Nat
  act_poll : act .poll = 0

namespace Weights
variable (w : Weights N) (u : Fin N)

/-- How many are at the thread `u`. -/
def core (c : Core N) : Nat := (c.msgBufs.map w.msg).sum + (c.acts.map w.act).sum + w.base u c.base

/-- How many there are in all. -/
def all (s : State N) : Nat := Lib.total w.core s.cores

/-- A message adds what it stands for. -/
theorem core_receive (c : Core N) (msg : Message N) :
    w.core u (c.receive msg) = w.core u c + w.msg msg := by
  show ((c.msgBufs ++ [msg]).map _).sum + (c.acts.map _).sum + w.base u c.base = _
  unfold core
  rw [List.map_append, List.sum_append, List.map_singleton, List.sum_singleton]
  omega

/-- The code below the handlers counts by its place. -/
theorem core_goto (c : Core N) (base : Base N) :
    w.core u (c.goto base) + w.base u c.base = w.core u c + w.base u base := by
  show (c.msgBufs.map _).sum + (c.acts.map _).sum + w.base u base + _ = _
  unfold core
  omega

/-- Polls do not count. -/
theorem core_of_poll {c c' : Core N} (hmsgs : c'.msgBufs = c.msgBufs)
    (hacts : c'.acts = c.acts ∨ c'.acts = .poll :: c.acts) (hbase : c'.base = c.base) :
    w.core u c' = w.core u c := by
  unfold core
  rw [hmsgs, hbase]
  rcases hacts with hacts | hacts
  · rw [hacts]
  · rw [hacts, List.map_cons, List.sum_cons, w.act_poll, Nat.zero_add]

/-- So the poll of `myeui` does not count. -/
theorem core_eui (m : Shared N) (c : Core N) :
    w.core u (Outcome.eui m c).core = w.core u c := by
  obtain ⟨acts, mask, aborted, hacts, heui⟩ := Outcome.eui_cases m c
  rw [heui]
  exact w.core_of_poll u rfl hacts rfl

/-- The topmost handler `act` gives way to `l`. -/
theorem core_handle {act : Act N} {l rest : List (Act N)} (c' : Core N)
    (hacts : c.acts = act :: rest) (hacts' : c'.acts = l ++ rest)
    (hmsgs : c'.msgBufs = c.msgBufs) (hbase : c'.base = c.base) :
    w.core u c' + w.act act = w.core u c + (l.map w.act).sum := by
  unfold core
  rw [hacts, hacts', hmsgs, hbase, List.map_append, List.sum_append, List.map_cons, List.sum_cons]
  omega

/-- The loop of `i_handler` gives a message to its handler. -/
theorem core_call {msg : Message N} {act : Act N} {msgBufs : List (Message N)}
    {rest : List (Act N)} (hacts : c.acts = .iHandler :: rest) (hmsgs : c.msgBufs = msg :: msgBufs)
    (hact : w.act act = w.msg msg) :
    w.core u { c with msgBufs := msgBufs, acts := act :: .iHandler :: rest } = w.core u c := by
  unfold core
  rw [hacts, hmsgs]
  simp only [List.map_cons, List.sum_cons, hact]
  omega

/-- The topmost handler counts. -/
theorem act_le_core {act : Act N} {rest : List (Act N)} (hacts : c.acts = act :: rest) :
    w.act act ≤ w.core u c := by
  unfold core
  rw [hacts, List.map_cons, List.sum_cons]
  omega

/-- The balance of a step. -/
theorem all_after (s : State N) (t : Fin N) (o : Outcome N) :
    w.all (s.after t o) + w.core t (s.cores t) =
      w.all s + w.core t o.core + Lib.postWeight (fun _ => w.msg) o.sent :=
  Lib.total_step fun u c msg => w.core_receive u c msg

/-- There are none at the start, if `startfib` and the first look for work have none. -/
theorem all_initial [NeZero N] (n : Int) (stubFound : Bool)
    (hfib : ∀ u, w.base u (.fib .first .root .start) = 0)
    (hsuspend : ∀ u, w.base u (.suspend .poll) = 0) : w.all (initial N n stubFound) = 0 := by
  show ∑ u, w.core u ((initial N n stubFound).cores u) = 0
  refine Finset.sum_eq_zero fun u _ => ?_
  show 0 + 0 + w.base u (if u = 0 then .fib .first .root .start else .suspend .poll) = 0
  split
  · rw [hfib]
  · rw [hsuspend]

end Weights

/-- What messages leave alone, after a step of `t`. -/
theorem after_congr {β : Type*} (f : Core N → β) (hf : ∀ c msg, f (c.receive msg) = f c)
    (s : State N) (t : Fin N) (o : Outcome N) (v : Fin N) :
    f ((s.after t o).cores v) = if v = t then f o.core else f (s.cores v) := by
  show f (Lib.post _ _ _ v) = _
  rw [Lib.post_congr _ _ f hf]
  by_cases hv : v = t
  · rw [hv, Function.update_self, if_pos rfl]
  · rw [Function.update_of_ne hv, if_neg hv]

/-- A property of the messages and the handlers of a thread. -/
structure Facts (N : Nat) where
  msg : Fin N → Message N → Prop
  act : Fin N → Act N → Prop
  act_poll : ∀ u, act u .poll

/-- The messages and the handlers at the thread `u` have the property. -/
structure Facts.At (f : Facts N) (u : Fin N) (c : Core N) : Prop where
  msgs : ∀ msg ∈ c.msgBufs, f.msg u msg
  acts : ∀ act ∈ c.acts, f.act u act

namespace Facts.At
variable {f : Facts N} {u : Fin N} {act a : Act N} {l rest : List (Act N)}

/-- A message arrives that has the property. -/
theorem receive {msg : Message N} (h : f.At u c) (hmsg : f.msg u msg) :
    f.At u (c.receive msg) where
  msgs := List.forall_mem_append.mpr ⟨h.msgs, List.forall_mem_singleton.mpr hmsg⟩
  acts := h.acts

/-- Polls have it. -/
theorem of_poll (h : f.At u c) (hmsgs : c'.msgBufs = c.msgBufs)
    (hacts : c'.acts = c.acts ∨ c'.acts = .poll :: c.acts) : f.At u c' where
  msgs := by
    rw [hmsgs]
    exact h.msgs
  acts := by
    rcases hacts with hacts | hacts
    · rw [hacts]
      exact h.acts
    · rw [hacts]
      exact List.forall_mem_cons.mpr ⟨f.act_poll u, h.acts⟩

/-- So the poll of `myeui` does no harm. -/
theorem eui (h : f.At u c) (m : Shared N) : f.At u (Outcome.eui m c).core := by
  obtain ⟨acts, mask, aborted, hacts, heui⟩ := Outcome.eui_cases m c
  rw [heui]
  exact h.of_poll rfl hacts

/-- The topmost handler has it. -/
theorem head (h : f.At u c) (hacts : c.acts = act :: rest) : f.act u act :=
  h.acts act (by rw [hacts]; exact List.mem_cons_self)

/-- The topmost handler gives way to others that have it. -/
theorem handle (h : f.At u c) (hacts : c.acts = act :: rest) (hacts' : c'.acts = l ++ rest)
    (hl : ∀ a ∈ l, f.act u a) (hmsgs : ∀ msg ∈ c'.msgBufs, msg ∈ c.msgBufs) : f.At u c' where
  msgs := fun msg hmsg => h.msgs msg (hmsgs msg hmsg)
  acts := by
    have hrest := h.acts
    rw [hacts] at hrest
    rw [hacts']
    exact List.forall_mem_append.mpr ⟨hl, (List.forall_mem_cons.mp hrest).2⟩

/-- The topmost handler returns. -/
theorem pop (h : f.At u c) (hacts : c.acts = act :: rest) (hacts' : c'.acts = rest)
    (hmsgs : c'.msgBufs = c.msgBufs) : f.At u c' :=
  h.handle (l := []) hacts hacts' (List.forall_mem_nil _) fun _ hmsg => hmsgs ▸ hmsg

/-- The topmost handler goes on as `a`. -/
theorem next (h : f.At u c) (hacts : c.acts = act :: rest) (hacts' : c'.acts = a :: rest)
    (ha : f.act u a) (hmsgs : c'.msgBufs = c.msgBufs) : f.At u c' :=
  h.handle (l := [a]) hacts hacts' (List.forall_mem_singleton.mpr ha) fun _ hmsg => hmsgs ▸ hmsg

end Facts.At

/-! ### Steps of the machine -/

/-- The thread stands at `Resume` in `enQnewStacklet`, behind the `enqReadyQ` that it has called
itself. -/
def Core.fallsThrough (c : Core N) : Bool :=
  match c.acts with
  | .fork _ .resume :: _ => true
  | _ => false

/-- The thread is about to look into its own seed queue in `suspend`. -/
def Core.testsOwn (c : Core N) : Bool :=
  match c.acts, c.base with
  | [], .suspend .ownTest => true
  | _, _ => false

/-- The thread is about to call `remoteStackletFork` over frames on its system stack that are still
needed. -/
def Core.overruns (c : Core N) : Bool :=
  match c.acts with
  | .steal _ .enter :: rest => !c.seedQ.isEmpty && c.onSystemStack rest
  | _ => false

variable [NeZero N] {s s' : State N}

/-- The next step of `t` reads the front of another seed queue in the scan of `suspend`, and there
is a seed. -/
def State.finds (s : State N) (t : Fin N) : Bool :=
  match (s.cores t).acts, (s.cores t).base with
  | [], .suspend (.scan i) =>
    decide (i < N) && s.checkSeedQue (Fin.ofNat N ((s.cores t).lastReq + i))
  | _, _ => false

/-- A step is one of the topmost poll or handler, or one of what lies below when there is none. -/
theorem step_cases (h : step s t = some s') :
    ∃ o, s' = s.after t o ∧
      ((∃ act rest, (s.cores t).acts = act :: rest ∧
          o = actStep s.shared t (s.cores t) rest act) ∨
        (s.cores t).acts = [] ∧ baseStep s t (s.cores t) (s.cores t).base = some o) := by
  unfold step at h
  split at h
  · cases h
  · obtain ⟨o, ho, rfl⟩ := Option.map_eq_some_iff.mp h
    refine ⟨o, rfl, ?_⟩
    unfold coreStep at ho
    cases hacts : (s.cores t).acts with
    | nil =>
      rw [hacts] at ho
      exact Or.inr ⟨rfl, ho⟩
    | cons act rest =>
      rw [hacts] at ho
      exact Or.inl ⟨act, rest, rfl, (Option.some.inj ho).symm⟩

end

end Stacklets.Steal

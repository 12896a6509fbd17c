import Stacklets.Gem5.Machine

/-!
# `Stacklets.Gem5.Delivery`: each user-level interrupt is run once, in order

Two properties of whole runs, one for each CPU model.

* `uli_not_stranded`: on the simple CPU, `pendingULI` says that the queue is not empty. A check
  invokes one node. It clears the flag if `updateIntrInfo` accepts, so of two nodes one stays
  behind a clear flag (`uli_stranded`), and it leaves the flag set if `updateIntrInfo` refuses.
  The property holds if a check accepts exactly when it takes the last node.
* `uli_delivered_once`: on the out-of-order CPU each node is invoked once. It holds if the ULI
  arrives between the two halves of a check for another interrupt. Otherwise
  `propagateInterrupt` takes out a node of its own and nobody runs it
  (`propagateInterrupt_drops`).

Both rest on one invariant, `Delivered`: the nodes that arrived are those that were
invoked followed by those in the queue, and the flag says that the queue is not empty. Both also
say that the checks get somewhere. A check that finds a ULI pending hands it to `ULI::invoke`, or
clears one of the at most four interrupts that go first.
-/

set_option autoImplicit false

namespace Stacklets.Gem5

open Lib

/-! ### The invariant of the queue -/

/-- Every node that arrived was invoked, in order, or is in the queue, and the flag says that
the queue is not empty. -/
structure Core.Delivered (k : Core) : Prop where
  flags : k.apic.FlagsOk
  pending : k.apic.pendingULI = true ↔ k.apic.uliQueue ≠ []
  order : k.arrived = k.invoked.map (·.node) ++ k.apic.uliQueue

namespace Core

variable {k k' : Core}

/-- A call that leaves the ULIs alone. -/
theorem Delivered.same (h : k.Delivered) (hs : k.Same k') : k'.Delivered where
  flags := hs.flags
  pending := by rw [hs.pending, hs.queue]; exact h.pending
  order := by rw [hs.arrived, hs.invoked, hs.queue]; exact h.order

/-- An arriving ULI sets the flag and goes to the end of the queue. -/
theorem Delivered.requestInterrupt (h : k.Delivered) (msgMap : UInt64 → StackletMessage)
    (vector : UInt8) (mode : DeliveryMode) (level : Bool) (key : UInt32) :
    (k.requestInterrupt msgMap vector mode level key).Delivered := by
  by_cases hm : mode = .uli
  · subst hm
    refine ⟨h.flags.requestInterrupt, ⟨fun _ => ?_, fun _ => rfl⟩, ?_⟩
    · show k.apic.uliQueue ++ [Interrupts.uliNode msgMap vector key] ≠ []
      exact List.append_ne_nil_of_right_ne_nil _ (List.cons_ne_nil _ _)
    · show k.arrived ++ [Interrupts.uliNode msgMap vector key] =
        _ ++ (k.apic.uliQueue ++ [Interrupts.uliNode msgMap vector key])
      rw [h.order, List.append_assoc]
      rfl
  · obtain ⟨hq, hp⟩ := Interrupts.requestInterrupt_other hm
    exact h.same ⟨hq, hp, if_neg hm, rfl, h.flags.requestInterrupt⟩

/-- The first node is invoked, and the flag says what is left. -/
theorem Delivered.deliver {node : UliNode} {cr3 cs : UInt64} (h : k.Delivered)
    (ht : k.Takes k' node) (hinv : k'.invoked = k.invoked ++ [⟨node, cr3, cs⟩])
    (hp : k'.apic.pendingULI = true ↔ k'.apic.uliQueue ≠ []) : k'.Delivered where
  flags := ht.flags
  pending := hp
  order := by
    rw [ht.arrived, h.order, hinv, ht.queue, List.map_append, List.append_assoc]
    rfl

/-- The last node of the queue leaves nothing behind. -/
theorem Takes.queue_eq_nil {node : UliNode} (ht : k.Takes k' node)
    (hlen : k.apic.uliQueue.length ≤ 1) : k'.apic.uliQueue = [] := by
  rw [ht.queue, List.length_cons] at hlen
  exact List.length_eq_zero_iff.mp (by omega)

end Core

/-- At power on no ULI has arrived. -/
theorem delivered_initial {C : Type} (tc : C → ThreadContext) (stage : C → CommitStage) (c : C) :
    ((Machine.initial tc stage).cores c).Delivered :=
  ⟨rfl, by simp [Machine.initial, Interrupts.reset], rfl⟩

/-! ### Actions that are no check -/

section

variable {C : Type} [DecidableEq C]

/-- The checks of the CPUs. -/
def Act.isCheck : Act C → Bool
  | .checkForInterrupts _ | .processInterrupts _ | .propagateInterrupt _
  | .handleInterrupt _ => true
  | _ => false

/-- Everything but the checks keeps the invariant: a ULI that arrives goes to the end of the queue
and sets the flag, and the rest does not touch the ULIs. -/
theorem Machine.delivered_of_not_check {s s' : Machine C} {a : Act C}
    (hI : ∀ c, (s.cores c).Delivered) (ha : a.isCheck = false) (h : s.step a = some s') :
    (∀ c, (s'.cores c).Delivered) ∧ s'.aborted = none := by
  obtain ⟨hnone, h⟩ := Machine.perform_of_step h
  cases a with
  | checkForInterrupts | processInterrupts | propagateInterrupt | handleInterrupt => cases ha
  | stackletSendi c callback p destCpu =>
    cases h
    have hI' : ∀ d, ((s.recordMessage c callback p).cores d).Delivered := hI
    unfold Machine.stackletSendi
    refine ⟨Machine.call_cores hI' ?_, hnone⟩
    rintro k ⟨⟩
    exact (hI destCpu).requestInterrupt ..
  | requestInterrupt c vector mode level key =>
    cases h
    refine ⟨Machine.call_cores hI ?_, hnone⟩
    rintro k ⟨⟩
    exact (hI c).requestInterrupt ..
  | threadContext c tc | pipeline c stage | writeEOI c | writeTaskPriority c value =>
    cases h
    refine ⟨Machine.call_cores hI ?_, hnone⟩
    rintro k ⟨⟩
    exact (hI c).same ⟨rfl, rfl, rfl, rfl, (hI c).flags⟩

end

/-! ### The simple CPU -/

section

variable {C : Type} [DecidableEq C]

/-- The actions of a machine of simple CPUs. -/
def Act.simpleCPU : Act C → Bool
  | .processInterrupts _ | .propagateInterrupt _ | .handleInterrupt _ => false
  | _ => true

/-- The condition on a check of the simple CPU: if a ULI is the most urgent interrupt, the thread
context passes the tests of `updateIntrInfo` exactly if the ULI is the only one in the queue. -/
def OneByOne (s : Machine C) : Act C → Prop
  | .checkForInterrupts c =>
    (s.cores c).apic.takesULI = true →
      ((s.cores c).apic.uliQueue.length ≤ 1 ↔ Interrupts.Accepts (s.cores c).tc s.cr3Map)
  | _ => True

instance (s : Machine C) : ∀ a, Decidable (OneByOne s a)
  | .checkForInterrupts c =>
    inferInstanceAs (Decidable ((s.cores c).apic.takesULI = true → (_ ≤ 1 ↔ _)))
  | .stackletSendi .. | .requestInterrupt .. | .processInterrupts _ | .propagateInterrupt _
  | .handleInterrupt _ | .threadContext .. | .pipeline .. | .writeEOI _
  | .writeTaskPriority .. => isTrue trivial

/-- What a check under the condition does: the invariant stays, and either the queue is empty
afterwards, or a node or an interrupt that goes before it was taken away. -/
theorem Core.Delivered.checkForInterrupts {k k' : Core} {cr3Map : UInt64 → Option UInt64}
    (h : k.Delivered)
    (hok : k.apic.takesULI = true →
      (k.apic.uliQueue.length ≤ 1 ↔ Interrupts.Accepts k.tc cr3Map))
    (hk : k.checkForInterrupts cr3Map = .ok k') :
    k'.Delivered ∧
      (k'.apic.uliQueue = [] ∨ k.apic.uliQueue ≠ [] ∧
        k'.apic.higherCount + k'.apic.uliQueue.length <
          k.apic.higherCount + k.apic.uliQueue.length) := by
  rcases Core.checkForInterrupts_cases cr3Map h.flags with
    ⟨k₁, heq, hsame, hnil, hless⟩ | herr | ⟨k₁, node, heq, ht, hinv, haccepted, hrefused⟩
  · rw [heq] at hk
    cases hk
    refine ⟨h.same hsame, ?_⟩
    by_cases hq : k.apic.uliQueue = []
    · exact .inl (hsame.queue.trans hq)
    · -- the queue is not empty, so something else was more urgent
      right
      have hhigher : k.apic.pendingHigher = true := by
        by_contra hno
        have ht : k.apic.takesULI = true := by
          rw [Interrupts.takesULI, h.pending.mpr hq, Bool.eq_false_iff.mpr hno]
          rfl
        exact hq (hnil ht)
      rw [hsame.queue]
      exact ⟨hq, Nat.add_lt_add_right (hless hhigher) _⟩
  · rw [herr] at hk
    cases hk
  · rw [heq] at hk
    cases hk
    have hiff := hok ht.takes
    by_cases haccept : Interrupts.Accepts k.tc cr3Map
    · -- the flag goes with the last node
      have hempty := ht.queue_eq_nil (hiff.mpr haccept)
      refine ⟨h.deliver ht hinv ?_, .inl hempty⟩
      rw [haccepted haccept, hempty]
      simp
    · -- the flag stays, and so does a node
      have htakes := hrefused haccept
      have hlen : k.apic.uliQueue.length = k'.apic.uliQueue.length + 1 := by rw [ht.queue]; rfl
      have hmore : ¬ k.apic.uliQueue.length ≤ 1 := fun hle => haccept (hiff.mp hle)
      refine ⟨h.deliver ht hinv ⟨fun _ hnil => ?_, fun _ => ?_⟩, .inr ⟨?_, ?_⟩⟩
      · rw [hlen, hnil] at hmore
        exact hmore (Nat.le_refl _)
      · exact Interrupts.pendingULI_of_takesULI htakes
      · rw [ht.queue]
        exact List.cons_ne_nil _ _
      · rw [Interrupts.higherCount_of_takesULI htakes]
        omega

/-- A step of a machine of simple CPUs under the condition. -/
theorem delivered_step_simpleCPU (s : Machine C) (a : Act C) (s' : Machine C)
    (hI : ∀ c, (s.cores c).Delivered) (hok : a.simpleCPU = true ∧ OneByOne s a)
    (h : s.step a = some s') : ∀ c, (s'.cores c).Delivered := by
  obtain ⟨hcpu, hok⟩ := hok
  cases a with
  | checkForInterrupts c =>
    rw [Machine.step_checkForInterrupts h]
    exact Machine.call_cores hI fun k hk => ((hI c).checkForInterrupts hok hk).1
  | processInterrupts | propagateInterrupt | handleInterrupt => cases hcpu
  | stackletSendi | requestInterrupt | threadContext | pipeline | writeEOI | writeTaskPriority =>
    exact (Machine.delivered_of_not_check hI rfl h).1

/-- A simulation that ended stays where it is. -/
theorem Machine.aborted_of_run {s s' : Machine C} {as : List (Act C)}
    (h : run Machine.step s as = some s') (hs : s.aborted ≠ none) : s'.aborted ≠ none := by
  refine run_induction (I := fun s => s.aborted ≠ none) ?_ as s s' hs h
  intro s a s' hs h
  exact absurd (Machine.perform_of_step h).1 hs

/-- A core that only checks has an empty queue after as many checks as there are nodes and
interrupts that go before them. The induction is on the number of checks. Each one takes one of
these away, and an empty queue stays empty. -/
theorem queue_empty_of_checks (c : C) : ∀ (n : Nat) (s s' : Machine C),
    (∀ d, (s.cores d).Delivered) →
    (s.cores c).apic.uliQueue = [] ∨
      (s.cores c).apic.higherCount + (s.cores c).apic.uliQueue.length ≤ n →
    RunUnder Machine.step OneByOne s (List.replicate n (.checkForInterrupts c)) →
    run Machine.step s (List.replicate n (.checkForInterrupts c)) = some s' →
    s'.aborted = none → (s'.cores c).apic.uliQueue = [] := by
  intro n
  induction n with
  | zero =>
    intro s s' _ hq _ hrun _
    cases hrun
    exact hq.elim id fun hle => List.length_eq_zero_iff.mp (by omega)
  | succ n ih =>
    intro s s' hI hq hok hrun habort
    obtain ⟨s₁, hstep, hrest⟩ := run_cons_eq_some.mp hrun
    have hI₁ := delivered_step_simpleCPU s _ s₁ hI ⟨rfl, hok.1⟩ hstep
    refine ih s₁ s' hI₁ ?_ (hok.2 s₁ hstep) hrest habort
    have heq := Machine.step_checkForInterrupts hstep
    cases hk : (s.cores c).checkForInterrupts s.cr3Map with
    | error abort =>
      -- the check ran into an `assert`, so the simulation is over
      rw [Machine.call_of_error hk] at heq
      exact absurd habort (Machine.aborted_of_run hrest (by rw [heq]; exact nofun))
    | ok k =>
      have hcore : s₁.cores c = k := by
        rw [heq, Machine.call_of_ok hk]
        exact if_pos rfl
      rw [hcore]
      obtain ⟨-, hnil | ⟨hne, hless⟩⟩ := (hI c).checkForInterrupts hok.1 hk
      · exact .inl hnil
      · have hle := hq.resolve_left hne
        exact .inr (by omega)

/-- No ULI is stranded on the simple CPU, in runs whose checks meet `OneByOne`. In every state
reached the flag says that the queue is not empty, and then the CPU is told to stop. The nodes
that arrived are those that were invoked followed by those in the queue. A core that makes four
more checks than there are nodes in its queue, or more, has an empty queue: at most four interrupts
go before them. -/
theorem uli_not_stranded (tc : C → ThreadContext) (stage : C → CommitStage) (as : List (Act C))
    (s : Machine C)
    (hok : RunUnder Machine.step (fun s a => a.simpleCPU = true ∧ OneByOne s a)
      (Machine.initial tc stage) as)
    (hrun : run Machine.step (Machine.initial tc stage) as = some s) (c : C) :
    ((s.cores c).apic.pendingULI = true ↔ (s.cores c).apic.uliQueue ≠ []) ∧
    ((s.cores c).apic.pendingULI = true →
      (s.cores c).apic.checkInterrupts (s.cores c).tc = true) ∧
    (s.cores c).arrived = (s.cores c).invoked.map (·.node) ++ (s.cores c).apic.uliQueue ∧
    ∀ n s', 4 + (s.cores c).apic.uliQueue.length ≤ n →
      RunUnder Machine.step OneByOne s (List.replicate n (.checkForInterrupts c)) →
      run Machine.step s (List.replicate n (.checkForInterrupts c)) = some s' →
      s'.aborted = none → (s'.cores c).apic.uliQueue = [] := by
  have hI : ∀ d, (s.cores d).Delivered :=
    runUnder_induction delivered_step_simpleCPU as _ s (delivered_initial tc stage) hok hrun
  refine ⟨(hI c).pending, (hI c).flags.checkInterrupts, (hI c).order, ?_⟩
  intro n s' hn hok' hrun' habort
  have hfour := Interrupts.higherCount_le (i := (s.cores c).apic)
  exact queue_empty_of_checks c n s s' hI (.inr (by omega)) hok' hrun' habort

end

/-- Two ULIs of one process arrive before the check. -/
def burst : List (Act (Fin 2)) :=
  [.stackletSendi 0 0x401000 1 1, .stackletSendi 0 0x401000 2 1, .checkForInterrupts 1]

/-- The check clears the flag over the second node, and the CPU is not told to stop again. -/
theorem uli_stranded :
    ∃ s, run Machine.step (twoCores fun _ => 0x1000) burst = some s ∧
      (s.cores 1).apic.pendingULI = false ∧
      (s.cores 1).apic.uliQueue = [⟨0, 2, 0x401000, some 0x1000⟩] ∧
      (s.cores 1).apic.checkInterrupts (s.cores 1).tc = false := by
  exact exists_of_map_decide (by decide +kernel)

/-- A ULI, an NMI and a second ULI. The second ULI arrives while the NMI is pending. -/
def spaced : List (Act (Fin 2)) :=
  [.stackletSendi 0 0x401000 1 1, .checkForInterrupts 1,
    .requestInterrupt 1 2 .nmi false 0, .stackletSendi 0 0x401000 2 1, .checkForInterrupts 1]

/-- The second ULI waits behind the NMI, and the CPU is told to stop for it. -/
theorem uli_not_stranded_spaced :
    ∃ s, run Machine.step (twoCores fun _ => 0x1000) spaced = some s ∧
      (s.cores 1).apic.uliQueue = [⟨0, 2, 0x401000, some 0x1000⟩] ∧
      (s.cores 1).apic.checkInterrupts (s.cores 1).tc = true ∧
      (s.cores 1).arrived =
        (s.cores 1).invoked.map (·.node) ++ [⟨0, 2, 0x401000, some 0x1000⟩] := by
  have hok : RunUnder Machine.step (fun s a => a.simpleCPU = true ∧ OneByOne s a)
      (twoCores fun _ => 0x1000) spaced := by
    decide +kernel
  have h : (run Machine.step (twoCores fun _ => 0x1000) spaced).map (fun s =>
      ((s.cores 1).apic.uliQueue = [⟨0, 2, 0x401000, some 0x1000⟩] : Bool)) = some true := by
    decide +kernel
  obtain ⟨s, hrun, hs⟩ := Option.map_eq_some_iff.mp h
  have hq := of_decide_eq_true hs
  obtain ⟨hiff, hcheck, horder, _⟩ := uli_not_stranded _ _ spaced s hok hrun 1
  rw [hq] at horder
  exact ⟨s, hrun, hq, hcheck (hiff.mpr (by rw [hq]; exact List.cons_ne_nil _ _)), horder⟩

/-! ### The out-of-order CPU -/

section

variable {C : Type} [DecidableEq C]

/-- The actions of a machine of out-of-order CPUs. -/
def Act.o3CPU : Act C → Bool
  | .checkForInterrupts _ | .processInterrupts _ => false
  | _ => true

/-- The condition on the two halves of a check. `propagateInterrupt` calls `getInterrupt` only
while another interrupt is the most urgent. If `handleInterrupt` then finds a ULI, it is the
only one in the queue and the thread context passes the tests of `updateIntrInfo`. -/
def BetweenHalves (s : Machine C) : Act C → Prop
  | .propagateInterrupt c =>
    (s.cores c).propagates = true → (s.cores c).apic.takesULI = false
  | .handleInterrupt c =>
    (s.cores c).handles = true → (s.cores c).apic.takesULI = true →
      (s.cores c).apic.uliQueue.length ≤ 1 ∧ Interrupts.Accepts (s.cores c).tc s.cr3Map
  | _ => True

instance (s : Machine C) : ∀ a, Decidable (BetweenHalves s a)
  | .propagateInterrupt c =>
    inferInstanceAs (Decidable ((s.cores c).propagates = true → _ = false))
  | .handleInterrupt c =>
    inferInstanceAs
      (Decidable ((s.cores c).handles = true → (s.cores c).apic.takesULI = true → _ ∧ _))
  | .stackletSendi .. | .requestInterrupt .. | .checkForInterrupts _ | .processInterrupts _
  | .threadContext .. | .pipeline .. | .writeEOI _ | .writeTaskPriority .. => isTrue trivial

namespace Core

variable {k k' : Core} {cr3Map : UInt64 → Option UInt64}

/-- The first half takes no ULI out of the queue, by the condition. -/
theorem Delivered.propagateInterrupt (h : k.Delivered)
    (hcheck : k.apic.checkInterrupts k.tc = true)
    (hok : k.propagates = true → k.apic.takesULI = false) :
    ∃ k', k.propagateInterrupt = .ok k' ∧ k'.Delivered := by
  obtain ⟨k', heq, hsame | ⟨hgo, _, node, ht⟩⟩ := propagateInterrupt_cases h.flags hcheck
  · exact ⟨k', heq, h.same hsame⟩
  · exact absurd ((hok hgo).symm.trans ht.takes) Bool.false_ne_true

/-- What a check that finds a ULI pending brings about: an interrupt that goes first is cleared,
or the only node of the queue is handed to `ULI::invoke`. -/
def Advances (k k' : Core) : Prop :=
  k'.apic.higherCount < k.apic.higherCount ∨
    ∃ node, k.apic.uliQueue = [node] ∧ k'.apic.uliQueue = [] ∧
      k'.invoked = k.invoked ++ [⟨node, k.tc.cr3, k.tc.cs⟩]

/-- The second half: it leaves everything as it is, or it goes on to `processInterrupts`. Then it
advances if a ULI is pending. The only `assert` that can fail is the one of `ULI::invoke`, on a
node without a handler. -/
theorem Delivered.handleInterrupt (h : k.Delivered)
    (hok : k.handles = true → k.apic.takesULI = true →
      k.apic.uliQueue.length ≤ 1 ∧ Interrupts.Accepts k.tc cr3Map) :
    (∃ k', k.handleInterrupt cr3Map = .ok k' ∧ k'.Delivered ∧
      (k.handles = true → k.apic.pendingULI = true → k.Advances k')) ∨
      (k.handleInterrupt cr3Map = .error .uliInvoke ∧
        ∃ node ∈ k.apic.uliQueue, node.uliHandlerPc = 0) := by
  rcases handleInterrupt_cases cr3Map h.flags with ⟨k', heq, hsame, hno⟩ | ⟨hgo, hproc⟩
  · exact .inl ⟨k', heq, h.same hsame, fun hgo => absurd hgo hno⟩
  have hcheck : k.apic.checkInterrupts k.tc = true := (Bool.and_eq_true_iff.mp hgo).1
  rcases getAndProcess_cases cr3Map h.flags hcheck with
    ⟨k₁, heq, hsame, hother, hless⟩ | ⟨_, ht, hq⟩ | ⟨heq, hnull⟩ | ⟨k₁, node, heq, ht, hwhich⟩
  · rw [heq] at hproc
    rcases hproc with ⟨_, herr, _⟩ | ⟨_, hok₁, hres⟩
    · cases herr
    · cases hok₁
      refine .inl ⟨_, hres, h.same ⟨hsame.queue, hsame.pending, hsame.arrived, hsame.invoked,
        hsame.flags⟩, fun _ hpending => .inl (hless ?_)⟩
      -- the ULI was not the most urgent one
      rw [Interrupts.takesULI, hpending, Bool.true_and] at hother
      simpa using hother
  · -- the flag is never set over an empty queue
    exact absurd hq (h.pending.mp (Interrupts.pendingULI_of_takesULI ht))
  · rw [heq] at hproc
    rcases hproc with ⟨_, herr, hres⟩ | ⟨_, hok₁, _⟩
    · cases herr
      exact .inr ⟨hres, hnull⟩
    · cases hok₁
  · obtain ⟨hlen, haccept⟩ := hok hgo ht.takes
    have hempty := ht.queue_eq_nil hlen
    rw [heq] at hproc
    rcases hproc with ⟨_, herr, _⟩ | ⟨_, hok₁, hres⟩
    · cases herr
    · cases hok₁
      obtain ⟨_, hp, hinv⟩ | ⟨hrefuse, _⟩ := hwhich
      · refine .inl ⟨_, hres, h.deliver ⟨ht.takes, ht.queue, ht.arrived, ht.flags⟩ hinv ?_,
          fun _ _ => .inr ⟨node, by rw [ht.queue, hempty], hempty, hinv⟩⟩
        simp [hp, hempty]
      · exact absurd haccept hrefuse

end Core

/-- The invariant of the out-of-order machine. -/
structure Machine.O3Ok (s : Machine C) : Prop where
  delivered : ∀ c, (s.cores c).Delivered
  aborted : s.aborted ≠ some .processInterrupts

/-- A step of a machine of out-of-order CPUs under the condition. -/
theorem o3Ok_step (s : Machine C) (a : Act C) (s' : Machine C) (hI : s.O3Ok)
    (hok : a.o3CPU = true ∧ BetweenHalves s a) (h : s.step a = some s') : s'.O3Ok := by
  obtain ⟨hcpu, hok⟩ := hok
  cases a with
  | propagateInterrupt c =>
    obtain ⟨hcheck, rfl⟩ := Machine.step_propagateInterrupt h
    obtain ⟨k, heq, hk⟩ := (hI.delivered c).propagateInterrupt hcheck hok
    refine ⟨Machine.call_cores hI.delivered fun k' hk' => ?_,
      Machine.call_aborted hI.aborted (by rw [heq]; exact nofun)⟩
    rw [heq] at hk'
    cases hk'
    exact hk
  | handleInterrupt c =>
    have hs' := Machine.step_handleInterrupt h
    subst hs'
    rcases (hI.delivered c).handleInterrupt hok with ⟨k, heq, hk, -⟩ | ⟨herr, -⟩
    · refine ⟨Machine.call_cores hI.delivered fun k' hk' => ?_,
        Machine.call_aborted hI.aborted (by rw [heq]; exact nofun)⟩
      rw [heq] at hk'
      cases hk'
      exact hk
    -- it is `ULI::invoke` that aborts, on a node without a handler
    · refine ⟨Machine.call_cores hI.delivered fun k' hk' => ?_,
        Machine.call_aborted hI.aborted (by rw [herr]; exact nofun)⟩
      rw [herr] at hk'
      cases hk'
  | checkForInterrupts | processInterrupts => cases hcpu
  | stackletSendi | requestInterrupt | threadContext | pipeline | writeEOI | writeTaskPriority =>
    obtain ⟨hdel, hnone⟩ := Machine.delivered_of_not_check hI.delivered rfl h
    exact ⟨hdel, by rw [hnone]; exact nofun⟩

/-- A check that goes on to `processInterrupts` while a ULI is pending. -/
theorem Machine.O3Ok.advances {s s' : Machine C} {c : C} (hI : s.O3Ok)
    (hok : BetweenHalves s (.handleInterrupt c)) (h : s.step (.handleInterrupt c) = some s')
    (hgo : (s.cores c).handles = true) (hpending : (s.cores c).apic.pendingULI = true) :
    (s.cores c).Advances (s'.cores c) ∨ (s'.aborted = some .uliInvoke ∧
      ∃ node ∈ (s.cores c).apic.uliQueue, node.uliHandlerPc = 0) := by
  rw [Machine.step_handleInterrupt h]
  rcases (hI.delivered c).handleInterrupt hok with ⟨k, heq, -, hadvances⟩ | ⟨herr, hnull⟩
  · left
    have hcore : ((s.call c (·.handleInterrupt s.cr3Map)).cores c) = k := by
      rw [Machine.call_of_ok (f := (·.handleInterrupt s.cr3Map)) heq]
      exact if_pos rfl
    rw [hcore]
    exact hadvances hgo hpending
  · right
    rw [Machine.call_of_error (f := (·.handleInterrupt s.cr3Map)) herr]
    exact ⟨rfl, hnull⟩

/-- The out-of-order CPU delivers each ULI once, in runs whose steps meet `BetweenHalves`. In
every state reached the nodes that arrived are those that were invoked, in order, followed by
those in the queue, so no node that was taken out is lost. A node in the queue is announced by
the flag. The assertion of `processInterrupts` did not fail.

A node in the queue also gets its turn. A `handleInterrupt` that goes on to `processInterrupts`
while a ULI is pending clears one of the at most four interrupts that go first, or hands the node
to `ULI::invoke` and leaves the queue empty. The exception is a node with the handler 0, on which
`ULI::invoke` ends the simulation. -/
theorem uli_delivered_once (tc : C → ThreadContext) (stage : C → CommitStage)
    (as : List (Act C)) (s : Machine C)
    (hok : RunUnder Machine.step (fun s a => a.o3CPU = true ∧ BetweenHalves s a)
      (Machine.initial tc stage) as)
    (hrun : run Machine.step (Machine.initial tc stage) as = some s) :
    (∀ c, (s.cores c).arrived = (s.cores c).invoked.map (·.node) ++ (s.cores c).apic.uliQueue) ∧
    (∀ c, (s.cores c).apic.pendingULI = true ↔ (s.cores c).apic.uliQueue ≠ []) ∧
    s.aborted ≠ some .processInterrupts ∧
    ∀ c s', BetweenHalves s (.handleInterrupt c) → s.step (.handleInterrupt c) = some s' →
      (s.cores c).handles = true → (s.cores c).apic.pendingULI = true →
      (s.cores c).Advances (s'.cores c) ∨ (s'.aborted = some .uliInvoke ∧
        ∃ node ∈ (s.cores c).apic.uliQueue, node.uliHandlerPc = 0) := by
  have hI : s.O3Ok :=
    runUnder_induction o3Ok_step as _ s ⟨delivered_initial tc stage, nofun⟩ hok hrun
  exact ⟨fun c => (hI.delivered c).order, fun c => (hI.delivered c).pending, hI.aborted,
    fun c s' hcond hstep hgo hpending => hI.advances hcond hstep hgo hpending⟩

end

/-- One ULI arrives at an idle core, which then makes the two halves of a check. -/
def oneULI : List (Act (Fin 2)) :=
  [.stackletSendi 0 0x401000 1 1, .propagateInterrupt 1, .handleInterrupt 1]

/-- The first half takes the node out and the second half finds nothing. -/
theorem propagateInterrupt_drops :
    ∃ s, run Machine.step (twoCores fun _ => 0x1000) oneULI = some s ∧
      s.aborted = some .processInterrupts ∧ (s.cores 1).apic.uliQueue = [] ∧
      (s.cores 1).arrived = [⟨0, 1, 0x401000, some 0x1000⟩] ∧ (s.cores 1).invoked = [] := by
  exact exists_of_map_decide (by decide +kernel)

/-- The first half sees an external interrupt. The ULI arrives before the second half. -/
def afterExtInt : List (Act (Fin 2)) :=
  [.requestInterrupt 1 0x20 .extInt false 0, .propagateInterrupt 1,
    .stackletSendi 0 0x401000 1 1, .handleInterrupt 1]

/-- The ULI of `afterExtInt` is pending behind the first three steps, and the fourth one hands it
to `ULI::invoke`. -/
theorem uli_delivered_once_afterExtInt :
    ∃ s s', run Machine.step (twoCores fun _ => 0x1000) (afterExtInt.take 3) = some s ∧
      s.step (.handleInterrupt 1) = some s' ∧ (s.cores 1).Advances (s'.cores 1) ∧
      (s.cores 1).apic.uliQueue = [⟨0, 1, 0x401000, some 0x1000⟩] ∧
      (s.cores 1).arrived = [⟨0, 1, 0x401000, some 0x1000⟩] ∧
      (s'.cores 1).invoked = [⟨⟨0, 1, 0x401000, some 0x1000⟩, 0x1000, 0x33⟩] ∧
      s.aborted ≠ some .processInterrupts := by
  have hok : RunUnder Machine.step (fun s a => a.o3CPU = true ∧ BetweenHalves s a)
      (twoCores fun _ => 0x1000) (afterExtInt.take 3) := by
    decide +kernel
  have h : ((run Machine.step (twoCores fun _ => 0x1000) (afterExtInt.take 3)).bind fun s =>
      (s.step (.handleInterrupt 1)).map fun s' =>
        (BetweenHalves s (.handleInterrupt 1) ∧ (s.cores 1).handles = true ∧
          (s.cores 1).apic.pendingULI = true ∧ s'.aborted = none ∧
          (s.cores 1).apic.uliQueue = [⟨0, 1, 0x401000, some 0x1000⟩] ∧
          (s.cores 1).invoked = [] ∧
          (s'.cores 1).invoked = [⟨⟨0, 1, 0x401000, some 0x1000⟩, 0x1000, 0x33⟩] : Bool)) =
        some true := by
    decide +kernel
  obtain ⟨s, hrun, h⟩ := Option.bind_eq_some_iff.mp h
  obtain ⟨s', hstep, hs⟩ := Option.map_eq_some_iff.mp h
  obtain ⟨hcond, hgo, hpending, hnone, hqueue, hinv, hinv'⟩ := of_decide_eq_true hs
  obtain ⟨horder, _, habort, hadvances⟩ := uli_delivered_once _ _ (afterExtInt.take 3) s hok hrun
  have harrived := horder 1
  rw [hinv, hqueue] at harrived
  refine ⟨s, s', hrun, hstep, ?_, hqueue, harrived, hinv', habort⟩
  refine (hadvances 1 s' hcond hstep hgo hpending).resolve_right fun herr => ?_
  rw [hnone] at herr
  cases herr.1

end Stacklets.Gem5

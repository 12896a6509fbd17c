import Stacklets.Gem5.Machine

/-!
# `Stacklets.Gem5.Isolation`: user-level interrupts and processes

A process is told by its `CR3`. An interrupt that process A sends should not run its handler in
process B. The controller has two things to decide with: the queue of the core, whose nodes do
not say who sent them, and `cr3Map`, which says which `CR3` values ever sent a ULI.

`uli_isolation` proves that this is enough as long as one process sends. With two senders the
test of `updateIntrInfo` passes in the process that happens to run, and it runs the handler of
the other one (`uli_crosses_processes`).
-/

set_option autoImplicit false

namespace Stacklets.Gem5

open Lib

section

variable {C : Type} [DecidableEq C]

/-- The actions of a machine whose CPUs call `ULI::invoke` only if `updateIntrInfo` did not
refuse. -/
def Act.guarded : Act C → Bool
  | .checkForInterrupts _ => false
  | _ => true

/-- All sends are made by threads of the process with `CR3` equal to `p`. This is enough for
isolation and not the least that is needed: two processes that send only to cores which never run
the other one do not get each other's handlers either. -/
def SentBy (p : UInt64) (s : Machine C) : Act C → Prop
  | .stackletSendi c _ _ _ => (s.cores c).tc.cr3 = p
  | _ => True

instance (p : UInt64) (s : Machine C) : ∀ a, Decidable (SentBy p s a)
  | .stackletSendi c _ _ _ => inferInstanceAs (Decidable ((s.cores c).tc.cr3 = p))
  | .requestInterrupt .. | .checkForInterrupts _ | .processInterrupts _ | .propagateInterrupt _
  | .handleInterrupt _ | .threadContext .. | .pipeline .. | .writeEOI _
  | .writeTaskPriority .. => isTrue trivial

/-- The invariant of one core when only process `p` sends: what is queued was sent by `p`, and
what was invoked ran in its sender's process in user mode. -/
structure Core.Isolated (p : UInt64) (k : Core) : Prop where
  flags : k.apic.FlagsOk
  queue : ∀ node ∈ k.apic.uliQueue, ∀ a, node.sender = some a → a = p
  invoked : ∀ r ∈ k.invoked, ∀ a, r.node.sender = some a → r.cr3 = a ∧ r.cs ≠ kernelCS

namespace Core

variable {k k' : Core} {p : UInt64} {cr3Map : UInt64 → Option UInt64}

theorem Isolated.same (h : k.Isolated p) (hs : k.Same k') : k'.Isolated p where
  flags := hs.flags
  queue := by rw [hs.queue]; exact h.queue
  invoked := by rw [hs.invoked]; exact h.invoked

/-- A node that leaves the queue without being invoked. -/
theorem Isolated.drop {node : UliNode} (h : k.Isolated p) (ht : k.Takes k' node)
    (hinv : k'.invoked = k.invoked) : k'.Isolated p where
  flags := ht.flags
  queue := fun n hn => h.queue n (by rw [ht.queue]; exact List.mem_cons_of_mem _ hn)
  invoked := by rw [hinv]; exact h.invoked

/-- A node that is invoked while the thread context passes the tests. Its sender is `p`, and so
is every key of `cr3Map`. -/
theorem Isolated.invoke {node : UliNode} (h : k.Isolated p) (ht : k.Takes k' node)
    (hkeys : ∀ a, (cr3Map a).isSome → a = p) (haccept : Interrupts.Accepts k.tc cr3Map)
    (hinv : k'.invoked = k.invoked ++ [⟨node, k.tc.cr3, k.tc.cs⟩]) : k'.Isolated p where
  flags := ht.flags
  queue := fun n hn => h.queue n (by rw [ht.queue]; exact List.mem_cons_of_mem _ hn)
  invoked := by
    intro r hr a ha
    rw [hinv] at hr
    rcases List.mem_append.mp hr with hold | hnew
    · exact h.invoked r hold a ha
    · rw [List.mem_singleton.mp hnew] at ha ⊢
      have hsender : a = p := h.queue node (by rw [ht.queue]; exact List.mem_cons_self) a ha
      exact ⟨(hkeys _ haccept.1).trans hsender.symm, haccept.2⟩

theorem Isolated.requestInterrupt (h : k.Isolated p) {msgMap : UInt64 → StackletMessage}
    (hmsg : ∀ key a, (msgMap key).sender = some a → a = p)
    (vector : UInt8) (mode : DeliveryMode) (level : Bool) (key : UInt32) :
    (k.requestInterrupt msgMap vector mode level key).Isolated p := by
  by_cases hm : mode = .uli
  · subst hm
    refine ⟨h.flags.requestInterrupt, fun node hnode a ha => ?_, h.invoked⟩
    rcases List.mem_append.mp hnode with hold | hnew
    · exact h.queue node hold a ha
    · rw [List.mem_singleton.mp hnew] at ha
      exact hmsg _ a ha
  · obtain ⟨hq, hp⟩ := Interrupts.requestInterrupt_other hm
    exact h.same ⟨hq, hp, if_neg hm, rfl, h.flags.requestInterrupt⟩

theorem Isolated.getAndProcess (h : k.Isolated p) (hkeys : ∀ a, (cr3Map a).isSome → a = p)
    (hcheck : k.apic.checkInterrupts k.tc = true) (hk : k.getAndProcess cr3Map = .ok k') :
    k'.Isolated p := by
  rcases getAndProcess_cases cr3Map h.flags hcheck with
    ⟨k₁, heq, hsame, _⟩ | ⟨heq, _, _⟩ | ⟨heq, _⟩ | ⟨k₁, node, heq, ht, hwhich⟩
  · rw [heq] at hk
    cases hk
    exact h.same hsame
  · rw [heq] at hk
    cases hk
  · rw [heq] at hk
    cases hk
  · rw [heq] at hk
    cases hk
    rcases hwhich with ⟨haccept, _, hinv⟩ | ⟨_, hinv⟩
    · exact h.invoke ht hkeys haccept hinv
    · exact h.drop ht hinv

theorem Isolated.handleInterrupt (h : k.Isolated p) (hkeys : ∀ a, (cr3Map a).isSome → a = p)
    (hk : k.handleInterrupt cr3Map = .ok k') : k'.Isolated p := by
  rcases handleInterrupt_cases cr3Map h.flags with
    ⟨k₁, heq, hsame, -⟩ | ⟨hgo, ⟨_, _, herr⟩ | ⟨k₁, hproc, heq⟩⟩
  · rw [heq] at hk
    cases hk
    exact h.same hsame
  · rw [herr] at hk
    cases hk
  · rw [heq] at hk
    cases hk
    have hk₁ := h.getAndProcess hkeys (Bool.and_eq_true_iff.mp hgo).1 hproc
    exact ⟨hk₁.flags, hk₁.queue, hk₁.invoked⟩

end Core

/-- The invariant of the machine when only process `p` sends. -/
structure Machine.IsolatedOk (p : UInt64) (s : Machine C) : Prop where
  cores : ∀ c, (s.cores c).Isolated p
  keys : ∀ a, (s.cr3Map a).isSome → a = p
  messages : ∀ key a, (s.msgMap key).sender = some a → a = p

namespace Machine

variable {p : UInt64} {s : Machine C}

/-- A call that keeps the invariant of its core keeps the invariant of the machine. -/
theorem IsolatedOk.call {c : C} {f : Core → Except Abort Core} (h : s.IsolatedOk p)
    (hf : ∀ k, f (s.cores c) = .ok k → k.Isolated p) : (s.call c f).IsolatedOk p where
  cores := call_cores h.cores hf
  keys := by rw [call_cr3Map]; exact h.keys
  messages := by rw [call_msgMap]; exact h.messages

omit [DecidableEq C] in
/-- A send by process `p` adds `p` to `cr3Map` and a message of `p` to the message map. -/
theorem IsolatedOk.recordMessage {c : C} (h : s.IsolatedOk p) (hc : (s.cores c).tc.cr3 = p)
    (callback arg : UInt64) : (s.recordMessage c callback arg).IsolatedOk p where
  cores := h.cores
  keys := by
    intro a ha
    simp only [Machine.recordMessage] at ha
    split at ha
    · next heq => exact heq.trans hc
    · exact h.keys a ha
  messages := by
    intro key a ha
    simp only [Machine.recordMessage] at ha
    split at ha
    · exact (Option.some.inj ha).symm.trans hc
    · exact h.messages key a ha

end Machine

theorem isolatedOk_step (p : UInt64) (s : Machine C) (a : Act C) (s' : Machine C)
    (hI : s.IsolatedOk p) (hok : a.guarded = true ∧ SentBy p s a) (h : s.step a = some s') :
    s'.IsolatedOk p := by
  obtain ⟨hguard, hok⟩ := hok
  obtain ⟨hnone, hperform⟩ := Machine.perform_of_step h
  cases a with
  | checkForInterrupts => cases hguard
  | stackletSendi c callback arg destCpu =>
    cases hperform
    -- the message is recorded with its sender before the interrupt is requested
    have hsent := hI.recordMessage hok callback arg
    unfold Machine.stackletSendi
    refine hsent.call ?_
    rintro k ⟨⟩
    exact (hsent.cores destCpu).requestInterrupt hsent.messages ..
  | requestInterrupt c vector mode level key =>
    cases hperform
    refine hI.call ?_
    rintro k ⟨⟩
    exact (hI.cores c).requestInterrupt hI.messages ..
  | processInterrupts c =>
    obtain ⟨hcheck, rfl⟩ := Machine.step_processInterrupts h
    exact hI.call fun k hk => (hI.cores c).getAndProcess hI.keys hcheck hk
  | propagateInterrupt c =>
    obtain ⟨hcheck, rfl⟩ := Machine.step_propagateInterrupt h
    refine hI.call fun k hk => ?_
    obtain ⟨k', heq, hsame | ⟨_, hinv, node, ht⟩⟩ :=
      Core.propagateInterrupt_cases (hI.cores c).flags hcheck
    · rw [heq] at hk
      cases hk
      exact (hI.cores c).same hsame
    · rw [heq] at hk
      cases hk
      exact (hI.cores c).drop ht hinv
  | handleInterrupt c =>
    rw [Machine.step_handleInterrupt h]
    exact hI.call fun k hk => (hI.cores c).handleInterrupt hI.keys hk
  | threadContext c tc | pipeline c stage | writeEOI c | writeTaskPriority c value =>
    cases hperform
    refine hI.call ?_
    rintro k ⟨⟩
    exact (hI.cores c).same ⟨rfl, rfl, rfl, rfl, (hI.cores c).flags⟩

/-- A ULI runs its handler only in the process that sent it and not in kernel mode, in runs
whose sends are all made by one process. -/
theorem uli_isolation (p : UInt64) (tc : C → ThreadContext) (stage : C → CommitStage)
    (as : List (Act C)) (s : Machine C)
    (hok : RunUnder Machine.step (fun s a => a.guarded = true ∧ SentBy p s a)
      (Machine.initial tc stage) as)
    (hrun : run Machine.step (Machine.initial tc stage) as = some s) (c : C) (r : Invocation)
    (hr : r ∈ (s.cores c).invoked) (a : UInt64) (ha : r.node.sender = some a) :
    r.cr3 = a ∧ r.cs ≠ kernelCS := by
  have hinit : (Machine.initial tc stage).IsolatedOk p :=
    ⟨fun _ => ⟨rfl, nofun, nofun⟩, nofun, nofun⟩
  exact ((runUnder_induction (isolatedOk_step p) as _ s hinit hok hrun).cores c).invoked r hr a ha

end

/-- Core 0 runs the process with `CR3` equal to `0x1000`, core 1 the one with `0x2000`. -/
def twoProcesses : Machine (Fin 2) := twoCores fun c => if c = 0 then 0x1000 else 0x2000

/-- The two processes send each other a ULI. The one on core 1 then finds that of the other. -/
def crossed : List (Act (Fin 2)) :=
  [.stackletSendi 1 0x402000 2 0, .stackletSendi 0 0x401000 1 1, .processInterrupts 1]

/-- The handler of process `0x1000` runs in process `0x2000`. -/
theorem uli_crosses_processes :
    RunUnder Machine.step (fun _ a => a.guarded = true) twoProcesses crossed ∧
    ∃ s, run Machine.step twoProcesses crossed = some s ∧
      (s.cores 1).invoked = [⟨⟨0, 1, 0x401000, some 0x1000⟩, 0x2000, 0x33⟩] := by
  refine ⟨by decide +kernel, ?_⟩
  exact exists_of_map_decide (by decide +kernel)

/-- Process `0x1000` sends to itself on core 1. A ULI that arrives while core 1 runs the other
process is refused. -/
def switched : List (Act (Fin 2)) :=
  [.stackletSendi 0 0x401000 1 1, .processInterrupts 1, .threadContext 1 (userContext 0x2000),
    .stackletSendi 0 0x401000 2 1, .processInterrupts 1]

theorem uli_isolation_switched :
    ∃ s, run Machine.step (twoCores fun _ => 0x1000) switched = some s ∧
      ∃ r ∈ (s.cores 1).invoked, r.node.sender = some 0x1000 ∧ r.cr3 = 0x1000 ∧
        r.cs ≠ kernelCS := by
  have hok : RunUnder Machine.step (fun s a => a.guarded = true ∧ SentBy 0x1000 s a)
      (twoCores fun _ => 0x1000) switched := by
    decide +kernel
  have h : (run Machine.step (twoCores fun _ => 0x1000) switched).map (fun s =>
      ((s.cores 1).invoked = [⟨⟨0, 1, 0x401000, some 0x1000⟩, 0x1000, 0x33⟩] : Bool)) =
        some true := by
    decide +kernel
  obtain ⟨s, hrun, hs⟩ := Option.map_eq_some_iff.mp h
  have hmem : (⟨⟨0, 1, 0x401000, some 0x1000⟩, 0x1000, 0x33⟩ : Invocation) ∈
      (s.cores 1).invoked := by
    rw [of_decide_eq_true hs]
    exact List.mem_singleton_self _
  exact ⟨s, hrun, _, hmem, rfl, uli_isolation 0x1000 _ _ switched s hok hrun 1 _ hmem 0x1000 rfl⟩

end Stacklets.Gem5

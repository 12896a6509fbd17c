import Stacklets.Messages.Cores
import Stacklets.Messages.Memory
import Stacklets.Util.Numerals

/-!
# `Stacklets.Messages.Delivery`: every message is delivered once, in order and when enabled

`Inv` says that the queues lie in memory as `MemoryOk` asks for, and that `CoreOk` holds of every
core with the messages of its queue. Every step keeps it: a step of one core changes nothing that
`CoreOk` says of another one, but for a message that it sends there.

`messages_delivered` is the main result. That the body of a critical section can be taken as one
step is the subject of `Stacklets.Messages.Sections`.
-/

set_option autoImplicit false

namespace Stacklets.Messages

open Function (update update_self update_of_ne update_eq_self)
open Lib
open Uli (Masked not_masked_eui)

section
variable {C N M : Type*}

/-- The node that an `enqueue` has allocated and not yet linked. -/
def newNode : List (Frame C N M) → Option N
  | .send _ _ (.lock n) :: _ => some n
  | .send _ _ (.link n) :: _ => some n
  | _ => none

/-- A running program or callback is not inside an `enqueue`. -/
theorem newNode_of_running {fs : List (Frame C N M)} (h : Running fs) : newNode fs = none := by
  match fs, h with
  | [], _ => rfl
  | .callback _ _ :: _, _ => rfl

/-- `CoreOk` of the core `c`. -/
def State.CoreOk (s : State C N M) (nodes : C → List N) (c : C) : Prop :=
  Messages.CoreOk (s.frames c) (s.flags c) (s.sent c) (s.started c) (s.finished c)
    (messages s.heap (nodes c))

/-- What holds in every state. -/
structure Inv (s : State C N M) (nodes : C → List N) : Prop where
  memory : MemoryOk s.heap s.msgBufs (fun c => newNode (s.frames c)) nodes
  cores : ∀ c, s.CoreOk nodes c
  noNullDelete : s.nullDelete = false

variable {s s' : State C N M} {nodes : C → List N} {c : C} {fs : List (Frame C N M)}

/-- No core has done anything yet. -/
theorem inv_initial (contents : N → Node N M) : Inv (initial C contents) fun _ => [] where
  memory := memoryOk_initial _
  cores _ := coreOk_initial
  noNullDelete := rfl

/-- The invariant does not speak of the locks. -/
theorem Inv.setLocks (h : Inv s nodes) (locks : C → Option C) : Inv { s with locks } nodes :=
  ⟨h.memory, h.cores, h.noNullDelete⟩

variable [DecidableEq C]

/-- Only the allocation of the core that moves changes. -/
theorem newNode_update (fs : List (Frame C N M)) :
    (fun d => newNode (update s.frames c fs d)) =
      update (fun d => newNode (s.frames d)) c (newNode fs) := by
  funext d
  by_cases hd : d = c
  · subst hd
    rw [update_self, update_self]
  · rw [update_of_ne hd, update_of_ne hd]

/-- A step of `c` that does not write to the queues. It moves the topmost activity, and may change
the flag and the records of `c`. -/
theorem Inv.quiet {flags : BitVec 32} {started : List M} {finished : List Nat} (h : Inv s nodes)
    (hc : Messages.CoreOk fs flags (s.sent c) started finished (messages s.heap (nodes c)))
    (hnew : ∀ n, newNode fs = some n → newNode (s.frames c) = some n)
    (hs' : s' = { s with
      frames := update s.frames c fs
      flags := update s.flags c flags
      started := update s.started c started
      finished := update s.finished c finished }) : Inv s' nodes := by
  subst hs'
  refine ⟨?_, fun d => ?_, h.noNullDelete⟩
  · rw [newNode_update]
    refine h.memory.mono fun d n hn => ?_
    by_cases hd : d = c
    · subst hd
      rw [update_self] at hn
      exact hnew n hn
    · rwa [update_of_ne hd] at hn
  · unfold State.CoreOk
    by_cases hd : d = c
    · subst hd
      simpa only [update_self] using hc
    · simp only [update_of_ne hd]
      exact h.cores d

/-- A step of `c` that only moves its topmost activity. -/
theorem Inv.goto (h : Inv s nodes)
    (hc : Messages.CoreOk fs (s.flags c) (s.sent c) (s.started c) (s.finished c)
      (messages s.heap (nodes c)))
    (hnew : ∀ n, newNode fs = some n → newNode (s.frames c) = some n) :
    Inv (s.setFrames c fs) nodes := by
  refine h.quiet hc hnew ?_
  simp only [State.setFrames, update_eq_self]

/-! ### The steps that write to the queues -/

variable [DecidableEq N] {n : N} {t : C} {msg : M}

/-- `malloc` returns a node that is in no queue and in no other `enqueue`. -/
theorem inv_malloc (h : Inv s nodes) (hf : s.frames c = .send t msg .malloc :: fs)
    (hn : (s.heap n).live = false) :
    Inv ((s.alloc n).setFrames c (.send t msg (.lock n) :: fs)) nodes := by
  refine ⟨?_, fun d => ?_, h.noNullDelete⟩
  · show MemoryOk _ _ (fun d => newNode (update s.frames c _ d)) _
    rw [newNode_update]
    exact h.memory.malloc hn
  · unfold State.CoreOk
    simp only [State.setFrames, State.alloc, messages_malloc]
    by_cases hd : d = c
    · subst hd
      rw [update_self]
      have hcore := h.cores d
      unfold State.CoreOk at hcore
      rw [hf] at hcore
      exact hcore.send_move
    · rw [update_of_ne hd]
      exact h.cores d

/-- `enqueue` by the core `c` on the queue of `t`, which can be the same core. -/
theorem inv_link (h : Inv s nodes) (hf : s.frames c = .send t msg (.link n) :: fs) :
    Inv ((s.link t msg n).setFrames c (.send t msg .unlock :: fs))
      (update nodes t (nodes t ++ [n])) := by
  have hnew : newNode (s.frames c) = some n := by
    rw [hf]
    rfl
  have hfresh := h.memory.newFresh c n hnew
  -- the target receives the message, the other cores see nothing
  have hlink : ∀ d, (s.link t msg n).CoreOk (update nodes t (nodes t ++ [n])) d =
      Messages.CoreOk (s.frames d) (s.flags d) (update s.sent t (s.sent t ++ [msg]) d)
        (s.started d) (s.finished d)
        (update (fun e => messages s.heap (nodes e)) t (messages s.heap (nodes t) ++ [msg])
          d) := by
    intro d
    unfold State.CoreOk
    by_cases hd : d = t
    · subst hd
      simp only [State.link, update_self, messages_enqueue_append (hfresh d)]
    · simp only [State.link, update_of_ne hd, messages_enqueue (hfresh d)]
  have hcores : ∀ d, (s.link t msg n).CoreOk (update nodes t (nodes t ++ [n])) d := by
    intro d
    rw [hlink d]
    by_cases hd : d = t
    · subst hd
      rw [update_self, update_self]
      exact (h.cores d).receive
    · rw [update_of_ne hd, update_of_ne hd]
      exact h.cores d
  refine ⟨?_, fun d => ?_, h.noNullDelete⟩
  · show MemoryOk _ _ (fun d => newNode (update s.frames c _ d)) _
    rw [newNode_update]
    exact h.memory.enqueue hnew
  · have hcore := hcores d
    unfold State.CoreOk at hcore ⊢
    by_cases hd : d = c
    · subst hd
      rw [show (s.link t msg n).frames d = _ from hf] at hcore
      simp only [State.setFrames, update_self]
      exact hcore.send_move
    · simp only [State.setFrames, update_of_ne hd]
      exact hcore

/-- `dequeue` by the core `c`, whose queue is not empty. -/
theorem inv_dequeue (h : Inv s nodes) (hf : s.frames c = .handler .dequeueDelete :: fs)
    (hs' : handlerStep s c fs .dequeueDelete = some s') : ∃ nodes', Inv s' nodes' := by
  have hcore := h.cores c
  unfold State.CoreOk at hcore
  rw [hf] at hcore
  cases hl : nodes c with
  | nil =>
    rw [hl] at hcore
    exact absurd rfl (hcore.waiting trivial)
  | cons n l =>
    have hrep : (s.msgBufs c).Represents s.heap (n :: l) := hl ▸ h.memory.represents c
    have hnl : n ∉ l := (List.nodup_cons.mp hrep.nodup).1
    have hmemory := h.memory.dequeue hl (represents_dequeue hrep)
    unfold handlerStep at hs'
    rw [dequeue_eq hrep] at hs'
    cases hs'
    refine ⟨update nodes c l, ?_, fun d => ?_, h.noNullDelete⟩
    · show MemoryOk _ _ (fun d => newNode (update s.frames c _ d)) _
      rw [newNode_update]
      refine hmemory.mono fun d y hy => ?_
      by_cases hd : d = c
      · rw [hd, update_self] at hy
        cases hy
      · rwa [update_of_ne hd] at hy
    · unfold State.CoreOk
      by_cases hd : d = c
      · subst hd
        simp only [State.setFrames, State.setQueue, update_self, messages_dequeued hnl]
        rw [hl] at hcore
        exact hcore.handler_dequeue
      · have hnd : n ∉ nodes d := h.memory.disjoint c d (Ne.symm hd) n (hl ▸ List.mem_cons_self)
        simp only [State.setFrames, State.setQueue, update_of_ne hd,
          messages_dequeued hnd]
        exact h.cores d

/-! ### Every step keeps the invariant -/

omit [DecidableEq C] [DecidableEq N] in
/-- The invariant of a core whose activities are known. -/
theorem Inv.core (h : Inv s nodes) {fs : List (Frame C N M)} (hf : s.frames c = fs) :
    Messages.CoreOk fs (s.flags c) (s.sent c) (s.started c) (s.finished c)
      (messages s.heap (nodes c)) :=
  hf ▸ h.cores c

omit [DecidableEq C] [DecidableEq N] in
/-- `q->tail` is `NULL` when the queue is empty. -/
theorem Inv.tail_eq_none_iff (h : Inv s nodes) :
    decide ((s.msgBufs c).tail = none) = true ↔ messages s.heap (nodes c) = [] := by
  rw [decide_eq_true_iff, IsDList.back_eq_none_iff (h.memory.represents c), messages,
    List.map_eq_nil_iff]

/-- Every step of the loop in `i_handler` keeps the invariant. -/
theorem inv_handler {pc : HandlerPC M} (h : Inv s nodes) (hf : s.frames c = .handler pc :: fs)
    (hs' : handlerStep s c fs pc = some s') : ∃ nodes', Inv s' nodes' := by
  have hcore := h.core hf
  cases pc with
  | emptyLock =>
    obtain ⟨_, hs'⟩ := Option.ite_none_right_eq_some.mp hs'
    cases hs'
    exact ⟨nodes, (h.setLocks _).goto (hcore.handler_move rfl nofun nofun trivial) nofun⟩
  | emptyRead =>
    cases hs'
    -- the test reads the tail, which is there when a message is
    exact ⟨nodes, h.goto (hcore.handler_test h.tail_eq_none_iff) nofun⟩
  | emptyUnlock empty k =>
    cases empty with
    | true =>
      cases hs'
      have hnew := newNode_of_running (Suspended.running hcore.stack)
      exact ⟨nodes, (h.setLocks _).goto hcore.handler_leave (by rw [hnew]; nofun)⟩
    | false =>
      cases hs'
      refine ⟨nodes, (h.setLocks _).goto (hcore.handler_move rfl nofun ?_ trivial) nofun⟩
      exact fun _ => hcore.waiting trivial
  | dequeueLock =>
    obtain ⟨_, hs'⟩ := Option.ite_none_right_eq_some.mp hs'
    cases hs'
    refine ⟨nodes, (h.setLocks _).goto (hcore.handler_move rfl nofun ?_ trivial) nofun⟩
    exact fun _ => hcore.waiting trivial
  | dequeueDelete => exact inv_dequeue h hf hs'
  | dequeueUnlock msg =>
    cases hs'
    exact ⟨nodes, (h.setLocks _).goto (hcore.handler_move rfl nofun nofun hcore.noNull) nofun⟩
  | call msg =>
    cases msg with
    | none => cases hs'
    | some msg =>
      cases hs'
      refine ⟨nodes, h.quiet hcore.handler_call nofun ?_⟩
      simp only [State.setFrames, State.start, update_eq_self]

/-- Every step of a `SENDI` keeps the invariant. -/
theorem inv_send {pc : SendPC N} (h : Inv s nodes) (hf : s.frames c = .send t msg pc :: fs)
    (hs' : sendStep s c t msg fs pc = some s') : ∃ nodes', Inv s' nodes' := by
  have hcore := h.core hf
  cases pc with
  | malloc => cases hs'
  | lock n =>
    obtain ⟨_, hs'⟩ := Option.ite_none_right_eq_some.mp hs'
    cases hs'
    refine ⟨nodes, (h.setLocks _).goto hcore.send_move fun y hy => ?_⟩
    show newNode (s.frames c) = some y
    rw [hf]
    exact hy
  | link n =>
    cases hs'
    exact ⟨_, inv_link h hf⟩
  | unlock =>
    cases hs'
    have hnew := newNode_of_running (Suspended.running hcore.stack)
    exact ⟨nodes, (h.setLocks _).goto hcore.send_leave (by rw [hnew]; nofun)⟩

/-- Every step of a topmost activity keeps the invariant. -/
theorem inv_frame {f : Frame C N M} (h : Inv s nodes) (hf : s.frames c = f :: fs)
    (hs' : frameStep s c fs f = some s') : ∃ nodes', Inv s' nodes' := by
  have hcore := h.core hf
  cases f with
  | poll =>
    rw [frameStep_poll] at hs'
    by_cases hm : Masked (s.flags c)
    · rw [if_pos hm] at hs'
      cases hs'
      have hnew := newNode_of_running (Suspended.running hcore.stack)
      exact ⟨nodes, h.goto hcore.poll_masked (by rw [hnew]; nofun)⟩
    · rw [if_neg hm] at hs'
      cases hs'
      exact ⟨nodes, h.goto (hcore.poll_clear hm) nofun⟩
  | handler pc => exact inv_handler h hf hs'
  | callback i depth => cases hs'
  | send t msg pc => exact inv_send h hf hs'

omit [DecidableEq N] in
/-- `dui` masks the program or callback that calls it. -/
theorem inv_dui {flag : BitVec 32} (h : Inv s nodes)
    (hs' : duiStep s c flag (s.frames c) = some s') : Inv s' nodes := by
  match hf : s.frames c with
  | [] =>
    rw [hf] at hs'
    cases hs'
    refine h.quiet ((h.core hf).program_move (Uli.dui (s.flags c) flag)) nofun ?_
    rw [← hf]
    simp only [State.setFlags, update_eq_self]
  | .callback i depth :: fs =>
    rw [hf] at hs'
    obtain ⟨_, hs'⟩ := Option.ite_none_right_eq_some.mp hs'
    cases hs'
    have hmove := (h.core hf).callback_move (depth + 1) (Uli.dui (s.flags c) flag) nofun
    refine h.quiet hmove nofun ?_
    simp only [State.setFrames, State.setFlags, update_eq_self]
  | .poll :: _ | .handler _ :: _ | .send _ _ _ :: _ =>
    rw [hf] at hs'
    cases hs'

omit [DecidableEq N] in
/-- `eui` clears the flag when the last open `dui` is closed, and then polls. -/
theorem inv_eui {flag : BitVec 32} (h : Inv s nodes)
    (hs' : euiStep s c flag (s.frames c) = some s') : Inv s' nodes := by
  match hf : s.frames c with
  | [] =>
    rw [hf] at hs'
    cases hs'
    have hmove := (h.core hf).program_move (Uli.eui (s.flags c) flag)
    refine h.quiet (hmove.enter trivial (Or.inl rfl)) nofun ?_
    simp only [State.setFrames, State.setFlags, update_eq_self]
  | .callback i (depth + 1) :: fs =>
    rw [hf] at hs'
    obtain ⟨rfl, hs'⟩ := Option.ite_none_right_eq_some.mp hs'
    cases hs'
    -- The flag is clear whether or not other `dui`s are open.
    have hmove := (h.core hf).callback_move depth _ fun _ => not_masked_eui (s.flags c)
    refine h.quiet (hmove.enter trivial (Or.inl rfl)) nofun ?_
    simp only [State.setFrames, State.setFlags, update_eq_self]
  | .callback _ 0 :: _ | .poll :: _ | .handler _ :: _ | .send _ _ _ :: _ =>
    rw [hf] at hs'
    cases hs'

/-- Whatever a core does keeps the invariant. -/
theorem inv_perform {a : Action C N M} (h : Inv s nodes) (hs' : perform s a = some s') :
    ∃ nodes', Inv s' nodes' := by
  cases a with
  | step c =>
    simp only [perform] at hs'
    split at hs'
    next f fs hf => exact inv_frame h hf hs'
    next => cases hs'
  | malloc c n =>
    simp only [perform] at hs'
    split at hs'
    next t msg fs hf =>
      obtain ⟨hn, hs'⟩ := Option.ite_none_left_eq_some.mp hs'
      cases hs'
      exact ⟨nodes, inv_malloc h hf (Bool.eq_false_iff.mpr hn)⟩
    next => cases hs'
  | sendI c msg t =>
    obtain ⟨hrun, hs'⟩ := Option.ite_none_right_eq_some.mp hs'
    cases hs'
    exact ⟨nodes, h.goto ((h.core rfl).enter hrun (Or.inr ⟨t, msg, .malloc, rfl⟩)) nofun⟩
  | poll c =>
    obtain ⟨hrun, hs'⟩ := Option.ite_none_right_eq_some.mp hs'
    cases hs'
    exact ⟨nodes, h.goto ((h.core rfl).enter hrun (Or.inl rfl)) nofun⟩
  | dui c flag => exact ⟨nodes, inv_dui h hs'⟩
  | eui c flag => exact ⟨nodes, inv_eui h hs'⟩
  | ret c =>
    simp only [perform] at hs'
    split at hs'
    next i fs hf =>
      cases hs'
      -- a callback returns into the loop that called it
      have hcore := (h.core hf).callback_ret
      refine ⟨nodes, h.quiet hcore (fun n hn => ?_) ?_⟩
      · match fs, hcore.stack, (h.core hf).stack with
        | .handler .emptyLock :: _, _, _ => cases hn
      · simp only [State.setFrames, State.finish, update_eq_self]
    next => cases hs'

/-- A step is an action of a core, so it keeps the invariant. -/
theorem inv_step {a : Action C N M} (h : Inv s nodes) (hs' : step s a = some s') :
    ∃ nodes', Inv s' nodes' := by
  unfold step at hs'
  rw [h.noNullDelete] at hs'
  exact inv_perform h hs'

/-- The invariant holds after every run. -/
theorem inv_run {contents : N → Node N M} {as : List (Action C N M)}
    (hrun : run step (initial C contents) as = some s) : ∃ nodes, Inv s nodes :=
  run_induction (I := fun s : State C N M => ∃ nodes, Inv s nodes)
    (fun _ _ _ ⟨_, h⟩ hs => inv_step h hs) as _ s ⟨_, inv_initial contents⟩ hrun

/-- The emulated interrupts deliver every message once, in order and only when enabled. In every
state that the cores can reach:

- the messages called on a core are the first ones enqueued there, in that order;
- a core that is about to call a callback has its `SMP_INTFLAG` clear;
- when the outermost `poll` of a core is about to return from `i_handler`, the callbacks of all
  messages that had been enqueued at its last test of the queue have returned;
- `queue_delete` was never called with a `NULL` node. -/
theorem messages_delivered (contents : N → Node N M) (as : List (Action C N M))
    (hrun : run step (initial C contents) as = some s) :
    (∀ c, s.started c <+: s.sent c) ∧
      (∀ c msg fs, s.frames c = .handler (.call msg) :: fs → ¬Masked (s.flags c)) ∧
      (∀ c seen, s.frames c = [.handler (.emptyUnlock true seen)] →
        ∀ i < seen, i ∈ s.finished c) ∧
      s.nullDelete = false := by
  obtain ⟨nodes, h⟩ := inv_run hrun
  refine ⟨fun c => ?_, fun c msg fs hf => ?_, fun c seen hf i hi => ?_, h.noNullDelete⟩
  · rw [(h.cores c).order]
    exact List.prefix_append _ _
  · exact (h.core hf).clear trivial
  · -- No callback is active below the loop.
    have hle : seen ≤ (s.started c).length := (h.core hf).seen seen rfl
    rcases (h.core hf).done i (by omega) with hd | ha
    · exact hd
    · cases ha

/-- A message from core `1`, whose callback sends another one to its own core and polls it in
`eui`. -/
def nestedDelivery : List (Action (Fin 2) Nat Nat) :=
  List.flatten
    [[.sendI 1 7 0, .malloc 1 0, .step 1, .step 1, .step 1, .poll 0],
      List.replicate 8 (.step 0),
      [.sendI 0 8 0, .malloc 0 5, .step 0, .step 0, .step 0, .dui 0 1, .eui 0 0xfffe],
      List.replicate 8 (.step 0), [.ret 0], List.replicate 3 (.step 0),
      [.ret 0, .step 0, .step 0]]

/-- The nested run: both callbacks start in order, and both have returned. -/
theorem messages_delivered_nested :
    ∃ s, run step (initial (Fin 2) fun _ => ⟨0, none, none, false⟩) nestedDelivery = some s ∧
      s.started 0 = [7, 8] ∧ s.started 0 <+: s.sent 0 ∧ (∀ i < 2, i ∈ s.finished 0) ∧
      s.nullDelete = false := by
  have h : (run step (initial (Fin 2) fun _ => ⟨0, none, none, false⟩) nestedDelivery).map
      (fun s => decide (s.frames 0 = [.handler (.emptyUnlock true 2)] ∧ s.started 0 = [7, 8])) =
        some true := by decide +kernel
  obtain ⟨s, hrun, hs⟩ := Option.map_eq_some_iff.mp h
  obtain ⟨hframes, hstarted⟩ := of_decide_eq_true hs
  obtain ⟨horder, _, hdone, hnull⟩ := messages_delivered _ nestedDelivery hrun
  exact ⟨s, hrun, hstarted, horder 0, hdone 0 2 hframes, hnull⟩

end

end Stacklets.Messages

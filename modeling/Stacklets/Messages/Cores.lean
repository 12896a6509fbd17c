import Stacklets.Messages.Machine

/-!
# `Stacklets.Messages.Cores`: what holds of one core

Delivery is re-entrant. A callback that ends a `dui` polls again, and this inner `poll` drains
the queue that the outer loop of `i_handler` is draining. Two facts about one core carry the
order and the exactly-once.

* Only the topmost activity can hold a message that has left the queue and was not yet called.
  So the messages enqueued on a core are those called, then the one in hand, then those in the
  queue (`CoreOk.order`).
* A loop below a callback is about to test the queue again. So between the test of `is_empty`
  and the `dequeue` that follows, no other activity of the core takes a message, and other cores
  only add some (`CoreOk.waiting`).

`CoreOk` collects what holds of one core, with its queue as a list of messages. There is one
lemma for each thing the core can do, and `CoreOk.receive` for a message that arrives.
-/

set_option autoImplicit false

namespace Stacklets.Messages

open Uli (Masked)

section
variable {C N M : Type*}

/-! ### The activities of one core -/

/-- The activities below a topmost one: callbacks, each on top of a loop that is about to test
the queue. -/
def Suspended : List (Frame C N M) → Prop
  | [] => True
  | .callback _ _ :: .handler .emptyLock :: fs => Suspended fs
  | _ => False

/-- What the activities of a core can look like. -/
def StackOk : List (Frame C N M) → Prop
  | .poll :: fs => Suspended fs
  | .handler _ :: fs => Suspended fs
  | .send _ _ _ :: fs => Suspended fs
  | fs => Suspended fs

/-- The program or callback that is topmost below a `poll` or a `sendI` has no open `dui`. -/
def Enabled : List (Frame C N M) → Prop
  | .callback _ 0 :: _ => True
  | _ => False

/-- The activities need a clear interrupt flag. -/
def NeedsClear : List (Frame C N M) → Prop
  | .handler _ :: _ => True
  | .poll :: fs => Enabled fs
  | .send _ _ _ :: fs => Enabled fs
  | fs => Enabled fs

/-- The message that has left the queue and was not yet called. -/
def inHand : List (Frame C N M) → List M
  | .handler (.dequeueUnlock msg) :: _ => msg.toList
  | .handler (.call msg) :: _ => msg.toList
  | _ => []

/-- The loop has found the queue not empty and has not yet taken a message. -/
def Waiting : List (Frame C N M) → Prop
  | .handler (.emptyUnlock false _) :: _ => True
  | .handler .dequeueLock :: _ => True
  | .handler .dequeueDelete :: _ => True
  | _ => False

/-- The loop has found the queue empty after `k` messages. -/
def foundEmpty : List (Frame C N M) → Option Nat
  | .handler (.emptyUnlock true k) :: _ => some k
  | _ => none

/-- The loop does not try to call a message that is not there. -/
def NoNull : List (Frame C N M) → Prop
  | .handler (.dequeueUnlock msg) :: _ => msg ≠ none
  | .handler (.call msg) :: _ => msg ≠ none
  | _ => True

/-- The callbacks that have started and not yet returned, by their number. -/
def active (fs : List (Frame C N M)) : List Nat :=
  fs.filterMap fun
    | .callback i _ => some i
    | _ => none

/-- What holds of a core with the activities `fs` and the messages `queue` in its queue. -/
structure CoreOk (fs : List (Frame C N M)) (flags : BitVec 32) (sent started : List M)
    (finished : List Nat) (queue : List M) : Prop where
  stack : StackOk fs
  clear : NeedsClear fs → ¬Masked flags
  order : sent = started ++ (inHand fs ++ queue)
  done : ∀ i < started.length, i ∈ finished ∨ i ∈ active fs
  seen : ∀ k, foundEmpty fs = some k → k ≤ started.length
  waiting : Waiting fs → queue ≠ []
  noNull : NoNull fs

variable {fs : List (Frame C N M)} {flags flag : BitVec 32} {sent started queue : List M}
  {finished : List Nat} {msg : M} {i depth : Nat}

/-- A core that has done nothing. -/
theorem coreOk_initial : CoreOk ([] : List (Frame C N M)) 0 [] [] [] [] where
  stack := trivial
  clear := nofun
  order := rfl
  done := nofun
  seen := nofun
  waiting := nofun
  noNull := trivial

/-! A program or a callback holds no message and has tested nothing. -/

/-- Below a topmost activity there is the program or a callback. -/
theorem Suspended.running (h : Suspended fs) : Running fs := by
  match fs, h with
  | [], _ => trivial
  | .callback _ _ :: .handler .emptyLock :: _, _ => trivial

/-- A running program or callback could be below another activity. -/
theorem StackOk.suspended (h : StackOk fs) (hrun : Running fs) : Suspended fs := by
  match fs, hrun with
  | [], _ => trivial
  | .callback _ _ :: _, _ => exact h

/-- The activities below the topmost one are well formed by themselves. -/
theorem Suspended.stackOk (h : Suspended fs) : StackOk fs := by
  match fs, h.running with
  | [], _ => trivial
  | .callback _ _ :: _, _ => exact h

/-- A running activity needs a clear flag when it has no open `dui`. -/
theorem needsClear_iff_enabled (h : Running fs) : NeedsClear fs ↔ Enabled fs := by
  match fs, h with
  | [], _ => exact Iff.rfl
  | .callback _ _ :: _, _ => exact Iff.rfl

/-- No message is in hand outside the loop. -/
theorem inHand_of_running (h : Running fs) : inHand fs = [] := by
  match fs, h with
  | [], _ => rfl
  | .callback _ _ :: _, _ => rfl

/-- Outside the loop nothing was found empty. -/
theorem foundEmpty_of_running (h : Running fs) : foundEmpty fs = none := by
  match fs, h with
  | [], _ => rfl
  | .callback _ _ :: _, _ => rfl

/-- Outside the loop no message is awaited. -/
theorem not_waiting_of_running (h : Running fs) : ¬Waiting fs := by
  match fs, h with
  | [], _ => exact id
  | .callback _ _ :: _, _ => exact id

/-- Outside the loop no message is about to be called. -/
theorem noNull_of_running (h : Running fs) : NoNull fs := by
  match fs, h with
  | [], _ => trivial
  | .callback _ _ :: _, _ => trivial

/-! ### What one core does -/

namespace CoreOk

variable {fs' : List (Frame C N M)} {flags' : BitVec 32} {f : Frame C N M}

/-- A move that takes no message, and starts and ends no callback. -/
theorem move (h : CoreOk fs flags sent started finished queue) (hstack : StackOk fs')
    (hclear : NeedsClear fs' → ¬Masked flags') (hhand : inHand fs' = inHand fs)
    (hactive : active fs' = active fs)
    (hseen : ∀ k, foundEmpty fs' = some k → k ≤ started.length)
    (hwaiting : Waiting fs' → queue ≠ []) (hnull : NoNull fs') :
    CoreOk fs' flags' sent started finished queue where
  stack := hstack
  clear := hclear
  order := hhand ▸ h.order
  done := hactive ▸ h.done
  seen := hseen
  waiting := hwaiting
  noNull := hnull

/-- The program or a callback calls `poll` or `sendI`. -/
theorem enter (h : CoreOk fs flags sent started finished queue) (hrun : Running fs)
    (hf : f = .poll ∨ ∃ t msg pc, f = .send t msg pc) :
    CoreOk (f :: fs) flags sent started finished queue := by
  have hsusp := h.stack.suspended hrun
  have hclear : Enabled fs → ¬Masked flags := fun he =>
    h.clear ((needsClear_iff_enabled hrun).mpr he)
  rcases hf with rfl | ⟨t, msg, pc, rfl⟩
  · exact h.move hsusp hclear (inHand_of_running hrun).symm rfl nofun nofun trivial
  · exact h.move hsusp hclear (inHand_of_running hrun).symm rfl nofun nofun trivial

/-- An activity that holds no message returns to the program or the callback below it. -/
theorem leave (h : CoreOk (f :: fs) flags sent started finished queue) (hsusp : Suspended fs)
    (hclear : Enabled fs → ¬Masked flags) (hhand : inHand (f :: fs) = [])
    (hactive : active (f :: fs) = active fs) :
    CoreOk fs flags sent started finished queue := by
  have hrun := hsusp.running
  refine h.move hsusp.stackOk (fun hc => hclear ((needsClear_iff_enabled hrun).mp hc)) ?_
    hactive.symm ?_ ?_ (noNull_of_running hrun)
  · rw [hhand, inHand_of_running hrun]
  · rw [foundEmpty_of_running hrun]
    nofun
  · exact fun hw => absurd hw (not_waiting_of_running hrun)

/-- `poll` finds the flag set, or the loop finds the queue empty, or `sendI` returns. -/
theorem poll_masked (h : CoreOk (.poll :: fs) flags sent started finished queue) :
    CoreOk fs flags sent started finished queue :=
  h.leave h.stack h.clear rfl rfl

/-- The loop ends. -/
theorem handler_leave {k : Nat}
    (h : CoreOk (.handler (.emptyUnlock true k) :: fs) flags sent started finished queue) :
    CoreOk fs flags sent started finished queue :=
  h.leave h.stack (fun _ => h.clear trivial) rfl rfl

/-- `SENDI` returns. -/
theorem send_leave {t : C}
    (h : CoreOk (.send t msg .unlock :: fs) flags sent started finished queue) :
    CoreOk fs flags sent started finished queue :=
  h.leave h.stack h.clear rfl rfl

/-- `sendI` goes on. -/
theorem send_move {t : C} {pc pc' : SendPC N}
    (h : CoreOk (.send t msg pc :: fs) flags sent started finished queue) :
    CoreOk (.send t msg pc' :: fs) flags sent started finished queue :=
  h.move h.stack h.clear rfl rfl nofun nofun trivial

/-- `poll` finds the flag clear. -/
theorem poll_clear (h : CoreOk (.poll :: fs) flags sent started finished queue)
    (hm : ¬Masked flags) :
    CoreOk (.handler .emptyLock :: fs) flags sent started finished queue :=
  h.move h.stack (fun _ => hm) rfl rfl nofun nofun trivial

/-- The loop goes on, with the same message in hand. -/
theorem handler_move {pc pc' : HandlerPC M}
    (h : CoreOk (.handler pc :: fs) flags sent started finished queue)
    (hhand : inHand (.handler pc' :: fs) = inHand (.handler pc :: fs))
    (hseen : ∀ k, foundEmpty (.handler pc' :: fs) = some k → k ≤ started.length)
    (hwaiting : Waiting (.handler pc' :: fs) → queue ≠ []) (hnull : NoNull (.handler pc' :: fs)) :
    CoreOk (.handler pc' :: fs) flags sent started finished queue :=
  h.move h.stack (fun _ => h.clear trivial) hhand rfl hseen hwaiting hnull

/-- `is_empty` reads `q->tail`. -/
theorem handler_test {empty : Bool}
    (h : CoreOk (.handler .emptyRead :: fs) flags sent started finished queue)
    (hempty : empty = true ↔ queue = []) :
    CoreOk (.handler (.emptyUnlock empty sent.length) :: fs) flags sent started finished queue := by
  cases empty with
  | false =>
    refine h.handler_move rfl nofun (fun _ hq => ?_) trivial
    exact absurd (hempty.mpr hq) nofun
  | true =>
    -- The queue is empty and nothing is in hand, so every message was called.
    refine h.handler_move rfl (fun k hk => ?_) nofun trivial
    cases hk
    have horder := h.order
    rw [hempty.mp rfl] at horder
    show sent.length ≤ started.length
    rw [horder]
    simp [inHand]

/-- `dequeue` takes the first message. -/
theorem handler_dequeue
    (h : CoreOk (.handler .dequeueDelete :: fs) flags sent started finished (msg :: queue)) :
    CoreOk (.handler (.dequeueUnlock (some msg)) :: fs) flags sent started finished queue where
  stack := h.stack
  clear := fun _ => h.clear trivial
  order := h.order
  done := h.done
  seen := nofun
  waiting := nofun
  noNull := nofun

/-- The callback of the message in hand starts. -/
theorem handler_call
    (h : CoreOk (.handler (.call (some msg)) :: fs) flags sent started finished queue) :
    CoreOk (.callback started.length 0 :: .handler .emptyLock :: fs) flags sent (started ++ [msg])
      finished queue where
  stack := h.stack
  clear := fun _ => h.clear trivial
  order := by
    rw [h.order]
    simp [inHand]
  done i hi := by
    rw [List.length_append, List.length_singleton] at hi
    by_cases hlast : i = started.length
    · exact Or.inr (hlast ▸ List.mem_cons_self)
    · rcases h.done i (by omega) with hd | ha
      · exact Or.inl hd
      · exact Or.inr (List.mem_cons_of_mem _ ha)
  seen := nofun
  waiting := nofun
  noNull := trivial

/-- The topmost callback returns to the loop below it. -/
theorem callback_ret (h : CoreOk (.callback i 0 :: fs) flags sent started finished queue) :
    CoreOk fs flags sent started (finished ++ [i]) queue := by
  match fs, h with
  | [], h => exact h.stack.elim
  | .handler .emptyLock :: fs, h =>
    refine ⟨h.stack, fun _ => h.clear trivial, h.order, fun j hj => ?_, nofun, nofun, trivial⟩
    rcases h.done j hj with hd | ha
    · exact Or.inl (List.mem_append_left _ hd)
    · rcases List.mem_cons.mp ha with rfl | ha
      · exact Or.inl (List.mem_append_right _ List.mem_cons_self)
      · exact Or.inr ha

/-- A callback opens or closes a `dui`. -/
theorem callback_move (h : CoreOk (.callback i depth :: fs) flags sent started finished queue)
    (depth' : Nat) (flags' : BitVec 32) (hclear : depth' = 0 → ¬Masked flags') :
    CoreOk (.callback i depth' :: fs) flags' sent started finished queue := by
  match fs, h with
  | [], h => exact h.stack.elim
  | .handler .emptyLock :: fs, h =>
    refine h.move h.stack (fun hc => ?_) rfl rfl nofun nofun trivial
    match depth', hc with
    | 0, _ => exact hclear rfl

/-- The program of the core changes the flag. -/
theorem program_move (h : CoreOk ([] : List (Frame C N M)) flags sent started finished queue)
    (flags' : BitVec 32) :
    CoreOk ([] : List (Frame C N M)) flags' sent started finished queue :=
  h.move h.stack nofun rfl rfl nofun nofun trivial

/-- Some core enqueues a message. -/
theorem receive (h : CoreOk fs flags sent started finished queue) :
    CoreOk fs flags (sent ++ [msg]) started finished (queue ++ [msg]) where
  stack := h.stack
  clear := h.clear
  order := by
    rw [h.order]
    simp
  done := h.done
  seen := h.seen
  waiting _ := by simp
  noNull := h.noNull

end CoreOk

end

end Stacklets.Messages

import Stacklets.Lib.HandOff
import Stacklets.Uli.Machine

/-!
# `Stacklets.Uli.Invariant`: what holds of the cores and of every lock

Three layers, each stated over the one before:

* `CoreOk`: what holds of one core alone. Interrupts are off where the code relies on it, a
  thread unlocks only what it holds, and the waiter that `myunlock` read is still there.
* `PlacesOk`: where every core that waits in `mylock` stands. Its request is in one queue, or
  one handler has it, or it was handed over and one core has it as its waiter, or its trigger
  is set. `place` is the record of this, and `Located` compares it with the memory.
* `LockOk`: what holds of one lock. `lockSt` reads the abstract lock of `Lib.HandOff` off the
  state: the tail is `owner_id`, and who stands where is read off the places. The abstract
  lock is in order, a handler about to hand the lock over is on the core that owns it, and
  the core that `myunlock` is about to trigger waits for this lock.
-/

set_option autoImplicit false

namespace Stacklets.Uli

open Lib.HandOff (Stand St Ordered)

/-! ### One core -/

section
variable {C K : Type*}

/-- The lock that the thread is about to take. -/
def MainPC.locks : MainPC C K → Option K
  | .lockTest L | .lockCas L | .lockReread L _ | .lockTestFree L | .lockSaveId L
  | .lockSend L _ | .lockSpin L | .lockClear L => some L
  | _ => none

/-- The lock that the thread is about to release. -/
def MainPC.unlocks : MainPC C K → Option K
  | .unlockDui L | .unlockTest L | .unlockGet L | .unlockTrigger L _ | .unlockFree L => some L
  | _ => none

/-- The thread is between the `DUI` and the `EUI` of `myunlock`. -/
def MainPC.masked : MainPC C K → Bool
  | .unlockTest _ | .unlockGet _ | .unlockTrigger _ _ | .unlockClear _ | .unlockFree _
  | .unlockEui _ => true
  | _ => false

/-- What `myunlock` knows of its waiter. -/
def MainPC.KnowsWaiter : MainPC C K → Option C → Prop
  | .unlockGet _, w => w ≠ none
  | .unlockTrigger _ next, w => w = some next
  | .unlockFree _, w => w = none
  | _, _ => True

/-- The handler is between the `DUI` and the `EUI` of `addme`. -/
def Frame.masked : Frame C K → Bool
  | .addme _ .start => false
  | .addme _ _ => true
  | _ => false

/-- The data of one core: where its thread and its handlers are, its flag, its waiter and the
locks it holds. -/
structure CoreOk (d : Delivery) (pc : MainPC C K) (frames : List (Frame C K))
    (flags : BitVec 32) (waiterId : Option C) (held : K → Bool) : Prop where
  masked : pc.masked = true → frames = [] ∧ Masked flags
  /-- Only the topmost handler has the interrupts off. -/
  top : ∀ f fs, frames = f :: fs → (f.masked = true → Masked flags) ∧ ∀ g ∈ fs, g.masked = false
  /-- With polling only, a handler runs on top of the spinning loop or of the application. -/
  polls : d = .poll → frames ≠ [] → pc = .app ∨ ∃ L, pc = .lockSpin L
  holds : ∀ L, pc.unlocks = some L → held L = true
  lacks : ∀ L, pc.locks = some L → held L = false
  waiter : pc.KnowsWaiter waiterId

/-- The core `c` is in order. -/
def State.CoreOk (s : State C K) (d : Delivery) (c : C) : Prop :=
  Uli.CoreOk d (s.main c) (s.frames c) (s.flags c) (s.waiterId c) (s.held · c)

/-! ### Where the waiting cores are -/

/-- Where a core stands that waits in `mylock`. -/
inductive Place (C : Type*)
  /-- It does not wait. -/
  | out
  /-- Its request is in the queue of `q`. -/
  | queued (q : C)
  /-- A handler on `b` has its request. -/
  | handled (b : C) (pc : AddmePC C)
  /-- It is the waiter of `x`. -/
  | linked (x : C)
  /-- Its trigger is set. -/
  | triggered
  /-- It was the waiter of a core that took another one. -/
  | lost

/-- The request that a handler still has to serve. -/
def Frame.request : Frame C K → Option (AddmeCfd C K × AddmePC C)
  | .addme _ .eui => none
  | .addme p pc => some (p, pc)
  | _ => none

/-- The requests that the handlers on `b` still have to serve. -/
def State.requests (s : State C K) (b : C) : List (AddmeCfd C K × AddmePC C) :=
  (s.frames b).filterMap Frame.request

/-- `y` is the waiter of `x`. The waiter that a `myunlock` has just triggered does not count. -/
def State.Waits (s : State C K) (x y : C) : Prop :=
  s.waiterId x = some y ∧ ∀ L, s.main x ≠ .unlockClear L

variable [DecidableEq C]

/-- The messages for `c` in the queue of `q`, if `c` stands at `w`. -/
def Place.messages (w : Place C) (pc : MainPC C K) (c q : C) : List (AddmeCfd C K) :=
  match w, pc with
  | .queued q', .lockSpin L => if q' = q then [⟨L, c⟩] else []
  | _, _ => []

/-- The requests of `c` that the handlers on `b` have, if `c` stands at `w`. -/
def Place.requests (w : Place C) (pc : MainPC C K) (c b : C) :
    List (AddmeCfd C K × AddmePC C) :=
  match w, pc with
  | .handled b' l, .lockSpin L => if b' = b then [(⟨L, c⟩, l)] else []
  | _, _ => []

/-- The memory agrees with `c` standing at `w`. -/
structure Located (pc : MainPC C K) (msgBufs : C → List (AddmeCfd C K))
    (requests : C → List (AddmeCfd C K × AddmePC C)) (waits : C → Prop) (trigger : Bool)
    (c : C) (w : Place C) : Prop where
  out : w = .out ↔ ∀ L, pc ≠ .lockSpin L
  messages : ∀ q, (msgBufs q).filter (fun p => p.askId = c) = w.messages pc c q
  requests : ∀ b, (requests b).filter (fun r => r.1.askId = c) = w.requests pc c b
  linked : ∀ x, w = .linked x ↔ waits x
  triggered : w = .triggered → trigger = true
  trigger : trigger = true → w = .triggered ∨ ∃ L, pc = .lockClear L

/-- The memory agrees with `place` on every core. -/
def PlacesOk (s : State C K) (place : C → Place C) : Prop :=
  ∀ c, Located (s.main c) s.msgBufs s.requests (s.Waits · c) (s.trigger c) c (place c)

/-! ### One lock -/

/-- Where a waiting core stands with respect to the lock it waits for. -/
def Place.stand : Place C → Stand C
  | .handled _ (.reread true) => .claimed
  | .handled _ .trigger => .entitled
  | .handled b .setWaiter => .joining b
  | .linked x => .behind x
  | .triggered => .entitled
  | .lost => .lost
  | _ => .absent

variable [DecidableEq K]

/-- Where a core stands with respect to the lock `L`. -/
def standOf (L : K) (held : Bool) (pc : MainPC C K) (w : Place C) : Stand C :=
  if held then .inside else
    match pc with
    | .lockReread L' true => if L' = L then .claimed else .absent
    | .lockClear L' => if L' = L then .entitled else .absent
    | .lockSpin L' => if L' = L then w.stand else .absent
    | _ => .absent

/-- The abstract lock. -/
def lockSt (s : State C K) (place : C → Place C) (L : K) : St C where
  tail := s.ownerId L
  stand c := standOf L (s.held L c) (s.main c) (place c)
  granted := s.written L
  entered := s.returned L
  left := s.released L

/-- What holds of one lock. -/
structure LockOk (s : State C K) (place : C → Place C) (L : K) : Prop where
  ordered : Ordered (lockSt s place L)
  handOver : ∀ y b, s.main y = .lockSpin L → place y = .handled b .setOwner →
    s.ownerId L = some b
  next : ∀ c w, s.main c = .unlockTrigger L w → s.main w = .lockSpin L

/-- What holds of all cores and all locks. -/
structure Inv (d : Delivery) (s : State C K) (place : C → Place C) : Prop where
  cores : ∀ c, s.CoreOk d c
  places : PlacesOk s place
  locks : ∀ L, LockOk s place L

end

end Stacklets.Uli

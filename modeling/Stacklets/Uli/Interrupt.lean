import Mathlib.Data.BitVec

/-!
# `Stacklets.Uli.Interrupt`: the emulated interrupts of a core

`sync/u_interrupt.c` emulates interrupts between cores. Each core has a word of flags. `dui` sets
bits in it and `eui` clears bits and polls. `poll` looks at the bit `SMP_INTFLAG`, and goes on to
`i_handler` if it is clear. That is a loop that takes the messages of the core and calls their
callbacks. `mydui` and `myeui` of `compiler/uli/msgs.c` count how often interrupts were disabled,
and touch the word only at the outermost level.

Every machine of this development that polls uses the functions of this module: the lock of
`Stacklets.Uli.Machine`, the message queues of `Stacklets.Messages.Machine`, the nested masking of
`Stacklets.Messages.Masking`, work stealing in `Stacklets.Steal.Machine`, and the message buffers of
`Stacklets.MsgPool.Machine`. They differ in what a callback does. So what a core has on top of its
program is a list of activities of any type here, the topmost first, and the callback of a message
is a parameter.
-/

set_option autoImplicit false

namespace Stacklets.Uli

/-! ### The word of flags -/

/-- `SMP_INTFLAG` of a core is set. -/
def Masked (flags : BitVec 32) : Prop := flags &&& 1 ≠ 0

instance (flags : BitVec 32) : Decidable (Masked flags) := inferInstanceAs (Decidable (_ ≠ _))

/-- `dui(flag)`. -/
def dui (flags flag : BitVec 32) : BitVec 32 := flags ||| flag

/-- `eui(flag)`, up to its `POLL()`. -/
def eui (flags flag : BitVec 32) : BitVec 32 := flags &&& flag

/-- `DUI(1)` sets the flag. -/
theorem masked_dui (flags : BitVec 32) : Masked (dui flags 1) := by
  intro h
  have := congrArg (fun x : BitVec 32 => x.getLsbD 0) h
  simp [dui] at this

/-- `EUI(0xfffe)` clears it. -/
theorem not_masked_eui (flags : BitVec 32) : ¬ Masked (eui flags 0xfffe) := by
  rw [Masked, not_not, eui, BitVec.and_assoc]
  simp

/-- `DUI(0)` sets no bit at all. -/
theorem dui_zero (flags : BitVec 32) : dui flags 0 = flags := by
  simp [dui]

/-- `EUI(0)` clears every bit. -/
theorem not_masked_eui_zero (flags : BitVec 32) : ¬ Masked (eui flags 0) := by
  simp [Masked, eui]

/-! ### `poll` and `i_handler` -/

section
variable {A M : Type*}

/-- The activities behind `poll`, with `below` under it: the loop `iHandler` on top if the flag is
clear. -/
def poll (flags : BitVec 32) (iHandler : A) (below : List A) : List A :=
  if Masked flags then below else iHandler :: below

/-- One turn of the loop of `i_handler`, with `below` under it: the messages that are left and the
activities. The callback of the first message runs on top of the loop, which then looks at the queue
again and not at the flag. Without a message the loop returns. There is no result if the callback is
a null pointer. -/
def iHandler (callback : M → Option A) (loop : A) (below : List A) :
    List M → Option (List M × List A)
  | [] => some ([], below)
  | msg :: msgs => (callback msg).map fun act => (msgs, act :: loop :: below)

end

/-! ### Nested masking -/

/-- What `mydui` and `myeui` keep of a core: the word, and how often interrupts were disabled. -/
structure Mask where
  flags : BitVec 32
  uiFlagCtr : BitVec 32
deriving DecidableEq

namespace Mask

/-- `mydui`: `if (uiFlagCtr == 0) DUI(0); uiFlagCtr++`. -/
def mydui (m : Mask) : Mask where
  flags := if m.uiFlagCtr = 0 then dui m.flags 0 else m.flags
  uiFlagCtr := m.uiFlagCtr + 1

/-- `myeui`: `uiFlagCtr--`, the assertion, and `if (uiFlagCtr == 0) EUI(0)`. The result says
whether that polls, and there is none if the assertion fails. -/
def myeui (m : Mask) : Option (Mask × Bool) :=
  let uiFlagCtr := m.uiFlagCtr - 1
  if uiFlagCtr.toInt < 0 then none
  else if uiFlagCtr = 0 then some (⟨eui m.flags 0, uiFlagCtr⟩, true)
  else some (⟨m.flags, uiFlagCtr⟩, false)

/-- `mydui` leaves the word of flags as it is. -/
@[simp] theorem mydui_flags (m : Mask) : m.mydui.flags = m.flags := by
  unfold mydui
  split
  · exact dui_zero m.flags
  · rfl

/-- What `myeui` does to a thread that goes on with the activities `acts`: the poll of `EUI(0)`
comes on top. -/
def unmask {A : Type*} (m : Mask) (poll : A) (acts : List A) : Option (Mask × List A) :=
  m.myeui.map fun r => (r.1, if r.2 then poll :: acts else acts)

/-- `unmask` puts a poll on top or nothing. -/
theorem unmask_acts {A : Type*} {m m' : Mask} {poll : A} {acts acts' : List A}
    (h : m.unmask poll acts = some (m', acts')) : acts' = acts ∨ acts' = poll :: acts := by
  obtain ⟨⟨m₁, polls⟩, -, heq⟩ := Option.map_eq_some_iff.mp h
  cases heq
  cases polls
  · exact .inl rfl
  · exact .inr rfl

end Mask

end Stacklets.Uli

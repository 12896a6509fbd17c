import Mathlib.Data.List.Basic
import Stacklets.Lib.Runs
import Stacklets.Uli.Interrupt

/-!
# `Stacklets.Messages.Masking`: nested masking of the emulated interrupts

`mydui` and `myeui` of `compiler/uli/msgs.c` count how often interrupts were disabled on a core,
and `poll` of `u_interrupt.c` tests the word of flags. The counter and the word are separate. Only
the outermost `mydui` and the outermost `myeui` touch the word, with `DUI(0)` and `EUI(0)`. `eui`
then polls, and so runs the callbacks of the messages that wait, which may call all of these
functions again.

One core is modelled, with the program at the bottom and a stack of activities on top of it
(`Stacklets.Uli.Interrupt`). The other cores appear as messages that arrive at any time.

`DUI(0)` sets no bit of the word. So no sequence of these calls ever sets the flag, and the mask
follows the counter only in the runs without a `mydui` (`masks_iff_no_mydui`).

The record of calls that `insertTrack` keeps for the debug output is left out.
-/

set_option autoImplicit false

namespace Stacklets.Masking

open Lib
open Uli (Mask Masked iHandler not_masked_eui_zero)

/-- An activity on top of the program. -/
inductive Frame (M : Type*)
  /-- `poll`: test the flag. -/
  | poll
  /-- The loop of `i_handler`. -/
  | handler
  /-- The callback of a message. -/
  | callback (msg : M)
deriving DecidableEq

/-- A core. The last two fields are histories. -/
structure Core (M : Type*) where
  mask : Mask
  /-- The messages that wait. -/
  msgBuf : List M
  frames : List (Frame M)
  /-- The `myassert` of `myeui` failed. -/
  aborted : Bool
  /-- The calls of `mydui`, less those of `myeui` whose assertion held. -/
  opened : Nat
  /-- The value of `uiFlagCtr` at each `poll` that went on to `i_handler`. -/
  entered : List (BitVec 32)

/-- What happens next. -/
inductive Action (M : Type*)
  /-- `sendI(msg, c)` on some core, for this core. -/
  | sendI (msg : M)
  /-- The topmost activity moves. -/
  | step
  /-- The program or the topmost callback calls the function. -/
  | mydui
  | myeui
  | poll
  /-- The topmost callback returns. -/
  | ret
deriving DecidableEq

section
variable {M : Type*}

/-- The program or a callback is about to move. -/
def Running : List (Frame M) → Bool
  | [] => true
  | .callback _ :: _ => true
  | _ => false

namespace Core

variable (c : Core M)

/-- `mydui`. -/
def mydui : Core M := { c with mask := c.mask.mydui, opened := c.opened + 1 }

/-- `myeui`, with the poll of `EUI(0)` on top of what the core goes on with. -/
def myeui : Core M :=
  match c.mask.unmask .poll c.frames with
  | some (mask, frames) => { c with mask, frames, opened := c.opened - 1 }
  | none => { c with aborted := true }

/-- One step of the topmost activity. -/
def frameStep : Option (Core M) :=
  match c.frames with
  | .poll :: fs =>
    some { c with
      frames := Uli.poll c.mask.flags .handler fs
      entered := if Masked c.mask.flags then c.entered else c.entered ++ [c.mask.uiFlagCtr] }
  | .handler :: fs =>
    (iHandler (fun msg => some (.callback msg)) .handler fs c.msgBuf).map
      fun (msgBuf, frames) => { c with msgBuf, frames }
  | _ => none

/-- One action. A `myeui` needs a `mydui` that is open. -/
def step (c : Core M) : Action M → Option (Core M)
  | .sendI msg => some { c with msgBuf := c.msgBuf ++ [msg] }
  | .step => if c.aborted then none else c.frameStep
  | .mydui => if c.aborted = false ∧ Running c.frames then some c.mydui else none
  | .myeui =>
    if c.aborted = false ∧ Running c.frames ∧ 0 < c.opened then some c.myeui else none
  | .poll =>
    if c.aborted = false ∧ Running c.frames then some { c with frames := .poll :: c.frames }
    else none
  | .ret =>
    match c.frames with
    | .callback _ :: fs => if c.aborted then none else some { c with frames := fs }
    | _ => none

/-- The core behind `init_uli` and `initMsgs`. -/
def initial (M : Type*) : Core M where
  mask := ⟨0, 0⟩
  msgBuf := []
  frames := []
  aborted := false
  opened := 0
  entered := []

/-- The mask follows the counter: the flag is set exactly if the counter is positive, no `poll` has
gone on to the handlers while the counter was positive, and the assertion has not failed. -/
structure Masks : Prop where
  iff : Masked c.mask.flags ↔ 0 < c.mask.uiFlagCtr.toInt
  entered : ∀ v ∈ c.entered, ¬ 0 < v.toInt
  aborted : c.aborted = false

/-! ### What every run keeps -/

/-- The counter counts the open `mydui`s, the flag is clear, and the assertion fails only if more
than `INT_MAX` of them are open. -/
structure Inv : Prop where
  opened : c.mask.uiFlagCtr = BitVec.ofNat 32 c.opened
  clear : ¬ Masked c.mask.flags
  aborted : c.aborted = true → 2 ^ 31 < c.opened

variable {c} {c' : Core M}

/-- The part of a core that the invariant does not read may change. -/
theorem Inv.same (h : c.Inv) (hmask : c'.mask = c.mask) (hopened : c'.opened = c.opened)
    (haborted : c'.aborted = c.aborted) : c'.Inv where
  opened := by rw [hmask, hopened, h.opened]
  clear := by rw [hmask]; exact h.clear
  aborted := by rw [haborted, hopened]; exact h.aborted

/-- A 32-bit number that is negative when it is read as an `int` is at least `2 ^ 31`. -/
theorem le_of_toInt_ofNat_neg {k : Nat} (h : (BitVec.ofNat 32 k).toInt < 0) : 2 ^ 31 ≤ k := by
  rw [BitVec.toInt_eq_toNat_cond, BitVec.toNat_ofNat] at h
  split at h <;> omega

/-- `mydui` keeps the invariant. -/
theorem Inv.mydui (h : c.Inv) (hrunning : c.aborted = false) : c.mydui.Inv where
  opened := by
    show c.mask.uiFlagCtr + 1 = BitVec.ofNat 32 (c.opened + 1)
    rw [h.opened, BitVec.ofNat_add]
    rfl
  -- `DUI(0)` leaves the word as it is
  clear := by
    show ¬ Masked c.mask.mydui.flags
    rw [Mask.mydui_flags]
    exact h.clear
  aborted habort := by
    rw [show c.mydui.aborted = c.aborted from rfl, hrunning] at habort
    cases habort

/-- The assertion of `myeui` fails only if the counter has overflowed, and `EUI(0)` clears a flag
that is clear already. -/
theorem Inv.myeui (h : c.Inv) (hrunning : c.aborted = false) (hopen : 0 < c.opened) :
    c.myeui.Inv := by
  obtain ⟨k, hk⟩ : ∃ k, c.opened = k + 1 := ⟨c.opened - 1, by omega⟩
  have hctr : c.mask.uiFlagCtr - 1 = BitVec.ofNat 32 k := by
    rw [h.opened, hk, BitVec.ofNat_add]
    exact BitVec.add_sub_cancel _ _
  have hopened : BitVec.ofNat 32 k = BitVec.ofNat 32 (c.opened - 1) := by rw [hk]; rfl
  have hlater : ∀ {P : Prop}, c.aborted = true → P := fun habort => by
    rw [hrunning] at habort
    cases habort
  unfold Core.myeui Mask.unmask Mask.myeui
  dsimp only
  rw [hctr]
  by_cases hneg : (BitVec.ofNat 32 k).toInt < 0
  · rw [if_pos hneg]
    have hle := le_of_toInt_ofNat_neg hneg
    exact ⟨h.opened, h.clear, fun _ => by show 2 ^ 31 < c.opened; omega⟩
  · rw [if_neg hneg]
    by_cases hzero : BitVec.ofNat 32 k = 0
    · rw [if_pos hzero]
      exact ⟨hopened, not_masked_eui_zero _, hlater⟩
    · rw [if_neg hzero]
      exact ⟨hopened, h.clear, hlater⟩

/-- A step of a poll or of the loop does not touch the mask. -/
theorem frameStep_mask (hstep : c.frameStep = some c') :
    c'.mask = c.mask ∧ c'.opened = c.opened ∧ c'.aborted = c.aborted := by
  unfold Core.frameStep at hstep
  split at hstep
  · cases hstep
    exact ⟨rfl, rfl, rfl⟩
  · obtain ⟨r, -, rfl⟩ := Option.map_eq_some_iff.mp hstep
    exact ⟨rfl, rfl, rfl⟩
  · cases hstep

/-- Every step of the core keeps the invariant. -/
theorem Inv.step {a : Action M} (h : c.Inv) (hstep : c.step a = some c') : c'.Inv := by
  cases a with
  | sendI msg =>
    cases hstep
    exact h.same rfl rfl rfl
  | step =>
    obtain ⟨hmask, hopened, haborted⟩ :=
      frameStep_mask (Option.ite_none_left_eq_some.mp hstep).2
    exact h.same hmask hopened haborted
  | mydui =>
    obtain ⟨⟨hrunning, _⟩, heq⟩ := Option.ite_none_right_eq_some.mp hstep
    cases heq
    exact h.mydui hrunning
  | myeui =>
    obtain ⟨⟨hrunning, _, hopen⟩, heq⟩ := Option.ite_none_right_eq_some.mp hstep
    cases heq
    exact h.myeui hrunning hopen
  | poll =>
    cases (Option.ite_none_right_eq_some.mp hstep).2
    exact h.same rfl rfl rfl
  | ret =>
    unfold Core.step at hstep
    dsimp only at hstep
    split at hstep
    · cases (Option.ite_none_left_eq_some.mp hstep).2
      exact h.same rfl rfl rfl
    · cases hstep

/-- The core starts unmasked. -/
theorem inv_initial : (initial M).Inv := ⟨rfl, by simp [initial, Masked], nofun⟩

/-- The invariant holds after every run. -/
theorem inv_run {as : List (Action M)} (hrun : run Core.step (initial M) as = some c) : c.Inv :=
  run_induction (fun _ _ _ h hstep => Inv.step h hstep) as _ c inv_initial hrun

/-! ### Runs with and without a `mydui` -/

/-- Behind a `mydui` that finds the counter at zero, the flag is clear and the counter is not. -/
theorem Inv.not_masks_mydui (h : c.Inv) (hzero : c.opened = 0) : ¬ c.mydui.Masks := by
  intro hmasks
  have hctr : c.mydui.mask.uiFlagCtr = 1 := by
    show c.mask.uiFlagCtr + 1 = 1
    rw [h.opened, hzero]
    rfl
  have hflag : Masked c.mydui.mask.flags := hmasks.iff.mpr (by rw [hctr]; decide)
  rw [show c.mydui.mask.flags = c.mask.flags from Mask.mydui_flags c.mask] at hflag
  exact h.clear hflag

/-- What holds as long as `mydui` was not called: nothing is open, and every poll so far found the
counter at zero. -/
structure Idle (c : Core M) : Prop where
  inv : c.Inv
  opened : c.opened = 0
  entered : ∀ v ∈ c.entered, v = 0

/-- As long as `mydui` was not called, the counter is zero and the flag is clear. -/
theorem Idle.masks (h : Idle c) : c.Masks where
  iff := by
    have hctr := h.inv.opened
    rw [h.opened] at hctr
    rw [hctr]
    exact iff_of_false h.inv.clear (by decide)
  entered v hv := by
    rw [h.entered v hv]
    decide
  aborted := by
    rw [Bool.eq_false_iff]
    intro habort
    have hlt := h.inv.aborted habort
    rw [h.opened] at hlt
    omega

/-- Without `mydui` every poll finds the counter at zero. -/
theorem Idle.frameStep (h : Idle c) (hstep : c.frameStep = some c') :
    ∀ v ∈ c'.entered, v = 0 := by
  unfold Core.frameStep at hstep
  split at hstep
  · cases hstep
    intro v hv
    dsimp only at hv
    rw [if_neg h.inv.clear] at hv
    rcases List.mem_append.mp hv with hold | hnew
    · exact h.entered v hold
    · rw [List.mem_singleton.mp hnew, h.inv.opened, h.opened]
      rfl
  · obtain ⟨r, -, rfl⟩ := Option.map_eq_some_iff.mp hstep
    exact h.entered
  · cases hstep

/-- Every action but `mydui` keeps it, and no `myeui` is possible. -/
theorem Idle.step {a : Action M} (h : Idle c) (ha : a ≠ .mydui) (hstep : c.step a = some c') :
    Idle c' := by
  have hinv := h.inv.step hstep
  cases a with
  | sendI msg =>
    cases hstep
    exact ⟨hinv, h.opened, h.entered⟩
  | step =>
    have hframe := (Option.ite_none_left_eq_some.mp hstep).2
    exact ⟨hinv, (frameStep_mask hframe).2.1.trans h.opened, h.frameStep hframe⟩
  | mydui => exact absurd rfl ha
  | myeui =>
    obtain ⟨⟨_, _, hopen⟩, -⟩ := Option.ite_none_right_eq_some.mp hstep
    rw [h.opened] at hopen
    exact absurd hopen (lt_irrefl 0)
  | poll =>
    cases (Option.ite_none_right_eq_some.mp hstep).2
    exact ⟨hinv, h.opened, h.entered⟩
  | ret =>
    unfold Core.step at hstep
    dsimp only at hstep
    split at hstep
    · cases (Option.ite_none_left_eq_some.mp hstep).2
      exact ⟨hinv, h.opened, h.entered⟩
    · cases hstep

/-- A run without `mydui` stays idle. -/
theorem idle_run {as : List (Action M)} (hno : .mydui ∉ as)
    (hrun : run Core.step (initial M) as = some c) : Idle c := by
  have hok : RunUnder Core.step (fun _ a => a ≠ Action.mydui) (initial M) as :=
    runUnder_of_forall as (fun _ _ ha => ne_of_mem_of_not_mem ha hno) _
  exact runUnder_induction (fun _ _ _ h hok hstep => Idle.step h hok hstep) as _ c
    ⟨inv_initial, rfl, nofun⟩ hok hrun

end Core

/-- In every run of `mydui`, `myeui`, `poll`, messages and callbacks, the mask follows the counter
throughout if and only if `mydui` is never called: the flag is clear in every state, a poll always
goes on to the handlers, and behind the first `mydui` the counter is positive. The counter is the
number of open `mydui`s modulo `2 ^ 32`, and the assertion fails only if it has overflowed. -/
theorem masks_iff_no_mydui (as : List (Action M)) (c : Core M)
    (hrun : run Core.step (Core.initial M) as = some c) :
    ((∀ bs c', bs <+: as → run Core.step (Core.initial M) bs = some c' → c'.Masks) ↔
      Action.mydui ∉ as) ∧
    ¬ Masked c.mask.flags ∧
    (∀ fs, c.frames = .poll :: fs → c.aborted = false →
      ∃ c', c.step .step = some c' ∧ c'.frames = .handler :: fs) ∧
    c.mask.uiFlagCtr = BitVec.ofNat 32 c.opened ∧
    (c.aborted = true → 2 ^ 31 < c.opened) := by
  have hinv : c.Inv := Core.inv_run hrun
  refine ⟨⟨fun hmasks hmem => ?_, fun hno bs c' hbs hrun' => ?_⟩, hinv.clear, ?_, hinv.opened,
    hinv.aborted⟩
  · -- the state before and behind the first `mydui`
    obtain ⟨pre, post, rfl, hfirst⟩ := List.eq_append_cons_of_mem hmem
    obtain ⟨c₀, hpre, hrest⟩ := run_append_eq_some.mp hrun
    obtain ⟨c₁, hstep, -⟩ := run_cons_eq_some.mp hrest
    have hidle := Core.idle_run hfirst hpre
    obtain ⟨-, heq⟩ := Option.ite_none_right_eq_some.mp hstep
    cases heq
    refine hidle.inv.not_masks_mydui hidle.opened (hmasks (pre ++ [.mydui]) _ ?_ ?_)
    · exact ⟨post, by simp⟩
    · rw [run_append hpre, run_cons, hstep]
      rfl
  · exact (Core.idle_run (fun hmem => hno (hbs.subset hmem)) hrun').masks
  · intro fs hframes hrunning
    simp [Core.step, hrunning, Core.frameStep, hframes, Uli.poll, hinv.clear]

end

/-- The program masks, a message arrives, and the program polls. The callback masks once more,
unmasks and returns, and the program unmasks. -/
def nestedMasks : List (Action Nat) :=
  [.mydui, .sendI 7, .poll, .step, .step, .mydui, .myeui, .ret, .step, .myeui, .step, .step]

/-- The callback has run inside the masked region. -/
theorem masks_iff_no_mydui_nested :
    ∃ c, run Core.step (Core.initial Nat) nestedMasks = some c ∧ c.entered = [1, 0] ∧
      c.opened = 0 ∧ ¬ Masked c.mask.flags ∧
      ¬ ∀ bs c', bs <+: nestedMasks → run Core.step (Core.initial Nat) bs = some c' → c'.Masks := by
  have h : (run Core.step (Core.initial Nat) nestedMasks).map
      (fun c => (c.entered = [1, 0] ∧ c.opened = 0 : Bool)) = some true := by
    decide
  obtain ⟨c, hrun, hc⟩ := Option.map_eq_some_iff.mp h
  have hc := of_decide_eq_true hc
  obtain ⟨hiff, hclear, -⟩ := masks_iff_no_mydui nestedMasks c hrun
  exact ⟨c, hrun, hc.1, hc.2, hclear, fun hall => hiff.mp hall (by decide)⟩

/-- The program masks, a message arrives, and the program polls. -/
def maskAndPoll : List (Action Nat) := [.mydui, .sendI 7, .poll, .step, .step]

/-- The flag is clear although the counter is 1, and the callback runs. -/
theorem not_masked :
    ∃ c, run Core.step (Core.initial Nat) maskAndPoll = some c ∧ c.mask.uiFlagCtr = 1 ∧
      ¬ Masked c.mask.flags ∧ c.frames = [.callback 7, .handler] := by
  exact exists_of_map_decide (by decide)

end Stacklets.Masking

import Stacklets.Lib.BitField

/-!
# `Stacklets.LazyFork.StubAddress`: the stacklet of a stack pointer

`stackletFork` puts the stub at the end of an aligned buffer, and the first function of the
stacklet starts with its stack pointer at the stub. When this function returns, `stubRoutine` has
to find the buffer from `rsp`, which can be off by what the compiler has pushed. It adds
`RE_ALIGNMENT_FUDGE`, goes back by the distance of the stub from the buffer, and clears the low
bits. Addresses are words of 64 bits, and the distance is a difference of unsigned numbers that
wraps.

* `bufOf_eq_iff`: the buffer is the right one when `rsp` is off by less than the fudge, and only
  then.
-/

set_option autoImplicit false

namespace Stacklets.LazyFork

open Lib

/-- `STACKLET_SIZE`. -/
def stackletSize : Nat := 81920

/-- `STACKLET_BUF_ZEROS`. -/
def stackletBufZeros : Nat := 7

/-- `STACKLET_ALIGNMENT`. -/
def stackletAlignment : Nat := 1 <<< stackletBufZeros

/-- `RE_ALIGNMENT_FUDGE`. -/
def reAlignmentFudge : Nat := 1 <<< (stackletBufZeros - 1)

/-- `sizeof(Stub)`. -/
def sizeofStub : Nat := 64

/-- `(char *)buf + STACKLET_SIZE - sizeof(Stub)`, in `stackletFork` and for `adjustedStub`. -/
def stubOf (buf : BitVec 64) : BitVec 64 :=
  buf + BitVec.ofNat 64 stackletSize - BitVec.ofNat 64 sizeofStub

/-- `buf` in `stubRoutine`, for the stack pointer that `getStackletStub` reads. -/
def bufOf (stackletStub : BitVec 64) : BitVec 64 :=
  (stackletStub + BitVec.ofNat 64 reAlignmentFudge +
      (BitVec.ofNat 64 sizeofStub - BitVec.ofNat 64 stackletSize)) &&&
    ((-1 : BitVec 64) <<< stackletBufZeros)

/-- `adjustedStub` in `stubRoutine`. -/
def adjustedStub (stackletStub : BitVec 64) : BitVec 64 := stubOf (bufOf stackletStub)

/-- What is left of the sum when the buffer is taken off. -/
theorem stubOf_add_sub (base d : BitVec 64) :
    stubOf base + d + BitVec.ofNat 64 reAlignmentFudge +
        (BitVec.ofNat 64 sizeofStub - BitVec.ofNat 64 stackletSize) - base =
      d + BitVec.ofNat 64 reAlignmentFudge := by
  unfold stubOf
  generalize BitVec.ofNat 64 stackletSize = size, BitVec.ofNat 64 sizeofStub = stub
  grind

/-- The displacements that the fudge and the alignment leave room for. -/
theorem toNat_add_fudge_lt (d : BitVec 64) :
    (d + BitVec.ofNat 64 reAlignmentFudge).toNat < stackletAlignment ↔
      -(reAlignmentFudge : Int) ≤ d.toInt ∧ d.toInt < reAlignmentFudge := by
  have hd := d.isLt
  have hsum : (d + BitVec.ofNat 64 reAlignmentFudge).toNat = (d.toNat + 64) % 2 ^ 64 := by
    rw [BitVec.toNat_add, BitVec.toNat_ofNat, show reAlignmentFudge % 2 ^ 64 = 64 by decide]
  rw [hsum, BitVec.toInt_eq_toNat_cond, show stackletAlignment = 128 from rfl,
    show (reAlignmentFudge : Int) = 64 from rfl]
  split <;> omega

theorem stubOf_injective (a b : BitVec 64) (h : stubOf a = stubOf b) : a = b := by
  unfold stubOf at h
  generalize BitVec.ofNat 64 stackletSize = size, BitVec.ofNat 64 sizeofStub = stub at h
  grind

/-- For a buffer at an aligned address and any displacement of `rsp` from its stub, `stubRoutine`
finds the buffer and the stub exactly when the displacement is within the fudge. The sums wrap, so
it does not matter where the buffer ends. -/
theorem bufOf_eq_iff (base d : BitVec 64) (haligned : stackletAlignment ∣ base.toNat) :
    (bufOf (stubOf base + d) = base ↔
      -(reAlignmentFudge : Int) ≤ d.toInt ∧ d.toInt < reAlignmentFudge) ∧
    (adjustedStub (stubOf base + d) = stubOf base ↔
      -(reAlignmentFudge : Int) ≤ d.toInt ∧ d.toInt < reAlignmentFudge) := by
  have hbuf : bufOf (stubOf base + d) = base ↔
      -(reAlignmentFudge : Int) ≤ d.toInt ∧ d.toInt < reAlignmentFudge := by
    rw [← toNat_add_fudge_lt, ← stubOf_add_sub base d]
    exact clearLow_eq_iff _ base (by decide) haligned
  refine ⟨hbuf, ?_⟩
  rw [← hbuf]
  exact ⟨stubOf_injective _ _, congrArg stubOf⟩

/-- The buffer at `0x20000`, with `rsp` 16 bytes above its stub. -/
theorem bufOf_eq_pushed :
    bufOf (stubOf 0x20000 + 16) = 0x20000 ∧
      adjustedStub (stubOf 0x20000 + 16) = stubOf 0x20000 := by
  obtain ⟨hbuf, hstub⟩ := bufOf_eq_iff 0x20000 16 (by decide)
  have hd : -(reAlignmentFudge : Int) ≤ (16 : BitVec 64).toInt ∧
      (16 : BitVec 64).toInt < reAlignmentFudge := by decide
  exact ⟨hbuf.mpr hd, hstub.mpr hd⟩

end Stacklets.LazyFork

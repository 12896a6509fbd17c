import Mathlib.Algebra.GroupWithZero.Nat

/-!
# `Stacklets.Util.Numerals`: names for the threads of a schedule

A schedule on fixed inputs names its threads and cores by numerals of a small `Fin n`. With a
constant for the instance, such a numeral is the same term in every module. Lean makes an auxiliary
lemma out of a larger one.
-/

set_option autoImplicit false

namespace Stacklets.Util

instance (priority := high) neZeroOne : NeZero (1 : Nat) := ⟨Nat.succ_ne_zero 0⟩
instance (priority := high) neZeroTwo : NeZero (2 : Nat) := ⟨Nat.succ_ne_zero 1⟩
instance (priority := high) neZeroThree : NeZero (3 : Nat) := ⟨Nat.succ_ne_zero 2⟩
instance (priority := high) neZeroFour : NeZero (4 : Nat) := ⟨Nat.succ_ne_zero 3⟩

end Stacklets.Util

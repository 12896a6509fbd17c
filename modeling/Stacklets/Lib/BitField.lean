import Mathlib.Data.BitVec

/-!
# `Stacklets.Lib.BitField`: fields of a machine word

Reading and writing the bits from `last` to `first` of a word, as the masks and shifts of C do
it. A field that was written reads back as the value, cut to the width of the field
(`bits_insertBits_self`), and a write leaves the fields alone that it does not overlap
(`bits_insertBits_of_disjoint`). Both come from `getLsbD_insertBits`, which says what each bit of
the new word is.

`clearLow` rounds a word down to a multiple of `2 ^ k`. `clearLow_eq_iff` says which words are
rounded down to a given one, with the wrap of the difference.
-/

set_option autoImplicit false

namespace Stacklets.Lib

section
variable {w : Nat}

/-- The lowest `n` bits. -/
def mask (n : Nat) : BitVec w := BitVec.ofNat w (2 ^ n - 1)

/-- The bits from `last` to `first` of the word, as a number. -/
def bits (val : BitVec w) (first last : Nat) : BitVec w :=
  (val >>> last) &&& mask (first - last + 1)

/-- The word with the bits from `last` to `first` set to those of `data`. -/
def insertBits (val : BitVec w) (first last : Nat) (data : BitVec w) : BitVec w :=
  let bmask : BitVec w := mask (first - last + 1) <<< last
  ((data <<< last) &&& bmask) ||| (val &&& ~~~bmask)

variable (val data : BitVec w) {first last first' last' i : Nat}

theorem getLsbD_mask (n : Nat) : (mask n : BitVec w).getLsbD i = decide (i < w ∧ i < n) := by
  rw [mask, BitVec.getLsbD_ofNat, Nat.testBit_two_pow_sub_one]
  simp

theorem getLsbD_bits :
    (bits val first last).getLsbD i =
      (decide (i < w ∧ i < first - last + 1) && val.getLsbD (last + i)) := by
  rw [bits, BitVec.getLsbD_and, BitVec.getLsbD_ushiftRight, getLsbD_mask, Bool.and_comm]

/-- A bit of the new word is a bit of the value in the field, and an old one outside. -/
theorem getLsbD_insertBits (hfirst : first < w) (hlast : last ≤ first) :
    (insertBits val first last data).getLsbD i =
      if last ≤ i ∧ i ≤ first then data.getLsbD (i - last) else val.getLsbD i := by
  have hmask : (mask (first - last + 1) <<< last : BitVec w).getLsbD i =
      decide (last ≤ i ∧ i ≤ first) := by
    rw [BitVec.getLsbD_shiftLeft, getLsbD_mask]
    by_cases hin : last ≤ i ∧ i ≤ first
    · simp [hin, show i < w by omega, show i - last < w by omega,
        show i - last < first - last + 1 by omega]
    · have hout : i < last ∨ ¬ i - last < first - last + 1 := by omega
      rcases hout with hlow | hhigh
      · simp [hlow, hin]
      · simp [hhigh, hin]
  unfold insertBits
  dsimp only
  rw [BitVec.getLsbD_or, BitVec.getLsbD_and, BitVec.getLsbD_and, BitVec.getLsbD_not, hmask]
  by_cases hin : last ≤ i ∧ i ≤ first
  · rw [if_pos hin, BitVec.getLsbD_shiftLeft]
    simp [hin, show i < w by omega]
  · rw [if_neg hin]
    by_cases hi : i < w
    · simp [hin, hi]
    · simp [hin, BitVec.getLsbD_of_ge val i (by omega)]

/-- A field reads back as what was written, cut to its width. -/
theorem bits_insertBits_self (hfirst : first < w) (hlast : last ≤ first) :
    bits (insertBits val first last data) first last = data &&& mask (first - last + 1) := by
  ext i hi
  simp only [← BitVec.getLsbD_eq_getElem]
  rw [getLsbD_bits, getLsbD_insertBits val data hfirst hlast, BitVec.getLsbD_and, getLsbD_mask]
  by_cases hin : i < first - last + 1
  · rw [if_pos (by omega)]
    simp [hin, hi]
  · simp [hin]

/-- A write leaves a field that it does not overlap. -/
theorem bits_insertBits_of_disjoint (hfirst : first < w) (hlast : last ≤ first)
    (hdisjoint : first' < last ∨ first < last') (hlast' : last' ≤ first') :
    bits (insertBits val first last data) first' last' = bits val first' last' := by
  ext i hi
  simp only [← BitVec.getLsbD_eq_getElem]
  rw [getLsbD_bits, getLsbD_bits, getLsbD_insertBits val data hfirst hlast]
  by_cases hin : i < first' - last' + 1
  · rw [if_neg (by omega)]
  · simp [hin]

/-- The value of a masked number. -/
theorem toNat_and_mask {n : Nat} (hn : n ≤ w) :
    (data &&& mask n).toNat = data.toNat % 2 ^ n := by
  have hlt : 2 ^ n - 1 < 2 ^ w := by
    have hpow : 2 ^ n ≤ 2 ^ w := Nat.pow_le_pow_right (by decide) hn
    have hpos : 0 < 2 ^ n := Nat.two_pow_pos n
    omega
  rw [BitVec.toNat_and, mask, BitVec.toNat_ofNat, Nat.mod_eq_of_lt hlt,
    Nat.and_two_pow_sub_one_eq_mod]

end

/-! ### Rounding down -/

section
variable {w k : Nat} (x b : BitVec w)

/-- The word with its lowest `k` bits cleared. -/
def clearLow (k : Nat) (x : BitVec w) : BitVec w := x &&& ((-1 : BitVec w) <<< k)

theorem clearLow_eq : clearLow k x = x >>> k <<< k := by
  ext i hi
  rw [clearLow, BitVec.getElem_and, BitVec.getElem_shiftLeft, BitVec.getElem_shiftLeft]
  by_cases hik : i < k
  · simp [hik]
  · have hki : k + (i - k) = i := by omega
    simp [hik, BitVec.neg_one_eq_allOnes, hki, BitVec.getLsbD_eq_getElem hi]

theorem toNat_clearLow : (clearLow k x).toNat = x.toNat / 2 ^ k * 2 ^ k := by
  rw [clearLow_eq, BitVec.toNat_shiftLeft, BitVec.toNat_ushiftRight, Nat.shiftLeft_eq,
    Nat.shiftRight_eq_div_pow]
  exact Nat.mod_eq_of_lt (lt_of_le_of_lt (Nat.div_mul_le_self _ _) x.isLt)

/-- The last aligned word has `2 ^ k - 1` others behind it. -/
theorem toNat_add_le_of_dvd (hk : k ≤ w) (hb : 2 ^ k ∣ b.toNat) : b.toNat + 2 ^ k ≤ 2 ^ w := by
  obtain ⟨c, hc⟩ := hb
  obtain ⟨d, hd⟩ := Nat.pow_dvd_pow 2 hk
  have hlt : 2 ^ k * c < 2 ^ k * d := by
    rw [← hc, ← hd]
    exact b.isLt
  have hle : 2 ^ k * (c + 1) ≤ 2 ^ k * d := Nat.mul_le_mul_left _ (Nat.lt_of_mul_lt_mul_left hlt)
  rw [Nat.mul_add, Nat.mul_one] at hle
  omega

/-- Rounding `x` down gives the aligned word `b` when `x` is less than `2 ^ k` behind `b`. -/
theorem clearLow_eq_iff (hk : k ≤ w) (hb : 2 ^ k ∣ b.toNat) :
    clearLow k x = b ↔ (x - b).toNat < 2 ^ k := by
  have hroom := toNat_add_le_of_dvd b hk hb
  have hpos := Nat.two_pow_pos k
  have hx := x.isLt
  rw [← BitVec.toNat_inj, toNat_clearLow, BitVec.toNat_sub]
  have hlow := Nat.div_mul_le_self x.toNat (2 ^ k)
  cases Nat.lt_or_ge x.toNat b.toNat with
  | inl hlt =>
    -- The difference wraps, and there is room for an aligned block behind `b`.
    rw [Nat.mod_eq_of_lt (by omega)]
    omega
  | inr hge =>
    obtain ⟨c, hc⟩ := hb
    rw [show 2 ^ w - b.toNat + x.toNat = x.toNat - b.toNat + 2 ^ w by omega,
      Nat.add_mod_right, Nat.mod_eq_of_lt (by omega)]
    constructor
    · intro h
      have hmod := Nat.mod_lt x.toNat hpos
      have hsum := Nat.div_add_mod' x.toNat (2 ^ k)
      omega
    · intro h
      have hdiv : x.toNat / 2 ^ k = c := by
        rw [Nat.div_eq_iff hpos]
        rw [hc] at hge h
        rw [Nat.mul_comm c]
        omega
      rw [hdiv, hc, Nat.mul_comm]
end

end Stacklets.Lib

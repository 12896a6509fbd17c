import Mathlib.Algebra.Order.Ring.Nat
import Mathlib.Logic.Function.Basic
import Stacklets.Lib.Objects

/-!
# `Stacklets.Util.Array`: the dynamic array of `util.c`

An `Array` has `size` cells in `data`, of which the first `length` are in use. `calloc` sets the
cells to `NULL`. `realloc` keeps the old cells and leaves the new ones undefined. An access behind
the cells, an overflow of `int` and a failed `assert` end the call with a `Fault`.

`Slots` is what the array is for: an array without end, in which every index holds `NULL` at
first. `ArrayAdd` puts an element at the index `length`.

`ArrayGet` and `ArrayPut` grow the array while `idx` is greater than `size`, so it does not grow
when the two are equal. They pad the cells below `idx` with `NULL`, but not the one at `idx`.

* `array_refines`: any sequence of calls does what `Slots` says, as long as no index of `ArrayPut`
  is a size that the array has or gets to, and every index of `ArrayGet` is below the length or
  the first size.
* `arrayPut_error_of_reached`, `Array.Holds.get_fails`: both conditions are needed. For the other
  indices `ArrayPut` writes behind the last cell, and `ArrayGet` reads behind it or returns a cell
  that `realloc` left undefined.
* `array_fails`: the two ways in which the array is not like `Slots`.
-/

set_option autoImplicit false

namespace Stacklets.Util

open Function (update update_self update_of_ne)
open Lib

/-- Why a call does not return. -/
inductive Fault
  | outOfBounds
  | overflow
  | assertFailed
deriving DecidableEq

section
variable {α : Type*}

/-- What a cell of `data` holds. `NULL` is the pointer `none`. -/
inductive Cell (α : Type*)
  | undefined
  | pointer (p : Option α)
deriving DecidableEq

/-- `Array`. -/
structure Array (α : Type*) where
  data : Nat → Cell α
  size : Nat
  length : Nat

/-- `ArrayAllocate`. -/
def arrayAllocate (startsize : Int) : Array α :=
  let startsize := if startsize < 2 then 2 else startsize
  ⟨fun _ => .pointer none, startsize.toNat, 0⟩

/-- `ArrayGrow`. -/
def arrayGrow (p : Array α) : Except Fault (Array α) :=
  if p.size > 1 then
    if p.size * 2 < 2 ^ 31 then
      .ok { p with
        data := fun i => if i < p.size then p.data i else .undefined, size := p.size * 2 }
    else .error .overflow
  else .error .assertFailed

/-- `p->data[i] = elem`. -/
def Array.store (p : Array α) (i : Nat) (elem : Option α) : Except Fault (Array α) :=
  if i < p.size then .ok { p with data := update p.data i (.pointer elem) }
  else .error .outOfBounds

/-- `p->data[i]`. -/
def Array.load (p : Array α) (i : Nat) : Except Fault (Cell α) :=
  if i < p.size then .ok (p.data i) else .error .outOfBounds

/-- `ArrayGrow` makes the array larger. -/
theorem size_lt_of_arrayGrow {p p' : Array α} (h : arrayGrow p = .ok p') : p.size < p'.size := by
  unfold arrayGrow at h
  split at h
  · rename_i hsize
    split at h
    · cases h
      show p.size < p.size * 2
      omega
    · cases h
  · cases h

/-- A store keeps the length. -/
theorem length_of_store {p p' : Array α} {i : Nat} {elem : Option α}
    (h : p.store i elem = .ok p') : p'.length = p.length := by
  unfold Array.store at h
  split at h
  · cases h
    rfl
  · cases h

/-- `while (idx > p->size) ArrayGrow(p);`. -/
def growLoop (idx : Nat) (p : Array α) : Except Fault (Array α) :=
  if p.size < idx then
    match _hgrow : arrayGrow p with
    | .ok p' => growLoop idx p'
    | .error e => .error e
  else .ok p
termination_by idx - p.size
decreasing_by
  have hlt := size_lt_of_arrayGrow _hgrow
  omega

/-- `while (idx > p->length) p->data[p->length++] = NULL;`. -/
def padLoop (idx : Nat) (p : Array α) : Except Fault (Array α) :=
  if p.length < idx then
    match _hstore : p.store p.length none with
    | .ok p' => padLoop idx { p' with length := p'.length + 1 }
    | .error e => .error e
  else .ok p
termination_by idx - p.length
decreasing_by
  have hlen := length_of_store _hstore
  show idx - (p'.length + 1) < idx - p.length
  omega

/-- `ArrayAdd`. -/
def arrayAdd (p : Array α) (elem : Option α) : Except Fault (Array α) := do
  let p ← (if p.size = p.length then arrayGrow p else .ok p)
  let p ← p.store p.length elem
  .ok { p with length := p.length + 1 }

/-- `ArrayGet`. It can change the array. -/
def arrayGet (p : Array α) (idx : Nat) : Except Fault (Cell α × Array α) := do
  let p ← growLoop idx p
  let p ← padLoop idx p
  let cell ← p.load idx
  .ok (cell, p)

/-- `ArrayPut`. -/
def arrayPut (p : Array α) (idx : Nat) (elem : Option α) : Except Fault (Array α) := do
  let p ← growLoop idx p
  let p ← padLoop idx p
  let p ← p.store idx elem
  .ok { p with length := if idx ≥ p.length then idx + 1 else p.length }

/-! ### The loops -/

variable {p : Array α} {idx i : Nat} {elem : Option α}

/-- `ArrayGrow` doubles the size and leaves the new cells undefined. -/
theorem arrayGrow_eq (hsize : 2 ≤ p.size) (hfits : p.size < 2 ^ 30) :
    arrayGrow p = .ok { p with
      data := fun i => if i < p.size then p.data i else .undefined, size := p.size * 2 } := by
  rw [arrayGrow, if_pos (by omega), if_pos (by omega)]

/-- The first loop doubles the size until it is not below the index. It keeps the cells, and the
new ones are undefined. -/
theorem growLoop_spec (hsize : 2 ≤ p.size) (hidx : idx < 2 ^ 30) :
    ∃ k p', growLoop idx p = .ok p' ∧ p'.size = p.size * 2 ^ k ∧ idx ≤ p'.size ∧
      (p'.size = p.size ∨ p'.size < idx * 2) ∧ p'.length = p.length ∧
      ∀ i < p'.size, p'.data i = if i < p.size then p.data i else .undefined := by
  fun_induction growLoop idx p with
  | case1 p hlt p₁ hgrow ih =>
    cases (arrayGrow_eq hsize (by omega)).symm.trans hgrow
    obtain ⟨k, p', hloop, hsize', hidx', hleast, hlen, hdata⟩ :=
      ih (show 2 ≤ p.size * 2 by omega)
    -- the size was below `idx` before this doubling, so it is below `idx * 2` now
    refine ⟨k + 1, p', hloop, ?_, hidx', .inr ?_, hlen, fun i hi => ?_⟩
    · rw [hsize', Nat.pow_succ, Nat.mul_comm (2 ^ k), ← Nat.mul_assoc]
    · rcases hleast with heq | hlt'
      · rw [heq]
        show p.size * 2 < idx * 2
        omega
      · exact hlt'
    · rw [hdata i hi]
      show (if i < p.size * 2 then if i < p.size then p.data i else _ else _) = _
      by_cases hlow : i < p.size * 2
      · rw [if_pos hlow]
      · rw [if_neg hlow, if_neg (by omega)]
  | case2 p hlt e hgrow => cases (arrayGrow_eq hsize (by omega)).symm.trans hgrow
  | case3 p hlt => exact ⟨0, p, rfl, by simp, by omega, .inl rfl, rfl,
      fun i hi => (if_pos hi).symm⟩

theorem store_eq (h : i < p.size) :
    p.store i elem = .ok { p with data := update p.data i (.pointer elem) } := if_pos h

/-- The second loop sets the cells from the length to the index to `NULL`. -/
theorem padLoop_spec (hidx : idx ≤ p.size) :
    ∃ p', padLoop idx p = .ok p' ∧ p'.size = p.size ∧ p'.length = max p.length idx ∧
      ∀ i, p'.data i = if p.length ≤ i ∧ i < idx then .pointer none else p.data i := by
  fun_induction padLoop idx p with
  | case1 p hlt p₁ hstore ih =>
    cases (store_eq (by omega)).symm.trans hstore
    obtain ⟨p', hloop, hsize, hlen, hdata⟩ := ih hidx
    -- this turn writes the cell at the old length, and the rest of the loop those above it
    refine ⟨p', hloop, hsize, ?_, fun i => ?_⟩
    · rw [hlen]
      show max (p.length + 1) idx = max p.length idx
      omega
    · rw [hdata i]
      show (if p.length + 1 ≤ i ∧ i < idx then _ else update _ _ _ i) = _
      by_cases hi : i = p.length
      · subst hi
        rw [if_neg (by omega), if_pos (by omega), update_self]
      · rw [update_of_ne hi]
        by_cases hin : p.length ≤ i ∧ i < idx
        · rw [if_pos hin, if_pos (by omega)]
        · rw [if_neg hin, if_neg (by omega)]
  | case2 p hlt e hstore => cases (store_eq (by omega)).symm.trans hstore
  | case3 p hlt =>
    refine ⟨p, rfl, rfl, by omega, fun i => ?_⟩
    rw [if_neg (by omega)]

/-! ### The calls -/

/-- What the two loops of `ArrayGet` and `ArrayPut` leave. -/
structure Reaches (p : Array α) (idx : Nat) (p' : Array α) : Prop where
  loops : (growLoop idx p >>= padLoop idx) = .ok p'
  size : ∃ k, p'.size = p.size * 2 ^ k
  le_size : idx ≤ p'.size
  least : p'.size = p.size ∨ p'.size < idx * 2
  length : p'.length = max p.length idx
  data : ∀ i < p'.size, p'.data i =
    if p.length ≤ i ∧ i < idx then .pointer none
    else if i < p.size then p.data i else .undefined

/-- For the sizes that `int` has, the loops end without a fault. -/
theorem exists_reaches (hsize : 2 ≤ p.size) (hidx : idx < 2 ^ 30) : ∃ p', Reaches p idx p' := by
  obtain ⟨k, p₁, hgrow, hsize₁, hidx₁, hleast, hlen₁, hdata₁⟩ := growLoop_spec hsize hidx
  obtain ⟨p', hpad, hsize', hlen', hdata'⟩ := padLoop_spec hidx₁
  rw [← hsize'] at hsize₁ hidx₁ hleast
  refine ⟨p', ?_, ⟨k, hsize₁⟩, hidx₁, hleast, hlen₁ ▸ hlen', ?_⟩
  · rw [hgrow]
    exact hpad
  · intro i hi
    rw [hdata' i, hlen₁, hdata₁ i (hsize' ▸ hi)]

/-- `ArrayPut` behind its loop: a store, and the new length. -/
theorem arrayPut_eq {p' : Array α} (h : Reaches p idx p') :
    arrayPut p idx elem = (p'.store idx elem).map fun p =>
      { p with length := if idx ≥ p.length then idx + 1 else p.length } := by
  have hassoc : arrayPut p idx elem = (growLoop idx p >>= padLoop idx) >>= fun p =>
      p.store idx elem >>= fun p =>
        .ok { p with length := if idx ≥ p.length then idx + 1 else p.length } :=
    (bind_assoc _ _ _).symm
  rw [hassoc, h.loops]
  show (p'.store idx elem >>= fun p => .ok _) = _
  cases p'.store idx elem <;> rfl

/-- `ArrayGet` behind its loop: a load. -/
theorem arrayGet_eq {p' : Array α} (h : Reaches p idx p') :
    arrayGet p idx = (p'.load idx).map fun cell => (cell, p') := by
  have hassoc : arrayGet p idx = (growLoop idx p >>= padLoop idx) >>= fun p =>
      p.load idx >>= fun cell => .ok (cell, p) := (bind_assoc _ _ _).symm
  rw [hassoc, h.loops]
  show (p'.load idx >>= fun cell => .ok (cell, p')) = _
  cases p'.load idx <;> rfl

/-- The array grows to the size `idx` and no further, and has no cell there. -/
theorem arrayPut_error_of_reached (hsize : 2 ≤ p.size) (hidx : idx < 2 ^ 30) {j : Nat}
    (hj : idx = p.size * 2 ^ j) : arrayPut p idx elem = .error .outOfBounds := by
  obtain ⟨p', h⟩ := exists_reaches hsize hidx
  obtain ⟨k, hk⟩ := h.size
  -- `p'.size` is the least of the doubled sizes that is not below `idx`
  have hkj : k ≤ j := by
    rcases h.least with heq | hlt
    · have hpow : 2 ^ k = 1 := Nat.eq_of_mul_eq_mul_left (by omega : 0 < p.size) (by omega)
      have hlt := Nat.lt_two_pow_self (n := k)
      omega
    · rw [hk, hj, Nat.mul_assoc, ← Nat.pow_succ] at hlt
      have hpow := Nat.lt_of_mul_lt_mul_left hlt
      have hkj := (Nat.pow_lt_pow_iff_right (by decide)).mp hpow
      omega
  have hle : p'.size ≤ idx := by
    rw [hk, hj]
    exact Nat.mul_le_mul_left _ (Nat.pow_le_pow_right (by decide) hkj)
  rw [arrayPut_eq h, Array.store, if_neg (by omega)]
  rfl

/-! ### An array without end -/

/-- What every index holds, and the index where the next element is added. -/
structure Slots (α : Type*) where
  cells : Nat → Option α
  length : Nat

/-- A call of a function of the array. -/
inductive ArrayOp (α : Type*)
  | add (elem : Option α)
  | put (idx : Nat) (elem : Option α)
  | get (idx : Nat)

/-- One call, with what it returns. -/
def Array.call (p : Array α) : ArrayOp α → Option (Option (Cell α) × Array α)
  | .add elem => (arrayAdd p elem).toOption.map fun p => (none, p)
  | .put idx elem => (arrayPut p idx elem).toOption.map fun p => (none, p)
  | .get idx => (arrayGet p idx).toOption.map fun r => (some r.1, r.2)

/-- What a call does to the slots. -/
def Slots.call (c : Slots α) : ArrayOp α → Option (Option (Cell α) × Slots α)
  | .add elem => some (none, ⟨update c.cells c.length elem, c.length + 1⟩)
  | .put idx elem => some (none, ⟨update c.cells idx elem, max c.length (idx + 1)⟩)
  | .get idx => some (some (.pointer (c.cells idx)), { c with length := max c.length idx })

/-- The slots of a new array. -/
def Slots.initial : Slots α := ⟨fun _ => none, 0⟩

/-- The calls that work, on an array that `ArrayAllocate` has made with the size `start`. -/
def Array.Works (start : Nat) (p : Array α) : ArrayOp α → Prop
  | .add _ => p.size < 2 ^ 30
  | .put idx _ => idx < 2 ^ 30 ∧ ∀ k ≤ idx, idx ≠ p.size * 2 ^ k
  | .get idx => idx < 2 ^ 30 ∧ (idx < p.length ∨ idx < start)

instance (start : Nat) (p : Array α) : ∀ op, Decidable (p.Works start op)
  | .add _ => inferInstanceAs (Decidable (p.size < 2 ^ 30))
  | .put idx _ => inferInstanceAs (Decidable (idx < 2 ^ 30 ∧ ∀ k ≤ idx, idx ≠ p.size * 2 ^ k))
  | .get idx => inferInstanceAs (Decidable (idx < 2 ^ 30 ∧ (idx < p.length ∨ idx < start)))

/-- The array holds the slots. Behind the length, the cells of the first allocation are `NULL` and
the other ones undefined. -/
structure Array.Holds (start : Nat) (p : Array α) (c : Slots α) : Prop where
  two_le : 2 ≤ p.size
  start_le : start ≤ p.size
  length : p.length = c.length
  length_le : p.length ≤ p.size
  cells : ∀ i < p.length, p.data i = .pointer (c.cells i)
  free : ∀ i, p.length ≤ i → c.cells i = none
  fresh : ∀ i, p.length ≤ i → i < p.size →
    p.data i = if i < start then .pointer none else .undefined

variable {start : Nat} {c : Slots α}

theorem Array.Holds.initial (startsize : Int) :
    (arrayAllocate (α := α) startsize).Holds (arrayAllocate (α := α) startsize).size
      Slots.initial where
  two_le := by
    show 2 ≤ (if startsize < 2 then 2 else startsize).toNat
    split <;> omega
  start_le := Nat.le_refl _
  length := rfl
  length_le := Nat.zero_le _
  cells := nofun
  free _ _ := rfl
  fresh _ _ hi := (if_pos hi).symm

/-- Growing the array leaves the cells that are in use. -/
theorem Array.Holds.grow (h : p.Holds start c) (hfits : p.size < 2 ^ 30) :
    ∃ p', arrayGrow p = .ok p' ∧ p'.Holds start c ∧ p'.length = p.length ∧
      p'.length < p'.size := by
  refine ⟨_, arrayGrow_eq h.two_le hfits, ⟨?_, ?_, h.length, ?_, ?_, h.free, ?_⟩, rfl, ?_⟩
  · have := h.two_le
    show 2 ≤ p.size * 2
    omega
  · have := h.start_le
    show start ≤ p.size * 2
    omega
  · have := h.length_le
    show p.length ≤ p.size * 2
    omega
  · intro i hi
    have hi : i < p.length := hi
    have hle := h.length_le
    exact (if_pos (by omega)).trans (h.cells i hi)
  · intro i hi hsize
    have hle := h.start_le
    by_cases hlow : i < p.size
    · exact (if_pos hlow).trans (h.fresh i hi hlow)
    · exact (if_neg hlow).trans (if_neg (by omega)).symm
  · have h₁ := h.two_le
    have h₂ := h.length_le
    show p.length < p.size * 2
    omega

/-- `ArrayAdd` puts the element at the first free index. -/
theorem Array.Holds.add (h : p.Holds start c) (elem : Option α) (hfits : p.size < 2 ^ 30) :
    ∃ p', arrayAdd p elem = .ok p' ∧
      p'.Holds start ⟨update c.cells c.length elem, c.length + 1⟩ := by
  -- behind the test there is a cell at the length
  obtain ⟨p₁, hgrow, h₁, hlen₁, hroom⟩ : ∃ p₁,
      (if p.size = p.length then arrayGrow p else .ok p) = .ok p₁ ∧ p₁.Holds start c ∧
        p₁.length = p.length ∧ p₁.length < p₁.size := by
    have hle := h.length_le
    by_cases hfull : p.size = p.length
    · rw [if_pos hfull]
      exact h.grow hfits
    · rw [if_neg hfull]
      exact ⟨p, rfl, h, rfl, by omega⟩
  have hadd : arrayAdd p elem = .ok { p₁ with
      data := update p₁.data p₁.length (.pointer elem), length := p₁.length + 1 } := by
    rw [arrayAdd, hgrow]
    show (p₁.store p₁.length elem >>= fun p => .ok _) = _
    rw [store_eq hroom]
    rfl
  refine ⟨_, hadd, h₁.two_le, h₁.start_le, ?_, hroom, ?_, ?_, ?_⟩
  · show p₁.length + 1 = c.length + 1
    rw [h₁.length]
  · intro i hi
    have hi : i < p₁.length + 1 := hi
    show update p₁.data p₁.length (.pointer elem) i =
      .pointer (update c.cells c.length elem i)
    rw [← h₁.length]
    by_cases hlast : i = p₁.length
    · rw [hlast, update_self, update_self]
    · rw [update_of_ne hlast, update_of_ne hlast]
      exact h₁.cells i (by omega)
  · intro i hi
    have hi : p₁.length + 1 ≤ i := hi
    show update c.cells c.length elem i = none
    rw [← h₁.length, update_of_ne (by omega)]
    exact h₁.free i (by omega)
  · intro i hi hsize
    have hi : p₁.length + 1 ≤ i := hi
    show update p₁.data p₁.length (.pointer elem) i = _
    rw [update_of_ne (by omega)]
    exact h₁.fresh i (by omega) hsize

/-- The loops keep the slots, and the array is as long as the index. -/
theorem Array.Holds.reaches {p' : Array α} (h : p.Holds start c) (hr : Reaches p idx p') :
    p'.Holds start { c with length := max c.length idx } := by
  have hsize : p.size ≤ p'.size := by
    obtain ⟨k, hk⟩ := hr.size
    rw [hk]
    exact Nat.le_mul_of_pos_right _ (Nat.two_pow_pos k)
  have hlen := hr.length
  have hle := h.length_le
  have hidx := hr.le_size
  have hstart := h.start_le
  refine ⟨Nat.le_trans h.two_le hsize, Nat.le_trans hstart hsize, ?_, by omega, ?_, ?_, ?_⟩
  · rw [hlen, h.length]
  · intro i hi
    -- the loops leave the cells in use, and the ones they add are `NULL`
    by_cases hold : i < p.length
    · rw [hr.data i (by omega), if_neg (by omega), if_pos (by omega)]
      exact h.cells i hold
    · rw [hr.data i (by omega), if_pos (by omega)]
      exact congrArg _ (h.free i (by omega)).symm
  · intro i hi
    exact h.free i (by omega)
  · intro i hi hsize'
    rw [hr.data i hsize', if_neg (by omega)]
    by_cases hlow : i < p.size
    · rw [if_pos hlow]
      exact h.fresh i (by omega) hlow
    · rw [if_neg hlow, if_neg (by omega)]

/-- `ArrayPut`, when the array has a cell at the index behind the loops. -/
theorem Array.Holds.put (h : p.Holds start c) (elem : Option α) (hidx : idx < 2 ^ 30)
    (hreach : ∀ k ≤ idx, idx ≠ p.size * 2 ^ k) :
    ∃ p', arrayPut p idx elem = .ok p' ∧
      p'.Holds start ⟨update c.cells idx elem, max c.length (idx + 1)⟩ := by
  obtain ⟨p₁, hr⟩ := exists_reaches h.two_le hidx
  have h₁ := h.reaches hr
  have hlt : idx < p₁.size := by
    have hle := hr.le_size
    obtain ⟨k, hk⟩ := hr.size
    -- a size that is equal to `idx` would have been reached with at most `idx` steps
    have hne : idx ≠ p₁.size := by
      intro heq
      have hpos := h.two_le
      have hpow := Nat.lt_two_pow_self (n := k)
      have hmul : 2 ^ k ≤ p.size * 2 ^ k := Nat.le_mul_of_pos_left _ (by omega)
      exact hreach k (by omega) (heq.trans hk)
    omega
  have hput : arrayPut p idx elem = .ok { p₁ with
      data := update p₁.data idx (.pointer elem)
      length := if idx ≥ p₁.length then idx + 1 else p₁.length } := by
    rw [arrayPut_eq hr, store_eq hlt]
    rfl
  have hlen : p₁.length = max c.length idx := h₁.length
  have hnew : (if idx ≥ p₁.length then idx + 1 else p₁.length) = max c.length (idx + 1) := by
    split <;> omega
  rw [hnew] at hput
  refine ⟨_, hput, h₁.two_le, h₁.start_le, rfl, ?_, ?_, ?_, ?_⟩
  · have hle := h₁.length_le
    show max c.length (idx + 1) ≤ p₁.size
    omega
  · intro i hi
    have hi : i < max c.length (idx + 1) := hi
    show update p₁.data idx (.pointer elem) i =
      .pointer (update c.cells idx elem i)
    by_cases heq : i = idx
    · rw [heq, update_self, update_self]
    · rw [update_of_ne heq, update_of_ne heq]
      exact h₁.cells i (by omega)
  · intro i hi
    have hi : max c.length (idx + 1) ≤ i := hi
    show update c.cells idx elem i = none
    rw [update_of_ne (by omega)]
    exact h₁.free i (by omega)
  · intro i hi hsize
    have hi : max c.length (idx + 1) ≤ i := hi
    show update p₁.data idx (.pointer elem) i = _
    rw [update_of_ne (by omega)]
    exact h₁.fresh i (by omega) hsize

/-- `ArrayGet`, when the cell is in use or still `NULL` from the first allocation. -/
theorem Array.Holds.get (h : p.Holds start c) (hidx : idx < 2 ^ 30)
    (hlow : idx < p.length ∨ idx < start) :
    ∃ p', arrayGet p idx = .ok (.pointer (c.cells idx), p') ∧
      p'.Holds start { c with length := max c.length idx } := by
  obtain ⟨p₁, hr⟩ := exists_reaches h.two_le hidx
  have h₁ := h.reaches hr
  have hlen : p₁.length = max p.length idx := hr.length
  have hle := h₁.length_le
  have hstart := h₁.start_le
  -- `padLoop` stops below `idx`: a cell there that is not in use is one of the first allocation
  have hcell : p₁.data idx = .pointer (c.cells idx) := by
    by_cases hin : idx < p₁.length
    · exact h₁.cells idx hin
    · rw [h₁.fresh idx (by omega) (by omega), if_pos (by omega)]
      exact congrArg _ (h₁.free idx (by omega)).symm
  refine ⟨p₁, ?_, h₁⟩
  rw [arrayGet_eq hr, Array.load, if_pos (by omega), hcell]
  rfl

/-- `ArrayGet` for any other index: there is no cell, or `realloc` has left it undefined. -/
theorem Array.Holds.get_fails (h : p.Holds start c) (hidx : idx < 2 ^ 30) (hlen : p.length ≤ idx)
    (hstart : start ≤ idx) :
    arrayGet p idx = .error .outOfBounds ∨ ∃ p', arrayGet p idx = .ok (.undefined, p') := by
  obtain ⟨p₁, hr⟩ := exists_reaches h.two_le hidx
  rw [arrayGet_eq hr, Array.load]
  by_cases hin : idx < p₁.size
  · right
    have hlen₁ := hr.length
    rw [if_pos hin, (h.reaches hr).fresh idx (by omega) hin, if_neg (by omega)]
    exact ⟨p₁, rfl⟩
  · left
    rw [if_neg hin]
    rfl

/-- Each call that works does what the slots say. -/
theorem Array.Holds.call {r : Option (Cell α)} {c' : Slots α} (h : p.Holds start c)
    (op : ArrayOp α) (hop : p.Works start op) (hc : c.call op = some (r, c')) :
    ∃ p', p.call op = some (r, p') ∧ p'.Holds start c' := by
  cases op with
  | add elem =>
    cases hc
    obtain ⟨p', hadd, h'⟩ := h.add elem hop
    exact ⟨p', by rw [Array.call, hadd]; rfl, h'⟩
  | put idx elem =>
    cases hc
    obtain ⟨p', hput, h'⟩ := h.put elem hop.1 hop.2
    exact ⟨p', by rw [Array.call, hput]; rfl, h'⟩
  | get idx =>
    cases hc
    obtain ⟨p', hget, h'⟩ := h.get hop.1 hop.2
    exact ⟨p', by rw [Array.call, hget]; rfl, h'⟩

/-- Any sequence of calls that work, on a new array of any start size: no call ends with a fault,
each one returns what the slots say, and at the end the length is at most the size. -/
theorem array_refines (startsize : Int) {ops : List (ArrayOp α)}
    {results : List (Option (Cell α))}
    (hops : RunUnder (next Array.call) (Array.Works (arrayAllocate (α := α) startsize).size)
      (arrayAllocate startsize) ops)
    (hc : calls Slots.call Slots.initial ops = some (results, c)) :
    ∃ p, calls Array.call (arrayAllocate startsize) ops = some (results, p) ∧
      p.length = c.length ∧ p.length ≤ p.size := by
  obtain ⟨p, hcalls, hp⟩ := calls_refines (fun _ _ op _ _ h hop hc => h.call op hop hc) ops _ _ _ _
    (Array.Holds.initial startsize) hops hc
  exact ⟨p, hcalls, hp.length, hp.length_le⟩

end

/-- The array of two cells grows to four cells for the third element, and to eight for an index
above. -/
def growsTwice : List (ArrayOp Nat) :=
  [.add (some 10), .get 1, .add (some 11), .add (some 12), .put 6 (some 16), .get 5, .get 2]

/-- The calls above grow the array twice. -/
theorem array_refines_growsTwice :
    ∃ p, calls Array.call (arrayAllocate 0) growsTwice =
        some ([none, some (.pointer none), none, none, none, some (.pointer none),
          some (.pointer (some 12))], p) ∧ p.length = 7 ∧ p.length ≤ p.size := by
  have hops : RunUnder (next Array.call) (Array.Works (arrayAllocate (α := Nat) 0).size)
      (arrayAllocate 0) growsTwice := by
    decide +kernel
  exact array_refines 0 hops rfl

/-- `ArrayPut` at the index 2 of a new array with two cells writes behind them. After three calls
of `ArrayAdd`, `ArrayGet` at the index 3 returns a cell that `realloc` left undefined. -/
theorem array_fails :
    arrayPut (arrayAllocate 2) 2 (some 1) = .error .outOfBounds ∧
      (calls Array.call (arrayAllocate 2)
        [.add (some 1), .add (some 2), .add (some 3), .get 3]).map Prod.fst =
        some [none, none, none, some .undefined] := by
  constructor
  · exact arrayPut_error_of_reached (j := 0) (by decide) (by decide) (by decide)
  · decide +kernel

end Stacklets.Util

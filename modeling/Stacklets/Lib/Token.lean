import Mathlib.Data.List.Basic
import Mathlib.Logic.Function.Basic

/-!
# `Stacklets.Lib.Token`: a token with one owner, and a store with one writer

A token is a shared word that is empty or names its owner. Threads take it with a
compare-and-swap and put it back with a plain store. While a thread has the token it is in some
local state, and `view t` is this state, or `none` for a thread without the token. `Token o v x`
says that the word `o` and the views agree, and that `x` is the local state of the owner.
`Token.Step` lists what one step of a thread can do, and `Token.step` keeps the agreement.

`Stores` is for a buffer whose cells are used again: the positions from `lo` on still have
their entries in the cells. One writer appends, and one reader moves `lo` up.
-/

set_option autoImplicit false

namespace Stacklets.Lib

/-! ### Tokens -/

section
variable {T β : Type*} [DecidableEq T]

/-- The owner is the only thread with a local state, and this state is `x`. -/
structure Token (o : Option T) (v : T → Option β) (x : Option β) : Prop where
  free : o = none ↔ x = none
  view : ∀ t, v t = if o = some t then x else none

/-- The local state of the owner, after the view of one thread went from `a` to `w`. -/
def Token.next : Option β → Option β → Option β → Option β
  | none, none, x => x
  | _, w, _ => w

/-- What a step of `t` does to the word and to the view of `t`. -/
inductive Token.Step (t : T) (o : Option T) : Option β → Option T → Option β → Prop
  /-- `t` does not have the token, and does not get it. -/
  | away : Token.Step t o none o none
  | acquire (free : o = none) (b : β) : Token.Step t o none (some t) (some b)
  | move (mine : o = some t) (a b : β) : Token.Step t o (some a) o (some b)
  | release (mine : o = some t) (a : β) : Token.Step t o (some a) none none

namespace Token
variable {o o' : Option T} {v : T → Option β} {x w : Option β} {t u : T} {a : β}

@[simp] theorem next_none (x : Option β) : next none none x = x := rfl
@[simp] theorem next_some_left (a : β) (w x : Option β) : next (some a) w x = w := rfl
@[simp] theorem next_some_right (v x : Option β) (b : β) : next v (some b) x = some b := by
  cases v <;> rfl

/-- With the word empty no thread has a local state. -/
theorem empty {v : T → Option β} (hv : ∀ t, v t = none) : Token (none : Option T) v none :=
  ⟨by simp, fun t => by simp [hv t]⟩

theorem owner_of_view (h : Token o v x) (ht : v t = some a) : o = some t ∧ x = some a := by
  rw [h.view t] at ht
  split at ht
  · exact ⟨‹_›, ht⟩
  · cases ht

/-- A local state of the owner belongs to some thread. -/
theorem exists_view (h : Token o v (some a)) : ∃ t, v t = some a := by
  cases o with
  | none => cases h.free.mp rfl
  | some t => exact ⟨t, by rw [h.view t, if_pos rfl]⟩

/-- A thread without the token can go anywhere without it. -/
theorem keep (h : Token o v x) (ht : v t = none) : Token o (Function.update v t none) x := by
  rw [← ht, Function.update_eq_self]
  exact h

/-- A step of one thread keeps the agreement of the word and the views. -/
theorem step (h : Token o v x) (hs : Token.Step t o (v t) o' w) :
    Token o' (Function.update v t w) (next (v t) w x) := by
  -- outside `t` the views are as before, and `t` itself is what the step says
  have hother : ∀ u, u ≠ t → Function.update v t w u = if o = some u then x else none :=
    fun u hu => by rw [Function.update_of_ne hu, h.view u]
  generalize hv : v t = y at hs
  cases hs with
  | away => exact h.keep hv
  | acquire hfree b =>
    subst hfree
    refine ⟨by simp, fun u => ?_⟩
    by_cases hu : u = t
    · rw [hu, Function.update_self, if_pos rfl, next_some_right]
    · rw [hother u hu, if_neg (by simp), if_neg (by simpa using Ne.symm hu)]
  | move hmine a b =>
    subst hmine
    refine ⟨by simp, fun u => ?_⟩
    by_cases hu : u = t
    · rw [hu, Function.update_self, if_pos rfl, next_some_right]
    · have hne : some t ≠ some u := by simpa using Ne.symm hu
      rw [hother u hu, if_neg hne, if_neg hne]
  | release hmine a =>
    subst hmine
    refine ⟨by simp, fun u => ?_⟩
    by_cases hu : u = t
    · rw [hu, Function.update_self, if_neg (by simp)]
    · rw [hother u hu, if_neg (by simpa using Ne.symm hu), if_neg (by simp)]

end Token
end

/-! ### Entries that are still in their cells -/

section
variable {ι α : Type*} {cells : ι → α} {slot : Nat → ι} {xs : List α} {lo lo' k : Nat} {x : α}

/-- The entries of `xs` from the position `lo` on are in their cells. -/
def Stores (cells : ι → α) (slot : Nat → ι) (xs : List α) (lo : Nat) : Prop :=
  ∀ k, lo ≤ k → ∀ h : k < xs.length, cells (slot k) = xs[k]

namespace Stores

theorem mono (h : Stores cells slot xs lo) (hlo : lo ≤ lo') : Stores cells slot xs lo' :=
  fun k hk hlt => h k (Nat.le_trans hlo hk) hlt

/-- A write to the cell of no entry that is still needed changes none of them. -/
theorem write [DecidableEq ι] {c : ι} (h : Stores cells slot xs lo)
    (hc : ∀ k, lo ≤ k → k < xs.length → slot k ≠ c) :
    Stores (Function.update cells c x) slot xs lo := by
  intro k hk hlt
  rw [Function.update_of_ne (hc k hk hlt), h k hk hlt]

/-- An entry whose cell is written already can be appended. -/
theorem append (h : Stores cells slot xs lo) (hx : cells (slot xs.length) = x) :
    Stores cells slot (xs ++ [x]) lo := by
  intro k hk hlt
  rw [List.length_append, List.length_singleton] at hlt
  rcases Nat.lt_or_ge k xs.length with hk' | hk'
  · rw [List.getElem_append_left hk', h k hk hk']
  · obtain rfl : k = xs.length := by omega
    rw [List.getElem_concat_length rfl, hx]

/-- What a read of a needed entry finds. -/
theorem read (h : Stores cells slot xs lo) (hlo : lo ≤ k) (hk : k < xs.length) :
    xs[k]? = some (cells (slot k)) := by
  rw [List.getElem?_eq_getElem hk, h k hlo hk]

end Stores
end

end Stacklets.Lib

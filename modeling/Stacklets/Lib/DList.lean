import Mathlib.Data.List.Nodup

/-!
# `Stacklets.Lib.DList`: doubly linked lists as lists

A doubly linked list is two link maps `prev next : α → Option α` on node addresses and two
end pointers `front` and `back`. `IsDList prev next front back l` says that they spell the
list of addresses `l`: each node of `l` points back to the node before it and forward to the
node after it, and the ends point to the first and the last node.

The links of a node are stated at every split `l = l₁ ++ x :: l₂`, so appending at the back
and removing from any position are both list surgery:

* `IsDList.append`: a fresh node linked behind `back`;
* `IsDList.remove`: any member unlinked, with its two neighbours joined;
* `IsDList.congr`: writes outside the list change nothing;
* `IsDList.unique`: the links determine the list.

`Spells link p l` says that the pointer `p` and the links from there on visit the nodes `l` and end
in null. A doubly linked list is spelled forward by `next` and backward by `prev`.
-/

set_option autoImplicit false

namespace Stacklets.Lib

section
variable {α : Type*} {prev next prev' next' : α → Option α} {front back front' back' : Option α}
  {l l₁ l₂ : List α} {x : α}

/-- The link maps and the end pointers spell the list `l`. -/
structure IsDList (prev next : α → Option α) (front back : Option α) (l : List α) : Prop where
  nodup : l.Nodup
  front_eq : front = l.head?
  back_eq : back = l.getLast?
  links : ∀ l₁ x l₂, l = l₁ ++ x :: l₂ → prev x = l₁.getLast? ∧ next x = l₂.head?

/-- Two end pointers that are null spell the empty list. -/
theorem isDList_nil : IsDList prev next none none ([] : List α) where
  nodup := List.nodup_nil
  front_eq := rfl
  back_eq := rfl
  links l₁ x l₂ h := by simp at h

/-- Only the links of the members matter. -/
theorem IsDList.congr (h : IsDList prev next front back l)
    (hp : ∀ y ∈ l, prev' y = prev y) (hn : ∀ y ∈ l, next' y = next y) :
    IsDList prev' next' front back l where
  nodup := h.nodup
  front_eq := h.front_eq
  back_eq := h.back_eq
  links l₁ x l₂ hl := by
    have hx : x ∈ l := by simp [hl]
    rw [hp x hx, hn x hx]
    exact h.links l₁ x l₂ hl

/-- The front pointer is null exactly for the empty list. -/
theorem IsDList.front_eq_none_iff (h : IsDList prev next front back l) :
    front = none ↔ l = [] := by
  rw [h.front_eq, List.head?_eq_none_iff]

/-- The back pointer is null exactly for the empty list. -/
theorem IsDList.back_eq_none_iff (h : IsDList prev next front back l) :
    back = none ↔ l = [] := by
  rw [h.back_eq, List.getLast?_eq_none_iff]

/-- A fresh node behind the last one: it points back to the old `back`, the old `back` points
forward to it, and it becomes the new `back`. -/
theorem IsDList.append [DecidableEq α] (h : IsDList prev next front back l) (hx : x ∉ l)
    (hpx : prev' x = back) (hnx : next' x = none) (hp : ∀ y ∈ l, prev' y = prev y)
    (hn : ∀ y ∈ l, next' y = if back = some y then some x else next y)
    (hf : front' = if back = none then some x else front) :
    IsDList prev' next' front' (some x) (l ++ [x]) where
  nodup := by
    rw [List.nodup_append]
    refine ⟨h.nodup, List.nodup_singleton x, ?_⟩
    intro a ha b hb hab
    rw [List.mem_singleton] at hb
    exact hx (hb ▸ hab ▸ ha)
  front_eq := by
    rw [hf]
    cases l with
    | nil => simp [h.back_eq]
    | cons a l => simp [h.back_eq, h.front_eq]
  back_eq := by simp
  links l₁ y l₂ hl := by
    rcases List.eq_nil_or_concat l₂ with rfl | ⟨l₃, z, rfl⟩
    · -- `y` is the new node.
      obtain ⟨rfl, hxy⟩ := List.append_inj' hl rfl
      obtain rfl : x = y := by simpa using hxy
      exact ⟨hpx.trans h.back_eq, hnx⟩
    · -- `y` was a member before.
      have hl' : l ++ [x] = (l₁ ++ y :: l₃) ++ [z] := by simpa using hl
      obtain ⟨rfl, -⟩ := List.append_inj' hl' rfl
      obtain rfl : x = z := by simpa using hl'
      have hy : y ∈ l₁ ++ y :: l₃ := by simp
      obtain ⟨hprev, hnext⟩ := h.links l₁ y l₃ rfl
      refine ⟨(hp y hy).trans hprev, ?_⟩
      rw [hn y hy, h.back_eq, hnext]
      cases l₃ with
      | nil => simp
      | cons w l₄ =>
        -- The last node is a later one, so `y` keeps its successor.
        have hyl : y ∉ w :: l₄ :=
          (List.nodup_cons.mp (List.nodup_append.mp h.nodup).2.1).1
        have hlast : (l₁ ++ y :: w :: l₄).getLast? = some ((w :: l₄).getLast (by simp)) := by
          simp [List.getLast?_eq_getLast_of_ne_nil]
        rw [hlast, if_neg]
        · simp
        · intro hy'
          exact hyl (Option.some.inj hy' ▸ List.getLast_mem _)

/-- A member taken out: its predecessor (or `front`) now points to its successor, and its
successor (or `back`) points to its predecessor. -/
theorem IsDList.remove [DecidableEq α] (h : IsDList prev next front back (l₁ ++ x :: l₂))
    (hp : ∀ y ∈ l₁ ++ l₂, prev' y = if next x = some y then prev x else prev y)
    (hn : ∀ y ∈ l₁ ++ l₂, next' y = if prev x = some y then next x else next y)
    (hf : front' = if prev x = none then next x else front)
    (hb : back' = if next x = none then prev x else back) :
    IsDList prev' next' front' back' (l₁ ++ l₂) where
  nodup := h.nodup.sublist (by simp)
  front_eq := by
    obtain ⟨hprev, hnext⟩ := h.links l₁ x l₂ rfl
    rw [hf, hprev, hnext, h.front_eq]
    cases l₁ with
    | nil => simp
    | cons a l₁ => simp
  back_eq := by
    obtain ⟨hprev, hnext⟩ := h.links l₁ x l₂ rfl
    rw [hb, hprev, hnext, h.back_eq]
    cases l₂ with
    | nil => simp
    | cons a l₂ => simp [List.getLast?_append]
  links m₁ y m₂ hm := by
    obtain ⟨hprev, hnext⟩ := h.links l₁ x l₂ rfl
    have hnd := List.nodup_append.mp h.nodup
    have hy : y ∈ l₁ ++ l₂ := by simp [hm]
    rw [hp y hy, hn y hy, hprev, hnext]
    rcases List.append_eq_append_iff.mp hm with ⟨a, rfl, rfl⟩ | ⟨c, rfl, hc⟩
    · -- `y` came after `x`, with `a` between them.
      obtain ⟨hprevy, hnexty⟩ := h.links (l₁ ++ x :: a) y m₂ (by simp)
      have hxl : x ∉ a ++ y :: m₂ := (List.nodup_cons.mp hnd.2.1).1
      constructor
      · cases a with
        | nil => simp
        | cons w a =>
          have hne : w ≠ y := by
            rintro rfl
            have := (List.nodup_cons.mp hnd.2.1).2
            simp at this
          rw [if_neg (by simpa using hne), hprevy]
          simp [List.getLast?_append]
      · rw [if_neg, hnexty]
        intro hlast
        exact hnd.2.2 y (List.mem_of_getLast? hlast) y (by simp) rfl
    · cases c with
      | nil =>
        -- `x` stood between `m₁` and `y`.
        obtain rfl : l₂ = y :: m₂ := by simpa using hc.symm
        obtain ⟨-, hnexty⟩ := h.links (m₁ ++ [x]) y m₂ (by simp)
        refine ⟨by simp, ?_⟩
        rw [if_neg, hnexty]
        intro hlast
        exact hnd.2.2 y (List.mem_of_getLast? hlast) y (by simp) rfl
      | cons w c =>
        -- `y` came before `x`, with `c` between them.
        obtain ⟨rfl, rfl⟩ : y = w ∧ m₂ = c ++ l₂ := by simpa using hc
        obtain ⟨hprevy, hnexty⟩ := h.links m₁ y (c ++ x :: l₂) (by simp)
        have hyc : y ∉ c ++ x :: l₂ := by
          have hnd' := h.nodup
          rw [List.append_assoc, List.cons_append] at hnd'
          exact (List.nodup_cons.mp (List.nodup_append.mp hnd').2.1).1
        constructor
        · rw [if_neg, hprevy]
          intro hhead
          exact hyc (by simp [List.mem_of_head? hhead])
        · cases c with
          | nil => simp
          | cons v c =>
            rw [if_neg, hnexty]
            · simp
            · rw [List.getLast?_append]
              intro hlast
              have hmem : y ∈ v :: c := by
                simp only [List.getLast?_cons_cons] at hlast
                have : (v :: c).getLast? = some y := by
                  simpa [List.getLast?_eq_getLast_of_ne_nil] using hlast
                exact List.mem_of_getLast? this
              exact hyc (List.mem_append_left _ hmem)

/-- The links from a node on determine the nodes that follow it. -/
theorem IsDList.tail_unique {m : List α} :
    ∀ (l₁ l₂ m₁ m₂ : List α), IsDList prev next front back l →
      IsDList prev next front' back' m → l = l₁ ++ l₂ → m = m₁ ++ m₂ →
      l₂.head? = m₂.head? → l₂ = m₂ := by
  intro l₁ l₂
  induction l₂ generalizing l₁ with
  | nil =>
    intro m₁ m₂ _ _ _ _ hhead
    exact (List.head?_eq_none_iff.mp hhead.symm).symm
  | cons x l₂ ih =>
    intro m₁ m₂ hl hm hl' hm' hhead
    cases m₂ with
    | nil => simp at hhead
    | cons y m₂ =>
      obtain rfl : x = y := by simpa using hhead
      have hnext : l₂.head? = m₂.head? :=
        (hl.links l₁ x l₂ hl').2.symm.trans (hm.links m₁ x m₂ hm').2
      rw [ih (l₁ ++ [x]) (m₁ ++ [x]) m₂ hl hm (by simp [hl']) (by simp [hm']) hnext]

/-- The links and the front pointer determine the list. -/
theorem IsDList.unique {m : List α} (hl : IsDList prev next front back l)
    (hm : IsDList prev next front back' m) : l = m :=
  IsDList.tail_unique [] l [] m hl hm rfl rfl (hl.front_eq.symm.trans hm.front_eq)

/-! ### Following the links -/

/-- The pointer `p` and the links from there on visit the nodes `l`, and end in null. -/
def Spells (link : α → Option α) : Option α → List α → Prop
  | p, [] => p = none
  | p, x :: l => p = some x ∧ Spells link (link x) l

/-- Only the links of the visited nodes matter. -/
theorem Spells.congr {link link' : α → Option α} {p : Option α} (h : Spells link p l)
    (hlink : ∀ x ∈ l, link' x = link x) : Spells link' p l := by
  induction l generalizing p with
  | nil => exact h
  | cons x l ih =>
    refine ⟨h.1, ?_⟩
    rw [hlink x List.mem_cons_self]
    exact ih h.2 fun y hy => hlink y (List.mem_cons_of_mem x hy)

/-- Following `next` from any node of the list. -/
theorem IsDList.spells_next_suffix (h : IsDList prev next front back l) :
    ∀ l₂ l₁, l = l₁ ++ l₂ → Spells next l₂.head? l₂ := by
  intro l₂
  induction l₂ with
  | nil => exact fun _ _ => rfl
  | cons x l₂ ih =>
    intro l₁ hl
    refine ⟨rfl, ?_⟩
    rw [(h.links l₁ x l₂ hl).2]
    exact ih (l₁ ++ [x]) (by simp [hl])

/-- Following `prev` from any node of the list. -/
theorem IsDList.spells_prev_suffix (h : IsDList prev next front back l) :
    ∀ m l₂, l = m.reverse ++ l₂ → Spells prev m.head? m := by
  intro m
  induction m with
  | nil => exact fun _ _ => rfl
  | cons x m ih =>
    intro l₂ hl
    have hsplit : l = m.reverse ++ x :: l₂ := by simp [hl]
    refine ⟨rfl, ?_⟩
    rw [(h.links m.reverse x l₂ hsplit).1, List.getLast?_reverse]
    exact ih (x :: l₂) hsplit

theorem IsDList.spells_next (h : IsDList prev next front back l) : Spells next front l := by
  rw [h.front_eq]
  exact h.spells_next_suffix l [] rfl

theorem IsDList.spells_prev (h : IsDList prev next front back l) :
    Spells prev back l.reverse := by
  rw [h.back_eq, ← List.head?_reverse]
  exact h.spells_prev_suffix l.reverse [] (by simp)

end

end Stacklets.Lib

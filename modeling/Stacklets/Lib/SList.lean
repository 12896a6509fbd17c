import Mathlib.Data.List.Nodup

/-!
# `Stacklets.Lib.SList`: singly linked queues in memory

A queue of nodes that each point to the next one, with pointers to the two ends. `IsSList` says
which list of nodes the pointers spell. `IsSList.append` links a node behind the last one,
`IsSList.tail` takes the first one off, `IsSList.cons` links a node before the first one, and
`IsSList.unlink` takes out the node behind a given one.
-/

set_option autoImplicit false

namespace Stacklets.Lib

section
variable {α : Type*}

/-- The pointers spell the list `l`. -/
structure IsSList (next : α → Option α) (front back : Option α) (l : List α) : Prop where
  nodup : l.Nodup
  front_eq : front = l.head?
  back_eq : back = l.getLast?
  links : ∀ l₁ x l₂, l = l₁ ++ x :: l₂ → next x = l₂.head?

variable {next next' : α → Option α} {front back front' : Option α} {l : List α} {x : α}

theorem isSList_nil : IsSList next none none ([] : List α) where
  nodup := List.nodup_nil
  front_eq := rfl
  back_eq := rfl
  links l₁ x l₂ h := by simp at h

/-- A fresh node behind the last one. The old last node points to it, and it becomes the last. -/
theorem IsSList.append [DecidableEq α] (h : IsSList next front back l) (hx : x ∉ l)
    (hnx : next' x = none) (hn : ∀ y ∈ l, next' y = if back = some y then some x else next y)
    (hf : front' = if back = none then some x else front) :
    IsSList next' front' (some x) (l ++ [x]) where
  nodup := by
    rw [List.nodup_append]
    refine ⟨h.nodup, List.nodup_singleton x, ?_⟩
    rintro a ha b hb rfl
    exact hx (List.mem_singleton.mp hb ▸ ha)
  front_eq := by
    rw [hf, h.back_eq, h.front_eq]
    cases l with
    | nil => rfl
    | cons y l => simp
  back_eq := by simp
  links l₁ y l₂ hl := by
    rcases List.eq_nil_or_concat l₂ with rfl | ⟨l₃, z, rfl⟩
    · have hxy : x = y := by simpa using congrArg List.getLast? hl
      rw [← hxy, hnx]
      rfl
    · -- `y` lies before the new node, so the old link is there unless `y` was the last one.
      have hl' : l ++ [x] = (l₁ ++ y :: l₃) ++ [z] := by simpa using hl
      obtain ⟨hlast, hz⟩ := List.append_inj' hl' rfl
      obtain rfl : x = z := by simpa using hz
      have hy : y ∈ l := by simp [hlast]
      have hlink := h.links l₁ y l₃ hlast
      rw [hn y hy, h.back_eq, hlast]
      cases l₃ with
      | nil => simp
      | cons w l₄ =>
        have hne : (l₁ ++ y :: w :: l₄).getLast? ≠ some y := by
          intro he
          have hnodup := h.nodup
          rw [hlast, List.nodup_append] at hnodup
          obtain ⟨v, hv⟩ : ∃ v, (w :: l₄).getLast? = some v :=
            ⟨_, List.getLast?_eq_some_getLast (List.cons_ne_nil w l₄)⟩
          have hvy : v = y := by
            rw [List.getLast?_append, List.getLast?_cons_cons, hv] at he
            exact Option.some.inj he
          have hmem : y ∈ w :: l₄ := hvy ▸ List.mem_of_getLast? hv
          exact (List.nodup_cons.mp hnodup.2.1).1 hmem
        rw [if_neg hne, hlink]
        simp

/-- The first node is taken off. -/
theorem IsSList.tail (h : IsSList next front back (x :: l)) :
    IsSList next (next x) (if next x = none then none else back) l where
  nodup := (List.nodup_cons.mp h.nodup).2
  front_eq := h.links [] x l rfl
  back_eq := by
    have hx := h.links [] x l rfl
    cases l with
    | nil =>
      have hnone : next x = none := hx
      rw [if_pos hnone]
      rfl
    | cons y l =>
      have hsome : next x ≠ none := by simp [hx]
      rw [if_neg hsome, h.back_eq, List.getLast?_cons_cons]
  links l₁ y l₂ hl := h.links (x :: l₁) y l₂ (by rw [hl]; rfl)

/-- Only the links of the members matter. -/
theorem IsSList.congr (h : IsSList next front back l) (hn : ∀ y ∈ l, next' y = next y) :
    IsSList next' front back l where
  nodup := h.nodup
  front_eq := h.front_eq
  back_eq := h.back_eq
  links l₁ y l₂ hl := by
    rw [hn y (by simp [hl])]
    exact h.links l₁ y l₂ hl

/-- A fresh node before the first one. The other nodes keep their links. -/
theorem IsSList.cons (h : IsSList next front back l) (hx : x ∉ l) (hnx : next' x = front)
    (hn : ∀ y ∈ l, next' y = next y) :
    IsSList next' (some x) (x :: l).getLast? (x :: l) where
  nodup := List.nodup_cons.mpr ⟨hx, h.nodup⟩
  front_eq := rfl
  back_eq := rfl
  links l₁ y l₂ hl := by
    cases l₁ with
    | nil =>
      obtain ⟨rfl, rfl⟩ := List.cons.inj hl
      rw [hnx, h.front_eq]
    | cons z l₁ =>
      have htail : l = l₁ ++ y :: l₂ := (List.cons.inj hl).2
      rw [hn y (by simp [htail])]
      exact h.links l₁ y l₂ htail

/-- The node behind `y` is taken out: `y` gets its link, and the other nodes keep theirs. -/
theorem IsSList.unlink {y : α} {l₁ l₂ : List α}
    (h : IsSList next front back (l₁ ++ y :: x :: l₂)) (hy : next' y = next x)
    (hn : ∀ z ∈ l₁ ++ y :: l₂, z ≠ y → next' z = next z) :
    IsSList next' front (l₁ ++ y :: l₂).getLast? (l₁ ++ y :: l₂) where
  nodup := h.nodup.sublist (by simp)
  front_eq := by
    rw [h.front_eq]
    cases l₁ <;> rfl
  back_eq := rfl
  links m₁ z m₂ hl := by
    have hxl : next x = l₂.head? := h.links (l₁ ++ [y]) x l₂ (by simp)
    have hnodup : (l₁ ++ y :: l₂).Nodup := h.nodup.sublist (by simp)
    rcases List.append_eq_append_iff.mp hl with ⟨k, hm₁, hk⟩ | ⟨k, hl₁, hk⟩
    · -- `z` is `y` or lies behind it
      cases k with
      | nil =>
        obtain ⟨rfl, rfl⟩ := List.cons.inj hk
        rw [hy, hxl]
      | cons w k =>
        obtain ⟨rfl, rfl⟩ := List.cons.inj hk
        have hz : z ≠ y := by
          rintro rfl
          have hmem := (List.nodup_append.mp hnodup).2.1
          exact (List.nodup_cons.mp hmem).1 (by simp)
        rw [hn z (by simp) hz]
        exact h.links (l₁ ++ y :: x :: k) z m₂ (by simp)
    · -- `z` is `y` or lies before it
      cases k with
      | nil =>
        obtain ⟨rfl, rfl⟩ := List.cons.inj hk
        rw [hy, hxl]
      | cons w k =>
        obtain ⟨rfl, rfl⟩ := List.cons.inj hk
        subst hl₁
        have hz : z ≠ y := by
          rintro rfl
          exact (List.nodup_append.mp hnodup).2.2 z (by simp) z (by simp) rfl
        rw [hn z (by simp) hz, h.links m₁ z (k ++ y :: x :: l₂) (by simp)]
        cases k <;> rfl

end

end Stacklets.Lib

import Mathlib.Data.List.Chain
import Mathlib.Logic.Function.Basic

/-!
# `Stacklets.Lib.FrameStacks`: frames on several stacks

A program that switches between stacks has its frames spread over them. `stackOf` lists the frames
of each stack, the topmost one first, `live` says which frames there are and `home` on which stack
each one lies. `above x y` says that the frame `y` has called `x` on its own stack.

`FrameStacks` says that the lists hold the live frames and that each one lies right above its
caller. `FrameStacks.top` is the rule that finds the topmost frame: one that has no live callee on
its stack. `FrameStacks.push` and `FrameStacks.pop` are the rules for calls and returns.
-/

set_option autoImplicit false

namespace Stacklets.Lib

section
variable {N S : Type*}

/-- The stacks hold the live frames, each one right above its caller. -/
structure FrameStacks (stackOf : S → List N) (above : N → N → Prop) (live : N → Prop)
    (home : N → S) : Prop where
  chain : ∀ R, (stackOf R).IsChain above
  mem : ∀ R x, x ∈ stackOf R ↔ live x ∧ home x = R

namespace FrameStacks

variable {stackOf : S → List N} {above above' : N → N → Prop} {live live' : N → Prop}
  {home home' : N → S} {x : N} {R : S}

/-- A frame lies on its stack once, when calls lead downwards in the call tree. -/
theorem nodup (h : FrameStacks stackOf above live home) (depth : N → Nat)
    (hdepth : ∀ x y, above x y → depth y < depth x) (R : S) : (stackOf R).Nodup := by
  have hchain : (stackOf R).IsChain fun x y => depth y < depth x :=
    (h.chain R).imp fun x y => hdepth x y
  have : Trans (fun x y => depth y < depth x) (fun x y => depth y < depth x)
      (fun x y => depth y < depth x) := ⟨fun h₁ h₂ => Nat.lt_trans h₂ h₁⟩
  refine (List.isChain_iff_pairwise.mp hchain).imp ?_
  rintro x y hxy rfl
  exact Nat.lt_irrefl _ hxy

/-- A live frame without a live callee on its stack is the topmost one there. -/
theorem top (h : FrameStacks stackOf above live home) (hx : live x)
    (hcallee : ∀ y, above y x → ¬live y) : ∃ rest, stackOf (home x) = x :: rest := by
  have hmem : x ∈ stackOf (home x) := (h.mem _ x).mpr ⟨hx, rfl⟩
  obtain ⟨l₁, l₂, hl⟩ := List.append_of_mem hmem
  rcases List.eq_nil_or_concat l₁ with rfl | ⟨l₀, y, rfl⟩
  · exact ⟨l₂, hl⟩
  · -- The frame `y` right above `x` would be a live callee.
    have hchain := h.chain (home x)
    rw [hl, List.concat_eq_append, List.append_assoc, List.singleton_append,
      List.isChain_append_cons_cons] at hchain
    have hy : y ∈ stackOf (home x) := by simp [hl]
    exact absurd ((h.mem _ y).mp hy).1 (hcallee y hchain.2.1)

/-- The relations matter only where they speak of live frames. -/
theorem congr (h : FrameStacks stackOf above live home)
    (habove : ∀ x y, live x → live y → above x y → above' x y) (hlive : ∀ x, live' x ↔ live x)
    (hhome : ∀ x, live x → home' x = home x) : FrameStacks stackOf above' live' home' where
  chain R := (h.chain R).imp_of_mem_imp fun x y hx hy =>
    habove x y ((h.mem R x).mp hx).1 ((h.mem R y).mp hy).1
  mem R x := by
    rw [h.mem R x, hlive x]
    exact and_congr_right fun hx => by rw [hhome x hx]

variable [DecidableEq S]

/-- A new frame on top of a stack. -/
theorem push (h : FrameStacks stackOf above live home)
    (htop : ∀ y, (stackOf R).head? = some y → above' x y)
    (habove : ∀ y z, live y → live z → above y z → above' y z) (hold : ¬live x)
    (hlive : ∀ y, live' y ↔ live y ∨ y = x) (hhome : ∀ y, live y → home' y = home y)
    (hx : home' x = R) :
    FrameStacks (Function.update stackOf R (x :: stackOf R)) above' live' home' where
  chain Q := by
    have hQ : (stackOf Q).IsChain above' := (h.chain Q).imp_of_mem_imp fun y z hy hz =>
      habove y z ((h.mem Q y).mp hy).1 ((h.mem Q z).mp hz).1
    by_cases hQR : Q = R
    · subst hQR
      rw [Function.update_self, List.isChain_cons]
      exact ⟨htop, hQ⟩
    · rw [Function.update_of_ne hQR]
      exact hQ
  mem Q y := by
    have hold' : y ∈ stackOf Q ↔ live y ∧ home' y = Q := by
      rw [h.mem Q y]
      exact and_congr_right fun hy => by rw [hhome y hy]
    by_cases hyx : y = x
    · subst hyx
      have hnot : y ∉ stackOf Q := fun hmem => hold ((h.mem Q y).mp hmem).1
      by_cases hQR : Q = R
      · subst hQR
        simp [hlive, hx]
      · simp [hQR, hnot, hlive, hx, Ne.symm hQR]
    · by_cases hQR : Q = R
      · subst hQR
        simp [hyx, hlive, hold']
      · simp [hQR, hyx, hlive, hold']

/-- The topmost frame of a stack is gone. -/
theorem pop {rest : List N} (h : FrameStacks stackOf above live home) (hR : stackOf R = x :: rest)
    (hnodup : x ∉ rest) (habove : ∀ y z, y ≠ x → live y → live z → above y z → above' y z)
    (hlive : ∀ y, live' y ↔ live y ∧ y ≠ x) (hhome : ∀ y, live y → home' y = home y) :
    FrameStacks (Function.update stackOf R rest) above' live' home' where
  chain Q := by
    -- a frame is on one stack only
    have hother : Q ≠ R → x ∉ stackOf Q := by
      intro hQR hmem
      have hxR : x ∈ stackOf R := by simp [hR]
      exact hQR (((h.mem Q x).mp hmem).2.symm.trans ((h.mem R x).mp hxR).2)
    have hchain : ∀ l : List N, l.IsChain above → x ∉ l → (∀ y ∈ l, live y) → l.IsChain above' :=
      fun l hl hx hmem => hl.imp_of_mem_imp fun y z hy hz =>
        habove y z (fun hyx => hx (hyx ▸ hy)) (hmem y hy) (hmem z hz)
    by_cases hQR : Q = R
    · subst hQR
      have hl := h.chain Q
      rw [hR] at hl
      rw [Function.update_self]
      refine hchain rest hl.tail hnodup fun y hy => ?_
      have hyR : y ∈ stackOf Q := by simp [hR, hy]
      exact ((h.mem Q y).mp hyR).1
    · rw [Function.update_of_ne hQR]
      exact hchain _ (h.chain Q) (hother hQR) fun y hy => ((h.mem Q y).mp hy).1
  mem Q y := by
    have hold : y ∈ stackOf Q ↔ live y ∧ home' y = Q := by
      rw [h.mem Q y]
      exact and_congr_right fun hy => by rw [hhome y hy]
    by_cases hQR : Q = R
    · subst hQR
      rw [Function.update_self, hlive, and_right_comm, ← hold, hR]
      by_cases hyx : y = x
      · subst hyx
        simp [hnodup]
      · simp [hyx]
    · rw [Function.update_of_ne hQR, hold, hlive, and_right_comm]
      refine ⟨fun hy => ⟨hy, ?_⟩, fun hy => hy.1⟩
      rintro rfl
      have hxR : y ∈ stackOf R := by simp [hR]
      have hhomeR := ((h.mem R y).mp hxR)
      exact hQR (hy.2.symm.trans ((hhome y hy.1).trans hhomeR.2))

end FrameStacks

end

end Stacklets.Lib

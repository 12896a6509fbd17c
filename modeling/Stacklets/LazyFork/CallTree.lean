import Mathlib.Algebra.BigOperators.Group.Finset.Basic
import Stacklets.LazyFork.Phase

/-!
# `Stacklets.LazyFork.CallTree`: the call tree of `fib` as a finite set

`InTree n` says which names are nodes of the call tree of `startfib(n)`. Here the nodes are
listed: `callTree n` is the set of them, and it has `2 * fibValue n - 1` elements. So what the
frames hold together is a finite sum, and the totals of a run have a closed form in `n`.
-/

set_option autoImplicit false

namespace Stacklets.LazyFork

section
variable {n k : Int} {F G : FooPtr}

/-- The calls that `fib` on a `Foo` with input `k` makes, its own frame first. -/
def callsBelow (k : Int) (F : FooPtr) : List FooPtr :=
  if k ≤ 2 then [F] else F :: (callsBelow (k - 1) (.a F) ++ callsBelow (k - 2) (.b F))
termination_by k.toNat

/-- The nodes of the call tree of `startfib(n)`. -/
def callTree (n : Int) : Finset FooPtr := (callsBelow n .root).toFinset

theorem callsBelow_leaf (h : k ≤ 2) (F : FooPtr) : callsBelow k F = [F] := by
  rw [callsBelow, if_pos h]

theorem callsBelow_inner (h : 2 < k) (F : FooPtr) :
    callsBelow k F = F :: (callsBelow (k - 1) (.a F) ++ callsBelow (k - 2) (.b F)) := by
  rw [callsBelow, if_neg (by omega)]

theorem mem_callsBelow_self (k : Int) (F : FooPtr) : F ∈ callsBelow k F := by
  rw [callsBelow]
  split <;> simp

/-- The frame `F` is `G` or one of its callers. -/
def FooPtr.Over (F : FooPtr) : FooPtr → Prop
  | .root => F = .root
  | .a G => F = .a G ∨ F.Over G
  | .b G => F = .b G ∨ F.Over G

theorem FooPtr.over_self (F : FooPtr) : F.Over F := by
  cases F <;> simp [FooPtr.Over]

theorem FooPtr.Over.depth_le (h : F.Over G) : F.depth ≤ G.depth := by
  induction G with
  | root => rw [show F = .root from h]
  | a G ih | b G ih =>
    rcases h with rfl | h
    · exact Nat.le_refl _
    · exact Nat.le_succ_of_le (ih h)

theorem FooPtr.Over.trans {H : FooPtr} (h : F.Over G) (hG : G.Over H) : F.Over H := by
  induction H with
  | root =>
    obtain rfl : G = .root := hG
    exact h
  | a H ih | b H ih =>
    rcases hG with rfl | hG
    · exact h
    · exact .inr (ih hG)

/-- What lies below a child lies below the frame. -/
theorem FooPtr.Over.of_a (h : (FooPtr.a F).Over G) : F.Over G :=
  FooPtr.Over.trans (show F.Over (.a F) from .inr F.over_self) h

theorem FooPtr.Over.of_b (h : (FooPtr.b F).Over G) : F.Over G :=
  FooPtr.Over.trans (show F.Over (.b F) from .inr F.over_self) h

/-- No frame lies below both children of a frame. -/
theorem FooPtr.not_over_both (ha : (FooPtr.a F).Over G) (hb : (FooPtr.b F).Over G) : False := by
  -- a frame that is one of the two children lies too high to be below the other one
  have hself : ∀ {H : FooPtr}, H.depth = F.depth + 1 → ¬ H.Over F := fun {H} hd hH => by
    have := hH.depth_le
    omega
  induction G with
  | root => cases ha
  | a G ih =>
    have hb := hb.resolve_left nofun
    rcases ha with ha | ha
    · obtain rfl := FooPtr.a.inj ha
      exact hself rfl hb
    · exact ih ha hb
  | b G ih =>
    have ha := ha.resolve_left nofun
    rcases hb with hb | hb
    · obtain rfl := FooPtr.b.inj hb
      exact hself rfl ha
    · exact ih ha hb

/-- The children of an inner node that is listed are listed. -/
theorem children_mem_callsBelow (hG : G ∈ callsBelow (inputOf n F) F) (h : 2 < inputOf n G) :
    .a G ∈ callsBelow (inputOf n F) F ∧ .b G ∈ callsBelow (inputOf n F) F := by
  generalize hk : inputOf n F = k at hG ⊢
  induction k, F using callsBelow.induct with
  | case1 k F hk₂ =>
    -- the only call below a leaf is the leaf, which is not an inner node
    rw [callsBelow_leaf hk₂, List.mem_singleton] at hG
    rw [hG, hk] at h
    omega
  | case2 k F hk₂ iha ihb =>
    rw [callsBelow_inner (by omega), List.mem_cons, List.mem_append] at hG ⊢
    rw [List.mem_cons, List.mem_append]
    rcases hG with rfl | hG | hG
    · exact ⟨.inr (.inl (mem_callsBelow_self _ _)), .inr (.inr (mem_callsBelow_self _ _))⟩
    · have ih := iha (by rw [inputOf, hk]) hG
      exact ⟨.inr (.inl ih.1), .inr (.inl ih.2)⟩
    · have ih := ihb (by rw [inputOf, hk]) hG
      exact ⟨.inr (.inr ih.1), .inr (.inr ih.2)⟩

/-- What is listed below a node of the call tree is a node of it. -/
theorem inTree_of_mem_callsBelow (hF : InTree n F) (hG : G ∈ callsBelow (inputOf n F) F) :
    InTree n G := by
  generalize hk : inputOf n F = k at hG
  induction k, F using callsBelow.induct with
  | case1 k F hk₂ =>
    rw [callsBelow_leaf hk₂, List.mem_singleton] at hG
    exact hG ▸ hF
  | case2 k F hk₂ iha ihb =>
    rw [callsBelow_inner (by omega), List.mem_cons, List.mem_append] at hG
    rcases hG with rfl | hG | hG
    · exact hF
    · exact iha (.a hF (by omega)) (by rw [inputOf, hk]) hG
    · exact ihb (.b hF (by omega)) (by rw [inputOf, hk]) hG

/-- The set has the nodes of the call tree as its elements. -/
theorem mem_callTree : F ∈ callTree n ↔ InTree n F := by
  rw [callTree, List.mem_toFinset]
  refine ⟨inTree_of_mem_callsBelow .root, fun h => ?_⟩
  induction h with
  | root => exact mem_callsBelow_self n .root
  | a _ hn ih => exact (children_mem_callsBelow (n := n) (F := .root) ih hn).1
  | b _ hn ih => exact (children_mem_callsBelow (n := n) (F := .root) ih hn).2

end

end Stacklets.LazyFork

import Stacklets.LazyYield.Correctness
import Stacklets.SeedJoin.Runtime

/-!
# `Stacklets.SeedJoin.Seeds`: the life of a seed

The two versions of the runtime do the same with frames, stacks and results. They differ in what
happens to a seed. This file says, for each phase of a call in the invariant of the later version
(`Stacklets.LazyYield.Invariant`), how far the seed of the call has come in the first version:

* `stage`: the stage of the seed by the phases of the call and of its second child;
* `Stage.Fits`: what is in the seed at a stage, and what happened to it before;
* `SeedsOk`: every seed is at its stage, the seed stack holds the seeds that are waiting or active,
  and the seed stack of the later version holds those that are waiting.
-/

set_option autoImplicit false

namespace Stacklets.SeedJoin

open Lib
open LazyFork (FooPtr Foo aboveFrame)
open LazyYield (Label StackPtr Stack ReturnAdr Seed SeedStackIs Phase Off reshape
  reshape_self reshape_a reshape_b reshape_off off_child off_grandchild)

/-! ### Stages -/

/-- How far a seed has come. -/
inductive Stage
  | unpushed
  /-- In the seed stack, and not activated. -/
  | waiting
  /-- In the seed stack, activated, with a number of children counted as done. -/
  | active (counted : Nat)
  /-- Popped without an activation, with the second child on its way. -/
  | popped
  /-- The call has returned. -/
  | finished
deriving DecidableEq

/-- The stage of the seed of a call in phase `p` with its second child in phase `b`. The child is
counted as done when its stacklet is freed. -/
def stage (p b : Phase) : Stage :=
  match p with
  | .idle | .entered | .yielded | .resumed => .unpushed
  | .first | .taken => .waiting
  | .stolen x y => .active (x.toNat + y.toNat + if b = .freed then 1 else 0)
  | .second => .popped
  | .back | .freed | .ended => .finished

/-- The seed is in the seed stack. -/
def Stage.Linked : Stage → Prop
  | .waiting | .active _ => True
  | _ => False

/-- The histories of a seed whose call has returned: it was never pushed, or popped by the frame
without an activation, or activated, counted down and popped. -/
def SeedLog.Finished (log : SeedLog) : Prop :=
  log = ⟨0, 0, 0, []⟩ ∨ log = ⟨1, 0, 1, []⟩ ∨ log = ⟨1, 1, 1, [2, 1, 0]⟩

/-- The seed of `F` is as it has to be at a stage. -/
def Stage.Fits (s : State) (F : FooPtr) : Stage → Prop
  | .unpushed => s.logs F = ⟨0, 0, 0, []⟩
  | .waiting => s.logs F = ⟨1, 0, 0, []⟩ ∧ (s.seeds F).data = (.secondChildDone, .fib F) ∧
      s.info F = ⟨.b F, false, 0, (s.frames F).home⟩
  | .active k => s.logs F = ⟨1, 1, 0, [2, 1, 0].take (k + 1)⟩ ∧
      (s.seeds F).data = (.secondChildDone, .fib F) ∧
      s.info F = ⟨.b F, true, 2 - k, (s.frames F).home⟩ ∧ s.stubs (.b F) = ⟨F, .b F⟩
  | .popped => s.logs F = ⟨1, 0, 1, []⟩
  | .finished => (s.logs F).Finished

section
variable {s s' : State} {t t' : LazyYield.State} {φ : FooPtr → Phase} {F G : FooPtr}
  {p a b : Phase} {l : List FooPtr}

theorem Stage.Fits.congr {k : Stage} (h : k.Fits s G) (hlog : s'.logs G = s.logs G)
    (hdata : (s'.seeds G).data = (s.seeds G).data) (hinfo : s'.info G = s.info G)
    (hhome : (s'.frames G).home = (s.frames G).home)
    (hstub : s'.stubs (.b G) = s.stubs (.b G)) : k.Fits s' G := by
  cases k with
  | unpushed => exact hlog.trans h
  | waiting =>
    obtain ⟨h₁, h₂, h₃⟩ := h
    exact ⟨hlog.trans h₁, hdata.trans h₂, by rw [hinfo, hhome, h₃]⟩
  | active k =>
    obtain ⟨h₁, h₂, h₃, h₄⟩ := h
    exact ⟨hlog.trans h₁, hdata.trans h₂, by rw [hinfo, hhome, h₃], hstub.trans h₄⟩
  | popped => exact hlog.trans h
  | finished =>
    show (s'.logs G).Finished
    rw [hlog]
    exact h

/-- The stage of the seed of `F`. -/
def stageOf (φ : FooPtr → Phase) (F : FooPtr) : Stage := stage (φ F) (φ (.b F))

theorem stage_congr {b' : Phase} (h : b = .freed ↔ b' = .freed) : stage p b = stage p b' := by
  unfold stage
  cases p <;> simp only [h]

/-- A step at the node `F` leaves the stages of the other seeds as they are, when the phases of the
children are at the same stage before and after it. -/
theorem stageOf_reshape (hp : p = .freed ↔ φ F = .freed)
    (ha : ∀ x, stage a x = stage (φ (.a F)) x) (hb : ∀ x, stage b x = stage (φ (.b F)) x)
    (hG : G ≠ F) : stageOf (reshape φ F p a b) G = stageOf φ G := by
  unfold stageOf
  by_cases hGa : G = .a F
  · subst hGa
    rw [reshape_a, reshape_off (off_grandchild (Or.inl rfl) (Or.inr rfl)), ha]
  by_cases hGb : G = .b F
  · subst hGb
    rw [reshape_b, reshape_off (off_grandchild (Or.inr rfl) (Or.inr rfl)), hb]
  have hoff : Off F G := ⟨hG, hGa, hGb⟩
  rw [reshape_off hoff]
  -- the second child of `G` may be `F`
  rcases off_child hoff (c := .b G) (Or.inr rfl) with hF | hoff'
  · rw [hF, reshape_self]
    exact stage_congr hp
  · rw [reshape_off hoff']

/-! ### The seed stack -/

/-- The seeds that are not activated. -/
def waiting (s : State) (l : List FooPtr) : List FooPtr := l.filter fun F => !(s.info F).activated

/-- The seed stack of the first version is `l`. That of the later version holds the seeds that are
not activated, in the same order. -/
structure ListOk (s : State) (t : LazyYield.State) (φ : FooPtr → Phase) (l : List FooPtr) :
    Prop where
  seeds : SeedStackIs s.seeds s.seedHead l
  later : SeedStackIs t.seeds t.seedHead (waiting s l)
  mem : ∀ F, F ∈ l ↔ (stageOf φ F).Linked

/-- Every seed is at its stage. -/
def SeedsOk (s : State) (φ : FooPtr → Phase) : Prop := ∀ F, (stageOf φ F).Fits s F

/-- A step at the node `F` that touches no other seed. -/
theorem SeedsOk.change (h : ∀ G, G ≠ F → (stageOf φ G).Fits s G) (hp : p = .freed ↔ φ F = .freed)
    (ha : ∀ x, stage a x = stage (φ (.a F)) x) (hb : ∀ x, stage b x = stage (φ (.b F)) x)
    (hF : (stage p b).Fits s' F) (hlogs : ∀ G, G ≠ F → s'.logs G = s.logs G)
    (hdata : ∀ G, G ≠ F → (s'.seeds G).data = (s.seeds G).data)
    (hinfo : ∀ G, G ≠ F → s'.info G = s.info G)
    (hhome : ∀ G, G ≠ F → (stageOf φ G).Linked → (s'.frames G).home = (s.frames G).home)
    (hstubs : ∀ G, G ≠ F → s'.stubs (.b G) = s.stubs (.b G)) :
    SeedsOk s' (reshape φ F p a b) := by
  intro G
  by_cases hG : G = F
  · subst hG
    unfold stageOf
    rw [reshape_self, reshape_b]
    exact hF
  · rw [stageOf_reshape hp ha hb hG]
    have hfits := h G hG
    by_cases hlinked : (stageOf φ G).Linked
    · exact hfits.congr (hlogs G hG) (hdata G hG) (hinfo G hG) (hhome G hG hlinked) (hstubs G hG)
    · -- only the history matters
      generalize stageOf φ G = k at hfits hlinked
      cases k with
      | unpushed | popped => exact (hlogs G hG).trans hfits
      | finished =>
        show (s'.logs G).Finished
        rw [hlogs G hG]
        exact hfits
      | waiting | active k => exact absurd trivial hlinked

theorem waiting_congr (h : ∀ G ∈ l, (s'.info G).activated = (s.info G).activated) :
    waiting s' l = waiting s l := by
  unfold waiting
  exact List.filter_congr fun G hG => by rw [h G hG]

/-- The seed stacks do not change. -/
theorem ListOk.keep {φ' : FooPtr → Phase} (h : ListOk s t φ l) (hseeds : s'.seeds = s.seeds)
    (hhead : s'.seedHead = s.seedHead)
    (hinfo : ∀ G ∈ l, (s'.info G).activated = (s.info G).activated)
    (hseeds' : t'.seeds = t.seeds) (hhead' : t'.seedHead = t.seedHead)
    (hmem : ∀ G, (stageOf φ' G).Linked ↔ (stageOf φ G).Linked) : ListOk s' t' φ' l where
  seeds := by
    rw [hseeds, hhead]
    exact h.seeds
  later := by
    rw [waiting_congr hinfo, hseeds', hhead']
    exact h.later
  mem G := (h.mem G).trans (hmem G).symm

/-- The stages of the linked seeds stay linked, and no other one is linked. -/
theorem linked_reshape (hp : p = .freed ↔ φ F = .freed)
    (ha : ∀ x, stage a x = stage (φ (.a F)) x) (hb : ∀ x, stage b x = stage (φ (.b F)) x)
    (hF : (stage p b).Linked ↔ (stageOf φ F).Linked) (G : FooPtr) :
    (stageOf (reshape φ F p a b) G).Linked ↔ (stageOf φ G).Linked := by
  by_cases hG : G = F
  · subst hG
    unfold stageOf at hF ⊢
    rw [reshape_self, reshape_b]
    exact hF
  · rw [stageOf_reshape hp ha hb hG]

theorem waiting_append (l₁ l₂ : List FooPtr) :
    waiting s (l₁ ++ l₂) = waiting s l₁ ++ waiting s l₂ := List.filter_append ..

/-- `pushSeed`, in both versions. -/
theorem ListOk.push {φ' : FooPtr → Phase} (h : ListOk s t φ l) (hnot : F ∉ l)
    {x y : Seed FooPtr Label StackPtr}
    (hseeds : (s'.seeds, s'.seedHead) =
      LazyYield.pushSeed (Function.update s.seeds F x) s.seedHead F)
    (hinfo : ∀ G, G ≠ F → s'.info G = s.info G) (hF : (s'.info F).activated = false)
    (hseeds' : (t'.seeds, t'.seedHead) =
      LazyYield.pushSeed (Function.update t.seeds F y) t.seedHead F)
    (hmem : ∀ G, G ≠ F → ((stageOf φ' G).Linked ↔ (stageOf φ G).Linked))
    (hlinked : (stageOf φ' F).Linked) : ListOk s' t' φ' (l ++ [F]) := by
  -- the fields of a seed that is not in the stack may change
  have hfresh : ∀ {seeds : FooPtr → Seed FooPtr Label StackPtr} {head : Option FooPtr}
      {l : List FooPtr} (z : Seed FooPtr Label StackPtr), F ∉ l → SeedStackIs seeds head l →
      SeedStackIs (Function.update seeds F z) head l := by
    intro seeds head l z hnot hl
    have hne : ∀ G ∈ l, G ≠ F := by
      rintro G hG rfl
      exact hnot hG
    refine IsDList.congr hl (fun G hG => ?_) fun G hG => ?_
    · rw [Function.update_of_ne (hne G hG)]
    · rw [Function.update_of_ne (hne G hG)]
  have hnot' : F ∉ waiting s l := fun hmem => hnot (List.mem_of_mem_filter hmem)
  have hwaiting : waiting s' (l ++ [F]) = waiting s l ++ [F] := by
    rw [waiting_append, waiting_congr fun G hG => ?_]
    · unfold waiting
      rw [List.filter_singleton, hF]
      rfl
    · rw [hinfo G]
      rintro rfl
      exact hnot hG
  obtain ⟨h₁, h₂⟩ := Prod.mk.inj hseeds
  obtain ⟨h₁', h₂'⟩ := Prod.mk.inj hseeds'
  refine ⟨?_, ?_, fun G => ?_⟩
  · rw [h₁, h₂]
    exact (hfresh x hnot h.seeds).push hnot
  · rw [hwaiting, h₁', h₂']
    exact (hfresh y hnot' h.later).push hnot'
  · by_cases hG : G = F
    · subst hG
      exact iff_of_true (by simp) hlinked
    · rw [hmem G hG, ← h.mem G]
      simp [hG]

/-- `popSeed` in the first version. The later one pops the seed as well when it is waiting, and does
nothing when it is active. -/
theorem ListOk.pop {φ' : FooPtr → Phase} (h : ListOk s t φ l) (hF : F ∈ l)
    (hseeds : (s'.seeds, s'.seedHead) = LazyYield.popSeed s.seeds s.seedHead F)
    (hinfo : ∀ G, (s'.info G).activated = (s.info G).activated)
    (hlater : (t'.seeds, t'.seedHead) =
      if (s.info F).activated = true then (t.seeds, t.seedHead)
      else LazyYield.popSeed t.seeds t.seedHead F)
    (hmem : ∀ G, G ≠ F → ((stageOf φ' G).Linked ↔ (stageOf φ G).Linked))
    (hlinked : ¬(stageOf φ' F).Linked) : ∃ l', ListOk s' t' φ' l' := by
  obtain ⟨l₁, l₂, rfl⟩ := List.append_of_mem hF
  have hnodup := h.seeds.nodup
  rw [List.nodup_middle, List.nodup_cons] at hnodup
  obtain ⟨h₁, h₂⟩ := Prod.mk.inj hseeds
  have hcons : waiting s (F :: l₂) =
      if (s.info F).activated = true then waiting s l₂ else F :: waiting s l₂ := by
    unfold waiting
    rw [List.filter_cons]
    cases (s.info F).activated <;> rfl
  have hold := h.later
  rw [waiting_append, hcons] at hold
  refine ⟨l₁ ++ l₂, ?_, ?_, fun G => ?_⟩
  · rw [h₁, h₂]
    exact h.seeds.pop
  · rw [waiting_congr fun G _ => hinfo G, waiting_append]
    -- the later version has popped an activated seed before
    by_cases hact : (s.info F).activated = true
    · rw [if_pos hact] at hold hlater
      obtain ⟨h₁', h₂'⟩ := Prod.mk.inj hlater
      rw [h₁', h₂']
      exact hold
    · rw [if_neg hact] at hold hlater
      obtain ⟨h₁', h₂'⟩ := Prod.mk.inj hlater
      rw [h₁', h₂']
      exact hold.pop
  · by_cases hG : G = F
    · subst hG
      exact iff_of_false hnodup.1 hlinked
    · rw [hmem G hG, ← h.mem G]
      simp [hG]

end

end Stacklets.SeedJoin

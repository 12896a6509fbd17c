import Stacklets.Lib.FrameStacks
import Stacklets.LazyYield.Runtime

/-!
# `Stacklets.LazyYield.Invariant`: the call tree and the two queues

Suspended frames, stolen second children and half-finished joins are scattered over many stacks.
`Phase` says how far the call of one node of the call tree has come, and `φ` gives the phase of
every node. The invariant ties the memory to the phases:

* `NodeOk`: the `Foo`s, the frame, the seed and the stacklet of a node are those of its phase and
  of the phases of its two children;
* `ControlOk`: the program is in the one node whose phase says so;
* `StacksOk`: a stack holds its live frames, each one right above the frame that called it;
* `QueuesOk`: the seed stack holds the seeds of the nodes in phase `first`, and the ready queue
  the nodes in phase `yielded`.

A step changes the phases of one node and of its children. `reshape` is this change.
-/

set_option autoImplicit false

namespace Stacklets.LazyYield

open Lib
open LazyFork (FooPtr Foo Status aboveFrame inputOf fibValue InTree)

/-- The phase of the call `fib(F)`. -/
inductive Phase
  /-- Not called. -/
  | idle
  /-- The program is at its start. -/
  | entered
  /-- In the ready queue. -/
  | yielded
  /-- Taken from the ready queue, and the program is behind `Resume`. -/
  | resumed
  /-- The first child runs and the seed is in the seed stack. -/
  | first
  /-- The seed was taken, and the program is at `SecondChildSteal`. -/
  | taken
  /-- The second child runs on the same stack. -/
  | second
  /-- The second child was stolen. The flags say which children have been counted as done. -/
  | stolen (a b : Bool)
  /-- Returned, and the program has not yet gone on in the caller. -/
  | back
  /-- Returned, and its stacklet has been freed, with the program at `SecondChildDone`. -/
  | freed
  /-- Done. -/
  | ended
deriving DecidableEq

namespace Phase

/-- How far the call has come, as the caller sees it. -/
@[simp] def status : Phase → Status
  | .idle => .idle
  | .ended => .done
  | _ => .active

/-- The call has a frame. -/
@[simp] def Live : Phase → Prop
  | .idle | .back | .freed | .ended => False
  | _ => True

/-- The program is at the node. -/
@[simp] def Control : Phase → Prop
  | .entered | .resumed | .taken | .back | .freed => True
  | _ => False

/-- The phase of a node fits the states of its two children. -/
@[simp] def Fits (a b : Status) : Phase → Prop
  | .idle | .entered | .yielded | .resumed => a = .idle ∧ b = .idle
  | .first | .taken => a = .active ∧ b = .idle
  | .second => a = .done ∧ b = .active
  | .stolen x y => ¬(x = true ∧ y = true) ∧ a = (if x then .done else .active) ∧
      b = (if y then .done else .active)
  | .back | .freed | .ended => (a = .idle ∧ b = .idle) ∨ (a = .done ∧ b = .done)

/-- The node is known not to be a leaf. -/
@[simp] def Big : Phase → Prop
  | .yielded | .resumed | .first | .taken | .second | .stolen _ _ => True
  | _ => False

/-- The arguments of the children have been stored. -/
@[simp] def Forked : Phase → Prop
  | .first | .taken | .second | .stolen _ _ => True
  | _ => False

/-- The result has been stored. -/
@[simp] def Written : Phase → Prop
  | .back | .freed | .ended => True
  | _ => False

/-- The frame of the first child lies right above that of the node. -/
@[simp] def RunsA : Phase → Prop
  | .first | .taken | .stolen false _ => True
  | _ => False

/-- The second child has a stacklet. `b` is the phase of the second child. -/
@[simp] def OnStacklet (p b : Phase) : Prop :=
  match p with
  | .stolen _ false => b ≠ .freed
  | _ => False

/-- The locals of a frame in a phase. -/
@[simp] def FrameOk (f : Frame) : Phase → Prop
  | .yielded | .resumed => f.yieldStubBase = f.home
  | .first | .taken =>
    f.firstChildReturnAdr = some .firstChildDoneNormally ∧ f.localStubBase = f.home
  | .stolen x y => f.firstChildReturnAdr = some .firstChildDone ∧ f.localStubBase = f.home ∧
      f.syncCounter = 2 - (x.toNat + y.toNat : Nat)
  | _ => True

theorem Live.status_eq {p : Phase} (h : p.Live) : p.status = .active := by
  cases p <;> first | rfl | exact h.elim

end Phase

/-! ### The invariant -/

/-- The memory of a node is that of the phases of the node and its children. -/
structure NodeOk (n : Int) (s : State) (φ : FooPtr → Phase) (F : FooPtr) : Prop where
  fits : (φ F).Fits (φ (.a F)).status (φ (.b F)).status
  tree : φ F ≠ .idle → InTree n F
  input : φ F ≠ .idle → (s.foos F).input = inputOf n F
  big : (φ F).Big → 2 < inputOf n F
  children : (φ F).Forked → (s.foos (.a F)).input = inputOf n (.a F) ∧
    (s.foos (.b F)).input = inputOf n (.b F)
  output : (φ F).Written → (s.foos F).output = BitVec.ofNat 32 (fibValue (inputOf n F))
  frame : (φ F).FrameOk (s.frames F)
  seed : φ F = .first → (s.seeds F).data = (.secondChildSteal, .fib F)
  linkA : (φ (.a F)).Live → (s.frames (.a F)).returnAdr = .afterA F ∧
    (s.frames (.a F)).home = (s.frames F).home
  linkB : (φ (.b F)).Live →
    if φ F = .second then (s.frames (.b F)).returnAdr = .afterB F ∧
      (s.frames (.b F)).home = (s.frames F).home
    else (s.frames (.b F)).returnAdr = .stubRoutine ∧ (s.frames (.b F)).home = .stacklet (.b F)
  stub : ∀ x, φ F = .stolen x false →
    s.stubs (.b F) = ⟨.secondChildDone, .fib F, (s.frames F).home⟩
  /-- The stacklet of the second child is there while the child is on it, and freed later. -/
  onStacklet : (φ F).OnStacklet (φ (.b F)) → s.forks (.b F) = 1 ∧ s.frees (.b F) = 0
  offStacklet : ¬(φ F).OnStacklet (φ (.b F)) →
    s.frees (.b F) = s.forks (.b F) ∧ s.forks (.b F) ≤ 1
  unforked : φ (.b F) = .idle → s.forks (.b F) = 0

/-- The node at which the program is, and its phase. -/
def State.holder (s : State) : Option (FooPtr × Phase) :=
  match s.pc with
  | .start F => some (F, .entered)
  | .resume F => some (F, .resumed)
  | .secondChildSteal F => some (F, .taken)
  | .afterA F => some (.a F, .back)
  | .afterB F => some (.b F, .back)
  | .secondChildDone F => some (.b F, .freed)
  | .stubRoutine =>
    match s.stubBase with
    | .stacklet x => some (x, .back)
    | .main => none
  | .returned => some (.root, .back)
  | .suspend => none
  | .wild => none

/-- `stubBase` is right, and the label belongs to the frame. -/
def State.PcOk (s : State) (φ : FooPtr → Phase) : Prop :=
  match s.pc with
  | .start F => s.stubBase = (s.frames F).home
  | .resume _ => True
  | .secondChildSteal _ => True
  | .afterA F => s.stubBase = (s.frames F).home
  | .afterB F => φ F = .second ∧ s.stubBase = (s.frames F).home
  | .secondChildDone F => (∃ x, φ F = .stolen x false) ∧ s.stubBase = (s.frames F).home
  | .stubRoutine => ∃ F x, s.stubBase = .stacklet (.b F) ∧ φ F = .stolen x false
  | .returned => True
  | .suspend => True
  | .wild => False

/-- The program is where the phases say. -/
structure ControlOk (s : State) (φ : FooPtr → Phase) : Prop where
  holder : ∀ F, (φ F).Control → s.holder = some (F, φ F)
  held : ∀ F p, s.holder = some (F, p) → φ F = p
  pcOk : s.PcOk φ

/-- The frame `x` lies right above the frame `y`, which called it. -/
def Above (φ : FooPtr → Phase) (x y : FooPtr) : Prop :=
  (x = .a y ∧ (φ y).RunsA) ∨ (x = .b y ∧ φ y = .second)

/-- The stacks hold the live frames. -/
def StacksOk (s : State) (φ : FooPtr → Phase) : Prop :=
  FrameStacks s.stackOf (Above φ) (fun F => (φ F).Live) fun F => (s.frames F).home

/-- The queues hold what the phases say. -/
structure QueuesOk (s : State) (φ : FooPtr → Phase) : Prop where
  seeds : ∃ l, SeedStackIs s.seeds s.seedHead l ∧ ∀ F, F ∈ l ↔ φ F = .first
  ready : ∃ l : List FooPtr, s.readyQ.Represents (l.map fun F => (.resume, .yield F)) ∧ l.Nodup ∧
    ∀ F, F ∈ l ↔ φ F = .yielded

/-- The invariant of a run of `startfib(n)`. -/
structure Inv (n : Int) (s : State) (φ : FooPtr → Phase) : Prop where
  nodes : ∀ F, NodeOk n s φ F
  control : ControlOk s φ
  stacksOk : StacksOk s φ
  queues : QueuesOk s φ
  /-- The root is on the main stack, and in use until the end. -/
  root : φ .root ≠ .idle ∧ φ .root ≠ .ended
  link : (φ .root).Live → (s.frames .root).returnAdr = .startfib ∧ (s.frames .root).home = .main
  /-- Only second children get stacklets. -/
  stacklets : ∀ x, (∀ F, x ≠ .b F) → s.forks x = 0 ∧ s.frees x = 0

/-! ### Nodes of the call tree -/

theorem ne_of_depth_lt {F G : FooPtr} (h : F.depth < G.depth) : F ≠ G := by
  rintro rfl
  omega

theorem ne_a (F : FooPtr) : F ≠ .a F := ne_of_depth_lt (Nat.lt_succ_self _)

theorem ne_b (F : FooPtr) : F ≠ .b F := ne_of_depth_lt (Nat.lt_succ_self _)

/-- A caller lies higher in the tree. -/
theorem Above.depth_lt {φ : FooPtr → Phase} {x y : FooPtr} (h : Above φ x y) :
    y.depth < x.depth := by
  rcases h with ⟨rfl, _⟩ | ⟨rfl, _⟩
  · exact Nat.lt_succ_self _
  · exact Nat.lt_succ_self _

/-- The phases after a step that changes those of `F` and its children. -/
def reshape (φ : FooPtr → Phase) (F : FooPtr) (p a b : Phase) : FooPtr → Phase := fun G =>
  if G = F then p else if G = .a F then a else if G = .b F then b else φ G

section
variable {φ : FooPtr → Phase} {F G : FooPtr} {p a b : Phase}

@[simp] theorem reshape_self : reshape φ F p a b F = p := if_pos rfl

@[simp] theorem reshape_a : reshape φ F p a b (.a F) = a := by
  unfold reshape
  rw [if_neg (ne_a F).symm, if_pos rfl]

@[simp] theorem reshape_b : reshape φ F p a b (.b F) = b := by
  unfold reshape
  rw [if_neg (ne_b F).symm, if_neg nofun, if_pos rfl]

/-- A node that is not `F` or one of its children. -/
def Off (F G : FooPtr) : Prop := G ≠ F ∧ G ≠ .a F ∧ G ≠ .b F

/-- Away from `F` and its children no phase changes. -/
theorem reshape_off (h : Off F G) : reshape φ F p a b G = φ G := by
  unfold reshape
  rw [if_neg h.1, if_neg h.2.1, if_neg h.2.2]

/-- The cases of a statement about every node. -/
theorem forall_of_off {P : FooPtr → Prop} (hF : P F) (ha : P (.a F)) (hb : P (.b F))
    (hoff : ∀ G, Off F G → P G) (G : FooPtr) : P G := by
  by_cases h₁ : G = F
  · exact h₁ ▸ hF
  by_cases h₂ : G = .a F
  · exact h₂ ▸ ha
  by_cases h₃ : G = .b F
  · exact h₃ ▸ hb
  exact hoff G ⟨h₁, h₂, h₃⟩

/-- A property of all nodes and their new phases. -/
theorem forall_reshape {Q : FooPtr → Phase → Prop} (hF : Q F p) (ha : Q (.a F) a) (hb : Q (.b F) b)
    (hoff : ∀ G, Off F G → Q G (φ G)) : ∀ G, Q G (reshape φ F p a b G) := by
  refine forall_of_off (F := F) ?_ ?_ ?_ fun G hG => ?_
  · rw [reshape_self]
    exact hF
  · rw [reshape_a]
    exact ha
  · rw [reshape_b]
    exact hb
  · rw [reshape_off hG]
    exact hoff G hG

/-- The list of the nodes in the phase `k`, when `F` may enter it or leave it. -/
theorem mem_reshape {l l' : List FooPtr} {k : Phase} (hmem : ∀ G, G ∈ l ↔ φ G = k)
    (hl : ∀ G, G ≠ F → (G ∈ l' ↔ G ∈ l)) (hF : F ∈ l' ↔ p = k) (ha : a = k ↔ φ (.a F) = k)
    (hb : b = k ↔ φ (.b F) = k) (G : FooPtr) : G ∈ l' ↔ reshape φ F p a b G = k :=
  forall_reshape (Q := fun G q => G ∈ l' ↔ q = k) hF
    (((hl _ (ne_a F).symm).trans (hmem _)).trans ha.symm)
    (((hl _ (ne_b F).symm).trans (hmem _)).trans hb.symm)
    (fun G hG => (hl G hG.1).trans (hmem G)) G

/-- The grandchildren are off. -/
theorem off_of_depth (h : F.depth + 1 < G.depth) : Off F G := by
  have hF : F.depth < G.depth := by omega
  have ha : (FooPtr.a F).depth < G.depth := h
  have hb : (FooPtr.b F).depth < G.depth := h
  exact ⟨(ne_of_depth_lt hF).symm, (ne_of_depth_lt ha).symm, (ne_of_depth_lt hb).symm⟩

/-- The caller of `F` is off. -/
theorem off_of_depth_lt (h : G.depth < F.depth) : Off F G := by
  have ha : G.depth < (FooPtr.a F).depth := Nat.lt_succ_of_lt h
  have hb : G.depth < (FooPtr.b F).depth := Nat.lt_succ_of_lt h
  exact ⟨ne_of_depth_lt h, ne_of_depth_lt ha, ne_of_depth_lt hb⟩

end

/-- How much is left to do in a phase. -/
@[simp] def Phase.weight : Phase → Nat
  | .idle => 13
  | .entered => 12
  | .yielded => 11
  | .resumed => 10
  | .first => 8
  | .taken => 7
  | .stolen a b => 5 - (a.toNat + b.toNat)
  | .second => 4
  | .back => 2
  | .freed => 1
  | .ended => 0

/-- A step from phases `φ` to `φ'`, with less to do behind it. -/
def Lower (φ φ' : FooPtr → Phase) : Prop :=
  ∃ F p a b, φ F ≠ .idle ∧ φ' = reshape φ F p a b ∧
    p.weight + a.weight + b.weight < (φ F).weight + (φ (.a F)).weight + (φ (.b F)).weight

/-- The invariant holds at the start. -/
theorem inv_initial (n : Int) :
    Inv n (initial n) fun F => if F = .root then .entered else .idle := by
  have hroot : ∀ F : FooPtr, (if F = .root then Phase.entered else .idle).Live ↔ F = .root := by
    intro F
    by_cases hF : F = .root <;> simp [hF]
  refine ⟨fun F => ?_, ⟨fun F hF => ?_, ?_, rfl⟩, ⟨fun R => ?_, fun R F => ?_⟩,
    ⟨⟨[], seedStackIs_nil, fun F => ?_⟩, ⟨[], ⟨[], isSList_nil, nofun, rfl⟩, List.nodup_nil,
      fun F => ?_⟩⟩, ⟨by simp, by simp⟩, fun _ => ⟨rfl, rfl⟩, fun _ _ => ⟨rfl, rfl⟩⟩
  · by_cases hF : F = .root
    · subst hF
      constructor <;> simp [initial, InTree.root]
    · constructor <;> simp [initial, hF]
  · by_cases h : F = .root
    · simp [h, State.holder, initial]
    · simp [h] at hF
  · intro F p hp
    cases hp
    rfl
  · show (if R = .main then [FooPtr.root] else []).IsChain _
    by_cases hR : R = .main <;> simp [hR]
  · rw [hroot]
    show F ∈ (if R = .main then [FooPtr.root] else []) ↔ F = .root ∧ Stack.main = R
    by_cases hR : R = .main
    · simp [hR]
    · simp [hR, Ne.symm hR]
  · by_cases hF : F = .root <;> simp [hF]
  · by_cases hF : F = .root <;> simp [hF]

end Stacklets.LazyYield

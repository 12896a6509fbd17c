import Mathlib.Data.List.Chain
import Stacklets.LazyFork.Steps

/-!
# `Stacklets.LazyFork.Calls`: calls, returns and stacklets keep the invariant

A call or a return changes two phases: that of the frame that starts or ends, and that of its
caller. The caller is a frame that calls on its own stacklet, a frame whose second child has a
stacklet of its own, or `startfib`. `LinkMove` says what the three have in common. It is the
change on the side of the caller, and the rules `Follows.enter` and `Follows.leave` add the
change on the side of the callee. `Follows.link` is the rule for steps on the way to a new
stacklet or back from it, which change the caller only.
-/

set_option autoImplicit false

namespace Stacklets.LazyFork

open Function (update update_self update_of_ne)
open Lib (FrameStacks)

section
variable {P : Nat} {n : Int} {s s' : State P} {φ φ' : FooPtr → Phase P} {ρ ρ' : RootPhase P}
  {q : Tid P → List FooPtr} {t : Tid P} {F C S : FooPtr} {p p' : Phase P} {τ τ' : Option Token}

/-! ### Stacks -/

/-- A caller lies higher in the call tree. -/
theorem Above.depth_lt {x y : FooPtr} (h : Above φ x y) : y.depth < x.depth := by
  rcases h with ⟨rfl, -⟩ | ⟨rfl, -⟩ <;> simp [FooPtr.depth]

/-- A live frame without a child above it is the topmost one of its stacklet. -/
theorem StacksOk.top (h : StacksOk s φ) (hF : (φ F).status = .active) (hA : ¬ (φ F).RunsA)
    (hB : φ F ≠ .inB) : ∃ rest, s.stacklets (s.frames F).home = F :: rest := by
  refine FrameStacks.top h hF fun y hy => ?_
  rcases hy with ⟨-, hy⟩ | ⟨-, hy⟩
  · exact absurd hy hA
  · exact absurd hy hB

/-- A new frame `C` on top of a stacklet. -/
theorem StacksOk.push (h : StacksOk s φ) (hstacks : s'.stacklets = update s.stacklets S
      (C :: s.stacklets S))
    (htop : ∀ y, (s.stacklets S).head? = some y → Above φ' C y)
    (habove : ∀ x y, x ≠ C → (Above φ' x y ↔ Above φ x y))
    (hstatus : ∀ G, G ≠ C → (φ' G).status = (φ G).status)
    (hhome : ∀ G, G ≠ C → (s'.frames G).home = (s.frames G).home)
    (hold : (φ C).status ≠ .active) (hnew : (φ' C).status = .active)
    (hS : (s'.frames C).home = S) : StacksOk s' φ' := by
  have hne : ∀ {G}, (φ G).status = .active → G ≠ C := by
    rintro G hG rfl
    exact hold hG
  unfold StacksOk
  rw [hstacks]
  refine FrameStacks.push h htop (fun y z hy _ => (habove y z (hne hy)).mpr) hold (fun G => ?_)
    (fun G hG => hhome G (hne hG)) hS
  by_cases hG : G = C
  · simp [hG, hnew, -Phase.status]
  · simp [hG, hstatus G hG, -Phase.status]

/-- The topmost frame `C` of a stacklet is gone. -/
theorem StacksOk.pop {rest : List FooPtr} (h : StacksOk s φ) (hC : s.stacklets S = C :: rest)
    (hstacks : s'.stacklets = update s.stacklets S rest)
    (habove : ∀ x y, x ≠ C → (Above φ' x y ↔ Above φ x y))
    (hstatus : ∀ G, G ≠ C → (φ' G).status = (φ G).status)
    (hhome : ∀ G, (s'.frames G).home = (s.frames G).home)
    (hnew : (φ' C).status ≠ .active) : StacksOk s' φ' := by
  have hnodup := FrameStacks.nodup h FooPtr.depth (fun _ _ => Above.depth_lt) S
  rw [hC, List.nodup_cons] at hnodup
  unfold StacksOk
  rw [hstacks]
  refine FrameStacks.pop h hC hnodup.1 (fun y z hy _ _ => (habove y z hy).mpr) (fun G => ?_)
    fun G _ => hhome G
  by_cases hG : G = C
  · simp [hG, hnew, -Phase.status]
  · simp [hG, hstatus G hG, -Phase.status]

/-! ### The side of the caller -/

/-- The link between `C` and its caller changes, on the side of the caller. The place of
pthread `t` changes from `τ` to `τ'`. -/
structure LinkMove (n : Int) (φ φ' : FooPtr → Phase P) (ρ ρ' : RootPhase P) (C : FooPtr)
    (t : Tid P) (τ τ' : Option Token) : Prop where
  token : ∀ u σ, HasToken φ' ρ' u σ ↔
    (HasToken φ ρ u σ ∧ ¬ (u = t ∧ τ = some σ)) ∨ (u = t ∧ τ' = some σ)
  self : φ' C = φ C
  status : ∀ G, (φ' G).status = (φ G).status
  statusIn : ∀ G, G ≠ C → statusIn φ' ρ' G = statusIn φ ρ G
  inB : ∀ G, .b G ≠ C → (φ' G = .inB ↔ φ G = .inB)
  above : ∀ x y, x ≠ C → (Above φ' x y ↔ Above φ x y)
  fork : ∀ G, G ≠ C → forkOf φ' ρ' G = forkOf φ ρ G
  linkedIn : ∀ G i, (φ' G).linkedIn i = (φ G).linkedIn i
  node : ∀ (s : State P) G, NodeOk n s G (φ G) → NodeOk n s G (φ' G)

/-- The tokens that depend on the phase of a frame. -/
theorem Token.frame_eq_some {σ : Token} (h : σ.frame = some F) :
    (∃ l, σ = .fib F l) ∨ σ = .unlock (.b F) ∨ σ = .alloc (.b F) ∨ σ = .stub (.b F) ∨
      σ = .finish (.b F) := by
  cases σ with
  | fib G l => simp_all [Token.frame]
  | unlock arg | alloc arg | stub arg | finish arg => cases arg <;> simp_all [Token.frame]
  | lock | returned => simp [Token.frame] at h

/-- The tokens that depend on the phase of `startfib`. -/
def rootTokens : List Token :=
  [.lock, .returned, .unlock .root, .alloc .root, .stub .root, .finish .root]

/-- The other tokens do not depend on the phase of `startfib`. -/
theorem hasToken_root_of_notMem {σ : Token} (u : Tid P) (h : σ ∉ rootTokens) :
    HasToken φ ρ' u σ ↔ HasToken φ ρ u σ := by
  cases σ with
  | fib G l => rfl
  | unlock arg | alloc arg | stub arg | finish arg =>
    cases arg with
    | root => simp [rootTokens] at h
    | a G | b G => rfl
  | lock | returned => simp [rootTokens] at h

/-- The caller is the frame `F`. -/
theorem LinkMove.ofFrame (hC : C = .a F ∨ C = .b F)
    (hτ : ∀ σ, τ = some σ → σ.frame = some F) (hτ' : ∀ σ, τ' = some σ → σ.frame = some F)
    (htok : ∀ u σ, σ.frame = some F → (HasToken (update φ F p') ρ u σ ↔
      (HasToken φ ρ u σ ∧ ¬ (u = t ∧ τ = some σ)) ∨ (u = t ∧ τ' = some σ)))
    (hstatus : p'.status = (φ F).status)
    (hA : C ≠ .a F → p'.statusA = (φ F).statusA ∧ (p'.RunsA ↔ (φ F).RunsA))
    (hB : C ≠ .b F → p'.statusB = (φ F).statusB ∧ (p' = .inB ↔ φ F = .inB) ∧
      p'.fork = (φ F).fork)
    (hlinked : ∀ i, p'.linkedIn i = (φ F).linkedIn i)
    (hnode : ∀ s : State P, NodeOk n s F (φ F) → NodeOk n s F p') :
    LinkMove n φ (update φ F p') ρ ρ C t τ τ' where
  token u σ := by
    by_cases hσ : σ.frame = some F
    · exact htok u σ hσ
    · rw [hasToken_update_of_ne u hσ]
      have h₁ : τ ≠ some σ := fun h => hσ (hτ σ h)
      have h₂ : τ' ≠ some σ := fun h => hσ (hτ' σ h)
      simp [h₁, h₂]
  self := by
    refine update_of_ne ?_ _ _
    rintro rfl
    rcases hC with h | h <;> · have := congrArg sizeOf h; simp at this
  status G := comp_update_of_eq Phase.status hstatus G
  statusIn G hG := by
    cases G with
    | root => rfl
    | a G =>
      by_cases h : G = F
      · subst h
        simpa using (hA (Ne.symm hG)).1
      · simp [h]
    | b G =>
      by_cases h : G = F
      · subst h
        simpa using (hB (Ne.symm hG)).1
      · simp [h]
  inB G hG := by
    by_cases h : G = F
    · subst h
      simpa using (hB (Ne.symm hG)).2.1
    · simp [h]
  -- above `F` there is at most its other child
  above x y hx := by
    by_cases h : y = F
    · subst h
      rcases hC with rfl | rfl
      · have := hB (by simp)
        simp [Above, hx, this.2.1]
      · have := hA (by simp)
        simp only [Above, update_self, this.2, hx, false_and]
    · simp [Above, h]
  fork G hG := by
    cases G with
    | root | a G => rfl
    | b G =>
      by_cases h : G = F
      · subst h
        simpa [forkOf] using (hB (Ne.symm hG)).2.2
      · simp [forkOf, h]
  linkedIn G i := comp_update_of_eq (fun p => p.linkedIn i) (hlinked i) G
  node s G := by
    by_cases h : G = F
    · subst h
      simpa using hnode s
    · simp [h]

/-- The caller is `startfib`. -/
theorem LinkMove.ofRoot (hτ : ∀ σ, τ = some σ → σ ∈ rootTokens)
    (hτ' : ∀ σ, τ' = some σ → σ ∈ rootTokens)
    (htok : ∀ u, ∀ σ ∈ rootTokens, (HasToken φ ρ' u σ ↔
      (HasToken φ ρ u σ ∧ ¬ (u = t ∧ τ = some σ)) ∨ (u = t ∧ τ' = some σ))) :
    LinkMove n φ φ ρ ρ' .root t τ τ' where
  token u σ := by
    by_cases hσ : σ ∈ rootTokens
    · exact htok u σ hσ
    · have h₁ : τ ≠ some σ := fun h => hσ (hτ σ h)
      have h₂ : τ' ≠ some σ := fun h => hσ (hτ' σ h)
      simp [h₁, h₂, hasToken_root_of_notMem (ρ := ρ) u hσ]
  self := rfl
  status _ := rfl
  statusIn G hG := by cases G <;> simp_all
  inB _ _ := Iff.rfl
  above _ _ _ := Iff.rfl
  fork G hG := by cases G <;> simp_all [forkOf]
  linkedIn _ _ := rfl
  node _ _ h := h

/-- Pthread `t` gives up the token `τ` and gets the token `τ'`. -/
theorem ControlOk.exchange (h : ControlOk s φ ρ)
    (htok : ∀ u σ, HasToken φ' ρ' u σ ↔
      (HasToken φ ρ u σ ∧ ¬ (u = t ∧ τ = some σ)) ∨ (u = t ∧ τ' = some σ))
    (hpc : ∀ u, u ≠ t → s'.pc u = s.pc u) (hτ : (s.pc t).token = τ) (hτ' : (s'.pc t).token = τ')
    (hok : (s'.pc t).Ok s')
    (howner : ∀ u arg, u ≠ t → forkOf φ ρ arg = some (.unlock u) →
      ownerOf s' arg = ownerOf s arg) : ControlOk s' φ' ρ' := by
  subst hτ hτ'
  refine h.move (t := t) hpc ?_ ?_ hok howner
  · intro u σ hu
    rw [htok]
    simp [hu]
  · intro σ
    rw [htok, h.token]
    simp

/-- The exchange of tokens does not depend on the phase of `C` itself. -/
theorem LinkMove.token_update (m : LinkMove n φ φ' ρ ρ' C t τ τ')
    (hτ : ∀ σ, τ = some σ → σ.frame ≠ some C) (hτ' : ∀ σ, τ' = some σ → σ.frame ≠ some C)
    (u : Tid P) (σ : Token) : HasToken (update φ' C p') ρ' u σ ↔
      (HasToken (update φ C p') ρ u σ ∧ ¬ (u = t ∧ τ = some σ)) ∨
        (u = t ∧ τ' = some σ) := by
  by_cases hσ : σ.frame = some C
  · have h₁ : τ ≠ some σ := fun h => hτ σ h hσ
    have h₂ : τ' ≠ some σ := fun h => hτ' σ h hσ
    rcases Token.frame_eq_some hσ with ⟨l, rfl⟩ | rfl | rfl | rfl | rfl <;>
      simp [HasToken, forkOf, h₁, h₂]
  · rw [hasToken_update_of_ne u hσ, hasToken_update_of_ne u hσ]
    exact m.token u σ

/-! ### Steps that change the caller only -/

/-- The states agree but for places and locks. -/
structure SameMemory (s s' : State P) : Prop where
  foos : s'.foos = s.foos
  frames : s'.frames = s.frames
  stacklets : s'.stacklets = s.stacklets
  stubs : s'.stubs = s.stubs
  seeds : s'.seeds = s.seeds
  seedStacks : s'.seedStacks = s.seedStacks
  readyQ : s'.readyQ = s.readyQ
  tally : s'.tally = s.tally

/-- The memory of a frame, after a step that only moves pthreads and locks. -/
theorem SameMemory.node (hm : SameMemory s s') (h : NodeOk n s F p) : NodeOk n s' F p :=
  h.congr (fun _ => by rw [hm.foos]) (by rw [hm.foos]) (by rw [hm.foos]) (by rw [hm.tally])
    (by rw [hm.frames]) (by rw [hm.seeds]; exact h.seed)

/-- The locks that the others hold, after a step that only moves pthreads and locks. -/
theorem SameMemory.lockHeld (hm : SameMemory s s') (hpc : ∀ u, u ≠ t → s'.pc u = s.pc u)
    (u : Tid P) (hu : u ≠ t) : lockHeld s' u (s'.pc u) = lockHeld s u (s.pc u) := by
  rw [hpc u hu]
  exact lockHeld_congr fun G _ _ => by rw [hm.frames]

/-- A step of `t` that leaves the memory alone and changes the link of `C` on the side of the
caller only. -/
theorem Follows.link (h : Follows n s φ ρ q) (m : LinkMove n φ φ' ρ ρ' C t τ τ')
    (hm : SameMemory s s') (hpc : ∀ u, u ≠ t → s'.pc u = s.pc u) (hτ : (s.pc t).token = τ)
    (hτ' : (s'.pc t).token = τ') (hok : (s'.pc t).Ok s') (hlocks : LocksOk s')
    (htaken : ∀ k G, s'.pc t = .takeSeed k G → G ∈ q (k.victim t))
    (hstatus : statusIn φ' ρ' C = statusIn φ ρ C) (hinB : ∀ G, φ' G = .inB ↔ φ G = .inB)
    (habove : ∀ y, Above φ' C y ↔ Above φ C y)
    (hstub : ∀ w, forkOf φ' ρ' C = some w → w.status ≠ .idle → s.stubs C = parentOf C) :
    Follows n s' φ' ρ' q where
  control := by
    refine h.control.exchange m.token hpc hτ hτ' hok fun u arg _ _ => ?_
    cases arg <;> simp [hm.frames]
  locks := hlocks
  queues :=
    { rep := by rw [hm.seeds, hm.seedStacks]; exact h.queues.rep
      mem := by
        intro x G
        rw [m.linkedIn, hm.frames]
        exact h.queues.mem x G
      taken := by
        intro u k G hu
        by_cases hut : u = t
        · subst hut
          exact htaken k G hu
        · rw [hpc u hut] at hu
          exact h.queues.taken u k G hu
      readyQ := hm.readyQ.trans h.queues.readyQ }
  nodes G := hm.node (m.node s G (h.nodes G))
  edges :=
    { status := by
        intro G
        rw [m.status, h.edges.status]
        by_cases hG : G = C
        · rw [hG, hstatus]
        · rw [m.statusIn G hG]
      link := by
        intro G hG
        rw [m.status] at hG
        have := h.edges.link G hG
        rw [hm.frames, this.1, this.2]
        cases G <;> simp [hinB, hm.frames]
      stub := by
        intro R w hR hw
        rw [hm.stubs]
        by_cases hRC : R = C
        · subst hRC
          exact hstub w hR hw
        · rw [m.fork R hRC] at hR
          exact h.edges.stub R w hR hw }
  stacklets := by
    unfold StacksOk
    rw [hm.stacklets]
    refine FrameStacks.congr h.stacklets (fun x y _ _ hxy => ?_) (fun G => by rw [m.status])
      fun G _ => by rw [hm.frames]
    -- which frame lies above which does not change
    by_cases hx : x = C
    · subst hx
      exact (habove y).mpr hxy
    · exact (m.above x y hx).mpr hxy

/-! ### Calls -/

/-- Nobody is in the code of an idle frame. -/
theorem Follows.lockHeld_idle (h : Follows n s φ ρ q) (hidle : φ C = .idle)
    (hframes : ∀ G, G ≠ C → s'.frames G = s.frames G) (hpc : ∀ u, u ≠ t → s'.pc u = s.pc u)
    (u : Tid P) (hu : u ≠ t) : lockHeld s' u (s'.pc u) = lockHeld s u (s.pc u) := by
  rw [hpc u hu]
  by_cases hC : ∃ l, s.pc u = .fib C l
  · obtain ⟨l, hl⟩ := hC
    obtain rfl : l = .suspendStub := by
      by_contra hne
      have := h.at hl hne
      rw [hidle] at this
      exact this
    simp [hl]
  · refine lockHeld_congr fun G l hG => ?_
    rw [hframes G fun hGC => hC ⟨l, hGC ▸ hG⟩]

/-- The caller of a frame is another frame. -/
theorem returnAdrOf_update_self : returnAdrOf (update φ C p') C = returnAdrOf φ C := by
  cases C with
  | root | a G => rfl
  | b G =>
    have : G ≠ .b G := by intro h; have := congrArg sizeOf h; simp at this
    simp [this]

theorem homeOf_update_self (hframes : ∀ G, G ≠ C → s'.frames G = s.frames G) :
    homeOf s' (update φ C p') C = homeOf s φ C := by
  cases C with
  | root => rfl
  | a G =>
    have : G ≠ .a G := by intro h; have := congrArg sizeOf h; simp at this
    simp [hframes G this]
  | b G =>
    have : G ≠ .b G := by intro h; have := congrArg sizeOf h; simp at this
    simp [hframes G this, this]

theorem statusIn_update_self : statusIn (update φ C p') ρ C = statusIn φ ρ C := by
  cases C with
  | root => rfl
  | a G =>
    have : G ≠ .a G := by intro h; have := congrArg sizeOf h; simp at this
    simp [this]
  | b G =>
    have : G ≠ .b G := by intro h; have := congrArg sizeOf h; simp at this
    simp [this]

/-- The edges after a change of the link of `C` and of the phase of `C`. -/
theorem EdgesOk.change (h : EdgesOk s φ ρ) (m : LinkMove n φ φ' ρ ρ' C t τ τ')
    (hA : p'.statusA = (φ C).statusA) (hB : p'.statusB = (φ C).statusB) (hp' : p' ≠ .inB)
    (hC : φ C ≠ .inB) (hfork : p'.fork = (φ C).fork) (hstatus : p'.status = statusIn φ' ρ' C)
    (hframes : ∀ G, G ≠ C → s'.frames G = s.frames G)
    (hhome : (φ C).statusA = .active → (s'.frames C).home = (s.frames C).home)
    (hlink : p'.status = .active → (s'.frames C).returnAdr = returnAdrOf φ' C ∧
      (s'.frames C).home = homeOf s φ' C)
    (hstubs : ∀ R, R ≠ C → s'.stubs R = s.stubs R)
    (hstub : ∀ w, forkOf φ' ρ' C = some w → w.status ≠ .idle → s'.stubs C = parentOf C) :
    EdgesOk s' (update φ' C p') ρ' where
  status G := by
    by_cases hG : G = C
    · subst hG
      rw [update_self, statusIn_update_self, hstatus]
    · rw [update_of_ne hG, m.status, h.status, ← m.statusIn G hG]
      cases G with
      | root => rfl
      | a G => exact (comp_update_of_eq Phase.statusA (hA.trans (by rw [m.self])) G).symm
      | b G => exact (comp_update_of_eq Phase.statusB (hB.trans (by rw [m.self])) G).symm
  link G hG := by
    by_cases hGC : G = C
    · subst hGC
      rw [update_self] at hG
      rw [returnAdrOf_update_self, homeOf_update_self hframes]
      exact hlink hG
    · rw [update_of_ne hGC, m.status] at hG
      obtain ⟨hret, hhome'⟩ := h.link G hG
      have hst := h.status G
      rw [hG] at hst
      rw [hframes G hGC, hret, hhome']
      cases G with
      | root => exact ⟨rfl, rfl⟩
      -- the first child lives where its parent does
      | a G =>
        refine ⟨rfl, ?_⟩
        by_cases hGC' : G = C
        · subst hGC'
          exact (hhome hst.symm).symm
        · simp [hframes G hGC']
      | b G =>
        by_cases hGC' : G = C
        · subst hGC'
          simp [hp', hC]
        · simp [hGC', m.inB G hGC, hframes G hGC']
  stub R w hR hw := by
    have hR' : forkOf φ' ρ' R = some w := by
      rw [← hR, forkOf_update]
      rw [hfork, m.self]
    by_cases hRC : R = C
    · subst hRC
      exact hstub w hR' hw
    · rw [hstubs R hRC]
      exact h.stub R w (by rw [← m.fork R hRC, hR']) hw

/-- Who lies above whom, after a change of the link of `C` and of the phase of `C`. -/
theorem LinkMove.above_update (m : LinkMove n φ φ' ρ ρ' C t τ τ') (hp' : p' ≠ .inB)
    (hC : φ C ≠ .inB) (hA : p'.RunsA ↔ (φ C).RunsA) {x y : FooPtr} (hx : x ≠ C) :
    Above (update φ' C p') x y ↔ Above φ x y := by
  rw [← m.above x y hx]
  by_cases hy : y = C
  · subst hy
    simp only [Above, update_self, m.self, hA, hp', hC]
  · simp [Above, hy]

/-- The function on `C` starts: by a call from the frame below, or on a new stacklet. -/
theorem Follows.enter {g : FooPtr → Stub} {ra : ReturnAdr} (h : Follows n s φ ρ q)
    (m : LinkMove n φ φ' ρ ρ' C t τ none) (hτ : (s.pc t).token = τ)
    (hheld : lockHeld s t (s.pc t) = none) (hold : (φ C).status = .idle)
    (hnew : statusIn φ' ρ' C = .active) (hra : ra = returnAdrOf φ' C) (hS : S = homeOf s φ' C)
    (htop : ∀ y, (s.stacklets S).head? = some y → Above φ' C y)
    (hinput : (s.foos C).input = inputOf n C) (hstubs : ∀ R, R ≠ C → g R = s.stubs R)
    (hstub : ∀ w, forkOf φ' ρ' C = some w → w.status ≠ .idle → g C = parentOf C) :
    Inv n ({ s with stubs := g }.enter t C ra S (s.stacklets S)) := by
  have hidle := Phase.eq_idle hold
  have hidle' : φ' C = .idle := m.self.trans hidle
  have hpc : ∀ u, u ≠ t → ({ s with stubs := g }.enter t C ra S (s.stacklets S)).pc u
      = s.pc u := by
    intro u hu
    simp [State.enter, hu]
  have hframes : ∀ G, G ≠ C → ({ s with stubs := g }.enter t C ra S (s.stacklets S)).frames G
      = s.frames G := by
    intro G hG
    simp [State.enter, hG]
  refine ⟨update φ' C (.pre t .start), ρ', q, ?_⟩
  constructor
  · -- Pthread `t` first leaves the caller and then arrives in `C`.
    have hleft : ControlOk (s.goto t (.peek .own)) φ' ρ' := by
      refine h.control.exchange m.token (by simp +contextual) hτ (by simp) (by simp) ?_
      intro u arg _ _
      cases arg <;> simp
    refine hleft.code (t := t) (by simpa +contextual using hpc) (by simp) ?_ ?_ ?_ ?_ ?_ ?_
    · simp [State.enter]
    · simp [hidle', Phase.fork]
    · intro u l hu
      simp [hidle', hu]
    · simp [State.enter, eq_comm]
    · simp [State.enter]
    · intro G hG
      rw [hframes G (by rintro rfl; simp [hidle', Phase.fork] at hG)]
      rfl
  · exact h.locks.same (t := t) rfl (h.lockHeld_idle hidle hframes hpc)
      (by rw [hheld]; simp [State.enter])
  · refine ⟨h.queues.rep, ?_, ?_, h.queues.readyQ⟩
    · intro x G
      rw [h.queues.mem x G, ← m.linkedIn]
      by_cases hG : G = C
      · subst hG
        simp [hidle']
      · rw [hframes G hG, update_of_ne hG]
    · intro u k G hu
      by_cases hut : u = t
      · simp [hut, State.enter] at hu
      · exact h.queues.taken u k G (by rwa [hpc u hut] at hu)
  · intro G
    by_cases hG : G = C
    · subst hG
      have hn := h.nodes G
      rw [hidle] at hn
      rw [update_self]
      exact
        { valid := by simp
          inner := by simp
          leaf := by simp
          input := fun _ => hinput
          children := by simp
          output := by simp
          tally := by simp [State.enter, hn.tally]
          frame := by simp [State.enter]
          seed := by simp [Phase.SeedOk] }
    · rw [update_of_ne hG]
      have hn := m.node s G (h.nodes G)
      exact hn.congr (fun _ => rfl) rfl rfl (by simp [State.enter, hG]) (hframes G hG) hn.seed
  · refine h.edges.change m ?_ ?_ (by simp) ?_ ?_ hnew.symm hframes ?_ ?_ ?_ hstub
    · simp [hidle]
    · simp [hidle]
    · simp [hidle]
    · simp [hidle, Phase.fork]
    · simp [hidle]
    · intro _
      simp [State.enter, hra, hS]
    · intro R hR
      simpa [State.enter] using hstubs R hR
  · refine h.stacklets.push (C := C) (S := S) ?_ ?_ ?_ ?_ ?_ ?_ (by simp) (by simp [State.enter])
    · simp [State.enter]
    · intro y hy
      have hne : y ≠ C := by
        rintro rfl
        have := Above.depth_lt (htop y hy)
        omega
      simpa [Above, hne] using htop y hy
    · intro x y hx
      exact m.above_update (by simp) (by simp [hidle]) (by simp [hidle]) hx
    · intro G hG
      rw [update_of_ne hG, m.status]
    · intro G hG
      rw [hframes G hG]
    · rw [hold]
      simp

/-! ### Returns -/

/-- A frame at its `return`, on the three ways through the body. -/
theorem Follows.returns (h : Follows n s φ ρ q) (hpc : s.pc t = .fib C .ret) :
    ∃ how, (φ C = .pre t .ret ∧ how = How.leaf) ∨ (φ C = .normal t .ret ∧ how = .normal) ∨
      (φ C = .joined t .ret ∧ how = .joined) := by
  rcases h.place hpc (by simp) with hp | hp | hp
  · exact ⟨.leaf, .inl ⟨hp, rfl⟩⟩
  · exact ⟨.normal, .inr (.inl ⟨hp, rfl⟩)⟩
  · exact ⟨.joined, .inr (.inr ⟨hp, rfl⟩)⟩

/-- The memory of a frame after its return. -/
theorem Follows.node_ret {how : How} (h : Follows n s φ ρ q)
    (hp : (φ C = .pre t .ret ∧ how = How.leaf) ∨ (φ C = .normal t .ret ∧ how = .normal) ∨
      (φ C = .joined t .ret ∧ how = .joined)) : NodeOk n (s.ret t C) C (.finished how) := by
  have hn := h.nodes C
  rcases hp with ⟨hp, rfl⟩ | ⟨hp, rfl⟩ | ⟨hp, rfl⟩
  all_goals
    rw [hp] at hn
    refine hn.next (by simp) (by simp) (fun _ => rfl) (fun _ => hn.output ?_)
      ?_ (by simp) ?_
    · simp
    · simp [State.ret, hn.tally]
    · exact ⟨by simp, by simp, hn.seed.2.2⟩

/-- The function on `C` returns to its caller. -/
theorem Follows.leave (h : Follows n s φ ρ q) (hpc : s.pc t = .fib C .ret)
    (m : LinkMove n φ φ' ρ ρ' C t none τ')
    (hτ' : ((returnAdrOf φ C).land : PC P).token = τ')
    (hframe : ∀ σ, τ' = some σ → σ.frame ≠ some C) (hnew : statusIn φ' ρ' C = .done)
    (hstub : ∀ w, forkOf φ' ρ' C = some w → w.status ≠ .idle → s.stubs C = parentOf C) :
    Inv n (s.ret t C) := by
  obtain ⟨how, hp⟩ := h.returns hpc
  have hactive : (φ C).status = .active := by
    rcases hp with ⟨hp, -⟩ | ⟨hp, -⟩ | ⟨hp, -⟩ <;> rw [hp] <;> rfl
  have hruns : ¬ (φ C).RunsA := by
    rcases hp with ⟨hp, -⟩ | ⟨hp, -⟩ | ⟨hp, -⟩ <;> simp [hp]
  have hinB : φ C ≠ .inB := by
    rcases hp with ⟨hp, -⟩ | ⟨hp, -⟩ | ⟨hp, -⟩ <;> simp [hp]
  have hra : (s.frames C).returnAdr = returnAdrOf φ C := (h.edges.link C hactive).1
  -- The frame is the topmost one of its stacklet, so the return takes off this frame only.
  obtain ⟨rest, hrest⟩ := h.stacklets.top hactive hruns hinB
  have hpcs : ∀ u, u ≠ t → (s.ret t C).pc u = s.pc u := by
    intro u hu
    simp [State.ret, hu]
  have hland : (s.ret t C).pc t = (returnAdrOf φ C).land := by simp [State.ret, hra]
  have hlandHeld : ∀ (r : State P) (ra : ReturnAdr), lockHeld r t ra.land = none := by
    intro r ra
    cases ra <;> rfl
  have hlandOk : ∀ (r : State P) (ra : ReturnAdr), (ra.land : PC P).Ok r := by
    intro r ra
    cases ra <;> trivial
  have hlandTake : ∀ (ra : ReturnAdr) k G, (ra.land : PC P) ≠ .takeSeed k G := by
    intro ra k G
    cases ra <;> simp [ReturnAdr.land]
  refine ⟨update φ' C (.finished how), ρ', q, ?_⟩
  constructor
  · -- Pthread `t` first leaves `C` and then arrives in the caller.
    have hleft : ControlOk (s.goto t (.peek .own)) (update φ C (.finished how)) ρ := by
      refine h.control.code (t := t) (by simp +contextual) ?_ (by simp) ?_ ?_ (by simp) (by simp)
        (by simp)
      · intro σ hσ
        simp only [hpc, PC.token, Option.some.injEq] at hσ
        exact ⟨_, hσ.symm⟩
      · rcases hp with ⟨hp, -⟩ | ⟨hp, -⟩ | ⟨hp, -⟩ <;> simp [hp, Phase.fork]
      · intro u l hu
        rcases hp with ⟨hp, -⟩ | ⟨hp, -⟩ | ⟨hp, -⟩ <;> simp [hp, hu]
    refine hleft.exchange (t := t) (m.token_update (by simp) hframe) ?_ (by simp) ?_ ?_ ?_
    · intro u hu
      simp [hpcs u hu, hu]
    · rw [hland, hτ']
    · rw [hland]
      exact hlandOk _ _
    · intro u arg _ _
      cases arg <;> simp [State.ret]
  · refine h.locks.same (t := t) rfl ?_ ?_
    · intro u hu
      rw [hpcs u hu]
      exact lockHeld_congr fun G l _ => by simp [State.ret]
    · rw [hland, hlandHeld, hpc]
      rfl
  · refine ⟨h.queues.rep, ?_, ?_, h.queues.readyQ⟩
    · intro x G
      rw [h.queues.mem x G, ← m.linkedIn]
      by_cases hG : G = C
      · subst hG
        rcases hp with ⟨hp, -⟩ | ⟨hp, -⟩ | ⟨hp, -⟩ <;> simp [m.self, hp]
      · rw [update_of_ne hG]
        rfl
    · intro u k G hu
      by_cases hut : u = t
      · rw [hut, hland] at hu
        exact absurd hu (hlandTake _ k G)
      · exact h.queues.taken u k G (by rwa [hpcs u hut] at hu)
  · intro G
    by_cases hG : G = C
    · subst hG
      rw [update_self]
      exact h.node_ret hp
    · rw [update_of_ne hG]
      have hn := m.node s G (h.nodes G)
      exact hn.congr (fun _ => rfl) rfl rfl (by simp [State.ret, hG]) rfl hn.seed
  · refine h.edges.change m ?_ ?_ (by simp) hinB ?_ hnew.symm (fun G _ => rfl) (fun _ => rfl)
      (by simp) (fun R _ => rfl) hstub
    · rcases hp with ⟨hp, rfl⟩ | ⟨hp, rfl⟩ | ⟨hp, rfl⟩ <;> simp [hp]
    · rcases hp with ⟨hp, rfl⟩ | ⟨hp, rfl⟩ | ⟨hp, rfl⟩ <;> simp [hp]
    · rcases hp with ⟨hp, rfl⟩ | ⟨hp, rfl⟩ | ⟨hp, rfl⟩ <;> simp [hp, Phase.fork]
  · refine h.stacklets.pop hrest ?_ ?_ ?_ (fun G => rfl) (by simp)
    · simp [State.ret, hrest, aboveFrame]
    · intro x y hx
      exact m.above_update (by simp) hinB (by simp [hruns, -Phase.RunsA]; simp) hx
    · intro G hG
      rw [update_of_ne hG, m.status]

/-! ### Calls on the same stacklet -/

/-- A frame has the tokens of its code and those of the stacklet of its second child. -/
theorem hasToken_update_iff {u : Tid P} {σ : Token} (hσ : σ.frame = some F)
    (hfork : p'.fork = (φ F).fork)
    (hat : ∀ m, p'.At u m ↔
      ((φ F).At u m ∧ ¬ (u = t ∧ τ = some (.fib F m))) ∨ (u = t ∧ τ' = some (.fib F m)))
    (hτ : ∀ σ, τ = some σ → ∃ l, σ = .fib F l) (hτ' : ∀ σ, τ' = some σ → ∃ l, σ = .fib F l) :
    HasToken (update φ F p') ρ u σ ↔
      (HasToken φ ρ u σ ∧ ¬ (u = t ∧ τ = some σ)) ∨ (u = t ∧ τ' = some σ) := by
  by_cases hcode : ∃ l, σ = .fib F l
  · obtain ⟨l, rfl⟩ := hcode
    simpa [HasToken, -Phase.At] using hat l
  · have h₁ : τ ≠ some σ := fun h => hcode (hτ σ h)
    have h₂ : τ' ≠ some σ := fun h => hcode (hτ' σ h)
    rcases Token.frame_eq_some hσ with ⟨l, rfl⟩ | rfl | rfl | rfl | rfl
    · exact absurd ⟨l, rfl⟩ hcode
    all_goals simp [HasToken, forkOf, hfork, h₁, h₂]

/-- `fib(&a)`. -/
theorem Follows.callA (h : Follows n s φ ρ q) (hpc : s.pc t = .fib F .callA)
    (hs : fibStep s t F .callA = some s') : Inv n s' := by
  obtain rfl := Option.some.inj hs
  obtain ⟨y, hp⟩ : ∃ y, φ F = .both (.code t .callA) y := h.place hpc (by simp)
  have hn := h.nodes F
  rw [hp] at hn
  obtain ⟨rest, hrest⟩ := h.stacklets.top (F := F) (by rw [hp]; rfl) (by simp [hp]) (by simp [hp])
  have hbelow : aboveFrame F (s.stacklets (s.frames F).home) = s.stacklets (s.frames F).home := by
    simp [hrest, aboveFrame]
  -- the first strand gives its place up for the call
  have hmove : LinkMove n φ (update φ F (.both .running y)) ρ ρ (.a F) t
      (some (.fib F .callA)) none := by
    refine LinkMove.ofFrame (.inl rfl) (by simp [Token.frame]) (by simp) ?_ (by rw [hp]; rfl)
      (by simp) ?_ (by rw [hp]; exact fun _ => rfl) ?_
    · intro u σ hσ
      refine hasToken_update_iff hσ (by rw [hp]; rfl) ?_ (by simp) (by simp)
      intro m
      have hy := h.not_second hpc hp m
      by_cases hu : u = t
      · subst hu
        simp [hp, hy, eq_comm, -Second.At]
      · simp [hp, hu]
    · intro _
      rw [hp]
      exact ⟨rfl, by simp, rfl⟩
    · intro r hr
      rw [hp] at hr
      exact hr.next (by simp) ⟨trivial, hr.valid.2⟩ (fun _ => rfl) (by simp)
        (by simp [hr.tally]) hr.frame hr.seed.first
  have := h.enter (S := (s.frames F).home) hmove (by simp [hpc]) (by simp [hpc]) ?_ ?_ rfl ?_ ?_
    ?_ (g := s.stubs) (fun _ _ => rfl) (by simp [forkOf])
  · simpa [State.call, hbelow] using this
  · rw [h.edges.status, statusIn, hp]
    rfl
  · simp
  · simp
  · simp [hrest, Above]
  · exact (hn.children trivial).1

/-- `fib(&b)` behind `FirstChildDoneNormally`. -/
theorem Follows.callB (h : Follows n s φ ρ q) (hpc : s.pc t = .fib F .callB)
    (hs : fibStep s t F .callB = some s') : Inv n s' := by
  obtain rfl := Option.some.inj hs
  have hp : φ F = .normal t .callB := h.place hpc (by simp)
  have hn := h.nodes F
  rw [hp] at hn
  obtain ⟨rest, hrest⟩ := h.stacklets.top (F := F) (by rw [hp]; rfl) (by simp [hp]) (by simp [hp])
  have hbelow : aboveFrame F (s.stacklets (s.frames F).home) = s.stacklets (s.frames F).home := by
    simp [hrest, aboveFrame]
  -- the frame waits in `inB`, without a strand
  have hmove : LinkMove n φ (update φ F .inB) ρ ρ (.b F) t (some (.fib F .callB))
      none := by
    refine LinkMove.ofFrame (.inr rfl) (by simp [Token.frame]) (by simp) ?_ (by rw [hp]; rfl)
      ?_ (by simp) (by rw [hp]; exact fun _ => rfl) ?_
    · intro u σ hσ
      refine hasToken_update_iff hσ (by rw [hp]; rfl) ?_ (by simp) (by simp)
      intro m
      simp +contextual [hp]
    · intro _
      rw [hp]
      exact ⟨rfl, by simp⟩
    · intro r hr
      rw [hp] at hr
      refine hr.next (by simp) (by simp) (fun _ => rfl) (by simp)
        (by simp [hr.tally]) (by simp) ?_
      simpa [Phase.SeedOk] using hr.seed
  have := h.enter (S := (s.frames F).home) hmove (by simp [hpc]) (by simp [hpc]) ?_ ?_ rfl ?_ ?_
    ?_ (g := s.stubs) (fun _ _ => rfl) (by simp [forkOf, Phase.fork])
  · simpa [State.call, hbelow] using this
  · rw [h.edges.status, statusIn, hp]
    rfl
  · simp
  · simp
  · simp [hrest, Above]
  · exact (hn.children trivial).2

/-! ### Returns to the three kinds of callers -/

/-- A frame whose first child runs. -/
theorem Phase.eq_running (h : p.statusA = .active) : ∃ y, p = .both .running y := by
  cases p with
  | both x y =>
    cases x with
    | code t l => cases l <;> simp at h
    | running => exact ⟨y, rfl⟩
    | done => simp at h
  | finished how => cases how <;> simp at h
  | _ => simp at h

/-- A frame whose second child runs. -/
theorem Phase.eq_inB (h : p.statusB = .active) :
    p = .inB ∨ ∃ x, p = .both x (.forked .running) := by
  cases p with
  | both x y =>
    cases y with
    | forked w => cases w <;> simp_all
    | _ => simp at h
  | inB => exact .inl rfl
  | normal t l => cases l <;> simp at h
  | finished how => cases how <;> simp at h
  | _ => simp at h

/-- The first `fib` runs. -/
theorem RootPhase.eq_running (h : ρ.status = .active) : ρ = .forked .running := by
  cases ρ with
  | forked w => cases w <;> simp_all
  | _ => simp at h

/-- The return of a first child. -/
theorem Follows.retA (h : Follows n s φ ρ q) (hpc : s.pc t = .fib (.a F) .ret)
    (hactive : (φ F).statusA = .active) : Inv n (s.ret t (.a F)) := by
  obtain ⟨y, hp⟩ := Phase.eq_running hactive
  have hne : F ≠ .a F := by intro h; have := congrArg sizeOf h; simp at this
  -- Pthread `t` is in the first child, so it has no place in the frame.
  have hat : ∀ l, ¬ (φ F).At t l := by
    intro l hl
    have := (h.control.token t (.fib F l)).mp hl
    rw [hpc] at this
    simp at this
    exact hne this.1.symm
  have hmove : LinkMove n φ (update φ F (.both (.code t .lockPtid) y)) ρ ρ (.a F) t
      none (some (.fib F .lockPtid)) := by
    refine LinkMove.ofFrame (.inl rfl) (by simp) (by simp [Token.frame]) ?_ (by rw [hp]; rfl)
      (by simp) ?_ (by rw [hp]; exact fun _ => rfl) ?_
    · intro u σ hσ
      refine hasToken_update_iff hσ (by rw [hp]; rfl) ?_ (by simp) (by simp)
      intro m
      by_cases hu : u = t
      · subst hu
        have := hat m
        rw [hp] at this ⊢
        simp only [Phase.At, First.At, false_or] at this
        simp [this, eq_comm, -Second.At]
      · simp [hp, hu]
    · intro _
      rw [hp]
      exact ⟨rfl, by simp, rfl⟩
    · intro r hr
      rw [hp] at hr
      exact hr.next (by simp) ⟨trivial, hr.valid.2⟩ (fun _ => rfl) (by simp)
        (by simp [hr.tally]) hr.frame hr.seed.first
  refine h.leave hpc hmove rfl ?_ ?_ (by simp [forkOf])
  · intro σ hσ
    obtain rfl := Option.some.inj hσ
    simpa [Token.frame] using hne
  · simp

/-- The return of a second child that ran on the stacklet of its parent. -/
theorem Follows.retB (h : Follows n s φ ρ q) (hpc : s.pc t = .fib (.b F) .ret)
    (hp : φ F = .inB) : Inv n (s.ret t (.b F)) := by
  have hne : F ≠ .b F := by intro h; have := congrArg sizeOf h; simp at this
  have hmove : LinkMove n φ (update φ F (.normal t .sum)) ρ ρ (.b F) t none
      (some (.fib F .sum)) := by
    refine LinkMove.ofFrame (.inr rfl) (by simp) (by simp [Token.frame]) ?_ (by rw [hp]; rfl)
      ?_ (by simp) (by rw [hp]; exact fun _ => rfl) ?_
    · intro u σ hσ
      refine hasToken_update_iff hσ (by rw [hp]; rfl) ?_ (by simp) (by simp)
      intro m
      simp [hp, eq_comm]
    · intro _
      rw [hp]
      exact ⟨rfl, by simp⟩
    · intro r hr
      rw [hp] at hr
      refine hr.next (by simp) (by simp) (fun _ => rfl) (by simp)
        (by simp [hr.tally]) (by simp) ?_
      simpa [Phase.SeedOk] using hr.seed
  refine h.leave hpc hmove (by simp [hp, ReturnAdr.land]) ?_ ?_ (by simp [forkOf, Phase.fork])
  · intro σ hσ
    obtain rfl := Option.some.inj hσ
    simpa [Token.frame] using hne
  · simp

end

end Stacklets.LazyFork

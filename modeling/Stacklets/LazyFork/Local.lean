import Stacklets.LazyFork.Invariant

/-!
# `Stacklets.LazyFork.Local`: steps that change one frame

Most steps of the runtime move one pthread inside one frame and leave the tree of calls as it
is: the phase of the frame changes, and what the phase says about its children, its stacklets
and its place on the stack does not (`Phase.SameShape`). `Follows.local` is the rule for such
steps. It asks for the lock, the queues and the memory of the frame only, and carries the
rest of the invariant over.
-/

set_option autoImplicit false

namespace Stacklets.LazyFork

open Function (update update_self update_of_ne update_eq_self apply_update)

section
variable {P : Nat} {n : Int} {s s' : State P} {φ φ' : FooPtr → Phase P} {ρ ρ' : RootPhase P}
  {q q' : Tid P → List FooPtr} {t : Tid P} {F : FooPtr} {p p' : Phase P}

/-! ### Control -/

/-- The frame whose phase accounts for a token. -/
def Token.frame : Token → Option FooPtr
  | .fib F _ => some F
  | .unlock (.b F) => some F
  | .alloc (.b F) => some F
  | .stub (.b F) => some F
  | .finish (.b F) => some F
  | _ => none

/-- The tokens outside a frame do not depend on its phase. -/
theorem hasToken_update_of_ne {τ : Token} (u : Tid P) (h : τ.frame ≠ some F) :
    HasToken (update φ F p') ρ u τ ↔ HasToken φ ρ u τ := by
  cases τ with
  | fib G l =>
    have : G ≠ F := by simpa [Token.frame] using h
    simp [HasToken, this]
  | unlock arg | alloc arg | stub arg | finish arg =>
    cases arg with
    | root | a G => simp [HasToken, forkOf]
    | b G =>
      have : G ≠ F := by simpa [Token.frame] using h
      simp [HasToken, forkOf, this]
  | lock | returned => simp [HasToken]

/-- Pthread `t` moves, and the tokens of the others stay. -/
theorem ControlOk.move (h : ControlOk s φ ρ) (hpc : ∀ u, u ≠ t → s'.pc u = s.pc u)
    (hothers : ∀ u τ, u ≠ t → (HasToken φ' ρ' u τ ↔ HasToken φ ρ u τ))
    (hself : ∀ τ, HasToken φ' ρ' t τ ↔ (s'.pc t).token = some τ) (hok : (s'.pc t).Ok s')
    (howner : ∀ u arg, u ≠ t → forkOf φ ρ arg = some (.unlock u) →
      ownerOf s' arg = ownerOf s arg) : ControlOk s' φ' ρ' where
  token u τ := by
    by_cases hu : u = t
    · rw [hu]
      exact hself τ
    · rw [hothers u τ hu, hpc u hu]
      exact h.token u τ
  ok u := by
    by_cases hu : u = t
    · rw [hu]
      exact hok
    · rw [hpc u hu]
      have hu' := h.ok u
      cases hp : s.pc u with
      | stackletFork lab sp arg x =>
        rw [hp] at hu'
        have htok : forkOf φ ρ arg = some (.unlock u) := by
          have := (h.token u (.unlock arg)).mpr (by rw [hp]; rfl)
          exact this
        exact ⟨hu'.1, hu'.2.trans (howner u arg hu htok).symm⟩
      | _ => rw [hp] at hu'; exact hu'

/-- Pthread `t` moves inside the frame `F`, into it or out of it, and the stacklet of the
second child of `F` stays as it is. -/
theorem ControlOk.code (h : ControlOk s φ ρ) (hpc : ∀ u, u ≠ t → s'.pc u = s.pc u)
    (hold : ∀ τ, (s.pc t).token = some τ → ∃ l, τ = .fib F l)
    (hnew : ∀ τ, (s'.pc t).token = some τ → ∃ l, τ = .fib F l)
    (hfork : p'.fork = (φ F).fork)
    (hothers : ∀ u m, u ≠ t → (p'.At u m ↔ (φ F).At u m))
    (hself : ∀ m, p'.At t m ↔ (s'.pc t).token = some (.fib F m)) (hok : (s'.pc t).Ok s')
    (howner : ∀ G, (φ G).fork ≠ none → (s'.frames G).ptid = (s.frames G).ptid) :
    ControlOk s' (update φ F p') ρ := by
  -- Only the tokens of the code of `F` can change.
  have hcode : ∀ u τ, (∀ l, τ ≠ .fib F l) →
      (HasToken (update φ F p') ρ u τ ↔ HasToken φ ρ u τ) := by
    intro u τ hτ
    by_cases hF : τ.frame = some F
    · cases τ with
      | fib G l =>
        have : G = F := by simpa [Token.frame] using hF
        exact absurd (by rw [this]) (hτ l)
      | unlock arg | alloc arg | stub arg | finish arg =>
        cases arg with
        | root | a G => simp [Token.frame] at hF
        | b G =>
          have : G = F := by simpa [Token.frame] using hF
          subst this
          simp [HasToken, forkOf, hfork]
      | lock | returned => simp [Token.frame] at hF
    · exact hasToken_update_of_ne u hF
  refine h.move (t := t) hpc ?_ ?_ hok ?_
  · intro u τ hu
    by_cases hτ : ∃ l, τ = .fib F l
    · obtain ⟨l, rfl⟩ := hτ
      simpa [HasToken] using hothers u l hu
    · exact hcode u τ (fun l hl => hτ ⟨l, hl⟩)
  · intro τ
    by_cases hτ : ∃ l, τ = .fib F l
    · obtain ⟨l, rfl⟩ := hτ
      simpa [HasToken] using hself l
    · rw [hcode t τ (fun l hl => hτ ⟨l, hl⟩), h.token t τ]
      exact ⟨fun h' => absurd (hold τ h') hτ, fun h' => absurd (hnew τ h') hτ⟩
  · intro u arg _ harg
    cases arg with
    | root => rfl
    | a G => simp [forkOf] at harg
    | b G => exact howner G (by simp only [forkOf] at harg; simp [harg])

/-! ### Locks -/

/-- What a pthread has to hold depends on the `ptid` of the frame it is in. -/
theorem lockHeld_congr {u : Tid P} {c : PC P}
    (h : ∀ G l, c = .fib G l → (s'.frames G).ptid = (s.frames G).ptid) :
    lockHeld s' u c = lockHeld s u c := by
  cases c with
  | fib G l => cases l <;> simp [lockHeld, h G _ rfl]
  | _ => rfl

/-- The step of `t` takes no lock and releases none. -/
theorem LocksOk.same (h : LocksOk s) (hl : s'.seedStackLocks = s.seedStackLocks)
    (hothers : ∀ u, u ≠ t → lockHeld s' u (s'.pc u) = lockHeld s u (s.pc u))
    (hself : lockHeld s' t (s'.pc t) = lockHeld s t (s.pc t)) : LocksOk s' := by
  intro x u
  rw [hl]
  by_cases hu : u = t
  · rw [hu, hself]
    exact h x t
  · rw [hothers u hu]
    exact h x u

/-- The step of `t` takes the free lock `x`. -/
theorem LocksOk.acquire {x : Tid P} (h : LocksOk s) (hx : s.seedStackLocks x = none)
    (hl : s'.seedStackLocks = update s.seedStackLocks x (some t))
    (hothers : ∀ u, u ≠ t → lockHeld s' u (s'.pc u) = lockHeld s u (s.pc u))
    (hold : lockHeld s t (s.pc t) = none) (hself : lockHeld s' t (s'.pc t) = some x) :
    LocksOk s' := by
  intro y u
  rw [hl]
  by_cases hy : y = x
  · subst hy
    rw [update_self, Option.some.injEq]
    constructor
    · rintro rfl
      exact hself
    · intro hu
      by_contra hne
      rw [hothers u (Ne.symm hne)] at hu
      have := (h y u).mpr hu
      rw [hx] at this
      cases this
  · rw [update_of_ne hy]
    by_cases hu : u = t
    · subst hu
      rw [h y u, hold, hself]
      simp [Ne.symm hy]
    · rw [hothers u hu]
      exact h y u

/-- The step of `t` releases the lock `x` that it holds. -/
theorem LocksOk.release {x : Tid P} (h : LocksOk s)
    (hl : s'.seedStackLocks = update s.seedStackLocks x none)
    (hothers : ∀ u, u ≠ t → lockHeld s' u (s'.pc u) = lockHeld s u (s.pc u))
    (hold : lockHeld s t (s.pc t) = some x) (hself : lockHeld s' t (s'.pc t) = none) :
    LocksOk s' := by
  intro y u
  rw [hl]
  by_cases hu : u = t
  · subst hu
    rw [hself]
    by_cases hy : y = x
    · simp [hy]
    · rw [update_of_ne hy, h y u, hold]
      simp [Ne.symm hy]
  · rw [hothers u hu]
    by_cases hy : y = x
    · subst hy
      have hy' := (h y t).mpr hold
      rw [update_self]
      constructor
      · intro h'; cases h'
      · intro h'
        have := (h y u).mpr h'
        rw [hy'] at this
        exact absurd (Option.some.inj this).symm hu
    · rw [update_of_ne hy]
      exact h y u

/-- At most one pthread has to hold a given lock. -/
theorem LocksOk.unique (h : LocksOk s) {x u v : Tid P} (hu : lockHeld s u (s.pc u) = some x)
    (hv : lockHeld s v (s.pc v) = some x) : u = v := by
  have h₁ := (h x u).mpr hu
  have h₂ := (h x v).mpr hv
  rw [h₁] at h₂
  exact Option.some.inj h₂

/-! ### Edges and stacklets -/

/-- Two phases of a frame that say the same about everything around it. -/
structure Phase.SameShape (p p' : Phase P) : Prop where
  status : p'.status = p.status
  statusA : p'.statusA = p.statusA
  statusB : p'.statusB = p.statusB
  runsA : p'.RunsA ↔ p.RunsA
  inB : p' = .inB ↔ p = .inB
  fork : p'.fork = p.fork

/-- A step of the first strand that neither starts nor ends the call of the first child. -/
theorem Phase.SameShape.first {x x' : First P} {y : Second P} (hx : x'.status = x.status) :
    (Phase.both x y).SameShape (.both x' y) where
  status := rfl
  statusA := hx
  statusB := rfl
  runsA := by
    have hrun : ∀ z : First P, z = .running ↔ z.status = .active := by
      intro z
      cases z with
      | code t l => cases l <;> simp
      | running | done => simp
    simp only [Phase.RunsA, hrun, hx]
  inB := by simp
  fork := rfl

/-- A step of the second strand that does not change the stacklet of the second child. -/
theorem Phase.SameShape.second {x : First P} {y y' : Second P} (hy : y'.status = y.status)
    (hfork : y'.fork = y.fork) : (Phase.both x y).SameShape (.both x y') where
  status := rfl
  statusA := rfl
  statusB := hy
  runsA := Iff.rfl
  inB := by simp
  fork := hfork

/-- A function of the phases that takes equal values at `p'` and at the old phase of `F` does
not see the update. -/
theorem comp_update_of_eq {β : Type*} (f : Phase P → β) (h : f p' = f (φ F)) (G : FooPtr) :
    f (update φ F p' G) = f (φ G) := by
  rw [apply_update (fun _ => f), h, update_eq_self]

/-- A change of shape-preserving phase leaves the stacklets of all frames. -/
theorem forkOf_update (h : p'.fork = (φ F).fork) (ρ : RootPhase P) :
    forkOf (update φ F p') ρ = forkOf φ ρ := by
  funext S
  cases S with
  | root | a G => rfl
  | b G => exact comp_update_of_eq Phase.fork h G

/-- What the callers see of their children after a change of shape-preserving phase. -/
theorem statusIn_update (h : (φ F).SameShape p') (G : FooPtr) :
    statusIn (update φ F p') ρ G = statusIn φ ρ G := by
  cases G with
  | root => rfl
  | a G => exact comp_update_of_eq Phase.statusA h.statusA G
  | b G => exact comp_update_of_eq Phase.statusB h.statusB G

/-- A frame calls its second child as before. -/
theorem inB_update (h : (φ F).SameShape p') (G : FooPtr) :
    update φ F p' G = .inB ↔ φ G = .inB := by
  have := comp_update_of_eq (φ := φ) (F := F) (fun x => x = Phase.inB) (propext h.inB) G
  exact iff_of_eq this

theorem EdgesOk.local (h : EdgesOk s φ ρ) (hs : (φ F).SameShape p')
    (hret : ∀ G, (s'.frames G).returnAdr = (s.frames G).returnAdr)
    (hhome : ∀ G, (s'.frames G).home = (s.frames G).home) (hstubs : s'.stubs = s.stubs) :
    EdgesOk s' (update φ F p') ρ where
  status G := by
    rw [comp_update_of_eq Phase.status hs.status, statusIn_update hs]
    exact h.status G
  link G hG := by
    rw [comp_update_of_eq Phase.status hs.status] at hG
    rw [hret, hhome, (h.link G hG).1, (h.link G hG).2]
    cases G with
    | root => exact ⟨rfl, rfl⟩
    | a G => exact ⟨rfl, (hhome G).symm⟩
    | b G => simp only [returnAdrOf, homeOf, inB_update hs, hhome, and_self]
  stub S w hS := by
    rw [forkOf_update hs.fork] at hS
    rw [hstubs]
    exact h.stub S w hS

/-- A step that keeps the shape of a phase keeps the stacklets. -/
theorem StacksOk.local (h : StacksOk s φ) (hs : (φ F).SameShape p')
    (hhome : ∀ G, (s'.frames G).home = (s.frames G).home) (hstacks : s'.stacklets = s.stacklets) :
    StacksOk s' (update φ F p') := by
  unfold StacksOk
  rw [hstacks]
  refine Lib.FrameStacks.congr h (fun x y _ _ hxy => ?_)
    (fun G => by rw [comp_update_of_eq Phase.status hs.status]) fun G _ => hhome G
  have hruns := comp_update_of_eq (φ := φ) (F := F) Phase.RunsA (propext hs.runsA) y
  simpa only [Above, inB_update hs, hruns] using hxy

/-! ### The rule -/

/-- A step of `t` inside the frame `F`, into it or out of it, that keeps the shape of its
phase. -/
theorem Follows.local (h : Follows n s φ ρ q) (hs : (φ F).SameShape p')
    (hpc : ∀ u, u ≠ t → s'.pc u = s.pc u)
    (hold : ∀ τ, (s.pc t).token = some τ → ∃ l, τ = .fib F l)
    (hnew : ∀ τ, (s'.pc t).token = some τ → ∃ l, τ = .fib F l)
    (hothers : ∀ u m, u ≠ t → (p'.At u m ↔ (φ F).At u m))
    (hself : ∀ m, p'.At t m ↔ (s'.pc t).token = some (.fib F m)) (hok : (s'.pc t).Ok s')
    (hptid : ∀ G, (φ G).fork ≠ none → (s'.frames G).ptid = (s.frames G).ptid)
    (hret : ∀ G, (s'.frames G).returnAdr = (s.frames G).returnAdr)
    (hhome : ∀ G, (s'.frames G).home = (s.frames G).home)
    (hstubs : s'.stubs = s.stubs) (hstacks : s'.stacklets = s.stacklets)
    (hlocks : LocksOk s') (hqueues : QueuesOk s' (update φ F p') q')
    (hnode : NodeOk n s' F p') (hnodes : ∀ G, G ≠ F → NodeOk n s' G (φ G)) :
    Follows n s' (update φ F p') ρ q' where
  control := h.control.code hpc hold hnew hs.fork hothers hself hok hptid
  locks := hlocks
  queues := hqueues
  nodes G := by
    by_cases hG : G = F
    · subst hG
      rw [update_self]
      exact hnode
    · rw [update_of_ne hG]
      exact hnodes G hG
  edges := h.edges.local hs hret hhome hstubs
  stacklets := h.stacklets.local hs hhome hstacks

end

end Stacklets.LazyFork

import Stacklets.LazyFork.Calls

/-!
# `Stacklets.LazyFork.Forks`: stacklets and thieves keep the invariant

A new stacklet goes through the stages of `Fork`, whether `firstFork` or a thief asked for it:
`stackletFork` unlocks, allocates and starts the function, the function returns to
`stubRoutine`, and `finishStubRoutine` jumps back to the parent. `exists_forkMove` is the move
from one stage to the next on the side of the caller. The second half of the module is about
`suspend`: a pthread there has no place in the phases until it takes a seed.
-/

set_option autoImplicit false

namespace Stacklets.LazyFork

open Function (update update_self update_of_ne)

section
variable {P : Nat} {n : Int} {s s' : State P} {φ φ' : FooPtr → Phase P} {ρ ρ' : RootPhase P}
  {q : Tid P → List FooPtr} {t : Tid P} {F S : FooPtr} {p : Phase P} {w v : Fork P}

/-! ### The stages of a stacklet -/

/-- The pthread at work on a stacklet outside of its function. -/
@[simp] def Fork.who : Fork P → Option (Tid P)
  | .unlock t => some t
  | .alloc t => some t
  | .running => none
  | .stub t => some t
  | .finish t => some t

/-- The place of that pthread. -/
@[simp] def Fork.token (S : FooPtr) : Fork P → Option Token
  | .unlock _ => some (.unlock S)
  | .alloc _ => some (.alloc S)
  | .running => none
  | .stub _ => some (.stub S)
  | .finish _ => some (.finish S)

/-- Who is at work on the stacklet of `S`. -/
theorem hasToken_fork {u : Tid P} {σ : Token} (hS : forkOf φ ρ S = some w)
    (hσ : σ = .unlock S ∨ σ = .alloc S ∨ σ = .stub S ∨ σ = .finish S) :
    HasToken φ ρ u σ ↔ w.who = some u ∧ w.token S = some σ := by
  rcases hσ with rfl | rfl | rfl | rfl <;> cases w <;> simp [HasToken, hS]

/-- The exchange of the places of `t` in the stages `w` and `v`. -/
theorem hasToken_fork_move {u : Tid P} {σ : Token} (hS : forkOf φ ρ S = some w)
    (hS' : forkOf φ' ρ' S = some v) (hw : w = .running ∨ w.who = some t)
    (hv : v = .running ∨ v.who = some t)
    (hσ : σ = .unlock S ∨ σ = .alloc S ∨ σ = .stub S ∨ σ = .finish S) :
    HasToken φ' ρ' u σ ↔
      (HasToken φ ρ u σ ∧ ¬ (u = t ∧ w.token S = some σ)) ∨ (u = t ∧ v.token S = some σ) := by
  have hwho : w.token S = some σ → w.who = some t := by
    rcases hw with rfl | hw
    · simp
    · exact fun _ => hw
  have hwho' : v.token S = some σ → v.who = some t := by
    rcases hv with rfl | hv
    · simp
    · exact fun _ => hv
  rw [hasToken_fork hS hσ, hasToken_fork hS' hσ]
  constructor
  · rintro ⟨hu, hσ'⟩
    exact .inr ⟨Option.some.inj (hu.symm.trans (hwho' hσ')), hσ'⟩
  · rintro (⟨⟨hu, hσ'⟩, hnot⟩ | ⟨rfl, hσ'⟩)
    · exact absurd ⟨Option.some.inj (hu.symm.trans (hwho hσ')), hσ'⟩ hnot
    · exact ⟨hwho' hσ', hσ'⟩

/-- The caller sees how far the function of a stacklet has come. -/
theorem statusIn_of_fork (hS : forkOf φ ρ S = some w) : statusIn φ ρ S = w.status := by
  cases S with
  | a F => simp [forkOf] at hS
  | root =>
    rw [statusIn, RootPhase.eq_forked hS]
    rfl
  | b F =>
    obtain ⟨x, hp⟩ := Phase.eq_forked hS
    rw [statusIn, hp]
    rfl

/-- The first strand may run beside any stage behind the unlock. -/
theorem First.Valid.forked {x : First P} (h : x.Valid (.forked w)) (hv : ∀ u, v ≠ .unlock u) :
    x.Valid (.forked v) := by
  have hpast : (Second.forked v).Past := by
    cases v with
    | unlock u => exact absurd rfl (hv u)
    | _ => trivial
  cases x with
  | code t l => cases l <;> simp_all [-Second.Past]
  | running => trivial
  | done => exact ⟨hpast, by simp⟩

/-- The first strand may run beside a finisher at its decrement. -/
theorem First.Valid.dec {x : First P} (h : x.Valid (.forked (.finish t))) : x.Valid (.dec t) := by
  cases x with
  | code u l => cases l <;> simp_all
  | running => trivial
  | done => simp

/-- The second strand of `F` moves on. Its caller sees the same, and so do the calls below. -/
theorem exists_secondMove {x : First P} {y z : Second P} {τ υ : Option Token}
    (hp : φ F = .both x y) (hτ : ∀ σ, τ = some σ → σ.frame = some F)
    (hυ : ∀ σ, υ = some σ → σ.frame = some F)
    (htok : ∀ u σ, σ.frame = some F → (HasToken (update φ F (.both x z)) ρ u σ ↔
      (HasToken φ ρ u σ ∧ ¬ (u = t ∧ τ = some σ)) ∨ (u = t ∧ υ = some σ)))
    (hlinked : ∀ i, z.linkedIn i = y.linkedIn i)
    (hnode : ∀ s : State P, NodeOk n s F (.both x y) → NodeOk n s F (.both x z)) :
    LinkMove n φ (update φ F (.both x z)) ρ ρ (.b F) t τ υ ∧
      (∀ G, update φ F (.both x z) G = .inB ↔ φ G = .inB) ∧
      ∀ C, Above (update φ F (.both x z)) (.b F) C ↔ Above φ (.b F) C := by
  refine ⟨LinkMove.ofFrame (.inr rfl) hτ hυ htok (by rw [hp]; rfl) ?_ (by simp) ?_ ?_,
    fun G => ?_, fun C => ?_⟩
  · intro _
    rw [hp]
    exact ⟨rfl, Iff.rfl⟩
  · intro i
    rw [hp]
    exact hlinked i
  · intro s hs
    exact hnode s (hp ▸ hs)
  · by_cases hG : G = F
    · subst hG
      simp [hp]
    · simp [hG]
  · by_cases hC : C = F
    · subst hC
      simp [Above, hp]
    · simp [Above, hC]

/-- The stacklet of `S` moves on to the next stage, on the side of its caller. -/
theorem exists_forkMove (hS : forkOf φ ρ S = some w) (hw : w = .running ∨ w.who = some t)
    (hv : v = .running ∨ v.who = some t) (hunlock : ∀ u, v ≠ .unlock u) :
    ∃ φ' ρ', LinkMove n φ φ' ρ ρ' S t (w.token S) (v.token S) ∧ forkOf φ' ρ' S = some v ∧
      (∀ G, φ' G = .inB ↔ φ G = .inB) ∧ ∀ y, Above φ' S y ↔ Above φ S y := by
  have hframe : ∀ u : Fork P, ∀ σ, u.token S = some σ →
      σ = .unlock S ∨ σ = .alloc S ∨ σ = .stub S ∨ σ = .finish S := by
    intro u σ hu
    cases u <;> simp_all
  cases S with
  | a F => simp [forkOf] at hS
  | root =>
    have hρ : ρ = .forked w := RootPhase.eq_forked hS
    refine ⟨φ, .forked v, LinkMove.ofRoot ?_ ?_ ?_, rfl, fun _ => Iff.rfl, fun _ => Iff.rfl⟩
    · intro σ hσ
      rcases hframe w σ hσ with rfl | rfl | rfl | rfl <;> simp [rootTokens]
    · intro σ hσ
      rcases hframe v σ hσ with rfl | rfl | rfl | rfl <;> simp [rootTokens]
    · intro u σ hσ
      -- the places of the stacklet are exchanged, the other two of the root stay
      by_cases hfork : σ = .unlock .root ∨ σ = .alloc .root ∨ σ = .stub .root ∨ σ = .finish .root
      · exact hasToken_fork_move hS rfl hw hv hfork
      · have h₁ : w.token .root ≠ some σ := fun h => hfork (hframe w σ h)
        have h₂ : v.token .root ≠ some σ := fun h => hfork (hframe v σ h)
        have : σ = .lock ∨ σ = .returned := by
          simp only [rootTokens, List.mem_cons, List.not_mem_nil, or_false] at hσ
          tauto
        rcases this with rfl | rfl <;> simp [HasToken, hρ, h₁, h₂, -Fork.token]
  | b F =>
    obtain ⟨x, hp⟩ := Phase.eq_forked hS
    have hS' : forkOf (update φ F (.both x (.forked v))) ρ (.b F) = some v := by
      simp [forkOf, Phase.fork]
    have hcode : ∀ u : Fork P, ∀ l, u.token (.b F) ≠ some (.fib F l) := by
      intro u l
      cases u <;> simp
    have hin : ∀ u : Fork P, ∀ σ, u.token (.b F) = some σ → σ.frame = some F := by
      intro u σ hσ
      rcases hframe u σ hσ with rfl | rfl | rfl | rfl <;> rfl
    obtain ⟨m, hinB, habove⟩ := exists_secondMove (n := n) (ρ := ρ) (t := t) (z := .forked v) hp
      (hin w) (hin v) (fun u σ hσ => by
        rcases Token.frame_eq_some hσ with ⟨l, rfl⟩ | hfork
        · have h₁ := hcode w l
          have h₂ := hcode v l
          simp [HasToken, hp, h₁, h₂, -Fork.token]
        · exact hasToken_fork_move hS hS' hw hv hfork) (fun _ => rfl) fun _ hr =>
      hr.next (by simp) ⟨hr.valid.1.forked hunlock, trivial⟩ (fun _ => rfl) (by simp)
        (by rw [hr.tally]; rfl) hr.frame (by simpa [Phase.SeedOk] using hr.seed)
    exact ⟨_, ρ, m, hS', hinB, habove⟩

/-! ### From `stackletFork` to `finishStubRoutine` -/

/-- `stackletFork`: `seedStackUnlock(tid)`. -/
theorem Follows.stackletFork {lab : Label} {sp : StackPtr} {x : Tid P} (h : Follows n s φ ρ q)
    (hpc : s.pc t = .stackletFork lab sp S x) (hs : step s t = some s') : Inv n s' := by
  simp only [step, hpc, h.locks.seedStackUnlock (t := t) (x := x) (by simp [hpc]),
    Option.some.injEq] at hs
  subst hs
  have hok := h.control.ok t
  rw [hpc] at hok
  have hS : forkOf φ ρ S = some (.unlock t) :=
    (h.control.token t (.unlock S)).mpr (by simp [hpc])
  obtain ⟨φ', ρ', m, hS', hinB, habove⟩ :=
    exists_forkMove (n := n) hS (.inr rfl) (.inr (show (Fork.alloc t).who = some t from rfl))
      (by simp)
  have hm : SameMemory s ((s.setLock x none).goto t (.newStacklet lab sp S)) := by
    constructor <;> rfl
  have hpcs : ∀ u, u ≠ t → ((s.setLock x none).goto t (.newStacklet lab sp S)).pc u = s.pc u := by
    simp +contextual
  refine ⟨φ', ρ', q, h.link m hm hpcs (by simp [hpc]) (by simp) ?_ ?_ (by simp) ?_ hinB habove ?_⟩
  · simpa using hok.1
  · exact h.locks.release rfl (hm.lockHeld hpcs) (by simp [hpc]) (by simp)
  · rw [statusIn_of_fork hS', statusIn_of_fork hS]
    rfl
  · intro w hw
    obtain rfl := Option.some.inj (hS'.symm.trans hw)
    simp

/-- The frame at the base of the stacklet of a live frame is live. -/
theorem Follows.home_active (h : Follows n s φ ρ q) (G : FooPtr) (hG : (φ G).status = .active) :
    (φ (s.frames G).home).status = .active := by
  induction G with
  | root =>
    rw [(h.edges.link _ hG).2]
    exact hG
  | a F ih =>
    rw [(h.edges.link _ hG).2]
    rw [h.edges.status] at hG
    obtain ⟨y, hp⟩ := Phase.eq_running hG
    exact ih (by rw [hp]; rfl)
  | b F ih =>
    rw [(h.edges.link _ hG).2]
    by_cases hp : φ F = .inB
    · simp only [homeOf, hp, if_true]
      exact ih (by rw [hp]; rfl)
    · simpa [hp, -Phase.status] using hG

/-- `stackletFork`: start the function on a new stacklet. -/
theorem Follows.newStacklet {lab : Label} {sp : StackPtr} (h : Follows n s φ ρ q)
    (hpc : s.pc t = .newStacklet lab sp S) (hs : step s t = some s') : Inv n s' := by
  simp only [step, hpc, Option.some.injEq] at hs
  subst hs
  have hok : parentOf S = ⟨lab, sp⟩ := by
    have := h.control.ok t
    rwa [hpc] at this
  have hS : forkOf φ ρ S = some (.alloc t) :=
    (h.control.token t (.alloc S)).mpr (by simp [hpc])
  obtain ⟨φ', ρ', m, hS', hinB, habove⟩ :=
    exists_forkMove (n := n) (v := .running) hS (.inr rfl) (.inl rfl) (by simp)
  have hidle : (φ S).status = .idle := by rw [h.edges.status, statusIn_of_fork hS]; rfl
  -- No live frame lies on the stacklet before the function at its base starts.
  have hempty : s.stacklets S = [] := by
    refine List.eq_nil_iff_forall_not_mem.mpr fun G hG => ?_
    obtain ⟨hactive, hhome⟩ := (h.stacklets.mem S G).mp hG
    have := h.home_active G hactive
    rw [hhome, hidle] at this
    cases this
  have hbase : returnAdrOf φ' S = .stubRoutine S ∧ homeOf s φ' S = S ∧
      (s.foos S).input = inputOf n S := by
    cases S with
    | root => exact ⟨rfl, rfl, (h.nodes .root).input fun _ => rfl⟩
    | a F => simp [forkOf] at hS
    | b F =>
      have hF : φ F ≠ .inB ∧ (φ F).Inner := by
        obtain ⟨x, hp⟩ := Phase.eq_forked hS
        simp [hp]
      have hF' : φ' F ≠ .inB := fun h' => hF.1 ((hinB F).mp h')
      exact ⟨by simp [hF'], by simp [hF'], ((h.nodes F).children hF.2).2⟩
  have := h.enter (g := update s.stubs S ⟨lab, sp⟩) m (by simp [hpc]) (by simp [hpc])
    hidle (by rw [statusIn_of_fork hS']; rfl) hbase.1.symm hbase.2.1.symm (by simp [hempty])
    hbase.2.2
    (fun R hR => update_of_ne hR _ _) (fun _ _ _ => by rw [update_self, hok])
  rwa [hempty] at this

/-- The return of a function to `stubRoutine` at the base of its stacklet. -/
theorem Follows.retStub (h : Follows n s φ ρ q) (hpc : s.pc t = .fib S .ret)
    (hS : forkOf φ ρ S = some .running) : Inv n (s.ret t S) := by
  obtain ⟨φ', ρ', m, hS', hinB, habove⟩ :=
    exists_forkMove (n := n) (t := t) (v := .stub t) hS (.inl rfl) (.inr rfl) (by simp)
  refine h.leave hpc m ?_ ?_ (by rw [statusIn_of_fork hS']; rfl)
    (fun _ _ _ => h.edges.stub S _ hS (by simp))
  · cases S with
    | root => rfl
    | a F => simp [forkOf] at hS
    | b F =>
      have hF : φ F ≠ .inB := by
        intro hF
        simp [forkOf, hF, Phase.fork] at hS
      simp [hF, ReturnAdr.land]
  · intro σ hσ
    obtain rfl : Token.stub S = σ := by simpa using hσ
    cases S with
    | root | a F => simp [Token.frame]
    | b F =>
      have : F ≠ .b F := by intro h; have := congrArg sizeOf h; simp at this
      simpa [Token.frame] using this

/-- `return` from a frame. -/
theorem Follows.ret (h : Follows n s φ ρ q) (hpc : s.pc t = .fib F .ret)
    (hs : fibStep s t F .ret = some s') : Inv n s' := by
  obtain rfl := Option.some.inj hs
  have hactive : statusIn φ ρ F = .active := by
    rw [← h.edges.status]
    rcases h.place hpc (by simp) with hp | hp | hp <;> rw [hp] <;> rfl
  cases F with
  | root =>
    refine h.retStub hpc ?_
    rw [forkOf, RootPhase.eq_running hactive]
    rfl
  | a F => exact h.retA hpc hactive
  | b F =>
    rcases Phase.eq_inB hactive with hp | ⟨x, hp⟩
    · exact h.retB hpc hp
    · refine h.retStub hpc ?_
      rw [forkOf, hp]
      rfl

/-- `stubRoutine` goes on to `finishStubRoutine` on the system stack. -/
theorem Follows.stubRoutine (h : Follows n s φ ρ q) (hpc : s.pc t = .stubRoutine S)
    (hs : step s t = some s') : Inv n s' := by
  simp only [step, hpc, Option.some.injEq] at hs
  subst hs
  have hS : forkOf φ ρ S = some (.stub t) := (h.control.token t (.stub S)).mpr (by simp [hpc])
  obtain ⟨φ', ρ', m, hS', hinB, habove⟩ :=
    exists_forkMove (n := n) (v := .finish t) hS (.inr rfl) (.inr rfl) (by simp)
  have hm : SameMemory s (s.goto t (.finishStubRoutine S)) := by constructor <;> rfl
  have hpcs : ∀ u, u ≠ t → (s.goto t (.finishStubRoutine S)).pc u = s.pc u := by
    simp +contextual
  refine ⟨φ', ρ', q, h.link m hm hpcs (by simp [hpc]) (by simp) (by simp) ?_ (by simp) ?_ hinB
    habove ?_⟩
  · exact h.locks.same (t := t) rfl (hm.lockHeld hpcs) (by simp [hpc])
  · rw [statusIn_of_fork hS', statusIn_of_fork hS]
    rfl
  · exact fun _ _ _ => h.edges.stub S _ hS (by simp)

/-- `finishStubRoutine` jumps to `SecondChildDone`, or to `FF` in `firstFork`. -/
theorem Follows.finishStubRoutine (h : Follows n s φ ρ q) (hpc : s.pc t = .finishStubRoutine S)
    (hs : step s t = some s') : Inv n s' := by
  have hS : forkOf φ ρ S = some (.finish t) := (h.control.token t (.finish S)).mpr (by simp [hpc])
  have hstub : s.stubs S = parentOf S := h.edges.stub S _ hS (by simp)
  simp only [step, hpc, hstub, Option.some.injEq] at hs
  subst hs
  have hm : ∀ c, SameMemory s (s.goto t c) := by
    intro c
    constructor <;> rfl
  have hpcs : ∀ c u, u ≠ t → (s.goto t c).pc u = s.pc u := by
    simp +contextual
  cases S with
  | a F => simp [forkOf] at hS
  | root =>
    have hρ : ρ = .forked (.finish t) := RootPhase.eq_forked hS
    have m : LinkMove n φ φ ρ (.returned t) .root t (some (.finish .root)) (some .returned) := by
      refine LinkMove.ofRoot (by simp [rootTokens]) (by simp [rootTokens]) ?_
      intro u σ hσ
      simp only [rootTokens, List.mem_cons, List.not_mem_nil, or_false] at hσ
      rcases hσ with rfl | rfl | rfl | rfl | rfl | rfl <;>
        simp [HasToken, hρ, forkOf, RootPhase.fork, eq_comm]
    refine ⟨φ, _, q, h.link m (hm _) (hpcs _) (by simp [hpc]) (by simp [jump]) (by simp [jump])
      ?_ (by simp [jump]) (by simp [hρ]) (fun _ => Iff.rfl) (fun _ => Iff.rfl)
      (fun _ _ _ => hstub)⟩
    exact h.locks.same (t := t) rfl ((hm _).lockHeld (hpcs _)) (by simp [hpc, jump])
  | b F =>
    obtain ⟨x, hp⟩ := Phase.eq_forked hS
    obtain ⟨m, hinB, habove⟩ := exists_secondMove (n := n) (ρ := ρ) (t := t)
      (τ := some (.finish (.b F))) (υ := some (.fib F .secondChildDone)) (z := .dec t) hp
      (by simp [Token.frame]) (by simp [Token.frame]) (fun u σ hσ => by
        rcases Token.frame_eq_some hσ with ⟨l, rfl⟩ | rfl | rfl | rfl | rfl <;>
          simp [HasToken, forkOf, hp, Phase.fork, eq_comm]) (fun _ => rfl) fun _ hr =>
      hr.next (by simp) ⟨hr.valid.1.dec, trivial⟩ (fun _ => rfl) (by simp)
        (by rw [hr.tally]; rfl) hr.frame (by simpa [Phase.SeedOk] using hr.seed)
    refine ⟨_, ρ, q, h.link m (hm _) (hpcs _) (by simp [hpc]) (by simp [jump]) (by simp [jump])
      ?_ (by simp [jump]) (by simp [hp]) hinB habove (fun _ _ _ => hstub)⟩
    exact h.locks.same (t := t) rfl ((hm _).lockHeld (hpcs _)) (by simp [hpc, jump])

/-- `firstFork`: `seedStackLock(0)`. -/
theorem Follows.firstFork (h : Follows n s φ ρ q) (hpc : s.pc t = .firstFork)
    (hs : step s t = some s') : Inv n s' := by
  simp only [step, hpc] at hs
  obtain ⟨hfree, rfl⟩ := h.locks.seedStackLock (by simp [hpc]) hs
  obtain ⟨hρ, rfl⟩ : ρ = .lock ∧ t = 0 := (h.control.token t .lock).mpr (by simp [hpc])
  have m : LinkMove n φ φ ρ (.forked (.unlock 0)) .root 0 (some .lock)
      (some (.unlock .root)) := by
    refine LinkMove.ofRoot (by simp [rootTokens]) (by simp [rootTokens]) ?_
    intro u σ hσ
    simp only [rootTokens, List.mem_cons, List.not_mem_nil, or_false] at hσ
    rcases hσ with rfl | rfl | rfl | rfl | rfl | rfl <;>
      simp [HasToken, hρ, forkOf, RootPhase.fork, eq_comm]
  have hm : SameMemory s ((s.setLock 0 (some 0)).goto 0 (.stackletFork .ff .main .root 0)) := by
    constructor <;> rfl
  have hpcs : ∀ u, u ≠ 0 →
      ((s.setLock 0 (some 0)).goto 0 (.stackletFork .ff .main .root 0)).pc u = s.pc u := by
    simp +contextual
  refine ⟨φ, _, q, h.link m hm hpcs (by simp [hpc]) (by simp) (by simp) ?_ (by simp)
    (by simp [hρ]) (fun _ => Iff.rfl) (fun _ => Iff.rfl) (by simp [forkOf, RootPhase.fork])⟩
  exact h.locks.acquire hfree rfl (hm.lockHeld hpcs) (by simp [hpc]) (by simp)

/-- `stackletForkStub`: the thief goes on in `stackletFork`. -/
theorem Follows.stackletForkStub (h : Follows n s φ ρ q)
    (hpc : s.pc t = .fib F .stackletForkStub) (hs : fibStep s t F .stackletForkStub = some s') :
    Inv n s' := by
  obtain rfl := Option.some.inj hs
  obtain ⟨x, hp⟩ : ∃ x, φ F = .both x (.steal t .stackletForkStub) := h.place hpc (by simp)
  have hx := h.not_first hp ⟨rfl, rfl⟩
  obtain ⟨m, hinB, habove⟩ := exists_secondMove (n := n) (ρ := ρ) (t := t)
    (τ := some (.fib F .stackletForkStub)) (υ := some (.unlock (.b F)))
    (z := .forked (.unlock t)) hp (by simp [Token.frame]) (by simp [Token.frame])
    (fun u σ hσ => by
      rcases Token.frame_eq_some hσ with ⟨l, rfl⟩ | rfl | rfl | rfl | rfl
      · by_cases hu : u = t
        · subst hu
          have := hx l
          simp [HasToken, hp, this, eq_comm, -First.At]
        · simp [HasToken, hp, hu]
      all_goals simp [HasToken, forkOf, hp, Phase.fork, eq_comm]) (fun _ => rfl) fun _ hr =>
    hr.next (by simp) ⟨(hr.valid.1.steal (by simp) (by simp)).1, trivial⟩ (fun _ => rfl) (by simp)
      (by rw [hr.tally]; rfl) hr.frame (by simpa [Phase.SeedOk] using hr.seed)
  have hm : SameMemory s
      (s.goto t (.stackletFork .secondChildDone (.frame F) (.b F) (s.frames F).ptid)) := by
    constructor <;> rfl
  have hpcs : ∀ u, u ≠ t →
      (s.goto t (.stackletFork .secondChildDone (.frame F) (.b F) (s.frames F).ptid)).pc u
        = s.pc u := by
    simp +contextual
  refine ⟨_, ρ, q, h.link m hm hpcs (by simp [hpc]) (by simp) (by simp) ?_ (by simp)
    (by simp [hp]) hinB habove (by simp [forkOf, Phase.fork])⟩
  exact h.locks.same (t := t) rfl (hm.lockHeld hpcs) (by simp [hpc])

/-! ### The loop of `suspend` -/

/-- A step of a pthread that has no place in the phases, before and behind the step. -/
theorem Follows.idle (h : Follows n s φ ρ q) (hm : SameMemory s s')
    (hpc : ∀ u, u ≠ t → s'.pc u = s.pc u) (htok : (s.pc t).token = none)
    (htok' : (s'.pc t).token = none) (hok : (s'.pc t).Ok s') (hlocks : LocksOk s')
    (htaken : ∀ k G, s'.pc t = .takeSeed k G → G ∈ q (k.victim t)) : Inv n s' := by
  have m : LinkMove n φ φ ρ ρ .root t none none := by
    refine LinkMove.ofRoot (by simp) (by simp) ?_
    simp
  exact ⟨φ, ρ, q, h.link m hm hpc htok htok' hok hlocks htaken rfl (fun _ => Iff.rfl)
    (fun _ => Iff.rfl) (h.edges.stub .root)⟩

/-- A step in the loop of `suspend` that takes no lock and releases none. -/
theorem Follows.idle_goto {c : PC P} (h : Follows n s φ ρ q) (htok : (s.pc t).token = none)
    (hc : c.token = none) (hok : c.Ok s) (hheld : lockHeld s t c = lockHeld s t (s.pc t))
    (htaken : ∀ k G, c = .takeSeed k G → G ∈ q (k.victim t)) : Inv n (s.goto t c) := by
  have hm : SameMemory s (s.goto t c) := by constructor <;> rfl
  have hpcs : ∀ u, u ≠ t → (s.goto t c).pc u = s.pc u := by simp +contextual
  refine h.idle hm hpcs htok (by simpa using hc) ?_ ?_ (by simpa using htaken)
  · simp only [State.goto, update_self]
    cases c <;> exact hok
  · refine h.locks.same (t := t) rfl (hm.lockHeld hpcs) ?_
    rw [← hheld]
    simp only [State.goto, update_self]
    exact lockHeld_congr fun _ _ _ => rfl

/-- The places behind `getSeedIfAvailableFrom`. -/
theorem Search.next_cases (k : Search) :
    (k.next : PC P) = .readyQ ∨ ∃ k', (k.next : PC P) = .peek k' := by
  cases k with
  | own => exact .inl rfl
  | scan i =>
    refine .inr ?_
    match i with
    | 0 | 1 | 2 => exact ⟨_, rfl⟩

/-- `suspendStub`: the stack switch. -/
theorem Follows.suspendStub (h : Follows n s φ ρ q) (hpc : s.pc t = .fib F .suspendStub)
    (hs : fibStep s t F .suspendStub = some s') : Inv n s' := by
  obtain rfl := Option.some.inj hs
  exact h.idle_goto (by simp [hpc]) (by simp) (by simp) (by simp [hpc]) (by simp)

/-- `peekSeed`: the first test of `Q->front`. -/
theorem Follows.peek {k : Search} (h : Follows n s φ ρ q) (hpc : s.pc t = .peek k)
    (hs : step s t = some s') : Inv n s' := by
  simp only [step, hpc] at hs
  split at hs
  · obtain rfl := Option.some.inj hs
    rcases k.next_cases (P := P) with hk | ⟨k', hk⟩ <;> rw [hk] <;>
      exact h.idle_goto (by simp [hpc]) (by simp) (by simp) (by simp [hpc]) (by simp)
  · obtain rfl := Option.some.inj hs
    exact h.idle_goto (by simp [hpc]) (by simp) (by simp) (by simp [hpc]) (by simp)

/-- `peekSeed`: `seedStackLock(tid)`. -/
theorem Follows.peekLock {k : Search} (h : Follows n s φ ρ q) (hpc : s.pc t = .peekLock k)
    (hs : step s t = some s') : Inv n s' := by
  simp only [step, hpc] at hs
  obtain ⟨hfree, rfl⟩ := h.locks.seedStackLock (by simp [hpc]) hs
  have hm : SameMemory s ((s.setLock (k.victim t) (some t)).goto t (.peekAgain k)) := by
    constructor <;> rfl
  have hpcs : ∀ u, u ≠ t →
      ((s.setLock (k.victim t) (some t)).goto t (.peekAgain k)).pc u = s.pc u := by
    simp +contextual
  exact h.idle hm hpcs (by simp [hpc]) (by simp) (by simp)
    (h.locks.acquire hfree rfl (hm.lockHeld hpcs) (by simp [hpc]) (by simp)) (by simp)

/-- `peekSeed`: the second test of `Q->front`, under the lock. -/
theorem Follows.peekAgain {k : Search} (h : Follows n s φ ρ q) (hpc : s.pc t = .peekAgain k)
    (hs : step s t = some s') : Inv n s' := by
  simp only [step, hpc] at hs
  split at hs
  · obtain rfl := Option.some.inj hs
    exact h.idle_goto (by simp [hpc]) (by simp) (by simp) (by simp [hpc]) (by simp)
  · rename_i seed hfront
    obtain rfl := Option.some.inj hs
    have hmem : seed ∈ q (k.victim t) :=
      List.mem_of_head? ((h.queues.rep (k.victim t)).front_eq.symm.trans hfront)
    refine h.idle_goto (by simp [hpc]) (by simp) (by simp) (by simp [hpc]) ?_
    rintro k' G ⟨⟩
    exact hmem

/-- `peekSeed`: `seedStackUnlock(tid); return NULL`. -/
theorem Follows.peekUnlock {k : Search} (h : Follows n s φ ρ q) (hpc : s.pc t = .peekUnlock k)
    (hs : step s t = some s') : Inv n s' := by
  simp only [step, hpc, h.locks.seedStackUnlock (t := t) (x := k.victim t) (by simp [hpc]),
    Option.some.injEq] at hs
  subst hs
  have hm : SameMemory s ((s.setLock (k.victim t) none).goto t k.next) := by
    constructor <;> rfl
  have hpcs : ∀ u, u ≠ t → ((s.setLock (k.victim t) none).goto t k.next).pc u = s.pc u := by
    simp +contextual
  rcases k.next_cases (P := P) with hk | ⟨k', hk⟩ <;> rw [hk] at hm hpcs ⊢ <;>
    exact h.idle hm hpcs (by simp [hpc]) (by simp) (by simp)
      (h.locks.release rfl (hm.lockHeld hpcs) (by simp [hpc]) (by simp)) (by simp)

/-- `suspend`: nothing ever goes into the ready queue. -/
theorem Follows.readyQ (h : Follows n s φ ρ q) (hpc : s.pc t = .readyQ)
    (hs : step s t = some s') : Inv n s' := by
  simp only [step, hpc, h.queues.readyQ] at hs
  obtain rfl := Option.some.inj hs
  exact h.idle_goto (by simp [hpc]) (by simp) (by simp) (by simp [hpc]) (by simp)

/-! ### The steal -/

/-- A pthread in the code of a frame is where the phase says. -/
theorem Follows.pc_of_at {u : Tid P} {l : FibPC} (h : Follows n s φ ρ q) (hat : (φ F).At u l) :
    s.pc u = .fib F l :=
  PC.eq_fib_of_token ((h.control.token u (.fib F l)).mp hat)

/-- A linked seed whose lock a thief holds belongs to a frame whose first strand is at
`seedStackLock(ptid)` or before. -/
theorem Follows.taken {k : Search} (h : Follows n s φ ρ q) (hpc : s.pc t = .takeSeed k F) :
    ∃ x, φ F = .both x .seed ∧ x.Valid (.steal t .secondChildSteal) ∧
      (s.frames F).ptid = k.victim t := by
  have hmem := h.queues.taken t k F hpc
  rw [h.queues.mem] at hmem
  -- Whoever is in the frame under the lock of the queue would be the thief itself.
  have halone : ∀ u l, s.pc u = .fib F l → lockHeld s u (.fib F l) ≠ some (k.victim t) := by
    intro u l hu hheld
    have : u = t := h.locks.unique (x := k.victim t) (by rw [hu]; exact hheld) (by simp [hpc])
    rw [this, hpc] at hu
    cases hu
  have hv := (h.nodes F).valid
  cases hp : φ F with
  | pre u l =>
    have hu : s.pc u = .fib F l := h.pc_of_at (by rw [hp]; exact ⟨rfl, rfl⟩)
    rw [hp] at hmem
    cases l <;> simp at hmem
    all_goals exact absurd (congrArg some hmem) (halone u _ hu)
  | both x y =>
    rw [hp] at hmem hv
    obtain ⟨rfl, hptid⟩ := Second.eq_seed_of_linkedIn hmem
    refine ⟨x, rfl, ?_, hptid⟩
    cases x with
    | running => trivial
    | done => exact absurd hv.1.1 (by simp)
    | code u l =>
      have hu : s.pc u = .fib F l := h.pc_of_at (by rw [hp]; exact .inl ⟨rfl, rfl⟩)
      have hheld := halone u l hu
      rw [← hptid] at hheld
      rcases hv.1.of_seed with rfl | rfl | rfl | rfl
      · trivial
      · trivial
      · exact absurd rfl hheld
      · exact absurd rfl hheld
  | _ => simp [hp] at hmem

/-- `getSeedIfAvailableFrom`: release the seed and jump to `SecondChildSteal`. -/
theorem Follows.takeSeed {k : Search} (h : Follows n s φ ρ q) (hpc : s.pc t = .takeSeed k F)
    (hs : step s t = some s') : Inv n s' := by
  obtain ⟨x, hp, hx, hptid⟩ := h.taken hpc
  have hmem := h.queues.taken t k F hpc
  have hn := h.nodes F
  rw [hp] at hn
  have hdata := hn.seed.2.1 (s.frames F).ptid _ rfl
  simp only [Seed.data, Prod.mk.injEq] at hdata
  simp only [step, hpc, hdata.1, hdata.2.1, jump, Option.some.injEq] at hs
  subst hs
  have ho : SameOff s (((s.releaseSeed F (k.victim t)).count F
      fun c => { c with thiefReleases := c.thiefReleases + 1 }).goto t
        (.fib F .secondChildSteal)) t F := by
    constructor <;> simp +contextual [State.releaseSeed]
  refine ⟨update φ F (.both x (.steal t .secondChildSteal)), ρ,
    update q (k.victim t) ((q (k.victim t)).erase F), ?_⟩
  refine h.local (t := t) ?_ ho.pc (by simp [hpc]) (by simp) ?_ ?_ (by simp) (fun _ _ => rfl)
    (fun _ => rfl) (fun _ => rfl) rfl rfl ?_
    (h.queues.release h.locks ho rfl rfl hmem (by simp [hpc]) rfl (by simp)) ?_ ?_
  · rw [hp]
    exact .second rfl rfl
  · intro u m hu
    simp [hp, hu]
  · intro m
    -- the thief comes from `suspend`, so it is not the first strand
    have hat : ¬ x.At t m := by
      intro hat
      have := h.pc_of_at (F := F) (u := t) (l := m) (by rw [hp]; exact .inl hat)
      rw [hpc] at this
      cases this
    rw [Phase.At, or_iff_right hat]
    simp [eq_comm]
  · refine h.locks.same (t := t) rfl (ho.lockHeld rfl) ?_
    rw [hpc]
    simp [State.releaseSeed, hptid]
  · refine hn.next (by simp) ⟨hx, trivial⟩ (fun _ => rfl) (by simp) ?_ ?_ ?_
    · simp [State.releaseSeed, hn.tally]
    · refine ⟨hn.frame.1, ?_⟩
      simp
    · refine ⟨by simp, by simp, fun _ => ?_⟩
      exact releaseSeed_live _ _ F
  · intro G hG
    exact h.nodes_off ho (h.seeds_release hmem) hG

end

end Stacklets.LazyFork

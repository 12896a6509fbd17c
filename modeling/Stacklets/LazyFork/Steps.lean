import Stacklets.LazyFork.Local

/-!
# `Stacklets.LazyFork.Steps`: the steps inside a frame keep the invariant
-/

set_option autoImplicit false

namespace Stacklets.LazyFork

open Function (update update_self update_of_ne)

section
variable {P : Nat} {n : Int} {s s' : State P} {φ φ' : FooPtr → Phase P} {ρ ρ' : RootPhase P}
  {q q' : Tid P → List FooPtr} {t : Tid P} {F : FooPtr} {p p' : Phase P} {l k : FibPC}

/-! ### The phase of a frame, read off a place in its code -/

/-- The phase of a frame that has pthread `t` at `l`. -/
@[simp] def Phase.Place (t : Tid P) (p : Phase P) (l : FibPC) : Prop :=
  match l with
  | .start | .leaf | .initSeed | .pushLock | .pushLink | .setReturnAdr | .pushUnlock =>
    p = .pre t l
  | .callA | .lockPtid | .gotoReturnAdr | .firstChildDoneNormally | .firstChildDone
  | .firstDecrement => ∃ y, p = .both (.code t l) y
  | .unlockNormally | .callB | .sum => p = .normal t l
  | .secondChildSteal | .setSyncCounter | .stackletForkStub => ∃ x, p = .both x (.steal t l)
  | .secondChildDone => ∃ x, p = .both x (.dec t)
  | .suspendStub => False
  | .allReturned => p = .joined t l
  | .ret => p = .pre t l ∨ p = .normal t l ∨ p = .joined t l

/-- A place in the code determines the phase up to the other strand. -/
theorem Phase.Valid.place (hv : p.Valid) (h : p.At t l) : p.Place t l := by
  cases p with
  | idle | inB | finished => exact h.elim
  | pre t' l' | normal t' l' | joined t' l' =>
    obtain ⟨rfl, rfl⟩ := h
    cases l <;> simp_all
  | both x y =>
    obtain ⟨hx, hy⟩ := hv
    rcases h with h | h
    · cases x with
      | running | done => exact h.elim
      | code t' l' =>
        obtain ⟨rfl, rfl⟩ := h
        cases l <;> simp_all
    · cases y with
      | seed | forked | done => exact h.elim
      | steal t' l' =>
        obtain ⟨rfl, rfl⟩ := h
        cases l <;> simp_all
      | dec t' =>
        obtain ⟨rfl, rfl⟩ := h
        simp

/-- A pthread in the code of a frame is in its phase. -/
theorem Follows.at (h : Follows n s φ ρ q) (hpc : s.pc t = .fib F l) (hl : l ≠ .suspendStub) :
    (φ F).At t l := by
  refine (h.control.token t (.fib F l)).mpr ?_
  rw [hpc, PC.token_fib hl]

/-- The phase of a frame, read off the place of a pthread in it. -/
theorem Follows.place (h : Follows n s φ ρ q) (hpc : s.pc t = .fib F l)
    (hl : l ≠ .suspendStub) : (φ F).Place t l :=
  (h.nodes F).valid.place (h.at hpc hl)

/-! ### Steps that leave the queues alone -/

/-- The states agree outside the frame `F` and the place of `t`. -/
structure SameOff (s s' : State P) (t : Tid P) (F : FooPtr) : Prop where
  pc : ∀ u, u ≠ t → s'.pc u = s.pc u
  foos : ∀ G, G ≠ F → s'.foos G = s.foos G
  input : (s'.foos F).input = (s.foos F).input
  frames : ∀ G, G ≠ F → s'.frames G = s.frames G
  returnAdr : (s'.frames F).returnAdr = (s.frames F).returnAdr
  home : (s'.frames F).home = (s.frames F).home
  stacklets : s'.stacklets = s.stacklets
  stubs : s'.stubs = s.stubs
  tally : ∀ G, G ≠ F → s'.tally G = s.tally G
  readyQ : s'.readyQ = s.readyQ

/-- A frame whose memory did not change. -/
theorem NodeOk.congr {G : FooPtr} (h : NodeOk n s G p)
    (hfoo : (p = .idle → G = .root) → s'.foos G = s.foos G)
    (ha : (s'.foos (.a G)).input = (s.foos (.a G)).input)
    (hb : (s'.foos (.b G)).input = (s.foos (.b G)).input) (htally : s'.tally G = s.tally G)
    (hframe : s'.frames G = s.frames G) (hseed : p.SeedOk G (s'.seeds G)) :
    NodeOk n s' G p where
  valid := h.valid
  inner := h.inner
  leaf := h.leaf
  input hp := by rw [hfoo hp]; exact h.input hp
  children hp := by rw [ha, hb]; exact h.children hp
  output hp := by
    have hne : p ≠ .idle := by rintro rfl; exact hp
    rw [hfoo fun h' => absurd h' hne]
    exact h.output hp
  tally := htally.trans h.tally
  frame := by rw [hframe]; exact h.frame
  seed := hseed

/-- The frames other than `F` keep their part of the invariant. -/
theorem Follows.nodes_off (h : Follows n s φ ρ q) (ho : SameOff s s' t F)
    (hseeds : ∀ G, G ≠ F → (φ G).SeedOk G (s'.seeds G)) {G : FooPtr} (hG : G ≠ F) :
    NodeOk n s' G (φ G) := by
  have hinput : ∀ H, (s'.foos H).input = (s.foos H).input := by
    intro H
    by_cases hH : H = F
    · rw [hH, ho.input]
    · rw [ho.foos H hH]
  exact (h.nodes G).congr (fun _ => ho.foos G hG) (hinput _) (hinput _) (ho.tally G hG)
    (ho.frames G hG) (hseeds G hG)

/-- The queues after a step of `t` in `F` that leaves every seed in its queue. -/
theorem QueuesOk.same (h : QueuesOk s φ q) (hp : φ F = p)
    (hrep : ∀ x, (s'.seedStacks x).Represents s'.seeds (q x))
    (hframes : ∀ G, G ≠ F → s'.frames G = s.frames G)
    (hlinked : p'.linkedIn (s'.frames F).ptid = p.linkedIn (s.frames F).ptid)
    (hpc : ∀ u, u ≠ t → s'.pc u = s.pc u) (htaken : ∀ k G, s'.pc t ≠ .takeSeed k G)
    (hready : s'.readyQ = s.readyQ) : QueuesOk s' (update φ F p') q where
  rep := hrep
  mem x G := by
    by_cases hG : G = F
    · rw [hG, update_self, hlinked, ← hp]
      exact h.mem x F
    · rw [update_of_ne hG, hframes G hG]
      exact h.mem x G
  taken u k G hu := by
    by_cases hut : u = t
    · rw [hut] at hu
      exact absurd hu (htaken k G)
    · rw [hpc u hut] at hu
      exact h.taken u k G hu
  readyQ := hready.trans h.readyQ

/-- The locks that the other pthreads hold, after a step that keeps `ptid`. -/
theorem SameOff.lockHeld (ho : SameOff s s' t F) (hptid : (s'.frames F).ptid = (s.frames F).ptid)
    (u : Tid P) (hu : u ≠ t) : lockHeld s' u (s'.pc u) = lockHeld s u (s.pc u) := by
  rw [ho.pc u hu]
  refine lockHeld_congr fun G l _ => ?_
  by_cases hG : G = F
  · rw [hG, hptid]
  · rw [ho.frames G hG]

/-- The move of `t` to `k` in its frame, in the phase of the frame. -/
structure Phase.Move (t : Tid P) (k : FibPC) (p p' : Phase P) : Prop where
  shape : p.SameShape p'
  others : ∀ u m, u ≠ t → (p'.At u m ↔ p.At u m)
  self : ∀ m, p'.At t m ↔ k ≠ .suspendStub ∧ m = k

/-- A pthread that is alone in the frame moves. -/
theorem Phase.Move.alone (hk : k ≠ .suspendStub) (hp : ∀ u m, u ≠ t → ¬ p.At u m)
    (hp' : ∀ u m, p'.At u m ↔ u = t ∧ m = k) (hs : p.SameShape p') : p.Move t k p' where
  shape := hs
  others u m hu := by
    rw [hp', iff_false_right (hp u m hu)]
    exact fun h => hu h.1
  self m := by
    rw [hp']
    exact ⟨fun h => ⟨hk, h.2⟩, fun h => ⟨rfl, h.2⟩⟩

theorem Phase.Move.pre (hk : k ≠ .suspendStub) : (Phase.pre t l).Move t k (.pre t k) :=
  .alone hk (by simp +contextual) (by simp) (by constructor <;> simp [Phase.fork])

theorem Phase.Move.normal (hk : k ≠ .suspendStub)
    (hb : (Phase.normal t k).statusB = (Phase.normal t l).statusB) :
    (Phase.normal t l).Move t k (.normal t k) :=
  .alone hk (by simp +contextual) (by simp) ⟨rfl, rfl, hb, .rfl, by simp, rfl⟩

/-- A step of `t` from `l` to `k` in the frame `F`, from the phase `p` to the phase `p'`. -/
theorem Follows.code (h : Follows n s φ ρ q) (hpc : s.pc t = .fib F l) (hp : φ F = p)
    (hpc' : s'.pc t = .fib F k) (ho : SameOff s s' t F) (hm : p.Move t k p')
    (hptid : p.fork ≠ none → (s'.frames F).ptid = (s.frames F).ptid) (hlocks : LocksOk s')
    (hqueues : QueuesOk s' (update φ F p') q') (hnode : NodeOk n s' F p')
    (hseeds : ∀ G, G ≠ F → (φ G).SeedOk G (s'.seeds G)) : Inv n s' := by
  subst hp
  refine ⟨_, _, _, h.local (t := t) hm.shape ho.pc ?_ ?_ hm.others ?_ ?_ ?_ ?_ ?_ ho.stubs
    ho.stacklets hlocks hqueues hnode (fun G hG => h.nodes_off ho hseeds hG)⟩
  · intro τ hτ
    rw [hpc] at hτ
    exact ⟨l, PC.eq_of_token_fib hτ⟩
  · intro τ hτ
    rw [hpc'] at hτ
    exact ⟨k, PC.eq_of_token_fib hτ⟩
  · intro m
    rw [hm.self m, hpc', PC.token_fib_iff]
  · rw [hpc']
    trivial
  · intro G hfork
    by_cases hG : G = F
    · subst hG
      exact hptid hfork
    · rw [ho.frames G hG]
  · intro G
    by_cases hG : G = F
    · rw [hG, ho.returnAdr]
    · rw [ho.frames G hG]
  · intro G
    by_cases hG : G = F
    · rw [hG, ho.home]
    · rw [ho.frames G hG]

/-- A step in the frame `F` that leaves the seeds and the queues alone. The locks of the other
pthreads stay, since `ptid` does. -/
theorem Follows.quiet (h : Follows n s φ ρ q) (hpc : s.pc t = .fib F l) (hp : φ F = p)
    (hpc' : s'.pc t = .fib F k) (ho : SameOff s s' t F) (hm : p.Move t k p')
    (hptid : (s'.frames F).ptid = (s.frames F).ptid)
    (hlocks : (∀ u, u ≠ t → lockHeld s' u (s'.pc u) = lockHeld s u (s.pc u)) → LocksOk s')
    (hseeds : s'.seeds = s.seeds) (hqs : s'.seedStacks = s.seedStacks)
    (hlinked : p'.linkedIn (s'.frames F).ptid = p.linkedIn (s.frames F).ptid)
    (hnode : NodeOk n s' F p') : Inv n s' := by
  refine h.code hpc hp hpc' ho hm (fun _ => hptid) (hlocks (ho.lockHeld hptid))
    (h.queues.same hp ?_ ho.frames hlinked ho.pc ?_ ho.readyQ) hnode
    (fun G _ => hseeds ▸ (h.nodes G).seed)
  · rw [hseeds, hqs]
    exact h.queues.rep
  · intro i G hi
    rw [hpc'] at hi
    cases hi

/-- The memory of the frame `F` after a step that keeps the inputs of all `Foo`s. -/
theorem NodeOk.next (h : NodeOk n s F p)
    (hp : p ≠ .idle ∧ (p'.Inner → p.Inner) ∧ (p'.Leaf → p.Leaf)) (hv : p'.Valid)
    (hin : ∀ G, (s'.foos G).input = (s.foos G).input)
    (hout : p'.Written → (s'.foos F).output = BitVec.ofNat 32 (fibValue (inputOf n F)))
    (htally : s'.tally F = p'.tally) (hframe : p'.FrameOk (s'.frames F))
    (hseed : p'.SeedOk F (s'.seeds F)) : NodeOk n s' F p' where
  valid := hv
  inner hp' := h.inner (hp.2.1 hp')
  leaf hp' := h.leaf (hp.2.2 hp')
  input _ := by rw [hin]; exact h.input fun h' => absurd h' hp.1
  children hp' := by rw [hin, hin]; exact h.children (hp.2.1 hp')
  output := hout
  tally := htally
  frame := hframe
  seed := hseed

/-! ### Steps on a queue -/

/-- A seed in a phase, after stores that keep its data, and keep all of it if it is in no
queue. -/
theorem Phase.SeedOk.congr {G : FooPtr} {x x' : Seed FooPtr Label StackPtr}
    (h : p.SeedOk G x) (hdata : x'.data = x.data)
    (hsame : (∀ i, p.linkedIn i = none) → x' = x) : p.SeedOk G x' := by
  obtain ⟨h₁, h₂, h₃⟩ := h
  refine ⟨?_, ?_, ?_⟩
  · rintro u m rfl hm
    rw [hsame]
    · exact h₁ u m rfl hm
    · rcases hm with rfl | rfl <;> simp
  · intro i j hij
    rw [hdata]
    exact h₂ i j hij
  · intro hp
    have hlive : x'.live = x.live := by
      simp only [Seed.data, Prod.mk.injEq] at hdata
      exact hdata.2.2
    rw [hlive]
    exact h₃ hp

/-- A step of the first strand leaves the seed as it is. -/
theorem Phase.SeedOk.first {x x' : First P} {y : Second P} {d : Seed FooPtr Label StackPtr}
    (h : (Phase.both x y).SeedOk F d) : (Phase.both x' y).SeedOk F d :=
  ⟨by simp, h.2⟩

/-- A seed is in one queue only. -/
theorem QueuesOk.disjoint (h : QueuesOk s φ q) {x y : Tid P} (hxy : x ≠ y) {G : FooPtr}
    (hG : G ∈ q x) : G ∉ q y := by
  rw [h.mem] at hG ⊢
  rw [hG]
  simpa using hxy

/-- The queues after `pushSeed` of the seed of `F` on the queue of `t`. -/
theorem QueuesOk.push (h : QueuesOk s φ q) (ho : SameOff s s' t F)
    (hseeds : s'.seeds = (pushSeed s.seeds (s.seedStacks t) F).1)
    (hqs : s'.seedStacks = update s.seedStacks t
      (pushSeed s.seeds (s.seedStacks t) F).2)
    (hfresh : s.seeds F = LazyFork.initSeed .secondChildSteal (.frame F))
    (hold : (φ F).linkedIn (s.frames F).ptid = none)
    (hnew : p'.linkedIn (s'.frames F).ptid = some t) (htaken : ∀ k G, s'.pc t ≠ .takeSeed k G) :
    QueuesOk s' (update φ F p') (update q t (q t ++ [F])) where
  rep x := by
    -- the seed was in no queue
    have hF : ∀ y, F ∉ q y := by
      intro y
      rw [h.mem, hold]
      simp
    rw [hseeds, hqs]
    by_cases hx : x = t
    · subst hx
      simp only [update_self]
      exact represents_pushSeed (h.rep x) (hF x) (by simp [hfresh, LazyFork.initSeed])
        (by simp [hfresh, LazyFork.initSeed])
    · simp only [update_of_ne hx]
      exact represents_pushSeed_of_disjoint (h.rep t) (h.rep x)
        (fun y hy => h.disjoint hx hy) (hF x)
  mem x G := by
    by_cases hG : G = F
    · subst hG
      have hGq : G ∉ q x := by
        rw [h.mem, hold]
        simp
      rw [update_self, hnew]
      by_cases hx : x = t
      · subst hx
        simp
      · simp [hx, hGq, Ne.symm hx]
    · rw [update_of_ne hG, ho.frames G hG, ← h.mem x G]
      by_cases hx : x = t
      · subst hx
        simp [hG]
      · simp [hx]
  taken u k G hu := by
    by_cases hut : u = t
    · rw [hut] at hu
      exact absurd hu (htaken k G)
    · rw [ho.pc u hut] at hu
      have := h.taken u k G hu
      by_cases hx : k.victim u = t
      · simp [hx, hx ▸ this]
      · simp [hx, this]
  readyQ := ho.readyQ.trans h.readyQ

/-- The queues after `releaseSeed` of the linked seed of `F` by `t`, which holds the lock of
the queue. -/
theorem QueuesOk.release {x : Tid P} (h : QueuesOk s φ q) (hl : LocksOk s)
    (ho : SameOff s s' t F)
    (hseeds : s'.seeds = (LazyFork.releaseSeed s.seeds (s.seedStacks x) F).1)
    (hqs : s'.seedStacks = update s.seedStacks x
      (LazyFork.releaseSeed s.seeds (s.seedStacks x) F).2)
    (hmem : F ∈ q x) (hheld : LazyFork.lockHeld s t (s.pc t) = some x)
    (hnew : p'.linkedIn (s'.frames F).ptid = none) (htaken : ∀ k G, s'.pc t ≠ .takeSeed k G) :
    QueuesOk s' (update φ F p') (update q x ((q x).erase F)) where
  rep y := by
    rw [hseeds, hqs]
    by_cases hy : y = x
    · subst hy
      simp only [update_self]
      exact represents_releaseSeed (h.rep y) hmem
    · simp only [update_of_ne hy]
      exact represents_releaseSeed_of_disjoint (h.rep x) (h.rep y)
        (fun z hz => h.disjoint hy hz) hmem
  mem y G := by
    by_cases hG : G = F
    · subst hG
      rw [update_self, hnew]
      by_cases hy : y = x
      · subst hy
        simp [(h.rep y).nodup.mem_erase_iff]
      · simp [hy, h.disjoint (Ne.symm hy) hmem]
    · rw [update_of_ne hG, ho.frames G hG, ← h.mem y G]
      by_cases hy : y = x
      · subst hy
        simp [List.mem_erase_of_ne hG]
      · simp [hy]
  taken u k G hu := by
    by_cases hut : u = t
    · rw [hut] at hu
      exact absurd hu (htaken k G)
    · rw [ho.pc u hut] at hu
      -- Another thief holds the lock of its victim, so it robs another queue.
      have hx : k.victim u ≠ x := by
        intro hx
        exact hut (hl.unique (x := x) (by simp [hu, hx]) hheld)
      rw [update_of_ne hx]
      exact h.taken u k G hu
  readyQ := ho.readyQ.trans h.readyQ

/-- The seeds of the other frames after `releaseSeed` of the linked seed of `F`. -/
theorem Follows.seeds_release {x : Tid P} (h : Follows n s φ ρ q) (hmem : F ∈ q x) (G : FooPtr)
    (hG : G ≠ F) :
    (φ G).SeedOk G ((LazyFork.releaseSeed s.seeds (s.seedStacks x) F).1 G) := by
  refine (h.nodes G).seed.congr ?_ fun hnone => ?_
  · rw [releaseSeed_data, if_neg hG]
    rfl
  · refine releaseSeed_of_notMem (h.queues.rep x) hmem ?_
    rw [h.queues.mem, hnone]
    simp

/-! ### Locking and unlocking -/

/-- A pthread that holds nothing waits for a lock or gets it. -/
theorem LocksOk.seedStackLock {x : Tid P} {c : PC P} (h : LocksOk s)
    (hold : LazyFork.lockHeld s t (s.pc t) = none) (hs : s.seedStackLock t x c = some s') :
    s.seedStackLocks x = none ∧
      s' = (s.setLock x (some t)).goto t c := by
  unfold State.seedStackLock at hs
  cases hx : s.seedStackLocks x with
  | none =>
    rw [hx] at hs
    exact ⟨rfl, (Option.some.inj hs).symm⟩
  | some o =>
    have ho : o ≠ t := by
      rintro rfl
      have := (h x o).mp hx
      rw [hold] at this
      cases this
    rw [hx, mySpinLock_some, if_neg ho] at hs
    cases hs

/-- A pthread that holds the lock it unlocks passes both assertions. -/
theorem LocksOk.seedStackUnlock {x : Tid P} {c : PC P} (h : LocksOk s)
    (hold : LazyFork.lockHeld s t (s.pc t) = some x) :
    s.seedStackUnlock t x c = (s.setLock x none).goto t c := by
  unfold State.seedStackUnlock
  rw [(h x t).mpr hold, mySpinUnlock_eq, if_pos rfl]

/-! ### The steps before the seed is pushed -/

/-- `if (f->input <= 2)`. -/
theorem Follows.start (h : Follows n s φ ρ q) (hpc : s.pc t = .fib F .start)
    (hs : fibStep s t F .start = some s') : Inv n s' := by
  have hp : φ F = .pre t .start := h.place hpc (by simp)
  have hn := h.nodes F
  rw [hp] at hn
  simp only [fibStep, hn.input (by simp)] at hs
  split at hs
  · rename_i hle
    obtain rfl := Option.some.inj hs
    refine h.quiet hpc hp (k := .leaf) (by simp) ?_ (.pre (by simp)) rfl
      (fun hu => h.locks.same (t := t) rfl hu (by simp [hpc])) rfl rfl (by simp) ?_
    · constructor <;> simp +contextual
    · exact { hn with
        valid := by simp
        leaf := fun _ => hle
        inner := by simp
        input := fun _ => hn.input (by simp)
        children := by simp
        output := by simp
        frame := hn.frame
        seed := by simp [Phase.SeedOk] }
  · rename_i hgt
    obtain rfl := Option.some.inj hs
    -- The stores of the arguments touch the two children, which nobody runs before the fork.
    have hidle : ∀ G, G = .a F ∨ G = .b F → φ G = .idle := by
      rintro G (rfl | rfl)
      · exact Phase.eq_idle (by rw [h.edges.status, statusIn, hp]; rfl)
      · exact Phase.eq_idle (by rw [h.edges.status, statusIn, hp]; rfl)
    have hm : (φ F).Move t .initSeed (.pre t .initSeed) := hp ▸ .pre (by simp)
    refine ⟨_, ρ, q, h.local (t := t) hm.shape (by simp +contextual) ?_ (by simp) hm.others
      (by simp [eq_comm]) (by simp) (by simp) (by simp) (by simp) rfl rfl
      (h.locks.same (t := t) rfl (fun u hu => by simp [hu]) (by simp [hpc]))
      (h.queues.same hp (t := t) h.queues.rep (by simp) (by simp) (by simp +contextual) (by simp)
        rfl) ?_ ?_⟩
    · intro τ hτ
      simp [hpc] at hτ
      exact ⟨_, hτ.symm⟩
    · exact
        { valid := by simp
          inner := fun _ => by omega
          leaf := by simp
          input := fun _ => by
            have := hn.input (by simp)
            have ha : F ≠ .a F := by intro h; have := congrArg sizeOf h; simp at this
            have hb : F ≠ .b F := by intro h; have := congrArg sizeOf h; simp at this
            simpa [ha, hb] using this
          children := by simp
          output := by simp
          tally := hn.tally
          frame := hn.frame
          seed := by simp [Phase.SeedOk] }
    · intro G hG
      refine (h.nodes G).congr ?_ ?_ ?_ rfl rfl (h.nodes G).seed
      · intro hne
        have ha : G ≠ .a F := by
          rintro rfl
          cases hne (hidle _ (.inl rfl))
        have hb : G ≠ .b F := by
          rintro rfl
          cases hne (hidle _ (.inr rfl))
        simp [ha, hb]
      · simp [hG]
      · simp [hG]

/-- `f->output = 1` on the leaf path. -/
theorem Follows.leaf (h : Follows n s φ ρ q) (hpc : s.pc t = .fib F .leaf)
    (hs : fibStep s t F .leaf = some s') : Inv n s' := by
  obtain rfl := Option.some.inj hs
  have hp : φ F = .pre t .leaf := h.place hpc (by simp)
  have hn := h.nodes F
  rw [hp] at hn
  refine h.quiet hpc hp (k := .ret) (by simp) ?_ (.pre (by simp)) rfl
    (fun hu => h.locks.same (t := t) rfl hu (by simp [hpc])) rfl rfl (by simp) ?_
  · constructor <;> simp +contextual
  · refine hn.next (by simp) (by simp) ?_ ?_ ?_ hn.frame (by simp [Phase.SeedOk])
    · intro G
      by_cases hG : G = F <;> simp [hG]
    · intro _
      rw [fibValue_leaf (hn.leaf trivial)]
      simp
    · simp [hn.tally]

/-- `initSeed`: the seed is in no queue, so a fresh one in its place changes no queue. -/
theorem Follows.initSeed (h : Follows n s φ ρ q) (hpc : s.pc t = .fib F .initSeed)
    (hs : fibStep s t F .initSeed = some s') : Inv n s' := by
  obtain rfl := Option.some.inj hs
  have hp : φ F = .pre t .initSeed := h.place hpc (by simp)
  have hn := h.nodes F
  rw [hp] at hn
  have hmem : ∀ x, F ∉ q x := by
    intro x hx
    simp [h.queues.mem, hp] at hx
  refine h.code hpc hp (k := .pushLock) (by simp) ?_ (.pre (by simp)) (fun _ => rfl)
    (h.locks.same (t := t) rfl (fun u hu => by simp [hu]) (by simp [hpc]))
    (h.queues.same hp (t := t) ?_ (by simp) (by simp) (by simp +contextual) (by simp) rfl) ?_ ?_
  · constructor <;> simp +contextual
  · intro x
    have hne : ∀ G ∈ q x, G ≠ F := fun G hG hGF => hmem x (hGF ▸ hG)
    refine (h.queues.rep x).congr ?_ ?_
    · intro G hG
      simp [hne G hG]
    · intro G hG
      simp [hne G hG]
  · refine hn.next (by simp) (by simp) (by simp) (by simp) ?_ hn.frame ?_
    · simp [hn.tally]
    · simp [Phase.SeedOk]
  · intro G hG
    simpa [hG] using (h.nodes G).seed

/-- `pushSeed`: `seedStackLock(threadId)`. -/
theorem Follows.pushLock (h : Follows n s φ ρ q) (hpc : s.pc t = .fib F .pushLock)
    (hs : fibStep s t F .pushLock = some s') : Inv n s' := by
  obtain ⟨hfree, rfl⟩ := h.locks.seedStackLock (by simp [hpc]) hs
  have hp : φ F = .pre t .pushLock := h.place hpc (by simp)
  have hn := h.nodes F
  rw [hp] at hn
  refine h.quiet hpc hp (k := .pushLink) (by simp) ?_ (.pre (by simp)) rfl
    (fun hu => h.locks.acquire hfree rfl hu (by simp [hpc]) (by simp)) rfl rfl (by simp) ?_
  · constructor <;> simp +contextual
  · refine hn.next (by simp) (by simp) (by simp) (by simp) ?_ hn.frame ?_
    · simp [hn.tally]
    · simpa [Phase.SeedOk] using hn.seed

/-- `pushSeed`: link the seed. -/
theorem Follows.pushLink (h : Follows n s φ ρ q) (hpc : s.pc t = .fib F .pushLink)
    (hs : fibStep s t F .pushLink = some s') : Inv n s' := by
  have hp : φ F = .pre t .pushLink := h.place hpc (by simp)
  have hn := h.nodes F
  rw [hp] at hn
  obtain rfl := Option.some.inj hs
  have ho : SameOff s (({ s with
      seeds := (pushSeed s.seeds (s.seedStacks t) F).1
      seedStacks := update s.seedStacks t (pushSeed s.seeds (s.seedStacks t) F).2
      }.count F fun k => { k with pushes := k.pushes + 1 }).goto t (.fib F .setReturnAdr)) t F := by
    constructor <;> simp +contextual
  have hfresh := hn.seed.1 t .pushLink rfl (.inr rfl)
  refine h.code hpc hp (k := .setReturnAdr) (by simp) ho (.pre (by simp)) (fun _ => rfl)
    (h.locks.same (t := t) rfl (ho.lockHeld rfl) (by simp [hpc]))
    (h.queues.push ho rfl rfl hfresh (by simp [hp]) (by simp) (by simp)) ?_ ?_
  · refine hn.next (by simp) (by simp) (by simp) (by simp) ?_ hn.frame ?_
    · simp [hn.tally]
    · have hdata : ((pushSeed s.seeds (s.seedStacks t) F).1 F).data
          = (.secondChildSteal, .frame F, true) := by
        rw [pushSeed_data, hfresh]
        rfl
      simp [Phase.SeedOk, hdata]
  · intro G hG
    refine (h.nodes G).seed.congr (pushSeed_data _ _ _ _) fun hnone => ?_
    refine pushSeed_of_notMem (h.queues.rep t) ?_ hG
    rw [h.queues.mem, hnone]
    simp

/-- `firstChildReturnAdr = &&FirstChildDoneNormally; ptid = threadId`. -/
theorem Follows.setReturnAdr (h : Follows n s φ ρ q) (hpc : s.pc t = .fib F .setReturnAdr)
    (hs : fibStep s t F .setReturnAdr = some s') : Inv n s' := by
  obtain rfl := Option.some.inj hs
  have hp : φ F = .pre t .setReturnAdr := h.place hpc (by simp)
  have hn := h.nodes F
  rw [hp] at hn
  -- Nobody else is in the frame, so nobody else reads its `ptid`.
  have halone : ∀ u l, u ≠ t → l ≠ .suspendStub → s.pc u ≠ .fib F l := by
    intro u l hu hl hpcu
    have := h.at hpcu hl
    rw [hp] at this
    exact hu this.1
  refine h.code hpc hp (k := .pushUnlock) (by simp) ?_ (.pre (by simp)) (by simp [Phase.fork]) ?_
    (h.queues.same hp (t := t) h.queues.rep (by simp +contextual) (by simp) (by simp +contextual)
      (by simp) rfl) ?_ (fun G _ => (h.nodes G).seed)
  · constructor <;> simp +contextual
  · refine h.locks.same (t := t) rfl ?_ (by simp [hpc])
    intro u hu
    by_cases hF : ∃ l, s.pc u = .fib F l
    · obtain ⟨l, hl⟩ := hF
      obtain rfl : l = .suspendStub := by
        by_contra hne
        exact halone u l hu hne hl
      simp [hu, hl]
    · simp only [State.goto, State.setFrame, ne_eq, hu, not_false_eq_true,
        update_of_ne]
      refine lockHeld_congr fun G l hG => ?_
      have hGF : G ≠ F := by
        rintro rfl
        exact hF ⟨l, hG⟩
      simp [hGF]
  · refine hn.next (by simp) (by simp) (by simp) (by simp) ?_ (by simp) ?_
    · simp [hn.tally]
    · simpa [Phase.SeedOk] using hn.seed

/-- `seedStackUnlock(threadId)`: the seed is up for stealing. -/
theorem Follows.pushUnlock (h : Follows n s φ ρ q) (hpc : s.pc t = .fib F .pushUnlock)
    (hs : fibStep s t F .pushUnlock = some s') : Inv n s' := by
  simp only [fibStep, h.locks.seedStackUnlock (t := t) (x := t) (by simp [hpc]),
    Option.some.injEq] at hs
  subst hs
  have hp : φ F = .pre t .pushUnlock := h.place hpc (by simp)
  have hn := h.nodes F
  rw [hp] at hn
  have hm : (Phase.pre t .pushUnlock).Move t .callA (.both (.code t .callA) .seed) :=
    .alone (by simp) (by simp +contextual) (by simp) (by constructor <;> simp [Phase.fork])
  refine h.quiet hpc hp (by simp) ?_ hm rfl
    (fun hu => h.locks.release rfl hu (by simp [hpc]) (by simp)) rfl rfl ?_ ?_
  · constructor <;> simp +contextual
  · simpa using hn.frame.2
  · refine hn.next (by simp) (by simp) (by simp) (by simp) ?_ ?_ ?_
    · simp [hn.tally]
    · simpa using hn.frame.1
    · have := hn.seed.2.1 t t (by simp)
      simp [Phase.SeedOk, this]

/-! ### The steps of the first strand -/

/-- A pthread in the first strand of a frame is not in the second. -/
theorem Follows.not_second {y : Second P} (h : Follows n s φ ρ q) (hpc : s.pc t = .fib F l)
    (hp : φ F = .both (.code t l) y) (m : FibPC) : ¬ y.At t m := by
  intro hy
  have hv := (h.nodes F).valid
  rw [hp] at hv
  have hm : (s.pc t).token = some (.fib F m) := by
    refine (h.control.token t (.fib F m)).mp ?_
    rw [HasToken, hp]
    exact .inr hy
  have hml : PC.fib F l = PC.fib F m := hpc.symm.trans (PC.eq_fib_of_token hm)
  obtain rfl : l = m := (PC.fib.inj hml).2
  -- The two strands have no place in common.
  obtain ⟨hx, hy'⟩ := hv
  clear h hpc hp hm hml
  cases y with
  | seed | forked | done => exact hy
  | steal u k =>
    obtain ⟨rfl, rfl⟩ := hy
    cases l <;> simp at hx hy'
  | dec u =>
    obtain ⟨rfl, rfl⟩ := hy
    simp at hx

/-- A pthread moves in the first strand. -/
theorem Follows.move_first {y : Second P} (h : Follows n s φ ρ q) (hpc : s.pc t = .fib F l)
    (hp : φ F = .both (.code t l) y) (hk : k ≠ .suspendStub)
    (hs : (First.code t k).status = (First.code t l).status) :
    (Phase.both (.code t l) y).Move t k (.both (.code t k) y) where
  shape := .first hs
  others u m hu := by simp [hu]
  self m := by
    rw [Phase.At, or_iff_left (h.not_second hpc hp m)]
    simp [hk]

/-- While the lock of the seed is free, or held by the first strand, no thief is at work on
the frame before its unlock. -/
theorem Follows.second_cases {x : First P} {y : Second P} (h : Follows n s φ ρ q)
    (hp : φ F = .both x y) :
    y = .seed ∨ y.Past ∨
      ∃ u, lockHeld s u (s.pc u) = some (s.frames F).ptid ∧
        ((∃ m, y = .steal u m ∧ s.pc u = .fib F m) ∨
          (y = .forked (.unlock u) ∧ ∃ lab sp x, s.pc u = .stackletFork lab sp (.b F) x)) := by
  have hv := (h.nodes F).valid
  rw [hp] at hv
  cases y with
  | seed => exact .inl rfl
  | dec u => exact .inr (.inl trivial)
  | done => exact .inr (.inl trivial)
  | steal u m =>
    have hpcu : s.pc u = .fib F m :=
      PC.eq_fib_of_token ((h.control.token u (.fib F m)).mp (by simp [HasToken, hp]))
    -- up to `stackletFork` the thief keeps the lock of the owner
    refine .inr (.inr ⟨u, ?_, .inl ⟨m, rfl, hpcu⟩⟩)
    rw [hpcu]
    have hm := hv.2
    clear hv hp hpcu
    cases m <;> first | rfl | exact hm.elim
  | forked w =>
    cases w with
    | alloc | running | stub | finish => exact .inr (.inl trivial)
    | unlock u =>
      have htok := (h.control.token u (.unlock (.b F))).mp
        (by simp [HasToken, forkOf, hp, Phase.fork])
      obtain ⟨lab, sp, x, hu⟩ := PC.eq_stackletFork_of_token htok
      have hok := h.control.ok u
      rw [hu] at hok
      refine .inr (.inr ⟨u, ?_, .inr ⟨rfl, lab, sp, x, hu⟩⟩)
      rw [hu]
      exact congrArg some hok.2

/-- Behind `fib(&a)`: `seedStackLock(ptid)`. -/
theorem Follows.lockPtid (h : Follows n s φ ρ q) (hpc : s.pc t = .fib F .lockPtid)
    (hs : fibStep s t F .lockPtid = some s') : Inv n s' := by
  obtain ⟨y, hp⟩ : ∃ y, φ F = .both (.code t .lockPtid) y := h.place hpc (by simp)
  have hn := h.nodes F
  rw [hp] at hn
  obtain ⟨hfree, rfl⟩ := LocksOk.seedStackLock (s := s.count F _) h.locks (by simp [hpc]) hs
  -- A thief before its unlock would hold the lock.
  have hy : y = .seed ∨ y.Past := by
    rcases h.second_cases hp with hy | hy | ⟨u, hu, -⟩
    · exact .inl hy
    · exact .inr hy
    · have := (h.locks _ u).mpr hu
      rw [show s.seedStackLocks (s.frames F).ptid = none from hfree] at this
      cases this
  refine h.quiet hpc hp (k := .gotoReturnAdr) (by simp) ?_
    (h.move_first hpc hp (by simp) rfl) rfl
    (fun hu => h.locks.acquire hfree rfl hu (by simp [hpc]) (by simp)) rfl rfl rfl ?_
  · constructor <;> simp +contextual
  · refine hn.next (by simp) ⟨hy, hn.valid.2⟩ (by simp) (by simp) ?_ ?_ hn.seed.first
    · simp [hn.tally]
    · simpa using hn.frame

/-- `goto *firstChildReturnAdr`. -/
theorem Follows.gotoReturnAdr (h : Follows n s φ ρ q) (hpc : s.pc t = .fib F .gotoReturnAdr)
    (hs : fibStep s t F .gotoReturnAdr = some s') : Inv n s' := by
  obtain ⟨y, hp⟩ : ∃ y, φ F = .both (.code t .gotoReturnAdr) y := h.place hpc (by simp)
  have hn := h.nodes F
  rw [hp] at hn
  simp only [fibStep, hn.frame.1] at hs
  obtain rfl := Option.some.inj hs
  -- The jump goes to `FirstChildDoneNormally` before a steal and to `FirstChildDone` behind it.
  obtain ⟨l', hl', hheld, hval, hpass, hstatus, hjump⟩ : ∃ l', l' ≠ .suspendStub ∧
      lockHeld s t (.fib F l') = some (s.frames F).ptid ∧
      (Phase.both (.code t l') y).Valid ∧ (Phase.both (.code t l') y).tally = s.tally F ∧
      (First.code t l').status = .done ∧
      jump (P := P) (.frame F) y.returnAdr = .fib F l' := by
    rcases hn.valid.1 with rfl | hy
    · exact ⟨.firstChildDoneNormally, by simp, rfl, by simp, by simp [hn.tally], rfl, rfl⟩
    · refine ⟨.firstChildDone, by simp, rfl, ⟨hy, hn.valid.2⟩, by simp [hn.tally], rfl, ?_⟩
      cases y <;> first | rfl | exact hy.elim
  rw [hjump]
  refine h.quiet hpc hp (k := l') (by simp) ?_ (h.move_first hpc hp hl' hstatus) rfl ?_ rfl rfl rfl
    (hn.next (by simp) hval (by simp) (by simp) hpass.symm hn.frame hn.seed.first)
  · constructor <;> simp +contextual
  · intro hu
    refine h.locks.same (t := t) rfl hu ?_
    rw [hpc]
    simpa using hheld

/-- `FirstChildDoneNormally`: the parent releases its own seed. -/
theorem Follows.firstChildDoneNormally (h : Follows n s φ ρ q)
    (hpc : s.pc t = .fib F .firstChildDoneNormally)
    (hs : fibStep s t F .firstChildDoneNormally = some s') : Inv n s' := by
  obtain ⟨y, hp⟩ : ∃ y, φ F = .both (.code t .firstChildDoneNormally) y := h.place hpc (by simp)
  have hn := h.nodes F
  obtain rfl : y = .seed := by
    rw [hp] at hn
    exact hn.valid.1
  rw [hp] at hn
  obtain rfl := Option.some.inj hs
  have hmem : F ∈ q (s.frames F).ptid := by simp [h.queues.mem, hp]
  have ho : SameOff s (((s.releaseSeed F (s.frames F).ptid).count F
      fun k => { k with parentReleases := k.parentReleases + 1 }).goto t
        (.fib F .unlockNormally)) t F := by
    constructor <;> simp +contextual [State.releaseSeed]
  have hm : (Phase.both (.code t .firstChildDoneNormally) .seed).Move t .unlockNormally
      (.normal t .unlockNormally) :=
    .alone (by simp) (by simp +contextual) (by simp) (by constructor <;> simp [Phase.fork])
  refine h.code hpc hp (by simp) ho hm (fun _ => rfl)
    (h.locks.same (t := t) rfl (ho.lockHeld rfl) (by simp [hpc, State.releaseSeed]))
    (h.queues.release h.locks ho rfl rfl hmem (by simp [hpc]) rfl (by simp)) ?_
    (h.seeds_release hmem)
  refine hn.next (by simp) (by simp) (by simp [State.releaseSeed]) (by simp) ?_ (by simp) ?_
  · simp [State.releaseSeed, hn.tally]
  · refine ⟨by simp, by simp, fun _ => ?_⟩
    exact releaseSeed_live _ _ F

/-- `seedStackUnlock(ptid)` behind the release by the parent. -/
theorem Follows.unlockNormally (h : Follows n s φ ρ q) (hpc : s.pc t = .fib F .unlockNormally)
    (hs : fibStep s t F .unlockNormally = some s') : Inv n s' := by
  simp only [fibStep, h.locks.seedStackUnlock (t := t) (x := (s.frames F).ptid) (by simp [hpc]),
    Option.some.injEq] at hs
  subst hs
  have hp : φ F = .normal t .unlockNormally := h.place hpc (by simp)
  have hn := h.nodes F
  rw [hp] at hn
  refine h.quiet hpc hp (k := .callB) (by simp) ?_ (.normal (by simp) rfl) rfl
    (fun hu => h.locks.release rfl hu (by simp [hpc]) (by simp)) rfl rfl (by simp) ?_
  · constructor <;> simp +contextual
  · refine hn.next (by simp) (by simp) (by simp) (by simp) ?_ (by simp) ?_
    · simp [hn.tally]
    · simpa [Phase.SeedOk] using hn.seed

/-- The sum of the outputs of two children that have returned. -/
theorem Follows.sum_outputs (h : Follows n s φ ρ q) (hi : (φ F).Inner)
    (ha : (φ F).statusA = .done) (hb : (φ F).statusB = .done) :
    (s.foos (.a F)).output + (s.foos (.b F)).output
      = BitVec.ofNat 32 (fibValue (inputOf n F)) := by
  have hout : ∀ G, (φ G).status = .done →
      (s.foos G).output = BitVec.ofNat 32 (fibValue (inputOf n G)) := by
    intro G hG
    obtain ⟨how, hhow⟩ := Phase.eq_finished hG
    exact (h.nodes G).output (by rw [hhow]; trivial)
  rw [hout (.a F) (by rw [h.edges.status]; exact ha),
    hout (.b F) (by rw [h.edges.status]; exact hb), fibValue_inner ((h.nodes F).inner hi)]
  rfl

/-- `f->output = a.output + b.output`, behind `fib(&b)` or at `AllReturned`. -/
theorem Follows.writeSum (h : Follows n s φ ρ q) (hpc : s.pc t = .fib F l)
    (hl : l = .sum ∧ φ F = .normal t l ∧ p' = .normal t .ret ∨
      l = .allReturned ∧ φ F = .joined t l ∧ p' = .joined t .ret) :
    Inv n (s.writeSum t F) := by
  have hn := h.nodes F
  have ho : SameOff s (s.writeSum t F) t F := by
    constructor <;> simp +contextual [State.writeSum]
  have hin : ∀ G, ((s.writeSum t F).foos G).input = (s.foos G).input := by
    intro G
    by_cases hG : G = F <;> simp [State.writeSum, hG]
  have hout : (φ F).Inner → (φ F).statusA = .done → (φ F).statusB = .done →
      ((s.writeSum t F).foos F).output = BitVec.ofNat 32 (fibValue (inputOf n F)) := by
    intro hi ha hb
    rw [← h.sum_outputs hi ha hb]
    simp [State.writeSum]
  have hm : (φ F).Move t .ret p' := by
    rcases hl with ⟨rfl, hp, rfl⟩ | ⟨rfl, hp, rfl⟩ <;> rw [hp]
    · exact .normal (by simp) rfl
    · exact .alone (by simp) (by simp +contextual) (by simp) (by constructor <;> simp [Phase.fork])
  rcases hl with ⟨rfl, hp, rfl⟩ | ⟨rfl, hp, rfl⟩
  all_goals
    rw [hp] at hn hm
    refine h.quiet hpc hp (by simp [State.writeSum]) ho hm rfl
      (fun hu => h.locks.same (t := t) rfl hu (by simp [hpc, State.writeSum])) rfl rfl (by simp) ?_
    · refine hn.next (by simp) (by simp) hin ?_ ?_ (by simp) ?_
      · intro _
        exact hout (by simp [hp]) (by simp [hp]) (by simp [hp])
      · simp [State.writeSum, hn.tally]
      · simpa [Phase.SeedOk, State.writeSum] using hn.seed

/-- Behind `fib(&b)`: `f->output = a.output + b.output`. -/
theorem Follows.sum (h : Follows n s φ ρ q) (hpc : s.pc t = .fib F .sum)
    (hs : fibStep s t F .sum = some s') : Inv n s' := by
  obtain rfl := Option.some.inj hs
  exact h.writeSum hpc (.inl ⟨rfl, h.place hpc (by simp), rfl⟩)

/-- `AllReturned`: `f->output = a.output + b.output`. -/
theorem Follows.allReturned (h : Follows n s φ ρ q) (hpc : s.pc t = .fib F .allReturned)
    (hs : fibStep s t F .allReturned = some s') : Inv n s' := by
  obtain rfl := Option.some.inj hs
  exact h.writeSum hpc (.inr ⟨rfl, h.place hpc (by simp), rfl⟩)

/-- `FirstChildDone`: `seedStackUnlock(ptid)`. -/
theorem Follows.firstChildDone (h : Follows n s φ ρ q) (hpc : s.pc t = .fib F .firstChildDone)
    (hs : fibStep s t F .firstChildDone = some s') : Inv n s' := by
  simp only [fibStep, h.locks.seedStackUnlock (t := t) (x := (s.frames F).ptid) (by simp [hpc]),
    Option.some.injEq] at hs
  subst hs
  obtain ⟨y, hp⟩ : ∃ y, φ F = .both (.code t .firstChildDone) y := h.place hpc (by simp)
  have hn := h.nodes F
  rw [hp] at hn
  refine h.quiet hpc hp (k := .firstDecrement) (by simp) ?_ (h.move_first hpc hp (by simp) rfl) rfl
    (fun hu => h.locks.release rfl hu (by simp [hpc]) (by simp)) rfl rfl rfl ?_
  · constructor <;> simp +contextual
  · refine hn.next (by simp) hn.valid (by simp) (by simp) ?_ hn.frame hn.seed.first
    simp [hn.tally]

/-! ### The steps of the second strand -/

/-- A pthread in the second strand of a frame is not in the first. -/
theorem Follows.not_first {x : First P} {y : Second P} (h : Follows n s φ ρ q)
    (hp : φ F = .both x y) (hy : y.At t l) (m : FibPC) :
    ¬ x.At t m := by
  intro hx
  cases x with
  | running | done => exact hx
  | code u i =>
    obtain ⟨rfl, rfl⟩ := hx
    have hm : (s.pc t).token = some (.fib F m) := by
      refine (h.control.token t (.fib F m)).mp ?_
      rw [HasToken, hp]
      exact .inl ⟨rfl, rfl⟩
    exact h.not_second (PC.eq_fib_of_token hm) hp l hy

/-- A frame whose first strand may run beside a thief before its unlock. -/
theorem First.Valid.steal {x : First P} {y z : Second P} (h : x.Valid y) (hy : y ≠ .seed)
    (hpast : ¬ y.Past) : x.Valid z ∧ x.decrements = 0 := by
  cases x with
  | code t l => cases l <;> simp_all
  | running => simp
  | done => exact absurd h.1 hpast

/-- A thief moves in the second strand. -/
theorem Follows.move_steal {x : First P} (h : Follows n s φ ρ q)
    (hp : φ F = .both x (.steal t l)) (hk : k ≠ .suspendStub) :
    (Phase.both x (.steal t l)).Move t k (.both x (.steal t k)) where
  shape := .second rfl rfl
  others u m hu := by simp [hu]
  self m := by
    rw [Phase.At, or_iff_right (h.not_first hp ⟨rfl, rfl⟩ m)]
    simp [hk]

/-- `SecondChildSteal`: `firstChildReturnAdr = &&FirstChildDone`. -/
theorem Follows.secondChildSteal (h : Follows n s φ ρ q)
    (hpc : s.pc t = .fib F .secondChildSteal)
    (hs : fibStep s t F .secondChildSteal = some s') : Inv n s' := by
  obtain rfl := Option.some.inj hs
  obtain ⟨x, hp⟩ : ∃ x, φ F = .both x (.steal t .secondChildSteal) := h.place hpc (by simp)
  have hn := h.nodes F
  rw [hp] at hn
  refine h.quiet hpc hp (k := .setSyncCounter) (by simp) ?_ (h.move_steal hp (by simp)) (by simp)
    (fun hu => h.locks.same (t := t) rfl hu (by simp [hpc])) rfl rfl (by simp) ?_
  · constructor <;> simp +contextual
  · refine hn.next (by simp) ⟨(hn.valid.1.steal (by simp) (by simp)).1, trivial⟩ (by simp)
      (by simp) ?_ (by simp) ?_
    · simp [hn.tally]
    · simpa [Phase.SeedOk] using hn.seed

/-- `syncCounter = 2`. -/
theorem Follows.setSyncCounter (h : Follows n s φ ρ q) (hpc : s.pc t = .fib F .setSyncCounter)
    (hs : fibStep s t F .setSyncCounter = some s') : Inv n s' := by
  obtain rfl := Option.some.inj hs
  obtain ⟨x, hp⟩ : ∃ x, φ F = .both x (.steal t .setSyncCounter) := h.place hpc (by simp)
  have hn := h.nodes F
  rw [hp] at hn
  obtain ⟨hx, hdec⟩ := hn.valid.1.steal (z := .steal t .stackletForkStub) (by simp) (by simp)
  refine h.quiet hpc hp (k := .stackletForkStub) (by simp) ?_ (h.move_steal hp (by simp)) (by simp)
    (fun hu => h.locks.same (t := t) rfl hu (by simp [hpc])) rfl rfl (by simp) ?_
  · constructor <;> simp +contextual
  · refine hn.next (by simp) ⟨hx, trivial⟩ (by simp) (by simp) ?_ ?_ ?_
    · simp [hn.tally]
    · rw [Phase.FrameOk, hdec]
      simpa using hn.frame.1
    · simpa [Phase.SeedOk] using hn.seed

/-! ### The join -/

/-- The first of the two decrements suspends. -/
theorem State.decrement_of_two (hc : (s.frames F).syncCounter = 2) :
    s.decrement t F = ((s.setFrame F fun f => { f with syncCounter := 1 }).count F
      fun c => { c with decrements := c.decrements + 1 }).goto t (.fib F .suspendStub) := by
  simp [State.decrement, hc]

/-- The second of the two decrements goes on at `AllReturned`. -/
theorem State.decrement_of_one (hc : (s.frames F).syncCounter = 1) :
    s.decrement t F = ((s.setFrame F fun f => { f with syncCounter := 0 }).count F
      fun c => { c with decrements := c.decrements + 1, joins := c.joins + 1 }).goto t
        (.fib F .allReturned) := by
  simp [State.decrement, hc]

/-- The strand that comes first to the join suspends. -/
theorem Follows.park {x z : First P} {y w : Second P} (h : Follows n s φ ρ q)
    (hpc : s.pc t = .fib F l) (hp : φ F = .both x y)
    (hl : l = .firstDecrement ∨ l = .secondChildDone)
    (hcount : (s.frames F).syncCounter = 2)
    (hm : (Phase.both x y).Move t .suspendStub (.both z w)) (hval : (Phase.both z w).Valid)
    (hy : y ≠ .seed) (hw : w ≠ .seed)
    (hadr : w.returnAdr = y.returnAdr)
    (hdec : z.decrements + w.decrements = 1) (hdec₀ : x.decrements + y.decrements = 0)
    (hpass : z.passes = x.passes) (hsteals : w.steals = y.steals) : Inv n (s.decrement t F) := by
  have hn := h.nodes F
  rw [hp] at hn
  rw [State.decrement_of_two hcount]
  refine h.quiet hpc hp (by simp) ?_ hm (by simp) ?_ rfl rfl ?_ ?_
  · constructor <;> simp +contextual
  -- no lock is held at either label
  · intro hu
    refine h.locks.same (t := t) rfl hu ?_
    rw [hpc]
    rcases hl with rfl | rfl <;> simp
  · exact (Second.linkedIn_eq_none hw _).trans (Second.linkedIn_eq_none hy _).symm
  · refine hn.next (by simp) hval (by simp) (by simp) ?_ ?_ ?_
    · simp only [State.goto, State.count, State.setFrame, update_self, hn.tally,
        Phase.tally, hpass, hsteals, hdec, hdec₀]
    · refine ⟨?_, fun _ => ?_⟩
      · simp only [State.goto, State.count, State.setFrame, update_self, hadr]
        exact hn.frame.1
      · rw [hdec]
        simp
    · refine ⟨by simp, ?_, fun _ => hn.seed.2.2 hy⟩
      intro i j hij
      rw [Phase.linkedIn, Second.linkedIn_eq_none hw] at hij
      cases hij

/-- The strand that comes last to the join goes on at `AllReturned`. -/
theorem Follows.join {x : First P} {y : Second P} (h : Follows n s φ ρ q)
    (hpc : s.pc t = .fib F l) (hp : φ F = .both x y)
    (hl : l = .firstDecrement ∧ x = .code t l ∧ y = .done ∨
      l = .secondChildDone ∧ x = .done ∧ y = .dec t) : Inv n (s.decrement t F) := by
  have hn := h.nodes F
  rw [hp] at hn
  have hcount : (s.frames F).syncCounter = 1 := by
    rcases hl with ⟨rfl, rfl, rfl⟩ | ⟨rfl, rfl, rfl⟩ <;> exact hn.frame.2 trivial
  rw [State.decrement_of_one hcount]
  have hm : (Phase.both x y).Move t .allReturned (.joined t .allReturned) := by
    rcases hl with ⟨rfl, rfl, rfl⟩ | ⟨rfl, rfl, rfl⟩ <;>
      exact .alone (by simp) (by simp +contextual) (by simp) (by constructor <;> simp [Phase.fork])
  rcases hl with ⟨rfl, rfl, rfl⟩ | ⟨rfl, rfl, rfl⟩
  all_goals
    refine h.quiet hpc hp (by simp) ?_ hm (by simp)
      (fun hu => h.locks.same (t := t) rfl hu (by simp [hpc])) rfl rfl (by simp) ?_
    · constructor <;> simp +contextual
    · refine hn.next (by simp) (by simp) (by simp) (by simp) ?_ (by simp) ?_
      · simp [hn.tally]
      · simpa [Phase.SeedOk] using hn.seed

/-- `__sync_sub_and_fetch(&syncCounter, 1)` behind `FirstChildDone`. -/
theorem Follows.firstDecrement (h : Follows n s φ ρ q) (hpc : s.pc t = .fib F .firstDecrement)
    (hs : fibStep s t F .firstDecrement = some s') : Inv n s' := by
  obtain rfl := Option.some.inj hs
  obtain ⟨y, hp⟩ : ∃ y, φ F = .both (.code t .firstDecrement) y := h.place hpc (by simp)
  have hn := h.nodes F
  rw [hp] at hn
  have hpast : y.Past := hn.valid.1
  by_cases hy : y = .done
  · exact h.join hpc hp (.inl ⟨rfl, rfl, hy⟩)
  · have hdec := Second.decrements_eq_zero hy
    have hseed : y ≠ .seed := by
      rintro rfl
      exact hpast
    have hm : (Phase.both (.code t .firstDecrement) y).Move t .suspendStub (.both .done y) :=
      ⟨.first rfl, fun u m hu => by simp [hu], fun m => by simpa using h.not_second hpc hp m⟩
    refine h.park hpc hp (.inl rfl) ?_ hm ⟨⟨hpast, hy⟩, hn.valid.2⟩ hseed hseed rfl ?_ ?_ rfl rfl
    · rw [hn.frame.2 hpast.counted, hdec]
      rfl
    · rw [hdec]
      rfl
    · rw [hdec]
      rfl

/-- `SecondChildDone`: `__sync_sub_and_fetch(&syncCounter, 1)`. -/
theorem Follows.secondChildDone (h : Follows n s φ ρ q) (hpc : s.pc t = .fib F .secondChildDone)
    (hs : fibStep s t F .secondChildDone = some s') : Inv n s' := by
  obtain rfl := Option.some.inj hs
  obtain ⟨x, hp⟩ : ∃ x, φ F = .both x (.dec t) := h.place hpc (by simp)
  have hn := h.nodes F
  rw [hp] at hn
  by_cases hx : x = .done
  · exact h.join hpc hp (.inr ⟨rfl, hx, rfl⟩)
  · have hdec := First.decrements_eq_zero hx
    have hm : (Phase.both x (.dec t)).Move t .suspendStub (.both x .done) :=
      ⟨.second rfl rfl, fun u m hu => by simp [hu],
        fun m => by simpa using h.not_first hp ⟨rfl, rfl⟩ m⟩
    refine h.park hpc hp (.inr rfl) ?_ hm ⟨hn.valid.1.done hx, trivial⟩ (by simp) (by simp) rfl
      ?_ ?_ rfl rfl
    · rw [hn.frame.2 trivial, hdec]
      rfl
    · rw [hdec]
      rfl
    · rw [hdec]
      rfl

end

end Stacklets.LazyFork

import Stacklets.LazyYield.Steps

/-!
# `Stacklets.LazyYield.Calls`: calls and stack switches keep the invariant

`fib` calls its children on its own stack, or a thief of the seed calls the second one on a new
stacklet (`Inv.stacks_push`). `yield` puts the caller into the ready queue. `suspend` takes a seed
or a thread, and `stubRoutine` frees a stacklet. `Inv.step` collects all steps: each keeps the
invariant and leaves less to do.
-/

set_option autoImplicit false

namespace Stacklets.LazyYield

open Function (update update_self update_of_ne)
open Lib
open LazyFork (FooPtr Foo Status aboveFrame inputOf fibValue InTree)

section
variable {n : Int} {s s' : State} {φ φ' : FooPtr → Phase} {F G : FooPtr} {p q a b : Phase}

/-! ### `yield` -/

theorem Inv.yield {asked : Nat} (h : Inv n s φ) (hpc : s.pc = .start F)
    (hinput : ¬(s.foos F).input ≤ 2) :
    Inv n ({ s with asked }.yield F) (reshape φ F .yielded .idle .idle) := by
  obtain ⟨-, hat, hF, hstub⟩ := h.at_start hpc
  obtain ⟨ha, hb⟩ := h.kids_idle (Or.inl hF)
  have hnode := h.nodes F
  have hframe : ({ s with asked }.yield F).frames F =
      { s.frames F with yieldStubBase := s.stubBase } := update_self ..
  have hframes : ∀ G, G ≠ F → ({ s with asked }.yield F).frames G = s.frames G := fun G hG =>
    update_of_ne hG ..
  have hs : SameOff F s ({ s with asked }.yield F) :=
    { foos := fun _ _ => rfl
      input := rfl
      frames := fun G hG => hframes G hG.1
      link := by
        rw [hframe]
        exact ⟨rfl, rfl⟩
      data := fun _ _ => rfl
      stubs := fun _ _ => rfl
      forks := fun _ _ => ⟨rfl, rfl⟩ }
  have hlive : (φ F).Live := by simp [hF]
  have hnode' : NodeOk n ({ s with asked }.yield F) (reshape φ F .yielded .idle .idle) F :=
    { fits := by simp
      tree := fun _ => hnode.tree (by simp [hF])
      input := fun _ => hnode.input (by simp [hF])
      big := fun _ => by
        rw [← hnode.input (by simp [hF])]
        omega
      children := by simp
      output := by simp
      frame := by
        rw [reshape_self, hframe]
        exact hstub
      seed := by simp
      linkA := by simp
      linkB := by simp
      stub := by simp
      onStacklet := by simp
      offStacklet := fun _ => hnode.offStacklet (by simp [hF])
      unforked := fun _ => hnode.unforked hb }
  have hhome : ∀ G, (({ s with asked }.yield F).frames G).home = (s.frames G).home := by
    intro G
    by_cases hG : G = F
    · rw [hG, hframe]
    · rw [hframes G hG]
  have hqueues : QueuesOk ({ s with asked }.yield F) (reshape φ F .yielded .idle .idle) := by
    obtain ⟨l, hl, hmem⟩ := h.queues.seeds
    obtain ⟨r, hr, hnodup, hrmem⟩ := h.queues.ready
    -- A node is queued at most once: `F` was running, so its record is not in the queue yet.
    have hnot : F ∉ r := fun hin => by
      have := (hrmem F).mp hin
      rw [hF] at this
      cases this
    refine ⟨⟨l, hl, mem_reshape hmem (fun _ _ => Iff.rfl) (by simp [hmem, hF]) (by simp [ha])
      (by simp [hb])⟩, ⟨r ++ [F], ?_, ?_, mem_reshape hrmem (fun G hG => by simp [hG]) (by simp)
      (by simp [ha]) (by simp [hb])⟩⟩
    · rw [List.map_append]
      exact hr.enq
    · rw [List.nodup_append]
      refine ⟨hnodup, List.nodup_singleton F, ?_⟩
      rintro x hx y hy rfl
      exact hnot (List.mem_singleton.mp hy ▸ hx)
  exact h.change hs (hlive.alike (Or.inl trivial)) hnode'
    ((h.nodes _).child (Or.inl rfl) hs (reshape_a.trans ha.symm) rfl (hframes _ (ne_a F).symm) rfl)
    ((h.nodes _).child (Or.inr rfl) hs (reshape_b.trans hb.symm) rfl (hframes _ (ne_b F).symm) rfl)
    (h.control.change hat nofun nofun nofun nofun trivial)
    (h.stacks_keep rfl hhome (iff_of_true trivial hlive) (Or.inl ha.symm) (Or.inl hb.symm) nofun
      nofun) hqueues

/-! ### Calls -/

/-- A new frame for the child `c`, on the stack of `F` or on a new one. -/
theorem Inv.stacks_push {c : FooPtr} {R : Stack} (h : Inv n s φ) (hc : c = .a F ∨ c = .b F)
    (hstack : s'.stackOf = update s.stackOf R (c :: s.stackOf R))
    (hhome : ∀ G, G ≠ c → (s'.frames G).home = (s.frames G).home) (hR : (s'.frames c).home = R)
    (hlive : (φ F).Live) (hlive' : p.Live) (hidle : φ c = .idle)
    (hphase : reshape φ F p a b c = .entered) (hdead : ∀ y, Above φ y F → (φ y).Live →
      Above (reshape φ F p a b) y F)
    (ha : .a F ≠ c → (φ (.a F)).Kid a) (hb : .b F ≠ c → (φ (.b F)).Kid b)
    (htop : ∀ y, (s.stackOf R).head? = some y → Above (reshape φ F p a b) c y) :
    StacksOk s' (reshape φ F p a b) := by
  have hold : ¬(φ c).Live := by simp [hidle]
  have hkid : ∀ d, d = .a F ∨ d = .b F → d ≠ c → (φ d).Kid (reshape φ F p a b d) := by
    rintro d (rfl | rfl) hd
    · rw [reshape_a]
      exact ha hd
    · rw [reshape_b]
      exact hb hd
  have hnew : ∀ d, d = .a F ∨ d = .b F →
      ((reshape φ F p a b d).Live ↔ (φ d).Live ∨ d = c) := by
    intro d hd
    by_cases hdc : d = c
    · rw [hdc, hphase]
      simp
    · rw [(hkid d hd hdc).same.1]
      simp [hdc]
  unfold StacksOk
  rw [hstack]
  refine FrameStacks.push h.stacksOk htop (fun y z hy hz hyz => ?_) hold ?_ (fun G hG => hhome G ?_)
    hR
  · -- The caller of a live frame is live too, so it is not `c`.
    by_cases hzF : z = F
    · subst hzF
      exact hdead y hyz hy
    by_cases hz' : z = .a F ∨ z = .b F
    · have hzc : z ≠ c := by
        rintro rfl
        exact hold hz
      rcases hkid z hz' hzc with hsame | ⟨hwritten, _⟩
      · unfold Above at hyz ⊢
        rwa [hsame]
      · exact absurd hy ((h.nodes z).dead_of_written hwritten (hyz.imp And.left And.left))
    · have hoff : Off F z := ⟨hzF, fun hza => hz' (Or.inl hza), fun hzb => hz' (Or.inr hzb)⟩
      unfold Above at hyz ⊢
      rwa [reshape_off hoff]
  · refine forall_of_off (F := F) ?_ (hnew _ (Or.inl rfl)) (hnew _ (Or.inr rfl)) fun G hG => ?_
    · rw [reshape_self]
      exact iff_of_true hlive' (Or.inl hlive)
    · have hGc : G ≠ c := by
        rcases hc with rfl | rfl
        · exact hG.2.1
        · exact hG.2.2
      rw [reshape_off hG]
      simp [hGc]
  · rintro rfl
    exact hold hG

/-- The invariant reads only some parts of the state. -/
theorem Inv.same (h : Inv n s φ) (hfoos : s'.foos = s.foos) (hframes : s'.frames = s.frames)
    (hstack : s'.stackOf = s.stackOf) (hstubs : s'.stubs = s.stubs) (hseeds : s'.seeds = s.seeds)
    (hhead : s'.seedHead = s.seedHead) (hready : s'.readyQ = s.readyQ)
    (hforks : s'.forks = s.forks ∧ s'.frees = s.frees) (hcontrol : ControlOk s' φ) :
    Inv n s' φ where
  nodes F := (h.nodes F).congr rfl (.refl _) (.refl _) (by rw [hfoos]) (by rw [hframes])
    (by rw [hseeds]) (by rw [hfoos]; exact ⟨rfl, rfl⟩) (by rw [hframes]; exact ⟨rfl, rfl⟩)
    (by rw [hframes]; exact ⟨rfl, rfl⟩) (by rw [hstubs])
    (by rw [hforks.1, hforks.2]; exact ⟨rfl, rfl⟩)
  control := hcontrol
  stacksOk := by
    unfold StacksOk
    rw [hstack, hframes]
    exact h.stacksOk
  queues := by
    obtain ⟨hs, hr⟩ := h.queues
    refine ⟨?_, ?_⟩
    · rw [hseeds, hhead]
      exact hs
    · rw [hready]
      exact hr
  root := h.root
  link := by
    rw [hframes]
    exact h.link
  stacklets := by
    rw [hforks.1, hforks.2]
    exact h.stacklets

/-- A call stores into the frame of the child only. -/
theorem SameOff.call {c : FooPtr} {ra : ReturnAdr} (hs : SameOff F s s')
    (hc : c = .a F ∨ c = .b F) : SameOff F s (s'.call F c ra) where
  foos := hs.foos
  input := hs.input
  frames G hG := by
    have hne : G ≠ c := by
      rintro rfl
      rcases hc with hc | hc
      · exact hG.2.1 hc
      · exact hG.2.2 hc
    exact (update_of_ne hne ..).trans (hs.frames G hG)
  link := by
    have hne : F ≠ c := by rcases hc with rfl | rfl <;> first | exact ne_a F | exact ne_b F
    have hframe : (s'.call F c ra).frames F = s'.frames F := update_of_ne hne ..
    rw [hframe]
    exact hs.link
  data := hs.data
  stubs := hs.stubs
  forks := hs.forks

/-- A call of the child `c` from the topmost frame `F`. The state `s'` is the one right before the
call, in which `F` has already done its stores. -/
theorem Inv.call {c : FooPtr} {ra : ReturnAdr} (h : Inv n s φ) (hs : SameOff F s s')
    (hat : s.At F) (hc : c = .a F ∨ c = .b F) (hframes : ∀ G, G ≠ F → s'.frames G = s.frames G)
    (hstack : s'.stackOf = s.stackOf) (hstub : s'.stubBase = (s.frames F).home)
    (hlive : (φ F).Live) (hidle : φ c = .idle) (hbig : 2 < inputOf n F)
    (hinput : (s'.foos c).input = inputOf n c) (hA : ¬(φ (.a F)).Live) (hB : ¬(φ (.b F)).Live)
    (hphase : reshape φ F p a b c = .entered) (hlive' : p.Live) (hctrl : ¬p.Control)
    (ha : .a F ≠ c → (φ (.a F)).Kid a ∧ ¬a.Control ∧
      NodeOk n (s'.call F c ra) (reshape φ F p a b) (.a F))
    (hb : .b F ≠ c → (φ (.b F)).Kid b ∧ ¬b.Control ∧
      NodeOk n (s'.call F c ra) (reshape φ F p a b) (.b F))
    (habove : Above (reshape φ F p a b) c F)
    (hF : NodeOk n (s'.call F c ra) (reshape φ F p a b) F)
    (hqueues : QueuesOk (s'.call F c ra) (reshape φ F p a b)) :
    Inv n (s'.call F c ra) (reshape φ F p a b) := by
  have hframe : (s'.call F c ra).frames c = .fresh ra (s'.frames F).home :=
    update_self ..
  have hframes' : ∀ G, G ≠ c → (s'.call F c ra).frames G = s'.frames G := fun G hG =>
    update_of_ne hG ..
  have hs' : SameOff F s (s'.call F c ra) := hs.call hc
  have hhome : ∀ G, G ≠ c → ((s'.call F c ra).frames G).home = (s.frames G).home := by
    intro G hG
    rw [hframes' G hG]
    by_cases hGF : G = F
    · rw [hGF, hs.link.2]
    · rw [hframes G hGF]
  obtain ⟨rest, hrest, _⟩ := h.top hlive hA hB
  -- `F` is the top of its stack, so the new frame goes on it and overwrites no live frame.
  have hstack' : (s'.call F c ra).stackOf =
      update s.stackOf (s.frames F).home (c :: s.stackOf (s.frames F).home) := by
    show update s'.stackOf (s'.frames F).home
      (c :: aboveFrame F (s'.stackOf (s'.frames F).home)) = _
    rw [hs.link.2, hstack, hrest, aboveFrame_cons]
  have htree : InTree n c := by
    have hnot : φ F ≠ .idle := by
      intro he
      rw [he] at hlive
      exact hlive
    rcases hc with rfl | rfl
    · exact .a ((h.nodes F).tree hnot) hbig
    · exact .b ((h.nodes F).tree hnot) hbig
  have hholder : (s'.call F c ra).holder = some (c, .entered) := rfl
  have hchild : NodeOk n (s'.call F c ra) (reshape φ F p a b) c :=
    (h.nodes c).fresh hc hs' hidle (Or.inr ⟨hphase, htree, hinput⟩)
  have hnodes : ∀ d, d = .a F ∨ d = .b F → NodeOk n (s'.call F c ra) (reshape φ F p a b) d := by
    intro d hd
    by_cases hdc : d = c
    · exact hdc ▸ hchild
    · rcases hd with rfl | rfl
      · exact (ha hdc).2.2
      · exact (hb hdc).2.2
  have hcontrol : ControlOk (s'.call F c ra) (reshape φ F p a b) := by
    -- Of the three nodes touched only `c` can hold the control afterwards.
    have hkid : ∀ d q, (d ≠ c → ¬q.Control) → reshape φ F p a b d = q → q.Control →
        (s'.call F c ra).holder = some (d, q) := by
      intro d q hd hq hcon
      by_cases hdc : d = c
      · rw [hholder, hdc, ← hq, hdc, hphase]
      · exact absurd hcon (hd hdc)
    refine h.control.change hat (fun hcon => absurd hcon hctrl)
      (hkid _ _ (fun hd => (ha hd).2.1) reshape_a) (hkid _ _ (fun hd => (hb hd).2.1) reshape_b)
      (fun G q hG => ?_) ?_
    · rw [hholder] at hG
      cases hG
      exact hphase
    · show s'.stubBase = ((s'.call F c ra).frames c).home
      rw [hframe, hstub]
      exact hs.link.2.symm
  have hstacks : StacksOk (s'.call F c ra) (reshape φ F p a b) := by
    refine h.stacks_push hc hstack' hhome ?_ hlive hlive' hidle hphase (fun y hy hyl => ?_)
      (fun hd => (ha hd).1) (fun hd => (hb hd).1) fun y hy => ?_
    · rw [hframe]
      exact hs.link.2
    · rcases hy with ⟨rfl, _⟩ | ⟨rfl, _⟩
      · exact absurd hyl hA
      · exact absurd hyl hB
    · rw [hrest] at hy
      cases hy
      exact habove
  exact h.change hs' (hlive.alike (Or.inl hlive')) hF (hnodes _ (Or.inl rfl))
    (hnodes _ (Or.inr rfl)) hcontrol hstacks hqueues

/-- From the `calloc`s to the call `fib(a)`. -/
theorem Inv.fork (h : Inv n s φ) (hholder : s.holder = some (F, φ F))
    (hF : φ F = .entered ∨ φ F = .resumed) (hstub : s.stubBase = (s.frames F).home)
    (hbig : 2 < inputOf n F) : Inv n (s.fork F) (reshape φ F .first .entered .idle) := by
  obtain ⟨ha, hb⟩ := h.kids_idle hF
  have hnode := h.nodes F
  have hnot : φ F ≠ .idle := by rcases hF with hF | hF <;> simp [hF]
  have hlive : (φ F).Live := by rcases hF with hF | hF <;> simp [hF]
  have hnotfirst : φ F ≠ .first ∧ φ F ≠ .yielded := by rcases hF with hF | hF <;> simp [hF]
  have hprep : (s.prepare F).foos = update
      (update s.foos (.a F) ⟨(s.foos F).input - 1, 0⟩) (.b F)
      ⟨(s.foos F).input - 2, 0⟩ := rfl
  have hfoos : ∀ G, G ≠ .a F → G ≠ .b F → (s.prepare F).foos G = s.foos G := fun G hGa hGb => by
    rw [hprep, update_of_ne hGb, update_of_ne hGa]
  have hfooA : ((s.prepare F).foos (.a F)).input = (s.foos F).input - 1 := by
    have hne : FooPtr.a F ≠ .b F := nofun
    rw [hprep, update_of_ne hne, update_self]
  have hfooB : ((s.prepare F).foos (.b F)).input = (s.foos F).input - 2 := by
    rw [hprep, update_self]
  have hframe : (s.prepare F).frames F =
      { s.frames F with
        syncCounter := 0, firstChildReturnAdr := some .firstChildDoneNormally,
        localStubBase := s.stubBase } := update_self ..
  have hframes : ∀ G, G ≠ F → (s.prepare F).frames G = s.frames G := fun G hG =>
    update_of_ne hG ..
  have hdata : ∀ G, ((s.prepare F).seeds G).data =
      (update s.seeds F (initSeed .secondChildSteal (.fib F)) G).data := fun G =>
    data_pushSeed G
  -- the stores in front of the call stay with `F` and its children
  have hs : SameOff F s (s.prepare F) :=
    { foos := fun G hG => hfoos G hG.2.1 hG.2.2
      input := by rw [hfoos F (ne_a F) (ne_b F)]
      frames := fun G hG => hframes G hG.1
      link := by
        rw [hframe]
        exact ⟨rfl, rfl⟩
      data := fun G hG => by rw [hdata G, update_of_ne hG.1]
      stubs := fun _ _ => rfl
      forks := fun _ _ => ⟨rfl, rfl⟩ }
  have hinputA : ((s.prepare F).foos (.a F)).input = inputOf n (.a F) := by
    rw [hfooA, hnode.input hnot]
    rfl
  have hinputB : ((s.prepare F).foos (.b F)).input = inputOf n (.b F) := by
    rw [hfooB, hnode.input hnot]
    rfl
  have hcalled : ((s.prepare F).call F (.a F) (.afterA F)).frames (.a F) =
      .fresh (.afterA F) ((s.prepare F).frames F).home := update_self ..
  have hcaller : ((s.prepare F).call F (.a F) (.afterA F)).frames F = (s.prepare F).frames F :=
    update_of_ne (ne_a F) ..
  have hs' : SameOff F s ((s.prepare F).call F (.a F) (.afterA F)) := hs.call (Or.inl rfl)
  have hnode' : NodeOk n (s.fork F) (reshape φ F .first .entered .idle) F :=
    { fits := by simp
      tree := fun _ => hnode.tree hnot
      input := fun _ => hs.input.trans (hnode.input hnot)
      big := fun _ => hbig
      children := fun _ => ⟨hinputA, hinputB⟩
      output := by simp
      frame := by
        rw [reshape_self, State.fork, hcaller, hframe]
        exact ⟨rfl, hstub⟩
      seed := fun _ => by
        show ((s.prepare F).seeds F).data = _
        rw [hdata F, update_self]
        rfl
      linkA := fun _ => by
        rw [State.fork, hcalled, hcaller]
        exact ⟨rfl, rfl⟩
      linkB := by simp
      stub := by simp
      onStacklet := by simp
      offStacklet := fun _ => hnode.offStacklet (by rcases hF with hF | hF <;> simp [hF])
      unforked := fun _ => hnode.unforked hb }
  have hqueues : QueuesOk (s.fork F) (reshape φ F .first .entered .idle) := by
    obtain ⟨l, hl, hmem⟩ := h.queues.seeds
    obtain ⟨r, hr, hnodup, hrmem⟩ := h.queues.ready
    -- the new seed goes on top of the stack, and was not linked
    have hnotin : F ∉ l := fun hin => hnotfirst.1 ((hmem F).mp hin)
    have hfresh : SeedStackIs (update s.seeds F (initSeed .secondChildSteal (.fib F)))
        s.seedHead l := by
      have hother : ∀ y ∈ l,
          update s.seeds F (initSeed .secondChildSteal (.fib F)) y = s.seeds y := by
        intro y hy
        have hyF : y ≠ F := fun he => hnotin (he ▸ hy)
        rw [update_of_ne hyF]
      exact IsDList.congr hl (fun y hy => by rw [hother y hy]) fun y hy => by rw [hother y hy]
    exact ⟨⟨l ++ [F], hfresh.push hnotin, mem_reshape hmem (fun G hG => by simp [hG]) (by simp)
      (by simp [ha]) (by simp [hb])⟩, ⟨r, hr, hnodup, mem_reshape hrmem (fun _ _ => Iff.rfl)
      (by simp [hrmem, hnotfirst.2]) (by simp [ha]) (by simp [hb])⟩⟩
  refine h.call hs (at_of_holder hholder (Or.inl rfl)) (Or.inl rfl) hframes rfl hstub hlive ha hbig
    hinputA (by simp [ha]) (by simp [hb]) reshape_a trivial id (fun hne => absurd rfl hne)
    (fun _ => ⟨Or.inl hb.symm, id, ?_⟩) (Or.inl ⟨rfl, reshape_self ▸ trivial⟩) hnode' hqueues
  exact (h.nodes _).fresh (Or.inr rfl) hs' hb (Or.inl reshape_b)

/-- `resume` takes the stub base of the frame up again and forks. -/
theorem Inv.resume (h : Inv n s φ) (hpc : s.pc = .resume F) :
    φ F = .resumed ∧ (s.frames F).yieldStubBase = (s.frames F).home ∧
      Inv n ({ s with stubBase := (s.frames F).yieldStubBase }.fork F)
        (reshape φ F .first .entered .idle) := by
  have hholder : s.holder = some (F, .resumed) := by
    unfold State.holder
    rw [hpc]
  have hF := h.control.held F _ hholder
  have hframe := (h.nodes F).frame
  rw [hF] at hframe
  -- the store to the stub base leaves the holder alone
  have hholder' : ({ s with stubBase := (s.frames F).yieldStubBase } : State).holder =
      s.holder := by
    unfold State.holder
    rw [hpc]
  have hsame : Inv n { s with stubBase := (s.frames F).yieldStubBase } φ := by
    refine h.same rfl rfl rfl rfl rfl rfl rfl ⟨rfl, rfl⟩ ⟨?_, ?_, ?_⟩
    · rw [hholder']
      exact h.control.holder
    · rw [hholder']
      exact h.control.held
    · unfold State.PcOk
      rw [hpc]
      trivial
  exact ⟨hF, hframe, hsame.fork (by rw [hholder', hholder, hF]) (Or.inr hF) hframe
    ((h.nodes F).big (by simp [hF]))⟩

/-- Behind `fib(a)` when the seed is still there: `FirstChildDoneNormally`. -/
theorem Inv.firstChildDoneNormally (h : Inv n s φ) (hpc : s.pc = .afterA F) (hF : φ F = .first) :
    Inv n ((s.popSeed F).call F (.b F) (.afterB F)) (reshape φ F .second .ended .entered) := by
  obtain ⟨-, hat, ha, hstub⟩ := h.at_afterA hpc
  have hnode := h.nodes F
  have hfits := hnode.fits
  rw [hF] at hfits
  have hb : φ (.b F) = .idle := Phase.eq_idle_of_status hfits.2
  -- the owner pops its own seed, which changes links only
  have hs : SameOff F s (s.popSeed F) :=
    { foos := fun _ _ => rfl
      input := rfl
      frames := fun _ _ => rfl
      link := ⟨rfl, rfl⟩
      data := fun G _ => data_popSeed G
      stubs := fun _ _ => rfl
      forks := fun _ _ => ⟨rfl, rfl⟩ }
  have hcalled : ((s.popSeed F).call F (.b F) (.afterB F)).frames (.b F) =
      .fresh (.afterB F) (s.frames F).home := update_self ..
  have hframes : ∀ G, G ≠ .b F → ((s.popSeed F).call F (.b F) (.afterB F)).frames G =
      s.frames G := fun G hG => update_of_ne hG ..
  have hs' : SameOff F s ((s.popSeed F).call F (.b F) (.afterB F)) := hs.call (Or.inr rfl)
  have hnode' : NodeOk n ((s.popSeed F).call F (.b F) (.afterB F))
      (reshape φ F .second .ended .entered) F :=
    { fits := by simp
      tree := fun _ => hnode.tree (by simp [hF])
      input := fun _ => hnode.input (by simp [hF])
      big := fun _ => hnode.big (by simp [hF])
      children := fun _ => hnode.children (by simp [hF])
      output := by simp
      frame := by simp
      seed := by simp
      linkA := by simp
      linkB := fun _ => by
        rw [reshape_self, if_pos rfl, hcalled, hframes F (ne_b F)]
        exact ⟨rfl, rfl⟩
      stub := by simp
      onStacklet := by simp
      offStacklet := fun _ => hnode.offStacklet (by simp [hF])
      unforked := by simp }
  have hqueues : QueuesOk ((s.popSeed F).call F (.b F) (.afterB F))
      (reshape φ F .second .ended .entered) :=
    h.queues.pop hF rfl rfl rfl (by simp) (by simp [ha]) (by simp [hb])
  refine h.call hs hat (Or.inr rfl) (fun _ _ => rfl) rfl
    hstub (by simp [hF]) hb (hnode.big (by simp [hF])) (hnode.children (by simp [hF])).2
    (by simp [ha]) (by simp [hb]) reshape_b trivial id (fun _ => ⟨Or.inr ⟨by simp [ha], trivial⟩,
    id, ?_⟩) (fun hne => absurd rfl hne) (Or.inr ⟨rfl, reshape_self⟩) hnode' hqueues
  exact (h.nodes _).written (Or.inl rfl) hs' (by simp [ha]) (by simp) rfl

/-! ### Stacklets -/

/-- The caller of a call on its way has a frame. -/
theorem Inv.live_caller (h : Inv n s φ) {c : FooPtr} (hc : c = .a F ∨ c = .b F)
    (hactive : (φ c).status = .active) : (φ F).Live := by
  have hfits := (h.nodes F).fits
  rcases hc with rfl | rfl
  · rw [hactive] at hfits
    cases hF : φ F <;> rw [hF] at hfits <;> first | trivial | simp at hfits
  · rw [hactive] at hfits
    cases hF : φ F <;> rw [hF] at hfits <;> first | trivial | simp at hfits

/-- No frame lies on the stacklet of a second child that has no frame itself. The induction is on
the frame, from its stack to that of its caller. -/
theorem Inv.home_ne (h : Inv n s φ) (hdead : ¬(φ (.b G)).Live) :
    ∀ x, (φ x).Live → (s.frames x).home ≠ .stacklet (.b G) := by
  intro x
  induction x with
  | root =>
    intro hlive
    rw [(h.link hlive).2]
    nofun
  | a F ih =>
    intro hlive
    rw [((h.nodes F).linkA hlive).2]
    exact ih (h.live_caller (Or.inl rfl) hlive.status_eq)
  | b F ih =>
    intro hlive
    have hlink := (h.nodes F).linkB hlive
    by_cases hF : φ F = .second
    · rw [if_pos hF] at hlink
      rw [hlink.2]
      exact ih (h.live_caller (Or.inr rfl) hlive.status_eq)
    · rw [if_neg hF] at hlink
      rw [hlink.2]
      intro he
      obtain rfl : F = G := FooPtr.b.inj (Stack.stacklet.inj he)
      exact hdead hlive

/-! #### `SecondChildSteal`, with `stackletFork` -/

theorem secondChildSteal_caller : (s.secondChildSteal F).frames F =
    { s.frames F with firstChildReturnAdr := some .firstChildDone, syncCounter := 2 } :=
  (update_of_ne (ne_b F) ..).trans (update_self ..)

theorem secondChildSteal_callee :
    (s.secondChildSteal F).frames (.b F) = .fresh .stubRoutine (.stacklet (.b F)) :=
  update_self ..

theorem secondChildSteal_frames (hGF : G ≠ F) (hGb : G ≠ .b F) :
    (s.secondChildSteal F).frames G = s.frames G :=
  (update_of_ne hGb ..).trans (update_of_ne hGF ..)

/-- It touches the memory of `F` and of its second child only. -/
theorem SameOff.secondChildSteal : SameOff F s (s.secondChildSteal F) where
  foos _ _ := rfl
  input := rfl
  frames _ hG := secondChildSteal_frames hG.1 hG.2.2
  link := by
    rw [secondChildSteal_caller]
    exact ⟨rfl, rfl⟩
  data _ _ := rfl
  stubs _ hG := update_of_ne hG ..
  forks _ hG := ⟨update_of_ne hG .., rfl⟩

/-- The caller is in phase `stolen` then, with no child counted. -/
theorem NodeOk.secondChildSteal (h : NodeOk n s φ F) (hF : φ F = .taken)
    (hb : φ (.b F) = .idle) :
    NodeOk n (s.secondChildSteal F) (reshape φ F (.stolen false false) (φ (.a F)) .entered) F := by
  have hfits := h.fits
  have hfields := h.frame
  rw [hF] at hfits hfields
  -- `localStubBase` was saved when the first child was called, and is still the stack of `F`;
  -- the stub base of the program at this point is that of the thread that suspended.
  have hbase : ((s.setFrame F fun f =>
      { f with firstChildReturnAdr := some .firstChildDone, syncCounter := 2 }).frames
        F).localStubBase = (s.frames F).home := by
    show (update s.frames F _ F).localStubBase = _
    rw [update_self]
    exact hfields.2
  have hstub : (s.secondChildSteal F).stubs (.b F) =
      ⟨.secondChildDone, .fib F, (s.frames F).home⟩ := by
    rw [← hbase]
    exact update_self ..
  exact
    { fits := by
        rw [reshape_self, reshape_a, reshape_b]
        exact ⟨by simp, hfits.1, rfl⟩
      tree := fun _ => h.tree (by simp [hF])
      input := fun _ => h.input (by simp [hF])
      big := fun _ => h.big (by simp [hF])
      children := fun _ => h.children (by simp [hF])
      output := by simp
      frame := by
        rw [reshape_self, secondChildSteal_caller]
        exact ⟨rfl, hfields.2, rfl⟩
      seed := by simp
      linkA := by
        rw [reshape_a, secondChildSteal_caller, secondChildSteal_frames (ne_a F).symm nofun]
        exact h.linkA
      linkB := fun _ => by
        rw [reshape_self, if_neg nofun, secondChildSteal_callee]
        exact ⟨rfl, rfl⟩
      stub := fun _ _ => by rw [hstub, secondChildSteal_caller]
      onStacklet := fun _ => by
        have hzero := h.unforked hb
        have hforks : (s.secondChildSteal F).forks (.b F) = s.forks (.b F) + 1 :=
          update_self ..
        rw [hforks, hzero]
        exact ⟨rfl, (h.offStacklet (by simp [hF])).1.trans hzero⟩
      offStacklet := by simp
      unforked := by simp }

/-- The callee is the only frame on its stacklet. -/
theorem Inv.stacks_secondChildSteal (h : Inv n s φ) (hF : φ F = .taken) (hb : φ (.b F) = .idle) :
    StacksOk (s.secondChildSteal F)
      (reshape φ F (.stolen false false) (φ (.a F)) .entered) := by
  -- The second child has not been called, so no live frame has its stacklet as home.
  have hempty : s.stackOf (.stacklet (.b F)) = [] := by
    rw [List.eq_nil_iff_forall_not_mem]
    intro x hx
    obtain ⟨hxlive, hxhome⟩ := (h.stacksOk.mem _ x).mp hx
    exact h.home_ne (by simp [hb]) x hxlive hxhome
  refine h.stacks_push (c := .b F) (R := .stacklet (.b F)) (Or.inr rfl) ?_ (fun G hG => ?_) ?_
    (by simp [hF]) trivial hb reshape_b (fun y hy _ => ?_) (fun _ => Or.inl rfl)
    (fun hne => absurd rfl hne) (fun y hy => ?_)
  · rw [hempty]
    rfl
  · by_cases hGF : G = F
    · rw [hGF, secondChildSteal_caller]
    · rw [secondChildSteal_frames hGF hG]
  · rw [secondChildSteal_callee]
    rfl
  · rcases hy with ⟨rfl, _⟩ | ⟨_, hsecond⟩
    · exact Or.inl ⟨rfl, reshape_self ▸ trivial⟩
    · rw [hF] at hsecond
      cases hsecond
  · rw [hempty] at hy
    cases hy

theorem Inv.secondChildSteal (h : Inv n s φ) (hpc : s.pc = .secondChildSteal F) :
    Inv n (s.secondChildSteal F) (reshape φ F (.stolen false false) (φ (.a F)) .entered) := by
  have hholder : s.holder = some (F, .taken) := by
    unfold State.holder
    rw [hpc]
  have hF := h.control.held _ _ hholder
  have hnode := h.nodes F
  have hfits := hnode.fits
  rw [hF] at hfits
  have hb : φ (.b F) = .idle := Phase.eq_idle_of_status hfits.2
  have hlive : (φ F).Live := by simp [hF]
  have haF : ¬(φ (.a F)).Control := fun hc => by
    have := (h.control.holder _ hc).symm.trans hholder
    exact (ne_a F) (Prod.mk.inj (Option.some.inj this)).1.symm
  have htree : InTree n (.b F) := .b (hnode.tree (by simp [hF])) (hnode.big (by simp [hF]))
  refine h.change .secondChildSteal (hlive.alike (Or.inl trivial)) (hnode.secondChildSteal hF hb)
    ((h.nodes _).child (Or.inl rfl) .secondChildSteal reshape_a rfl
      (secondChildSteal_frames (ne_a F).symm nofun) rfl)
    ((h.nodes _).fresh (Or.inr rfl) .secondChildSteal hb
      (Or.inr ⟨reshape_b, htree, (hnode.children (by simp [hF])).2⟩))
    (h.control.change (at_of_holder hholder (Or.inl rfl)) nofun (fun hc => absurd hc haF)
      (fun _ => rfl) (fun G q hG => ?_) ?_) (h.stacks_secondChildSteal hF hb)
    (h.queues.change rfl rfl rfl (by simp [hF]) ⟨Iff.rfl, Iff.rfl⟩ (by simp [hb]))
  · cases hG
    exact reshape_b
  · show Stack.stacklet (.b F) = ((s.secondChildSteal F).frames (.b F)).home
    rw [secondChildSteal_callee]
    rfl

/-! #### `stubRoutine` -/

/-- `stubRoutine` on the stacklet of the second child of `F`. -/
theorem Inv.stubRoutine_at {x : Bool} (h : Inv n s φ) (hpc : s.pc = .stubRoutine)
    (hbase : s.stubBase = .stacklet (.b F)) (hF : φ F = .stolen x false) :
    φ (.b F) = .back ∧
      s.stubRoutine =
        { s with
          stubBase := (s.frames F).home
          frees := update s.frees (.b F) (s.frees (.b F) + 1)
          pc := .secondChildDone F } ∧
      Inv n s.stubRoutine (reshape φ F (.stolen x false) (φ (.a F)) .freed) := by
  have hholder : s.holder = some (.b F, .back) := by
    unfold State.holder
    rw [hpc]
    simp only [hbase]
  have hb := h.control.held _ _ hholder
  have hnode := h.nodes F
  have haF : ¬(φ (.a F)).Control := fun hc => by
    have := (h.control.holder _ hc).symm.trans hholder
    simp at this
  have hstep : s.stubRoutine =
      { s with
        stubBase := (s.frames F).home
        frees := update s.frees (.b F) (s.frees (.b F) + 1)
        pc := .secondChildDone F } := by
    unfold State.stubRoutine
    simp only [hbase, hnode.stub x hF]
    rfl
  have hfrees : s.stubRoutine.frees (.b F) = s.frees (.b F) + 1 := by
    rw [hstep]
    exact update_self ..
  -- One `malloc` and no `free` up to here: the `free` of this step is the first.
  have hon := hnode.onStacklet (by simp [hF, hb])
  have hs : SameOff F s s.stubRoutine := by
    rw [hstep]
    exact {
      foos := fun _ _ => rfl
      input := rfl
      frames := fun _ _ => rfl
      link := ⟨rfl, rfl⟩
      data := fun _ _ => rfl
      stubs := fun _ _ => rfl
      forks := fun G hG => ⟨rfl, update_of_ne hG ..⟩ }
  have hsame : s.stubRoutine.foos = s.foos ∧ s.stubRoutine.frames = s.frames ∧
      s.stubRoutine.seeds = s.seeds ∧ s.stubRoutine.stubs = s.stubs ∧
      s.stubRoutine.forks = s.forks ∧ s.stubRoutine.stackOf = s.stackOf := by
    rw [hstep]
    exact ⟨rfl, rfl, rfl, rfl, rfl, rfl⟩
  obtain ⟨hfoos, hframes, hseeds, hstubs, hforks, hstack⟩ := hsame
  have hfits := hnode.fits
  have hfields := hnode.frame
  rw [hF, hb] at hfits
  rw [hF] at hfields
  have hnode' : NodeOk n s.stubRoutine (reshape φ F (.stolen x false) (φ (.a F)) .freed) F :=
    { fits := by
        rw [reshape_self, reshape_a, reshape_b]
        exact hfits
      tree := fun _ => hnode.tree (by simp [hF])
      input := fun _ => hs.input.trans (hnode.input (by simp [hF]))
      big := fun _ => hnode.big (by simp [hF])
      children := fun _ => by
        rw [hfoos]
        exact hnode.children (by simp [hF])
      output := by simp
      frame := by
        rw [reshape_self, hframes]
        exact hfields
      seed := by simp
      linkA := by
        rw [reshape_a, hframes]
        exact hnode.linkA
      linkB := by simp
      stub := fun _ _ => by
        rw [hstubs, hframes]
        exact hnode.stub x hF
      onStacklet := by simp
      offStacklet := fun _ => by
        rw [hfrees, hforks, hon.1, hon.2]
        exact ⟨rfl, Nat.le_refl 1⟩
      unforked := by simp }
  have hkidB : (φ (.b F)).Kid .freed := Or.inr ⟨by simp [hb], trivial⟩
  have hcontrol : ControlOk s.stubRoutine (reshape φ F (.stolen x false) (φ (.a F)) .freed) := by
    have hholder' : s.stubRoutine.holder = some (.b F, .freed) := by rw [hstep]; rfl
    refine h.control.change (at_of_holder hholder (Or.inr (Or.inr rfl))) nofun
      (fun hc => absurd hc haF) (fun _ => hholder') (fun G q hG => ?_) ?_
    · rw [hholder'] at hG
      cases hG
      exact reshape_b
    · rw [hstep]
      exact ⟨⟨x, reshape_self⟩, rfl⟩
  exact ⟨hb, hstep, h.change hs (by rw [hF]; exact .refl _) hnode'
    ((h.nodes _).child (Or.inl rfl) hs reshape_a (by rw [hfoos]) (by rw [hframes])
      (by rw [hseeds]))
    ((h.nodes _).written (Or.inr rfl) hs (by simp [hb]) (by simp) (by rw [hfoos])) hcontrol
    (h.stacks_keep hstack (fun G => by rw [hframes]) (by simp [hF]) (Or.inl rfl) hkidB
      (fun _ hr => hF ▸ hr) nofun)
    (h.queues.change hseeds (by rw [hstep]) (by rw [hstep]) (by simp [hF]) ⟨Iff.rfl, Iff.rfl⟩
      hkidB.same.2)⟩

/-- `stubRoutine`. -/
theorem Inv.stubRoutine (h : Inv n s φ) (hpc : s.pc = .stubRoutine) :
    ∃ φ', Inv n s.stubRoutine φ' ∧ Lower φ φ' := by
  obtain ⟨F, x, hbase, hF⟩ : ∃ F x, s.stubBase = .stacklet (.b F) ∧ φ F = .stolen x false := by
    have := h.control.pcOk
    unfold State.PcOk at this
    rwa [hpc] at this
  obtain ⟨hb, -, hinv⟩ := h.stubRoutine_at hpc hbase hF
  refine ⟨_, hinv, F, _, _, _, by simp [hF], rfl, ?_⟩
  rw [hF, hb]
  show _ + (φ (.a F)).weight + 1 < _ + (φ (.a F)).weight + 2
  omega

/-! ### `suspend` -/

/-- A node is taken from a queue: its phase changes, and the program is at it. -/
theorem Inv.switch (h : Inv n s φ) (hpc : s.pc = .suspend)
    (hpq : (φ F = .first ∧ q = .taken) ∨ (φ F = .yielded ∧ q = .resumed))
    (hfoos : s'.foos = s.foos) (hframes : s'.frames = s.frames) (hstack : s'.stackOf = s.stackOf)
    (hstubs : s'.stubs = s.stubs) (hdata : ∀ G, (s'.seeds G).data = (s.seeds G).data)
    (hforks : s'.forks = s.forks ∧ s'.frees = s.frees) (hholder : s'.holder = some (F, q))
    (hpcOk : s'.PcOk (reshape φ F q (φ (.a F)) (φ (.b F))))
    (hqueues : QueuesOk s' (reshape φ F q (φ (.a F)) (φ (.b F)))) :
    Inv n s' (reshape φ F q (φ (.a F)) (φ (.b F))) := by
  have hnone : s.holder = none := by
    unfold State.holder
    rw [hpc]
  -- In `suspend` no node holds the control, so only `F` can be the holder afterwards.
  have hidle : ∀ G, ¬(φ G).Control := fun G hc => by
    have := h.control.holder G hc
    rw [hnone] at this
    cases this
  have hlive : (φ F).Live ∧ q.Live := by
    rcases hpq with ⟨hF, rfl⟩ | ⟨hF, rfl⟩ <;> simp [hF]
  have hs : SameOff F s s' :=
    { foos := fun _ _ => by rw [hfoos]
      input := by rw [hfoos]
      frames := fun _ _ => by rw [hframes]
      link := by
        rw [hframes]
        exact ⟨rfl, rfl⟩
      data := fun G _ => hdata G
      stubs := fun _ _ => by rw [hstubs]
      forks := fun _ _ => by
        rw [hforks.1, hforks.2]
        exact ⟨rfl, rfl⟩ }
  have hnode := h.nodes F
  have hfits := hnode.fits
  have hfields := hnode.frame
  have hnode' : NodeOk n s' (reshape φ F q (φ (.a F)) (φ (.b F))) F := by
    rcases hpq with ⟨hF, rfl⟩ | ⟨hF, rfl⟩
    all_goals
      rw [hF] at hfits hfields
      exact {
        fits := by
          rw [reshape_self, reshape_a, reshape_b]
          exact hfits
        tree := fun _ => hnode.tree (by simp [hF])
        input := fun _ => hs.input.trans (hnode.input (by simp [hF]))
        big := fun _ => hnode.big (by simp [hF])
        children := fun hc => by
          rw [reshape_self] at hc
          rw [hfoos]
          refine hnode.children ?_
          rw [hF]
          exact hc
        output := by simp
        frame := by
          rw [reshape_self, hframes]
          exact hfields
        seed := by simp
        linkA := by
          rw [reshape_a, hframes]
          exact hnode.linkA
        linkB := by
          rw [reshape_b, reshape_self, if_neg nofun, hframes]
          intro hl
          have hlink := hnode.linkB hl
          rwa [hF, if_neg nofun] at hlink
        stub := by simp
        onStacklet := by simp
        offStacklet := fun _ => by
          rw [hforks.1, hforks.2]
          exact hnode.offStacklet (by simp [hF])
        unforked := by
          rw [reshape_b, hforks.1]
          exact hnode.unforked }
  have hcontrol : ControlOk s' (reshape φ F q (φ (.a F)) (φ (.b F))) := by
    refine h.control.change (fun G q' hG => ?_) (fun _ => hholder) (fun hc => absurd hc (hidle _))
      (fun hc => absurd hc (hidle _)) (fun G q' hG => ?_) hpcOk
    · rw [hnone] at hG
      cases hG
    · rw [hholder] at hG
      cases hG
      exact reshape_self
  refine h.change hs (hlive.1.alike (Or.inl hlive.2)) hnode'
    ((h.nodes _).child (Or.inl rfl) hs reshape_a (by rw [hfoos]) (by rw [hframes]) (hdata _))
    ((h.nodes _).child (Or.inr rfl) hs reshape_b (by rw [hfoos]) (by rw [hframes]) (hdata _))
    hcontrol (h.stacks_keep hstack (fun G => by rw [hframes]) (iff_of_true hlive.2 hlive.1)
      (Or.inl rfl) (Or.inl rfl) ?_ ?_) hqueues
  · rcases hpq with ⟨hF, rfl⟩ | ⟨hF, rfl⟩ <;> simp [hF]
  · rcases hpq with ⟨hF, rfl⟩ | ⟨hF, rfl⟩ <;> simp [hF]

/-- `suspend` finds the seed of `F`. -/
theorem Inv.suspend_seed_at (h : Inv n s φ) (hpc : s.pc = .suspend)
    (hhead : s.seedHead = some F) :
    φ F = .first ∧ s.suspend = { s.popSeed F with pc := .secondChildSteal F } ∧
      Inv n s.suspend (reshape φ F .taken (φ (.a F)) (φ (.b F))) := by
  obtain ⟨l, hl, hmem⟩ := h.queues.seeds
  have hlast : l.getLast? = some F := hl.back_eq.symm.trans hhead
  have hF : φ F = .first := (hmem F).mp (List.mem_of_getLast? hlast)
  have hdata := (h.nodes F).seed hF
  have hstep : s.suspend = { s.popSeed F with pc := .secondChildSteal F } := by
    unfold State.suspend
    simp only [hhead]
    have hadr : (s.seeds F).adr = .secondChildSteal := congrArg Prod.fst hdata
    have hsp : (s.seeds F).sp = .fib F := congrArg Prod.snd hdata
    rw [hadr, hsp]
    rfl
  refine ⟨hF, hstep, ?_⟩
  rw [hstep]
  exact h.switch hpc (Or.inl ⟨hF, rfl⟩) rfl rfl rfl rfl (fun G => data_popSeed G) ⟨rfl, rfl⟩
    rfl trivial (h.queues.pop hF rfl rfl rfl (by simp) ⟨Iff.rfl, Iff.rfl⟩ ⟨Iff.rfl, Iff.rfl⟩)

/-- `suspend` finds a seed. -/
theorem Inv.suspend_seed (h : Inv n s φ) (hpc : s.pc = .suspend) (hhead : s.seedHead = some F) :
    ∃ φ', Inv n s.suspend φ' ∧ Lower φ φ' := by
  obtain ⟨hF, -, hinv⟩ := h.suspend_seed_at hpc hhead
  refine ⟨_, hinv, F, _, _, _, by simp [hF], rfl, ?_⟩
  rw [hF]
  show 7 + _ + _ < 8 + _ + _
  omega

/-- `suspend` finds no seed, but a ready thread, which is in the `yield` of some `F`. -/
theorem Inv.suspend_ready_at {i : Nat} (h : Inv n s φ) (hpc : s.pc = .suspend)
    (hhead : s.seedHead = none) (hfront : s.readyQ.front = some i) :
    ∃ F, φ F = .yielded ∧
      ((s.readyQ.threads i).adr, (s.readyQ.threads i).sp) = (.resume, .yield F) ∧
      s.suspend = { s with readyQ := s.readyQ.deq i, pc := .resume F } ∧
      Inv n s.suspend (reshape φ F .resumed (φ (.a F)) (φ (.b F))) := by
  obtain ⟨r, hr, hnodup, hrmem⟩ := h.queues.ready
  cases r with
  | nil =>
    have := hr.front_eq_none
    rw [hfront] at this
    cases this
  | cons F r =>
    -- the queue holds the strands in `yield`, and the first one goes on
    obtain ⟨j, hj, hthread, hdeq⟩ := hr.front
    obtain rfl : i = j := Option.some.inj (hfront.symm.trans hj)
    have hF : φ F = .yielded := (hrmem F).mp List.mem_cons_self
    have hstep : s.suspend = { s with readyQ := s.readyQ.deq i, pc := .resume F } := by
      unfold State.suspend
      simp only [hhead, hfront]
      have hadr : (s.readyQ.threads i).adr = .resume := congrArg Prod.fst hthread
      have hsp : (s.readyQ.threads i).sp = .yield F := congrArg Prod.snd hthread
      rw [hadr, hsp]
      rfl
    refine ⟨F, hF, hthread, hstep, ?_⟩
    rw [hstep]
    obtain ⟨hnotin, hnodup⟩ := List.nodup_cons.mp hnodup
    obtain ⟨l, hl, hmem⟩ := h.queues.seeds
    exact h.switch hpc (Or.inr ⟨hF, rfl⟩) rfl rfl rfl rfl (fun G => rfl) ⟨rfl, rfl⟩ rfl trivial
      ⟨⟨l, hl, mem_reshape hmem (fun _ _ => Iff.rfl) (by simp [hmem, hF]) Iff.rfl Iff.rfl⟩,
        ⟨r, hdeq, hnodup, mem_reshape hrmem (fun G hG => by simp [hG])
          (iff_of_false hnotin nofun) Iff.rfl Iff.rfl⟩⟩

/-- `suspend` finds no seed but a ready thread. -/
theorem Inv.suspend_ready {i : Nat} (h : Inv n s φ) (hpc : s.pc = .suspend)
    (hhead : s.seedHead = none) (hfront : s.readyQ.front = some i) :
    ∃ φ', Inv n s.suspend φ' ∧ Lower φ φ' := by
  obtain ⟨F, hF, -, -, hinv⟩ := h.suspend_ready_at hpc hhead hfront
  refine ⟨_, hinv, F, _, _, _, by simp [hF], rfl, ?_⟩
  rw [hF]
  show 10 + _ + _ < 11 + _ + _
  omega

end

end Stacklets.LazyYield

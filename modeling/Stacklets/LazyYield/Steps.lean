import Stacklets.LazyYield.Invariant

/-!
# `Stacklets.LazyYield.Steps`: returns and joins keep the invariant

A step of the program is about one node `F` and its children. `SameOff` says that the memory of
the other nodes stays as it is, and `NodeOk.off` that `NodeOk` of them stays too. What is left are
the three nodes themselves, the place of the program, the stack that a call or return changes, and
the queue that a seed or a thread enters or leaves.

`Inv.leave` is the rule for the returns from `fib`, and `Inv.park` for a join that has to wait.
The calls and the stack switches are in `Stacklets.LazyYield.Calls`.
-/

set_option autoImplicit false

namespace Stacklets.LazyYield

open Lib
open LazyFork (FooPtr Foo Status aboveFrame inputOf fibValue InTree fibValue_leaf
  fibValue_inner)

section
variable {n : Int} {s s' : State} {φ φ' : FooPtr → Phase} {F G : FooPtr} {p q a b : Phase}

/-! ### Nodes -/

/-- The caller of a node cannot tell the phases apart, but for a return. -/
structure Phase.Alike (p q : Phase) : Prop where
  status : q.status = p.status
  live : q.Live → p.Live
  freed : q = .freed ↔ p = .freed

theorem Phase.Alike.refl (p : Phase) : p.Alike p := ⟨rfl, id, Iff.rfl⟩

/-- Two phases of a call with a frame, or a call with a frame and its return. -/
theorem Phase.Live.alike (hp : p.Live) (hq : q.Live ∨ q = .back) : p.Alike q := by
  rcases hq with hq | rfl
  · refine ⟨hq.status_eq.trans hp.status_eq.symm, fun _ => hp, ?_, ?_⟩
    · rintro rfl
      exact hq.elim
    · rintro rfl
      exact hp.elim
  · refine ⟨hp.status_eq.symm, fun _ => hp, nofun, ?_⟩
    rintro rfl
    exact hp.elim

/-- Only an idle frame has the status idle. -/
theorem Phase.eq_idle_of_status {p : Phase} (h : p.status = .idle) : p = .idle := by
  cases p <;> first | rfl | cases h

/-- Only a frame that has ended has the status done. -/
theorem Phase.eq_ended_of_status {p : Phase} (h : p.status = .done) : p = .ended := by
  cases p <;> first | rfl | cases h

theorem Phase.OnStacklet.congr {b b' : Phase} (hb : b.Alike b') :
    p.OnStacklet b' ↔ p.OnStacklet b := by
  cases p with
  | stolen x y =>
    cases y with
    | false => exact not_congr hb.freed
    | true => exact Iff.rfl
  | _ => exact Iff.rfl

/-- `NodeOk` reads the phases and the memory of a node, and some of its children. -/
theorem NodeOk.congr (h : NodeOk n s φ G) (hφ : φ' G = φ G) (ha : (φ (.a G)).Alike (φ' (.a G)))
    (hb : (φ (.b G)).Alike (φ' (.b G))) (hfoo : s'.foos G = s.foos G)
    (hframe : s'.frames G = s.frames G) (hdata : (s'.seeds G).data = (s.seeds G).data)
    (hinput : (s'.foos (.a G)).input = (s.foos (.a G)).input ∧
      (s'.foos (.b G)).input = (s.foos (.b G)).input)
    (hlinkA : (s'.frames (.a G)).returnAdr = (s.frames (.a G)).returnAdr ∧
      (s'.frames (.a G)).home = (s.frames (.a G)).home)
    (hlinkB : (s'.frames (.b G)).returnAdr = (s.frames (.b G)).returnAdr ∧
      (s'.frames (.b G)).home = (s.frames (.b G)).home)
    (hstub : s'.stubs (.b G) = s.stubs (.b G))
    (hforks : s'.forks (.b G) = s.forks (.b G) ∧ s'.frees (.b G) = s.frees (.b G)) :
    NodeOk n s' φ' G where
  fits := by
    rw [hφ, ha.status, hb.status]
    exact h.fits
  tree := hφ ▸ h.tree
  input := by
    rw [hφ, hfoo]
    exact h.input
  big := hφ ▸ h.big
  children := by
    rw [hφ, hinput.1, hinput.2]
    exact h.children
  output := by
    rw [hφ, hfoo]
    exact h.output
  frame := by
    rw [hφ, hframe]
    exact h.frame
  seed := by
    rw [hφ, hdata]
    exact h.seed
  linkA hl := by
    rw [hlinkA.1, hlinkA.2, hframe]
    exact h.linkA (ha.live hl)
  linkB hl := by
    rw [hlinkB.1, hlinkB.2, hframe, hφ]
    exact h.linkB (hb.live hl)
  stub := by
    rw [hφ, hstub, hframe]
    exact h.stub
  onStacklet := by
    rw [hφ, Phase.OnStacklet.congr hb, hforks.1, hforks.2]
    exact h.onStacklet
  offStacklet := by
    rw [hφ, Phase.OnStacklet.congr hb, hforks.1, hforks.2]
    exact h.offStacklet
  unforked hidle := by
    rw [hforks.1]
    refine h.unforked (Phase.eq_idle_of_status ?_)
    rw [← hb.status, hidle]
    rfl

/-- The step does not touch the memory of the nodes other than `F` and its children. -/
structure SameOff (F : FooPtr) (s s' : State) : Prop where
  foos : ∀ G, Off F G → s'.foos G = s.foos G
  input : (s'.foos F).input = (s.foos F).input
  frames : ∀ G, Off F G → s'.frames G = s.frames G
  link : (s'.frames F).returnAdr = (s.frames F).returnAdr ∧
    (s'.frames F).home = (s.frames F).home
  data : ∀ G, Off F G → (s'.seeds G).data = (s.seeds G).data
  stubs : ∀ G, G ≠ .b F → s'.stubs G = s.stubs G
  forks : ∀ G, G ≠ .b F → s'.forks G = s.forks G ∧ s'.frees G = s.frees G

/-- The children of a node that is off are off, or one of them is `F`. -/
theorem off_child {c : FooPtr} (hG : Off F G) (hc : c = .a G ∨ c = .b G) : c = F ∨ Off F c := by
  by_cases hF : c = F
  · exact Or.inl hF
  · refine Or.inr ⟨hF, ?_, ?_⟩
    · rintro rfl
      rcases hc with hc | hc
      · exact hG.1 (FooPtr.a.inj hc).symm
      · cases hc
    · rintro rfl
      rcases hc with hc | hc
      · cases hc
      · exact hG.1 (FooPtr.b.inj hc).symm

/-- A frame away from `F` stays in order. -/
theorem NodeOk.off (h : NodeOk n s φ G) (hG : Off F G) (hs : SameOff F s s')
    (hp : (φ F).Alike p) : NodeOk n s' (reshape φ F p a b) G := by
  have hphase : ∀ c, c = .a G ∨ c = .b G → (φ c).Alike (reshape φ F p a b c) := by
    intro c hc
    rcases off_child hG hc with rfl | hoff
    · rw [reshape_self]
      exact hp
    · rw [reshape_off hoff]
      exact .refl _
  have hinput : ∀ c, c = .a G ∨ c = .b G → (s'.foos c).input = (s.foos c).input := by
    intro c hc
    rcases off_child hG hc with rfl | hoff
    · exact hs.input
    · rw [hs.foos c hoff]
  have hlink : ∀ c, c = .a G ∨ c = .b G → (s'.frames c).returnAdr = (s.frames c).returnAdr ∧
      (s'.frames c).home = (s.frames c).home := by
    intro c hc
    rcases off_child hG hc with rfl | hoff
    · exact hs.link
    · rw [hs.frames c hoff]
      exact ⟨rfl, rfl⟩
  have hb : FooPtr.b G ≠ .b F := fun hb => hG.1 (FooPtr.b.inj hb)
  exact h.congr (reshape_off hG) (hphase _ (Or.inl rfl)) (hphase _ (Or.inr rfl)) (hs.foos G hG)
    (hs.frames G hG) (hs.data G hG) ⟨hinput _ (Or.inl rfl), hinput _ (Or.inr rfl)⟩
    (hlink _ (Or.inl rfl)) (hlink _ (Or.inr rfl)) (hs.stubs _ hb) (hs.forks _ hb)

/-- The children of a child are off. -/
theorem off_grandchild {c d : FooPtr} (hc : c = .a F ∨ c = .b F) (hd : d = .a c ∨ d = .b c) :
    Off F d := by
  apply off_of_depth
  have hcd : c.depth = F.depth + 1 := by rcases hc with rfl | rfl <;> rfl
  have hdd : d.depth = c.depth + 1 := by rcases hd with rfl | rfl <;> rfl
  omega

/-- `NodeOk` of a child that the step does not touch. -/
theorem NodeOk.child {c : FooPtr} (h : NodeOk n s φ c) (hc : c = .a F ∨ c = .b F)
    (hs : SameOff F s s') (hphase : reshape φ F p a b c = φ c) (hfoo : s'.foos c = s.foos c)
    (hframe : s'.frames c = s.frames c) (hdata : (s'.seeds c).data = (s.seeds c).data) :
    NodeOk n s' (reshape φ F p a b) c := by
  have hoffA := off_grandchild hc (d := .a c) (Or.inl rfl)
  have hoffB := off_grandchild hc (d := .b c) (Or.inr rfl)
  have hA : (φ (.a c)).Alike (reshape φ F p a b (.a c)) := by
    rw [reshape_off hoffA]
    exact .refl _
  have hB : (φ (.b c)).Alike (reshape φ F p a b (.b c)) := by
    rw [reshape_off hoffB]
    exact .refl _
  refine h.congr hphase hA hB hfoo hframe hdata ?_ ?_ ?_ (hs.stubs _ hoffB.2.2)
    (hs.forks _ hoffB.2.2)
  · rw [hs.foos _ hoffA, hs.foos _ hoffB]
    exact ⟨rfl, rfl⟩
  · rw [hs.frames _ hoffA]
    exact ⟨rfl, rfl⟩
  · rw [hs.frames _ hoffB]
    exact ⟨rfl, rfl⟩

/-- `NodeOk` of a child that was not called before, and may be called now. -/
theorem NodeOk.fresh {c : FooPtr} (h : NodeOk n s φ c) (hc : c = .a F ∨ c = .b F)
    (hs : SameOff F s s') (hidle : φ c = .idle)
    (hphase : reshape φ F p a b c = .idle ∨
      reshape φ F p a b c = .entered ∧ InTree n c ∧ (s'.foos c).input = inputOf n c) :
    NodeOk n s' (reshape φ F p a b) c := by
  have hoffA := off_grandchild hc (d := .a c) (Or.inl rfl)
  have hoffB := off_grandchild hc (d := .b c) (Or.inr rfl)
  have hfits := h.fits
  rw [hidle] at hfits
  have hA : reshape φ F p a b (.a c) = .idle := by
    rw [reshape_off hoffA]
    exact Phase.eq_idle_of_status hfits.1
  have hB : φ (.b c) = .idle := Phase.eq_idle_of_status hfits.2
  have hB' : reshape φ F p a b (.b c) = .idle := by
    rw [reshape_off hoffB, hB]
  have hforks := hs.forks _ hoffB.2.2
  have hoff := h.offStacklet (by simp [hidle])
  have hcalled : reshape φ F p a b c ≠ .idle →
      InTree n c ∧ (s'.foos c).input = inputOf n c := fun hne => (hphase.resolve_left hne).2
  have hnew : reshape φ F p a b c = .idle ∨ reshape φ F p a b c = .entered :=
    hphase.imp_right And.left
  rcases hnew with hq | hq <;> exact {
    fits := by simp [hq, hA, hB']
    tree := fun hne => (hcalled hne).1
    input := fun hne => (hcalled hne).2
    big := by simp [hq]
    children := by simp [hq]
    output := by simp [hq]
    frame := by simp [hq]
    seed := by simp [hq]
    linkA := by simp [hA]
    linkB := by simp [hB']
    stub := by simp [hq]
    onStacklet := by simp [hq]
    offStacklet := fun _ => ⟨hforks.2.trans (hoff.1.trans hforks.1.symm), hforks.1 ▸ hoff.2⟩
    unforked := fun _ => hforks.1.trans (h.unforked hB) }

/-- The children of a node that has returned have no frames. -/
theorem NodeOk.dead_of_written {c d : FooPtr} (h : NodeOk n s φ c) (hwritten : (φ c).Written)
    (hd : d = .a c ∨ d = .b c) : ¬(φ d).Live := by
  intro hlive
  have hactive := hlive.status_eq
  have hfits := h.fits
  have hcases : ((φ (.a c)).status = .idle ∧ (φ (.b c)).status = .idle) ∨
      ((φ (.a c)).status = .done ∧ (φ (.b c)).status = .done) := by
    cases hp : φ c <;> rw [hp] at hfits hwritten <;> first | exact hfits | exact hwritten.elim
  rcases hd with rfl | rfl
  · rcases hcases with ⟨ha, _⟩ | ⟨ha, _⟩ <;> cases ha.symm.trans hactive
  · rcases hcases with ⟨_, hb⟩ | ⟨_, hb⟩ <;> cases hb.symm.trans hactive

/-- `NodeOk` of a child that has returned, when only the caller goes on. -/
theorem NodeOk.written {c : FooPtr} (h : NodeOk n s φ c) (hc : c = .a F ∨ c = .b F)
    (hs : SameOff F s s') (hwritten : (φ c).Written) (hphase : (reshape φ F p a b c).Written)
    (hfoo : s'.foos c = s.foos c) : NodeOk n s' (reshape φ F p a b) c := by
  have hoffA := off_grandchild hc (d := .a c) (Or.inl rfl)
  have hoffB := off_grandchild hc (d := .b c) (Or.inr rfl)
  have hA : reshape φ F p a b (.a c) = φ (.a c) := reshape_off hoffA
  have hB : reshape φ F p a b (.b c) = φ (.b c) := reshape_off hoffB
  have hnot : φ c ≠ .idle := fun he => by
    rw [he] at hwritten
    exact hwritten
  have hstacklet : ¬(φ c).OnStacklet (φ (.b c)) := by
    cases hp : φ c <;> rw [hp] at hwritten <;> first | exact hwritten.elim | exact id
  have hforks := hs.forks _ hoffB.2.2
  have hoff := h.offStacklet hstacklet
  have hfits := h.fits
  rw [← hA, ← hB] at hfits
  -- a phase that has written its result fixes nothing but the result
  generalize hq : reshape φ F p a b c = q at hphase
  exact {
    fits := by
      rw [hq]
      cases hp : φ c <;> rw [hp] at hwritten hfits <;> first
        | exact hwritten.elim
        | (cases q <;> first | exact hphase.elim | exact hfits)
    tree := fun _ => h.tree hnot
    input := fun _ => hfoo ▸ h.input hnot
    big := by rw [hq]; cases q <;> first | exact hphase.elim | exact False.elim
    children := by rw [hq]; cases q <;> first | exact hphase.elim | exact False.elim
    output := fun _ => hfoo ▸ h.output hwritten
    frame := by rw [hq]; cases q <;> first | exact hphase.elim | trivial
    seed := by rw [hq]; rintro rfl; exact hphase.elim
    linkA := fun hl => absurd (hA ▸ hl) (h.dead_of_written hwritten (Or.inl rfl))
    linkB := fun hl => absurd (hB ▸ hl) (h.dead_of_written hwritten (Or.inr rfl))
    stub := by rw [hq]; rintro x rfl; exact hphase.elim
    onStacklet := by rw [hq]; cases q <;> first | exact hphase.elim | exact False.elim
    offStacklet := fun _ => ⟨hforks.2.trans (hoff.1.trans hforks.1.symm), hforks.1 ▸ hoff.2⟩
    unforked := fun hi => hforks.1.trans (h.unforked (hB ▸ hi)) }

/-- What a step does to a child that is not called in it: nothing, or the child has returned and
the caller takes notice. -/
def Phase.Kid (p q : Phase) : Prop := q = p ∨ (p.Written ∧ q.Written)

/-- A child that is counted is live or queued as before. -/
theorem Phase.Kid.same (h : p.Kid q) :
    (q.Live ↔ p.Live) ∧ (q = .first ↔ p = .first) ∧ (q = .yielded ↔ p = .yielded) := by
  rcases h with rfl | ⟨hp, hq⟩
  · exact ⟨Iff.rfl, Iff.rfl, Iff.rfl⟩
  · cases p <;> first
      | exact hp.elim
      | (cases q <;> first | exact hq.elim | simp)

/-- `NodeOk` of a child that is not called. -/
theorem NodeOk.kid {c : FooPtr} (h : NodeOk n s φ c) (hc : c = .a F ∨ c = .b F)
    (hs : SameOff F s s') (hkid : (φ c).Kid (reshape φ F p a b c)) (hfoo : s'.foos c = s.foos c)
    (hframe : s'.frames c = s.frames c) (hdata : (s'.seeds c).data = (s.seeds c).data) :
    NodeOk n s' (reshape φ F p a b) c := by
  rcases hkid with hphase | ⟨hwritten, hphase⟩
  · exact h.child hc hs hphase hfoo hframe hdata
  · exact h.written hc hs hwritten hphase hfoo

/-! ### The parts of the invariant -/

/-- The program was at `F` or one of its children, or nowhere. -/
def State.At (s : State) (F : FooPtr) : Prop := ∀ G q, s.holder = some (G, q) → ¬Off F G

/-- `F` and its children change, and who has the control is known. -/
theorem ControlOk.change (h : ControlOk s φ) (hat : s.At F)
    (hF : p.Control → s'.holder = some (F, p)) (ha : a.Control → s'.holder = some (.a F, a))
    (hb : b.Control → s'.holder = some (.b F, b))
    (hheld : ∀ G q, s'.holder = some (G, q) → reshape φ F p a b G = q)
    (hpc : s'.PcOk (reshape φ F p a b)) : ControlOk s' (reshape φ F p a b) where
  holder := forall_reshape (Q := fun G q => q.Control → s'.holder = some (G, q)) hF ha hb
    fun G hG hc => absurd hG (hat G _ (h.holder G hc))
  held := hheld
  pcOk := hpc

/-- The queues when no seed and no thread enters or leaves them. -/
theorem QueuesOk.change (h : QueuesOk s φ) (hseeds : s'.seeds = s.seeds)
    (hhead : s'.seedHead = s.seedHead) (hready : s'.readyQ = s.readyQ)
    (hF : (p = .first ↔ φ F = .first) ∧ (p = .yielded ↔ φ F = .yielded))
    (ha : (a = .first ↔ φ (.a F) = .first) ∧ (a = .yielded ↔ φ (.a F) = .yielded))
    (hb : (b = .first ↔ φ (.b F) = .first) ∧ (b = .yielded ↔ φ (.b F) = .yielded)) :
    QueuesOk s' (reshape φ F p a b) := by
  obtain ⟨l, hl, hmem⟩ := h.seeds
  obtain ⟨r, hr, hnodup, hrmem⟩ := h.ready
  refine ⟨⟨l, ?_, mem_reshape hmem (fun _ _ => Iff.rfl) ((hmem F).trans hF.1.symm) ha.1 hb.1⟩, ⟨r,
    ?_, hnodup, mem_reshape hrmem (fun _ _ => Iff.rfl) ((hrmem F).trans hF.2.symm) ha.2 hb.2⟩⟩
  · rw [hseeds, hhead]
    exact hl
  · rw [hready]
    exact hr

/-- The queues when the seed of `F`, wherever it is among the seeds, is popped. -/
theorem QueuesOk.pop (h : QueuesOk s φ) (hF : φ F = .first)
    (hseeds : s'.seeds = (s.popSeed F).seeds) (hhead : s'.seedHead = (s.popSeed F).seedHead)
    (hready : s'.readyQ = s.readyQ) (hp : p ≠ .first ∧ p ≠ .yielded)
    (ha : (a = .first ↔ φ (.a F) = .first) ∧ (a = .yielded ↔ φ (.a F) = .yielded))
    (hb : (b = .first ↔ φ (.b F) = .first) ∧ (b = .yielded ↔ φ (.b F) = .yielded)) :
    QueuesOk s' (reshape φ F p a b) := by
  obtain ⟨l, hl, hmem⟩ := h.seeds
  obtain ⟨r, hr, hnodup, hrmem⟩ := h.ready
  obtain ⟨l₁, l₂, rfl⟩ := List.append_of_mem ((hmem F).mpr hF)
  have hnotin : F ∉ l₁ ++ l₂ := by
    have := hl.nodup
    rw [List.nodup_middle, List.nodup_cons] at this
    exact this.1
  refine ⟨⟨l₁ ++ l₂, ?_, mem_reshape hmem (fun G hG => by simp [hG]) (iff_of_false hnotin hp.1)
    ha.1 hb.1⟩, ⟨r, ?_, hnodup, mem_reshape hrmem (fun _ _ => Iff.rfl) ?_ ha.2 hb.2⟩⟩
  · rw [hseeds, hhead]
    exact hl.pop
  · rw [hready]
    exact hr
  · rw [hrmem, hF]
    exact iff_of_false nofun hp.2

/-- The rest of the invariant follows from `SameOff`. -/
theorem Inv.change (h : Inv n s φ) (hs : SameOff F s s') (hp : (φ F).Alike p)
    (hF : NodeOk n s' (reshape φ F p a b) F) (ha : NodeOk n s' (reshape φ F p a b) (.a F))
    (hb : NodeOk n s' (reshape φ F p a b) (.b F)) (hcontrol : ControlOk s' (reshape φ F p a b))
    (hstacks : StacksOk s' (reshape φ F p a b)) (hqueues : QueuesOk s' (reshape φ F p a b)) :
    Inv n s' (reshape φ F p a b) := by
  have hroot : (φ .root).Alike (reshape φ F p a b .root) := by
    by_cases hF : F = .root
    · subst hF
      rw [reshape_self]
      exact hp
    · rw [reshape_off ⟨Ne.symm hF, nofun, nofun⟩]
      exact .refl _
  have hlink : (s'.frames .root).returnAdr = (s.frames .root).returnAdr ∧
      (s'.frames .root).home = (s.frames .root).home := by
    by_cases hF : F = .root
    · exact hF ▸ hs.link
    · rw [hs.frames _ ⟨Ne.symm hF, nofun, nofun⟩]
      exact ⟨rfl, rfl⟩
  refine ⟨forall_of_off hF ha hb fun G hG => (h.nodes G).off hG hs hp, hcontrol, hstacks, hqueues,
    ⟨fun hi => ?_, fun ho => ?_⟩, fun hl => ?_, fun x hx => ?_⟩
  · refine h.root.1 (Phase.eq_idle_of_status ?_)
    rw [← hroot.status, hi]
    rfl
  · refine h.root.2 (Phase.eq_ended_of_status ?_)
    rw [← hroot.status, ho]
    rfl
  · rw [hlink.1, hlink.2]
    exact h.link (hroot.live hl)
  · obtain ⟨hforks, hfrees⟩ := hs.forks x (hx F)
    rw [hforks, hfrees]
    exact h.stacklets x hx

/-! ### Stacks -/

/-- A node without a live child on its stack is the topmost frame there. -/
theorem Inv.top (h : Inv n s φ) (hlive : (φ F).Live) (ha : ¬(φ (.a F)).Live)
    (hb : ¬(φ (.b F)).Live) :
    ∃ rest, s.stackOf (s.frames F).home = F :: rest ∧ F ∉ rest := by
  obtain ⟨rest, hrest⟩ := h.stacksOk.top hlive fun y hy => by
    rcases hy with ⟨rfl, _⟩ | ⟨rfl, _⟩
    · exact ha
    · exact hb
  have hnodup := h.stacksOk.nodup FooPtr.depth (fun _ _ => Above.depth_lt) (s.frames F).home
  rw [hrest] at hnodup
  exact ⟨rest, hrest, (List.nodup_cons.mp hnodup).1⟩

theorem aboveFrame_cons (F : FooPtr) (rest : List FooPtr) :
    aboveFrame F (F :: rest) = F :: rest := by
  simp [aboveFrame]

/-- A step that moves no frame. -/
theorem Inv.stacks_keep (h : Inv n s φ) (hstack : s'.stackOf = s.stackOf)
    (hhome : ∀ G, (s'.frames G).home = (s.frames G).home) (hF : p.Live ↔ (φ F).Live)
    (ha : (φ (.a F)).Kid a) (hb : (φ (.b F)).Kid b) (hrunsA : a.Live → (φ F).RunsA → p.RunsA)
    (hsecond : b.Live → φ F = .second → p = .second) : StacksOk s' (reshape φ F p a b) := by
  unfold StacksOk
  rw [hstack]
  refine FrameStacks.congr h.stacksOk (fun x y hx _ hxy => ?_) ?_ fun G _ => hhome G
  · -- A live frame above `y`, for `y` the node, a child or another one.
    revert x
    refine forall_of_off (F := F) (P := fun y => ∀ x, (φ x).Live → Above φ x y →
      Above (reshape φ F p a b) x y) ?_ ?_ ?_ (fun G hG x _ hxG => ?_) y
    · rintro x hx (⟨rfl, hr⟩ | ⟨rfl, hr⟩)
      · exact Or.inl ⟨rfl, reshape_self ▸ hrunsA (ha.same.1.mpr hx) hr⟩
      · exact Or.inr ⟨rfl, reshape_self ▸ hsecond (hb.same.1.mpr hx) hr⟩
    · intro x hx hxa
      rcases ha with hsame | ⟨hwritten, _⟩
      · unfold Above at hxa ⊢
        rwa [reshape_a, hsame]
      · exact absurd hx ((h.nodes _).dead_of_written hwritten (hxa.imp And.left And.left))
    · intro x hx hxb
      rcases hb with hsame | ⟨hwritten, _⟩
      · unfold Above at hxb ⊢
        rwa [reshape_b, hsame]
      · exact absurd hx ((h.nodes _).dead_of_written hwritten (hxb.imp And.left And.left))
    · unfold Above at hxG ⊢
      rwa [reshape_off hG]
  · exact forall_reshape (Q := fun G q => q.Live ↔ (φ G).Live) hF ha.same.1 hb.same.1
      fun _ _ => Iff.rfl

/-! ### Returns -/

/-- Where a return from `F` lands, and what `stubBase` is worth there. -/
theorem Inv.landing (h : Inv n s φ) (hlive : (φ F).Live) (hstub : s.stubBase = (s.frames F).home) :
    (F = .root ∧ (s.frames F).returnAdr.land = .returned) ∨
      (∃ G, F = .a G ∧ (s.frames F).returnAdr.land = .afterA G ∧
        s.stubBase = (s.frames G).home) ∨
      (∃ G, F = .b G ∧ (s.frames F).returnAdr.land = .afterB G ∧ φ G = .second ∧
        s.stubBase = (s.frames G).home) ∨
      (∃ G x, F = .b G ∧ (s.frames F).returnAdr.land = .stubRoutine ∧ φ G = .stolen x false ∧
        s.stubBase = .stacklet (.b G)) := by
  cases F with
  | root => exact Or.inl ⟨rfl, by rw [(h.link hlive).1]; rfl⟩
  | a G =>
    obtain ⟨hra, hhome⟩ := (h.nodes G).linkA hlive
    exact Or.inr (Or.inl ⟨G, rfl, by rw [hra]; rfl, hstub.trans hhome⟩)
  | b G =>
    have hlink := (h.nodes G).linkB hlive
    by_cases hsecond : φ G = .second
    · rw [if_pos hsecond] at hlink
      exact Or.inr (Or.inr (Or.inl ⟨G, rfl, by rw [hlink.1]; rfl, hsecond,
        hstub.trans hlink.2⟩))
    · -- A caller whose second child is active and not on its stack has forked it.
      rw [if_neg hsecond] at hlink
      have hfits := (h.nodes G).fits
      rw [hlive.status_eq] at hfits
      have hstolen : ∃ x, φ G = .stolen x false := by
        cases hG : φ G with
        | stolen x y =>
          cases y with
          | false => exact ⟨x, rfl⟩
          | true => simp [hG] at hfits
        | second => exact absurd hG hsecond
        | _ => simp [hG] at hfits
      obtain ⟨x, hx⟩ := hstolen
      exact Or.inr (Or.inr (Or.inr ⟨G, x, rfl, by rw [hlink.1]; rfl, hx, hstub.trans hlink.2⟩))

/-- What the children of a node that returns have come to: none was called, or both are done. -/
structure Kids (φ : FooPtr → Phase) (F : FooPtr) (a b : Phase) : Prop where
  eq : (a = .idle ∧ b = .idle) ∨ (a = .ended ∧ b = .ended)
  a : (φ (.a F)).Kid a
  b : (φ (.b F)).Kid b

/-- A frame returns behind its children. -/
theorem Kids.dead (h : Kids φ F a b) : (¬a.Live ∧ ¬a.Control) ∧ ¬b.Live ∧ ¬b.Control := by
  rcases h.eq with ⟨rfl, rfl⟩ | ⟨rfl, rfl⟩ <;> simp

/-- `NodeOk` of a node that returns. -/
theorem NodeOk.returned (h : NodeOk n s φ F) (hs : SameOff F s s') (hnot : φ F ≠ .idle)
    (hoff : ¬(φ F).OnStacklet (φ (.b F))) (hkids : Kids φ F a b)
    (hout : (s'.foos F).output = BitVec.ofNat 32 (fibValue (inputOf n F)))
    (hforks : s'.forks (.b F) = s.forks (.b F) ∧ s'.frees (.b F) = s.frees (.b F)) :
    NodeOk n s' (LazyYield.reshape φ F .back a b) F where
  fits := by
    rw [reshape_self, reshape_a, reshape_b]
    rcases hkids.eq with ⟨rfl, rfl⟩ | ⟨rfl, rfl⟩
    · exact Or.inl ⟨rfl, rfl⟩
    · exact Or.inr ⟨rfl, rfl⟩
  tree _ := h.tree hnot
  input _ := hs.input.trans (h.input hnot)
  big := by simp
  children := by simp
  output _ := hout
  frame := by simp
  seed := by simp
  linkA := by
    rw [reshape_a]
    exact fun hl => absurd hl hkids.dead.1.1
  linkB := by
    rw [reshape_b]
    exact fun hl => absurd hl hkids.dead.2.1
  stub := by simp
  onStacklet := by simp
  offStacklet _ := by
    rw [hforks.1, hforks.2]
    exact h.offStacklet hoff
  unforked := by
    rw [reshape_b, hforks.1]
    rintro rfl
    rcases hkids.b with hb | ⟨_, hb⟩
    · exact h.unforked hb.symm
    · exact hb.elim

/-- The topmost frame, which has no live children, is taken off. -/
theorem StacksOk.leave {rest : List FooPtr} (h : StacksOk s φ)
    (hrest : s.stackOf (s.frames F).home = F :: rest) (hnotin : F ∉ rest)
    (hstack : s'.stackOf = Function.update s.stackOf (s.frames F).home rest)
    (hhome : ∀ G, (s'.frames G).home = (s.frames G).home)
    (hkids : Kids φ F a b) : StacksOk s' (LazyYield.reshape φ F .back a b) := by
  obtain ⟨⟨hdeadA', _⟩, hdeadB', _⟩ := hkids.dead
  have hdeadA : ¬(φ (.a F)).Live := fun hl => hdeadA' (hkids.a.same.1.mpr hl)
  have hdeadB : ¬(φ (.b F)).Live := fun hl => hdeadB' (hkids.b.same.1.mpr hl)
  unfold StacksOk
  rw [hstack]
  refine FrameStacks.pop h hrest hnotin (fun y z _ hy hz hyz => ?_) ?_ fun G _ => hhome G
  · -- The children of `F` are not live, so `z` is another node.
    have hz' : Off F z := by
      refine ⟨?_, ?_, ?_⟩
      · rintro rfl
        rcases hyz with ⟨rfl, _⟩ | ⟨rfl, _⟩
        · exact hdeadA hy
        · exact hdeadB hy
      · rintro rfl
        exact hdeadA hz
      · rintro rfl
        exact hdeadB hz
    unfold Above at hyz ⊢
    rwa [reshape_off hz']
  · exact forall_reshape (Q := fun G q => q.Live ↔ (φ G).Live ∧ G ≠ F) (by simp)
      (iff_of_false hdeadA' fun hl => hdeadA hl.1) (iff_of_false hdeadB' fun hl => hdeadB hl.1)
      fun _ hG => (and_iff_left hG.1).symm

/-- The state after the last stores of `fib` and the return. -/
abbrev State.leave (s : State) (F : FooPtr) (f : Frame → Frame) (v : BitVec 32) : State :=
  ((s.setFrame F f).setOutput F v).ret F

/-- `fib` returns, behind the store of the right result. -/
theorem Inv.leave {f : Frame → Frame} {v : BitVec 32} (h : Inv n s φ) (hlive : (φ F).Live)
    (hat : s.At F) (hstub : s.stubBase = (s.frames F).home)
    (hqueue : φ F ≠ .first ∧ φ F ≠ .yielded) (hoff : ¬(φ F).OnStacklet (φ (.b F)))
    (hf : (f (s.frames F)).returnAdr = (s.frames F).returnAdr ∧
      (f (s.frames F)).home = (s.frames F).home)
    (hv : v = BitVec.ofNat 32 (fibValue (inputOf n F))) (hkids : Kids φ F a b) :
    Inv n (s.leave F f v) (reshape φ F .back a b) := by
  have hframe : (s.leave F f v).frames F = f (s.frames F) := Function.update_self ..
  have hframes : ∀ G, G ≠ F → (s.leave F f v).frames G = s.frames G := fun G hG =>
    Function.update_of_ne hG ..
  have hfoo : (s.leave F f v).foos F = { s.foos F with output := v } := Function.update_self ..
  have hfoos : ∀ G, G ≠ F → (s.leave F f v).foos G = s.foos G := fun G hG =>
    Function.update_of_ne hG ..
  have hlink : ∀ G, ((s.leave F f v).frames G).returnAdr = (s.frames G).returnAdr ∧
      ((s.leave F f v).frames G).home = (s.frames G).home := by
    intro G
    by_cases hG : G = F
    · rw [hG, hframe]
      exact hf
    · rw [hframes G hG]
      exact ⟨rfl, rfl⟩
  have hs : SameOff F s (s.leave F f v) :=
    { foos := fun G hG => hfoos G hG.1
      input := by rw [hfoo]
      frames := fun G hG => hframes G hG.1
      link := hlink F
      data := fun _ _ => rfl
      stubs := fun _ _ => rfl
      forks := fun _ _ => ⟨rfl, rfl⟩ }
  obtain ⟨⟨hdeadA', hctrlA⟩, hdeadB', hctrlB⟩ := hkids.dead
  have hdeadA : ¬(φ (.a F)).Live := fun hl => hdeadA' (hkids.a.same.1.mpr hl)
  have hdeadB : ¬(φ (.b F)).Live := fun hl => hdeadB' (hkids.b.same.1.mpr hl)
  have hnot : φ F ≠ .idle := by
    intro he
    rw [he] at hlive
    exact hlive
  have hstacks : StacksOk (s.leave F f v) (LazyYield.reshape φ F .back a b) := by
    -- with both children dead, the frame is the topmost one of its stack
    obtain ⟨rest, hrest, hnotin⟩ := h.top hlive hdeadA hdeadB
    refine h.stacksOk.leave hrest hnotin ?_ (fun G => (hlink G).2) hkids
    have hhome : ((s.setFrame F f).frames F).home = (s.frames F).home := (hlink F).2
    show Function.update s.stackOf ((s.setFrame F f).frames F).home
      (aboveFrame F (s.stackOf ((s.setFrame F f).frames F).home)).tail = _
    rw [hhome, hrest, aboveFrame_cons]
    rfl
  have hpc : (s.leave F f v).pc = (s.frames F).returnAdr.land := by
    show ((s.leave F f v).frames F).returnAdr.land = _
    rw [(hlink F).1]
  have hparent : ∀ G, F = .a G ∨ F = .b G → LazyYield.reshape φ F .back a b G = φ G := by
    intro G hG
    apply reshape_off
    apply off_of_depth_lt
    rcases hG with rfl | rfl
    · exact Nat.lt_succ_self _
    · exact Nat.lt_succ_self _
  have hholder : (s.leave F f v).holder = some (F, .back) ∧
      (s.leave F f v).PcOk (LazyYield.reshape φ F .back a b) := by
    have hstub' : (s.leave F f v).stubBase = s.stubBase := rfl
    unfold State.holder State.PcOk
    rw [hpc, hstub']
    -- the root, a first child, a second child in place, or one on a stacklet
    rcases h.landing hlive hstub with ⟨hF, hl⟩ | ⟨G, hF, hl, hb⟩ | ⟨G, hF, hl, hG, hb⟩ |
      ⟨G, x, hF, hl, hG, hb⟩
    · rw [hl, hF]
      exact ⟨rfl, trivial⟩
    · rw [hl]
      exact ⟨by rw [hF], hb.trans (hlink G).2.symm⟩
    · rw [hl]
      refine ⟨by rw [hF], ?_, hb.trans (hlink G).2.symm⟩
      rw [hparent G (Or.inr hF)]
      exact hG
    · rw [hl]
      refine ⟨by rw [hb, hF], G, x, hb, ?_⟩
      rw [hparent G (Or.inr hF)]
      exact hG
  have hcontrol : ControlOk (s.leave F f v) (LazyYield.reshape φ F .back a b) := by
    refine h.control.change hat (fun _ => hholder.1) (fun hc => absurd hc hctrlA)
      (fun hc => absurd hc hctrlB) (fun G q hG => ?_) hholder.2
    rw [hholder.1] at hG
    cases hG
    exact reshape_self
  have hqueues : QueuesOk (s.leave F f v) (LazyYield.reshape φ F .back a b) :=
    h.queues.change rfl rfl rfl
      ⟨iff_of_false nofun hqueue.1, iff_of_false nofun hqueue.2⟩ hkids.a.same.2 hkids.b.same.2
  have hF := (h.nodes F).returned hs hnot hoff hkids (by rw [hfoo, hv]) ⟨rfl, rfl⟩
  have ha := (h.nodes (.a F)).kid (p := .back) (a := a) (b := b) (Or.inl rfl) hs
    (reshape_a ▸ hkids.a) (hfoos _ (ne_a F).symm) (hframes _ (ne_a F).symm) rfl
  have hb := (h.nodes (.b F)).kid (p := .back) (a := a) (b := b) (Or.inr rfl) hs
    (reshape_b ▸ hkids.b) (hfoos _ (ne_b F).symm) (hframes _ (ne_b F).symm) rfl
  exact h.change hs (hlive.alike (Or.inr rfl)) hF ha hb hcontrol hstacks hqueues

theorem setFrame_self (s : State) (F : FooPtr) : s.setFrame F (fun f => f) = s := by
  unfold State.setFrame
  rw [Function.update_eq_self]

/-- The program is at the node that its place names. -/
theorem at_of_holder {G : FooPtr} (h : s.holder = some (G, q)) (hG : G = F ∨ G = .a F ∨ G = .b F) :
    s.At F := by
  intro G' q' h' hoff
  rw [h] at h'
  cases h'
  rcases hG with rfl | rfl | rfl
  · exact hoff.1 rfl
  · exact hoff.2.1 rfl
  · exact hoff.2.2 rfl

/-- The children of a node in its first phases have not been called. -/
theorem Inv.kids_idle (h : Inv n s φ) (hF : φ F = .entered ∨ φ F = .resumed) :
    φ (.a F) = .idle ∧ φ (.b F) = .idle := by
  have hfits := (h.nodes F).fits
  rcases hF with hF | hF <;> rw [hF] at hfits <;>
    exact ⟨Phase.eq_idle_of_status hfits.1, Phase.eq_idle_of_status hfits.2⟩

/-- At the start of `fib(F)` the program is at the node, and `stubBase` is right. -/
theorem Inv.at_start (h : Inv n s φ) (hpc : s.pc = .start F) :
    s.holder = some (F, .entered) ∧ s.At F ∧ φ F = .entered ∧
      s.stubBase = (s.frames F).home := by
  have hholder : s.holder = some (F, .entered) := by
    unfold State.holder
    rw [hpc]
  have hstub := h.control.pcOk
  unfold State.PcOk at hstub
  rw [hpc] at hstub
  exact ⟨hholder, at_of_holder hholder (Or.inl rfl), h.control.held _ _ hholder, hstub⟩

/-- Behind `fib(b)` the program is at the caller, which has both results. -/
theorem Inv.at_afterB (h : Inv n s φ) (hpc : s.pc = .afterB F) :
    s.At F ∧ φ (.b F) = .back ∧ φ F = .second ∧ s.stubBase = (s.frames F).home := by
  have hholder : s.holder = some (.b F, .back) := by
    unfold State.holder
    rw [hpc]
  have hpcOk := h.control.pcOk
  unfold State.PcOk at hpcOk
  rw [hpc] at hpcOk
  exact ⟨at_of_holder hholder (Or.inr (Or.inr rfl)), h.control.held _ _ hholder, hpcOk⟩

/-- `f->output = 1; return`. -/
theorem Inv.leaf (h : Inv n s φ) (hpc : s.pc = .start F) (hinput : (s.foos F).input ≤ 2) :
    Inv n ((s.setOutput F 1).ret F) (reshape φ F .back .idle .idle) := by
  obtain ⟨-, hat, hF, hstub⟩ := h.at_start hpc
  obtain ⟨ha, hb⟩ := h.kids_idle (Or.inl hF)
  have hleaf : inputOf n F ≤ 2 := by
    rw [← (h.nodes F).input (by simp [hF])]
    exact hinput
  have hleave := h.leave (F := F) (f := fun f => f) (v := 1) (by simp [hF]) hat hstub
    (by simp [hF]) (by simp [hF]) ⟨rfl, rfl⟩
    (by rw [fibValue_leaf hleaf]; rfl)
    (Kids.mk (Or.inl ⟨rfl, rfl⟩) (Or.inl ha.symm) (Or.inl hb.symm))
  rwa [State.leave, setFrame_self] at hleave

/-- The sum of the results of the children is the result of the node. -/
theorem Inv.sum_outputs (h : Inv n s φ) (hF : (φ F).Big) (ha : (φ (.a F)).Written)
    (hb : (φ (.b F)).Written) :
    (s.foos (.a F)).output + (s.foos (.b F)).output = BitVec.ofNat 32 (fibValue (inputOf n F)) := by
  rw [(h.nodes _).output ha, (h.nodes _).output hb, fibValue_inner ((h.nodes F).big hF)]
  rfl

/-- Behind `fib(b)`: `f->output = a->output + b->output; return`. -/
theorem Inv.afterB (h : Inv n s φ) (hpc : s.pc = .afterB F) :
    Inv n (s.sum F) (reshape φ F .back .ended .ended) := by
  obtain ⟨hat, hb, hF, hstub⟩ := h.at_afterB hpc
  have ha : φ (.a F) = .ended := by
    have hfits := (h.nodes F).fits
    rw [hF] at hfits
    exact Phase.eq_ended_of_status hfits.1
  have hwa : (φ (.a F)).Written := by simp [ha]
  have hwb : (φ (.b F)).Written := by simp [hb]
  have hleave := h.leave (F := F) (f := fun f => f) (by simp [hF]) hat hstub (by simp [hF])
    (by simp [hF]) ⟨rfl, rfl⟩
    (h.sum_outputs (by simp [hF]) hwa hwb)
    (Kids.mk (Or.inr ⟨rfl, rfl⟩) (Or.inr ⟨hwa, trivial⟩) (Or.inr ⟨hwb, trivial⟩))
  rwa [State.leave, setFrame_self] at hleave

/-! ### Joins -/

/-- The state after `--syncCounter` when the result is not `0`. -/
abbrev State.park (s : State) (F : FooPtr) (f : Frame → Frame) : State :=
  { s.setFrame F f with pc := .suspend }

/-- A node goes from one phase with a frame to another one and the program to `suspend`. One child
may have been counted as done. -/
theorem Inv.park {f : Frame → Frame} (h : Inv n s φ) (hat : s.At F) (hlive : (φ F).Live)
    (hlive' : p.Live) (hctrl : ¬p.Control ∧ ¬a.Control ∧ ¬b.Control)
    (hf : (f (s.frames F)).returnAdr = (s.frames F).returnAdr ∧
      (f (s.frames F)).home = (s.frames F).home)
    (ha : (φ (.a F)).Kid a) (hb : (φ (.b F)).Kid b)
    (hF : NodeOk n (s.park F f) (reshape φ F p a b) F)
    (hrunsA : a.Live → (φ F).RunsA → p.RunsA) (hsecond : b.Live → φ F = .second → p = .second)
    (hfirst : (p = .first ↔ φ F = .first) ∧ (p = .yielded ↔ φ F = .yielded)) :
    Inv n (s.park F f) (reshape φ F p a b) := by
  have hframe : (s.park F f).frames F = f (s.frames F) := Function.update_self ..
  have hframes : ∀ G, G ≠ F → (s.park F f).frames G = s.frames G := fun G hG =>
    Function.update_of_ne hG ..
  have hlink : (((s.park F f)).frames F).returnAdr = (s.frames F).returnAdr ∧
      ((s.park F f).frames F).home = (s.frames F).home := by
    rw [hframe]
    exact hf
  have hhome : ∀ G, ((s.park F f).frames G).home = (s.frames G).home := by
    intro G
    by_cases hG : G = F
    · rw [hG]
      exact hlink.2
    · rw [hframes G hG]
  have hs : SameOff F s (s.park F f) :=
    { foos := fun _ _ => rfl
      input := rfl
      frames := fun G hG => hframes G hG.1
      link := hlink
      data := fun _ _ => rfl
      stubs := fun _ _ => rfl
      forks := fun _ _ => ⟨rfl, rfl⟩ }
  -- the program is in `suspend`, so nobody has the control
  have hcontrol : ControlOk (s.park F f) (reshape φ F p a b) :=
    h.control.change hat (fun hc => absurd hc hctrl.1) (fun hc => absurd hc hctrl.2.1)
      (fun hc => absurd hc hctrl.2.2) nofun trivial
  exact h.change hs (hlive.alike (Or.inl hlive')) hF
    ((h.nodes _).kid (Or.inl rfl) hs (reshape_a ▸ ha) rfl (hframes _ (ne_a F).symm) rfl)
    ((h.nodes _).kid (Or.inr rfl) hs (reshape_b ▸ hb) rfl (hframes _ (ne_b F).symm) rfl) hcontrol
    (h.stacks_keep rfl hhome (iff_of_true hlive' hlive) ha hb hrunsA hsecond)
    (h.queues.change rfl rfl rfl hfirst ha.same.2 hb.same.2)

/-- `NodeOk` of a node that has counted a child as done and waits for the other one. -/
theorem NodeOk.counted {x y x' y' : Bool} {f : Frame → Frame} (h : NodeOk n s φ F)
    (hF : φ F = .stolen x y) (hxy : ¬(x' = true ∧ y' = true))
    (ha : (φ (.a F)).Kid a ∧ a.status = if x' then .done else .active)
    (hb : (φ (.b F)).Kid b ∧ b.status = if y' then .done else .active)
    (hy : y' = false → y = false ∧ b = φ (.b F))
    (hoff : y' = true → ¬(φ F).OnStacklet (φ (.b F)))
    (hf : f (s.frames F) =
      { s.frames F with syncCounter := 2 - (x'.toNat + y'.toNat : Nat) }) :
    NodeOk n (s.park F f) (reshape φ F (.stolen x' y') a b) F := by
  have hframe : (s.park F f).frames F = f (s.frames F) := Function.update_self ..
  have hframes : ∀ G, G ≠ F → (s.park F f).frames G = s.frames G := fun G hG =>
    Function.update_of_ne hG ..
  have hfields := h.frame
  rw [hF] at hfields
  exact {
    fits := by
      rw [reshape_self, reshape_a, reshape_b]
      exact ⟨hxy, ha.2, hb.2⟩
    tree := fun _ => h.tree (by simp [hF])
    input := fun _ => h.input (by simp [hF])
    big := fun _ => h.big (by simp [hF])
    children := fun _ => h.children (by simp [hF])
    output := by simp
    frame := by
      rw [reshape_self, hframe, hf]
      exact ⟨hfields.1, hfields.2.1, rfl⟩
    seed := by simp
    linkA := by
      rw [reshape_a, hframe, hframes _ (ne_a F).symm, hf]
      exact fun hl => h.linkA (ha.1.same.1.mp hl)
    linkB := by
      rw [reshape_b, reshape_self, if_neg nofun, hframes _ (ne_b F).symm]
      intro hl
      have hlink := h.linkB (hb.1.same.1.mp hl)
      rwa [hF, if_neg nofun] at hlink
    stub := by
      rw [reshape_self, hframe, hf]
      intro z hz
      obtain ⟨rfl, rfl⟩ := Phase.stolen.inj hz
      exact h.stub x (by rw [hF, (hy rfl).1])
    -- only a child that is not counted can lie on the stacklet
    onStacklet := by
      rw [reshape_self, reshape_b]
      intro hon
      cases y' with
      | true => exact hon.elim
      | false =>
        refine h.onStacklet ?_
        rw [hF, (hy rfl).1, ← (hy rfl).2]
        exact hon
    offStacklet := by
      rw [reshape_self, reshape_b]
      intro hnot
      cases y' with
      | true => exact h.offStacklet (hoff rfl)
      | false =>
        refine h.offStacklet ?_
        rw [hF, (hy rfl).1, ← (hy rfl).2]
        exact hnot
    unforked := by
      rw [reshape_b]
      rintro rfl
      rcases hb.1 with hb | ⟨_, hb⟩
      · exact h.unforked hb.symm
      · exact hb.elim }

/-- The last join: both children are done, and `fib` returns. -/
theorem Inv.join_last {x y : Bool} (h : Inv n s φ) (hat : s.At F) (hF : φ F = .stolen x y)
    (hstub : s.stubBase = (s.frames F).home) (hoff : ¬(φ F).OnStacklet (φ (.b F)))
    (hcount : (s.frames F).syncCounter = 1) (ha : (φ (.a F)).Written) (hb : (φ (.b F)).Written) :
    Inv n (s.join F) (reshape φ F .back .ended .ended) := by
  have hjoin : s.join F = s.leave F
      (fun f => { f with syncCounter := (s.frames F).syncCounter - 1 })
      ((s.foos (.a F)).output + (s.foos (.b F)).output) := by
    unfold State.join
    simp only [hcount, Int.sub_self, ne_eq, not_true_eq_false, if_false]
    rfl
  rw [hjoin]
  exact h.leave (by simp [hF]) hat hstub (by simp [hF]) hoff ⟨rfl, rfl⟩
    (h.sum_outputs (by simp [hF]) ha hb)
    (Kids.mk (Or.inr ⟨rfl, rfl⟩) (Or.inr ⟨ha, trivial⟩) (Or.inr ⟨hb, trivial⟩))

/-- The first join: one child is done, and the program suspends. -/
theorem Inv.join_first {x y : Bool} (x' y' : Bool) (h : Inv n s φ) (hat : s.At F)
    (hF : φ F = .stolen x y)
    (hxy : ¬(x' = true ∧ y' = true))
    (ha : (φ (.a F)).Kid a ∧ a.status = if x' then .done else .active)
    (hb : (φ (.b F)).Kid b ∧ b.status = if y' then .done else .active)
    (hctrl : ¬a.Control ∧ ¬b.Control)
    (hy : y' = false → y = false ∧ b = φ (.b F))
    (hoff : y' = true → ¬(φ F).OnStacklet (φ (.b F)))
    (hcount : (s.frames F).syncCounter = 2 ∧ x'.toNat + y'.toNat = 1)
    (hrunsA : a.Live → x' = false) :
    Inv n (s.join F) (reshape φ F (.stolen x' y') a b) := by
  have hjoin : s.join F = s.park F
      (fun f => { f with syncCounter := (s.frames F).syncCounter - 1 }) := by
    unfold State.join
    simp only [hcount.1]
    rfl
  rw [hjoin]
  refine h.park hat (by simp [hF]) trivial ⟨id, hctrl⟩ ⟨rfl, rfl⟩ ha.1 hb.1
    ((h.nodes F).counted hF hxy ha hb hy hoff ?_) (fun hl _ => ?_) (by simp [hF]) (by simp [hF])
  · simp only [hcount.1, hcount.2]
    rfl
  · rw [hrunsA hl]
    trivial

/-- Behind `fib(a)`, the program is at the node, and `stubBase` is right. -/
theorem Inv.at_afterA (h : Inv n s φ) (hpc : s.pc = .afterA F) :
    s.holder = some (.a F, .back) ∧ s.At F ∧ φ (.a F) = .back ∧
      s.stubBase = (s.frames F).home := by
  have hholder : s.holder = some (.a F, .back) := by
    unfold State.holder
    rw [hpc]
  have hstub := h.control.pcOk
  unfold State.PcOk at hstub
  rw [hpc] at hstub
  exact ⟨hholder, at_of_holder hholder (Or.inr (Or.inl rfl)), h.control.held _ _ hholder, hstub⟩

/-- `FirstChildDone`, with the second child on its way. -/
theorem Inv.firstChildDone_first (h : Inv n s φ) (hpc : s.pc = .afterA F)
    (hF : φ F = .stolen false false) :
    Inv n (s.join F) (reshape φ F (.stolen true false) .ended (φ (.b F))) := by
  obtain ⟨hholder, hat, ha, -⟩ := h.at_afterA hpc
  have hframe := (h.nodes F).frame
  have hfits := (h.nodes F).fits
  rw [hF] at hframe hfits
  -- The second child is on its way, so it is not the one that the program is at.
  have hb : ¬(φ (.b F)).Control := fun hc => by
    have := (h.control.holder _ hc).symm.trans hholder
    simp at this
  exact h.join_first true false hat hF (by simp)
    ⟨Or.inr ⟨by simp [ha], (by trivial : Phase.ended.Written)⟩, rfl⟩
    ⟨Or.inl rfl, hfits.2.2⟩ ⟨id, hb⟩ (fun _ => ⟨rfl, rfl⟩) nofun ⟨hframe.2.2, rfl⟩ nofun

/-- `FirstChildDone`, with the second child done. -/
theorem Inv.firstChildDone_last (h : Inv n s φ) (hpc : s.pc = .afterA F)
    (hF : φ F = .stolen false true) : Inv n (s.join F) (reshape φ F .back .ended .ended) := by
  obtain ⟨-, hat, ha, hstub⟩ := h.at_afterA hpc
  have hframe := (h.nodes F).frame
  have hfits := (h.nodes F).fits
  rw [hF] at hframe hfits
  have hb : φ (.b F) = .ended := Phase.eq_ended_of_status hfits.2.2
  exact h.join_last hat hF hstub (by simp [hF]) hframe.2.2 (by simp [ha]) (by simp [hb])

/-- Behind `fib(a)` when the second child was stolen: `FirstChildDone`. -/
theorem Inv.firstChildDone {y : Bool} (h : Inv n s φ) (hpc : s.pc = .afterA F)
    (hF : φ F = .stolen false y) : ∃ φ', Inv n (s.join F) φ' ∧ Lower φ φ' := by
  obtain ⟨-, -, ha, -⟩ := h.at_afterA hpc
  cases y with
  | false =>
    refine ⟨_, h.firstChildDone_first hpc hF, F, _, _, _, by simp [hF], rfl, ?_⟩
    simp [hF, ha]
  | true =>
    refine ⟨_, h.firstChildDone_last hpc hF, F, _, _, _, by simp [hF], rfl, ?_⟩
    rw [hF, ha]
    show 2 + 0 + 0 < 4 + 2 + (φ (.b F)).weight
    omega

/-- At `SecondChildDone`, the program is at the node, and `stubBase` is right. -/
theorem Inv.at_secondChildDone (h : Inv n s φ) (hpc : s.pc = .secondChildDone F) :
    s.holder = some (.b F, .freed) ∧ s.At F ∧ φ (.b F) = .freed ∧
      (∃ x, φ F = .stolen x false) ∧ s.stubBase = (s.frames F).home := by
  have hholder : s.holder = some (.b F, .freed) := by
    unfold State.holder
    rw [hpc]
  have hpcOk := h.control.pcOk
  unfold State.PcOk at hpcOk
  rw [hpc] at hpcOk
  exact ⟨hholder, at_of_holder hholder (Or.inr (Or.inr rfl)), h.control.held _ _ hholder, hpcOk⟩

/-- `SecondChildDone`, with the first child on its way. -/
theorem Inv.secondChildDone_first (h : Inv n s φ) (hpc : s.pc = .secondChildDone F)
    (hF : φ F = .stolen false false) :
    Inv n (s.join F) (reshape φ F (.stolen false true) (φ (.a F)) .ended) := by
  obtain ⟨hholder, hat, hb, -, -⟩ := h.at_secondChildDone hpc
  have hoff : ¬(φ F).OnStacklet (φ (.b F)) := by simp [hF, hb]
  have hframe := (h.nodes F).frame
  have hfits := (h.nodes F).fits
  rw [hF] at hframe hfits
  have ha : ¬(φ (.a F)).Control := fun hc => by
    have := (h.control.holder _ hc).symm.trans hholder
    simp at this
  exact h.join_first false true hat hF (by simp) ⟨Or.inl rfl, hfits.2.1⟩
    ⟨Or.inr ⟨by simp [hb], (by trivial : Phase.ended.Written)⟩, rfl⟩ ⟨ha, id⟩ nofun
    (fun _ => hoff) ⟨hframe.2.2, rfl⟩ (fun _ => rfl)

/-- `SecondChildDone`, with the first child done. -/
theorem Inv.secondChildDone_last (h : Inv n s φ) (hpc : s.pc = .secondChildDone F)
    (hF : φ F = .stolen true false) : Inv n (s.join F) (reshape φ F .back .ended .ended) := by
  obtain ⟨-, hat, hb, -, hstub⟩ := h.at_secondChildDone hpc
  have hoff : ¬(φ F).OnStacklet (φ (.b F)) := by simp [hF, hb]
  have hframe := (h.nodes F).frame
  have hfits := (h.nodes F).fits
  rw [hF] at hframe hfits
  have ha : φ (.a F) = .ended := Phase.eq_ended_of_status hfits.2.1
  exact h.join_last hat hF hstub hoff hframe.2.2 (by simp [ha]) (by simp [hb])

/-- `SecondChildDone`. -/
theorem Inv.secondChildDone (h : Inv n s φ) (hpc : s.pc = .secondChildDone F) :
    ∃ φ', Inv n (s.join F) φ' ∧ Lower φ φ' := by
  obtain ⟨-, -, hb, ⟨x, hF⟩, -⟩ := h.at_secondChildDone hpc
  cases x with
  | false =>
    refine ⟨_, h.secondChildDone_first hpc hF, F, _, _, _, by simp [hF], rfl, ?_⟩
    rw [hF, hb]
    show 4 + (φ (.a F)).weight + 0 < 5 + (φ (.a F)).weight + 1
    omega
  | true =>
    refine ⟨_, h.secondChildDone_last hpc hF, F, _, _, _, by simp [hF], rfl, ?_⟩
    rw [hF, hb]
    show 2 + 0 + 0 < 4 + (φ (.a F)).weight + 1
    omega

end

end Stacklets.LazyYield

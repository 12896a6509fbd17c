import Stacklets.SeedJoin.Seeds

/-!
# `Stacklets.SeedJoin.Refinement`: the first version runs as the later one does

`Sim s t φ m` relates a state `s` of the first version with a state `t` of the later one, for the
phases `φ` of its invariant. The `Foo`s, the frames and the stacks are the same. The program is at
the same place, but for `suspend`, which takes several steps in the first version. There `m` is
the number of turns that are left.

A step of the first version is answered by steps of the later one with the same oracle:

* a join by the frame, a call, a return, `yield`: one step;
* the activation of a seed: the two steps of `suspend` and `SecondChildSteal`;
* `stubRoutine` of the child that is counted first: the two steps of `stubRoutine` and
  `SecondChildDone`. The child that is counted last is the first one of them only, and
  `SecondChildDone` is answered by the second;
* a turn of a loop of `suspend`: none, and `m` gets smaller.
-/

set_option autoImplicit false

namespace Stacklets.SeedJoin

open Function (update update_self update_of_ne update_eq_self comp_update)
open Lib
open LazyFork (FooPtr Foo aboveFrame inputOf)
open LazyYield (Label StackPtr Stack ReturnAdr Seed SeedStackIs Phase reshape Inv Lower
  remaining remaining_lt reshape_self reshape_a reshape_b)

/-! ### What the two versions share -/

/-- What a frame of the later version shares with the first one. -/
def shared (f : LazyYield.Frame) : Frame := ⟨f.returnAdr, f.home, f.yieldStubBase⟩

/-- The `Foo`s, the frames and the stacks are the same. -/
structure Same (s : State) (t : LazyYield.State) : Prop where
  foos : s.foos = t.foos
  frames : s.frames = shared ∘ t.frames
  stackOf : s.stackOf = t.stackOf
  asked : s.asked = t.asked
  forks : s.forks = t.forks
  frees : s.frees = t.frees

section
variable {s s' : State} {t t' : LazyYield.State} {F G : FooPtr}

/-- The shared part of one frame. -/
theorem Same.frame (h : Same s t) (F : FooPtr) : s.frames F = shared (t.frames F) := by
  rw [h.frames]
  rfl

/-- Both versions store a result in the same way. -/
theorem Same.setOutput (h : Same s t) (v : BitVec 32) :
    Same (s.setOutput F v) (t.setOutput F v) :=
  { h with
    foos := by
      show update s.foos F _ = update t.foos F _
      rw [h.foos] }

/-- Both versions return in the same way. -/
theorem Same.ret (h : Same s t) : Same (s.ret F) (t.ret F) :=
  { h with
    stackOf := by
      show update s.stackOf _ _ = update t.stackOf _ _
      rw [h.frame, h.stackOf]
      rfl }

/-- Both versions add up in the same way. -/
theorem Same.sum (h : Same s t) : Same (s.sum F) (t.sum F) := by
  unfold State.sum LazyYield.State.sum
  rw [h.foos]
  exact (h.setOutput _).ret

/-- Both versions enter a call in the same way. -/
theorem Same.enter (h : Same s t) (ra : ReturnAdr) (R : Stack) (below : List FooPtr) :
    Same (s.enter F ra R below) (t.enter F ra R below) :=
  { h with
    frames := by
      show update s.frames F _ = shared ∘ update t.frames F _
      rw [h.frames, comp_update]
      rfl
    stackOf := by
      show update s.stackOf R _ = update t.stackOf R _
      rw [h.stackOf] }

/-- Both versions call in the same way. -/
theorem Same.call {arg : FooPtr} {ra : ReturnAdr} (h : Same s t) :
    Same (s.call F arg ra) (t.call F arg ra) := by
  unfold State.call LazyYield.State.call
  rw [h.frame, h.stackOf]
  exact h.enter ..

/-- The later version changes its own locals of a frame. -/
theorem Same.setFrame {f : LazyYield.Frame → LazyYield.Frame} (h : Same s t)
    (hf : shared (f (t.frames F)) = shared (t.frames F)) : Same s (t.setFrame F f) :=
  { h with
    frames := by
      show s.frames = shared ∘ update t.frames F _
      rw [comp_update, hf, h.frames]
      exact (update_eq_self F (shared ∘ t.frames)).symm }

end

/-! ### The relation -/

/-- Where the later version is. -/
def PC.later : PC → LazyYield.PC
  | .start F => .start F
  | .resume F => .resume F
  | .afterA F => .afterA F
  | .afterB F => .afterB F
  | .secondChildDone F => .secondChildDone F
  | .stubRoutine => .stubRoutine
  | .suspend => .suspend
  | .scan _ => .suspend
  | .returned => .returned
  | .wild => .wild

/-- The program is neither in `suspend` nor about to leave it. -/
def PC.isPlain : PC → Bool
  | .start _ | .afterA _ | .afterB _ | .stubRoutine | .returned => true
  | _ => false

/-- `stubBase` is in use. It is not in `suspend`, and is assigned behind `Resume`. -/
def PC.usesStubBase : PC → Bool
  | .suspend | .scan _ | .resume _ => false
  | _ => true

/-- The ready queues are the same, but for the thread that is about to leave the queue. -/
def ReadyOk (s : State) (t : LazyYield.State) : Prop :=
  match s.pc with
  | .resume _ => ∃ i, s.readyQ.front = some i ∧ t.readyQ = s.readyQ.deq i
  | _ => s.readyQ = t.readyQ

/-- `suspend` has scanned the seeds behind `l₁`, and they are activated. -/
def ScanOk (s : State) (l : List FooPtr) (m : Nat) : Prop :=
  match s.pc with
  | .suspend => m = l.length + 1
  | .scan seed => ∃ l₁ l₂, l = l₁ ++ l₂ ∧ seed = l₁.getLast? ∧
      (∀ x ∈ l₂, (s.info x).activated = true) ∧ m = l₁.length
  | _ => True

/-- The states of the two versions belong together. -/
structure Sim (s : State) (t : LazyYield.State) (φ : FooPtr → Phase) (m : Nat) : Prop where
  same : Same s t
  seeds : SeedsOk s φ
  list : ∃ l, ListOk s t φ l ∧ ScanOk s l m
  pc : t.pc = s.pc.later
  stubBase : s.pc.usesStubBase = true → s.stubBase = t.stubBase
  ready : ReadyOk s t
  /-- The frame is resumed by the child that is counted last. -/
  last : ∀ F, s.pc = .secondChildDone F → φ F = .stolen true false

/-- The later version gets to `t'` with the same oracle. -/
def Answers (oracle : Nat → Bool) (t t' : LazyYield.State) : Prop :=
  ∃ j, Lib.runFor (LazyYield.step oracle) j t = some t'

/-- The state `s'` is answered from `t`, and less is left to do. -/
def Matched (oracle : Nat → Bool) (n : Int) (s' : State) (t : LazyYield.State)
    (φ : FooPtr → Phase) (m : Nat) : Prop :=
  ∃ t' φ' m', Answers oracle t t' ∧ Inv n t' φ' ∧ Sim s' t' φ' m' ∧
    (remaining n φ' < remaining n φ ∨ (φ' = φ ∧ m' < m))

section
variable {n : Int} {oracle : Nat → Bool} {s s' : State} {t t' t'' : LazyYield.State}
  {φ φ' : FooPtr → Phase} {F G : FooPtr} {m : Nat} {p a b : Phase}

/-- A return. -/
theorem later_land (ra : ReturnAdr) : ra.land = (land ra).later := by
  cases ra <;> rfl

/-- A return leads to a place that both versions have. -/
theorem isPlain_land (ra : ReturnAdr) : (land ra).isPlain = true := by
  cases ra <;> rfl

/-- The later version answers with one step. -/
theorem Answers.one (h : LazyYield.step oracle t = some t') : Answers oracle t t' := by
  refine ⟨1, ?_⟩
  show (LazyYield.step oracle t).bind some = some t'
  rw [h]
  rfl

/-- The later version answers with two steps. -/
theorem Answers.two (h : LazyYield.step oracle t = some t')
    (h' : LazyYield.step oracle t' = some t'') : Answers oracle t t'' := by
  refine ⟨2, ?_⟩
  show (LazyYield.step oracle t).bind (Lib.runFor (LazyYield.step oracle) 1) = some t''
  rw [h]
  show (LazyYield.step oracle t').bind some = some t''
  rw [h']
  rfl

/-- The step is answered with one that leaves less to do at `F`. -/
theorem Matched.lower (k : Nat) (hinv : Inv n t φ) (hanswers : Answers oracle t t')
    (hinv' : Inv n t' (reshape φ F p a b)) (hF : φ F ≠ .idle)
    (hlt : p.weight + a.weight + b.weight <
      (φ F).weight + (φ (.a F)).weight + (φ (.b F)).weight)
    (hsim : Sim s' t' (reshape φ F p a b) k) : Matched oracle n s' t φ m :=
  ⟨t', _, k, hanswers, hinv', hsim, Or.inl (remaining_lt hinv ⟨F, p, a, b, hF, rfl, hlt⟩)⟩

/-- A call or a return. -/
theorem Sim.plain {l : List FooPtr} (hsame : Same s' t') (hseeds : SeedsOk s' φ')
    (hlist : ListOk s' t' φ' l) (hplain : s'.pc.isPlain = true) (hpc : t'.pc = s'.pc.later)
    (hstub : s'.stubBase = t'.stubBase) (hready : s'.readyQ = t'.readyQ) : Sim s' t' φ' 0 := by
  refine ⟨hsame, hseeds, ⟨l, hlist, ?_⟩, hpc, fun _ => hstub, ?_, ?_⟩
  · unfold ScanOk
    cases hp : s'.pc <;> rw [hp] at hplain <;> trivial
  · unfold ReadyOk
    cases hp : s'.pc <;> rw [hp] at hplain <;> first | exact hready | cases hplain
  · intro F hF
    rw [hF] at hplain
    cases hplain

/-- The program goes to `suspend`. -/
theorem Sim.suspended {l : List FooPtr} (hsame : Same s' t') (hseeds : SeedsOk s' φ')
    (hlist : ListOk s' t' φ' l) (hpc : s'.pc = .suspend) (hpc' : t'.pc = .suspend)
    (hready : s'.readyQ = t'.readyQ) : Sim s' t' φ' (l.length + 1) where
  same := hsame
  seeds := hseeds
  list := by
    refine ⟨l, hlist, ?_⟩
    unfold ScanOk
    rw [hpc]
  pc := by rw [hpc, hpc']; rfl
  stubBase h := by
    rw [hpc] at h
    cases h
  ready := by
    unfold ReadyOk
    rw [hpc]
    exact hready
  last F hF := by
    rw [hpc] at hF
    cases hF

/-- Outside `resume` the ready queues are the same. -/
theorem Sim.ready_eq (h : Sim s t φ m) (hpc : ∀ G, s.pc ≠ .resume G) : s.readyQ = t.readyQ := by
  have hready := h.ready
  unfold ReadyOk at hready
  cases hp : s.pc with
  | resume G => exact absurd hp (hpc G)
  | _ =>
    rw [hp] at hready
    exact hready

/-! ### The start of `fib` -/

/-- At the start of `fib`, the program is at the call, which has no children yet. -/
theorem Sim.at_start (hinv : Inv n t φ) (h : Sim s t φ m) (hpc : s.pc = .start F) :
    t.pc = .start F ∧ φ F = .entered ∧ φ (.a F) = .idle ∧ φ (.b F) = .idle := by
  have htpc : t.pc = .start F := by rw [h.pc, hpc]; rfl
  obtain ⟨-, -, hF, -⟩ := hinv.at_start htpc
  exact ⟨htpc, hF, hinv.kids_idle (Or.inl hF)⟩

/-- A step at the node `F` that leaves the seed stacks as they are, and the other seeds. -/
theorem keep_seeds {l : List FooPtr} (s' : State) (t' : LazyYield.State) (p a b : Phase)
    (h : SeedsOk s φ) (hl : ListOk s t φ l) (hp : p = .freed ↔ φ F = .freed)
    (ha : ∀ x, stage a x = stage (φ (.a F)) x) (hb : ∀ x, stage b x = stage (φ (.b F)) x)
    (hF : (stage p b).Fits s' F)
    (hlinked : (stage p b).Linked ↔ (stageOf φ F).Linked)
    (hs : s'.seeds = s.seeds ∧ s'.seedHead = s.seedHead ∧ s'.stubs = s.stubs)
    (hother : ∀ G, G ≠ F → s'.info G = s.info G ∧ s'.logs G = s.logs G)
    (hact : (s'.info F).activated = (s.info F).activated)
    (hhome : ∀ G, (s'.frames G).home = (s.frames G).home)
    (ht : t'.seeds = t.seeds ∧ t'.seedHead = t.seedHead) :
    SeedsOk s' (reshape φ F p a b) ∧ ListOk s' t' (reshape φ F p a b) l := by
  obtain ⟨hseeds, hhead, hstubs⟩ := hs
  constructor
  · exact SeedsOk.change (fun G _ => h G) hp ha hb hF (fun G hG => (hother G hG).2)
      (fun G _ => by rw [hseeds]) (fun G hG => (hother G hG).1) (fun G _ _ => hhome G)
      fun G _ => by rw [hstubs]
  · refine hl.keep hseeds hhead (fun G _ => ?_) ht.1 ht.2 (linked_reshape hp ha hb hlinked)
    by_cases hG : G = F
    · rw [hG, hact]
    · rw [(hother G hG).1]

/-- `f->output = 1; return`. -/
theorem Sim.leaf (hinv : Inv n t φ) (h : Sim s t φ m) (hpc : s.pc = .start F)
    (hinput : (s.foos F).input ≤ 2) : Matched oracle n ((s.setOutput F 1).ret F) t φ m := by
  obtain ⟨htpc, hF, ha, hb⟩ := h.at_start hinv hpc
  obtain ⟨l, hlist, -⟩ := h.list
  have hinput' : (t.foos F).input ≤ 2 := h.same.foos ▸ hinput
  have hlog : s.logs F = ⟨0, 0, 0, []⟩ := by
    have := h.seeds F
    rwa [stageOf, hF] at this
  have hkeep := keep_seeds ((s.setOutput F 1).ret F) ((t.setOutput F 1).ret F) .back .idle .idle
    h.seeds hlist
    (by simp [hF]) (by simp [ha]) (by simp [hb]) (Or.inl hlog)
    (by rw [stageOf, hF]; exact Iff.rfl) ⟨rfl, rfl, rfl⟩ (fun _ _ => ⟨rfl, rfl⟩) rfl (fun _ => rfl)
    ⟨rfl, rfl⟩
  refine .lower 0 hinv (.one ?_) (hinv.leaf htpc hinput') (by simp [hF]) (by simp [hF, ha, hb]) ?_
  · rw [LazyYield.step_start htpc, if_pos hinput']
  · refine Sim.plain (h.same.setOutput 1).ret hkeep.1 hkeep.2 (isPlain_land _) ?_
      (h.stubBase (by rw [hpc]; rfl)) (h.ready_eq (by simp [hpc]))
    show (t.frames F).returnAdr.land = (land (s.frames F).returnAdr).later
    rw [h.same.frame, ← later_land]
    rfl

/-- `yield`. -/
theorem Sim.yield (hinv : Inv n t φ) (h : Sim s t φ m) (hpc : s.pc = .start F)
    (hinput : ¬(s.foos F).input ≤ 2) (horacle : oracle s.asked = true) :
    Matched oracle n ({ s with asked := s.asked + 1 }.yield F) t φ m := by
  obtain ⟨htpc, hF, ha, hb⟩ := h.at_start hinv hpc
  obtain ⟨l, hlist, -⟩ := h.list
  have hinput' : ¬(t.foos F).input ≤ 2 := h.same.foos ▸ hinput
  have hlog : s.logs F = ⟨0, 0, 0, []⟩ := by
    have := h.seeds F
    rwa [stageOf, hF] at this
  have hstub := h.stubBase (by rw [hpc]; rfl)
  have hsame : Same ({ s with asked := s.asked + 1 }.yield F)
      ({ t with asked := t.asked + 1 }.yield F) :=
    { h.same with
      asked := congrArg (· + 1) h.same.asked
      frames := by
        show update s.frames F _ = shared ∘ update t.frames F _
        rw [comp_update, h.same.frames, hstub]
        rfl }
  have hhome : ∀ G, (({ s with asked := s.asked + 1 }.yield F).frames G).home =
      (s.frames G).home := by
    intro G
    show (update s.frames F _ G).home = _
    by_cases hG : G = F
    · rw [hG, update_self]
    · rw [update_of_ne hG]
  have hkeep := keep_seeds (F := F) ({ s with asked := s.asked + 1 }.yield F)
    ({ t with asked := t.asked + 1 }.yield F) .yielded .idle .idle h.seeds hlist
    (by simp [hF]) (by simp [ha]) (by simp [hb]) (by exact hlog)
    (by rw [stageOf, hF]; exact Iff.rfl) ⟨rfl, rfl, rfl⟩ (fun _ _ => ⟨rfl, rfl⟩) rfl hhome
    ⟨rfl, rfl⟩
  have hinv' : Inv n ({ t with asked := t.asked + 1 }.yield F)
      (reshape φ F .yielded .idle .idle) := hinv.yield htpc hinput'
  refine .lower (l.length + 1) hinv (.one ?_) hinv' (by simp [hF]) (by simp [hF, ha, hb]) ?_
  · rw [LazyYield.step_start htpc, if_neg hinput', ← h.same.asked, if_pos horacle]
  · refine Sim.suspended hsame hkeep.1 hkeep.2 rfl rfl ?_
    show s.readyQ.enq .resume (.yield F) = t.readyQ.enq .resume (.yield F)
    rw [h.ready_eq (by simp [hpc])]

/-- `fib` from the `calloc`s to the call `fib(a)`. -/
theorem Sim.fork {l : List FooPtr} (hsame : Same s t) (hseeds : SeedsOk s φ)
    (hlist : ListOk s t φ l) (hF : φ F = .entered ∨ φ F = .resumed) (ha : φ (.a F) = .idle)
    (hb : φ (.b F) = .idle) (hstub : s.stubBase = t.stubBase)
    (hhome : t.stubBase = (t.frames F).home) (hready : s.readyQ = t.readyQ) :
    Sim (s.fork F) (t.fork F) (reshape φ F .first .entered .idle) 0 := by
  have hstageF : stageOf φ F = .unpushed := by
    unfold stageOf
    rcases hF with hF | hF <;> rw [hF] <;> rfl
  have hlog : s.logs F = ⟨0, 0, 0, []⟩ := by
    have := hseeds F
    rwa [hstageF] at this
  have hp : Phase.first = .freed ↔ φ F = .freed := by rcases hF with hF | hF <;> simp [hF]
  have hA : ∀ x, stage .entered x = stage (φ (.a F)) x := fun x => by rw [ha]; rfl
  have hB : ∀ x, stage .idle x = stage (φ (.b F)) x := fun x => by rw [hb]
  have hframes : ∀ G, G ≠ .a F → (s.fork F).frames G = s.frames G :=
    fun G hG => update_of_ne hG ..
  have hinfo : (s.fork F).info = update s.info F ⟨.b F, false, 0, s.stubBase⟩ := rfl
  have hlogs : (s.fork F).logs =
      update s.logs F { s.logs F with pushes := (s.logs F).pushes + 1 } := rfl
  have hdata : ∀ G, ((s.fork F).seeds G).data =
      (update s.seeds F (LazyYield.initSeed .secondChildDone (.fib F)) G).data :=
    fun G => LazyYield.data_pushSeed G
  have hfits : (stage .first .idle).Fits (s.fork F) F := by
    refine ⟨?_, ?_, ?_⟩
    · rw [hlogs, update_self, hlog]
    · rw [hdata, update_self]
      rfl
    · rw [hinfo, update_self, hframes F (LazyYield.ne_a F), hstub, hhome, hsame.frame]
      rfl
  have hseeds' : SeedsOk (s.fork F) (reshape φ F .first .entered .idle) := by
    refine SeedsOk.change (fun G _ => hseeds G) hp hA hB hfits (fun G hG => ?_)
      (fun G hG => ?_) (fun G hG => ?_)
      (fun G hG hlinked => ?_) fun _ _ => rfl
    · rw [hlogs, update_of_ne hG]
    · rw [hdata, update_of_ne hG]
    · rw [hinfo, update_of_ne hG]
    · -- the frame of the callee is new, but its seed is not linked
      rw [hframes G]
      rintro rfl
      rw [stageOf, ha] at hlinked
      exact hlinked
  have hnot : F ∉ l := by
    rw [hlist.mem, hstageF]
    exact id
  have hlist' : ListOk (s.fork F) (t.fork F) (reshape φ F .first .entered .idle) (l ++ [F]) := by
    refine hlist.push hnot (x := LazyYield.initSeed .secondChildDone (.fib F))
      (y := LazyYield.initSeed .secondChildSteal (.fib F)) rfl (fun G hG => ?_) ?_ rfl
      (fun G hG => by rw [stageOf_reshape hp hA hB hG]) ?_
    · rw [hinfo, update_of_ne hG]
    · rw [hinfo, update_self]
    · rw [stageOf, reshape_self, reshape_b]
      trivial
  have hfoos : Same
      ((((s.callocFoo (.a F) ((s.foos F).input - 1)).callocFoo (.b F)
        ((s.foos F).input - 2)).initSeed F).pushSeed F)
      (((t.callocFoo (.a F) ((t.foos F).input - 1)).callocFoo (.b F)
        ((t.foos F).input - 2)).pushSeed F) :=
    { hsame with
      foos := by
        show update (update s.foos _ _) _ _ =
          update (update t.foos _ _) _ _
        rw [hsame.foos] }
  have hprepare : Same
      ((((s.callocFoo (.a F) ((s.foos F).input - 1)).callocFoo (.b F)
        ((s.foos F).input - 2)).initSeed F).pushSeed F) (t.prepare F) := by
    unfold LazyYield.State.prepare
    exact Same.setFrame hfoos rfl
  exact Sim.plain hprepare.call hseeds' hlist' rfl rfl hstub hready

/-- `fib` goes on without a `yield`. -/
theorem Sim.start_fork (hinv : Inv n t φ) (h : Sim s t φ m) (hpc : s.pc = .start F)
    (hinput : ¬(s.foos F).input ≤ 2) (horacle : ¬oracle s.asked = true) :
    Matched oracle n ({ s with asked := s.asked + 1 }.fork F) t φ m := by
  obtain ⟨htpc, hF, ha, hb⟩ := h.at_start hinv hpc
  obtain ⟨l, hlist, -⟩ := h.list
  have hinput' : ¬(t.foos F).input ≤ 2 := h.same.foos ▸ hinput
  have hbig : 2 < inputOf n F := by
    rw [← (hinv.nodes F).input (by simp [hF])]
    omega
  obtain ⟨hholder, -, -, hhome⟩ := hinv.at_start htpc
  have hinv' : Inv n { t with asked := t.asked + 1 } φ :=
    hinv.same rfl rfl rfl rfl rfl rfl rfl ⟨rfl, rfl⟩
      ⟨hinv.control.holder, hinv.control.held, hinv.control.pcOk⟩
  refine .lower 0 hinv (.one ?_) (hinv'.fork (hF ▸ hholder) (Or.inl hF) hhome hbig) (by simp [hF])
    (by simp [hF, ha, hb]) ?_
  · rw [LazyYield.step_start htpc, if_neg hinput', ← h.same.asked, if_neg horacle]
  · refine Sim.fork (s := { s with asked := s.asked + 1 }) (l := l) ?_ h.seeds ?_ (Or.inl hF) ha hb
      (h.stubBase (by rw [hpc]; rfl)) hhome (h.ready_eq (by simp [hpc]))
    · exact { h.same with asked := congrArg (· + 1) h.same.asked }
    · exact ⟨hlist.seeds, hlist.later, hlist.mem⟩

/-- `Resume`. -/
theorem Sim.resume (hinv : Inv n t φ) (h : Sim s t φ m) (hpc : s.pc = .resume F) :
    Matched oracle n (s.resume F) t φ m := by
  have htpc : t.pc = .resume F := by rw [h.pc, hpc]; rfl
  obtain ⟨hF, hhome, hinv'⟩ := hinv.resume htpc
  obtain ⟨ha, hb⟩ := hinv.kids_idle (Or.inr hF)
  obtain ⟨l, hlist, -⟩ := h.list
  obtain ⟨i, hfront, hdeq⟩ : ∃ i, s.readyQ.front = some i ∧ t.readyQ = s.readyQ.deq i := by
    have hready := h.ready
    unfold ReadyOk at hready
    rwa [hpc] at hready
  have hresume : s.resume F =
      { s with stubBase := (s.frames F).yieldStubBase, readyQ := s.readyQ.deq i }.fork F := by
    unfold State.resume
    simp only [hfront]
  refine .lower 0 hinv (.one ?_) hinv' (by simp [hF]) (by simp [hF, ha, hb]) ?_
  · simp only [LazyYield.step, htpc]
  · rw [hresume]
    refine Sim.fork
      (s := { s with stubBase := (s.frames F).yieldStubBase, readyQ := s.readyQ.deq i })
      (l := l) ?_ h.seeds ?_ (Or.inr hF) ha hb
      (congrArg Frame.yieldStubBase (h.same.frame F)) hhome hdeq.symm
    · exact { h.same with }
    · exact ⟨hlist.seeds, hlist.later, hlist.mem⟩

/-- Behind `fib(a)` the seed is waiting, or the second child was stolen and is not the one that the
program is at. -/
theorem Sim.at_afterA (hinv : Inv n t φ) (h : Sim s t φ m) (hpc : s.pc = .afterA F) :
    t.pc = .afterA F ∧ φ (.a F) = .back ∧ φ (.b F) ≠ .freed ∧
      ((φ F = .first ∧ φ (.b F) = .idle) ∨ ∃ y, φ F = .stolen false y) := by
  have htpc : t.pc = .afterA F := by rw [h.pc, hpc]; rfl
  obtain ⟨hholder, -, ha, -⟩ := hinv.at_afterA htpc
  have hfits := (hinv.nodes F).fits
  rw [ha] at hfits
  refine ⟨htpc, ha, fun hb => ?_, ?_⟩
  · have := (hinv.control.holder (.b F) (by simp [hb])).symm.trans hholder
    simp at this
  · cases hF : φ F with
    | first =>
      rw [hF] at hfits
      exact Or.inl ⟨rfl, LazyYield.Phase.eq_idle_of_status hfits.2⟩
    | stolen x y =>
      rw [hF] at hfits
      cases x with
      | false => exact Or.inr ⟨y, rfl⟩
      | true => exact absurd hfits.2.1 nofun
    | taken =>
      have := (hinv.control.holder F (by simp [hF])).symm.trans hholder
      exact absurd (Prod.mk.inj (Option.some.inj this)).1 (LazyYield.ne_a F)
    | _ => simp [hF] at hfits

/-- The seed was not activated: `popSeed(seed); fib(b)`. -/
theorem Sim.afterA_waiting (hinv : Inv n t φ) (h : Sim s t φ m) (hpc : s.pc = .afterA F)
    (hF : φ F = .first) : Matched oracle n (s.afterA F) t φ m := by
  obtain ⟨htpc, ha, -, -⟩ := h.at_afterA hinv hpc
  have hb : φ (.b F) = .idle := by
    have hfits := (hinv.nodes F).fits
    rw [hF] at hfits
    exact LazyYield.Phase.eq_idle_of_status hfits.2
  obtain ⟨l, hlist, -⟩ := h.list
  have hframe := (hinv.nodes F).frame
  rw [hF] at hframe
  have hstageF : stageOf φ F = .waiting := by rw [stageOf, hF]; rfl
  obtain ⟨hlog, -, hinfo⟩ : Stage.waiting.Fits s F := hstageF ▸ h.seeds F
  have hafterA : s.afterA F = (s.popSeed F).call F (.b F) (.afterB F) := by
    unfold State.afterA
    rw [hinfo]
    rfl
  have hp : Phase.second = .freed ↔ φ F = .freed := by simp [hF]
  have hA : ∀ x, stage .ended x = stage (φ (.a F)) x := fun x => by rw [ha]; rfl
  have hB : ∀ x, stage .entered x = stage (φ (.b F)) x := fun x => by rw [hb]; rfl
  have hframes : ∀ G, G ≠ .b F →
      ((s.popSeed F).call F (.b F) (.afterB F)).frames G = s.frames G :=
    fun G hG => update_of_ne hG ..
  have hlogs : ((s.popSeed F).call F (.b F) (.afterB F)).logs =
      update s.logs F { s.logs F with pops := (s.logs F).pops + 1 } := rfl
  have hfits : (stage .second .entered).Fits ((s.popSeed F).call F (.b F) (.afterB F)) F := by
    show ((s.popSeed F).call F (.b F) (.afterB F)).logs F = ⟨1, 0, 1, []⟩
    rw [hlogs, update_self, hlog]
  -- the owner has popped its own seed; the other seeds stay
  have hseeds' : SeedsOk ((s.popSeed F).call F (.b F) (.afterB F))
      (reshape φ F .second .ended .entered) := by
    refine SeedsOk.change (fun G _ => h.seeds G) hp hA hB hfits (fun G hG => ?_)
      (fun G _ => LazyYield.data_popSeed G)
      (fun _ _ => rfl) (fun G hG hlinked => ?_) fun _ _ => rfl
    · rw [hlogs, update_of_ne hG]
    · rw [hframes G]
      rintro rfl
      rw [stageOf, hb] at hlinked
      exact hlinked
  have hmem : F ∈ l := by
    rw [hlist.mem, hstageF]
    trivial
  obtain ⟨l', hlist'⟩ : ∃ l', ListOk ((s.popSeed F).call F (.b F) (.afterB F))
      ((t.popSeed F).call F (.b F) (.afterB F)) (reshape φ F .second .ended .entered) l' := by
    refine hlist.pop hmem rfl (fun _ => rfl) ?_ (fun G hG => by rw [stageOf_reshape hp hA hB hG]) ?_
    · rw [hinfo]
      rfl
    · rw [stageOf, reshape_self, reshape_b]
      exact id
  rw [hafterA]
  refine .lower 0 hinv (.one ?_) (hinv.firstChildDoneNormally htpc hF) (by simp [hF])
    (by simp [hF, ha, hb]) ?_
  · simp only [LazyYield.step, htpc, hframe.1]
  · refine Sim.plain (Same.call ?_) hseeds' hlist' rfl rfl (h.stubBase (by rw [hpc]; rfl))
      (h.ready_eq (by simp [hpc]))
    exact { h.same with }

/-! ### Joins -/

/-- The children that a stolen seed still waits for. -/
theorem stage_stolen {x y : Bool} (hb : b ≠ .freed) :
    stage (.stolen x y) b = .active (x.toNat + y.toNat) := by
  simp [stage, hb]

/-- `--syncCounter` of the later version, when it is not the last one. -/
theorem join_of_two (hc : (t.frames F).syncCounter = 2) :
    t.join F = { t.setFrame F fun f => { f with syncCounter := 1 } with pc := .suspend } := by
  unfold LazyYield.State.join
  simp only [hc]
  rfl

/-- `--syncCounter` of the later version, when it is the last one. -/
theorem join_of_one (hc : (t.frames F).syncCounter = 1) :
    t.join F = (t.setFrame F fun f => { f with syncCounter := 0 }).sum F := by
  unfold LazyYield.State.join
  simp only [hc]
  rfl

/-- The other version of the join: a child is counted in the seed. -/
theorem Stage.Fits.count {k : Nat} (h : (Stage.active k).Fits s F) (hk : k < 2) :
    (Stage.active (k + 1)).Fits (s.setJoinCounter F (1 - k)) F := by
  obtain ⟨hlog, hdata, hinfo, hstub⟩ := h
  refine ⟨?_, hdata, ?_, hstub⟩
  · show update s.logs F _ F = _
    rw [update_self, hlog]
    obtain rfl | rfl : k = 0 ∨ k = 1 := by omega
    · rfl
    · rfl
  · show update s.info F _ F = _
    rw [update_self, hinfo]
    show SeedInfo.mk _ _ _ _ = SeedInfo.mk _ _ _ _
    congr 1
    push_cast
    ring

/-- The join counter of a seed is its own. -/
theorem other_setJoinCounter (s : State) (v : Int) (G : FooPtr) (hG : G ≠ F) :
    (s.setJoinCounter F v).info G = s.info G ∧ (s.setJoinCounter F v).logs G = s.logs G :=
  ⟨update_of_ne hG .., update_of_ne hG ..⟩

/-- The join counter says nothing about the activation. -/
theorem activated_setJoinCounter (s : State) (F : FooPtr) (v : Int) :
    ((s.setJoinCounter F v).info F).activated = (s.info F).activated := by
  show (update s.info F _ F).activated = _
  rw [update_self]

/-- The first child is counted first, and the program goes to `suspend`. -/
theorem Sim.afterA_first (hinv : Inv n t φ) (h : Sim s t φ m) (hpc : s.pc = .afterA F)
    (hF : φ F = .stolen false false) : Matched oracle n (s.afterA F) t φ m := by
  obtain ⟨htpc, ha, hb, -⟩ := h.at_afterA hinv hpc
  obtain ⟨l, hlist, -⟩ := h.list
  have hframe := (hinv.nodes F).frame
  rw [hF] at hframe
  have hstageF : stageOf φ F = .active 0 := by rw [stageOf, hF, stage_stolen hb]; rfl
  have hfits : (Stage.active 0).Fits s F := hstageF ▸ h.seeds F
  have hafterA : s.afterA F = (s.setJoinCounter F 1).goto .suspend := by
    unfold State.afterA
    rw [hfits.2.2.1]
    rfl
  have hstage' : stage (.stolen true false) (φ (.b F)) = .active 1 := stage_stolen hb
  have hkeep := keep_seeds ((s.setJoinCounter F 1).goto .suspend) (t.join F) (.stolen true false)
    .ended (φ (.b F)) h.seeds hlist (by simp [hF]) (fun x => by rw [ha]; rfl) (fun _ => rfl)
    (hstage' ▸ hfits.count (by omega)) (by rw [hstage', hstageF]; exact Iff.rfl) ⟨rfl, rfl, rfl⟩
    (other_setJoinCounter s 1) (activated_setJoinCounter s F 1) (fun _ => rfl)
    (by rw [join_of_two hframe.2.2]; exact ⟨rfl, rfl⟩)
  rw [hafterA]
  refine .lower (l.length + 1) hinv (.one ?_) (hinv.firstChildDone_first htpc hF) (by simp [hF])
    (by simp [hF, ha]) ?_
  · simp only [LazyYield.step, htpc, hframe.1]
  · refine Sim.suspended ?_ hkeep.1 hkeep.2 rfl ?_ ?_
    · rw [join_of_two hframe.2.2]
      exact { h.same.setFrame (F := F) (f := fun f => { f with syncCounter := 1 }) rfl with }
    · rw [join_of_two hframe.2.2]
    · rw [join_of_two hframe.2.2]
      exact h.ready_eq (by simp [hpc])

/-- The frame goes on behind the child that is counted last: `popSeed(seed)`, the sum and the
return. -/
theorem Sim.finish {x y : Bool} {l : List FooPtr} (hsame : Same s t)
    (hseeds : ∀ G, G ≠ F → (stageOf φ G).Fits s G) (hlist : ListOk s t φ l)
    (hlog : s.logs F = ⟨1, 1, 0, [2, 1, 0]⟩) (hact : (s.info F).activated = true)
    (hF : φ F = .stolen x y) (ha : (φ (.a F)).Written) (hb : (φ (.b F)).Written)
    (hcount : (t.frames F).syncCounter = 1) (hstub : s.stubBase = t.stubBase)
    (hready : s.readyQ = t.readyQ) :
    Sim (s.finish F) (t.join F) (reshape φ F .back .ended .ended) 0 := by
  have hp : Phase.back = .freed ↔ φ F = .freed := by simp [hF]
  have hA : ∀ x, stage .ended x = stage (φ (.a F)) x := by
    intro x
    cases hp : φ (.a F) <;> simp [hp] at ha <;> rfl
  have hB : ∀ x, stage .ended x = stage (φ (.b F)) x := by
    intro x
    cases hp : φ (.b F) <;> simp [hp] at hb <;> rfl
  have hlogs : (s.finish F).logs =
      update s.logs F { s.logs F with pops := (s.logs F).pops + 1 } := rfl
  -- pushed, activated and counted down, the seed is popped now
  have hseeds' : SeedsOk (s.finish F) (reshape φ F .back .ended .ended) := by
    refine SeedsOk.change hseeds hp hA hB ?_ (fun G hG => ?_)
      (fun G _ => LazyYield.data_popSeed G) (fun _ _ => rfl) (fun _ _ _ => rfl) fun _ _ => rfl
    · refine Or.inr (Or.inr ?_)
      rw [hlogs, update_self, hlog]
    · rw [hlogs, update_of_ne hG]
  have hmem : F ∈ l := by
    rw [hlist.mem, stageOf, hF]
    trivial
  rw [join_of_one hcount]
  obtain ⟨l', hlist'⟩ : ∃ l', ListOk (s.finish F)
      ((t.setFrame F fun f => { f with syncCounter := 0 }).sum F)
      (reshape φ F .back .ended .ended) l' := by
    refine hlist.pop hmem rfl (fun _ => rfl) ?_ (fun G hG => by rw [stageOf_reshape hp hA hB hG]) ?_
    · rw [if_pos hact]
      rfl
    · rw [stageOf, reshape_self, reshape_b]
      exact id
  have hsame' : Same (s.popSeed F) (t.setFrame F fun f => { f with syncCounter := 0 }) := by
    refine Same.setFrame ?_ rfl
    exact { hsame with }
  refine Sim.plain hsame'.sum hseeds' hlist' (isPlain_land _) ?_ hstub hready
  show ((t.setFrame F fun f => { f with syncCounter := 0 }).frames F).returnAdr.land =
    (land ((s.popSeed F).frames F).returnAdr).later
  rw [hsame'.frame, ← later_land]
  rfl

/-- The first child is counted last: `FirstChildDone`. -/
theorem Sim.afterA_last (hinv : Inv n t φ) (h : Sim s t φ m) (hpc : s.pc = .afterA F)
    (hF : φ F = .stolen false true) : Matched oracle n (s.afterA F) t φ m := by
  obtain ⟨htpc, ha, hb, -⟩ := h.at_afterA hinv hpc
  obtain ⟨l, hlist, -⟩ := h.list
  have hframe := (hinv.nodes F).frame
  have hfits := (hinv.nodes F).fits
  rw [hF] at hframe hfits
  have hended : φ (.b F) = .ended := LazyYield.Phase.eq_ended_of_status hfits.2.2
  have hstageF : stageOf φ F = .active 1 := by rw [stageOf, hF, stage_stolen hb]; rfl
  obtain ⟨hlog, -, hinfo, -⟩ : (Stage.active 1).Fits s F := hstageF ▸ h.seeds F
  have hafterA : s.afterA F = (s.setJoinCounter F 0).finish F := by
    unfold State.afterA
    rw [hinfo]
    rfl
  have hact : ∀ G ∈ l, ((s.setJoinCounter F 0).info G).activated = (s.info G).activated := by
    intro G _
    by_cases hG : G = F
    · rw [hG, activated_setJoinCounter]
    · rw [(other_setJoinCounter s 0 G hG).1]
  rw [hafterA]
  refine .lower 0 hinv (.one ?_) (hinv.firstChildDone_last htpc hF) (by simp [hF])
    (by simp [hF, ha, hended]) ?_
  · simp only [LazyYield.step, htpc, hframe.1]
  · refine Sim.finish (l := l) { h.same with } (fun G hG => ?_) ?_ ?_ ?_ hF (by simp [ha])
      (by simp [hended]) hframe.2.2 (h.stubBase (by rw [hpc]; rfl)) (h.ready_eq (by simp [hpc]))
    · exact (h.seeds G).congr (update_of_ne hG ..) rfl (update_of_ne hG ..) rfl
        rfl
    · exact hlist.keep rfl rfl hact rfl rfl fun _ => Iff.rfl
    · show update s.logs F _ F = _
      rw [update_self, hlog]
      rfl
    · rw [activated_setJoinCounter, hinfo]

/-- Behind `fib(a)`. -/
theorem Sim.afterA (hinv : Inv n t φ) (h : Sim s t φ m) (hpc : s.pc = .afterA F) :
    Matched oracle n (s.afterA F) t φ m := by
  obtain ⟨-, -, -, ⟨hF, -⟩ | ⟨y, hF⟩⟩ := h.at_afterA hinv hpc
  · exact h.afterA_waiting hinv hpc hF
  · cases y with
    | false => exact h.afterA_first hinv hpc hF
    | true => exact h.afterA_last hinv hpc hF

/-- Behind `fib(b)`. -/
theorem Sim.afterB (hinv : Inv n t φ) (h : Sim s t φ m) (hpc : s.pc = .afterB F) :
    Matched oracle n (s.sum F) t φ m := by
  have htpc : t.pc = .afterB F := by rw [h.pc, hpc]; rfl
  obtain ⟨-, hb, hF, -⟩ := hinv.at_afterB htpc
  have ha : φ (.a F) = .ended := by
    have hfits := (hinv.nodes F).fits
    rw [hF] at hfits
    exact LazyYield.Phase.eq_ended_of_status hfits.1
  obtain ⟨l, hlist, -⟩ := h.list
  have hlog : s.logs F = ⟨1, 0, 1, []⟩ := by
    have := h.seeds F
    rwa [stageOf, hF] at this
  have hkeep := keep_seeds (s.sum F) (t.sum F) .back .ended .ended h.seeds hlist (by simp [hF])
    (by simp [ha]) (fun x => by rw [hb]; rfl) (Or.inr (Or.inl hlog))
    (by rw [stageOf, hF]; exact Iff.rfl) ⟨rfl, rfl, rfl⟩ (fun _ _ => ⟨rfl, rfl⟩) rfl (fun _ => rfl)
    ⟨rfl, rfl⟩
  refine .lower 0 hinv (.one ?_) (hinv.afterB htpc) (by simp [hF]) (by simp [hF, ha, hb]) ?_
  · simp only [LazyYield.step, htpc]
  · refine Sim.plain h.same.sum hkeep.1 hkeep.2 (isPlain_land _) ?_
      (h.stubBase (by rw [hpc]; rfl)) (h.ready_eq (by simp [hpc]))
    show (t.frames F).returnAdr.land = (land (s.frames F).returnAdr).later
    rw [h.same.frame, ← later_land]
    rfl

/-- `SecondChildDone`. -/
theorem Sim.secondChildDone (hinv : Inv n t φ) (h : Sim s t φ m)
    (hpc : s.pc = .secondChildDone F) : Matched oracle n (s.finish F) t φ m := by
  have htpc : t.pc = .secondChildDone F := by rw [h.pc, hpc]; rfl
  obtain ⟨-, -, hb, -, -⟩ := hinv.at_secondChildDone htpc
  have hF := h.last F hpc
  obtain ⟨l, hlist, -⟩ := h.list
  have hframe := (hinv.nodes F).frame
  have hfits := (hinv.nodes F).fits
  rw [hF] at hframe hfits
  have ha : φ (.a F) = .ended := LazyYield.Phase.eq_ended_of_status hfits.2.1
  have hstageF : stageOf φ F = .active 2 := by rw [stageOf, hF, hb]; rfl
  obtain ⟨hlog, -, hinfo, -⟩ : (Stage.active 2).Fits s F := hstageF ▸ h.seeds F
  refine .lower 0 hinv (.one ?_) (hinv.secondChildDone_last htpc hF) (by simp [hF])
    (by simp [hF, ha, hb]) ?_
  · simp only [LazyYield.step, htpc]
  · exact Sim.finish h.same (fun G _ => h.seeds G) hlist hlog (by rw [hinfo]) hF (by simp [ha])
      (by simp [hb]) hframe.2.2 (h.stubBase (by rw [hpc]; rfl)) (h.ready_eq (by simp [hpc]))

/-! ### `stubRoutine` -/

/-- Both versions count the `free` of a stacklet. -/
theorem Same.freed (h : Same s t) (G : FooPtr) :
    Same { s with frees := update s.frees G (s.frees G + 1) }
      { t with frees := update t.frees G (t.frees G + 1) } :=
  { h with
    frees := by
      show update s.frees _ _ = update t.frees _ _
      rw [h.frees] }

/-- Of two steps of one frame, the later one says where the frame and its children are. -/
theorem reshape_reshape {p' a' b' : Phase} :
    reshape (reshape φ F p a b) F p' a' b' = reshape φ F p' a' b' := by
  funext G
  unfold reshape
  split
  · rfl
  · split
    · rfl
    · split <;> rfl

/-- In `stubRoutine`, the stub is that of a stolen second child which has returned. -/
theorem Sim.at_stubRoutine (hinv : Inv n t φ) (h : Sim s t φ m) (hpc : s.pc = .stubRoutine) :
    t.pc = .stubRoutine ∧ ∃ F x, s.stubBase = .stacklet (.b F) ∧ t.stubBase = .stacklet (.b F) ∧
      φ F = .stolen x false ∧ φ (.b F) = .back ∧ (Stage.active x.toNat).Fits s F := by
  have htpc : t.pc = .stubRoutine := by rw [h.pc, hpc]; rfl
  have hpcOk := hinv.control.pcOk
  unfold LazyYield.State.PcOk at hpcOk
  rw [htpc] at hpcOk
  obtain ⟨F, x, hbase, hF⟩ := hpcOk
  have hb := (hinv.stubRoutine_at htpc hbase hF).1
  have hstageF : stageOf φ F = .active x.toNat := by
    rw [stageOf, hF, hb]
    rfl
  exact ⟨htpc, F, x, (h.stubBase (by rw [hpc]; rfl)).trans hbase, hbase, hF, hb,
    hstageF ▸ h.seeds F⟩

/-- The second child is counted first, and the program goes to `suspend`. -/
theorem Sim.stubRoutine_first (hinv : Inv n t φ) (h : Sim s t φ m) (hpc : s.pc = .stubRoutine)
    (hbase : s.stubBase = .stacklet (.b F)) (hF : φ F = .stolen false false)
    (hb : φ (.b F) = .back) (hfits : (Stage.active 0).Fits s F) :
    Matched oracle n s.stubRoutine t φ m := by
  have htpc : t.pc = .stubRoutine := by rw [h.pc, hpc]; rfl
  have hbase' : t.stubBase = .stacklet (.b F) := (h.stubBase (by rw [hpc]; rfl)).symm.trans hbase
  obtain ⟨-, hroutine, hinv₁⟩ := hinv.stubRoutine_at htpc hbase' hF
  obtain ⟨l, hlist, -⟩ := h.list
  obtain ⟨-, -, hinfo, hstub⟩ := id hfits
  have hframe := (hinv.nodes F).frame
  rw [hF] at hframe
  have hcount : (t.stubRoutine.frames F).syncCounter = 2 := by
    rw [hroutine]
    exact hframe.2.2
  -- the later version needs two steps: the stub routine and the count
  have htpc₁ : t.stubRoutine.pc = .secondChildDone F := by rw [hroutine]
  have hinv₂ := hinv₁.secondChildDone_first htpc₁ reshape_self
  rw [reshape_reshape, reshape_a] at hinv₂
  have hs : s.stubRoutine =
      { s.setJoinCounter F 1 with
        frees := update s.frees (.b F) (s.frees (.b F) + 1) }.goto .suspend := by
    unfold State.stubRoutine
    simp only [hbase, hstub, hinfo]
    rfl
  have hkeep := keep_seeds s.stubRoutine (t.stubRoutine.join F) (.stolen false true) (φ (.a F))
    .ended h.seeds hlist (by simp [hF]) (fun _ => rfl) (fun x => by rw [hb]; rfl)
    (by rw [hs]; exact hfits.count (by omega)) (by rw [stageOf, hF]; exact Iff.rfl)
    (by rw [hs]; exact ⟨rfl, rfl, rfl⟩) (by rw [hs]; exact other_setJoinCounter s 1)
    (by rw [hs]; exact activated_setJoinCounter s F 1) (by rw [hs]; exact fun _ => rfl)
    (by rw [join_of_two hcount, hroutine]; exact ⟨rfl, rfl⟩)
  have hstep : LazyYield.step oracle t = some t.stubRoutine := by
    simp only [LazyYield.step, htpc]
  have hstep₁ : LazyYield.step oracle t.stubRoutine = some (t.stubRoutine.join F) := by
    simp only [LazyYield.step, htpc₁]
  refine .lower (l.length + 1) hinv (.two hstep hstep₁) hinv₂ (by simp [hF]) ?_ ?_
  · rw [hF, hb]
    show 4 + (φ (.a F)).weight + 0 < 5 + (φ (.a F)).weight + 2
    omega
  · refine Sim.suspended ?_ hkeep.1 hkeep.2 (by rw [hs]; rfl) (by rw [join_of_two hcount]) ?_
    · rw [hs, join_of_two hcount, hroutine]
      exact { (h.same.freed (.b F)).setFrame (F := F)
        (f := fun f => { f with syncCounter := 1 }) rfl with }
    · rw [hs, join_of_two hcount, hroutine]
      exact h.ready_eq (by simp [hpc])

/-- The second child is counted last, and the program resumes the frame at `SecondChildDone`. -/
theorem Sim.stubRoutine_last (hinv : Inv n t φ) (h : Sim s t φ m) (hpc : s.pc = .stubRoutine)
    (hbase : s.stubBase = .stacklet (.b F)) (hF : φ F = .stolen true false)
    (hb : φ (.b F) = .back) (hfits : (Stage.active 1).Fits s F) :
    Matched oracle n s.stubRoutine t φ m := by
  have htpc : t.pc = .stubRoutine := by rw [h.pc, hpc]; rfl
  have hbase' : t.stubBase = .stacklet (.b F) := (h.stubBase (by rw [hpc]; rfl)).symm.trans hbase
  obtain ⟨-, hroutine, hinv₁⟩ := hinv.stubRoutine_at htpc hbase' hF
  obtain ⟨l, hlist, -⟩ := h.list
  obtain ⟨-, hdata, hinfo, hstub⟩ := id hfits
  -- the seed says where the frame goes on
  have hsp : (s.seeds F).sp = .fib F := congrArg Prod.snd hdata
  have hadr : (s.seeds F).adr = .secondChildDone := congrArg Prod.fst hdata
  have hs : s.stubRoutine =
      { s.setJoinCounter F 0 with
        frees := update s.frees (.b F) (s.frees (.b F) + 1)
        stubBase := (s.frames F).home
        pc := .secondChildDone F } := by
    unfold State.stubRoutine State.setJoinCounter
    simp only [hbase, hstub, hinfo, update_self, hsp, hadr]
    rfl
  have hkeep := keep_seeds s.stubRoutine t.stubRoutine (.stolen true false) (φ (.a F)) .freed
    h.seeds hlist (by simp [hF]) (fun _ => rfl) (fun x => by rw [hb]; rfl)
    (by rw [hs]; exact hfits.count (by omega)) (by rw [stageOf, hF]; exact Iff.rfl)
    (by rw [hs]; exact ⟨rfl, rfl, rfl⟩) (by rw [hs]; exact other_setJoinCounter s 0)
    (by rw [hs]; exact activated_setJoinCounter s F 0) (by rw [hs]; exact fun _ => rfl)
    (by rw [hroutine]; exact ⟨rfl, rfl⟩)
  refine .lower 0 hinv (.one ?_) hinv₁ (by simp [hF]) ?_ ?_
  · simp only [LazyYield.step, htpc]
  · rw [hF, hb]
    show 4 + (φ (.a F)).weight + 1 < 4 + (φ (.a F)).weight + 2
    omega
  · refine ⟨?_, hkeep.1, ⟨l, hkeep.2, by rw [hs]; trivial⟩, by rw [hs, hroutine]; rfl, ?_, ?_, ?_⟩
    · rw [hs, hroutine]
      exact { h.same.freed (.b F) with }
    · rw [hs, hroutine]
      exact fun _ => congrArg Frame.home (h.same.frame F)
    · rw [hs, hroutine]
      exact h.ready_eq (by simp [hpc])
    · intro G hG
      rw [hs] at hG
      cases hG
      exact reshape_self

/-- `stubRoutine`. -/
theorem Sim.stubRoutine (hinv : Inv n t φ) (h : Sim s t φ m) (hpc : s.pc = .stubRoutine) :
    Matched oracle n s.stubRoutine t φ m := by
  obtain ⟨-, F, x, hbase, -, hF, hb, hfits⟩ := h.at_stubRoutine hinv hpc
  cases x with
  | false => exact h.stubRoutine_first hinv hpc hbase hF hb hfits
  | true => exact h.stubRoutine_last hinv hpc hbase hF hb hfits

/-! ### `suspend` -/

/-- The scan of the seed stack begins. -/
theorem Sim.suspend (hinv : Inv n t φ) (h : Sim s t φ m) (hpc : s.pc = .suspend) :
    Matched oracle n (s.goto (.scan s.seedHead)) t φ m := by
  obtain ⟨l, hlist, hscan⟩ := h.list
  unfold ScanOk at hscan
  rw [hpc] at hscan
  refine ⟨t, φ, l.length, ⟨0, rfl⟩, hinv, ?_, Or.inr ⟨rfl, by rw [hscan]; omega⟩⟩
  exact
    { same := { h.same with }
      seeds := h.seeds
      list := ⟨l, ⟨hlist.seeds, hlist.later, hlist.mem⟩, l, [], (List.append_nil l).symm,
        hlist.seeds.back_eq, fun _ hx => absurd hx List.not_mem_nil, rfl⟩
      pc := by rw [h.pc, hpc]; rfl
      stubBase := fun hu => by cases hu
      ready := h.ready_eq (by simp [hpc])
      last := fun F hF => by cases hF }

/-- The scan goes on behind a seed that is activated. -/
theorem Sim.scan_next {seed : FooPtr} (hinv : Inv n t φ) (h : Sim s t φ m)
    (hpc : s.pc = .scan (some seed)) (hact : (s.info seed).activated = true) :
    Matched oracle n (s.goto (.scan (s.seeds seed).next)) t φ m := by
  obtain ⟨l, hlist, hscan⟩ := h.list
  unfold ScanOk at hscan
  rw [hpc] at hscan
  obtain ⟨l₁, l₂, rfl, hlast, hl₂, rfl⟩ := hscan
  obtain ⟨l₀, rfl⟩ := List.getLast?_eq_some_iff.mp hlast.symm
  have hlinks := hlist.seeds.links l₀ seed l₂ (by simp)
  refine ⟨t, φ, l₀.length, ⟨0, rfl⟩, hinv, ?_, Or.inr ⟨rfl, by simp⟩⟩
  exact
    { same := { h.same with }
      seeds := h.seeds
      list := ⟨l₀ ++ [seed] ++ l₂, ⟨hlist.seeds, hlist.later, hlist.mem⟩, l₀, seed :: l₂,
        by simp, hlinks.1, fun x hx => by
          rcases List.mem_cons.mp hx with rfl | hx
          · exact hact
          · exact hl₂ x hx, rfl⟩
      pc := by rw [h.pc, hpc]; rfl
      stubBase := fun hu => by cases hu
      ready := h.ready_eq (by simp [hpc])
      last := fun F hF => by cases hF }

/-- The seeds that were scanned are activated, so the later version does not have them. -/
theorem waiting_eq_nil {l : List FooPtr} (h : ∀ x ∈ l, (s.info x).activated = true) :
    waiting s l = [] := by
  unfold waiting
  rw [List.filter_eq_nil_iff]
  intro x hx
  rw [h x hx]
  simp

/-- `stackletFork` of a seed that was waiting. -/
theorem stackletFork_eq (hfits : Stage.waiting.Fits s F) :
    (s.activate F).stackletFork F =
      { (s.activate F).setJoinCounter F 2 with
        stubs := update s.stubs (.b F) ⟨F, .b F⟩
        stubBase := .stacklet (.b F)
        forks := update s.forks (.b F) (s.forks (.b F) + 1) }.enter (.b F) .stubRoutine
          (.stacklet (.b F)) [] := by
  have hargv : ((s.activate F).info F).argv = .b F := by
    show (update s.info F _ F).argv = _
    rw [update_self, hfits.2.2]
  unfold State.stackletFork
  simp only [hargv]
  rfl

/-- The seed is active then, and no child is counted. -/
theorem Stage.Fits.activate (h : Stage.waiting.Fits s F) :
    (Stage.active 0).Fits ((s.activate F).stackletFork F) F := by
  rw [stackletFork_eq h]
  obtain ⟨hlog, hdata, hinfo⟩ := h
  have hself : (s.activate F).logs F = ⟨1, 1, 0, []⟩ ∧
      (s.activate F).info F = ⟨.b F, true, 0, (s.frames F).home⟩ := by
    refine ⟨(update_self ..).trans ?_, (update_self ..).trans ?_⟩
    · rw [hlog]
    · rw [hinfo]
  refine ⟨?_, hdata, ?_, update_self ..⟩
  · show update (s.activate F).logs F _ F = _
    rw [update_self, hself.1]
    rfl
  · show update (s.activate F).info F _ F =
      ⟨_, _, _, (update s.frames (.b F) _ F).home⟩
    rw [update_self, update_of_ne (LazyYield.ne_b F), hself.2]
    rfl

/-- Forking from a seed leaves the other seeds alone. -/
theorem other_stackletFork (hfits : Stage.waiting.Fits s F) (hG : G ≠ F) :
    ((s.activate F).stackletFork F).info G = s.info G ∧
      ((s.activate F).stackletFork F).logs G = s.logs G := by
  rw [stackletFork_eq hfits]
  exact ⟨(update_of_ne hG ..).trans (update_of_ne hG ..),
    (update_of_ne hG ..).trans (update_of_ne hG ..)⟩

/-- The seeds, when the newest one that was waiting gets active and its second child starts. -/
theorem SeedsOk.activate (h : SeedsOk s φ) (hF : φ F = .first) (hb : φ (.b F) = .idle)
    (hfits : Stage.waiting.Fits s F) :
    SeedsOk ((s.activate F).stackletFork F)
      (reshape φ F (.stolen false false) (φ (.a F)) .entered) := by
  have hs := stackletFork_eq hfits
  refine SeedsOk.change (fun G _ => h G) (by simp [hF]) (fun _ => rfl)
    (fun x => by rw [hb]; rfl) hfits.activate (fun G hG => (other_stackletFork hfits hG).2)
    (fun G _ => by rw [hs]; rfl) (fun G hG => (other_stackletFork hfits hG).1)
    (fun G hG hlinked => ?_) fun G hG => ?_
  · -- the frame of the callee is new, but its seed is not linked
    rw [hs]
    refine congrArg Frame.home (update_of_ne ?_ ..)
    rintro rfl
    rw [stageOf, hb] at hlinked
    exact hlinked
  · rw [hs]
    exact update_of_ne (fun hGF => hG (FooPtr.b.inj hGF)) ..

/-- The later version pops the seed, and in the first one it is not waiting any more. -/
theorem ListOk.activate {l₀ l₂ : List FooPtr} (h : ListOk s t φ (l₀ ++ [F] ++ l₂))
    (hfits : Stage.waiting.Fits s F) (hl₂ : ∀ x ∈ l₂, (s.info x).activated = true)
    (hseeds : (t'.seeds, t'.seedHead) = LazyYield.popSeed t.seeds t.seedHead F)
    (hmem : ∀ G, (stageOf φ' G).Linked ↔ (stageOf φ G).Linked) :
    ListOk ((s.activate F).stackletFork F) t' φ' (l₀ ++ [F] ++ l₂) := by
  have hne : ∀ x, x ∈ l₀ ++ l₂ → x ≠ F := by
    rintro x hx rfl
    have hnodup := h.seeds.nodup
    rw [List.append_assoc, List.singleton_append, List.nodup_middle, List.nodup_cons] at hnodup
    exact hnodup.1 hx
  -- `F` is the last seed that waits, and does not wait any more behind the call
  have hold : waiting s (l₀ ++ [F] ++ l₂) = waiting s l₀ ++ F :: [] := by
    have hF : waiting s [F] = [F] := by
      unfold waiting
      rw [List.filter_singleton, hfits.2.2]
      rfl
    rw [waiting_append, waiting_append, waiting_eq_nil hl₂, hF, List.append_nil]
  have hnew : waiting ((s.activate F).stackletFork F) (l₀ ++ [F] ++ l₂) = waiting s l₀ ++ [] := by
    rw [waiting_append, waiting_append, waiting_congr (s := s) (l := l₀),
      waiting_eq_nil (l := [F]), waiting_eq_nil (l := l₂), List.append_nil]
    · intro x hx
      rw [(other_stackletFork hfits (hne x (List.mem_append_right _ hx))).1, hl₂ x hx]
    · intro x hx
      rw [List.mem_singleton.mp hx, hfits.activate.2.2.1]
    · intro x hx
      rw [(other_stackletFork hfits (hne x (List.mem_append_left _ hx))).1]
  obtain ⟨h₁, h₂⟩ := Prod.mk.inj hseeds
  refine ⟨?_, ?_, fun G => (h.mem G).trans (hmem G).symm⟩
  · rw [stackletFork_eq hfits]
    exact h.seeds
  · have hlater := h.later
    rw [hold] at hlater
    rw [hnew, h₁, h₂]
    exact hlater.pop

/-- `stackletFork` in the first version, and `suspend` and `SecondChildSteal` in the later one. -/
theorem Same.steal (h : Same s t) (hfits : Stage.waiting.Fits s F)
    (hframes : t'.frames = t.frames) (hfoos : t'.foos = t.foos) (hstack : t'.stackOf = t.stackOf)
    (hcounts : t'.asked = t.asked ∧ t'.forks = t.forks ∧ t'.frees = t.frees) :
    Same ((s.activate F).stackletFork F) (t'.secondChildSteal F) := by
  have hmid : Same s t' := ⟨by rw [hfoos, h.foos], by rw [hframes, h.frames],
    by rw [hstack, h.stackOf], by rw [hcounts.1, h.asked], by rw [hcounts.2.1, h.forks],
    by rw [hcounts.2.2, h.frees]⟩
  have hset : Same s (t'.setFrame F fun f =>
      { f with firstChildReturnAdr := some .firstChildDone, syncCounter := 2 }) :=
    hmid.setFrame rfl
  rw [stackletFork_eq hfits]
  refine Same.enter ?_ ..
  exact
    { hset with
      forks := by
        show update s.forks _ _ = update t'.forks _ (t'.forks (.b F) + 1)
        rw [hmid.forks] }

/-- A seed is activated: `stackletFork`. -/
theorem Sim.scan_activate (hinv : Inv n t φ) (h : Sim s t φ m) (hpc : s.pc = .scan (some F))
    (hact : (s.info F).activated = false) :
    Matched oracle n ((s.activate F).stackletFork F) t φ m := by
  have htpc : t.pc = .suspend := by rw [h.pc, hpc]; rfl
  obtain ⟨l, hlist, hscan⟩ := h.list
  unfold ScanOk at hscan
  rw [hpc] at hscan
  obtain ⟨l₁, l₂, rfl, hlast, hl₂, rfl⟩ := hscan
  obtain ⟨l₀, rfl⟩ := List.getLast?_eq_some_iff.mp hlast.symm
  -- it is the newest seed that the later version has
  have hhead : t.seedHead = some F := by
    have hF : waiting s [F] = [F] := by
      unfold waiting
      rw [List.filter_singleton, hact]
      rfl
    rw [hlist.later.back_eq, waiting_append, waiting_append, waiting_eq_nil hl₂, hF]
    simp
  obtain ⟨hF, hsuspend, hinv₁⟩ := hinv.suspend_seed_at htpc hhead
  have htpc₁ : t.suspend.pc = .secondChildSteal F := by rw [hsuspend]
  have hinv₂ := hinv₁.secondChildSteal htpc₁
  rw [reshape_reshape, reshape_a] at hinv₂
  have hb : φ (.b F) = .idle := by
    have hfits := (hinv.nodes F).fits
    rw [hF] at hfits
    exact LazyYield.Phase.eq_idle_of_status hfits.2
  have hstageF : stageOf φ F = .waiting := by rw [stageOf, hF]; rfl
  have hfits : Stage.waiting.Fits s F := hstageF ▸ h.seeds F
  have hs := stackletFork_eq hfits
  have hsame : Same ((s.activate F).stackletFork F) (t.suspend.secondChildSteal F) := by
    rw [hsuspend]
    exact h.same.steal hfits rfl rfl rfl ⟨rfl, rfl, rfl⟩
  have hlist' : ListOk ((s.activate F).stackletFork F) (t.suspend.secondChildSteal F)
      (reshape φ F (.stolen false false) (φ (.a F)) .entered) (l₀ ++ [F] ++ l₂) := by
    refine hlist.activate hfits hl₂ (by rw [hsuspend]; rfl)
      (linked_reshape (by simp [hF]) (fun _ => rfl) (fun x => by rw [hb]; rfl) ?_)
    rw [hstageF]
    exact Iff.rfl
  have hstep : LazyYield.step oracle t = some t.suspend := by
    simp only [LazyYield.step, htpc]
  have hstep₁ : LazyYield.step oracle t.suspend = some (t.suspend.secondChildSteal F) := by
    simp only [LazyYield.step, htpc₁]
  refine .lower 0 hinv (.two hstep hstep₁) hinv₂ (by simp [hF]) ?_ ?_
  · rw [hF, hb]
    show 5 + (φ (.a F)).weight + 12 < 8 + (φ (.a F)).weight + 13
    omega
  · refine Sim.plain hsame (h.seeds.activate hF hb hfits) hlist' (by rw [hs]; rfl)
      (by rw [hs]; rfl) (by rw [hs]; rfl) ?_
    rw [hs]
    show s.readyQ = t.suspend.readyQ
    rw [hsuspend]
    exact h.ready_eq (by simp [hpc])

/-- No seed is waiting, and a ready thread is resumed. -/
theorem Sim.scan_ready (hinv : Inv n t φ) (h : Sim s t φ m) (hpc : s.pc = .scan none) :
    Matched oracle n (s.scan none) t φ m := by
  have htpc : t.pc = .suspend := by rw [h.pc, hpc]; rfl
  obtain ⟨l, hlist, hscan⟩ := h.list
  unfold ScanOk at hscan
  rw [hpc] at hscan
  obtain ⟨l₁, l₂, rfl, hlast, hl₂, rfl⟩ := hscan
  obtain rfl : l₁ = [] := List.getLast?_eq_none_iff.mp hlast.symm
  have hhead : t.seedHead = none := by
    have hlater := hlist.later
    rw [List.nil_append, waiting_eq_nil hl₂] at hlater
    exact hlater.back_eq
  have hready := h.ready_eq (by simp [hpc])
  -- with no seed left, some thread is ready
  obtain ⟨i, hfront⟩ : ∃ i, t.readyQ.front = some i := by
    rcases hinv.not_empty htpc with hne | hne
    · exact absurd hhead hne
    · exact Option.ne_none_iff_exists'.mp hne
  obtain ⟨F, hF, hthread, hsuspend, hinv'⟩ := hinv.suspend_ready_at htpc hhead hfront
  have hs : s.scan none = s.goto (.resume F) := by
    have hsp : (s.readyQ.threads i).sp = .yield F := by
      rw [hready]
      exact congrArg Prod.snd hthread
    have hadr : (s.readyQ.threads i).adr = .resume := by
      rw [hready]
      exact congrArg Prod.fst hthread
    unfold State.scan
    simp only [hready ▸ hfront, hsp, hadr]
    rfl
  have hlog : s.logs F = ⟨0, 0, 0, []⟩ := by
    have := h.seeds F
    rwa [stageOf, hF] at this
  have hkeep := keep_seeds (s.goto (.resume F)) t.suspend .resumed (φ (.a F)) (φ (.b F)) h.seeds
    hlist (by simp [hF]) (fun _ => rfl) (fun _ => rfl) hlog (by rw [stageOf, hF]; exact Iff.rfl)
    ⟨rfl, rfl, rfl⟩ (fun _ _ => ⟨rfl, rfl⟩) rfl (fun _ => rfl) (by rw [hsuspend]; exact ⟨rfl, rfl⟩)
  rw [hs]
  refine .lower 0 hinv (.one ?_) hinv' (by simp [hF]) ?_ ?_
  · simp only [LazyYield.step, htpc]
  · rw [hF]
    show 10 + _ + _ < 11 + _ + _
    omega
  · exact
      { same := by
          rw [hsuspend]
          exact { h.same with }
        seeds := hkeep.1
        list := ⟨_, hkeep.2, trivial⟩
        pc := by rw [hsuspend]; rfl
        stubBase := fun hu => by cases hu
        ready := by
          refine ⟨i, hready ▸ hfront, ?_⟩
          rw [hsuspend]
          show t.readyQ.deq i = s.readyQ.deq i
          rw [hready]
        last := fun G hG => by cases hG }

/-! ### Whole runs -/

/-- Every step is answered, and leaves less to do. -/
theorem Sim.step (oracle : Nat → Bool) (hinv : Inv n t φ) (h : Sim s t φ m)
    (hpc : s.pc ≠ .returned) : ∃ s', step oracle s = some s' ∧ Matched oracle n s' t φ m := by
  unfold SeedJoin.step
  cases hp : s.pc with
  | start F =>
    by_cases hinput : (s.foos F).input ≤ 2
    · exact ⟨_, if_pos hinput, h.leaf hinv hp hinput⟩
    · by_cases horacle : oracle s.asked = true
      · exact ⟨_, (if_neg hinput).trans (if_pos horacle), h.yield hinv hp hinput horacle⟩
      · exact ⟨_, (if_neg hinput).trans (if_neg horacle), h.start_fork hinv hp hinput horacle⟩
  | resume F => exact ⟨_, rfl, h.resume hinv hp⟩
  | afterA F => exact ⟨_, rfl, h.afterA hinv hp⟩
  | afterB F => exact ⟨_, rfl, h.afterB hinv hp⟩
  | secondChildDone F => exact ⟨_, rfl, h.secondChildDone hinv hp⟩
  | stubRoutine => exact ⟨_, rfl, h.stubRoutine hinv hp⟩
  | suspend => exact ⟨_, rfl, h.suspend hinv hp⟩
  | scan seed =>
    refine ⟨_, rfl, ?_⟩
    cases seed with
    | none => exact h.scan_ready hinv hp
    | some F =>
      have hscan : s.scan (some F) = if (s.info F).activated = false then
          (s.activate F).stackletFork F else s.goto (.scan (s.seeds F).next) := rfl
      rw [hscan]
      cases hact : (s.info F).activated with
      | false => exact h.scan_activate hinv hp hact
      | true => exact h.scan_next hinv hp hact
  | returned => exact absurd hp hpc
  | wild =>
    have hpcOk := hinv.control.pcOk
    unfold LazyYield.State.PcOk at hpcOk
    rw [h.pc, hp] at hpcOk
    exact hpcOk.elim

end

end Stacklets.SeedJoin

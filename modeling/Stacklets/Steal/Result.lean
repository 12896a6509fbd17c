import Stacklets.LazyFork.CallTree
import Stacklets.Steal.Steps

/-!
# `Stacklets.Steal.Result`: when `startfib` returns in the ULI build

`returnInletHandler` has no body yet, so nobody ever tells a frame that its stolen second child is
done. The frame waits for it in `suspend`. This module says what that means for a whole run, for
any number of threads and every interleaving:

* before the first theft (`Undisturbed`) thread 0 runs the call tree as plain calls would, and the
  other threads ask for work and get none;
* from the first theft on (`Lost`) there is a frame `G` of the first stacklet whose second child is
  gone. Thread 0 can only come back to `G` at `FirstChildDone`, and it never leaves `G` towards
  its caller.

So `firstFork` returns only in runs without a theft, and then with the right value. In `Lost` the
stolen children may run any number of times, also at once. The proof does not ask what they do to
each other: everything they touch lies below `G`.
-/

set_option autoImplicit false

namespace Stacklets.Steal

open Function (update update_self update_of_ne update_idem)
open Lib
open LazyFork (FooPtr Label inputOf fibValue fibValue_leaf fibValue_inner)

section
variable {N : Nat} {n : Int} {m m' : Shared N} {t u : Fin N} {c : Core N} {o : Outcome N}
  {F G H : FooPtr} {q : List Seed} {stub : Stub N} {pc : FibPC}

/-- `myeui` leaves the code below the handlers where it is. -/
theorem Outcome.eui_base (m : Shared N) (c : Core N) : (Outcome.eui m c).core.base = c.base := by
  obtain ⟨acts, mask, aborted, -, heui⟩ := Outcome.eui_cases m c
  rw [heui]
  rfl

/-! ### Before the first theft -/

/-- The caller has stored the argument of `fib(F)`. -/
def Called (n : Int) (m : Shared N) (F : FooPtr) : Prop := (m.foos F).input = inputOf n F

/-- The result of `fib(F)` is there. -/
def Right (n : Int) (m : Shared N) (F : FooPtr) : Prop :=
  (m.foos F).output = BitVec.ofNat 32 (fibValue (inputOf n F))

/-- The frame of `fib(F)` has pushed `σ` and nobody has taken it. -/
structure Pushed (m : Shared N) (F : FooPtr) (σ : Seed) : Prop where
  sp : σ.sp = F
  seed : (m.frames F).seed = some σ
  adr : (m.frames F).firstChildReturnAdr = some .firstChildDoneNormally

/-- The callers of the frame `F` wait for it, and `q` are the seeds they have pushed, the
outermost first. A caller in `fib(&a)` has a seed, and one in `fib(&b)` has the result of the
first child. -/
def Callers (n : Int) (m : Shared N) : FooPtr → List Seed → Prop
  | .root, q => q = []
  | .a G, q => 2 < inputOf n G ∧ Called n m (.b G) ∧
      ∃ q' σ, q = q' ++ [σ] ∧ Pushed m G σ ∧ Callers n m G q'
  | .b G, q => 2 < inputOf n G ∧ Right n m (.a G) ∧ Callers n m G q

/-- The frame `F` at `pc`, with the seeds `q` of its callers. -/
def Inside (n : Int) (m : Shared N) (F : FooPtr) (q seedQ : List Seed) : FibPC → Prop
  | .start => Called n m F ∧ seedQ = q
  | .pushSeed => 2 < inputOf n F ∧ Called n m (.a F) ∧ Called n m (.b F) ∧ seedQ = q
  | .unlockPush | .callA => 2 < inputOf n F ∧ Called n m (.a F) ∧ Called n m (.b F) ∧
      ∃ σ, Pushed m F σ ∧ seedQ = q ++ [σ]
  | .lockPtid | .gotoReturnAdr | .firstChildDoneNormally =>
    2 < inputOf n F ∧ Called n m (.b F) ∧ Right n m (.a F) ∧
      ∃ σ, Pushed m F σ ∧ seedQ = q ++ [σ]
  | .unlockNormally | .checkUIMask | .callB =>
    2 < inputOf n F ∧ Called n m (.b F) ∧ Right n m (.a F) ∧ seedQ = q
  | .sum => 2 < inputOf n F ∧ Right n m (.a F) ∧ Right n m (.b F) ∧ seedQ = q
  | .ret => Right n m F ∧ seedQ = q
  | _ => False

/-- What the callers wait with lies above the frame: its children, its result and its own locals
are not part of it. The induction goes up the callers. -/
theorem Callers.congr (h : Callers n m F q)
    (hframes : ∀ G, G.depth < F.depth → m'.frames G = m.frames G)
    (hinput : ∀ G, G.depth ≤ F.depth → (m'.foos G).input = (m.foos G).input)
    (houtput : ∀ G, G.depth ≤ F.depth → G ≠ F → (m'.foos G).output = (m.foos G).output) :
    Callers n m' F q := by
  induction F generalizing q with
  | root => exact h
  | a G ih =>
    obtain ⟨hn, hcalled, q', σ, hq, hpush, hcallers⟩ := h
    have hG : m'.frames G = m.frames G := hframes G (Nat.lt_succ_self _)
    refine ⟨hn, (hinput (.b G) (Nat.le_refl _)).trans hcalled, q', σ, hq,
      ⟨hpush.sp, hG ▸ hpush.seed, hG ▸ hpush.adr⟩, ih hcallers ?_ ?_ ?_⟩
    · exact fun K hK => hframes K (Nat.lt_succ_of_lt hK)
    · exact fun K hK => hinput K (Nat.le_succ_of_le hK)
    · rintro K hK -
      refine houtput K (Nat.le_succ_of_le hK) ?_
      rintro rfl
      exact absurd hK (Nat.not_succ_le_self _)
  | b G ih =>
    obtain ⟨hn, hright, hcallers⟩ := h
    refine ⟨hn, (houtput (.a G) (Nat.le_refl _) nofun).trans hright, ih hcallers ?_ ?_ ?_⟩
    · exact fun K hK => hframes K (Nat.lt_succ_of_lt hK)
    · exact fun K hK => hinput K (Nat.le_succ_of_le hK)
    · rintro K hK -
      refine houtput K (Nat.le_succ_of_le hK) ?_
      rintro rfl
      exact absurd hK (Nat.not_succ_le_self _)

/-- The outermost seed belongs to a caller that waits for its first child, and the others lie
below that child. -/
theorem Callers.head {σ : Seed} (h : Callers n m F (σ :: q)) :
    (FooPtr.a σ.sp).Over F ∧ ∀ τ ∈ q, (FooPtr.a σ.sp).Over τ.sp := by
  induction F generalizing q with
  | root => cases h
  | a G ih =>
    obtain ⟨-, -, q', τ, hq, hpush, hcallers⟩ := h
    -- the outermost seed is that of `G`, or one from further up
    cases q' with
    | nil =>
      obtain ⟨rfl, rfl⟩ := List.cons.inj hq
      exact ⟨.inl (by rw [hpush.sp]), List.forall_mem_nil _⟩
    | cons σ' q' =>
      obtain ⟨rfl, rfl⟩ := List.cons.inj hq
      obtain ⟨hover, hrest⟩ := ih hcallers
      refine ⟨.inr hover, List.forall_mem_append.mpr ⟨hrest, ?_⟩⟩
      exact List.forall_mem_singleton.mpr (hpush.sp ▸ hover)
  | b G ih =>
    obtain ⟨hover, hrest⟩ := ih h.2.2
    exact ⟨.inr hover, hrest⟩

/-- The seeds of the callers belong to frames above. -/
theorem Callers.depth_lt (h : Callers n m F q) : ∀ σ ∈ q, σ.sp.depth < F.depth := by
  induction F generalizing q with
  | root =>
    rw [show q = [] from h]
    exact List.forall_mem_nil _
  | a G ih =>
    obtain ⟨-, -, q', τ, rfl, hpush, hcallers⟩ := h
    refine List.forall_mem_append.mpr ⟨fun σ hσ => ?_, List.forall_mem_singleton.mpr ?_⟩
    · exact Nat.lt_succ_of_lt (ih hcallers σ hσ)
    · rw [hpush.sp]
      exact Nat.lt_succ_self _
  | b G ih => exact fun σ hσ => Nat.lt_succ_of_lt (ih h.2.2 σ hσ)

/-- Thread 0 before the first theft: in the first stacklet, or back in `startfib`. A poll lies on
top only behind one of the two `seedStackUnlock`s. -/
inductive FirstRuns (n : Int) (m : Shared N) (c : Core N) : Prop
  | inside (F : FooPtr) (pc : FibPC) (q : List Seed) (base : c.base = .fib .first F pc)
      (callers : Callers n m F q) (frame : Inside n m F q c.seedQ pc)
      (acts : c.acts ≠ [] → pc = .callA ∨ pc = .checkUIMask)
  | returned (base : c.base = .returned) (right : Right n m .root) (seedQ : c.seedQ = [])
      (acts : c.acts = [])

/-- A thread that looks for work and has none: in `suspend`, or in `getMsg` for a request. -/
def Base.Looks : Base N → Prop
  | .suspend .poll | .suspend .ownTest | .suspend .ownTake | .suspend (.ownEui false)
  | .suspend .ready | .suspend .stealing | .suspend (.scan _) => True
  | .getMsg (.steal _ _) _ => True
  | _ => False

/-- No message hands over work. -/
def plain : Facts N where
  msg _ msg := msg.callback ≠ some .forkHandler
  act _
    | .fork _ _ => False
    | .steal _ (.send _) => False
    | _ => True
  act_poll _ := trivial

/-- Nothing has been stolen yet. -/
structure Undisturbed [NeZero N] (n : Int) (s : State N) : Prop where
  first : FirstRuns n s.shared (s.cores 0)
  others : ∀ u, u ≠ 0 → (s.cores u).base.Looks ∧ (s.cores u).seedQ = []
  messages : ∀ u, plain.At u (s.cores u)
  stolen : s.shared.stolen = []
  ready : s.shared.readyQ.readyQId = 0 ∧ s.shared.readyQ.front = none ∧
    s.shared.readyQ.back = none

/-- A store to an `output` leaves all inputs. -/
theorem setOutput_input (F G : FooPtr) (v : BitVec 32) :
    ((m.setOutput F v).foos G).input = (m.foos G).input := by
  by_cases hG : G = F
  · subst hG
    simp
  · simp [hG]

/-- A store to an `input` leaves all outputs. -/
theorem setInput_output (F G : FooPtr) (v : Int) :
    ((m.setInput F v).foos G).output = (m.foos G).output := by
  by_cases hG : G = F
  · subst hG
    simp
  · simp [hG]

/-- The callers of a frame do not look at outputs. -/
theorem Callers.setOutput (h : Callers n m F q) (v : BitVec 32) :
    Callers n (m.setOutput F v) F q :=
  h.congr (fun _ _ => rfl) (fun G _ => setOutput_input F G v) fun G _ hG => by simp [hG]

/-- The children are below the frame, so the callers do not notice their arguments. -/
theorem Callers.setInputs (h : Callers n m F q) (v w : Int) :
    Callers n ((m.setInput (.a F) v).setInput (.b F) w) F q := by
  have hne : ∀ G : FooPtr, G.depth ≤ F.depth → G ≠ .a F ∧ G ≠ .b F := by
    intro G hG
    constructor <;> rintro rfl <;> exact absurd hG (Nat.not_succ_le_self _)
  refine h.congr (fun _ _ => rfl) (fun G hG => ?_) fun G _ _ => ?_
  · obtain ⟨ha, hb⟩ := hne G hG
    simp [ha, hb]
  · rw [setInput_output, setInput_output]

/-- They do not look at the frame itself either. -/
theorem Callers.setFrame (h : Callers n m F q) (f : Frame N) :
    Callers n (m.setFrame F f) F q := by
  refine h.congr (fun G hG => ?_) (fun _ _ => rfl) fun _ _ _ => rfl
  refine update_of_ne ?_ _ _
  rintro rfl
  exact absurd hG (Nat.lt_irrefl _)

/-- They look at the `Foo`s and the frames only. -/
theorem Callers.same (h : Callers n m F q) (hfoos : m'.foos = m.foos)
    (hframes : m'.frames = m.frames) : Callers n m' F q :=
  h.congr (fun _ _ => by rw [hframes]) (fun _ _ => by rw [hfoos]) fun _ _ _ => by rw [hfoos]

/-- So does the frame that runs. -/
theorem Inside.same {seedQ : List Seed} (h : Inside n m F q seedQ pc) (hfoos : m'.foos = m.foos)
    (hframes : m'.frames = m.frames) : Inside n m' F q seedQ pc := by
  have hpushed : ∀ σ, Pushed m F σ → Pushed m' F σ := fun σ hσ =>
    ⟨hσ.sp, by rw [hframes]; exact hσ.seed, by rw [hframes]; exact hσ.adr⟩
  cases pc with
  | unlockPush | callA | lockPtid | gotoReturnAdr | firstChildDoneNormally =>
    obtain ⟨hn, h₁, h₂, σ, hσ, hq⟩ := h
    simp only [Inside, Called, Right, hfoos]
    exact ⟨hn, h₁, h₂, σ, hpushed σ hσ, hq⟩
  | _ =>
    simp only [Inside, Called, Right, hfoos]
    exact h

/-- Thread 0 goes on as before if the call tree and its own part are as before. -/
theorem FirstRuns.same {c' : Core N} (h : FirstRuns n m c) (hfoos : m'.foos = m.foos)
    (hframes : m'.frames = m.frames) (hbase' : c'.base = c.base) (hseedQ : c'.seedQ = c.seedQ)
    (hacts' : c'.acts ≠ [] → c.acts ≠ []) : FirstRuns n m' c' := by
  cases h with
  | inside F pc q hbase hF hframe hacts =>
    refine .inside F pc q (hbase'.trans hbase) (hF.same hfoos hframes) ?_
      fun h => hacts (hacts' h)
    rw [hseedQ]
    exact hframe.same hfoos hframes
  | returned hbase hright hq hacts =>
    refine .returned (hbase'.trans hbase) ?_ (hseedQ.trans hq) ?_
    · rw [Right, hfoos]
      exact hright
    · by_contra hne
      exact hacts' hne hacts

/-- `seedStackUnlock` as the last call of the step, to a place where a poll may lie on top. -/
theorem FirstRuns.eui {pc' : FibPC} (hF : Callers n m F q) (hframe : Inside n m F q c.seedQ pc')
    (hacts : pc' = .callA ∨ pc' = .checkUIMask) :
    FirstRuns n (Outcome.eui m (c.goto (.fib .first F pc'))).shared
      (Outcome.eui m (c.goto (.fib .first F pc'))).core := by
  obtain ⟨acts, mask, aborted, -, heui⟩ :=
    Outcome.eui_cases m (c.goto (.fib .first F pc'))
  rw [heui]
  exact .inside F pc' q rfl (hF.same rfl rfl) (hframe.same rfl rfl) fun _ => hacts

/-- Thread 0 goes on in the call tree as plain calls would. -/
theorem FirstRuns.fib (hbase : c.base = .fib .first F pc) (hF : Callers n m F q)
    (hframe : Inside n m F q c.seedQ pc) (hacts : c.acts = [])
    (h : fibStep m t c .first F pc = some o) : FirstRuns n o.shared o.core := by
  have hnone : ∀ (l : List (Act N)) (P : Prop), l = [] → l ≠ [] → P := fun _ _ h h' => absurd h h'
  have habort : FirstRuns n m.abort c :=
    .inside F pc q hbase (hF.same rfl rfl) (hframe.same rfl rfl) (hnone _ _ hacts)
  cases pc with
  | start =>
    obtain ⟨hcalled, hq⟩ := hframe
    simp only [fibStep] at h
    split at h <;> cases h
    · rename_i hle
      refine .inside F .ret q rfl (hF.setOutput 1) ⟨?_, hq⟩ (hnone _ _ hacts)
      rw [hcalled] at hle
      rw [Right, fibValue_leaf hle]
      simp
    · rename_i hgt
      rw [hcalled] at hgt
      refine .inside F .pushSeed q rfl (hF.setInputs _ _) ⟨by omega, ?_, ?_, hq⟩
        (hnone _ _ hacts)
      · rw [Called, hcalled]
        simp
      · rw [Called, hcalled]
        simp
  | pushSeed =>
    obtain ⟨hn, ha, hb, hq⟩ := hframe
    cases h
    refine .inside F .unlockPush q rfl ((hF.setFrame _).same rfl rfl)
      ⟨hn, ha, hb, ⟨m.seeds, F⟩, ?_, ?_⟩ (hnone _ _ hacts)
    · exact ⟨rfl, by simp, by simp⟩
    · show c.seedQ ++ _ = _
      rw [hq]
  | unlockPush =>
    cases h
    exact .eui hF hframe (.inl rfl)
  | callA =>
    obtain ⟨hn, ha, hb, σ, hpush, hq⟩ := hframe
    cases h
    exact .inside (.a F) .start (q ++ [σ]) rfl ⟨hn, hb, q, σ, rfl, hpush, hF⟩ ⟨ha, hq⟩
      (hnone _ _ hacts)
  | lockPtid =>
    simp only [fibStep] at h
    split at h <;> cases h
    · exact .inside F .gotoReturnAdr q rfl hF hframe (hnone _ _ hacts)
    · exact habort
  | gotoReturnAdr =>
    -- nobody has taken the seed, so the address is the one stored with it
    obtain ⟨hn, hb, ha, σ, hpush, hq⟩ := hframe
    simp only [fibStep, hpush.adr] at h
    cases h
    exact .inside F .firstChildDoneNormally q rfl hF ⟨hn, hb, ha, σ, hpush, hq⟩ (hnone _ _ hacts)
  | firstChildDoneNormally =>
    obtain ⟨hn, hb, ha, σ, hpush, hq⟩ := hframe
    simp only [fibStep, hpush.seed] at h
    split at h <;> cases h
    · refine .inside F .unlockNormally q rfl (hF.same rfl rfl) ⟨hn, hb, ha, ?_⟩ (hnone _ _ hacts)
      -- the seed of the frame is the last one in the queue, and those before it lie above
      have hlast : σ ∉ q := fun hσ => by
        have := hF.depth_lt σ hσ
        rw [hpush.sp] at this
        omega
      show c.seedQ.erase σ = q
      rw [hq, List.erase_append_right _ hlast, List.erase_cons_head, List.append_nil]
    · exact habort
  | unlockNormally =>
    simp only [fibStep] at h
    split at h <;> cases h
    · exact .eui hF hframe (.inr rfl)
    · exact habort
  | checkUIMask =>
    simp only [fibStep] at h
    split at h <;> cases h
    · exact .inside F .callB q rfl hF hframe (hnone _ _ hacts)
    · exact habort
  | callB =>
    obtain ⟨hn, hb, ha, hq⟩ := hframe
    cases h
    exact .inside (.b F) .start q rfl ⟨hn, ha, hF⟩ ⟨hb, hq⟩ (hnone _ _ hacts)
  | sum =>
    obtain ⟨hn, ha, hb, hq⟩ := hframe
    cases h
    refine .inside F .ret q rfl (hF.setOutput _) ⟨?_, hq⟩ (hnone _ _ hacts)
    show (update m.foos F _ F).output = _
    rw [update_self, fibValue_inner hn]
    exact congrArg₂ (· + ·) ha hb
  | ret =>
    obtain ⟨hright, hq⟩ := hframe
    obtain ⟨base, hret, rfl | ⟨-, hne⟩⟩ := fibStep_ret h
    case inr => exact absurd rfl hne
    -- back in the caller, with what it has waited with
    cases F with
    | root =>
      cases hret
      exact .returned rfl hright (hq.trans hF) hacts
    | a G =>
      obtain ⟨hn, hb, q', σ, rfl, hpush, hG⟩ := hF
      cases hret
      exact .inside G .lockPtid q' rfl hG ⟨hn, hb, hright, σ, hpush, hq⟩ (hnone _ _ hacts)
    | b G =>
      obtain ⟨hn, ha, hG⟩ := hF
      cases hret
      exact .inside G .sum q rfl hG ⟨hn, ha, hright, hq⟩ (hnone _ _ hacts)
  | _ => exact hframe.elim

/-! ### Steps that take no work -/

/-- A step that changes neither the call tree nor the seeds, and hands over nothing. -/
structure Harmless (t : Fin N) (m : Shared N) (c : Core N) (o : Outcome N) : Prop where
  shared : ∃ b, o.shared = { m with aborted := b }
  seedQ : o.core.seedQ = c.seedQ
  messages : plain.At t o.core
  sent : ∀ x msg, o.sent = some (x, msg) → plain.msg x msg

/-- No message is posted. -/
theorem not_sent {P : Fin N → Message N → Prop} (x : Fin N) (msg : Message N)
    (h : none = some (x, msg)) : P x msg := by
  cases h

/-- A step that posts nothing and leaves the shared memory. -/
theorem Harmless.quiet {c' : Core N} (hseedQ : c'.seedQ = c.seedQ) (h : plain.At t c') :
    Harmless t m c (.quiet m c') :=
  ⟨⟨m.aborted, rfl⟩, hseedQ, h, not_sent⟩

/-- A failed assertion. -/
theorem Harmless.abort (h : plain.At t c) : Harmless t m c (.quiet m.abort c) :=
  ⟨⟨true, rfl⟩, rfl, h, not_sent⟩

/-- A step that ends with `myeui`. -/
theorem Harmless.eui {c' : Core N} (hseedQ : c'.seedQ = c.seedQ) (h : plain.At t c') :
    Harmless t m c (.eui m c') := by
  have hmessages := h.eui m
  obtain ⟨acts, mask, aborted, -, heui⟩ := Outcome.eui_cases m c'
  rw [heui] at hmessages ⊢
  exact ⟨⟨aborted, rfl⟩, hseedQ, hmessages, not_sent⟩

/-- A handler that finds no seed in the queue of its thread takes none, and leaves the thread
below it where it is. -/
theorem actStep_harmless {act : Act N} {rest : List (Act N)} (h : plain.At t c)
    (hacts : c.acts = act :: rest) (hseedQ : c.seedQ = [] ∨ ∀ msg, act ≠ .steal msg .enter) :
    Harmless t m c (actStep m t c rest act) ∧ (actStep m t c rest act).core.base = c.base := by
  have hact := h.head hacts
  cases act with
  | poll =>
    rw [actStep_poll]
    split
    · exact ⟨.quiet rfl (h.pop hacts rfl rfl), rfl⟩
    · exact ⟨.quiet rfl (h.next hacts rfl trivial rfl), rfl⟩
  | iHandler =>
    rw [actStep_iHandler]
    cases hbufs : c.msgBufs with
    | nil => exact ⟨.quiet rfl (h.pop hacts rfl rfl), rfl⟩
    | cons msg msgBufs =>
      have hmsg : msg.callback ≠ some .forkHandler := h.msgs msg (by rw [hbufs]; simp)
      dsimp only
      cases hcallback : msg.callback with
      | none => exact ⟨.abort h, rfl⟩
      | some callback =>
        refine ⟨.quiet rfl ?_, rfl⟩
        refine h.handle hacts (l := [handlerOf msg callback, .iHandler]) rfl ?_ ?_
        · refine List.forall_mem_cons.mpr ⟨?_, List.forall_mem_singleton.mpr trivial⟩
          cases callback with
          | forkHandler => exact absurd hcallback hmsg
          | _ => trivial
        · intro msg' hmsg'
          rw [hbufs]
          exact List.mem_cons_of_mem _ hmsg'
  | steal msg pc =>
    cases pc with
    | enter =>
      -- the answer is that there is no work
      have hnil : c.seedQ = [] := hseedQ.resolve_right fun hne => hne msg rfl
      simp only [actStep, stealStep, hnil]
      refine ⟨.eui rfl (h.next hacts rfl trivial rfl), ?_⟩
      rw [Outcome.eui_base]
      rfl
    | fail =>
      refine ⟨⟨⟨m.aborted, rfl⟩, rfl, h.pop hacts rfl rfl, ?_⟩, rfl⟩
      intro x msg' hsent
      obtain ⟨-, rfl⟩ := Prod.mk.inj (Option.some.inj hsent)
      rintro ⟨⟩
    | send dest => exact hact.elim
  | noWork msg freed =>
    cases freed with
    | false =>
      refine ⟨.eui rfl (h.next hacts rfl trivial rfl), ?_⟩
      exact Outcome.eui_base _ _
    | true => exact ⟨.quiet rfl (h.pop hacts rfl rfl), rfl⟩
  | fork msg pc => exact hact.elim
  | returnInlet msg => exact ⟨.quiet rfl (h.pop hacts rfl rfl), rfl⟩

/-- The messages and handlers do not depend on the code below them. -/
theorem plain_goto {base : Base N} (h : plain.At t c) : plain.At t (c.goto base) :=
  ⟨h.msgs, h.acts⟩

variable [NeZero N] {s s' : State N}

/-- A thread that looks for work and finds none goes on looking. -/
theorem baseStep_harmless (h : plain.At t (s.cores t)) (hlooks : (s.cores t).base.Looks)
    (hseedQ : (s.cores t).seedQ = []) (hfront : s.shared.readyQ.front = none)
    (hs : baseStep s t (s.cores t) (s.cores t).base = some o) :
    Harmless t s.shared (s.cores t) o ∧ o.core.base.Looks := by
  cases hbase : (s.cores t).base with
  | fib stub F pc | returned => rw [hbase] at hlooks; exact hlooks.elim
  | getMsg use pc =>
    rw [hbase] at hlooks hs
    cases use with
    | own | finish => exact hlooks.elim
    | steal i x =>
      cases pc with
      | test =>
        simp only [baseStep, getMsgStep] at hs
        split at hs <;> cases hs
        · exact ⟨.eui rfl ⟨h.msgs, h.acts⟩, by rw [Outcome.eui_base]; trivial⟩
        · exact ⟨.quiet rfl (plain_goto h), trivial⟩
      | take =>
        simp only [baseStep, getMsgStep] at hs
        split at hs <;> cases hs
        · exact ⟨.abort h, by show (s.cores t).base.Looks; rw [hbase]; trivial⟩
        · exact ⟨.eui rfl ⟨h.msgs, h.acts⟩, by rw [Outcome.eui_base]; trivial⟩
      | fill msg =>
        cases hs
        refine ⟨⟨⟨s.shared.aborted, rfl⟩, rfl, plain_goto h, ?_⟩, trivial⟩
        intro y msg' hsent
        obtain ⟨-, rfl⟩ := Prod.mk.inj (Option.some.inj hsent)
        rintro ⟨⟩
  | suspend pc =>
    rw [hbase] at hlooks hs
    cases pc with
    | poll =>
      cases hs
      exact ⟨.quiet rfl ⟨h.msgs, List.forall_mem_cons.mpr ⟨trivial, h.acts⟩⟩, trivial⟩
    | ownTest =>
      simp only [baseStep, suspendStep, hseedQ, if_true] at hs
      cases hs
      exact ⟨.quiet rfl (plain_goto h), trivial⟩
    | ownTake =>
      simp only [baseStep, suspendStep, hseedQ] at hs
      cases hs
      exact ⟨.quiet rfl ⟨h.msgs, h.acts⟩, trivial⟩
    | ownEui found =>
      cases found with
      | true => exact hlooks.elim
      | false =>
        cases hs
        exact ⟨.eui rfl (plain_goto h), by rw [Outcome.eui_base]; trivial⟩
    | ready =>
      -- nothing is ready, so it goes on to steal
      simp only [baseStep, suspendStep, hfront] at hs
      cases hs
      exact ⟨.quiet rfl (plain_goto h), trivial⟩
    | stealing =>
      simp only [baseStep, suspendStep] at hs
      split at hs <;> cases hs <;> exact ⟨.quiet rfl (plain_goto h), trivial⟩
    | scan i =>
      simp only [baseStep, suspendStep] at hs
      split at hs
      · split at hs <;> cases hs
        · exact ⟨.quiet rfl ⟨h.msgs, h.acts⟩, trivial⟩
        · exact ⟨.quiet rfl (plain_goto h), trivial⟩
      · cases hs
        exact ⟨.quiet rfl (plain_goto h), trivial⟩
    | _ => exact hlooks.elim

/-! ### From the first theft on -/

/-- The context of a child whose parent lies at or below `G`. -/
def Context.Lost (G : FooPtr) (e : Context N) : Prop :=
  match e.stub with
  | .first => False
  | .stolen parentSP _ => G.Over parentSP

/-- The first stacklet is below the first child of `G`, or back in `G` on the way into
`suspend`. -/
def FirstLost (G : FooPtr) (syncCounter : Int) (F : FooPtr) (pc : FibPC) : Prop :=
  (syncCounter = 2 ∧ (FooPtr.a G).Over F) ∨ (F = G ∧
    match pc with
    | .callA | .lockPtid | .gotoReturnAdr | .firstChildDone => syncCounter = 2
    | .unlockDone counter | .testCounter counter => counter = 1
    | _ => False)

/-- Where the threads can be: the first stacklet on thread 0 as above, and everybody else below
`G`. -/
def Base.Lost (G : FooPtr) (m : Shared N) (u : Fin N) : Base N → Prop
  | .fib .first F pc => u = 0 ∧ FirstLost G (m.frames G).syncCounter F pc
  | .fib (.stolen parentSP _) H _ => G.Over parentSP ∧ (FooPtr.b parentSP).Over H
  | .suspend (.deqFront e) => e.Lost G
  | .suspend (.deqNext e origFront) => e.Lost G ∧ origFront < m.readyQ.readyQId
  | .suspend (.deqBack e _) => e.Lost G
  | .suspend (.jump e) => e.Lost G
  | .returned => False
  | _ => True

/-- The entry that a `forkHandler` is enqueueing exists. -/
def ForkPC.Below (readyQId : Nat) : ForkPC → Prop
  | .enqLink ready | .enqFront ready | .enqBack ready => ready < readyQId
  | _ => True

/-- Work is handed over only from frames at or below `G`. -/
def lost (G : FooPtr) (readyQId : Nat) : Facts N where
  msg _ msg := msg.callback = some .forkHandler → G.Over msg.parentSP
  act _
    | .fork msg pc => G.Over msg.parentSP ∧ pc.Below readyQId
    | .steal msg (.send _) => G.Over msg.parentSP
    | _ => True
  act_poll _ := trivial

/-- What one thread is up to. -/
structure CoreLost (G : FooPtr) (m : Shared N) (u : Fin N) (c : Core N) : Prop where
  base : c.base.Lost G m u
  seeds : ∀ σ ∈ c.seedQ, G.Over σ.sp
  messages : (lost G m.readyQ.readyQId).At u c

/-- The pointers of the ready queue lead to entries, and these hold children below `G`. Nothing
is said about their order: the queue is not locked. -/
structure ReadyLost (G : FooPtr) (q : ReadyQ N) : Prop where
  front : ∀ i, q.front = some i → i < q.readyQId
  back : ∀ i, q.back = some i → i < q.readyQId
  entries : ∀ i, i < q.readyQId →
    (q.threads i).sp.Lost G ∧ ∀ j, (q.threads i).next = some j → j < q.readyQId

/-- The second child of the frame `G` of the first stacklet has been stolen. -/
structure Lost (G : FooPtr) (s : State N) : Prop where
  adr : (s.shared.frames G).firstChildReturnAdr = some .firstChildDone
  cores : ∀ u, CoreLost G s.shared u (s.cores u)
  ready : ReadyLost G s.shared.readyQ

/-- What the next step of `t` relies on. -/
structure LostAt (G : FooPtr) (m : Shared N) (t : Fin N) (c : Core N) : Prop where
  adr : (m.frames G).firstChildReturnAdr = some .firstChildDone
  ready : ReadyLost G m.readyQ
  core : CoreLost G m t c

/-- A step of `t` that keeps it so. -/
structure LostStep (G : FooPtr) (t : Fin N) (m : Shared N) (o : Outcome N) : Prop where
  core : CoreLost G o.shared t o.core
  sent : ∀ x msg, o.sent = some (x, msg) → msg.callback = some .forkHandler → G.Over msg.parentSP
  adr : (o.shared.frames G).firstChildReturnAdr = some .firstChildDone
  counter : (o.shared.frames G).syncCounter = (m.frames G).syncCounter ∨
    (o.shared.frames G).syncCounter = 2 ∨ t = 0
  ids : m.readyQ.readyQId ≤ o.shared.readyQ.readyQId
  ready : ReadyLost G o.shared.readyQ

/-- A second theft from `G` would set the counter to the value that it had. -/
theorem FirstLost.two {counter : Int} (h : FirstLost G counter F pc) : FirstLost G 2 F pc := by
  rcases h with ⟨-, hover⟩ | ⟨hF, hpc⟩
  · exact .inl ⟨rfl, hover⟩
  · refine .inr ⟨hF, ?_⟩
    cases pc <;> first | exact hpc | exact hpc.elim | rfl

/-- A later thread is below a later bound. -/
theorem ForkPC.Below.mono {pc : ForkPC} {i j : Nat} (h : pc.Below i) (hij : i ≤ j) :
    pc.Below j := by
  cases pc with
  | enqLink ready | enqFront ready | enqBack ready => exact Nat.lt_of_lt_of_le h hij
  | _ => trivial

omit [NeZero N] in
/-- What is lost stays so when the ready queue has more threads. -/
theorem lost_mono {i j : Nat} (h : (lost G i).At u c) (hij : i ≤ j) : (lost G j).At u c where
  msgs := h.msgs
  acts act hact := by
    have := h.acts act hact
    cases act with
    | fork msg pc => exact ⟨this.1, this.2.mono hij⟩
    | steal msg pc => cases pc <;> exact this
    | _ => trivial

/-- What another thread does to the counter and to the ready queue does not matter. -/
theorem CoreLost.mono (h : CoreLost G m u c)
    (hcounter : u = 0 → (m'.frames G).syncCounter = (m.frames G).syncCounter ∨
      (m'.frames G).syncCounter = 2)
    (hids : m.readyQ.readyQId ≤ m'.readyQ.readyQId) : CoreLost G m' u c where
  base := by
    have hb := h.base
    cases hbase : c.base with
    | fib stub F pc =>
      rw [hbase] at hb
      cases stub with
      | stolen parentSP parentProc => exact hb
      | first =>
        refine ⟨hb.1, ?_⟩
        rcases hcounter hb.1 with hsame | htwo
        · rw [hsame]
          exact hb.2
        · rw [htwo]
          exact hb.2.two
    | suspend pc =>
      rw [hbase] at hb
      cases pc with
      | deqNext e origFront => exact ⟨hb.1, Nat.lt_of_lt_of_le hb.2 hids⟩
      | _ => exact hb
    | _ => rw [hbase] at hb; exact hb
  seeds := h.seeds
  messages := lost_mono h.messages hids

/-- A message arrives that is for a frame above the lost one, if it is a `ForkMsg`. -/
theorem CoreLost.receive {msg : Message N} (h : CoreLost G m u c)
    (hmsg : msg.callback = some .forkHandler → G.Over msg.parentSP) :
    CoreLost G m u (c.receive msg) :=
  ⟨h.base, h.seeds, h.messages.receive hmsg⟩

omit [NeZero N] in
/-- A property that may speak of the new memory: the thread that moves has it, the others have
it, and a message keeps it. -/
theorem forall_after {Q : Fin N → Core N → Prop} (ht : Q t o.core)
    (hother : ∀ v, v ≠ t → Q v (s.cores v))
    (hsent : ∀ x msg, o.sent = some (x, msg) → ∀ b, Q x b → Q x (b.receive msg)) (u : Fin N) :
    Q u ((s.after t o).cores u) := by
  have hown : ∀ v, Q v (update s.cores t o.core v) := by
    intro v
    by_cases hv : v = t
    · rw [hv, update_self]
      exact ht
    · rw [update_of_ne hv]
      exact hother v hv
  have hall : Q u (Lib.post Core.receive
      (update (update s.cores t o.core) t o.core) o.sent u) :=
    forall_step hown ht hsent u
  rwa [update_idem] at hall

/-- One step of `t`, for all threads. -/
theorem Lost.after (h : Lost G s) (ho : LostStep G t s.shared o) : Lost G (s.after t o) where
  adr := ho.adr
  ready := ho.ready
  cores u := by
    refine forall_after ho.core (fun v hv => ?_)
      (fun x msg hsent _ hb => hb.receive (ho.sent x msg hsent)) u
    refine (h.cores v).mono (fun hzero => ?_) ho.ids
    rcases ho.counter with hsame | htwo | ht
    · exact .inl hsame
    · exact .inr htwo
    · exact absurd (hzero.trans ht.symm) hv

/-- A step that leaves the frames and the ready queue alone. -/
theorem LostStep.same (h : LostAt G m t c) (hframes : o.shared.frames G = m.frames G)
    (hqueue : o.shared.readyQ = m.readyQ) (hcore : CoreLost G m t o.core)
    (hsent : ∀ x msg, o.sent = some (x, msg) → msg.callback = some .forkHandler →
      G.Over msg.parentSP) : LostStep G t m o where
  core := hcore.mono (fun _ => .inl (by rw [hframes])) (by rw [hqueue])
  sent := hsent
  adr := by rw [hframes]; exact h.adr
  counter := .inl (by rw [hframes])
  ids := by rw [hqueue]
  ready := by rw [hqueue]; exact h.ready

/-- A step of the thread alone. -/
theorem LostAt.quiet {c' : Core N} (h : LostAt G m t c) (hcore : CoreLost G m t c') :
    LostStep G t m (.quiet m c') :=
  .same h rfl rfl hcore not_sent

/-- A failed assertion. -/
theorem LostAt.abort (h : LostAt G m t c) : LostStep G t m (.quiet m.abort c) :=
  .same h rfl rfl h.core not_sent

/-- The step starts with the mark of a theft. -/
theorem LostStep.trans (h : LostStep G t m' o)
    (hcounter : (m'.frames G).syncCounter = (m.frames G).syncCounter ∨
      (m'.frames G).syncCounter = 2)
    (hqueue : m'.readyQ = m.readyQ) : LostStep G t m o :=
  { h with
    counter := by
      rcases h.counter with hsame | h'
      · rcases hcounter with h'' | h''
        · exact .inl (hsame.trans h'')
        · exact .inr (.inl (hsame.trans h''))
      · exact .inr h'
    ids := hqueue ▸ h.ids }

/-- The code below the handlers moves. -/
theorem CoreLost.goto {base : Base N} (h : CoreLost G m t c) (hbase : base.Lost G m t) :
    CoreLost G m t (c.goto base) :=
  ⟨hbase, h.seeds, h.messages.msgs, h.messages.acts⟩

/-- The mask does not matter. -/
theorem CoreLost.mydui (h : CoreLost G m t c) : CoreLost G m t c.mydui :=
  ⟨h.base, h.seeds, h.messages.msgs, h.messages.acts⟩

/-- Nor does the poll that `myeui` may put on top. -/
theorem CoreLost.eui (h : CoreLost G m t c) (m' : Shared N) :
    CoreLost G m t (Outcome.eui m' c).core := by
  have hmessages := h.messages.eui m'
  obtain ⟨acts, mask, aborted, -, heui⟩ := Outcome.eui_cases m' c
  rw [heui] at hmessages ⊢
  exact ⟨h.base, h.seeds, hmessages⟩

/-- `myeui` as the last call of such a step. -/
theorem LostAt.eui {c' : Core N} (h : LostAt G m t c) (hcore : CoreLost G m t c') :
    LostStep G t m (.eui m c') := by
  have heui := hcore.eui m
  obtain ⟨acts, mask, aborted, -, he⟩ := Outcome.eui_cases m c'
  rw [he] at heui ⊢
  exact .same h rfl rfl heui not_sent

/-- A step of `fib(F)` in a frame strictly below `G`. -/
theorem LostAt.fib (h : LostAt G m t c) (he : FibEffect stub F pc m c o) (hne : G ≠ F)
    (hover : G.Over F) (hbase : o.core.base.Lost G m t) : LostStep G t m o := by
  refine .same h (he.frames G hne) he.readyQ ⟨hbase, fun σ hσ => ?_, ?_⟩ ?_
  · rcases he.seeds.mem hσ with hold | hnew
    · exact h.core.seeds σ hold
    · rw [hnew]
      exact hover
  · exact h.core.messages.of_poll he.msgBufs he.acts
  · rw [he.sent]
    exact not_sent

/-- A step of a stolen child. -/
theorem LostAt.stolenFib {parentSP : FooPtr} {parentProc : Fin N} (h : LostAt G m t c)
    (hbase : c.base = .fib (.stolen parentSP parentProc) F pc)
    (hs : fibStep m t c (.stolen parentSP parentProc) F pc = some o) : LostStep G t m o := by
  have hb := h.core.base
  rw [hbase] at hb
  obtain ⟨hparent, hover⟩ := hb
  have heffect := fibStep_effect hbase hs
  -- the child lies strictly below `G`
  have hne : G ≠ F := by
    rintro rfl
    have h₁ : G.depth ≤ parentSP.depth := hparent.depth_le
    have h₂ : parentSP.depth + 1 ≤ G.depth := hover.depth_le
    omega
  refine h.fib heffect hne (hparent.trans hover.of_b) ?_
  have hgoes := heffect.base
  generalize o.core.base = base at hgoes
  cases hgoes with
  | stay => exact ⟨hparent, hover⟩
  | callA => exact ⟨hparent, .inr hover⟩
  | callB => exact ⟨hparent, .inr hover⟩
  | suspend => trivial
  | ret hret =>
    unfold returnTo at hret
    split at hret
    · cases hret
      trivial
    · rename_i harg
      cases F with
      | root => cases hret
      | a K =>
        cases hret
        exact ⟨hparent, hover.resolve_left nofun⟩
      | b K =>
        cases hret
        exact ⟨hparent, hover.resolve_left fun he => harg he.symm⟩

/-- A step of the first stacklet below the first child of `G`. It comes back to `G` behind
`fib(&a)`. -/
theorem LostAt.firstFib (h : LostAt G m t c) (hbase : c.base = .fib .first F pc) (ht : t = 0)
    (hcounter : (m.frames G).syncCounter = 2) (hover : (FooPtr.a G).Over F)
    (hs : fibStep m t c .first F pc = some o) : LostStep G t m o := by
  have heffect := fibStep_effect hbase hs
  have hne : G ≠ F := by
    rintro rfl
    exact absurd hover.depth_le (Nat.not_succ_le_self _)
  refine h.fib heffect hne hover.of_a ?_
  have hgoes := heffect.base
  generalize o.core.base = base at hgoes
  cases hgoes with
  | stay => exact ⟨ht, .inl ⟨hcounter, hover⟩⟩
  | callA | callB => exact ⟨ht, .inl ⟨hcounter, .inr hover⟩⟩
  | suspend => trivial
  | ret hret =>
    cases F with
    | root => cases hover
    | a K =>
      cases hret
      -- the first child of `G` returns to `G`, the others stay below it
      rcases hover with he | hover
      · exact ⟨ht, .inr ⟨(FooPtr.a.inj he).symm, hcounter⟩⟩
      · exact ⟨ht, .inl ⟨hcounter, hover⟩⟩
    | b K =>
      cases hret
      exact ⟨ht, .inl ⟨hcounter, hover.resolve_left nofun⟩⟩

/-- A step of the first stacklet in `G` itself. It goes to `FirstChildDone`, finds that the second
child is not back, and suspends. -/
theorem LostAt.inG (h : LostAt G m t c) (hbase : c.base = .fib .first G pc)
    (hs : fibStep m t c .first G pc = some o) : LostStep G t m o := by
  have hcore := h.core
  have hb := hcore.base
  rw [hbase] at hb
  obtain ⟨ht, hfirst⟩ := hb
  rcases hfirst with ⟨-, hover⟩ | ⟨-, hpc⟩
  · exact absurd hover.depth_le (Nat.not_succ_le_self _)
  cases pc with
  | callA =>
    cases hs
    exact h.quiet (hcore.goto ⟨ht, .inl ⟨hpc, FooPtr.over_self _⟩⟩)
  | lockPtid =>
    simp only [fibStep] at hs
    split at hs <;> cases hs
    · exact h.quiet (hcore.mydui.goto ⟨ht, .inr ⟨rfl, hpc⟩⟩)
    · exact h.abort
  | gotoReturnAdr =>
    simp only [fibStep, h.adr] at hs
    cases hs
    exact h.quiet (hcore.goto ⟨ht, .inr ⟨rfl, hpc⟩⟩)
  | firstChildDone =>
    -- the counter goes from two to one, and nobody is there to bring it to zero
    cases hs
    refine ⟨⟨⟨ht, .inr ⟨rfl, ?_⟩⟩, hcore.seeds, hcore.messages.msgs, hcore.messages.acts⟩,
      not_sent, ?_, .inr (.inr ht), Nat.le_refl _, h.ready⟩
    · show (m.frames G).syncCounter - 1 = 1
      rw [show (m.frames G).syncCounter = 2 from hpc]
      rfl
    · show (update m.frames G _ G).firstChildReturnAdr = _
      rw [update_self]
      exact h.adr
  | unlockDone counter =>
    simp only [fibStep] at hs
    split at hs <;> cases hs
    · exact h.eui (hcore.goto ⟨ht, .inr ⟨rfl, hpc⟩⟩)
    · exact h.abort
  | testCounter counter =>
    simp only [fibStep, show counter = 1 from hpc, ne_eq, one_ne_zero, not_false_eq_true,
      if_true] at hs
    cases hs
    exact h.quiet (hcore.goto trivial)
  | _ => exact hpc.elim

/-- The topmost handler returns. -/
theorem CoreLost.pop {act : Act N} {rest : List (Act N)} (h : CoreLost G m t c)
    (hacts : c.acts = act :: rest) : CoreLost G m t (c.setActs rest) :=
  ⟨h.base, h.seeds, h.messages.pop hacts rfl rfl⟩

/-- The topmost handler goes on as `a`. -/
theorem CoreLost.next {act a : Act N} {rest : List (Act N)} (h : CoreLost G m t c)
    (hacts : c.acts = act :: rest) (ha : (lost G m.readyQ.readyQId).act t a) :
    CoreLost G m t (c.setActs (a :: rest)) :=
  ⟨h.base, h.seeds, h.messages.next hacts rfl ha rfl⟩

/-- A theft, behind the mark of the frame. -/
theorem LostAt.theft {msg : Message N} {rest : List (Act N)} {seed : Seed} {seedQ : List Seed}
    (h : LostAt G (m.steal seed) t c) (hacts : c.acts = .steal msg .enter :: rest)
    (hq : c.seedQ = seed :: seedQ) (hseed : G.Over seed.sp) :
    LostStep G t (m.steal seed) (stealStep m t c rest msg .enter) := by
  have hseeds : ∀ σ ∈ seedQ, G.Over σ.sp := fun σ hσ =>
    h.core.seeds σ (by rw [hq]; exact List.mem_cons_of_mem _ hσ)
  simp only [stealStep, hq]
  split
  · exact .same h rfl rfl ⟨h.core.base, hseeds, h.core.messages.msgs, h.core.messages.acts⟩ not_sent
  · exact h.eui ⟨h.core.base, hseeds, h.core.messages.next hacts rfl hseed rfl⟩

/-- A step of `stealHandler`. A further theft marks a frame at or below `G`. -/
theorem LostAt.steal {msg : Message N} {pc : StealPC N} {rest : List (Act N)}
    (h : LostAt G m t c) (hacts : c.acts = .steal msg pc :: rest) :
    LostStep G t m (stealStep m t c rest msg pc) := by
  cases pc with
  | enter =>
    cases hq : c.seedQ with
    | nil =>
      simp only [stealStep, hq]
      exact h.eui (h.core.mydui.next hacts trivial)
    | cons seed seedQ =>
      -- a theft from `G` itself would write the same mark again
      have hmark : ((m.steal seed).frames G).firstChildReturnAdr = some .firstChildDone ∧
          (((m.steal seed).frames G).syncCounter = (m.frames G).syncCounter ∨
            ((m.steal seed).frames G).syncCounter = 2) := by
        simp only [Shared.steal]
        by_cases hG : G = seed.sp
        · rw [← hG, update_self]
          exact ⟨rfl, .inr rfl⟩
        · rw [update_of_ne hG]
          exact ⟨h.adr, .inl rfl⟩
      have hmarked : LostAt G (m.steal seed) t c :=
        ⟨hmark.1, h.ready, h.core.mono (fun _ => hmark.2) (Nat.le_refl _)⟩
      refine LostStep.trans (hmarked.theft hacts hq ?_) hmark.2 rfl
      exact h.core.seeds seed (by rw [hq]; exact List.mem_cons_self)
  | fail =>
    refine .same h rfl rfl (h.core.pop hacts) ?_
    intro x msg' hsent hcallback
    obtain ⟨-, rfl⟩ := Prod.mk.inj (Option.some.inj hsent)
    cases hcallback
  | send dest =>
    refine .same h rfl rfl (h.core.pop hacts) ?_
    intro x msg' hsent _
    obtain ⟨-, rfl⟩ := Prod.mk.inj (Option.some.inj hsent)
    exact h.core.messages.head hacts

/-- A saved context is started: a child below `G`, on whatever thread. -/
theorem LostAt.start {e : Context N} (h : LostAt G m t c) (he : e.Lost G) :
    LostStep G t m (startContext m t c e) := by
  refine .same h rfl rfl ⟨?_, h.core.seeds, h.core.messages.msgs, List.forall_mem_nil _⟩ not_sent
  obtain ⟨stub, seed⟩ := e
  cases stub with
  | first => exact he.elim
  | stolen parentSP parentProc => exact ⟨he, FooPtr.over_self _⟩

omit [NeZero N] in
/-- A new thread for the ready queue. -/
theorem ReadyLost.newReady {e : Context N} (h : ReadyLost G m.readyQ) (he : e.Lost G) :
    ReadyLost G (m.newReady e).readyQ where
  front i hi := Nat.lt_succ_of_lt (h.front i hi)
  back i hi := Nat.lt_succ_of_lt (h.back i hi)
  entries i hi := by
    simp only [Shared.newReady]
    by_cases hid : i = m.readyQ.readyQId
    · rw [hid, update_self]
      exact ⟨he, fun j hj => by cases hj⟩
    · rw [update_of_ne hid]
      have hi' : i < m.readyQ.readyQId := Nat.lt_of_le_of_ne (Nat.le_of_lt_succ hi) hid
      exact ⟨(h.entries i hi').1, fun j hj => Nat.lt_succ_of_lt ((h.entries i hi').2 j hj)⟩

omit [NeZero N] in
/-- It is linked behind an older one. -/
theorem ReadyLost.setNext {i ready : Nat} (h : ReadyLost G m.readyQ)
    (hi : i < m.readyQ.readyQId) (hid : ready < m.readyQ.readyQId) :
    ReadyLost G (m.setNext i (some ready)).readyQ where
  front := h.front
  back := h.back
  entries k hk := by
    simp only [Shared.setNext]
    by_cases hki : k = i
    · rw [hki, update_self]
      refine ⟨(h.entries i hi).1, fun j hj => ?_⟩
      obtain rfl := Option.some.inj hj
      exact hid
    · rw [update_of_ne hki]
      exact h.entries k hk

/-- A step of `forkHandler`. -/
theorem LostAt.fork {msg : Message N} {pc : ForkPC} {rest : List (Act N)} (h : LostAt G m t c)
    (hacts : c.acts = .fork msg pc :: rest) : LostStep G t m (forkStep m t c rest msg pc) := by
  have hready := h.ready
  obtain ⟨hmsg, hpc⟩ := h.core.messages.head hacts
  -- a step that only writes to the queue, and goes on at `pc'`
  have hqueue : ∀ (m' : Shared N) (pc' : ForkPC), m'.frames = m.frames →
      m.readyQ.readyQId ≤ m'.readyQ.readyQId → ReadyLost G m'.readyQ →
      pc'.Below m'.readyQ.readyQId →
      LostStep G t m (.quiet m' (c.setActs (.fork msg pc' :: rest))) := by
    intro m' pc' hframes hids hready' hpc'
    have hcore : CoreLost G m' t c := h.core.mono (fun _ => .inl (by rw [hframes])) hids
    exact ⟨hcore.next hacts ⟨hmsg, hpc'⟩, not_sent,
      by show (m'.frames G).firstChildReturnAdr = _; rw [hframes]; exact h.adr,
      .inl (by show (m'.frames G).syncCounter = _; rw [hframes]), hids, hready'⟩
  cases pc with
  | enter =>
    have hnew := hready.newReady (e := msg.context) hmsg
    simp only [forkStep]
    cases m.readyQ.back with
    | none | some back => exact hqueue _ _ rfl (Nat.le_succ _) hnew (Nat.lt_succ_self _)
  | enqLink ready =>
    simp only [forkStep]
    cases hback : m.readyQ.back with
    | none => exact h.abort
    | some back =>
      exact hqueue _ _ rfl (Nat.le_refl _) (hready.setNext (hready.back back hback) hpc) hpc
  | enqFront ready =>
    refine hqueue _ _ rfl (Nat.le_refl _) ⟨fun i hi => ?_, hready.back, hready.entries⟩ hpc
    obtain rfl := Option.some.inj hi
    exact hpc
  | enqBack ready =>
    refine hqueue _ _ rfl (Nat.le_refl _) ⟨hready.front, fun i hi => ?_, hready.entries⟩ trivial
    obtain rfl := Option.some.inj hi
    exact hpc
  | resume => exact h.start hmsg

/-- A step of a poll or a handler. -/
theorem LostAt.act {act : Act N} {rest : List (Act N)} (h : LostAt G m t c)
    (hacts : c.acts = act :: rest) : LostStep G t m (actStep m t c rest act) := by
  have hcore := h.core
  cases act with
  | poll =>
    rw [actStep_poll]
    split
    · exact h.quiet (hcore.pop hacts)
    · exact h.quiet (hcore.next hacts trivial)
  | iHandler =>
    rw [actStep_iHandler]
    cases hbufs : c.msgBufs with
    | nil => exact h.quiet (hcore.pop hacts)
    | cons msg msgBufs =>
      have hmsg := hcore.messages.msgs msg (by rw [hbufs]; exact List.mem_cons_self)
      dsimp only
      cases hcallback : msg.callback with
      | none => exact h.abort
      | some callback =>
        refine h.quiet ⟨hcore.base, hcore.seeds, hcore.messages.handle hacts
          (l := [handlerOf msg callback, .iHandler]) rfl ?_ ?_⟩
        · refine List.forall_mem_cons.mpr ⟨?_, List.forall_mem_singleton.mpr trivial⟩
          cases callback with
          | forkHandler => exact ⟨hmsg hcallback, trivial⟩
          | _ => trivial
        · intro msg' hmsg'
          rw [hbufs]
          exact List.mem_cons_of_mem _ hmsg'
  | steal msg pc => exact h.steal hacts
  | noWork msg freed =>
    cases freed with
    | false =>
      exact h.eui ⟨hcore.base, hcore.seeds, hcore.messages.next hacts rfl trivial rfl⟩
    | true => exact h.quiet (hcore.pop hacts)
  | fork msg pc => exact h.fork hacts
  | returnInlet msg => exact h.quiet (hcore.pop hacts)

/-- A step of `getMsg`. No caller of it hands over work. -/
theorem LostAt.getMsg {use : Use N} {pc : GetMsgPC N} (h : LostAt G m t c)
    (hs : getMsgStep m t c use pc = some o) : LostStep G t m o := by
  have hcore := h.core
  cases pc with
  | test =>
    simp only [getMsgStep] at hs
    split at hs <;> cases hs
    · exact h.eui ⟨trivial, hcore.seeds, hcore.messages.msgs, hcore.messages.acts⟩
    · exact h.quiet (hcore.goto trivial)
  | take =>
    simp only [getMsgStep] at hs
    split at hs <;> cases hs
    · exact h.abort
    · exact h.eui ⟨trivial, hcore.seeds, hcore.messages.msgs, hcore.messages.acts⟩
  | fill msg =>
    cases hs
    refine .same h rfl rfl (hcore.goto ?_) ?_
    · cases use <;> trivial
    · intro x msg' hsent hcallback
      obtain ⟨-, rfl⟩ := Prod.mk.inj (Option.some.inj hsent)
      cases use <;> cases hcallback

/-- A step of `suspend`. -/
theorem LostAt.suspend {pc : SuspendPC N} (h : LostAt G s.shared t (s.cores t))
    (hbase : (s.cores t).base = .suspend pc) (hs : suspendStep s t (s.cores t) pc = some o) :
    LostStep G t s.shared o := by
  have hready := h.ready
  have hcore := h.core
  have hb := hcore.base
  rw [hbase] at hb
  have hgoto : ∀ base : Base N, base.Lost G s.shared t →
      LostStep G t s.shared (.quiet s.shared ((s.cores t).goto base)) := fun base hlost =>
    h.quiet (hcore.goto hlost)
  cases pc with
  | poll =>
    cases hs
    exact h.quiet ⟨trivial, hcore.seeds, hcore.messages.msgs,
      List.forall_mem_cons.mpr ⟨trivial, hcore.messages.acts⟩⟩
  | ownTest | stealing =>
    simp only [suspendStep] at hs
    split at hs <;> cases hs <;> exact hgoto _ trivial
  | ownTake =>
    simp only [suspendStep] at hs
    cases hq : (s.cores t).seedQ with
    | nil =>
      rw [hq] at hs
      cases hs
      exact h.quiet (hcore.mydui.goto trivial)
    | cons seed seedQ =>
      rw [hq] at hs
      cases hs
      refine .same h rfl rfl ⟨trivial, fun σ hσ => hcore.seeds σ ?_, hcore.messages.msgs,
        hcore.messages.acts⟩ not_sent
      rw [hq]
      exact List.mem_cons_of_mem _ hσ
  | ownEui found =>
    cases found <;> cases hs <;> exact h.eui (hcore.goto trivial)
  | ready =>
    simp only [suspendStep] at hs
    cases hfront : s.shared.readyQ.front with
    | none =>
      rw [hfront] at hs
      cases hs
      exact hgoto _ trivial
    | some ready =>
      rw [hfront] at hs
      cases hs
      exact hgoto _ (hready.entries ready (hready.front ready hfront)).1
  | deqFront e =>
    simp only [suspendStep] at hs
    cases hfront : s.shared.readyQ.front with
    | none =>
      rw [hfront] at hs
      cases hs
      exact h.abort
    | some origFront =>
      rw [hfront] at hs
      cases hs
      exact hgoto _ ⟨hb, hready.front origFront hfront⟩
  | deqNext e origFront =>
    -- another thread may have taken the entry meanwhile, but it is still an entry
    cases hs
    obtain ⟨he, hid⟩ := hb
    exact ⟨⟨he, hcore.seeds, hcore.messages.msgs, hcore.messages.acts⟩, not_sent, h.adr, .inl rfl,
      Nat.le_refl _, ⟨(hready.entries origFront hid).2, hready.back, hready.entries⟩⟩
  | deqBack e origFront =>
    simp only [suspendStep] at hs
    split at hs <;> cases hs
    · exact ⟨⟨hb, hcore.seeds, hcore.messages.msgs, hcore.messages.acts⟩, not_sent, h.adr,
        .inl rfl, Nat.le_refl _, ⟨hready.front, fun i hi => (by cases hi), hready.entries⟩⟩
    · exact hgoto _ hb
  | jump e =>
    cases hs
    exact h.start hb
  | scan i =>
    simp only [suspendStep] at hs
    split at hs
    · split at hs <;> cases hs
      · exact h.quiet ⟨trivial, hcore.seeds, hcore.messages.msgs, hcore.messages.acts⟩
      · exact hgoto _ trivial
    · cases hs
      exact hgoto _ trivial

/-- Every step keeps the first stacklet lost. -/
theorem Lost.step (h : Lost G s) (hs : step s t = some s') : Lost G s' := by
  obtain ⟨o, rfl, ho⟩ := step_cases hs
  have ht : LostAt G s.shared t (s.cores t) := ⟨h.adr, h.ready, h.cores t⟩
  refine h.after ?_
  rcases ho with ⟨act, rest, hacts, rfl⟩ | ⟨-, hbase⟩
  · exact ht.act hacts
  · cases hb : (s.cores t).base with
    | fib stub F pc =>
      rw [hb] at hbase
      cases stub with
      | stolen parentSP parentProc => exact ht.stolenFib hb hbase
      | first =>
        have hlost := (h.cores t).base
        rw [hb] at hlost
        rcases hlost.2 with ⟨hcounter, hover⟩ | ⟨rfl, -⟩
        · exact ht.firstFib hb hlost.1 hcounter hover hbase
        · exact ht.inG hb hbase
    | getMsg use pc =>
      rw [hb] at hbase
      exact ht.getMsg hbase
    | suspend pc =>
      rw [hb] at hbase
      exact ht.suspend hb hbase
    | returned =>
      rw [hb] at hbase
      cases hbase

/-! ### The first theft -/

omit [NeZero N] in
/-- Where no `ForkMsg` is under way, none is for a frame that is not lost. -/
theorem lost_of_plain (h : plain.At u c) (G : FooPtr) (i : Nat) : (lost G i).At u c where
  msgs msg hmsg hcallback := absurd hcallback (h.msgs msg hmsg)
  acts act hact := by
    have := h.acts act hact
    cases act with
    | fork msg pc => exact this.elim
    | steal msg pc =>
      cases pc with
      | send dest => exact this.elim
      | _ => trivial
    | _ => trivial

/-- When the first seed is taken, it is the one of the outermost frame that waits for its first
child. -/
theorem FirstRuns.theft {seed : Seed} {seedQ : List Seed} (h : FirstRuns n m c)
    (hacts : c.acts ≠ []) (hq : c.seedQ = seed :: seedQ) :
    c.base.Lost seed.sp (m.steal seed) 0 ∧ ∀ σ ∈ c.seedQ, seed.sp.Over σ.sp := by
  have hcounter : ((m.steal seed).frames seed.sp).syncCounter = 2 := by simp
  have hself : seed.sp.Over seed.sp := FooPtr.over_self _
  cases h with
  | returned hbase hright hnil hnone => exact absurd hnone hacts
  | inside F pc q hbase hF hframe hpc =>
    rw [hbase, hq]
    -- the thread is behind the push of the frame, or behind the release
    rcases hpc hacts with rfl | rfl
    · obtain ⟨-, -, -, σ, hpush, hqueue⟩ := hframe
      rw [hq] at hqueue
      cases q with
      | nil =>
        obtain ⟨rfl, rfl⟩ := List.cons.inj hqueue
        exact ⟨⟨rfl, .inr ⟨hpush.sp.symm, hcounter⟩⟩, List.forall_mem_singleton.mpr hself⟩
      | cons σ' q' =>
        obtain ⟨rfl, rfl⟩ := List.cons.inj hqueue
        obtain ⟨hover, hrest⟩ := hF.head
        refine ⟨⟨rfl, .inl ⟨hcounter, hover⟩⟩, List.forall_mem_cons.mpr ⟨hself, ?_⟩⟩
        refine List.forall_mem_append.mpr ⟨fun τ hτ => (hrest τ hτ).of_a, ?_⟩
        exact List.forall_mem_singleton.mpr (hpush.sp ▸ hover.of_a)
    · obtain ⟨-, -, -, hqueue⟩ := hframe
      rw [hq] at hqueue
      subst hqueue
      obtain ⟨hover, hrest⟩ := hF.head
      exact ⟨⟨rfl, .inl ⟨hcounter, hover⟩⟩,
        List.forall_mem_cons.mpr ⟨hself, fun τ hτ => (hrest τ hτ).of_a⟩⟩

/-- The first theft leaves the first stacklet lost. -/
theorem Undisturbed.theft {msg : Message N} {rest : List (Act N)} {seed : Seed}
    {seedQ : List Seed} (h : Undisturbed n s) (hacts : (s.cores t).acts = .steal msg .enter :: rest)
    (hq : (s.cores t).seedQ = seed :: seedQ) :
    Lost seed.sp (s.after t (stealStep s.shared t (s.cores t) rest msg .enter)) := by
  obtain rfl : t = 0 := by
    by_contra ht
    rw [(h.others t ht).2] at hq
    cases hq
  obtain ⟨hbase, hseeds⟩ := h.first.theft (by rw [hacts]; exact List.cons_ne_nil _ _) hq
  obtain ⟨hids, hfront, hback⟩ := h.ready
  -- what holds right behind the mark of the frame, before the thread goes on
  have hmarked : Lost seed.sp ⟨s.cores, s.shared.steal seed⟩ := by
    refine ⟨by simp, fun u => ?_, fun i hi => ?_, fun i hi => ?_, fun i hi => ?_⟩
    · by_cases hu : u = 0
      · rw [hu]
        exact ⟨hbase, hseeds, lost_of_plain (h.messages 0) _ _⟩
      · obtain ⟨hlooks, hnil⟩ := h.others u hu
        refine ⟨?_, by show ∀ σ ∈ (s.cores u).seedQ, _; rw [hnil]; exact List.forall_mem_nil _,
          lost_of_plain (h.messages u) _ _⟩
        show (s.cores u).base.Lost _ _ _
        cases hb : (s.cores u).base with
        | fib | returned => rw [hb] at hlooks; exact hlooks.elim
        | getMsg => trivial
        | suspend pc =>
          rw [hb] at hlooks
          cases pc <;> trivial
    · exact absurd (hfront.symm.trans hi) nofun
    · exact absurd (hback.symm.trans hi) nofun
    · exact absurd hi (by show ¬ i < s.shared.readyQ.readyQId; omega)
  have hzero : LostAt seed.sp (s.shared.steal seed) 0 (s.cores 0) :=
    ⟨hmarked.adr, hmarked.ready, hmarked.cores 0⟩
  exact hmarked.after (hzero.theft hacts hq (FooPtr.over_self _))

/-- What one thread is up to before the first theft. -/
structure CoreUndisturbed (n : Int) (m : Shared N) (u : Fin N) (c : Core N) : Prop where
  first : u = 0 → FirstRuns n m c
  others : u ≠ 0 → c.base.Looks ∧ c.seedQ = []
  messages : plain.At u c

/-- A message arrives that is no `ForkMsg`. -/
theorem CoreUndisturbed.receive {msg : Message N} (h : CoreUndisturbed n m u c)
    (hmsg : plain.msg u msg) : CoreUndisturbed n m u (c.receive msg) where
  first hu := (h.first hu).same rfl rfl rfl rfl id
  others := h.others
  messages := h.messages.receive hmsg

/-- A step of `t` that takes nothing, for all threads. -/
theorem Undisturbed.after (h : Undisturbed n s) (hcore : CoreUndisturbed n o.shared t o.core)
    (hmemory : t ≠ 0 → o.shared.foos = s.shared.foos ∧ o.shared.frames = s.shared.frames)
    (hstolen : o.shared.stolen = s.shared.stolen) (hready : o.shared.readyQ = s.shared.readyQ)
    (hsent : ∀ x msg, o.sent = some (x, msg) → plain.msg x msg) : Undisturbed n (s.after t o) := by
  have hall : ∀ u, CoreUndisturbed n o.shared u ((s.after t o).cores u) := by
    refine forall_after hcore (fun v hv => ?_)
      (fun x msg hs _ hb => hb.receive (hsent x msg hs))
    refine ⟨fun hzero => ?_, fun hne => h.others v hne, h.messages v⟩
    subst hzero
    obtain ⟨hfoos, hframes⟩ := hmemory (Ne.symm hv)
    exact h.first.same hfoos hframes rfl rfl id
  refine ⟨(hall 0).first rfl, fun u hu => (hall u).others hu, fun u => (hall u).messages,
    hstolen.trans h.stolen, ?_⟩
  show o.shared.readyQ.readyQId = 0 ∧ o.shared.readyQ.front = none ∧ o.shared.readyQ.back = none
  rw [hready]
  exact h.ready

/-- A harmless step leaves the first stacklet as it is. -/
theorem Undisturbed.harmless (h : Undisturbed n s) (ho : Harmless t s.shared (s.cores t) o)
    (hbase : t = 0 → o.core.base = (s.cores t).base ∧ (s.cores t).acts ≠ [])
    (hlooks : t ≠ 0 → o.core.base.Looks) : Undisturbed n (s.after t o) := by
  obtain ⟨b, hshared⟩ := ho.shared
  have hfoos : o.shared.foos = s.shared.foos := by rw [hshared]
  have hframes : o.shared.frames = s.shared.frames := by rw [hshared]
  refine h.after ⟨fun ht => ?_, fun ht => ⟨hlooks ht, ?_⟩, ho.messages⟩ (fun _ => ⟨hfoos, hframes⟩)
    (by rw [hshared]) (by rw [hshared]) ho.sent
  · obtain ⟨hb, hacts⟩ := hbase ht
    subst ht
    exact h.first.same hfoos hframes hb ho.seedQ fun _ => hacts
  · rw [ho.seedQ]
    exact (h.others t ht).2

/-- Every step before the first theft, and the first theft itself. -/
theorem Undisturbed.step (h : Undisturbed n s) (hs : step s t = some s') :
    Undisturbed n s' ∨ ∃ G, Lost G s' := by
  obtain ⟨o, rfl, ho⟩ := step_cases hs
  rcases ho with ⟨act, rest, hacts, rfl⟩ | ⟨hacts, hbase⟩
  · -- a handler: the theft is the first step of `stealHandler` with a seed in the queue
    by_cases htheft : (s.cores t).seedQ = [] ∨ ∀ msg, act ≠ .steal msg .enter
    · obtain ⟨hharm, hb⟩ := actStep_harmless (h.messages t) hacts htheft (m := s.shared)
      refine .inl (h.harmless hharm (fun _ => ⟨hb, by rw [hacts]; exact List.cons_ne_nil _ _⟩)
        fun ht => ?_)
      rw [hb]
      exact (h.others t ht).1
    · rw [not_or, not_forall] at htheft
      obtain ⟨hne, msg, hact⟩ := htheft
      obtain ⟨seed, seedQ, hq⟩ := List.exists_cons_of_ne_nil hne
      obtain rfl := not_not.mp hact
      exact .inr ⟨seed.sp, h.theft hacts hq⟩
  · by_cases ht : t = 0
    · subst ht
      cases h.first with
      | returned hb =>
        rw [hb] at hbase
        cases hbase
      | inside F pc q hb hF hframe _ =>
        rw [hb] at hbase
        have heffect := fibStep_effect hb hbase
        refine .inl (h.after ⟨fun _ => .fib hb hF hframe hacts hbase, fun hne => absurd rfl hne,
          (h.messages 0).of_poll heffect.msgBufs heffect.acts⟩ (fun hne => absurd rfl hne)
          heffect.stolen heffect.readyQ ?_)
        rw [heffect.sent]
        exact not_sent
    · obtain ⟨hlooks, hseedQ⟩ := h.others t ht
      obtain ⟨hharm, hb⟩ := baseStep_harmless (h.messages t) hlooks hseedQ h.ready.2.1 hbase
      exact .inl (h.harmless hharm (fun h' => absurd h' ht) fun _ => hb)

/-- At the start the first thread is in `fib`, and the others look for work. -/
theorem undisturbed_initial (N : Nat) [NeZero N] (n : Int) (stubFound : Bool) :
    Undisturbed n (initial N n stubFound) := by
  have hbase : ∀ u : Fin N, ((initial N n stubFound).cores u).base =
      if u = 0 then .fib .first .root .start else .suspend .poll := fun _ => rfl
  refine ⟨?_, fun u hu => ⟨?_, rfl⟩, fun u => ⟨List.forall_mem_nil _, List.forall_mem_nil _⟩, rfl,
    rfl, rfl, rfl⟩
  · exact .inside .root .start [] (by rw [hbase, if_pos rfl]) rfl ⟨rfl, rfl⟩
      fun h => absurd rfl h
  · rw [hbase, if_neg hu]
    trivial

/-- In every state of a run nothing has been stolen, or the first stacklet is lost. -/
theorem undisturbed_or_lost {stubFound : Bool} {sched : List (Fin N)}
    (hrun : run step (initial N n stubFound) sched = some s) : Undisturbed n s ∨ ∃ G, Lost G s := by
  refine run_induction (I := fun s => Undisturbed n s ∨ ∃ G, Lost G s) ?_ sched _ _
    (.inl (undisturbed_initial N n stubFound)) hrun
  rintro s t s' (h | ⟨G, h⟩) hs
  · exact h.step hs
  · exact .inr ⟨G, h.step hs⟩

/-- For any number of threads and every interleaving of the ULI build: when `firstFork` returns to
`startfib(n)`, it does so on thread 0, no seed has been taken from any queue, `a->output` is the
value of the sequence at `n`, and all seed queues are empty. So after a theft `startfib` does not
return any more. -/
theorem returned_without_theft {stubFound : Bool} {sched : List (Fin N)}
    (hrun : run step (initial N n stubFound) sched = some s) (hret : (s.cores t).base = .returned) :
    t = 0 ∧ s.shared.stolen = [] ∧
      (s.shared.foos .root).output = BitVec.ofNat 32 (fibValue n) ∧
      ∀ u, (s.cores u).seedQ = [] := by
  rcases undisturbed_or_lost hrun with h | ⟨G, h⟩
  · obtain rfl : t = 0 := by
      by_contra ht
      have := (h.others t ht).1
      rw [hret] at this
      exact this
    cases h.first with
    | inside F pc q hbase =>
      rw [hret] at hbase
      cases hbase
    | returned hbase hright hq hacts =>
      refine ⟨rfl, h.stolen, hright, fun u => ?_⟩
      by_cases hu : u = 0
      · rw [hu]
        exact hq
      · exact (h.others u hu).2
  · have := (h.cores t).base
    rw [hret] at this
    exact this.elim

/-- Thread 0 finishes `startfib(3)` before thread 1 asks for work. -/
theorem returned_without_theft_three :
    ∃ s, run step (initial 2 3 false) (List.replicate 20 0) = some s ∧
    (s.cores 0).base = .returned ∧ (s.shared.foos .root).output = 2 := by
  have h : (run step (initial 2 3 false) (List.replicate 20 0)).map (fun s => (s.cores 0).base) =
      some .returned := by
    decide +kernel
  obtain ⟨s, hrun, hret⟩ := Option.map_eq_some_iff.mp h
  refine ⟨s, hrun, hret, ?_⟩
  rw [(returned_without_theft hrun hret).2.2.1]
  simp [fibValue]

end

end Stacklets.Steal

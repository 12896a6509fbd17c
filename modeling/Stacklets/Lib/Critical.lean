import Stacklets.Lib.Runs
import Stacklets.Lib.Token

/-!
# `Stacklets.Lib.Critical`: critical sections under a spinning lock

Threads that share a memory and touch it only in the critical sections of one lock. A section is
a piece of `Code`: from an operation it gets its first instruction, and each instruction changes
the memory and says which one comes next, or that the section ends with a result, or that the
program stops. The threads interleave between any two instructions. A thread that wants to enter
tries the lock in a loop.

`Code.Runs` is what a section does when it runs alone. The theorem behind the lock is
`exists_moves`: there is a settled memory `m`, which a step leaves alone, unless it is the last
instruction of a section, and then the settled memory changes as it would if the whole section
had run at once. So a property of the sequence of the sections is proved from `Code.Runs` alone,
with one case for each constructor of `Moves`.

Steps beside the sections that commute with every instruction are allowed at any time
(`Inv.beside`).
-/

set_option autoImplicit false

namespace Stacklets.Lib.Critical

/-- What comes behind an instruction. -/
inductive Next (L R : Type*)
  | goto (l : L)
  /-- The section ends with a result. -/
  | done (r : R)
  /-- The program stops. -/
  | abort

/-- The code of the sections, one for each operation. -/
structure Code (Op M L R : Type*) where
  start : Op → L
  step : M → L → M × Next L R

/-- Where a thread is. -/
inductive Local (Op L : Type*)
  | out
  /-- In the loop of the lock. -/
  | wants (op : Op)
  /-- Before an instruction of the section. -/
  | inside (op : Op) (l : L)
  /-- Before the store that releases the lock. -/
  | leaving

/-- `history` lists the operations in the order in which their sections ended. -/
structure State (T Op M L R : Type*) where
  locked : Bool
  memory : M
  locals : T → Local Op L
  history : List (Op × R)
  aborted : Bool

section
variable {T Op M L R : Type*} [DecidableEq T] (code : Code Op M L R)

/-- The thread `t` goes on at `k`. -/
def State.goto (s : State T Op M L R) (t : T) (k : Local Op L) : State T Op M L R :=
  { s with locals := Function.update s.locals t k }

/-- The thread `t` calls the operation `op`. -/
def call (s : State T Op M L R) (t : T) (op : Op) : Option (State T Op M L R) :=
  if s.aborted then none else
    match s.locals t with
    | .out => some (s.goto t (.wants op))
    | _ => none

/-- The next step of the thread `t`: one turn of the loop, one instruction, or the release. -/
def move (s : State T Op M L R) (t : T) : Option (State T Op M L R) :=
  if s.aborted then none else
    match s.locals t with
    | .out => none
    | .wants op =>
      if s.locked then some s
      else some ({ s with locked := true }.goto t (.inside op (code.start op)))
    | .inside op l =>
      match code.step s.memory l with
      | (m, .goto l') => some ({ s with memory := m }.goto t (.inside op l'))
      | (m, .done r) =>
        some ({ s with memory := m, history := s.history ++ [(op, r)] }.goto t .leaving)
      | (m, .abort) => some { s with memory := m, aborted := true }
    | .leaving => some ({ s with locked := false }.goto t .out)

/-- Nobody has called anything. -/
def initial (m : M) : State T Op M L R where
  locked := false
  memory := m
  locals _ := .out
  history := []
  aborted := false

/-! ### A section alone -/

/-- What the section does from `l` on with nobody else around: it ends with a memory and a
result, or it stops the program. -/
inductive Code.Runs : M → L → Option (M × R) → Prop
  | goto {m m' : M} {l l' : L} {o : Option (M × R)} (h : code.step m l = (m', .goto l'))
      (hrest : Code.Runs m' l' o) : Code.Runs m l o
  | done {m m' : M} {l : L} {r : R} (h : code.step m l = (m', .done r)) :
      Code.Runs m l (some (m', r))
  | abort {m m' : M} {l : L} (h : code.step m l = (m', .abort)) : Code.Runs m l none

variable {code} {m : M} {l : L} {o : Option (M × R)}

/-- The first `k` instructions: the outcome of the section, if they are enough. -/
def Code.exec (code : Code Op M L R) : Nat → M → L → Option (Option (M × R))
  | 0, _, _ => none
  | k + 1, m, l =>
    match code.step m l with
    | (m', .goto l') => code.exec k m' l'
    | (m', .done r) => some (some (m', r))
    | (_, .abort) => some none

/-- A section has one outcome, which can be computed. -/
theorem Code.runs_iff_of_exec {k : Nat} {o' : Option (M × R)} (h : code.exec k m l = some o') :
    code.Runs m l o ↔ o = o' := by
  induction k generalizing m l with
  | zero => cases h
  | succ k ih =>
    cases hx : code.step m l with
    | mk m₁ nx =>
      rw [Code.exec, hx] at h
      -- the instruction decides which constructor of `Runs` applies
      cases nx with
      | goto l' =>
        rw [← ih h]
        refine ⟨fun hr => ?_, .goto hx⟩
        cases hr with
        | goto hstep hrest =>
          rw [hx] at hstep
          cases hstep
          exact hrest
        | done hstep | abort hstep =>
          rw [hx] at hstep
          cases hstep
      | done r =>
        cases h
        refine ⟨fun hr => ?_, fun ho => ho ▸ .done hx⟩
        cases hr with
        | done hstep =>
          rw [hx] at hstep
          cases hstep
          rfl
        | goto hstep _ | abort hstep =>
          rw [hx] at hstep
          cases hstep
      | abort =>
        cases h
        refine ⟨fun hr => ?_, fun ho => ho ▸ .abort hx⟩
        cases hr with
        | abort _ => rfl
        | goto hstep _ | done hstep =>
          rw [hx] at hstep
          cases hstep

/-- A change of the memory that commutes with every instruction. -/
def Code.Beside (code : Code Op M L R) (f : M → M) : Prop :=
  ∀ m l, code.step (f m) l = (f (code.step m l).1, (code.step m l).2)

/-- It commutes with the sections as well. -/
theorem Code.Beside.runs {f : M → M} (hf : code.Beside f) (h : code.Runs m l o) :
    code.Runs (f m) l (o.map fun x => (f x.1, x.2)) := by
  induction h with
  | goto hstep _ ih => exact .goto (by rw [hf, hstep]) ih
  | done hstep => exact .done (by rw [hf, hstep])
  | abort hstep => exact .abort (by rw [hf, hstep])

/-- The result of a section behind such a change tells that of the section before it. -/
theorem Code.Beside.runs_iff {f : M → M} (hf : code.Beside f) :
    code.Runs (f m) l o ↔ ∃ o', code.Runs m l o' ∧ o = o'.map fun x => (f x.1, x.2) := by
  refine ⟨fun h => ?_, fun ⟨o', h, ho⟩ => ho ▸ hf.runs h⟩
  generalize hm : f m = n at h
  -- on the memory `m` the same instruction leads to the same place
  induction h generalizing m with
  | @goto n n' l _ _ hstep _ ih =>
    subst hm
    cases hx : code.step m l with
    | mk m₁ nx =>
      rw [hf, hx] at hstep
      cases hstep
      obtain ⟨o', ho', rfl⟩ := ih rfl
      exact ⟨o', .goto hx ho', rfl⟩
  | @done n n' l _ hstep =>
    subst hm
    cases hx : code.step m l with
    | mk m₁ nx =>
      rw [hf, hx] at hstep
      cases hstep
      exact ⟨_, .done hx, rfl⟩
  | @abort n n' l hstep =>
    subst hm
    cases hx : code.step m l with
    | mk m₁ nx =>
      rw [hf, hx] at hstep
      cases hstep
      exact ⟨none, .abort hx, rfl⟩

/-! ### Sections of several threads -/

/-- What a thread with the lock is about to do: an instruction, or the release. -/
def Local.view : Local Op L → Option (Option (Op × L))
  | .inside op l => some (some (op, l))
  | .leaving => some none
  | _ => none

/-- The memory, when the settled memory is `m` and the owner of the lock is in the state `x`. What
is left of a section does to the memory what the whole of it does to `m`. -/
def Progress (code : Code Op M L R) (s : State T Op M L R) (m : M) :
    Option (Option (Op × L)) → Prop
  | some (some (op, l)) =>
    s.aborted = false → ∀ o, code.Runs s.memory l o → code.Runs m (code.start op) o
  | _ => s.memory = m

/-- One thread at most has the lock. -/
def Inv (code : Code Op M L R) (s : State T Op M L R) (m : M) : Prop :=
  ∃ (owner : Option T) (x : Option (Option (Op × L))),
    Token owner (fun t => (s.locals t).view) x ∧ s.locked = owner.isSome ∧ Progress code s m x

variable {s s' : State T Op M L R} {t : T} {op : Op}

theorem inv_initial : Inv code (initial m : State T Op M L R) m :=
  ⟨none, none, .empty fun _ => rfl, rfl, rfl⟩

/-- A step of the thread `t`, with the settled memory before and after it. -/
inductive Moves (code : Code Op M L R) (s : State T Op M L R) (t : T) (m : M) :
    State T Op M L R → M → Prop
  | spins {op : Op} (h : s.locals t = .wants op) : Moves code s t m s m
  | enters {op : Op} (h : s.locals t = .wants op) :
      Moves code s t m ({ s with locked := true }.goto t (.inside op (code.start op))) m
  | goes {op : Op} {l l' : L} {m' : M} (h : s.locals t = .inside op l)
      (hstep : code.step s.memory l = (m', .goto l')) :
      Moves code s t m ({ s with memory := m' }.goto t (.inside op l')) m
  /-- The section is over, as if it had run on the settled memory at once. -/
  | ends {op : Op} {l : L} {m' : M} {r : R} (h : s.locals t = .inside op l)
      (hstep : code.step s.memory l = (m', .done r))
      (hruns : code.Runs m (code.start op) (some (m', r))) :
      Moves code s t m
        ({ s with memory := m', history := s.history ++ [(op, r)] }.goto t .leaving) m'
  | aborts {op : Op} {l : L} {m' : M} (h : s.locals t = .inside op l)
      (hstep : code.step s.memory l = (m', .abort))
      (hruns : code.Runs m (code.start op) none) :
      Moves code s t m { s with memory := m', aborted := true } m
  | leaves (h : s.locals t = .leaving) :
      Moves code s t m ({ s with locked := false }.goto t .out) m

theorem view_goto (s : State T Op M L R) (t : T) (k : Local Op L) :
    (fun u => ((s.goto t k).locals u).view) =
      Function.update (fun u => (s.locals u).view) t k.view :=
  funext fun u => Function.apply_update (fun _ => Local.view) s.locals t k u

/-- The thread `t` goes on at `k`, in a step of the token. -/
theorem Inv.goto {owner : Option T} (owner' : Option T) {x : Option (Option (Op × L))}
    {k : Local Op L} (htoken : Token owner (fun u => (s.locals u).view) x)
    (hstep : Token.Step t owner (s.locals t).view owner' k.view) (hlocals : s'.locals = s.locals)
    (hlocked : s'.locked = owner'.isSome)
    (hprog : Progress code s' m (Token.next (s.locals t).view k.view x)) :
    Inv code (s'.goto t k) m := by
  refine ⟨owner', _, ?_, hlocked, hprog⟩
  rw [view_goto, hlocals]
  exact htoken.step hstep

theorem aborted_eq_false (hs : move code s t = some s') : s.aborted = false := by
  by_contra ha
  rw [move, if_pos (by simpa using ha)] at hs
  cases hs

/-- Every step is one of `Moves`, and the settled memory stays the settled one. -/
theorem exists_moves (h : Inv code s m) (hs : move code s t = some s') :
    ∃ m', Moves code s t m s' m' ∧ Inv code s' m' := by
  obtain ⟨owner, x, htoken, hlocked, hprog⟩ := h
  have hrun := aborted_eq_false hs
  rw [move, if_neg (by simp [hrun])] at hs
  cases hl : s.locals t with
  | out =>
    rw [hl] at hs
    cases hs
  | wants op =>
    simp only [hl] at hs
    split at hs
    case isTrue =>
      cases hs
      exact ⟨m, .spins hl, owner, x, htoken, hlocked, hprog⟩
    case isFalse hfree =>
      cases hs
      -- nobody has the lock, so the memory is the settled one
      obtain rfl : owner = none := by simpa [hlocked] using hfree
      obtain rfl : x = none := htoken.free.mp rfl
      have hmem : s.memory = m := hprog
      have hview : (s.locals t).view = none := by rw [hl]; rfl
      refine ⟨m, .enters hl, Inv.goto (some t) htoken ?_ rfl rfl ?_⟩
      · rw [hview]
        exact .acquire rfl _
      · rw [hview]
        intro _ o ho
        rwa [← hmem]
  | inside op l =>
    have hview : (s.locals t).view = some (some (op, l)) := by rw [hl]; rfl
    obtain ⟨rfl, rfl⟩ := htoken.owner_of_view hview
    have hrest : ∀ o, code.Runs s.memory l o → code.Runs m (code.start op) o := hprog hrun
    simp only [hl] at hs
    cases hx : code.step s.memory l with
    | mk m₁ nx =>
      rw [hx] at hs
      cases nx with
      | goto l' =>
        cases hs
        -- what is left behind the instruction is what was left before it, less one
        refine ⟨m, .goes hl hx, Inv.goto _ htoken ?_ rfl hlocked ?_⟩
        · rw [hview]
          exact .move rfl _ _
        · rw [hview]
          intro _ o ho
          exact hrest o (.goto hx ho)
      | done r =>
        cases hs
        -- the new memory is settled from here on, with the lock still taken
        refine ⟨m₁, .ends hl hx (hrest _ (.done hx)), Inv.goto _ htoken ?_ rfl hlocked ?_⟩
        · rw [hview]
          exact .move rfl _ _
        · rw [hview]
          rfl
      | abort =>
        cases hs
        refine ⟨m, .aborts hl hx (hrest _ (.abort hx)), _, _, htoken, hlocked, ?_⟩
        intro hcon
        cases hcon
  | leaving =>
    have hview : (s.locals t).view = some none := by rw [hl]; rfl
    obtain ⟨rfl, rfl⟩ := htoken.owner_of_view hview
    rw [hl] at hs
    cases hs
    have hmem : s.memory = m := hprog
    refine ⟨m, .leaves hl, Inv.goto none htoken ?_ rfl rfl ?_⟩
    · rw [hview]
      exact .release rfl _
    · rw [hview]
      exact hmem

/-- A call changes neither the lock nor the memory. -/
theorem Inv.call (h : Inv code s m) (hs : call s t op = some s') :
    s.locals t = .out ∧ s' = s.goto t (.wants op) ∧ Inv code s' m := by
  obtain ⟨owner, x, htoken, hlocked, hprog⟩ := h
  simp only [Critical.call] at hs
  split at hs
  · cases hs
  split at hs <;> cases hs
  rename_i hl
  have hview : (s.locals t).view = none := by rw [hl]; rfl
  refine ⟨hl, rfl, Inv.goto _ htoken ?_ rfl hlocked ?_⟩
  · rw [hview]
    exact .away
  · rw [hview]
    exact hprog

/-- A change beside the sections changes the settled memory in the same way. -/
theorem Inv.beside {f : M → M} (h : Inv code s m) (hf : code.Beside f) :
    Inv code { s with memory := f s.memory } (f m) := by
  obtain ⟨owner, x, htoken, hlocked, hprog⟩ := h
  refine ⟨owner, x, htoken, hlocked, ?_⟩
  rcases x with _ | _ | ⟨op, l⟩
  · exact congrArg f hprog
  · exact congrArg f hprog
  · -- the owner is in the middle of its section
    intro ha o ho
    obtain ⟨o', ho', rfl⟩ := hf.runs_iff.mp ho
    exact hf.runs (hprog ha o' ho')

/-- With the lock free the memory is the settled one. -/
theorem Inv.memory_eq (h : Inv code s m) (hfree : s.locked = false) : s.memory = m := by
  obtain ⟨owner, x, htoken, hlocked, hprog⟩ := h
  obtain rfl : owner = none := by simpa [hlocked] using hfree
  obtain rfl : x = none := htoken.free.mp rfl
  exact hprog

end

end Stacklets.Lib.Critical

import Stacklets.Steal.Ready

/-!
# `Stacklets.Steal.Work`: every stolen seed is started once

When `stealHandler` or `suspend` unlinks a seed, its second child has to be started by some thread.
On the way there it is with `stealHandler`, in a message, with `forkHandler`, on the ready queue or
with the thread that has taken it off the ready queue. `onTheWay` counts these places, and
`startsOf` are the starts.

Work is not conserved in every run. `enQnewStacklet` puts the child on the ready queue and starts
it at once, so it is started again by whoever takes it from there (`started_twice`). A seed that
`suspend` takes from the queue of its own thread is gone, because `suspend` forgets what it has
read from it (`dropped_by_suspend`). The ready queue has no lock. And a `remoteStackletFork` that
starts over the frames of another one destroys what that has at hand. `Orderly` leaves these steps
out. In a run without them every stolen seed is in exactly one place or has been started exactly
once (`work_conserved`).
-/

set_option autoImplicit false

namespace Stacklets.Steal

open Lib
open LazyFork (FooPtr)

section
variable {N : Nat}

/-! ### Where a stolen seed can be -/

/-- `1` for the seed `σ`. -/
def mark (σ : Seed) (seed : Option Seed) : Nat := if seed = some σ then 1 else 0

/-- A message that `forkHandler` is to handle brings its seed. -/
def Message.hands (σ : Seed) (msg : Message N) : Nat :=
  if msg.callback = some .forkHandler then mark σ msg.seed else 0

/-- `stealHandler` has the seed until it sends it, and `forkHandler` until it has linked it into
the ready queue. -/
def Act.hands (σ : Seed) : Act N → Nat
  | .steal msg (.send _) => mark σ msg.seed
  | .fork msg .enter => mark σ msg.seed
  | .fork msg (.enqLink _) => mark σ msg.seed
  | .fork msg (.enqFront _) => mark σ msg.seed
  | _ => 0

/-- `suspend` has unlinked the seed from the ready queue and has not started it. -/
def Base.hands (σ : Seed) : Base N → Nat
  | .suspend (.deqBack e _) => mark σ e.seed
  | .suspend (.jump e) => mark σ e.seed
  | _ => 0

/-- The threads and messages that have the seed `σ`. -/
def handOvers (σ : Seed) : Weights N where
  msg := Message.hands σ
  act := Act.hands σ
  base _ := Base.hands σ
  act_poll := rfl

/-- The places that hold the stolen seed `σ`: threads, messages, and the ready queue. -/
def State.onTheWay (s : State N) (σ : Seed) : Nat :=
  (handOvers σ).all s + ((contents s.shared.readyQ).map fun e => mark σ e.seed).sum

/-- The starts of the second child of the seed `σ`. -/
def State.startsOf (s : State N) (σ : Seed) : List (Start N) :=
  s.shared.starts.filter fun st => st.seed = some σ

variable {t u : Fin N} {c : Core N} {m : Shared N} {msg : Message N} {l : List Nat} {σ : Seed}

/-- In `fib`, nothing that was stolen is in the hands of a thread. -/
theorem Base.Working.hands {base : Base N} (h : base.Working) : base.hands σ = 0 := by
  cases base with
  | suspend pc => cases pc <;> first | rfl | cases h
  | _ => rfl

/-! ### What is handed over is the second child of the seed -/

/-- The context is that of the second child of its seed. -/
def Context.Named (e : Context N) : Prop := e.seed.map (fun σ => FooPtr.b σ.sp) = some e.stub.arg

/-- The start is that of the second child of its seed. -/
def Start.Named (st : Start N) : Prop := st.seed.map (fun σ => FooPtr.b σ.sp) = some st.child

/-- The message is about the frame of its seed. -/
def Message.Named (msg : Message N) : Prop := msg.seed.map Seed.sp = some msg.parentSP

/-- The context of a message for a named child is named. -/
theorem Message.Named.context (h : msg.Named) : msg.context.Named := by
  unfold Message.Named at h
  show msg.seed.map (fun σ => FooPtr.b σ.sp) = some (.b msg.parentSP)
  cases hseed : msg.seed with
  | none =>
    rw [hseed] at h
    cases h
  | some σ =>
    rw [hseed] at h
    exact congrArg (Option.map FooPtr.b) h

/-- Every message and handler that has a seed names its frame. -/
def named : Facts N where
  msg _ msg := msg.callback = some .forkHandler → msg.Named
  act _ act :=
    match act with
    | .steal msg (.send _) => msg.callback = some .forkHandler ∧ msg.Named
    | .fork msg _ => msg.Named
    | _ => True
  act_poll _ := trivial

/-- `suspend` takes no seed of its own, and what it takes off the ready queue is in order. -/
def Base.InOrder : Base N → Prop
  | .getMsg .own _ => False
  | .suspend .ownTake => False
  | .suspend (.ownEui _) => False
  | .suspend (.deqFront e) => e.Named
  | .suspend (.deqNext e _) => e.Named
  | .suspend (.deqBack e _) => e.Named
  | .suspend (.jump e) => e.Named
  | _ => True

/-- `suspend` is inside `deqReadyQ`. -/
def Base.Dequeues : Base N → Prop
  | .suspend (.deqFront _) => True
  | .suspend (.deqNext _ _) => True
  | .suspend (.deqBack _ _) => True
  | _ => False

/-- What a thread has at hand is in order. Inside the accesses to the ready queue it does not
poll. -/
structure WorkOk (u : Fin N) (c : Core N) : Prop where
  msgs : named.At u c
  base : c.base.InOrder
  deq : c.base.Dequeues → c.acts = []
  tail : ∀ msg pc, Act.fork msg pc ∉ c.acts.tail

/-- A message that is not sent names no seed. -/
theorem named_none (x : Fin N) (msg : Message N) (h : none = some (x, msg)) : named.msg x msg :=
  nomatch h

/-- Only `forkHandler` uses the ready queue. -/
def Act.isFork : Act N → Bool
  | .fork _ _ => true
  | _ => false

/-- The test for `forkHandler` in the form the cases give. -/
theorem Act.ne_fork {act : Act N} (h : act.isFork = false) (msg : Message N) (pc : ForkPC) :
    act ≠ .fork msg pc := by
  rintro rfl
  cases h

/-- Without a handler in `enqReadyQ` on top the thread is outside. -/
theorem Core.phase_eq_out (hbase : ¬c.base.Dequeues) (hacts : ∀ msg pc, Act.fork msg pc ∉ c.acts) :
    c.phase = .out := by
  unfold Core.phase
  split <;> try rfl
  all_goals
    rename_i hc
    first
      | exact absurd (by rw [hc]; exact List.mem_cons_self) (hacts _ _)
      | exact absurd (by rw [hc]; trivial) hbase

/-- Before its first access a thread is outside. -/
theorem Core.phase_of_begins (h : c.begins = true) : c.phase = .out := by
  unfold Core.begins at h
  unfold Core.phase
  split at h
  · rename_i hacts
    rw [hacts]
  · rename_i hacts hbase
    rw [hacts, hbase]
  · cases h

/-! ### The books of one step -/

/-- How often the seed `σ` is among the nodes `l` of the ready queue. -/
def queued (σ : Seed) (q : ReadyQ N) (l : List Nat) : Nat :=
  (l.map fun i => mark σ (q.threads i).sp.seed).sum

/-- How often the second child of the seed `σ` has been started. -/
def started (σ : Seed) (m : Shared N) : Nat := (m.starts.map fun st => mark σ st.seed).sum

/-- Only the records of the starts matter. -/
theorem started_congr {m' : Shared N} (h : m'.starts = m.starts) : started σ m' = started σ m := by
  rw [started, h, started]

/-- The first thread of the queue counts for its own seed. -/
theorem queued_cons (σ : Seed) (q : ReadyQ N) (i : Nat) (l : List Nat) :
    queued σ q (i :: l) = mark σ (q.threads i).sp.seed + queued σ q l := by
  unfold queued
  rw [List.map_cons, List.sum_cons]

/-- So does the last one. -/
theorem queued_append (σ : Seed) (q : ReadyQ N) (i : Nat) (l : List Nat) :
    queued σ q (l ++ [i]) = queued σ q l + mark σ (q.threads i).sp.seed := by
  unfold queued
  rw [List.map_append, List.sum_append, List.map_singleton, List.sum_singleton]

/-- Only the `sp` of the queued threads matters. -/
theorem queued_congr {q q' : ReadyQ N} (h : ∀ i ∈ l, (q'.threads i).sp = (q.threads i).sp) :
    queued σ q' l = queued σ q l := by
  unfold queued
  rw [List.map_congr_left fun i hi => by rw [h i hi]]

/-- The nodes `l` of the ready queue are allocated and hold what is in order. -/
structure ListOk (q : ReadyQ N) (l : List Nat) : Prop where
  allocated : Allocated q l
  named : ∀ i ∈ l, (q.threads i).sp.Named

/-- What a step of `t` does to the stolen seeds, when the nodes of the ready queue become `l'`. -/
structure Handed (t : Fin N) (m : Shared N) (c : Core N) (l l' : List Nat) (o : Outcome N) :
    Prop where
  ok : WorkOk t o.core
  sent : ∀ x msg, o.sent = some (x, msg) → named.msg x msg
  starts : ∀ st ∈ o.shared.starts, st ∈ m.starts ∨ st.Named
  list : ListOk o.shared.readyQ l'
  queue : o.core.phase = .out ∧ c.phase = .out ∧ o.shared.readyQ = m.readyQ ∧ l' = l ∨
    (c.phase ≠ .out ∨ c.begins = true) ∧ Phase.Valid o.shared.readyQ l' o.core.phase
  balance : ∀ σ, (handOvers σ).core t o.core + postWeight (fun _ => Message.hands σ) o.sent +
      queued σ o.shared.readyQ l' + started σ o.shared + m.stolen.count σ =
    (handOvers σ).core t c + queued σ m.readyQ l + started σ m + o.shared.stolen.count σ

/-- A step that leaves the ready queue, the starts and the stolen seeds alone. -/
theorem Handed.plain {o : Outcome N} (hlist : ListOk m.readyQ l) (hok : WorkOk t o.core)
    (hsent : ∀ x msg, o.sent = some (x, msg) → named.msg x msg)
    (hq : o.shared.readyQ = m.readyQ) (hstarts : o.shared.starts = m.starts)
    (hstolen : o.shared.stolen = m.stolen) (hphase : o.core.phase = .out) (hphase' : c.phase = .out)
    (hbalance : ∀ σ, (handOvers σ).core t o.core + postWeight (fun _ => Message.hands σ) o.sent =
      (handOvers σ).core t c) : Handed t m c l l o where
  ok := hok
  sent := hsent
  starts := fun st hst => Or.inl (hstarts ▸ hst)
  list := hq ▸ hlist
  queue := Or.inl ⟨hphase, hphase', hq, rfl⟩
  balance σ := by rw [hq, hstolen, started_congr hstarts, hbalance σ]

/-- A step with an access to the ready queue. -/
theorem Handed.inside {m' : Shared N} {c' : Core N} {l' : List Nat} (hok : WorkOk t c')
    (hlist : ListOk m'.readyQ l') (hstarts : m'.starts = m.starts) (hstolen : m'.stolen = m.stolen)
    (haccess : c.phase ≠ .out ∨ c.begins = true) (hvalid : Phase.Valid m'.readyQ l' c'.phase)
    (hbalance : ∀ σ, (handOvers σ).core t c' + queued σ m'.readyQ l' =
      (handOvers σ).core t c + queued σ m.readyQ l) : Handed t m c l l' (.quiet m' c') where
  ok := hok
  sent := named_none
  starts := fun st hst => Or.inl (hstarts ▸ hst)
  list := hlist
  queue := Or.inr ⟨haccess, hvalid⟩
  balance σ := by
    show (handOvers σ).core t c' + 0 + queued σ m'.readyQ l' + started σ m' + _ =
      _ + _ + _ + m'.stolen.count σ
    rw [started_congr hstarts, hstolen, Nat.add_zero, hbalance σ]

/-! ### Steps below the handlers -/

/-- A thread that goes on below its handlers without an access to the ready queue. -/
theorem Handed.base {o : Outcome N} (hlist : ListOk m.readyQ l) (hok : WorkOk t c)
    (hacts : c.acts = []) (hout : ¬c.base.Dequeues) (hmsgs : o.core.msgBufs = c.msgBufs)
    (hacts' : o.core.acts = c.acts ∨ o.core.acts = .poll :: c.acts) (hin : o.core.base.InOrder)
    (hout' : ¬o.core.base.Dequeues)
    (hsent : ∀ x msg, o.sent = some (x, msg) → named.msg x msg)
    (hq : o.shared.readyQ = m.readyQ) (hstarts : o.shared.starts = m.starts)
    (hstolen : o.shared.stolen = m.stolen)
    (hhands : ∀ σ, o.core.base.hands σ + postWeight (fun _ => Message.hands σ) o.sent =
      c.base.hands σ) : Handed t m c l l o := by
  have hfork : ∀ msg pc, Act.fork msg pc ∉ o.core.acts := by
    intro msg pc hmem
    rcases hacts' with hacts' | hacts' <;> rw [hacts', hacts] at hmem
    · cases hmem
    · cases List.mem_singleton.mp hmem
  refine Handed.plain hlist ⟨hok.msgs.of_poll hmsgs hacts', hin, fun h => absurd h hout', ?_⟩
    hsent hq hstarts hstolen (Core.phase_eq_out hout' hfork) (Core.phase_eq_out hout ?_) fun σ => ?_
  · exact fun msg pc hmem => hfork msg pc (List.mem_of_mem_tail hmem)
  · intro msg pc hmem
    rw [hacts] at hmem
    cases hmem
  -- only what the code below the handlers has at hand can change
  · have hpoll : (handOvers σ).core t o.core = (handOvers σ).core t (c.goto o.core.base) :=
      (handOvers σ).core_of_poll t hmsgs hacts' rfl
    have hmove := (handOvers σ).core_goto t c o.core.base
    have hbase : o.core.base.hands σ + _ = c.base.hands σ := hhands σ
    have hold : (handOvers σ).base t c.base = c.base.hands σ := rfl
    have hnew : (handOvers σ).base t o.core.base = o.core.base.hands σ := rfl
    omega

/-- In `fib`, no other thread can disturb. -/
theorem Base.Working.inOrder {base : Base N} (h : base.Working) :
    base.InOrder ∧ ¬base.Dequeues := by
  cases base with
  | fib stub F pc => exact ⟨trivial, id⟩
  | getMsg use pc => cases use <;> first | exact ⟨trivial, id⟩ | cases h
  | suspend pc => cases pc <;> first | exact ⟨trivial, id⟩ | cases h
  | returned => exact ⟨trivial, id⟩

/-- `fib` hands nothing over. -/
theorem Handed.fib {o : Outcome N} {stub : Stub N} {F : FooPtr} {pc : FibPC}
    (hlist : ListOk m.readyQ l) (hok : WorkOk t c) (hacts : c.acts = [])
    (hworking : c.base.Working) (h : FibEffect stub F pc m c o) : Handed t m c l l o := by
  obtain ⟨hin, hout⟩ := h.base.working.inOrder
  refine Handed.base hlist hok hacts hworking.inOrder.2 h.msgBufs h.acts hin hout ?_ h.readyQ
    h.starts h.stolen fun σ => ?_
  · intro x msg hsent
    rw [h.sent] at hsent
    cases hsent
  · rw [h.base.working.hands, hworking.hands, h.sent]
    rfl

/-- `myeui` at the end of a step of `getMsg`. -/
theorem Handed.eui {c' : Core N} (hlist : ListOk m.readyQ l) (hok : WorkOk t c)
    (hacts : c.acts = []) (hout : ¬c.base.Dequeues) (hmsgs : c'.msgBufs = c.msgBufs)
    (hacts' : c'.acts = c.acts) (hin : c'.base.InOrder) (hout' : ¬c'.base.Dequeues)
    (hhands : ∀ σ, c'.base.hands σ = c.base.hands σ) : Handed t m c l l (.eui m c') := by
  obtain ⟨acts, mask, aborted, heuiActs, heui⟩ := Outcome.eui_cases m c'
  rw [heui]
  rw [hacts'] at heuiActs
  exact Handed.base hlist hok hacts hout hmsgs heuiActs hin hout' named_none rfl rfl rfl hhands

/-- A thread that goes on below its handlers with an access to the ready queue. -/
theorem Handed.access {base : Base N} {m' : Shared N} {l' : List Nat} (hok : WorkOk t c)
    (hacts : c.acts = []) (hin : base.InOrder) (hlist' : ListOk m'.readyQ l')
    (hstarts : m'.starts = m.starts) (hstolen : m'.stolen = m.stolen)
    (haccess : c.phase ≠ .out ∨ c.begins = true)
    (hvalid : Phase.Valid m'.readyQ l' (c.goto base).phase)
    (hbalance : ∀ σ, base.hands σ + queued σ m'.readyQ l' =
      c.base.hands σ + queued σ m.readyQ l) :
    Handed t m c l l' (.quiet m' (c.goto base)) := by
  refine .inside ⟨⟨hok.msgs.msgs, hok.msgs.acts⟩, hin, fun _ => hacts, hok.tail⟩ hlist' hstarts
    hstolen haccess hvalid fun σ => ?_
  have hmove : (handOvers σ).core t (c.goto base) + c.base.hands σ =
      (handOvers σ).core t c + base.hands σ := (handOvers σ).core_goto t c base
  have := hbalance σ
  omega

/-- The phase of a thread without handlers. -/
theorem Core.phase_goto (hacts : c.acts = []) (base : Base N) :
    (c.goto base).phase = Core.phase { c with acts := [], base := base } := by
  have hgoto : c.goto base = { c with acts := [], base := base } := by
    rw [← hacts]
    rfl
  rw [hgoto]

/-! ### Steps of the handlers -/

/-- The handlers below the topmost one are not in `forkHandler`, and `suspend` is not inside
`deqReadyQ`. -/
theorem WorkOk.below {act : Act N} {rest : List (Act N)} (h : WorkOk t c)
    (hacts : c.acts = act :: rest) :
    ¬c.base.Dequeues ∧ ∀ msg pc, Act.fork msg pc ∉ rest := by
  have htail := h.tail
  refine ⟨fun hdeq => ?_, ?_⟩
  · have hnil := h.deq hdeq
    rw [hacts] at hnil
    cases hnil
  · rw [hacts] at htail
    exact htail

/-- The topmost handler is not `forkHandler` and gives way to others that are not. -/
theorem WorkOk.handle (c' : Core N) {act : Act N} {p rest : List (Act N)} (h : WorkOk t c)
    (hacts : c.acts = act :: rest)
    (hacts' : c'.acts = p ++ rest ∨ c'.acts = .poll :: (p ++ rest))
    (hp : ∀ a ∈ p, named.act t a) (hfork : ∀ msg pc, Act.fork msg pc ∉ p)
    (hmsgs : ∀ msg ∈ c'.msgBufs, msg ∈ c.msgBufs) (hbase : c'.base = c.base) :
    WorkOk t c' ∧ c'.phase = .out := by
  obtain ⟨hdeq, hrest⟩ := h.below hacts
  have hnone : ∀ msg pc, Act.fork msg pc ∉ c'.acts := by
    intro msg pc hmem
    have hmem' : Act.fork msg pc ∈ p ++ rest := by
      rcases hacts' with hacts' | hacts' <;> rw [hacts'] at hmem
      · exact hmem
      · exact (List.mem_cons.mp hmem).resolve_left nofun
    exact (List.mem_append.mp hmem').elim (hfork msg pc) (hrest msg pc)
  -- `myeui` may add a poll, which has no seed
  have hmid : named.At t { c' with acts := p ++ rest } :=
    h.msgs.handle hacts rfl hp hmsgs
  refine ⟨⟨hmid.of_poll rfl hacts', ?_, ?_, ?_⟩, Core.phase_eq_out (hbase ▸ hdeq) hnone⟩
  · rw [hbase]
    exact h.base
  · rw [hbase]
    exact fun h => absurd h hdeq
  · exact fun msg pc hmem => hnone msg pc (List.mem_of_mem_tail hmem)

/-- A thread whose topmost handler is not `forkHandler` is outside the ready queue. -/
theorem WorkOk.phase_eq_out {act : Act N} {rest : List (Act N)} (h : WorkOk t c)
    (hacts : c.acts = act :: rest) (hact : act.isFork = false) : c.phase = .out := by
  obtain ⟨hdeq, hrest⟩ := h.below hacts
  refine Core.phase_eq_out hdeq fun msg pc hmem => ?_
  rw [hacts] at hmem
  exact (List.mem_cons.mp hmem).elim (fun he => Act.ne_fork hact msg pc he.symm)
    (hrest msg pc)

section
variable {act : Act N} {p rest : List (Act N)} (hlist : ListOk m.readyQ l) (hok : WorkOk t c)
  (hacts : c.acts = act :: rest) (hact : act.isFork = false)
include hlist hok hacts hact

/-- A handler goes on without the ready queue, with the same seed or without any. -/
theorem Handed.handle {c' : Core N} (hacts' : c'.acts = p ++ rest)
    (hp : ∀ a ∈ p, named.act t a) (hfork : ∀ msg pc, Act.fork msg pc ∉ p)
    (hmsgs : c'.msgBufs = c.msgBufs) (hbase : c'.base = c.base)
    (hhands : ∀ σ, (p.map (Act.hands σ)).sum = act.hands σ) :
    Handed t m c l l (.quiet m c') := by
  obtain ⟨hok', hphase⟩ := hok.handle c' hacts (Or.inl hacts') hp hfork
    (fun msg hmsg => hmsgs ▸ hmsg) hbase
  refine Handed.plain hlist hok' named_none rfl rfl rfl hphase (hok.phase_eq_out hacts hact)
    fun σ => ?_
  have hmove := (handOvers σ).core_handle t c' hacts hacts' hmsgs hbase
  have hsame : (p.map (handOvers σ).act).sum = (handOvers σ).act act := hhands σ
  show (handOvers σ).core t c' + 0 = _
  omega

/-- A handler without a seed returns. -/
theorem Handed.returns {c' : Core N} (hacts' : c'.acts = rest) (hmsgs : c'.msgBufs = c.msgBufs)
    (hbase : c'.base = c.base) (hhands : ∀ σ, act.hands σ = 0) :
    Handed t m c l l (.quiet m c') :=
  Handed.handle (p := []) hlist hok hacts hact hacts' (List.forall_mem_nil _)
    (fun _ _ => List.not_mem_nil) hmsgs hbase fun σ => (hhands σ).symm

/-- A handler goes on with `myeui` at the end. `stolen` are the seeds that the step unlinks. -/
theorem Handed.handleEui {m' : Shared N} {c' : Core N} (hacts' : c'.acts = p ++ rest)
    (hp : ∀ a ∈ p, named.act t a) (hfork : ∀ msg pc, Act.fork msg pc ∉ p)
    (hmsgs : c'.msgBufs = c.msgBufs) (hbase : c'.base = c.base)
    (hq : m'.readyQ = m.readyQ) (hstarts : m'.starts = m.starts)
    (hhands : ∀ σ, (p.map (Act.hands σ)).sum + m.stolen.count σ =
      act.hands σ + m'.stolen.count σ) :
    Handed t m c l l (.eui m' c') := by
  have hcore : ∀ σ, (handOvers σ).core t (Outcome.eui m' c').core = (handOvers σ).core t c' :=
    fun σ => (handOvers σ).core_eui t m' c'
  obtain ⟨acts, mask, aborted, heuiActs, heui⟩ := Outcome.eui_cases m' c'
  rw [heui] at hcore ⊢
  rw [hacts'] at heuiActs
  obtain ⟨hok', hphase⟩ := hok.handle { c' with acts, mask } hacts
    heuiActs hp hfork (fun msg hmsg => hmsgs ▸ hmsg) hbase
  refine ⟨hok', named_none, fun st hst => Or.inl (hstarts ▸ hst), hq ▸ hlist,
    Or.inl ⟨hphase, hok.phase_eq_out hacts hact, hq, rfl⟩, fun σ => ?_⟩
  have hmove := (handOvers σ).core_handle t c' hacts hacts' hmsgs hbase
  have hsame : (p.map (handOvers σ).act).sum + _ = (handOvers σ).act act + _ := hhands σ
  rw [hcore]
  show _ + 0 + queued σ m'.readyQ l + started σ m' + _ = _ + _ + _ + m'.stolen.count σ
  rw [hq, started_congr hstarts]
  omega

/-- A handler sends its message and returns. -/
theorem Handed.reply {x : Fin N} {reply : Message N} (hreply : named.msg x reply)
    (hhands : ∀ σ, reply.hands σ = act.hands σ) :
    Handed t m c l l ⟨c.setActs rest, m, some (x, reply)⟩ := by
  obtain ⟨hok', hphase⟩ := hok.handle (c.setActs rest) (p := []) hacts (Or.inl rfl)
    (List.forall_mem_nil _) (fun _ _ => List.not_mem_nil) (fun msg hmsg => hmsg) rfl
  refine Handed.plain hlist hok' ?_ rfl rfl rfl hphase (hok.phase_eq_out hacts hact) fun σ => ?_
  · rintro x' msg' h
    cases h
    exact hreply
  · have hmove := (handOvers σ).core_handle (l := []) t (c.setActs rest) hacts rfl rfl rfl
    have hsame : (handOvers σ).act act = reply.hands σ := (hhands σ).symm
    rw [hsame] at hmove
    exact hmove

end

/-- `stealHandler` takes a seed from its own queue and sends it. -/
theorem Handed.steal {rest : List (Act N)} {pc : StealPC N} (hlist : ListOk m.readyQ l)
    (hok : WorkOk t c) (hacts : c.acts = .steal msg pc :: rest) (hstack : c.overruns = false) :
    Handed t m c l l (stealStep m t c rest msg pc) := by
  cases pc with
  | enter =>
    simp only [stealStep]
    split
    · exact Handed.handleEui (p := [.steal msg .fail]) hlist hok hacts rfl rfl
        (List.forall_mem_singleton.mpr trivial) (by simp) rfl rfl rfl rfl fun σ => rfl
    · rename_i seed seedQ hqueue
      have hfree : ¬c.onSystemStack rest = true := by
        unfold Core.overruns at hstack
        rw [hacts, hqueue] at hstack
        simpa using hstack
      rw [if_neg hfree]
      refine Handed.handleEui (p := [.steal _ (.send msg.sender)]) hlist hok hacts rfl rfl
        (List.forall_mem_singleton.mpr ⟨rfl, rfl⟩) (by simp) rfl rfl rfl rfl fun σ => ?_
      -- The seed is unlinked, and the handler has it.
      have hcount : List.count σ (m.stolen ++ [seed]) =
          m.stolen.count σ + mark σ (some seed) := by
        rw [List.count_append, List.count_singleton]
        unfold mark
        simp
      show mark σ (some seed) + 0 + _ = 0 + List.count σ (m.stolen ++ [seed])
      omega
  | fail => exact Handed.reply hlist hok hacts rfl nofun fun σ => rfl
  | send dest =>
    obtain ⟨hcallback, hnamed⟩ := hok.msgs.head hacts
    refine Handed.reply hlist hok hacts rfl (fun _ => hnamed) fun σ => ?_
    exact if_pos hcallback

/-- `forkHandler` goes on inside `enqReadyQ`. -/
theorem Handed.enq {rest : List (Act N)} {pc pc' : ForkPC} {m' : Shared N} {l' : List Nat}
    (hok : WorkOk t c) (hacts : c.acts = .fork msg pc :: rest) (hlist' : ListOk m'.readyQ l')
    (hstarts : m'.starts = m.starts) (hstolen : m'.stolen = m.stolen)
    (haccess : c.phase ≠ .out ∨ c.begins = true)
    (hvalid : Phase.Valid m'.readyQ l' (c.setActs (.fork msg pc' :: rest)).phase)
    (hbalance : ∀ σ, Act.hands σ (.fork msg pc' : Act N) + queued σ m'.readyQ l' =
      Act.hands σ (.fork msg pc : Act N) + queued σ m.readyQ l) :
    Handed t m c l l' (.quiet m' (c.setActs (.fork msg pc' :: rest))) := by
  obtain ⟨hdeq, hrest⟩ := hok.below hacts
  have hnamed : msg.Named := hok.msgs.head hacts
  refine .inside ⟨?_, hok.base, fun h => absurd h hdeq, hrest⟩ hlist' hstarts hstolen haccess hvalid
    fun σ => ?_
  · exact hok.msgs.handle (l := [.fork msg pc']) hacts rfl (List.forall_mem_singleton.mpr hnamed)
      fun msg hmsg => hmsg
  · have hmove : (handOvers σ).core t (c.setActs (.fork msg pc' :: rest)) +
        Act.hands σ (.fork msg pc) = (handOvers σ).core t c + (Act.hands σ (.fork msg pc') + 0) :=
      (handOvers σ).core_handle (l := [.fork msg pc']) t _ hacts rfl rfl rfl
    have := hbalance σ
    omega

/-- `forkHandler` brings the stolen seed to the ready queue. -/
theorem Handed.fork {rest : List (Act N)} {pc : ForkPC} (hlist : ListOk m.readyQ l)
    (hok : WorkOk t c) (hacts : c.acts = .fork msg pc :: rest) (hpc : pc ≠ .resume)
    (hbegin : c.begins = true → Phase.Valid m.readyQ l .out)
    (hphase : c.phase ≠ .out → Phase.Valid m.readyQ l c.phase) :
    ∃ l', Handed t m c l l' (forkStep m t c rest msg pc) := by
  have hnamed : msg.context.Named := Message.Named.context (hok.msgs.head hacts)
  -- inside `enqReadyQ` the queue is what the place of the thread says
  have hinside : ∀ p, c.phase = p → p ≠ .out → c.phase ≠ .out ∧ p.Valid m.readyQ l := by
    rintro p rfl hne
    exact ⟨hne, hphase hne⟩
  cases pc with
  | enter =>
    have hbegins : c.begins = true := by
      unfold Core.begins
      rw [hacts]
    obtain ⟨hspells, hfresh, halloc, hsame⟩ :=
      newReady_valid (e := msg.context) (hbegin hbegins) hlist.allocated
    have hlist' : ListOk (m.newReady msg.context).readyQ l :=
      ⟨halloc, fun i hi => by rw [hsame i hi]; exact hlist.named i hi⟩
    have hqueued : ∀ σ, queued σ (m.newReady msg.context).readyQ l = queued σ m.readyQ l :=
      fun σ => queued_congr fun i hi => by rw [hsame i hi]
    simp only [forkStep]
    split
    · rename_i back hback
      exact ⟨l, Handed.enq hok hacts hlist' rfl rfl (Or.inr hbegins)
        ⟨hspells, hfresh, fun h => nomatch hback.symm.trans h⟩
        fun σ => congrArg (_ + ·) (hqueued σ)⟩
    · rename_i hback
      exact ⟨l, Handed.enq hok hacts hlist' rfl rfl (Or.inr hbegins) ⟨hspells, hfresh, hback⟩
        fun σ => congrArg (_ + ·) (hqueued σ)⟩
  | enqLink ready =>
    obtain ⟨hne, hvalid⟩ :=
      hinside (.enqLink ready msg.context) (by unfold Core.phase; rw [hacts]) nofun
    simp only [forkStep]
    split
    · rename_i back hback
      obtain ⟨hvalid', halloc⟩ := setNext_valid hvalid hlist.allocated hback
      have hready : ((m.setNext back (some ready)).readyQ.threads ready).sp = msg.context := by
        rw [setNext_sp, hvalid.2.1.2.2]
      refine ⟨l ++ [ready], Handed.enq hok hacts ⟨halloc, fun i hi => ?_⟩ rfl rfl
        (Or.inl hne) hvalid' fun σ => ?_⟩
      · rcases List.mem_append.mp hi with hi | hi
        · rw [setNext_sp]
          exact hlist.named i hi
        · rw [List.mem_singleton.mp hi, hready]
          exact hnamed
      · -- The node enters the queue, and the handler is done with the seed.
        rw [queued_append, hready, queued_congr fun i _ => setNext_sp m back (some ready) i]
        show 0 + (_ + mark σ msg.seed) = mark σ msg.seed + _
        omega
    · rename_i hback
      exact absurd hback hvalid.2.2
  | enqFront ready =>
    obtain ⟨hne, hvalid⟩ :=
      hinside (.enqFront ready msg.context) (by unfold Core.phase; rw [hacts]) nofun
    obtain ⟨rfl, hvalid', halloc⟩ := enqFront_valid hvalid
    have hready : (m.readyQ.threads ready).sp = msg.context := by rw [hvalid.2.1.2.2]
    refine ⟨[ready], Handed.enq hok hacts ⟨halloc, fun i hi => ?_⟩ rfl rfl
      (Or.inl hne) hvalid' fun σ => ?_⟩
    · rw [List.mem_singleton.mp hi]
      exact hready ▸ hnamed
    · show 0 + (mark σ (m.readyQ.threads ready).sp.seed + 0) = mark σ msg.seed + 0
      rw [hready, Nat.zero_add]
      rfl
  | enqBack ready =>
    obtain ⟨hne, hvalid⟩ := hinside (.enqBack ready) (by unfold Core.phase; rw [hacts]) nofun
    exact ⟨l, Handed.enq hok hacts ⟨hlist.allocated, hlist.named⟩ rfl rfl
      (Or.inl hne) (setBack_valid hvalid) fun σ => rfl⟩
  | resume => exact absurd rfl hpc

/-- The handler of a message takes over its seed. -/
theorem handlerOf_named {callback : Callback} (h : named.msg u msg)
    (hcallback : msg.callback = some callback) :
    named.act u (handlerOf msg callback) ∧
      ∀ σ, (handlerOf msg callback).hands σ = msg.hands σ := by
  cases callback with
  | forkHandler => exact ⟨h hcallback, fun σ => (if_pos hcallback).symm⟩
  | stealHandler | noWorkHandler | returnInletHandler =>
    exact ⟨trivial, fun σ => (if_neg (by rw [hcallback]; exact nofun)).symm⟩

/-- `i_handler` calls the handler of the first message. -/
theorem Handed.call {rest : List (Act N)} {msgBufs : List (Message N)} {callback : Callback}
    (hlist : ListOk m.readyQ l) (hok : WorkOk t c) (hacts : c.acts = .iHandler :: rest)
    (hbufs : c.msgBufs = msg :: msgBufs) (hcallback : msg.callback = some callback) :
    Handed t m c l l (.quiet m
      { c with msgBufs, acts := handlerOf msg callback :: .iHandler :: rest }) := by
  obtain ⟨hact, hhands⟩ := handlerOf_named
    (hok.msgs.msgs msg (by rw [hbufs]; exact List.mem_cons_self)) hcallback
  obtain ⟨hdeq, hrest⟩ := hok.below hacts
  have htail : ∀ msg pc, Act.fork msg pc ∉ (Act.iHandler :: rest : List (Act N)) :=
    fun msg pc hmem => (List.mem_cons.mp hmem).elim nofun (hrest msg pc)
  refine Handed.plain hlist ⟨?_, hok.base, fun h => absurd h hdeq, htail⟩ named_none rfl rfl rfl
    ?_ (hok.phase_eq_out hacts rfl) fun σ => ?_
  · refine hok.msgs.handle (l := [handlerOf msg callback, .iHandler]) hacts rfl ?_ ?_
    · exact List.forall_mem_cons.mpr ⟨hact, List.forall_mem_singleton.mpr trivial⟩
    · intro msg' hmsg'
      rw [hbufs]
      exact List.mem_cons_of_mem _ hmsg'
  · cases callback <;> rfl
  · exact (handOvers σ).core_call t hacts hbufs (hhands σ)

/-- Every step of a poll or a handler. -/
theorem Handed.act {act : Act N} {rest : List (Act N)} (hlist : ListOk m.readyQ l)
    (hok : WorkOk t c) (hacts : c.acts = act :: rest) (hresume : c.fallsThrough = false)
    (hstack : c.overruns = false)
    (hbegin : c.begins = true → Phase.Valid m.readyQ l .out)
    (hphase : c.phase ≠ .out → Phase.Valid m.readyQ l c.phase) :
    ∃ l', Handed t m c l l' (actStep m t c rest act) := by
  cases act with
  | poll =>
    rw [actStep_poll]
    split
    · exact ⟨l, Handed.returns hlist hok hacts rfl rfl rfl rfl fun σ => rfl⟩
    · exact ⟨l, Handed.handle (p := [.iHandler]) hlist hok hacts rfl rfl
        (List.forall_mem_singleton.mpr trivial) (by simp) rfl rfl fun σ => rfl⟩
  | iHandler =>
    rw [actStep_iHandler]
    split
    · exact ⟨l, Handed.returns hlist hok hacts rfl rfl rfl rfl fun σ => rfl⟩
    · split
      · exact ⟨l, Handed.call hlist hok hacts ‹_› ‹_›⟩
      · exact ⟨l, Handed.plain hlist hok named_none rfl rfl rfl (hok.phase_eq_out hacts rfl)
          (hok.phase_eq_out hacts rfl) fun σ => rfl⟩
  | steal msg pc => exact ⟨l, Handed.steal hlist hok hacts hstack⟩
  | noWork msg freed =>
    cases freed with
    | true =>
      exact ⟨l, Handed.returns hlist hok hacts rfl rfl rfl rfl fun σ => rfl⟩
    | false =>
      exact ⟨l, Handed.handleEui (p := [.noWork msg true]) hlist hok hacts rfl rfl
        (List.forall_mem_singleton.mpr trivial) (by simp) rfl rfl rfl rfl fun σ => rfl⟩
  | fork msg pc =>
    -- the thread does not stand at `Resume`, so a jump there is excluded
    refine Handed.fork hlist hok hacts ?_ hbegin hphase
    rintro rfl
    unfold Core.fallsThrough at hresume
    rw [hacts] at hresume
    cases hresume
  | returnInlet msg =>
    exact ⟨l, Handed.returns hlist hok hacts rfl rfl rfl rfl fun σ => rfl⟩

/-! ### `getMsg` and `suspend` -/

variable [NeZero N] {s : State N}

/-- `getMsg` hands nothing over. -/
theorem Handed.getMsg {o : Outcome N} {use : Use N} {pc : GetMsgPC N}
    (hlist : ListOk m.readyQ l) (hok : WorkOk t c) (hacts : c.acts = [])
    (hbase : c.base = .getMsg use pc) (h : getMsgStep m t c use pc = some o) :
    Handed t m c l l o := by
  have hin := hok.base
  have hout : ¬c.base.Dequeues := by
    rw [hbase]
    exact id
  have hzero : ∀ σ, c.base.hands σ = 0 := by
    rw [hbase]
    exact fun σ => rfl
  rw [hbase] at hin
  cases pc with
  | test =>
    simp only [getMsgStep] at h
    split at h <;> cases h
    · exact Handed.eui hlist hok hacts hout rfl rfl (by cases use <;> exact hin) id
        fun σ => (hzero σ).symm
    · exact Handed.base hlist hok hacts hout rfl (Or.inl rfl) (by cases use <;> exact hin) id
        named_none rfl rfl rfl fun σ => (hzero σ).symm
  | take =>
    simp only [getMsgStep] at h
    split at h <;> cases h
    · exact Handed.base hlist hok hacts hout rfl (Or.inl rfl) hok.base hout named_none rfl rfl rfl
        fun σ => rfl
    · exact Handed.eui hlist hok hacts hout rfl rfl (by cases use <;> exact hin) id
        fun σ => (hzero σ).symm
  | fill msg =>
    cases h
    cases use with
    | own => exact absurd hin id
    | steal i x | finish parentSP parentProc =>
      refine Handed.base hlist hok hacts hout rfl (Or.inl rfl) trivial id ?_ rfl rfl rfl
        fun σ => (hzero σ).symm
      rintro x' msg' hsent
      cases hsent
      exact nofun

/-- The step of `t` is none of those that double or lose a stolen seed:

* `t` does not run on from `enqReadyQ` into `Resume`;
* the own seed queue of `t` is empty when `suspend` looks into it;
* `t` begins `enqReadyQ`, or reads the front of the ready queue in `suspend`, only when no other
  thread is inside `enqReadyQ` or between that read and the end of `deqReadyQ`;
* `t` does not handle a request for one of its seeds while it is in `suspend` or inside another
  `remoteStackletFork`. -/
structure Orderly (s : State N) (t : Fin N) : Prop where
  resume : (s.cores t).fallsThrough = false
  own : (s.cores t).testsOwn = true → (s.cores t).seedQ = []
  ready : (s.cores t).begins = true → ∀ u, u ≠ t → (s.cores u).phase = .out
  stack : (s.cores t).overruns = false

instance (s : State N) (t : Fin N) : Decidable (Orderly s t) :=
  decidable_of_iff ((s.cores t).fallsThrough = false ∧
      ((s.cores t).testsOwn = true → (s.cores t).seedQ = []) ∧
      ((s.cores t).begins = true → ∀ u, u ≠ t → (s.cores u).phase = .out) ∧
      (s.cores t).overruns = false)
    ⟨fun h => ⟨h.1, h.2.1, h.2.2.1, h.2.2.2⟩, fun h => ⟨h.resume, h.own, h.ready, h.stack⟩⟩

/-- The steps of `deqReadyQ`, which `suspend` calls. -/
theorem Handed.deq {o : Outcome N} {pc : SuspendPC N} (hlist : ListOk s.shared.readyQ l)
    (hok : WorkOk t (s.cores t)) (hacts : (s.cores t).acts = [])
    (hbase : (s.cores t).base = .suspend pc) (hdeq : (s.cores t).base.Dequeues)
    (hphase : (s.cores t).phase ≠ .out → Phase.Valid s.shared.readyQ l (s.cores t).phase)
    (h : suspendStep s t (s.cores t) pc = some o) :
    ∃ l', Handed t s.shared (s.cores t) l l' o := by
  have hin := hok.base
  rw [hbase] at hin hdeq
  unfold Core.phase at hphase
  rw [hacts, hbase] at hphase
  have hne : (s.cores t).phase ≠ .out := by
    unfold Core.phase
    rw [hacts, hbase]
    cases pc <;> first | exact hdeq.elim | simp
  cases pc with
  | deqFront e =>
    have hvalid := hphase nofun
    simp only [suspendStep] at h
    split at h <;> cases h
    · rename_i hfront
      obtain ⟨_, i, hi, _⟩ := hvalid
      rw [hfront] at hi
      cases hi
    · rename_i i hfront
      refine ⟨l, Handed.access hok hacts hin hlist rfl rfl (Or.inl hne) ?_
        fun σ => by rw [hbase]; rfl⟩
      rw [Core.phase_goto hacts]
      exact deqFront_valid hvalid hfront
  | deqNext e i =>
    have hvalid := hphase nofun
    cases h
    obtain ⟨l', rfl, hvalid'⟩ := setFront_valid hvalid
    refine ⟨l', Handed.access hok hacts hin ⟨?_, ?_⟩ rfl rfl (Or.inl hne) ?_ fun σ => ?_⟩
    · exact fun j hj => hlist.allocated j (List.mem_cons_of_mem _ hj)
    · exact fun j hj => hlist.named j (List.mem_cons_of_mem _ hj)
    · rw [Core.phase_goto hacts]
      exact hvalid'
    · -- The node leaves the queue, and the thread has its context.
      rw [queued_cons, hvalid.2.2, hbase]
      exact (Nat.zero_add _).symm
  | deqBack e i =>
    have hvalid' := deqBack_valid (hphase nofun)
    simp only [suspendStep] at h
    split at h
    all_goals
      rename_i hnext
      cases h
      refine ⟨l, Handed.access hok hacts hin ⟨hlist.allocated, hlist.named⟩ rfl rfl
        (Or.inl hne) ?_ fun σ => by rw [hbase]; rfl⟩
      rw [Core.phase_goto hacts]
    · rw [if_pos hnext] at hvalid'
      exact hvalid'
    · rw [if_neg hnext] at hvalid'
      exact hvalid'
  | _ => exact hdeq.elim

omit [NeZero N] in
/-- The context that was taken off the ready queue is started. -/
theorem Handed.jump {e : Context N} (hlist : ListOk m.readyQ l) (hok : WorkOk t c)
    (hacts : c.acts = []) (hbase : c.base = .suspend (.jump e)) :
    Handed t m c l l (startContext m t c e) := by
  have hin := hok.base
  rw [hbase] at hin
  refine ⟨⟨⟨hok.msgs.msgs, List.forall_mem_nil _⟩, trivial, fun _ => rfl,
    fun _ _ => List.not_mem_nil⟩, named_none, ?_, hlist, Or.inl ⟨rfl, ?_, rfl, rfl⟩, fun σ => ?_⟩
  · intro st hst
    rcases List.mem_append.mp hst with hst | hst
    · exact Or.inl hst
    · rw [List.mem_singleton.mp hst]
      exact Or.inr hin
  · unfold Core.phase
    rw [hacts, hbase]
  · have hstart : started σ (m.start t e) = started σ m + mark σ e.seed := by
      show ((m.starts ++ [_]).map _).sum = _
      rw [List.map_append, List.sum_append, List.map_singleton, List.sum_singleton]
      rfl
    have hcore : (handOvers σ).core t c =
        (handOvers σ).core t (startContext m t c e).core + mark σ e.seed := by
      unfold Weights.core
      rw [hacts, hbase]
      rfl
    show (handOvers σ).core t (startContext m t c e).core + 0 + queued σ m.readyQ l +
      started σ (m.start t e) + m.stolen.count σ = _ + _ + _ + m.stolen.count σ
    omega

/-- A step of `suspend`. -/
theorem Handed.suspend {o : Outcome N} {pc : SuspendPC N} (hlist : ListOk s.shared.readyQ l)
    (hok : WorkOk t (s.cores t)) (hacts : (s.cores t).acts = [])
    (hbase : (s.cores t).base = .suspend pc) (hcond : Orderly s t)
    (hbegin : (s.cores t).begins = true → Phase.Valid s.shared.readyQ l .out)
    (hphase : (s.cores t).phase ≠ .out → Phase.Valid s.shared.readyQ l (s.cores t).phase)
    (h : suspendStep s t (s.cores t) pc = some o) :
    ∃ l', Handed t s.shared (s.cores t) l l' o := by
  have hin := hok.base
  rw [hbase] at hin
  -- a step of the loop that changes neither the queue nor what is in hand
  have hplain : ∀ pc' : SuspendPC N, ¬Base.Dequeues (.suspend pc : Base N) →
      ¬Base.Dequeues (.suspend pc' : Base N) → Base.InOrder (.suspend pc' : Base N) →
      (∀ σ, Base.hands σ (.suspend pc' : Base N) = Base.hands σ (.suspend pc : Base N)) →
      Handed t s.shared (s.cores t) l l (.quiet s.shared ((s.cores t).goto (.suspend pc'))) := by
    intro pc' hout hout' hin' hhands
    refine Handed.base hlist hok hacts (by rw [hbase]; exact hout) rfl (Or.inl rfl) hin' hout'
      named_none rfl rfl rfl fun σ => ?_
    rw [hbase]
    exact hhands σ
  cases pc with
  | poll =>
    cases h
    refine ⟨l, Handed.base hlist hok hacts (by rw [hbase]; exact id) rfl (Or.inr rfl) trivial id
      named_none rfl rfl rfl fun σ => ?_⟩
    rw [hbase]
    rfl
  | ownTest =>
    -- in an orderly run the own queue is empty here
    have hempty := hcond.own (by unfold Core.testsOwn; rw [hacts, hbase])
    simp only [suspendStep, if_pos hempty] at h
    cases h
    exact ⟨l, hplain .ready id id trivial fun σ => rfl⟩
  | ownTake | ownEui found => exact absurd hin id
  | ready =>
    have hbegins : (s.cores t).begins = true := by
      unfold Core.begins
      rw [hacts, hbase]
    simp only [suspendStep] at h
    split at h <;> cases h
    · exact ⟨l, hplain .stealing id id trivial fun σ => rfl⟩
    · rename_i i hfront
      have hspells : Spells s.shared.readyQ s.shared.readyQ.back l := hbegin hbegins
      have hmem : i ∈ l := List.mem_of_head? (hspells.front_eq.symm.trans hfront)
      refine ⟨l, Handed.access hok hacts (hlist.named i hmem) hlist rfl rfl (Or.inr hbegins) ?_
        fun σ => by rw [hbase]; rfl⟩
      rw [Core.phase_goto hacts]
      exact ⟨hspells, i, hfront, rfl⟩
  | deqFront e | deqNext e i | deqBack e i =>
    exact Handed.deq hlist hok hacts hbase (by rw [hbase]; trivial) hphase h
  | jump e =>
    cases h
    exact ⟨l, Handed.jump hlist hok hacts hbase⟩
  | stealing =>
    simp only [suspendStep] at h
    split at h <;> cases h
    · exact ⟨l, hplain .poll id id trivial fun σ => rfl⟩
    · exact ⟨l, hplain (.scan 1) id id trivial fun σ => rfl⟩
  | scan i =>
    simp only [suspendStep] at h
    split at h
    · split at h <;> cases h
      · refine ⟨l, Handed.base hlist hok hacts (by rw [hbase]; exact id) rfl (Or.inl rfl) trivial
          id named_none rfl rfl rfl fun σ => ?_⟩
        rw [hbase]
        rfl
      · exact ⟨l, hplain (.scan (i + 1)) id id trivial fun σ => rfl⟩
    · cases h
      exact ⟨l, hplain .poll id id trivial fun σ => rfl⟩

/-! ### Whole runs -/

/-- The nodes `l` are those of the ready queue, and the books are right: every stolen seed is on
its way in one place or has been started once. At most one thread is inside the ready queue. -/
structure Books (s : State N) (l : List Nat) : Prop where
  list : ListOk s.shared.readyQ l
  free : (∀ u, (s.cores u).phase = .out) → Phase.Valid s.shared.readyQ l .out
  inside : ∀ u, (s.cores u).phase ≠ .out →
    Phase.Valid s.shared.readyQ l (s.cores u).phase ∧ ∀ v, v ≠ u → (s.cores v).phase = .out
  count : ∀ σ, (handOvers σ).all s + queued σ s.shared.readyQ l + started σ s.shared =
    s.shared.stolen.count σ

/-- What holds of all threads, messages and seeds. -/
structure WorkInv (s : State N) : Prop where
  cores : ∀ u, WorkOk u (s.cores u)
  starts : ∀ st ∈ s.shared.starts, st.Named
  books : ∃ l, Books s l
  /-- A seed is in one seed queue, or unlinked once. -/
  seeds : ∀ σ, total (fun _ c => c.seedQ.count σ) s.cores + s.shared.released.count σ +
    s.shared.stolen.count σ ≤ if σ.id < s.shared.seeds then 1 else 0

omit [NeZero N] in
/-- The phases after a step of `t`. A message does not change the phase of its target. -/
theorem after_phase (o : Outcome N) (v : Fin N) :
    ((s.after t o).cores v).phase = if v = t then o.core.phase else (s.cores v).phase :=
  after_congr Core.phase (fun _ _ => rfl) s t o v

omit [NeZero N] in
/-- The books are right after a step that hands over what it should. -/
theorem Books.after {o : Outcome N} {l' : List Nat} (h : Books s l)
    (ho : Handed t s.shared (s.cores t) l l' o)
    (hbegin : (s.cores t).begins = true → ∀ u, u ≠ t → (s.cores u).phase = .out) :
    Books (s.after t o) l' where
  list := ho.list
  free := by
    intro hall
    have ht : o.core.phase = .out := by
      have := hall t
      rwa [after_phase, if_pos rfl] at this
    rcases ho.queue with ⟨_, hphase, hq, rfl⟩ | ⟨_, hvalid⟩
    · -- The queue is as before, and no thread was inside.
      show Phase.Valid o.shared.readyQ l' .out
      rw [hq]
      refine h.free fun u => ?_
      by_cases hu : u = t
      · rw [hu, hphase]
      · have := hall u
        rwa [after_phase, if_neg hu] at this
    · rw [ht] at hvalid
      exact hvalid
  inside := by
    intro u hu
    rw [after_phase] at hu ⊢
    rcases ho.queue with ⟨hphase, hphase', hq, rfl⟩ | ⟨haccess, hvalid⟩
    · -- The step of `t` is outside the ready queue, so `u` is another thread.
      have hut : u ≠ t := by
        intro he
        rw [if_pos he] at hu
        exact hu hphase
      rw [if_neg hut] at hu ⊢
      obtain ⟨hvalid, hothers⟩ := h.inside u hu
      refine ⟨?_, fun v hv => ?_⟩
      · show Phase.Valid o.shared.readyQ l' _
        rw [hq]
        exact hvalid
      · rw [after_phase]
        split
        · exact hphase
        · exact hothers v hv
    · -- The step of `t` is inside, so all others are outside.
      have hothers : ∀ v, v ≠ t → (s.cores v).phase = .out :=
        haccess.elim (fun hin => (h.inside t hin).2) hbegin
      have hut : u = t := by
        by_contra hne
        rw [if_neg hne] at hu
        exact hu (hothers u hne)
      subst hut
      rw [if_pos rfl]
      refine ⟨hvalid, fun v hv => ?_⟩
      rw [after_phase, if_neg hv]
      exact hothers v hv
  count σ := by
    have hstep : (handOvers σ).all (s.after t o) + (handOvers σ).core t (s.cores t) =
        (handOvers σ).all s + (handOvers σ).core t o.core +
          postWeight (fun _ => Message.hands σ) o.sent := (handOvers σ).all_after s t o
    have hbalance := ho.balance σ
    have hcount := h.count σ
    show _ + queued σ o.shared.readyQ l' + started σ o.shared = o.shared.stolen.count σ
    omega

/-! ### The seeds -/

/-- How often the seed `σ` is in the queue of a thread or among the unlinked ones. -/
def seedCount (σ : Seed) (m : Shared N) (c : Core N) : Nat :=
  c.seedQ.count σ + m.released.count σ + m.stolen.count σ

/-- A step keeps the seeds, or pushes a new one. -/
inductive SeedsKept (m : Shared N) (c : Core N) (o : Outcome N) : Prop
  | same (seeds : o.shared.seeds = m.seeds)
      (count : ∀ σ, seedCount σ o.shared o.core = seedCount σ m c)
  | new (seed : Seed) (id : seed.id = m.seeds) (seeds : o.shared.seeds = m.seeds + 1)
      (count : ∀ σ, seedCount σ o.shared o.core =
        seedCount σ m c + if seed = σ then 1 else 0)

omit [NeZero N] in
/-- A step that ends with `myeui`. -/
theorem SeedsKept.eui {m' : Shared N} {c' : Core N} (hseeds : m'.seeds = m.seeds)
    (hcount : ∀ σ, seedCount σ m' c' = seedCount σ m c) : SeedsKept m c (.eui m' c') := by
  obtain ⟨acts, mask, aborted, hacts, heui⟩ := Outcome.eui_cases m' c'
  rw [heui]
  exact .same hseeds hcount

omit [NeZero N] in
/-- `fib` pushes and pops its own seeds. -/
theorem FibEffect.seedsKept {o : Outcome N} {stub : Stub N} {F : FooPtr} {pc : FibPC}
    (h : FibEffect stub F pc m c o) : SeedsKept m c o := by
  cases h.seeds with
  | none hqueue hreleased hseeds =>
    refine .same hseeds fun σ => ?_
    unfold seedCount
    rw [hqueue, hreleased, h.stolen]
  | push seed hid _ hqueue hreleased hseeds =>
    refine .new seed hid hseeds fun σ => ?_
    unfold seedCount
    rw [hqueue, hreleased, h.stolen, List.count_append, List.count_singleton]
    simp only [beq_iff_eq]
    omega
  | release seed hmem hqueue hreleased hseeds =>
    refine .same hseeds fun σ => ?_
    unfold seedCount
    rw [hqueue, hreleased, h.stolen, List.count_append, List.count_singleton, List.count_erase]
    simp only [beq_iff_eq]
    split
    · rename_i he
      subst he
      have : 0 < c.seedQ.count seed := List.count_pos_iff.mpr hmem
      omega
    · omega

omit [NeZero N] in
/-- The front seed becomes a stolen one. -/
theorem seedCount_steal {seed : Seed} {seedQ : List Seed} (hqueue : c.seedQ = seed :: seedQ)
    {m' : Shared N} {c' : Core N} (hqueue' : c'.seedQ = seedQ)
    (hreleased : m'.released = m.released) (hstolen : m'.stolen = m.stolen ++ [seed]) (σ : Seed) :
    seedCount σ m' c' = seedCount σ m c := by
  unfold seedCount
  rw [hqueue, hqueue', hreleased, hstolen, List.count_append, List.count_singleton,
    List.count_cons]
  omega

omit [NeZero N] in
/-- A handler unlinks a seed only to steal it. -/
theorem actStep_seedsKept {act : Act N} {rest : List (Act N)} :
    SeedsKept m c (actStep m t c rest act) := by
  cases act with
  | poll => rw [actStep_poll]; split <;> exact .same rfl fun σ => rfl
  | iHandler =>
    rw [actStep_iHandler]
    split
    · exact .same rfl fun σ => rfl
    · split <;> exact .same rfl fun σ => rfl
  | steal msg pc =>
    cases pc with
    | enter =>
      simp only [actStep, stealStep]
      split
      · exact SeedsKept.eui rfl fun σ => rfl
      · rename_i hqueue
        split
        · refine .same rfl fun σ => seedCount_steal hqueue ?_ ?_ ?_ σ <;> rfl
        · refine SeedsKept.eui rfl fun σ => seedCount_steal hqueue ?_ ?_ ?_ σ <;> rfl
    | fail | send dest => exact .same rfl fun σ => rfl
  | noWork msg freed =>
    cases freed with
    | true => exact .same rfl fun σ => rfl
    | false => exact SeedsKept.eui rfl fun σ => rfl
  | fork msg pc =>
    cases pc with
    | enter | enqLink ready => simp only [actStep, forkStep]; split <;> exact .same rfl fun σ => rfl
    | enqFront ready | enqBack ready | resume => exact .same rfl fun σ => rfl
  | returnInlet msg => exact .same rfl fun σ => rfl

/-- `getMsg` does not touch the seeds. -/
theorem getMsgStep_seedsKept {o : Outcome N} {use : Use N} {pc : GetMsgPC N}
    (h : getMsgStep m t c use pc = some o) : SeedsKept m c o := by
  cases pc with
  | test =>
    simp only [getMsgStep] at h
    split at h <;> cases h
    · exact SeedsKept.eui rfl fun σ => rfl
    · exact .same rfl fun σ => rfl
  | take =>
    simp only [getMsgStep] at h
    split at h <;> cases h
    · exact .same rfl fun σ => rfl
    · exact SeedsKept.eui rfl fun σ => rfl
  | fill msg =>
    cases h
    exact .same rfl fun σ => rfl

/-- `suspend` unlinks a seed only to run it. -/
theorem suspendStep_seedsKept {o : Outcome N} {pc : SuspendPC N}
    (h : suspendStep s t (s.cores t) pc = some o) : SeedsKept s.shared (s.cores t) o := by
  cases pc with
  | poll | deqNext e i | jump e => cases h; exact .same rfl fun σ => rfl
  | ownTake =>
    simp only [suspendStep] at h
    split at h <;> cases h
    · exact .same rfl fun σ => rfl
    · rename_i hqueue
      refine .same rfl fun σ => seedCount_steal hqueue ?_ ?_ ?_ σ <;> rfl
  | ownEui found => cases found <;> cases h <;> exact SeedsKept.eui rfl fun σ => rfl
  | scan i =>
    simp only [suspendStep] at h
    split at h
    · split at h <;> cases h <;> exact .same rfl fun σ => rfl
    · cases h
      exact .same rfl fun σ => rfl
  | ownTest | ready | deqFront e | deqBack e i | stealing =>
    simp only [suspendStep] at h
    split at h <;> cases h <;> exact .same rfl fun σ => rfl

omit [NeZero N] in
/-- At most one copy of every seed, and none of one that is not allocated yet. -/
theorem seeds_after {o : Outcome N} (ho : SeedsKept s.shared (s.cores t) o)
    (h : ∀ σ, total (fun _ c => c.seedQ.count σ) s.cores + s.shared.released.count σ +
      s.shared.stolen.count σ ≤ if σ.id < s.shared.seeds then 1 else 0) (σ : Seed) :
    total (fun _ c => c.seedQ.count σ) (s.after t o).cores + o.shared.released.count σ +
      o.shared.stolen.count σ ≤ if σ.id < o.shared.seeds then 1 else 0 := by
  have hstep : total (fun _ c => c.seedQ.count σ) (s.after t o).cores +
      (s.cores t).seedQ.count σ =
        total (fun _ c => c.seedQ.count σ) s.cores + o.core.seedQ.count σ +
          postWeight (fun _ (_ : Message N) => 0) o.sent :=
    total_step fun u c msg => rfl
  have hzero : postWeight (fun _ (_ : Message N) => 0) o.sent = 0 := by
    cases o.sent <;> rfl
  have hold := h σ
  cases ho with
  | same hseeds hcount =>
    have := hcount σ
    unfold seedCount at this
    rw [hseeds]
    omega
  | new seed hid hseeds hcount =>
    have := hcount σ
    unfold seedCount at this
    rw [hseeds]
    split at this
    · -- The new seed was nowhere before.
      rename_i he
      subst he
      rw [if_neg (by omega)] at hold
      rw [if_pos (by omega)]
      omega
    · have hle : (if σ.id < s.shared.seeds then 1 else 0) ≤
          if σ.id < s.shared.seeds + 1 then 1 else 0 := by
        split
        · rw [if_pos (by omega)]
        · exact Nat.zero_le _
      omega

/-- At the start nothing was pushed. -/
theorem workInv_initial (n : Int) (stubFound : Bool) : WorkInv (initial N n stubFound) := by
  have hcore : ∀ u, ((initial N n stubFound).cores u).phase = .out := by
    intro u
    show (Core.phase { (initial N n stubFound).cores u with
      base := if u = 0 then .fib .first .root .start else .suspend .poll }) = .out
    split <;> rfl
  refine ⟨fun u => ⟨⟨List.forall_mem_nil _, List.forall_mem_nil _⟩, ?_, fun _ => rfl,
    fun _ _ => List.not_mem_nil⟩, List.forall_mem_nil _, ⟨[], ?_⟩, fun σ => ?_⟩
  · show Base.InOrder (if u = 0 then .fib .first .root .start else .suspend .poll)
    split <;> trivial
  · refine ⟨⟨List.forall_mem_nil _, List.forall_mem_nil _⟩, fun _ => isSList_nil,
      fun u hu => absurd (hcore u) hu, fun σ => ?_⟩
    exact (handOvers σ).all_initial n stubFound (fun _ => rfl) fun _ => rfl
  · show ∑ u : Fin N, 0 + 0 + 0 ≤ _
    rw [Finset.sum_const_zero]
    exact Nat.zero_le _

/-- Every orderly step keeps the invariant. -/
theorem WorkInv.step {s' : State N} (h : WorkInv s) (hcond : Orderly s t)
    (hstep : step s t = some s') : WorkInv s' := by
  obtain ⟨l, hbooks⟩ := h.books
  have hok := h.cores t
  -- Before the first access of `t` no other thread is inside, so the queue is whole.
  have hbegin : (s.cores t).begins = true → Phase.Valid s.shared.readyQ l .out := by
    intro hbegins
    refine hbooks.free fun u => ?_
    by_cases hu : u = t
    · rw [hu, Core.phase_of_begins hbegins]
    · exact hcond.ready hbegins u hu
  have hphase := fun ht => (hbooks.inside t ht).1
  obtain ⟨o, rfl, ho⟩ := step_cases hstep
  have hboth : (∃ l', Handed t s.shared (s.cores t) l l' o) ∧
      SeedsKept s.shared (s.cores t) o := by
    rcases ho with ⟨act, rest, hacts, rfl⟩ | ⟨hacts, hbase⟩
    · exact ⟨Handed.act hbooks.list hok hacts hcond.resume hcond.stack hbegin hphase,
        actStep_seedsKept⟩
    · cases hb : (s.cores t).base with
      | fib stub F pc =>
        rw [hb] at hbase
        have heffect := fibStep_effect hb hbase
        exact ⟨⟨l, Handed.fib hbooks.list hok hacts (by rw [hb]; trivial) heffect⟩,
          heffect.seedsKept⟩
      | getMsg use pc =>
        rw [hb] at hbase
        exact ⟨⟨l, Handed.getMsg hbooks.list hok hacts hb hbase⟩, getMsgStep_seedsKept hbase⟩
      | suspend pc =>
        rw [hb] at hbase
        exact ⟨Handed.suspend hbooks.list hok hacts hb hcond hbegin hphase hbase,
          suspendStep_seedsKept hbase⟩
      | returned =>
        rw [hb] at hbase
        cases hbase
  obtain ⟨⟨l', hhanded⟩, hseeds⟩ := hboth
  refine ⟨?_, fun st hst => (hhanded.starts st hst).elim (h.starts st) id,
    ⟨l', hbooks.after hhanded hcond.ready⟩, seeds_after hseeds h.seeds⟩
  exact forall_step h.cores hhanded.ok fun x msg hsent _ hb =>
    ⟨hb.msgs.receive (hhanded.sent x msg hsent), hb.base, hb.deq, hb.tail⟩

omit [NeZero N] in
/-- What the queue holds, in every phase. -/
theorem Phase.Valid.spells {q : ReadyQ N} {p : Phase N} (h : p.Valid q l) :
    ∃ back, Spells q back l := by
  cases p with
  | out | enqBack ready | deqBack i => exact ⟨_, h⟩
  | enqLink ready e | enqFront ready e | deqFront e | deqNext e i => exact ⟨_, h.1⟩

omit [NeZero N] in
/-- A stolen seed is on the way, or was started. -/
theorem Books.onTheWay (h : Books s l) (σ : Seed) :
    s.onTheWay σ + started σ s.shared = s.shared.stolen.count σ := by
  have hspells : ∃ back, Spells s.shared.readyQ back l := by
    by_cases hall : ∀ u, (s.cores u).phase = .out
    · exact (h.free hall).spells
    · obtain ⟨u, hu⟩ := not_forall.mp hall
      exact (h.inside u hu).1.spells
  obtain ⟨back, hspells⟩ := hspells
  have hqueued : queued σ s.shared.readyQ l =
      ((contents s.shared.readyQ).map fun e => mark σ e.seed).sum := by
    rw [hspells.contents h.list.allocated, List.map_map]
    rfl
  have := h.count σ
  unfold State.onTheWay
  omega

omit [NeZero N] in
/-- The starts of a seed are counted by the records of them. -/
theorem started_eq_length (s : State N) (σ : Seed) :
    started σ s.shared = (s.startsOf σ).length := by
  unfold started State.startsOf
  induction s.shared.starts with
  | nil => rfl
  | cons st starts ih =>
    rw [List.map_cons, List.sum_cons, List.filter_cons, ih]
    unfold mark
    by_cases hst : st.seed = some σ
    · rw [if_pos hst, if_pos (decide_eq_true hst), List.length_cons, Nat.add_comm]
    · rw [if_neg hst, if_neg (by simpa using hst), Nat.zero_add]

/-- Work is conserved. Take any number of threads, any `n` and any build, and a run whose steps all
meet `Orderly`. In every state it reaches, a seed that was unlinked other than by its own parent is
either on its way in exactly one place and its second child has not been started, or it is nowhere
any more and its second child has been started exactly once, by one thread. -/
theorem work_conserved (n : Int) (stubFound : Bool) (sched : List (Fin N)) (s : State N)
    (hcond : RunUnder step Orderly (initial N n stubFound) sched)
    (hrun : run step (initial N n stubFound) sched = some s) :
    ∀ σ ∈ s.shared.stolen,
      s.onTheWay σ = 1 ∧ s.startsOf σ = [] ∨
        s.onTheWay σ = 0 ∧ ∃ t, s.startsOf σ = [⟨some σ, .b σ.sp, t⟩] := by
  have h : WorkInv s := runUnder_induction (fun _ _ _ h hcond hstep => h.step hcond hstep) sched
    _ s (workInv_initial n stubFound) hcond hrun
  intro σ hσ
  obtain ⟨l, hbooks⟩ := h.books
  -- a seed is allocated once, and unlinked once
  have hcount : s.shared.stolen.count σ = 1 := by
    have hpos : 0 < s.shared.stolen.count σ := List.count_pos_iff.mpr hσ
    have hle := h.seeds σ
    split at hle <;> omega
  have hsum := hbooks.onTheWay σ
  rw [hcount, started_eq_length] at hsum
  rcases Nat.eq_zero_or_pos (s.startsOf σ).length with hzero | hpos
  · exact Or.inl ⟨by omega, List.length_eq_zero_iff.mp hzero⟩
  · refine Or.inr ⟨by omega, ?_⟩
    obtain ⟨st, hst⟩ := List.length_eq_one_iff.mp (by omega : (s.startsOf σ).length = 1)
    have hmem : st ∈ s.startsOf σ := by rw [hst]; exact List.mem_singleton.mpr rfl
    obtain ⟨hmem, hseed⟩ := List.mem_filter.mp hmem
    have hseed : st.seed = some σ := by simpa using hseed
    have hnamed : st.seed.map (fun σ => FooPtr.b σ.sp) = some st.child := h.starts st hmem
    rw [hseed] at hnamed
    have hchild : FooPtr.b σ.sp = st.child := Option.some.inj hnamed
    refine ⟨st.thread, ?_⟩
    rw [hst, ← hseed, hchild]

/-- Thread `1` steals the seed of thread `0` and puts the child on the ready queue, and thread `2`
takes it from there. -/
def handOver : List (Fin 3) := List.flatten
  [List.replicate 2 0, List.replicate 15 1, List.replicate 7 0, List.replicate 7 1,
    List.replicate 9 2]

theorem work_conserved_handOver :
    ∃ s : State 3, RunUnder step Orderly (initial 3 3 false) handOver ∧
      run step (initial 3 3 false) handOver = some s ∧
      (s.onTheWay ⟨0, .root⟩ = 1 ∧ s.startsOf ⟨0, .root⟩ = [] ∨
        s.onTheWay ⟨0, .root⟩ = 0 ∧
          ∃ t, s.startsOf ⟨0, .root⟩ = [⟨some ⟨0, .root⟩, .b .root, t⟩]) ∧
      s.startsOf ⟨0, .root⟩ ≠ [] := by
  have hcond : RunUnder step Orderly (initial 3 3 false) handOver := by decide +kernel
  have hrun : (run step (initial 3 3 false) handOver).map (fun s => decide
      ((⟨0, .root⟩ : Seed) ∈ s.shared.stolen ∧ s.startsOf ⟨0, .root⟩ ≠ [])) = some true := by
    decide +kernel
  obtain ⟨s, hs, hprop⟩ := Option.map_eq_some_iff.mp hrun
  obtain ⟨hstolen, hstarts⟩ := of_decide_eq_true hprop
  exact ⟨s, hcond, hs, work_conserved 3 false handOver s hcond hs _ hstolen, hstarts⟩

/-- Thread `1` steals the seed of thread `0` and starts the child behind its own `enqReadyQ`. While
it runs the child, thread `2` takes the child from the ready queue. -/
def fallThrough : List (Fin 3) := List.flatten
  [List.replicate 2 0, List.replicate 15 1, List.replicate 7 0, List.replicate 8 1,
    List.replicate 9 2]

/-- The second child of one seed is started twice, by two threads. Thread `1` is still at the
beginning of its `fib`, so the assertion of `returnFromStolenWorkRoutine`, which fails in this
build, is not reached. -/
theorem started_twice :
    ∃ s : State 3, run step (initial 3 3 false) fallThrough = some s ∧
      (⟨0, .root⟩ : Seed) ∈ s.shared.stolen ∧
      s.startsOf ⟨0, .root⟩ =
        [⟨some ⟨0, .root⟩, .b .root, 1⟩, ⟨some ⟨0, .root⟩, .b .root, 2⟩] ∧
      (s.cores 1).base = .fib (.stolen .root 0) (.b .root) .start ∧ s.shared.aborted = false := by
  exact exists_of_map_decide (by decide +kernel)

/-- Thread `2` has put the child of thread `0`'s first seed on the ready queue, and stops before
`Resume`. Thread `1` has asked thread `0` for its second seed. It takes the child from the ready
queue and pushes a seed of its own, and then the answer arrives. So it leaves its frame for the new
child, and comes back to `suspend` with its own seed still in the queue. -/
def abandoned : List (Fin 3) := List.flatten
  [List.replicate 2 0, List.replicate 14 2, List.replicate 11 0, List.replicate 15 1,
    List.replicate 8 2, List.replicate 12 1, List.replicate 7 0, List.replicate 19 1]

/-- `suspend` has unlinked a seed of its own thread, and nothing is left of it. The thread has come
back through `returnFromStolenWorkRoutine`, so this is about a build whose assertion holds. -/
theorem dropped_by_suspend :
    ∃ s : State 3, run step (initial 3 5 true) abandoned = some s ∧
      (⟨2, .b .root⟩ : Seed) ∈ s.shared.stolen ∧ s.onTheWay ⟨2, .b .root⟩ = 0 ∧
      s.startsOf ⟨2, .b .root⟩ = [] := by
  exact exists_of_map_decide (by decide +kernel)

end

end Stacklets.Steal

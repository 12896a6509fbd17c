import Mathlib.Algebra.Order.BigOperators.Group.Finset
import Stacklets.Steal.Steps

/-!
# `Stacklets.Steal.Requests`: one steal request per thread

`suspend` sets `amStealing` when it sends a request to another thread, and `noWorkHandler` and
`forkHandler` are there to clear it when the answer comes. `outstanding` counts the requests of a
thread that `suspend` is sending, that are in flight or that a handler works on. The answers count
as the requests that they answer.

The flag and the count do not agree in every run. `forkHandler` never comes to `amStealing = 0`,
since `enQnewStacklet` jumps to the child, and the scan of `suspend` does not stop at its first
request. A request that `suspend` sends to its own thread carries whatever `from` the buffer still
has. `AsksOnce` leaves these steps out. In a run without them the flag and the count agree at every
moment (`one_request`), because each step moves a request to another place and keeps its asker, or
begins or ends one together with the flag.
-/

set_option autoImplicit false

namespace Stacklets.Steal

open Lib
open LazyFork (FooPtr)

section
variable {N : Nat}

/-! ### The requests of a thread -/

/-- `1` for a request of `r` to another thread, and for its answer. -/
def Message.requests (r : Fin N) (msg : Message N) : Nat :=
  if msg.asker = some r ∧ msg.victim ≠ r then 1 else 0

/-- The requests of `r` that a handler works on. `noWorkHandler` is done with it when it has
cleared `amStealing`. -/
def Act.requests (r : Fin N) : Act N → Nat
  | .steal msg _ => msg.requests r
  | .noWork msg false => msg.requests r
  | .fork msg _ => msg.requests r
  | _ => 0

/-- The request that `suspend` on the thread `u` is about to send, when `u` is `r`. -/
def Base.requests (r u : Fin N) : Base N → Nat
  | .getMsg (.steal _ x) _ => if u = r ∧ x ≠ r then 1 else 0
  | _ => 0

/-- The requests of `r`, wherever they are. -/
def requestsOf (r : Fin N) : Weights N where
  msg := Message.requests r
  act := Act.requests r
  base := Base.requests r
  act_poll := rfl

/-- The requests of `r` to other threads that are being sent, in flight or being handled. -/
def State.outstanding (s : State N) (r : Fin N) : Nat := (requestsOf r).all s

variable {r t u : Fin N} {c : Core N} {m : Shared N} {msg : Message N}

/-- In `fib`, a thread is not about to ask. -/
theorem Base.Working.requests {base : Base N} (h : base.Working) : base.requests r u = 0 := by
  cases base with
  | getMsg use pc => cases use <;> first | rfl | cases h
  | _ => rfl

/-! ### Where the messages are addressed to -/

/-- A message in the queue of `u`: a request is for `u` and names its asker in `from`, and an
answer has come to the thread that had asked. -/
def MessageOk (u : Fin N) (msg : Message N) : Prop :=
  match msg.callback with
  | some .stealHandler => msg.asker = some msg.sender ∧ msg.victim = u ∧ msg.sender ≠ u
  | some .noWorkHandler => msg.asker = some u ∧ msg.victim ≠ u
  | some .forkHandler => msg.asker = some u ∧ msg.victim ≠ u
  | some .returnInletHandler => msg.asker = none
  | none => False

/-- The same for the message that a handler on `u` works on. -/
def ActOk (u : Fin N) : Act N → Prop
  | .steal msg (.send dest) =>
    msg.callback = some .forkHandler ∧ msg.asker = some dest ∧ msg.victim = u ∧ dest ≠ u
  | .steal msg _ => msg.asker = some msg.sender ∧ msg.victim = u ∧ msg.sender ≠ u
  | .noWork msg false => msg.asker = some u ∧ msg.victim ≠ u
  | .fork msg _ => msg.asker = some u ∧ msg.victim ≠ u
  | _ => True

/-- `suspend` takes no seed of its own and asks other threads only. -/
def BaseOk (u : Fin N) : Base N → Prop
  | .getMsg .own _ => False
  | .getMsg (.steal _ x) _ => x ≠ u
  | .suspend .ownTake => False
  | .suspend (.ownEui _) => False
  | _ => True

/-- `suspend` has found its own seed queue empty. -/
def Base.Idle : Base N → Prop
  | .getMsg (.steal _ _) _ => True
  | .suspend .poll => False
  | .suspend .ownTest => False
  | .suspend _ => True
  | _ => False

/-- The messages are in order wherever they are. -/
def addressed : Facts N where
  msg := MessageOk
  act := ActOk
  act_poll _ := trivial

/-- The messages at the thread `u` are in order, and `suspend` has its own queue empty. -/
structure CoreOk (u : Fin N) (c : Core N) : Prop where
  msgs : addressed.At u c
  base : BaseOk u c.base
  idle : c.base.Idle → c.seedQ = []

/-- The poll of `myeui` has no message. -/
theorem CoreOk.eui (h : CoreOk u c) (m : Shared N) : CoreOk u (Outcome.eui m c).core := by
  refine ⟨h.msgs.eui m, ?_, ?_⟩
  all_goals
    obtain ⟨acts, mask, aborted, hacts, heui⟩ := Outcome.eui_cases m c
    rw [heui]
  · exact h.base
  · exact h.idle

/-- The thread goes on somewhere else with the same queues. -/
theorem CoreOk.goto {base : Base N} (h : CoreOk u c) (hbase : BaseOk u base)
    (hidle : base.Idle → c.seedQ = []) : CoreOk u (c.goto base) :=
  ⟨⟨h.msgs.msgs, h.msgs.acts⟩, hbase, hidle⟩

/-- In `fib`, a thread does not look for work. -/
theorem Base.Working.ok {base : Base N} (h : base.Working) : BaseOk u base ∧ ¬base.Idle := by
  cases base with
  | fib stub F pc => exact ⟨trivial, id⟩
  | getMsg use pc => cases use <;> first | exact ⟨trivial, id⟩ | cases h
  | suspend pc => cases pc <;> first | exact ⟨trivial, id⟩ | cases h
  | returned => exact ⟨trivial, id⟩

/-! ### The balance of one step -/

/-- `1` when the flag of `t` is set and `t` is `r`. -/
def flag (r t : Fin N) (amStealing : Bool) : Nat := if r = t ∧ amStealing = true then 1 else 0

/-- `suspend` counts for its own thread when it asks another one. -/
theorem Base.requests_steal {x : Fin N} (i : Nat) (pc : GetMsgPC N) (h : x ≠ t) :
    Base.requests r t (.getMsg (.steal i x) pc) = flag r t true := by
  show (if t = r ∧ x ≠ r then 1 else 0) = if r = t ∧ true = true then 1 else 0
  by_cases hr : r = t
  · rw [hr, if_pos ⟨rfl, h⟩, if_pos ⟨rfl, rfl⟩]
  · rw [if_neg (fun h => hr h.1.symm), if_neg (fun h => hr h.1)]

/-- A step of `t` keeps the messages in order, and keeps the difference of the flag and the
requests of each thread. -/
structure Balanced (t : Fin N) (c : Core N) (o : Outcome N) : Prop where
  ok : CoreOk t o.core
  sent : ∀ x msg, o.sent = some (x, msg) → MessageOk x msg
  balance : ∀ r, (requestsOf r).core t o.core +
      postWeight (fun _ => Message.requests r) o.sent + flag r t c.amStealing =
    (requestsOf r).core t c + flag r t o.core.amStealing

/-- A step that sends nothing and leaves the flag alone. -/
theorem Balanced.quiet {c' : Core N} (hok : CoreOk t c')
    (hrequests : ∀ r, (requestsOf r).core t c' = (requestsOf r).core t c)
    (hflag : c'.amStealing = c.amStealing) : Balanced t c (.quiet m c') where
  ok := hok
  sent := by intro x msg h; cases h
  balance r := by
    show (requestsOf r).core t c' + 0 + _ = _ + flag r t c'.amStealing
    rw [hrequests, hflag, Nat.add_zero]

/-- A step with `myeui` at the end. -/
theorem Balanced.eui {c' : Core N} (hok : CoreOk t c')
    (hbalance : ∀ r, (requestsOf r).core t c' + flag r t c.amStealing =
      (requestsOf r).core t c + flag r t c'.amStealing) :
    Balanced t c (.eui m c') := by
  have hkept : ∀ r, (requestsOf r).core t (Outcome.eui m c').core = (requestsOf r).core t c' :=
    fun r => (requestsOf r).core_eui t m c'
  have hok' := hok.eui m
  obtain ⟨acts, mask, aborted, hacts, heui⟩ := Outcome.eui_cases m c'
  rw [heui] at hkept hok' ⊢
  refine ⟨hok', nofun, fun r => ?_⟩
  rw [hkept]
  exact hbalance r

/-- `fib` sends no request. -/
theorem Balanced.fib {o : Outcome N} {stub : Stub N} {F : FooPtr} {pc : FibPC} (hok : CoreOk t c)
    (hworking : c.base.Working) (h : FibEffect stub F pc m c o) : Balanced t c o := by
  have hbase : BaseOk t o.core.base ∧ ¬o.core.base.Idle := h.base.working.ok
  refine ⟨⟨hok.msgs.of_poll h.msgBufs h.acts, hbase.1, fun hidle => absurd hidle hbase.2⟩, ?_,
    fun r => ?_⟩
  · intro x msg hsent
    rw [h.sent] at hsent
    cases hsent
  · have hpoll : (requestsOf r).core t o.core = (requestsOf r).core t (c.goto o.core.base) :=
      (requestsOf r).core_of_poll t h.msgBufs h.acts rfl
    have hmove := (requestsOf r).core_goto t c o.core.base
    have hzero : (requestsOf r).base t c.base = 0 := hworking.requests
    have hzero' : (requestsOf r).base t o.core.base = 0 := h.base.working.requests
    rw [hzero, hzero'] at hmove
    rw [h.sent, h.amStealing, hpoll]
    exact congrArg (· + _) hmove

section
variable {c' : Core N} {act : Act N} {l rest : List (Act N)} (hok : CoreOk t c)
  (hacts : c.acts = act :: rest) (hacts' : c'.acts = l ++ rest)
  (hl : ∀ a ∈ l, ActOk t a) (hmsgs : c'.msgBufs = c.msgBufs) (hbase : c'.base = c.base)
  (hseedQ : c.seedQ = [] → c'.seedQ = [])
include hok hacts hacts' hl hmsgs hbase hseedQ

/-- The topmost poll or handler gives way to `l`. -/
theorem CoreOk.handle : CoreOk t c' where
  msgs := hok.msgs.handle hacts hacts' hl fun msg hmsg => hmsgs ▸ hmsg
  base := by
    rw [hbase]
    exact hok.base
  idle := by
    rw [hbase]
    exact fun hidle => hseedQ (hok.idle hidle)

variable (hrequests : ∀ r, (l.map (Act.requests r)).sum = act.requests r)
  (hflag : c'.amStealing = c.amStealing)
include hrequests hflag

/-- A handler goes on, with the same request or without any. -/
theorem Balanced.handle : Balanced t c (.quiet m c') := by
  refine .quiet (hok.handle hacts hacts' hl hmsgs hbase hseedQ) (fun r => ?_) hflag
  have hmove := (requestsOf r).core_handle t c' hacts hacts' hmsgs hbase
  have hsame : (l.map (requestsOf r).act).sum = (requestsOf r).act act := hrequests r
  omega

/-- The same with `myeui` at the end. -/
theorem Balanced.handleEui : Balanced t c (.eui m c') := by
  refine .eui (hok.handle hacts hacts' hl hmsgs hbase hseedQ) fun r => ?_
  have hmove := (requestsOf r).core_handle t c' hacts hacts' hmsgs hbase
  have hsame : (l.map (requestsOf r).act).sum = (requestsOf r).act act := hrequests r
  rw [hflag]
  omega

end

/-- A handler sends its message and returns. -/
theorem Balanced.reply {act : Act N} {rest : List (Act N)} {x : Fin N} {reply : Message N}
    (hok : CoreOk t c) (hacts : c.acts = act :: rest) (hreply : MessageOk x reply)
    (hrequests : ∀ r, reply.requests r = act.requests r) :
    Balanced t c ⟨c.setActs rest, m, some (x, reply)⟩ where
  ok := hok.handle (l := []) hacts rfl (List.forall_mem_nil _) rfl rfl id
  sent := by
    intro x' msg' h
    cases h
    exact hreply
  balance r := by
    have hmove := (requestsOf r).core_handle (l := []) t (c.setActs rest) hacts rfl rfl rfl
    have hsame : (requestsOf r).act act = reply.requests r := (hrequests r).symm
    rw [hsame] at hmove
    exact congrArg (· + _) hmove

/-- The handler of a message takes over its request. -/
theorem handlerOf_ok {callback : Callback} (h : MessageOk u msg)
    (hcallback : msg.callback = some callback) :
    ActOk u (handlerOf msg callback) ∧
      ∀ r, (handlerOf msg callback).requests r = msg.requests r := by
  unfold MessageOk at h
  rw [hcallback] at h
  cases callback with
  | stealHandler | noWorkHandler | forkHandler => exact ⟨h, fun r => rfl⟩
  | returnInletHandler =>
    refine ⟨trivial, fun r => ?_⟩
    have hnone : msg.asker = none := h
    simp [handlerOf, Act.requests, Message.requests, hnone]

/-- The loop of `i_handler` takes a message and calls its handler. -/
theorem Balanced.call {rest : List (Act N)} {msgBufs : List (Message N)} {callback : Callback}
    (hok : CoreOk t c) (hacts : c.acts = .iHandler :: rest) (hbufs : c.msgBufs = msg :: msgBufs)
    (hcallback : msg.callback = some callback) :
    Balanced t c (.quiet m
      { c with msgBufs, acts := handlerOf msg callback :: .iHandler :: rest }) := by
  have hmsg := hok.msgs.msgs msg (by rw [hbufs]; exact List.mem_cons_self)
  obtain ⟨hact, hrequests⟩ := handlerOf_ok hmsg hcallback
  refine Balanced.quiet ⟨?_, hok.base, hok.idle⟩
    (fun r => (requestsOf r).core_call t hacts hbufs (hrequests r)) rfl
  refine hok.msgs.handle (l := [handlerOf msg callback, .iHandler]) hacts rfl ?_ ?_
  · exact List.forall_mem_cons.mpr ⟨hact, List.forall_mem_singleton.mpr trivial⟩
  · intro msg' hmsg'
    rw [hbufs]
    exact List.mem_cons_of_mem _ hmsg'

/-- `stealHandler` answers the thread that asked. -/
theorem Balanced.steal {rest : List (Act N)} {pc : StealPC N} (hok : CoreOk t c)
    (hacts : c.acts = .steal msg pc :: rest) : Balanced t c (stealStep m t c rest msg pc) := by
  have hact := hok.msgs.head hacts
  cases pc with
  | enter =>
    obtain ⟨hasker, hvictim, hsender⟩ := hact
    simp only [stealStep]
    split
    · refine Balanced.handleEui (l := [.steal msg .fail]) hok hacts rfl ?_ rfl rfl id ?_ rfl
      · exact List.forall_mem_singleton.mpr ⟨hasker, hvictim, hsender⟩
      · exact fun r => Nat.add_zero _
    · rename_i seed seedQ hseedQ
      have hne : c.seedQ ≠ [] := by rw [hseedQ]; exact List.cons_ne_nil _ _
      split
      · exact Balanced.quiet ⟨⟨hok.msgs.msgs, hok.msgs.acts⟩, hok.base,
          fun hidle => absurd (hok.idle hidle) hne⟩ (fun r => rfl) rfl
      · refine Balanced.handleEui (l := [.steal _ (.send msg.sender)]) hok hacts rfl ?_ rfl rfl
          (absurd · hne) (fun r => Nat.add_zero _) rfl
        exact List.forall_mem_singleton.mpr ⟨rfl, hasker, hvictim, hsender⟩
  | fail =>
    -- The reply goes to the thread in `from`, which is the asker.
    obtain ⟨hasker, hvictim, hsender⟩ := hact
    refine Balanced.reply hok hacts ⟨hasker, ?_⟩ fun r => rfl
    exact hvictim ▸ hsender.symm
  | send dest =>
    obtain ⟨hcallback, hasker, hvictim, hdest⟩ := hact
    refine Balanced.reply hok hacts ?_ fun r => rfl
    unfold MessageOk
    rw [hcallback]
    exact ⟨hasker, hvictim ▸ hdest.symm⟩

/-- `forkHandler` has its request as long as it runs. -/
theorem Balanced.fork {rest : List (Act N)} {pc : ForkPC} (hok : CoreOk t c)
    (hacts : c.acts = .fork msg pc :: rest) (hpc : pc ≠ .resume) :
    Balanced t c (forkStep m t c rest msg pc) := by
  have hact := hok.msgs.head hacts
  have hgo : ∀ {m' : Shared N} (pc' : ForkPC),
      Balanced t c (.quiet m' (c.setActs (.fork msg pc' :: rest))) := fun pc' =>
    Balanced.handle (l := [.fork msg pc']) hok hacts rfl
      (List.forall_mem_singleton.mpr hact) rfl rfl id (fun r => Nat.add_zero _) rfl
  cases pc with
  | enter =>
    simp only [forkStep]
    split <;> exact hgo _
  | enqLink ready =>
    simp only [forkStep]
    split
    · exact hgo _
    · exact Balanced.quiet hok (fun r => rfl) rfl
  | enqFront ready | enqBack ready => exact hgo _
  | resume => exact absurd rfl hpc

/-- `noWorkHandler` ends a request of its own thread, and clears the flag. -/
theorem Balanced.noWork {rest : List (Act N)} (hok : CoreOk t c)
    (hacts : c.acts = .noWork msg false :: rest) (hflag : c.amStealing = true) :
    Balanced t c (actStep m t c rest (.noWork msg false)) := by
  obtain ⟨hasker, hvictim⟩ := hok.msgs.head hacts
  refine Balanced.eui ?_ fun r => ?_
  · exact hok.handle (l := [.noWork msg true]) hacts rfl (List.forall_mem_singleton.mpr trivial)
      rfl rfl id
  · have hmove := (requestsOf r).core_handle (l := [.noWork msg true]) t
      { c.mydui.setActs (.noWork msg true :: rest) with
        amStealing := false, msgPool := msg :: c.msgPool } hacts rfl rfl rfl
    have hmsg : (requestsOf r).act (.noWork msg false) = flag r t c.amStealing := by
      show msg.requests r = flag r t c.amStealing
      rw [hflag]
      unfold Message.requests flag
      rw [hasker]
      by_cases hr : r = t
      · rw [hr, if_pos ⟨rfl, hvictim⟩, if_pos ⟨rfl, rfl⟩]
      · rw [if_neg (fun h => hr (Option.some.inj h.1).symm), if_neg (fun h => hr h.1)]
    rw [hmsg] at hmove
    have hclear : flag r t false = 0 := if_neg nofun
    show _ = _ + flag r t false
    rw [hclear]
    exact hmove

/-- Every step of a poll or a handler. -/
theorem Balanced.act {act : Act N} {rest : List (Act N)} (hok : CoreOk t c)
    (hacts : c.acts = act :: rest) (hresume : c.fallsThrough = false)
    (hflag : (requestsOf t).core t c ≤ flag t t c.amStealing) :
    Balanced t c (actStep m t c rest act) := by
  have hpop : act.requests = (fun _ => 0) → Balanced t c (.quiet m (c.setActs rest)) := by
    intro hzero
    exact Balanced.handle (l := []) hok hacts rfl (List.forall_mem_nil _) rfl rfl id
      (fun r => (congrFun hzero r).symm) rfl
  cases act with
  | poll =>
    rw [actStep_poll]
    split
    · exact hpop rfl
    · exact Balanced.handle (l := [.iHandler]) hok hacts rfl
        (List.forall_mem_singleton.mpr trivial) rfl rfl id (fun r => rfl) rfl
  | iHandler =>
    rw [actStep_iHandler]
    split
    · exact hpop rfl
    · split
      · exact Balanced.call hok hacts ‹_› ‹_›
      · exact Balanced.quiet hok (fun r => rfl) rfl
  | steal msg pc => exact Balanced.steal hok hacts
  | noWork msg freed =>
    cases freed with
    | true => exact hpop rfl
    | false =>
      -- The request that ends is outstanding, so the flag is set.
      refine Balanced.noWork hok hacts ?_
      obtain ⟨hasker, hvictim⟩ := hok.msgs.head hacts
      have hone : msg.requests t = 1 := if_pos ⟨hasker, hvictim⟩
      have hle : msg.requests t ≤ (requestsOf t).core t c :=
        (requestsOf t).act_le_core t hacts
      unfold flag at hflag
      split at hflag
      · exact (‹_ ∧ _›).2
      · omega
  | fork msg pc =>
    refine Balanced.fork hok hacts ?_
    rintro rfl
    unfold Core.fallsThrough at hresume
    rw [hacts] at hresume
    cases hresume
  | returnInlet msg => exact hpop rfl

variable [NeZero N] {s : State N}

/-- `getMsg` sends the request that `suspend` has begun. -/
theorem Balanced.getMsg {o : Outcome N} {use : Use N} {pc : GetMsgPC N} (hok : CoreOk t c)
    (hbase : c.base = .getMsg use pc) (h : getMsgStep m t c use pc = some o) :
    Balanced t c o := by
  have hbaseOk := hok.base
  have hidle := hok.idle
  rw [hbase] at hbaseOk hidle
  -- Up to `fill` the thread stays in `getMsg` with the same use.
  have hstay : ∀ pc', CoreOk t (c.goto (.getMsg use pc')) ∧
      ∀ r, (requestsOf r).core t (c.goto (.getMsg use pc')) = (requestsOf r).core t c := by
    intro pc'
    refine ⟨hok.goto ?_ ?_, fun r => ?_⟩
    · cases use <;> exact hbaseOk
    · cases use <;> exact hidle
    · have hmove := (requestsOf r).core_goto t c (.getMsg use pc')
      have hsame : (requestsOf r).base t (.getMsg use pc') = (requestsOf r).base t c.base := by
        rw [hbase]
        cases use <;> rfl
      omega
  cases pc with
  | test =>
    simp only [getMsgStep] at h
    split at h <;> cases h
    · have hok' := (hstay .take).1
      refine Balanced.eui ⟨⟨hok'.msgs.msgs, hok'.msgs.acts⟩, hok'.base, hok'.idle⟩ fun r => ?_
      exact congrArg (· + _) ((hstay .take).2 r)
    · exact Balanced.quiet (hstay .take).1 (hstay .take).2 rfl
  | take =>
    simp only [getMsgStep] at h
    split at h <;> cases h
    · exact Balanced.quiet hok (fun r => rfl) rfl
    · rename_i msg pool _
      have hok' := (hstay (.fill msg)).1
      refine Balanced.eui ⟨⟨hok'.msgs.msgs, hok'.msgs.acts⟩, hok'.base, hok'.idle⟩ fun r => ?_
      exact congrArg (· + _) ((hstay (.fill msg)).2 r)
  | fill msg =>
    cases h
    cases use with
    | own => exact absurd hbaseOk id
    | steal i x =>
      refine ⟨hok.goto trivial hidle, ?_, fun r => ?_⟩
      · rintro x' msg' hsent
        cases hsent
        exact ⟨rfl, rfl, fun htx => hbaseOk htx.symm⟩
      · have hmove := (requestsOf r).core_goto t c (.suspend (.scan (i + 1)))
        have hrequest : (requestsOf r).base t c.base =
            Message.requests r { msg with
              callback := some .stealHandler, sender := t, asker := some t, victim := x } := by
          rw [hbase]
          simp [requestsOf, Base.requests, Message.requests]
        rw [hrequest] at hmove
        exact congrArg (· + _) hmove
    | finish parentSP parentProc =>
      refine ⟨hok.goto trivial nofun, ?_, fun r => ?_⟩
      · rintro x' msg' hsent
        cases hsent
        rfl
      · have hmove := (requestsOf r).core_goto t c (.suspend .poll)
        rw [hbase] at hmove
        exact congrArg (· + _) hmove

/-- The step of `t` is none of those that lose or double a request:

* `t` does not run on from `enqReadyQ` into `Resume`;
* the own seed queue of `t` is empty when `suspend` looks into it;
* when the scan of `t` finds a seed, `t` has no request on its way. -/
structure AsksOnce (s : State N) (t : Fin N) : Prop where
  resume : (s.cores t).fallsThrough = false
  own : (s.cores t).testsOwn = true → (s.cores t).seedQ = []
  single : s.finds t = true → (s.cores t).amStealing = false

instance (s : State N) (t : Fin N) : Decidable (AsksOnce s t) :=
  decidable_of_iff ((s.cores t).fallsThrough = false ∧
      ((s.cores t).testsOwn = true → (s.cores t).seedQ = []) ∧
      (s.finds t = true → (s.cores t).amStealing = false))
    ⟨fun h => ⟨h.1, h.2.1, h.2.2⟩, fun h => ⟨h.resume, h.own, h.single⟩⟩

/-- `suspend` begins a request when its scan finds a seed. -/
theorem Balanced.suspend {o : Outcome N} {pc : SuspendPC N} (hok : CoreOk t (s.cores t))
    (hacts : (s.cores t).acts = []) (hbase : (s.cores t).base = .suspend pc)
    (hcond : AsksOnce s t) (h : suspendStep s t (s.cores t) pc = some o) :
    Balanced t (s.cores t) o := by
  have hbaseOk := hok.base
  have hidle := hok.idle
  rw [hbase] at hbaseOk hidle
  -- Every step but the one that finds a seed only goes on to another place in `suspend`.
  have hgoto : ∀ {m' : Shared N} (pc' : SuspendPC N), BaseOk t (.suspend pc') →
      (Base.Idle (.suspend pc' : Base N) → (s.cores t).seedQ = []) →
      Balanced t (s.cores t) (.quiet m' ((s.cores t).goto (.suspend pc'))) := by
    intro m' pc' hbaseOk' hidle'
    refine Balanced.quiet (hok.goto hbaseOk' hidle') (fun r => ?_) rfl
    have hmove := (requestsOf r).core_goto t (s.cores t) (.suspend pc')
    rw [hbase] at hmove
    exact hmove
  have habort : ∀ {m' : Shared N}, Balanced t (s.cores t) (.quiet m' (s.cores t)) :=
    Balanced.quiet hok (fun r => rfl) rfl
  cases pc with
  | poll =>
    cases h
    refine Balanced.quiet ⟨hok.msgs.of_poll rfl (Or.inr rfl), trivial, nofun⟩ (fun r => ?_) rfl
    have hpoll : (requestsOf r).core t (((s.cores t).setActs (.poll :: (s.cores t).acts)).goto
        (.suspend .ownTest)) = (requestsOf r).core t ((s.cores t).goto (.suspend .ownTest)) :=
      (requestsOf r).core_of_poll t rfl (Or.inr rfl) rfl
    have hmove := (requestsOf r).core_goto t (s.cores t) (.suspend .ownTest)
    rw [hbase] at hmove
    exact hpoll.trans hmove
  | ownTest =>
    have hempty := hcond.own (by unfold Core.testsOwn; rw [hacts, hbase])
    simp only [suspendStep, if_pos hempty] at h
    cases h
    exact hgoto _ trivial fun _ => hempty
  | ownTake | ownEui found => exact absurd hbaseOk id
  | ready | deqBack e origFront =>
    simp only [suspendStep] at h
    split at h <;> cases h <;> exact hgoto _ trivial hidle
  | deqFront e =>
    simp only [suspendStep] at h
    split at h <;> cases h
    · exact habort
    · exact hgoto _ trivial hidle
  | deqNext e origFront =>
    cases h
    exact hgoto _ trivial hidle
  | jump e =>
    cases h
    refine Balanced.quiet ⟨⟨hok.msgs.msgs, List.forall_mem_nil _⟩, trivial, nofun⟩ (fun r => ?_)
      rfl
    unfold Weights.core
    rw [hacts, hbase]
    rfl
  | stealing =>
    simp only [suspendStep] at h
    split at h <;> cases h
    · exact hgoto _ trivial nofun
    · exact hgoto _ trivial hidle
  | scan i =>
    simp only [suspendStep] at h
    split at h
    · rename_i hi
      split at h <;> cases h
      · -- A request begins, and the flag with it.
        rename_i hfound
        have hfinds : s.finds t = true := by
          unfold State.finds
          rw [hacts, hbase]
          show (decide (i < N) && _) = true
          rw [decide_eq_true hi, hfound, Bool.and_true]
        have hclear := hcond.single hfinds
        have hne : Fin.ofNat N ((s.cores t).lastReq + i) ≠ t := by
          intro hx
          rw [hx, State.checkSeedQue, hidle trivial] at hfound
          cases hfound
        refine ⟨⟨⟨hok.msgs.msgs, hok.msgs.acts⟩, hne, fun _ => hidle trivial⟩, nofun, fun r => ?_⟩
        have hmove := (requestsOf r).core_goto t (s.cores t)
          (.getMsg (.steal i (Fin.ofNat N ((s.cores t).lastReq + i))) .test)
        have hold : (requestsOf r).base t (s.cores t).base = 0 := by rw [hbase]; rfl
        have hnew := Base.requests_steal (r := r) i .test hne
        have hflag : flag r t (s.cores t).amStealing = 0 := by
          rw [hclear]
          exact if_neg nofun
        rw [hold] at hmove
        have hmove := hmove.trans (congrArg (_ + ·) hnew)
        show (requestsOf r).core t (Core.goto (s.cores t) (.getMsg _ _)) + 0 + _ =
          _ + flag r t true
        omega
      · exact hgoto _ trivial hidle
    · cases h
      exact hgoto _ trivial nofun

/-! ### Whole runs -/

/-- The messages are in order at every thread, and each flag says how many requests its thread has
outstanding. -/
structure RequestsOk (s : State N) : Prop where
  cores : ∀ u, CoreOk u (s.cores u)
  count : ∀ r, s.outstanding r = if (s.cores r).amStealing = true then 1 else 0

/-- At the start nobody has asked. -/
theorem requestsOk_initial (n : Int) (stubFound : Bool) : RequestsOk (initial N n stubFound) where
  cores u := by
    refine ⟨⟨List.forall_mem_nil _, List.forall_mem_nil _⟩, ?_, ?_⟩
    · show BaseOk u (if u = 0 then .fib .first .root .start else .suspend .poll)
      split <;> trivial
    · show Base.Idle (if u = 0 then .fib .first .root .start else .suspend .poll) → _
      split <;> exact nofun
  count r := (requestsOf r).all_initial n stubFound (fun _ => rfl) fun _ => rfl

omit [NeZero N] in
/-- The flags after a step of `t`. -/
theorem after_amStealing (o : Outcome N) (r : Fin N) :
    ((s.after t o).cores r).amStealing =
      if r = t then o.core.amStealing else (s.cores r).amStealing :=
  after_congr Core.amStealing (fun _ _ => rfl) s t o r

omit [NeZero N] in
/-- The flags say how many requests there are after a balanced step. -/
theorem RequestsOk.after {o : Outcome N} (h : RequestsOk s) (ho : Balanced t (s.cores t) o) :
    RequestsOk (s.after t o) where
  cores := forall_step h.cores ho.ok fun x msg hsent _ hb =>
    ⟨hb.msgs.receive (ho.sent x msg hsent), hb.base, hb.idle⟩
  count r := by
    have hstep : (s.after t o).outstanding r + (requestsOf r).core t (s.cores t) =
        s.outstanding r + (requestsOf r).core t o.core +
          postWeight (fun _ => Message.requests r) o.sent := (requestsOf r).all_after s t o
    have hbalance := ho.balance r
    have hcount := h.count r
    rw [after_amStealing]
    unfold flag at hbalance
    by_cases hr : r = t
    · subst hr
      simp only [true_and] at hbalance
      rw [if_pos rfl]
      omega
    · simp only [hr, false_and, if_false] at hbalance
      rw [if_neg hr]
      omega

/-- Every step of a run with `AsksOnce`. -/
theorem RequestsOk.step {s' : State N} (h : RequestsOk s) (hcond : AsksOnce s t)
    (hstep : step s t = some s') : RequestsOk s' := by
  obtain ⟨o, rfl, hact | ⟨hacts, hbase⟩⟩ := step_cases hstep
  · obtain ⟨act, rest, hacts, rfl⟩ := hact
    refine h.after (Balanced.act (h.cores t) hacts hcond.resume ?_)
    have hle : (requestsOf t).core t (s.cores t) ≤ s.outstanding t :=
      Finset.single_le_sum (f := fun u => (requestsOf t).core u (s.cores u))
        (fun _ _ => Nat.zero_le _) (Finset.mem_univ t)
    rw [h.count t] at hle
    unfold flag
    simpa using hle
  · refine h.after ?_
    cases hb : (s.cores t).base with
    | fib stub F pc =>
      rw [hb] at hbase
      refine Balanced.fib (h.cores t) ?_ (fibStep_effect hb hbase)
      rw [hb]
      trivial
    | getMsg use pc =>
      rw [hb] at hbase
      exact Balanced.getMsg (h.cores t) hb hbase
    | suspend pc =>
      rw [hb] at hbase
      exact Balanced.suspend (h.cores t) hacts hb hcond hbase
    | returned =>
      rw [hb] at hbase
      cases hbase

/-- One steal request per thread. Take any number of threads and any `n`, and a run whose steps
all meet `AsksOnce`. In every state it reaches, a thread has `amStealing` set if and only if
exactly one of its requests to other threads is outstanding, and it never has two. Every message
that answers a request lies in the queue of the thread that sent the request. -/
theorem one_request (n : Int) (stubFound : Bool) (sched : List (Fin N)) (s : State N)
    (hcond : RunUnder step AsksOnce (initial N n stubFound) sched)
    (hrun : run step (initial N n stubFound) sched = some s) :
    (∀ r, ((s.cores r).amStealing = true ↔ s.outstanding r = 1) ∧ s.outstanding r ≤ 1) ∧
      ∀ u, ∀ msg ∈ (s.cores u).msgBufs,
        msg.callback = some .noWorkHandler ∨ msg.callback = some .forkHandler →
          msg.asker = some u := by
  have h : RequestsOk s := runUnder_induction (fun _ _ _ h hcond hstep => h.step hcond hstep) sched
    _ s (requestsOk_initial n stubFound) hcond hrun
  refine ⟨fun r => ?_, fun u msg hmsg hanswer => ?_⟩
  · rw [h.count r]
    split <;> simp_all
  · have hok : MessageOk u msg := (h.cores u).msgs.msgs msg hmsg
    unfold MessageOk at hok
    rcases hanswer with hanswer | hanswer <;> rw [hanswer] at hok <;> exact hok.1

/-- Thread `1` asks thread `0` for its only seed. Thread `0` has released the seed by then, and its
answer is on the way back. -/
def refusal : List (Fin 2) := List.flatten
  [List.replicate 2 0, List.replicate 7 1, List.replicate 9 0, List.replicate 7 1,
    List.replicate 7 0]

theorem one_request_refusal :
    ∃ s : State 2, RunUnder step AsksOnce (initial 2 3 false) refusal ∧
      run step (initial 2 3 false) refusal = some s ∧
      (s.cores 1).msgBufs.map (·.callback) = [some .noWorkHandler] ∧ s.outstanding 1 = 1 := by
  have hcond : RunUnder step AsksOnce (initial 2 3 false) refusal := by decide +kernel
  have hrun : (run step (initial 2 3 false) refusal).map (fun s => decide
      ((s.cores 1).msgBufs.map (·.callback) = [some .noWorkHandler] ∧
        (s.cores 1).amStealing = true)) = some true := by decide +kernel
  obtain ⟨s, hs, hprop⟩ := Option.map_eq_some_iff.mp hrun
  obtain ⟨hmsgs, hflag⟩ := of_decide_eq_true hprop
  exact ⟨s, hcond, hs, hmsgs, ((one_request 3 false refusal s hcond hs).1 1).1.mp hflag⟩

/-- Thread `2` steals the first seed of thread `0`, starts the child and pushes a seed. Thread `0`
pushes another one, and the scan of thread `1` finds both. -/
def twoVictims : List (Fin 4) := List.flatten
  [List.replicate 5 1, List.replicate 2 0, List.replicate 17 2, List.replicate 8 0,
    List.replicate 12 2, List.replicate 3 0, List.replicate 15 1]

/-- Thread `1` has two requests on their way, and thread `2` has its flag set without any. -/
theorem two_requests :
    ∃ s : State 4, run step (initial 4 5 false) twoVictims = some s ∧ s.outstanding 1 = 2 ∧
      (s.cores 2).amStealing = true ∧ s.outstanding 2 = 0 := by
  exact exists_of_map_decide (by decide +kernel)

end

end Stacklets.Steal

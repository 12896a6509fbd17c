import Stacklets.Lib.Apart
import Stacklets.MsgPool.Machine

/-!
# `Stacklets.MsgPool.Sharing`: no message buffer has two users

A buffer is in the list of a thread, in a message queue, or held by `getMsg` or a handler of a
thread. `Placed` says that it is in one of these places at most, and there once. The steps of a
thread do one of a few things to the places:

* `Inv.setThread`: something in the places of one thread changes. This covers the steps where a
  buffer is taken, freed, received or dropped, and the refill of the list.
* `Inv.sendI`: a buffer that is nowhere goes to a queue.
* `Inv.write`: the holder writes a buffer.
* `Inv.carve`: a new chunk.

`buffers_not_shared` is the result for every run. The lists of the threads are spelled by `next`
from `msgPool` on, so they are finite and end in `NULL`. The two assertions hold because nothing
polls between the test for `NULL` and the refill, and because the handlers that can run between
the refill and the first buffer only add to the list.
-/

set_option autoImplicit false

namespace Stacklets.MsgPool

open Function (update update_self update_of_ne update_idem update_eq_self forall_update_iff)
open Lib
open Steal (allocCount)

section
variable {N : Nat}

/-! ### The places of a buffer -/

/-- The buffers of a chunk. -/
def chunkBufs (chunk : Nat) : List Buf := (List.range allocCount).map (Buf.mk chunk)

/-- The buffers that `getMsg` or its caller holds. -/
def GetMsgPC.held : GetMsgPC → List Buf
  | .refill chunk => chunkBufs chunk
  | .fill b | .send b => [b]
  | .test | .take => []

/-- The buffers that the code below the handlers holds. -/
def Base.held : Base N → List Buf
  | .getMsg _ pc => pc.held
  | .other => []

/-- The buffer that a handler holds. -/
def Act.held : Act N → List Buf
  | .steal b _ | .noWork b false | .fork b | .returnInlet b => [b]
  | .noWork _ true | .poll | .iHandler => []

/-- The buffers that a thread holds, in its handlers and below them. -/
def Thread.held (c : Thread N) : List Buf := c.acts.flatMap Act.held ++ c.base.held

/-- Where a buffer can be. -/
inductive Place (N : Nat)
  | pool (t : Fin N)
  | queue (t : Fin N)
  | held (t : Fin N)
deriving DecidableEq

/-- The buffers in a place, for lists `pools` of the threads. -/
def State.place (s : State N) (pools : Fin N → List Buf) : Place N → List Buf
  | .pool t => pools t
  | .queue t => (s.threads t).msgBufs
  | .held t => (s.threads t).held

/-- The buffers are apart, and come from the chunks that were allocated. -/
structure Placed (c : Place N → List Buf) (chunks : Nat) : Prop where
  apart : Apart c
  carved : ∀ i, ∀ b ∈ c i, b.chunk < chunks

section
variable {c c' : Place N → List Buf} {chunks : Nat} {i j : Place N} {b : Buf}

/-- New buffers come to one place, and others there get lost. -/
theorem Placed.addAll {l : List Buf} {chunks' : Nat} (h : Placed c chunks) (hl : l.Nodup)
    (hfresh : ∀ b ∈ l, ∀ k, b ∉ c k) (hchunk : ∀ b ∈ l, b.chunk < chunks')
    (hle : chunks ≤ chunks') (hi : (c' i).Subperm (l ++ c i))
    (hother : ∀ k, k ≠ i → c' k = c k) : Placed c' chunks' where
  apart := h.apart.addAll hl hfresh hi hother
  carved k b hb := by
    by_cases hk : k = i
    · subst hk
      rcases List.mem_append.mp (hi.subset hb) with hb | hb
      · exact hchunk b hb
      · exact Nat.lt_of_lt_of_le (h.carved k b hb) hle
    · exact Nat.lt_of_lt_of_le (h.carved k b (hother k hk ▸ hb)) hle

/-- Some of the buffers in one place get lost. -/
theorem Placed.shrink (h : Placed c chunks) (hi : (c' i).Subperm (c i))
    (hother : ∀ k, k ≠ i → c' k = c k) : Placed c' chunks :=
  h.addAll (l := []) List.nodup_nil nofun nofun (Nat.le_refl _) hi hother

/-- The buffers in two places are divided between the two in another way. -/
theorem Placed.exchange (h : Placed c chunks) (hij : i ≠ j)
    (hsum : (c' i ++ c' j).Subperm (c i ++ c j))
    (hother : ∀ k, k ≠ i → k ≠ j → c' k = c k) : Placed c' chunks where
  apart := h.apart.exchange hij hsum hother
  carved k b hb := by
    have hold : ∀ b ∈ c' i ++ c' j, b.chunk < chunks := by
      intro b hb
      rcases List.mem_append.mp (hsum.subset hb) with hb | hb
      · exact h.carved i b hb
      · exact h.carved j b hb
    by_cases hki : k = i
    · exact hold b (List.mem_append_left _ (hki ▸ hb))
    · by_cases hkj : k = j
      · exact hold b (List.mem_append_right _ (hkj ▸ hb))
      · exact h.carved k b (hother k hki hkj ▸ hb)

/-- A buffer that was nowhere comes to one place. -/
theorem Placed.add (h : Placed c chunks) (hb : ∀ k, b ∉ c k) (hchunk : b.chunk < chunks)
    (hi : (c' i).Subperm (b :: c i)) (hother : ∀ k, k ≠ i → c' k = c k) : Placed c' chunks :=
  h.addAll (l := [b]) (List.nodup_singleton b) (List.forall_mem_singleton.mpr hb)
    (List.forall_mem_singleton.mpr hchunk) (Nat.le_refl _) hi hother

/-- A buffer of a chunk has its number. -/
theorem mem_chunkBufs {k : Nat} (hb : b ∈ chunkBufs k) : b.chunk = k := by
  obtain ⟨i, -, rfl⟩ := List.mem_map.mp hb
  rfl

/-- The buffers of a new chunk were nowhere. -/
theorem Placed.carve (h : Placed c chunks) (hi : c' i = chunkBufs chunks ++ c i)
    (hother : ∀ k, k ≠ i → c' k = c k) : Placed c' (chunks + 1) := by
  have hsub : (c' i).Subperm (chunkBufs chunks ++ c i) := hi ▸ .refl _
  refine h.addAll ?_ (fun b hb k hk => ?_) (fun b hb => ?_) (Nat.le_succ _) hsub hother
  · exact List.nodup_range.map fun x y hxy => congrArg Buf.idx hxy
  · have hlt := h.carved k b hk
    rw [mem_chunkBufs hb] at hlt
    exact absurd hlt (Nat.lt_irrefl _)
  · rw [mem_chunkBufs hb]
    exact Nat.lt_succ_self _

end

/-! ### The invariant -/

/-- The buffers that are about to be sent as they are. -/
def GetMsgPC.ready : GetMsgPC → List Buf
  | .send b => [b]
  | .test | .refill _ | .take | .fill _ => []

/-- The one that the code below the handlers is about to send. -/
def Base.ready : Base N → List Buf
  | .getMsg _ pc => pc.ready
  | .other => []

/-- The one that a handler is about to send. -/
def Act.ready : Act N → List Buf
  | .steal b (.send _) => [b]
  | _ => []

/-- All that a thread is about to send. -/
def Thread.ready (c : Thread N) : List Buf := c.acts.flatMap Act.ready ++ c.base.ready

/-- A thread with the list `pool` in the memory `mem`. -/
structure ThreadOk (mem : Buf → BasicMessage N) (c : Thread N) (pool : List Buf) : Prop where
  spells : Spells (fun b => (mem b).next) c.msgPool pool
  ready : ∀ b ∈ c.ready, (mem b).p = some b
  /-- Nothing has polled since the list was found to be empty. -/
  refill : ∀ use chunk, c.base = .getMsg use (.refill chunk) → pool = [] ∧ c.acts = [] ∧
    Spells (fun b => (mem b).next) (some ⟨chunk, 0⟩) (chunkBufs chunk)
  take : ∀ use, c.base = .getMsg use .take → pool ≠ []

/-- The lists of the threads are `pools`, and no buffer has two users. -/
structure Inv (s : State N) (pools : Fin N → List Buf) : Prop where
  placed : Placed (s.place pools) s.chunks
  threads : ∀ t, ThreadOk s.mem (s.threads t) (pools t)
  /-- `i_handler` passes a buffer to the handler that is called for it. -/
  queued : ∀ t, ∀ b ∈ (s.threads t).msgBufs, (s.mem b).p = some b
  races : s.fault ≠ some .raceAllocating ∧ s.fault ≠ some .raceGetting

variable {s : State N} {pools : Fin N → List Buf} {t : Fin N} {c c' : Thread N}
  {mem mem' : Buf → BasicMessage N} {pool pool' : List Buf} {b : Buf}

/-- What a handler is about to send is in its hands. -/
theorem Act.mem_held_of_ready {act : Act N} (h : b ∈ act.ready) : b ∈ act.held := by
  cases act with
  | steal d pc =>
    cases pc with
    | send _ => exact h
    | enter | fail => cases h
  | poll | iHandler | noWork _ _ | fork _ | returnInlet _ => cases h

/-- What the code below the handlers is about to send is in its hands. -/
theorem Base.mem_held_of_ready {base : Base N} (h : b ∈ base.ready) : b ∈ base.held := by
  cases base with
  | other => cases h
  | getMsg use pc =>
    cases pc with
    | send d => exact h
    | test | refill _ | take | fill _ => cases h

/-- The same for all handlers of a thread. -/
theorem flatMap_held_of_ready {acts : List (Act N)} (h : b ∈ acts.flatMap Act.ready) :
    b ∈ acts.flatMap Act.held := by
  obtain ⟨act, hact, hb⟩ := List.mem_flatMap.mp h
  exact List.mem_flatMap.mpr ⟨act, hact, Act.mem_held_of_ready hb⟩

/-- What a thread is about to send is in its hands. -/
theorem Thread.mem_held_of_ready (h : b ∈ c.ready) : b ∈ c.held := by
  rcases List.mem_append.mp h with h | h
  · exact List.mem_append_left _ (flatMap_held_of_ready h)
  · exact List.mem_append_right _ (Base.mem_held_of_ready h)

/-- Only the buffers in the list and in the hands of a thread matter for it. -/
theorem ThreadOk.congr (h : ThreadOk mem c pool) (hmem : ∀ b ∈ pool ++ c.held, mem' b = mem b) :
    ThreadOk mem' c pool where
  spells := h.spells.congr fun b hb => by rw [hmem b (List.mem_append_left _ hb)]
  ready b hb := by
    rw [hmem b (List.mem_append_right _ (Thread.mem_held_of_ready hb))]
    exact h.ready b hb
  refill use chunk hbase := by
    obtain ⟨hpool, hacts, hspells⟩ := h.refill use chunk hbase
    refine ⟨hpool, hacts, hspells.congr fun b hb => ?_⟩
    have hheld : b ∈ c.held := List.mem_append_right _ (by rw [hbase]; exact hb)
    rw [hmem b (List.mem_append_right _ hheld)]
  take := h.take

/-- Nothing polls while the list is refilled, so a handler is never above the refill. -/
theorem ThreadOk.base_ne_refill {act : Act N} {rest : List (Act N)} (h : ThreadOk mem c pool)
    (hacts : c.acts = act :: rest) (use : Use N) (chunk : Nat) :
    c.base ≠ .getMsg use (.refill chunk) := by
  intro hbase
  have hnil := (h.refill use chunk hbase).2.1
  rw [hacts] at hnil
  cases hnil

/-- The buffers that the handlers are about to send point to themselves. -/
theorem ThreadOk.ready_of_acts {acts : List (Act N)} (h : ThreadOk mem c pool)
    (hacts : c.acts = acts) (b : Buf) (hb : b ∈ acts.flatMap Act.ready) : (mem b).p = some b :=
  h.ready b (List.mem_append_left _ (hacts ▸ hb))

/-- A handler has moved. The code below it is where it was. -/
theorem ThreadOk.of_acts {act : Act N} {rest : List (Act N)} (h : ThreadOk mem c pool)
    (hacts : c.acts = act :: rest) (hbase : c'.base = c.base)
    (hspells : Spells (fun b => (mem b).next) c'.msgPool pool') (hpool : pool ≠ [] → pool' ≠ [])
    (hready : ∀ b ∈ c'.acts.flatMap Act.ready, (mem b).p = some b) : ThreadOk mem c' pool' where
  spells := hspells
  ready b hb := by
    rcases List.mem_append.mp hb with hb | hb
    · exact hready b hb
    · exact h.ready b (List.mem_append_right _ (hbase ▸ hb))
  refill use chunk hb := absurd (hbase ▸ hb) (h.base_ne_refill hacts use chunk)
  take use hb := hpool (h.take use (hbase ▸ hb))

/-! ### Changes of one thread -/

/-- The buffers of the other threads stay where they are. -/
theorem place_setThread (pools : Fin N → List Buf) (pool' : List Buf) (k : Place N)
    (hpool : k ≠ .pool t ∨ pool' = pools t)
    (hqueue : k ≠ .queue t ∨ c'.msgBufs = (s.threads t).msgBufs)
    (hheld : k ≠ .held t ∨ c'.held = (s.threads t).held) :
    (s.setThread t c').place (update pools t pool') k = s.place pools k := by
  cases k with
  | pool u =>
    show update pools t pool' u = pools u
    by_cases hu : u = t
    · subst hu
      rw [update_self]
      exact hpool.resolve_left fun hne => hne rfl
    · exact update_of_ne hu _ _
  | queue u =>
    show (update s.threads t c' u).msgBufs = (s.threads u).msgBufs
    by_cases hu : u = t
    · subst hu
      rw [update_self]
      exact hqueue.resolve_left fun hne => hne rfl
    · rw [update_of_ne hu]
  | held u =>
    show (update s.threads t c' u).held = (s.threads u).held
    by_cases hu : u = t
    · subst hu
      rw [update_self]
      exact hheld.resolve_left fun hne => hne rfl
    · rw [update_of_ne hu]

/-- The same when the lists do not change. -/
theorem place_setThread_same (k : Place N)
    (hqueue : k ≠ .queue t ∨ c'.msgBufs = (s.threads t).msgBufs)
    (hheld : k ≠ .held t ∨ c'.held = (s.threads t).held) :
    (s.setThread t c').place pools k = s.place pools k := by
  have hplace := place_setThread pools (pools t) k (.inr rfl) hqueue hheld
  rwa [update_eq_self] at hplace

/-- One thread changes, and its list. Its queue does not grow. -/
theorem Inv.setThread (h : Inv s pools) (t : Fin N) (c' : Thread N) (pool' : List Buf)
    (hplaced : Placed ((s.setThread t c').place (update pools t pool')) s.chunks)
    (hqueue : ∀ b ∈ c'.msgBufs, b ∈ (s.threads t).msgBufs) (hok : ThreadOk s.mem c' pool') :
    Inv (s.setThread t c') (update pools t pool') where
  placed := hplaced
  threads u := by
    show ThreadOk s.mem (update s.threads t c' u) (update pools t pool' u)
    by_cases hu : u = t
    · subst hu
      rw [update_self, update_self]
      exact hok
    · rw [update_of_ne hu, update_of_ne hu]
      exact h.threads u
  queued := (forall_update_iff s.threads fun _ c =>
      ∀ b ∈ c.msgBufs, (s.mem b).p = some b).mpr
    ⟨fun b hb => h.queued t b (hqueue b hb), fun u _ => h.queued u⟩
  races := h.races

/-- The thread holds no new buffer. -/
theorem Inv.keep (h : Inv s pools) (t : Fin N) (c' : Thread N)
    (hheld : c'.held.Subperm (s.threads t).held)
    (hbufs : c'.msgBufs = (s.threads t).msgBufs) (hok : ThreadOk s.mem c' (pools t)) :
    Inv (s.setThread t c') pools := by
  have hsame : update pools t (pools t) = pools := update_eq_self t pools
  have hother : ∀ k, k ≠ .held t → (s.setThread t c').place pools k = s.place pools k :=
    fun k hk => place_setThread_same k (.inr hbufs) (.inl hk)
  have hshrink : ((s.setThread t c').place pools (.held t)).Subperm (s.place pools (.held t)) := by
    show (update s.threads t c' t).held.Subperm _
    rw [update_self]
    exact hheld
  have hset := h.setThread t c' (pools t)
    (by rw [hsame]; exact h.placed.shrink hshrink hother) (by rw [hbufs]; exact fun _ hb => hb) hok
  rwa [hsame] at hset

/-- The buffers that a thread holds and those in its list are divided in another way. -/
theorem Inv.exchangePool (h : Inv s pools) (t : Fin N) (c' : Thread N) (pool' : List Buf)
    (hsum : (pool' ++ c'.held).Subperm (pools t ++ (s.threads t).held))
    (hbufs : c'.msgBufs = (s.threads t).msgBufs) (hok : ThreadOk s.mem c' pool') :
    Inv (s.setThread t c') (update pools t pool') := by
  refine h.setThread t c' pool' ?_ (by rw [hbufs]; exact fun _ hb => hb) hok
  refine h.placed.exchange (i := .pool t) (j := .held t) nofun ?_ fun k hi hj =>
    place_setThread pools pool' k (.inl hi) (.inr hbufs) (.inl hj)
  show (update pools t pool' t ++ (update s.threads t c' t).held).Subperm _
  rw [update_self, update_self]
  exact hsum

/-- `i_handler` gives the first message of the queue to a handler. -/
theorem Inv.receive (h : Inv s pools) (t : Fin N) (c' : Thread N)
    (hsum : (c'.msgBufs ++ c'.held).Subperm ((s.threads t).msgBufs ++ (s.threads t).held))
    (hsub : ∀ b ∈ c'.msgBufs, b ∈ (s.threads t).msgBufs) (hok : ThreadOk s.mem c' (pools t)) :
    Inv (s.setThread t c') pools := by
  have hsame : update pools t (pools t) = pools := update_eq_self t pools
  have hset := h.setThread t c' (pools t) ?_ hsub hok
  · rwa [hsame] at hset
  · refine h.placed.exchange (i := .queue t) (j := .held t) nofun ?_ fun k hi hj =>
      place_setThread pools _ k (.inr rfl) (.inl hi) (.inl hj)
    show ((update s.threads t c' t).msgBufs ++
      (update s.threads t c' t).held).Subperm _
    rw [update_self]
    exact hsum

/-! ### Sends and writes -/

/-- `SENDI` of a buffer that its thread no longer holds. -/
theorem Inv.sendI (h : Inv s pools) (target : Fin N) (hb : ∀ k, b ∉ s.place pools k)
    (hchunk : b.chunk < s.chunks) (hp : (s.mem b).p = some b) : Inv (s.sendI b target) pools where
  placed := by
    refine h.placed.add (i := .queue target) hb hchunk ?_ fun k hk =>
      place_setThread_same k (.inl hk) (.inr rfl)
    show (update s.threads target _ target).msgBufs.Subperm _
    rw [update_self]
    exact (List.perm_append_singleton b _).subperm
  threads := by
    have hok := h.threads target
    exact (forall_update_iff s.threads fun u c => ThreadOk s.mem c (pools u)).mpr
      ⟨⟨hok.spells, hok.ready, hok.refill, hok.take⟩, fun u _ => h.threads u⟩
  queued := by
    refine (forall_update_iff s.threads fun _ c =>
      ∀ b ∈ c.msgBufs, (s.mem b).p = some b).mpr ⟨fun d hd => ?_, fun u _ => h.queued u⟩
    rcases List.mem_append.mp hd with hd | hd
    · exact h.queued target d hd
    · rw [List.mem_singleton.mp hd]
      exact hp
  races := h.races

/-- A thread that does not refill its list writes a buffer that it holds. -/
theorem Inv.write (h : Inv s pools) (msg : BasicMessage N) (hb : b ∈ (s.threads t).held)
    (hbase : ∀ use chunk, (s.threads t).base ≠ .getMsg use (.refill chunk))
    (hp : msg.p = (s.mem b).p ∨ msg.p = some b) : Inv (s.setMsg b msg) pools := by
  have hmem : ∀ d, d ≠ b → update s.mem b msg d = s.mem d := fun d hd =>
    update_of_ne hd _ _
  -- the buffer is in the hands of `t`, so it is in no other place
  have haway : ∀ k, k ≠ .held t → ∀ d ∈ s.place pools k, d ≠ b := by
    rintro k hk d hd rfl
    exact hk (h.placed.apart.unique hd hb)
  refine ⟨h.placed, fun u => ?_, fun u d hd => ?_, h.races⟩
  · by_cases hu : u = t
    · subst hu
      have hok := h.threads u
      refine ⟨hok.spells.congr fun d hd => ?_, fun d hd => ?_, fun use chunk hr => ?_, hok.take⟩
      · exact congrArg BasicMessage.next (hmem d (haway (.pool u) nofun d hd))
      · show (update s.mem b msg d).p = some d
        by_cases hdb : d = b
        · subst hdb
          rw [update_self]
          rcases hp with hp | hp
          · exact hp.trans (hok.ready d hd)
          · exact hp
        · rw [hmem d hdb]
          exact hok.ready d hd
      · exact absurd hr (hbase use chunk)
    -- the buffers of another thread are not written
    · refine (h.threads u).congr fun d hd => hmem d ?_
      rcases List.mem_append.mp hd with hd | hd
      · exact haway (.pool u) nofun d hd
      · exact haway (.held u) (fun he => hu (Place.held.inj he)) d hd
  · show (update s.mem b msg d).p = some d
    rw [hmem d (haway (.queue u) nofun d hd)]
    exact h.queued u d hd

/-- A fault other than the two assertions. -/
theorem Inv.fail (h : Inv s pools) {e : Fault} (halloc : e ≠ .raceAllocating)
    (hget : e ≠ .raceGetting) : Inv (s.fail e) pools :=
  ⟨h.placed, h.threads, h.queued, fun he => halloc (Option.some.inj he),
    fun he => hget (Option.some.inj he)⟩

/-- `myeui` can put a poll on top, or end the process before the thread has moved. -/
theorem Inv.eui (h : Inv s pools) {pools' : Fin N → List Buf} (h' : Inv (s.setThread t c) pools')
    (hbase : ∀ use chunk, c.base ≠ .getMsg use (.refill chunk)) :
    ∃ pools', Inv (s.eui t c) pools' := by
  -- the invariant does not depend on the polls, the flag and the count
  have hpush : ∀ c' : Thread N, c'.base = c.base → c'.msgPool = c.msgPool →
      c'.msgBufs = c.msgBufs → c'.held = c.held → c'.ready = c.ready →
      Inv (s.setThread t c') pools' := by
    intro c' hb hpool hbufs hheld hready
    have hcore : (s.setThread t c).threads t = c := update_self ..
    have hok := h'.threads t
    rw [hcore] at hok
    have hkeep := h'.keep t c' (by rw [hheld, hcore]) (by rw [hbufs, hcore])
      ⟨hpool ▸ hok.spells, hready ▸ hok.ready,
        fun use chunk hr => absurd (hb ▸ hr) (hbase use chunk),
        fun use ht => hok.take use (hb ▸ ht)⟩
    have hidem : (s.setThread t c).setThread t c' = s.setThread t c' := by
      simp only [State.setThread, update_idem]
    rwa [hidem] at hkeep
  unfold State.eui Thread.myeui
  cases hunmask : c.mask.unmask .poll c.acts with
  | none => exact ⟨pools, h.fail nofun nofun⟩
  | some r =>
    have hacts : ∀ f : Act N → List Buf, f .poll = [] → r.2.flatMap f = c.acts.flatMap f := by
      intro f hpoll
      rcases Uli.Mask.unmask_acts hunmask with hacts | hacts
      · rw [hacts]
      · rw [hacts, List.flatMap_cons, hpoll, List.nil_append]
    exact ⟨pools', hpush _ rfl rfl rfl (congrArg (· ++ _) (hacts Act.held rfl))
      (congrArg (· ++ _) (hacts Act.ready rfl))⟩

/-- A thread sends a buffer that it holds, and goes on without it. -/
theorem Inv.send (h : Inv s pools) (t : Fin N) (c' : Thread N) (target : Fin N)
    (hheld : (s.threads t).held = b :: c'.held)
    (hbufs : c'.msgBufs = (s.threads t).msgBufs) (hok : ThreadOk s.mem c' (pools t))
    (hp : (s.mem b).p = some b) : Inv ((s.setThread t c').sendI b target) pools := by
  have hb : b ∈ s.place pools (.held t) := by
    show b ∈ (s.threads t).held
    rw [hheld]
    exact List.mem_cons_self
  have hkeep := h.keep t c' (by rw [hheld]; exact (List.sublist_cons_self _ _).subperm)
    hbufs hok
  refine hkeep.sendI target (fun k hk => ?_) (h.placed.carved _ b hb) hp
  -- `t` held the buffer once, so it is in no place now
  by_cases hkt : k = .held t
  · subst hkt
    have hk : b ∈ (update s.threads t c' t).held := hk
    rw [update_self] at hk
    have hnodup := h.placed.apart.nodup (.held t)
    have hnodup : (s.threads t).held.Nodup := hnodup
    rw [hheld] at hnodup
    exact (List.nodup_cons.mp hnodup).1 hk
  · rw [place_setThread_same k (.inr hbufs) (.inl hkt)] at hk
    exact hkt (h.placed.apart.unique hk hb)

/-! ### A new chunk -/

/-- The loop writes to its own chunk only. -/
theorem linkLoop_of_ne {k : Nat} (hb : b.chunk ≠ k) (i : Nat) : linkLoop mem k i b = mem b := by
  induction i with
  | zero => rfl
  | succ i ih =>
    rw [linkLoop, setNext, update_of_ne, ih]
    rintro rfl
    exact hb rfl

/-- The loop has linked the buffers below its counter. -/
theorem linkLoop_next {k i j : Nat} (hj : j < i) :
    (linkLoop mem k i ⟨k, j⟩).next = some ⟨k, j + 1⟩ := by
  induction i with
  | zero => cases hj
  | succ i ih =>
    rw [linkLoop, setNext]
    by_cases hji : j = i
    · subst hji
      rw [update_self]
    · have hne : Buf.mk k j ≠ ⟨k, i⟩ := fun he => hji (congrArg Buf.idx he)
      rw [update_of_ne hne]
      exact ih (by omega)

section
variable [NeZero N]

/-- The buffers of the earlier chunks are as before. -/
theorem newChunk_of_ne {k : Nat} (hb : b.chunk ≠ k) : newChunk mem k b = mem b := by
  rw [newChunk, setNext, update_of_ne, linkLoop_of_ne hb, callocChunk, if_neg hb]
  rintro rfl
  exact hb rfl

/-- A new chunk is linked in the order of its buffers, and the last one ends the list. -/
theorem newChunk_next {k j : Nat} (hj : j < allocCount) :
    (newChunk mem k ⟨k, j⟩).next =
      if j + 1 < allocCount then some ⟨k, j + 1⟩ else none := by
  have hcount : allocCount = 10 := rfl
  rw [newChunk, setNext]
  by_cases hlast : j = allocCount - 1
  · subst hlast
    rw [update_self, if_neg (by omega)]
  · have hne : Buf.mk k j ≠ ⟨k, allocCount - 1⟩ := fun he => hlast (congrArg Buf.idx he)
    rw [update_of_ne hne, linkLoop_next (by omega), if_pos (by omega)]

/-- The buffers of a new chunk from the one at `i` on, with `m` of them left. -/
theorem spells_newChunk_from {k : Nat} (m i : Nat) (hm : i + m = allocCount) :
    Spells (fun b => (newChunk mem k b).next) (if i < allocCount then some ⟨k, i⟩ else none)
      ((List.range' i m).map (Buf.mk k)) := by
  induction m generalizing i with
  | zero =>
    rw [if_neg (by omega)]
    rfl
  | succ m ih =>
    rw [if_pos (by omega)]
    refine ⟨rfl, ?_⟩
    show Spells _ (newChunk mem k ⟨k, i⟩).next _
    rw [newChunk_next (by omega)]
    exact ih (i + 1) (by omega)

/-- The new chunk is a list of all its buffers. -/
theorem spells_newChunk (k : Nat) :
    Spells (fun b => (newChunk mem k b).next) (some ⟨k, 0⟩) (chunkBufs k) := by
  rw [chunkBufs, List.range_eq_range']
  exact spells_newChunk_from allocCount 0 (by omega)

omit [NeZero N] in
/-- The list of a thread is empty when its pointer is null. -/
theorem ThreadOk.pool_eq_nil (h : ThreadOk mem c pool) (hpool : c.msgPool = none) : pool = [] := by
  have hspells := h.spells
  rw [hpool] at hspells
  cases pool with
  | nil => rfl
  | cons b l => cases hspells.1

omit [NeZero N] in
/-- The first buffer of a list that is not empty. -/
theorem ThreadOk.pool_eq_cons (h : ThreadOk mem c pool) (hpool : c.msgPool = some b) :
    ∃ l, pool = b :: l ∧ Spells (fun b => (mem b).next) (mem b).next l := by
  have hspells := h.spells
  rw [hpool] at hspells
  cases pool with
  | nil => cases hspells
  | cons d l =>
    obtain ⟨hd, hl⟩ := hspells
    cases hd
    exact ⟨l, rfl, hl⟩

/-- `getMsg` has found the list empty, and has linked a new chunk. -/
theorem Inv.carve (h : Inv s pools) {use : Use N} (hacts : (s.threads t).acts = [])
    (hbase : (s.threads t).base.held = []) (hpool : (s.threads t).msgPool = none) :
    Inv { s.setThread t ((s.threads t).goto (.getMsg use (.refill s.chunks))) with
      mem := newChunk s.mem s.chunks, chunks := s.chunks + 1 } pools := by
  have hempty : pools t = [] := (h.threads t).pool_eq_nil hpool
  -- the buffers in the places are all from earlier chunks
  have hmem : ∀ k, ∀ b ∈ s.place pools k, newChunk s.mem s.chunks b = s.mem b := fun k b hb =>
    newChunk_of_ne (Nat.ne_of_lt (h.placed.carved k b hb))
  refine ⟨?_, fun u => ?_, fun u b hb => ?_, h.races⟩
  · refine h.placed.carve (i := .held t) ?_ fun k hk => place_setThread_same k (.inr rfl) (.inl hk)
    show (update s.threads t _ t).held = chunkBufs s.chunks ++ (s.threads t).held
    rw [update_self, Thread.held, Thread.held, hbase, List.append_nil]
    show (s.threads t).acts.flatMap Act.held ++ chunkBufs s.chunks = _
    rw [hacts]
    simp
  · show ThreadOk _ (update s.threads t _ u) (pools u)
    by_cases hu : u = t
    · subst hu
      rw [update_self, hempty]
      refine ⟨hpool, fun b hb => ?_, fun use' chunk he => ?_, nofun⟩
      · have hb : b ∈ (s.threads u).acts.flatMap Act.ready ++ [] := hb
        rw [hacts] at hb
        cases hb
      · cases he
        exact ⟨rfl, hacts, spells_newChunk s.chunks⟩
    · rw [update_of_ne hu]
      -- the other threads have buffers of earlier chunks only
      refine (h.threads u).congr fun b hb => ?_
      rcases List.mem_append.mp hb with hb | hb
      · exact hmem (.pool u) b hb
      · exact hmem (.held u) b hb
  · have hsame : (s.setThread t ((s.threads t).goto (.getMsg use (.refill s.chunks)))).place pools
        (.queue u) = s.place pools (.queue u) := place_setThread_same _ (.inr rfl) (.inl nofun)
    have hold : b ∈ s.place pools (.queue u) := by
      rw [← hsame]
      exact hb
    show (newChunk s.mem s.chunks b).p = some b
    rw [hmem (.queue u) b hold]
    exact h.queued u b hold

/-! ### Steps -/

omit [NeZero N] in
/-- A thread in `getMsg` with nothing on top. -/
theorem threadOk_of_base {base : Base N} (hacts : c.acts = [])
    (hspells : Spells (fun b => (mem b).next) c.msgPool pool)
    (hready : ∀ b ∈ base.ready, (mem b).p = some b)
    (hbase : ∀ use chunk, base ≠ .getMsg use (.refill chunk))
    (htake : ∀ use, base = .getMsg use .take → pool ≠ []) : ThreadOk mem (c.goto base) pool where
  spells := hspells
  ready b hb := by
    have hb : b ∈ c.acts.flatMap Act.ready ++ base.ready := hb
    rw [hacts] at hb
    exact hready b hb
  refill use chunk he := absurd he (hbase use chunk)
  take := htake

omit [NeZero N] in
/-- Without handlers, a thread holds what the code below them holds. -/
theorem held_of_acts_nil (hacts : c.acts = []) : c.held = c.base.held := by
  rw [Thread.held, hacts]
  rfl

omit [NeZero N] in
/-- A thread holds what its topmost handler holds, and the rest. -/
theorem held_of_acts_cons {act : Act N} {rest : List (Act N)} (hacts : c.acts = act :: rest) :
    c.held = act.held ++ (c.setActs rest).held := by
  rw [Thread.held, hacts, List.flatMap_cons, List.append_assoc]
  rfl

/-- Every step of `getMsg` keeps the invariant. -/
theorem Inv.getMsgStep (h : Inv s pools) {use : Use N} {pc : GetMsgPC}
    (hacts : (s.threads t).acts = []) (hbase : (s.threads t).base = .getMsg use pc) :
    ∃ pools', Inv (MsgPool.getMsgStep s t use pc) pools' := by
  have hok := h.threads t
  have hheld : (s.threads t).held = pc.held := by
    rw [held_of_acts_nil hacts, hbase]
    rfl
  have hnew : ∀ base : Base N, ((s.threads t).goto base).held = base.held := fun base =>
    held_of_acts_nil hacts
  have hmoved : ∀ (msgPool : Option Buf) (base : Base N),
      (((s.threads t).mydui.setPool msgPool).goto base).held = base.held := fun _ _ =>
    held_of_acts_nil hacts
  cases pc with
  | test =>
    unfold MsgPool.getMsgStep
    dsimp only
    split
    · rename_i hpool
      exact ⟨pools, h.carve hacts (by rw [hbase]; rfl) hpool⟩
    · rename_i hpool
      refine ⟨pools, h.keep t _ (by rw [hnew, hheld]; exact .refl _) rfl ?_⟩
      refine threadOk_of_base hacts hok.spells nofun nofun fun _ _ hnil => hpool ?_
      have hspells := hok.spells
      rw [hnil] at hspells
      exact hspells
  | refill chunk =>
    -- the thread has not polled since the test, so the list is still empty
    obtain ⟨hnil, -, hchunk⟩ := hok.refill use chunk hbase
    unfold MsgPool.getMsgStep
    dsimp only
    split
    · have hset := h.exchangePool t
        (((s.threads t).mydui.setPool (some ⟨chunk, 0⟩)).goto (.getMsg use .take))
        (chunkBufs chunk) ?_ rfl (threadOk_of_base hacts hchunk nofun nofun fun _ _ => nofun)
      · exact h.eui hset nofun
      · rw [hnil, hheld, hmoved]
        show (chunkBufs chunk ++ []).Subperm (chunkBufs chunk)
        rw [List.append_nil]
    · rename_i hpool
      have hspells := hok.spells
      rw [hnil] at hspells
      exact absurd hspells hpool
  | take =>
    unfold MsgPool.getMsgStep
    dsimp only
    split
    · rename_i b hpool
      obtain ⟨l, hl, hspells⟩ := hok.pool_eq_cons hpool
      have hset := h.exchangePool t
        (((s.threads t).mydui.setPool (s.mem b).next).goto (.getMsg use (.fill b))) l ?_ rfl
        (threadOk_of_base hacts hspells nofun nofun nofun)
      · exact h.eui hset nofun
      · rw [hl, hheld, hmoved]
        show (l ++ [b]).Subperm (b :: l ++ [])
        rw [List.append_nil]
        exact (List.perm_append_singleton b l).subperm
    · -- only the thread itself takes buffers out of its list
      rename_i hpool
      exact absurd (hok.pool_eq_nil hpool) (hok.take use hbase)
  | fill b =>
    have hb : b ∈ (s.threads t).held := by
      rw [hheld]
      exact List.mem_cons_self
    have hwrite := h.write { s.mem b with callback := some use.handler, p := some b } hb
      (by rw [hbase]; exact nofun) (.inr rfl)
    refine ⟨pools, hwrite.keep t _ (by rw [hnew]; exact hheld ▸ .refl _) rfl ?_⟩
    refine threadOk_of_base hacts (hwrite.threads t).spells (fun d hd => ?_) nofun nofun
    rw [List.mem_singleton.mp hd]
    show (update s.mem b _ b).p = some b
    rw [update_self]
  | send b =>
    have hb : b ∈ (s.threads t).held := by
      rw [hheld]
      exact List.mem_cons_self
    have hp : (s.mem b).p = some b := by
      refine hok.ready b (List.mem_append_right _ ?_)
      rw [hbase]
      exact List.mem_cons_self
    have hfrom : (use.setFrom t (s.mem b)).p = (s.mem b).p := by cases use <;> rfl
    have hwrite := h.write _ hb (by rw [hbase]; exact nofun) (.inl hfrom)
    refine ⟨pools, hwrite.send t ((s.threads t).goto .other) (use.target t) ?_ rfl ?_ ?_⟩
    · rw [hnew]
      exact hheld
    · exact threadOk_of_base hacts (hwrite.threads t).spells nofun nofun nofun
    · show (update s.mem b _ b).p = some b
      rw [update_self, hfrom, hp]

end

/-- The topmost poll or handler goes on. What it leaves in the hands of the thread and what is
ready to be sent is told by the new `acts`. -/
theorem Inv.setActs (h : Inv s pools) {act : Act N} {acts rest : List (Act N)}
    (hacts : (s.threads t).acts = act :: rest) (hc : c'.acts = acts)
    (hbase : c'.base = (s.threads t).base) (hpool : c'.msgPool = (s.threads t).msgPool)
    (hbufs : c'.msgBufs = (s.threads t).msgBufs)
    (hheld : (acts.flatMap Act.held).Subperm ((act :: rest).flatMap Act.held))
    (hready : ∀ b ∈ acts.flatMap Act.ready, (s.mem b).p = some b) :
    Inv (s.setThread t c') pools := by
  have hok := h.threads t
  refine h.keep t c' ?_ hbufs (hok.of_acts hacts hbase (hpool ▸ hok.spells) id (hc ▸ hready))
  rw [Thread.held, Thread.held, hc, hbase, hacts]
  exact (List.subperm_append_right _).mpr hheld

/-- The handler of a message gets its buffer. -/
theorem handlerOf_held (b : Buf) (callback : Steal.Callback) :
    (handlerOf b callback : Act N).held = [b] := by
  cases callback <;> rfl

/-- It is not about to send it yet. -/
theorem handlerOf_ready (b : Buf) (callback : Steal.Callback) :
    (handlerOf b callback : Act N).ready = [] := by
  cases callback <;> rfl

/-- A handler returns. -/
theorem Inv.returns (h : Inv s pools) {act : Act N} {rest : List (Act N)}
    (hacts : (s.threads t).acts = act :: rest) :
    Inv (s.setThread t ((s.threads t).setActs rest)) pools := by
  refine h.setActs hacts rfl rfl rfl rfl ?_ fun b hb => ?_
  · rw [List.flatMap_cons]
    exact (List.sublist_append_right _ _).subperm
  · exact (h.threads t).ready_of_acts hacts b (List.mem_append_right _ hb)

/-- Every step of `stealHandler` keeps the invariant. -/
theorem Inv.stealStep (h : Inv s pools) {found : Bool} {pc : Steal.StealPC N}
    {rest : List (Act N)} (hacts : (s.threads t).acts = .steal b pc :: rest) :
    ∃ pools', Inv (MsgPool.stealStep s t rest found b pc) pools' := by
  have hok := h.threads t
  have hheld : (s.threads t).held = b :: ((s.threads t).setActs rest).held :=
    held_of_acts_cons hacts
  have hb : b ∈ (s.threads t).held := by
    rw [hheld]
    exact List.mem_cons_self
  have hbase := hok.base_ne_refill hacts
  have hrest : ∀ d ∈ rest.flatMap Act.ready, (s.mem d).p = some d := fun d hd =>
    hok.ready_of_acts hacts d (List.mem_append_right _ hd)
  -- `setupMsgBuffer` with either handler
  have hsetup : ∀ handler, Inv (s.setupMsgBuffer t b handler) pools := fun handler =>
    h.write _ hb hbase (.inr rfl)
  have hself : ∀ handler, ((s.setupMsgBuffer t b handler).mem b).p = some b := by
    intro handler
    show (update s.mem b _ b).p = some b
    rw [update_self]
  -- the handler holds the buffer once, so what is below it does not see the write
  have hnotin : b ∉ ((s.threads t).setActs rest).held := by
    have hnodup : (s.threads t).held.Nodup := h.placed.apart.nodup (.held t)
    rw [hheld] at hnodup
    exact (List.nodup_cons.mp hnodup).1
  have hrest' : ∀ handler, ∀ d ∈ rest.flatMap Act.ready,
      ((s.setupMsgBuffer t b handler).mem d).p = some d := by
    intro handler d hd
    have hdb : d ≠ b := by
      rintro rfl
      exact hnotin (List.mem_append_left _ (flatMap_held_of_ready hd))
    show (update s.mem b _ d).p = some d
    rw [update_of_ne hdb]
    exact hrest d hd
  cases pc with
  | enter =>
    unfold MsgPool.stealStep
    dsimp only
    split
    · have hs := hsetup .forkHandler
      refine hs.eui (hs.setActs hacts rfl rfl rfl rfl (.refl _) fun d hd => ?_) hbase
      rcases List.mem_cons.mp hd with rfl | hd
      · exact hself .forkHandler
      · exact hrest' .forkHandler d hd
    · exact h.eui (h.setActs hacts rfl rfl rfl rfl (.refl _) hrest) hbase
  | fail =>
    have hs := hsetup .noWorkHandler
    refine ⟨pools, hs.send t ((s.threads t).setActs rest) _ hheld rfl ?_
      (hself .noWorkHandler)⟩
    exact (hs.threads t).of_acts hacts rfl (hs.threads t).spells id (hrest' .noWorkHandler)
  | send dest =>
    have hp : (s.mem b).p = some b := hok.ready_of_acts hacts b List.mem_cons_self
    refine ⟨pools, h.send t ((s.threads t).setActs rest) dest hheld rfl ?_ hp⟩
    exact hok.of_acts hacts rfl hok.spells id hrest

/-- `freeMsgBuffer` puts the buffer of a handler in front of the list. -/
theorem Inv.freeMsgBuffer (h : Inv s pools) {rest : List (Act N)}
    (hacts : (s.threads t).acts = .noWork b false :: rest) :
    ∃ pools', Inv (({ s with mem := setNext s.mem b (s.threads t).msgPool } : State N).eui t
      (((s.threads t).mydui.setPool (some b)).setActs (.noWork b true :: rest))) pools' := by
  have hok := h.threads t
  have hheld : (s.threads t).held = b :: ((s.threads t).setActs rest).held :=
    held_of_acts_cons hacts
  have hb : b ∈ (s.threads t).held := by
    rw [hheld]
    exact List.mem_cons_self
  have hbase := hok.base_ne_refill hacts
  have hs := h.write { s.mem b with next := (s.threads t).msgPool } hb hbase (.inl rfl)
  have hok' := hs.threads t
  -- the buffer points to what was the first one of the list
  have hspells : Spells (fun d => (setNext s.mem b (s.threads t).msgPool d).next) (some b)
      (b :: pools t) := by
    refine ⟨rfl, ?_⟩
    show Spells _ (update s.mem b _ b).next _
    rw [update_self]
    exact hok'.spells
  have hset := hs.exchangePool t
    (((s.threads t).mydui.setPool (some b)).setActs (.noWork b true :: rest)) (b :: pools t)
    ?_ rfl ?_
  · exact hs.eui hset hbase
  -- the buffer goes from the hands of the thread to its list
  · show (b :: pools t ++ ((s.threads t).setActs rest).held).Subperm
      (pools t ++ (s.threads t).held)
    rw [hheld]
    exact List.perm_middle.symm.subperm
  · exact hok'.of_acts hacts rfl hspells (fun _ => nofun) fun d hd =>
      hok'.ready_of_acts hacts d hd

/-- Every step of a poll or a handler keeps the invariant. -/
theorem Inv.actStep (h : Inv s pools) {found : Bool} {act : Act N} {rest : List (Act N)}
    (hacts : (s.threads t).acts = act :: rest) :
    ∃ pools', Inv (MsgPool.actStep s t rest found act) pools' := by
  have hok := h.threads t
  have hready := hok.ready_of_acts hacts
  cases act with
  | poll =>
    rw [actStep_poll]
    split
    · exact ⟨pools, h.returns hacts⟩
    · exact ⟨pools, h.setActs hacts rfl rfl rfl rfl (.refl _) hready⟩
  | iHandler =>
    rw [actStep_iHandler]
    split
    · exact ⟨pools, h.returns hacts⟩
    · rename_i b msgBufs hbufs
      have hp : (s.mem b).p = some b :=
        h.queued t b (by rw [hbufs]; exact List.mem_cons_self)
      split
      · rename_i callback p _ hp'
        cases hp.symm.trans hp'
        refine ⟨pools, h.receive t _ ?_ (fun d hd => ?_) ?_⟩
        · rw [hbufs, Thread.held, Thread.held, hacts]
          show (msgBufs ++ ((handlerOf b callback).held ++ _ ++ _)).Subperm _
          rw [handlerOf_held]
          exact List.perm_middle.subperm
        · rw [hbufs]
          exact List.mem_cons_of_mem b hd
        · refine hok.of_acts hacts rfl hok.spells id fun d hd => ?_
          have hd : d ∈ (handlerOf b callback : Act N).ready ++
              (Act.iHandler :: rest).flatMap Act.ready := hd
          rw [handlerOf_ready] at hd
          exact hready d hd
      · exact ⟨pools, h.fail nofun nofun⟩
  | steal b pc => exact h.stealStep hacts
  | noWork b freed =>
    cases freed with
    | false => exact h.freeMsgBuffer hacts
    | true => exact ⟨pools, h.returns hacts⟩
  | fork b =>
    -- the thread runs the stolen seed, and what was below the handler is gone
    refine ⟨pools, h.keep t _ List.nil_subperm rfl ?_⟩
    exact threadOk_of_base (c := (s.threads t).setActs []) rfl hok.spells nofun nofun nofun
  | returnInlet b => exact ⟨pools, h.returns hacts⟩

/-- Every step of a thread keeps the invariant. -/
theorem Inv.step [NeZero N] (h : Inv s pools) {a : Fin N × Action N} {s' : State N}
    (hs : MsgPool.step s a = some s') : ∃ pools', Inv s' pools' := by
  obtain ⟨t, action⟩ := a
  unfold MsgPool.step at hs
  dsimp only at hs
  split at hs
  · cases hs
  · have hok := h.threads t
    have hsame : ThreadOk s.mem (s.threads t).mydui (pools t) :=
      ⟨hok.spells, hok.ready, hok.refill, hok.take⟩
    split at hs
    -- the topmost handler first, then `getMsg`, then the program
    · rename_i act rest found hacts
      cases hs
      exact h.actStep hacts
    · rename_i use pc _ hacts hbase
      cases hs
      exact h.getMsgStep hacts hbase
    · rename_i hacts hbase
      cases hs
      refine ⟨pools, h.keep t _ ?_ rfl ⟨hok.spells, ?_, ?_, ?_⟩⟩
      · rw [held_of_acts_nil hacts]
        exact .refl _
      · show ∀ b ∈ (s.threads t).base.ready, _
        rw [hbase]
        nofun
      · rw [show ((s.threads t).setActs [.poll]).base = .other from hbase]
        nofun
      · rw [show ((s.threads t).setActs [.poll]).base = .other from hbase]
        nofun
    · cases hs
      exact ⟨pools, h.keep t _ (.refl _) rfl hsame⟩
    · rename_i hacts hbase
      cases hs
      exact h.eui (h.keep t _ (.refl _) rfl hok) (by rw [hbase]; exact nofun)
    · rename_i use hacts hbase
      cases hs
      have hnew : ((s.threads t).goto (.getMsg use .test)).held = [] := held_of_acts_nil hacts
      refine ⟨pools, h.keep t _ ?_ rfl (threadOk_of_base hacts hok.spells nofun nofun nofun)⟩
      rw [hnew]
      exact List.nil_subperm
    · cases hs

/-- At the start there are no buffers. -/
theorem inv_initial (N : Nat) [NeZero N] : Inv (initial N) fun _ => [] where
  placed := by
    refine ⟨⟨fun i => ?_, fun {i j a} hi _ => ?_⟩, fun i b hb => ?_⟩
    · cases i <;> exact List.nodup_nil
    · cases i <;> cases hi
    · cases i <;> cases hb
  threads _ := ⟨rfl, nofun, nofun, nofun⟩
  queued _ := nofun
  races := ⟨nofun, nofun⟩

/-- After any run of any number of threads, there are lists of buffers such that

- the list of each thread is what `next` spells from its `msgPool` on, up to `NULL`;
- a buffer is in one of these lists, in one of the message queues or in the hands of one thread,
  and it is there once, so it is held by one handler or by the code below the handlers;
- neither of the two assertions of `getMsg` has failed. -/
theorem buffers_not_shared [NeZero N] {as : List (Fin N × Action N)}
    (hrun : run step (initial N) as = some s) :
    ∃ pools : Fin N → List Buf,
      (∀ t, Spells (fun b => (s.mem b).next) (s.threads t).msgPool (pools t)) ∧
      Apart (s.place pools) ∧
      s.fault ≠ some .raceAllocating ∧ s.fault ≠ some .raceGetting := by
  obtain ⟨pools, h⟩ := run_induction (I := fun s => ∃ pools, Inv s pools)
    (fun s a s' hI hs => hI.elim fun _ h => h.step hs) as _ _ ⟨_, inv_initial N⟩ hrun
  exact ⟨pools, fun t => (h.threads t).spells, h.placed.apart, h.races⟩

end

/-- A thread goes on, and its `stealHandler` finds no seed. -/
def goes {N : Nat} (t : Fin N) (n : Nat) : List (Fin N × Action N) :=
  List.replicate n (t, .go false)

/-- The thread 0 sends a request to the thread 1, which has no work. The buffer comes back and is
freed. -/
def requestFails : List (Fin 2 × Action 2) :=
  List.flatten [(0, .getMsg (.steal 1)) :: goes 0 9, (1, .poll) :: goes 1 6,
    (0, .poll) :: goes 0 3]

theorem buffers_not_shared_requestFails :
    ∃ s, run step (initial 2) requestFails = some s ∧ (s.threads 0).msgPool = some ⟨0, 0⟩ ∧
      (s.threads 1).msgBufs = [] ∧ ∃ pools : Fin 2 → List Buf,
        Spells (fun b => (s.mem b).next) (s.threads 0).msgPool (pools 0) ∧
        Apart (s.place pools) := by
  have h : (run step (initial 2) requestFails).map (fun s => decide
      ((s.threads 0).msgPool = some ⟨0, 0⟩ ∧ (s.threads 1).msgBufs = [])) = some true := by
    decide +kernel
  obtain ⟨s, hrun, hs⟩ := Option.map_eq_some_iff.mp h
  obtain ⟨hpool, hbufs⟩ := of_decide_eq_true hs
  obtain ⟨pools, hspells, hapart, -, -⟩ := buffers_not_shared hrun
  exact ⟨s, hrun, hpool, hbufs, pools, hspells 0, hapart⟩

end Stacklets.MsgPool

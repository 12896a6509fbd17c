import Stacklets.Lib.Runs
import Stacklets.Mythreads.Counters
import Stacklets.Util.Numerals

/-!
# `Stacklets.Mythreads.Fifo`: the shared buffer is a linearizable bounded FIFO queue

A call of `sbuf_insert` that returns 1 takes effect when it updates `rear`, and a call of
`sbuf_remove` takes effect when it updates `front`. In these orders the buffer is a queue of at
most `n` items. `SlotsOk` says that the items which are not removed yet are in their cells. It
needs that no counter wraps: with fewer than `2 ^ 31 - 1` inserts every index is positive.

`sbuf_fifo` is the state of the buffer after every run.
-/

set_option autoImplicit false

namespace Stacklets.Mythreads

open Lib

section
variable {T I : Type*} {n : Capacity} {num : Nat}

/-! ### Cells -/

/-- The cell of the item at position `k`, counted from 0. -/
def slot (n : Capacity) (k : Nat) : Int := cell n (BitVec.ofNat 32 (k + 1))

/-- As long as the counters do not wrap, the cells are used in turn. -/
theorem slot_eq {k : Nat} (hk : k + 1 < 2 ^ 31) : slot n k = ((k + 1) % n.val : Nat) := by
  have htoInt : (BitVec.ofNat 32 (k + 1)).toInt = ((k + 1 : Nat) : Int) := by
    have htoNat : (BitVec.ofNat 32 (k + 1)).toNat = k + 1 := by
      rw [BitVec.toNat_ofNat]
      omega
    rw [BitVec.toInt_eq_toNat_of_lt (by omega), htoNat]
  rw [slot, cell, htoInt]
  exact Int.ofNat_tmod _ _

/-- Two items less than `n` positions apart have different cells. -/
theorem slot_ne {k p : Nat} (hkp : k < p) (hp : p < k + n.val) (hint : p + 1 < 2 ^ 31) :
    slot n k ≠ slot n p := by
  rw [slot_eq hint, slot_eq (by omega)]
  intro heq
  have hmod : (k + 1) % n.val = (p + 1) % n.val := by exact_mod_cast heq
  -- `n` would divide the distance, which is positive and less than `n`
  have hdvd : n.val ∣ (p + 1) - (k + 1) := (Nat.modEq_iff_dvd' (by omega)).mp hmod
  have := Nat.le_of_dvd (by omega) hdvd
  omega

/-! ### The items are in their cells -/

/-- The items that are not counted as removed are in their cells, and the items taken are the
first ones put, also the one that is just being taken. -/
structure Shared.SlotsOk (n : Capacity) (s : Shared T I) (φ : Option (RemovePC I)) : Prop where
  stored : Stores s.buf (slot n) s.put s.removals
  taken : s.taken <+: s.put
  next : ∀ p item, φ = some (.testTrial p item) ∨ φ = some (.setFront p item) →
    s.put[s.taken.length]? = some item

variable [DecidableEq T] {t : T} {item : I} {s s' : Shared T I} {pc : InsertPC}
  {out : InsertOut} {rpc : RemovePC I} {rout : RemoveOut I} {ρ : Option (I × InsertPC)}
  {φ : Option (RemovePC I)}

/-- The cell that the next insert writes to, when there is room, is not the one of an item
that is needed. -/
def Shared.NextFree (n : Capacity) (s : Shared T I) : Prop :=
  s.put.length < s.removals + n.val →
    ∀ k, s.removals ≤ k → k < s.put.length → slot n k ≠ slot n s.put.length

omit [DecidableEq T] in
theorem Shared.nextFree_of_lt (hint : s.put.length < 2 ^ 31 - 1) : s.NextFree n := by
  intro hroom k hk hlt
  exact slot_ne hlt (by omega) (by omega)

/-- A step of `sbuf_insert` writes to the next cell in turn, which no item needs any more. -/
theorem Shared.SlotsOk.insert (h : s.SlotsOk n φ)
    (hr : pc.holds = true → s.RearAt n (some (item, pc))) (hfree : s.NextFree n)
    (hs : insertStep n t item s pc = (s', out)) : s'.SlotsOk n φ := by
  cases pc with
  | store p =>
    obtain ⟨-, hroom, rfl⟩ := hr rfl
    cases hs
    exact { h with stored := h.stored.write (hfree hroom) }
  | setRear p =>
    obtain ⟨-, -, rfl, hcell⟩ := hr rfl
    cases hs
    refine ⟨h.stored.append hcell, h.taken.trans (List.prefix_append _ _), fun p x hx => ?_⟩
    -- the item under way was put before
    have hnext := h.next p x hx
    rw [List.getElem?_append_left (List.getElem?_eq_some_iff.mp hnext).1]
    exact hnext
  | fullRemoved i | cas | refullRemoved i | testTrial p =>
    simp only [insertStep] at hs
    split at hs <;> cases hs <;> exact { h with }
  | _ =>
    cases hs
    exact { h with }

/-- A list that goes on with `x` behind a prefix has the prefix with `x` as well. -/
theorem prefix_concat {xs ys : List I} {x : I} (h : xs <+: ys) (hx : ys[xs.length]? = some x) :
    xs ++ [x] <+: ys := by
  obtain ⟨zs, rfl⟩ := h
  rw [List.getElem?_append_right (Nat.le_refl _), Nat.sub_self] at hx
  cases zs with
  | nil => cases hx
  | cons z zs =>
    cases hx
    exact ⟨zs, by simp⟩

/-- A step of `sbuf_remove` takes the first item that was not taken before. -/
theorem Shared.SlotsOk.remove (h : s.SlotsOk n φ) (hc : s.CountersOk n)
    (hφ : rpc.holds = true → φ = some rpc) (hf : s.FrontAt φ)
    (hs : removeStep n num t s rpc = some (s', rout)) :
    s'.SlotsOk n (Token.next rpc.front rout.front φ) := by
  rcases hh : rpc.holds with _ | _
  · have hnone : rpc.front = none := by rw [RemovePC.front, hh]; rfl
    rw [hnone]
    rcases removeStep_before hh hs with ⟨w, k, d, rfl, hout⟩ | ⟨-, rfl, hout⟩
    · rw [hout]
      exact { h with }
    · rw [hout]
      exact { h with next := by rintro p x (hx | hx) <;> cases hx }
  obtain rfl := hφ hh
  cases rpc with
  | readItem p =>
    obtain ⟨hrest, hitem, rfl⟩ := hf
    cases hs
    refine { h with next := ?_ }
    -- the slot at `removed` holds the oldest item that is not taken
    have hread := h.stored.read hc.removals_le (Nat.lt_of_lt_of_le hitem hc.insertions_le)
    rintro p x (hx | hx) <;> cases hx
    exact hread
  | testTrial p item =>
    have hnext := h.next p item (.inl rfl)
    simp only [removeStep] at hs
    split at hs <;> cases hs
    · exact { h with next := by rintro q x (hx | hx) <;> cases hx }
    · refine { h with next := ?_ }
      rintro q x (hx | hx) <;> cases hx
      exact hnext
  | setFront p item =>
    have hnext := h.next p item (.inr rfl)
    cases hs
    exact ⟨h.stored, prefix_concat h.taken hnext, by rintro q x (hx | hx) <;> cases hx⟩
  | storeRemoved r item =>
    cases hs
    exact ⟨h.stored.mono (Nat.le_succ _), h.taken, by rintro q x (hx | hx) <;> cases hx⟩
  | recheckInserted r =>
    simp only [removeStep] at hs
    split at hs <;> cases hs <;>
      exact { h with next := by rintro q x (hx | hx) <;> cases hx }
  | recheckRemoved | release | readFront | loadRemoved item | clear item =>
    cases hs
    exact { h with next := by rintro q x (hx | hx) <;> cases hx }
  | _ => cases hh

/-! ### Whole runs -/

/-- `rear` is updated, so the call of `sbuf_insert` can only return 1. -/
def InsertPC.committed : InsertPC → Bool
  | .loadInserted | .storeInserted _ | .clear => true
  | _ => false

/-- The item that the call of `sbuf_remove` will return, once `front` is updated. -/
def RemovePC.committed : RemovePC I → Option I
  | .loadRemoved item | .storeRemoved _ item | .clear item => some item
  | _ => none

/-- Behind its update of `rear`, `sbuf_insert` goes on without a test and returns 1. -/
theorem insertStep_committed (hpc : pc.committed = true)
    (hs : insertStep n t item s pc = (s', out)) :
    out = .returns true ∨ ∃ pc', out = .goes pc' ∧ pc'.committed = true := by
  cases pc <;> cases hpc <;> cases hs
  · exact .inr ⟨_, rfl, rfl⟩
  · exact .inr ⟨_, rfl, rfl⟩
  · exact .inl rfl

/-- Behind its update of `front`, `sbuf_remove` goes on without a test and returns its item. -/
theorem removeStep_committed (hpc : rpc.committed = some item)
    (hs : removeStep n num t s rpc = some (s', rout)) :
    rout = .returns item ∨ ∃ pc', rout = .goes pc' ∧ pc'.committed = some item := by
  cases rpc <;> cases hpc <;> cases hs
  · exact .inr ⟨_, rfl, rfl⟩
  · exact .inr ⟨_, rfl, rfl⟩
  · exact .inl rfl

theorem insertStep_put (hs : insertStep n t item s pc = (s', out)) : s.put <+: s'.put := by
  cases pc with
  | setRear p =>
    cases hs
    exact List.prefix_append _ _
  | fullRemoved i | cas | refullRemoved i | testTrial p =>
    simp only [insertStep] at hs
    split at hs <;> cases hs <;> exact List.prefix_rfl
  | _ =>
    cases hs
    exact List.prefix_rfl

theorem removeStep_put (hs : removeStep n num t s rpc = some (s', rout)) : s'.put = s.put := by
  cases rpc <;> simp only [removeStep] at hs <;> try split at hs
  all_goals cases hs
  all_goals rfl

/-- The invariant of the runs: the two sides, and the cells as long as no counter wraps. -/
def FifoOk (n : Capacity) (s : Sys T I) : Prop :=
  ∃ ρ φ, Sides n s ρ φ ∧ (s.shared.put.length < 2 ^ 31 - 1 → s.shared.SlotsOk n φ)

theorem fifoOk_initial (n : Capacity) (null : I) : FifoOk n (Sys.initial T null) :=
  ⟨none, none, Sides.initial n null, fun _ =>
    ⟨fun _ _ h => absurd h (Nat.not_lt_zero _), List.prefix_rfl,
      by rintro p x (hx | hx) <;> cases hx⟩⟩

/-- A move keeps the two sides, and the items in their cells as long as the next cell is free. -/
theorem Sides.move {s s' : Sys T I} (h : Sides n s ρ φ) (hm : Sys.Move n num s s') :
    ∃ ρ' φ', Sides n s' ρ' φ' ∧ s.shared.put <+: s'.shared.put ∧
      (s.shared.NextFree n → s.shared.SlotsOk n φ → s'.shared.SlotsOk n φ') := by
  cases hm with
  | insert hrear hfront hdoes hrear' hfront' =>
    refine ⟨_, _, h.insert hrear hfront hdoes hrear' hfront', insertStep_put hdoes,
      fun hfree hslots => hslots.insert (fun hh => ?_) hfree hdoes⟩
    -- with the token, `t` is the writer of the rear
    rw [InsertPC.rear, if_pos hh] at hrear
    rw [← (h.rearToken.owner_of_view hrear).2]
    exact h.rear
  | remove hrear hfront hdoes hrear' hfront' =>
    refine ⟨_, _, h.remove hrear hfront hdoes hrear' hfront', ?_,
      fun _ hslots => hslots.remove h.counters (fun hh => ?_) h.front hdoes⟩
    · show s.shared.put <+: _
      rw [removeStep_put hdoes]
    · rw [RemovePC.front, if_pos hh] at hfront
      exact (h.frontToken.owner_of_view hfront).2
  | turn hrear hfront hrear' hfront' =>
    exact ⟨_, _, h.turn hrear hfront hrear' hfront', List.prefix_rfl, fun _ hslots => hslots⟩

theorem FifoOk.move {s s' : Sys T I} (h : FifoOk n s) (hm : Sys.Move n num s s') :
    FifoOk n s' := by
  obtain ⟨ρ, φ, hsides, hslots⟩ := h
  obtain ⟨ρ', φ', hsides', hput, hslots'⟩ := hsides.move hm
  refine ⟨ρ', φ', hsides', fun hint => ?_⟩
  have hint' : s.shared.put.length < 2 ^ 31 - 1 := Nat.lt_of_le_of_lt hput.length_le hint
  exact hslots' (Shared.nextFree_of_lt hint') (hslots hint')

theorem fifoOk_run {as : List (Act T I)} {s : Sys T I} {null : I}
    (hrun : run (Sys.step n num) (Sys.initial T null) as = some s) : FifoOk n s :=
  run_induction (fun _ _ _ h hs => h.move (Sys.move_of_step hs)) as _ _ (fifoOk_initial n null)
    hrun

/-! ### The shared buffer as a queue -/

omit [DecidableEq T] in
/-- What the writer of the rear has put and not yet accounted for. -/
theorem Shared.RearAt.accepted (h : s.RearAt n ρ) :
    s.accepted = s.put ∨
      ∃ item pc, ρ = some (item, pc) ∧ pc.committed = true ∧ s.put = s.accepted ++ [item] := by
  unfold Shared.RearAt Shared.RearRest at h
  split at h
  case h_6 | h_7 | h_8 =>
    first
    | exact .inr ⟨_, _, rfl, rfl, h.2⟩
    | exact .inr ⟨_, _, rfl, rfl, h.2.1⟩
  all_goals first
    | exact .inl h.2
    | exact .inl h.1.2

omit [DecidableEq T] in
/-- What the writer of the front has taken and not yet returned. -/
theorem Shared.FrontAt.returned (h : s.FrontAt φ) :
    s.returned = s.taken ∨
      ∃ item pc, φ = some pc ∧ pc.committed = some item ∧ s.taken = s.returned ++ [item] := by
  unfold Shared.FrontAt Shared.FrontRest at h
  split at h
  case h_6 | h_7 | h_8 =>
    first
    | exact .inr ⟨_, _, rfl, rfl, h.2⟩
    | exact .inr ⟨_, _, rfl, rfl, h.2.1⟩
  all_goals first
    | exact .inl h.2
    | exact .inl h.1.2

/-- The shared buffer is a linearizable FIFO queue of at most `n` items. After every run of any
number of threads, with fewer than `2 ^ 31 - 1` inserts:

- the items taken, in the order of the updates of `front`, are the first of the items put, in
  the order of the updates of `rear`;
- these are the items for which `sbuf_insert` returned 1, and perhaps the one of a call behind
  its update of `rear`, which goes on without a test and returns 1;
- in the same way, the items taken are the ones that `sbuf_remove` returned, and perhaps one of a
  call behind its update of `front`, which goes on and returns it;
- every item put and not taken is in its cell;
- `0 ≤ inserted - removed ≤ n`. -/
theorem sbuf_fifo (null : I) {as : List (Act T I)} {s : Sys T I}
    (hrun : run (Sys.step n num) (Sys.initial T null) as = some s)
    (hint : s.shared.put.length < 2 ^ 31 - 1) :
    s.shared.taken <+: s.shared.put ∧
    (s.shared.accepted = s.shared.put ∨
      ∃ t item pc, (s.calls t).rear = some (item, pc) ∧ pc.committed = true ∧
        s.shared.put = s.shared.accepted ++ [item]) ∧
    (s.shared.returned = s.shared.taken ∨
      ∃ t item pc, (s.calls t).front = some pc ∧ pc.committed = some item ∧
        s.shared.taken = s.shared.returned ++ [item]) ∧
    (∀ t item pc s' out, pc.committed = true → insertStep n t item s.shared pc = (s', out) →
      out = .returns true ∨ ∃ pc', out = .goes pc' ∧ pc'.committed = true) ∧
    (∀ t item pc s' out, pc.committed = some item →
      removeStep n num t s.shared pc = some (s', out) →
      out = .returns item ∨ ∃ pc', out = .goes pc' ∧ pc'.committed = some item) ∧
    (∀ k, s.shared.taken.length ≤ k → ∀ h : k < s.shared.put.length,
      s.shared.buf ((k + 1) % n.val : Nat) = s.shared.put[k]) ∧
    0 ≤ s.shared.inserted.toInt - s.shared.removed.toInt ∧
      s.shared.inserted.toInt - s.shared.removed.toInt ≤ n.val := by
  obtain ⟨ρ, φ, hsides, hslots⟩ := fifoOk_run hrun
  have hc := hsides.counters
  have hslots := hslots hint
  refine ⟨hslots.taken, ?_, ?_, fun t item pc s' out hpc hs => insertStep_committed hpc hs,
    fun t item pc s' out hpc hs => removeStep_committed hpc hs, ?_, ?_⟩
  · refine hsides.rear.accepted.imp_right ?_
    rintro ⟨item, pc, rfl, hpc, hput⟩
    obtain ⟨t, ht⟩ := hsides.rearToken.exists_view
    exact ⟨t, item, pc, ht, hpc, hput⟩
  · refine hsides.front.returned.imp_right ?_
    rintro ⟨item, pc, rfl, hpc, htaken⟩
    obtain ⟨t, ht⟩ := hsides.frontToken.exists_view
    exact ⟨t, item, pc, ht, hpc, htaken⟩
  · intro k hk hlt
    rw [← slot_eq (by omega)]
    exact hslots.stored k (hc.removals_le.trans hk) hlt
  · -- the words are the numbers themselves, below `2 ^ 31`
    have htoInt : ∀ k : Nat, k < 2 ^ 31 → (BitVec.ofNat 32 k).toInt = k := by
      intro k hk
      have htoNat : (BitVec.ofNat 32 k).toNat = k := by
        rw [BitVec.toNat_ofNat]
        omega
      rw [BitVec.toInt_eq_toNat_of_lt (by omega), htoNat]
    have := hc.removals_le
    have := hc.taken_le
    have := hc.insertions_le
    have := hc.put_le
    rw [hc.inserted, hc.removed, htoInt _ (by omega), htoInt _ (by omega)]
    omega

/-- The items that are put and not taken. -/
def Shared.queue (s : Shared T I) : List I := s.put.drop s.taken.length

/-- `k` steps of the call of `t`. -/
def steps (t : T) (k : Nat) : List (Act T I) := List.replicate k (.step t)

/-- One thread inserts 7 and 8, and another one takes 7 and is about to return it. -/
theorem sbuf_fifo_handOver :
    ∃ s, run (Sys.step ⟨2, by decide, by decide⟩ 2) (Sys.initial (Fin 2) 0)
        (List.flatten [.insert 0 7 :: steps 0 12, .insert 0 8 :: steps 0 12,
          .remove 1 :: steps 1 17]) = some s ∧
      s.shared.taken = [7] ∧ s.shared.taken <+: s.shared.put ∧ s.shared.buf 0 = 8 := by
  have h : (run (Sys.step ⟨2, by decide, by decide⟩ 2) (Sys.initial (Fin 2) 0)
      (List.flatten [.insert 0 7 :: steps 0 12, .insert 0 8 :: steps 0 12,
        .remove 1 :: steps 1 17])).map
      (fun s => (s.shared.taken, s.shared.put)) = some ([7], [7, 8]) := by
    decide +kernel
  obtain ⟨s, hrun, hs⟩ := Option.map_eq_some_iff.mp h
  obtain ⟨htaken, hput⟩ := Prod.mk.inj hs
  obtain ⟨htakenPut, -, -, -, -, hcells, -⟩ := sbuf_fifo 0 hrun (by rw [hput]; decide)
  have hlast := hcells 1 (by rw [htaken]; decide) (by rw [hput]; decide)
  simp only [hput] at hlast
  exact ⟨s, hrun, htaken, htakenPut, hlast⟩

end

end Stacklets.Mythreads

import Mathlib.Tactic.Common
import Stacklets.Lib.Token
import Stacklets.Mythreads.Sbuf

/-!
# `Stacklets.Mythreads.Counters`: the tokens and the counters of the shared buffer

`trialRear` makes one thread at a time the writer of the rear side (`buf`, `rear`, `inserted`),
and `trialFront` makes one thread at a time the writer of the front side (`front`, `removed`).
Each side reads the counter of the other one without a lock. What it concludes stays true,
because the other counter only grows: a buffer that has room keeps it until the writer of the
rear fills it, and a buffer that has an item keeps it until the writer of the front takes it.

`Sides` is the invariant. It holds for runs of any length, also when the counters wrap: of the
machine words only their distance matters, and this is at most `n`.
-/

set_option autoImplicit false

namespace Stacklets.Mythreads

open Function (update update_self apply_update)
open Lib

section
variable {T I : Type*}

/-! ### Who has which token -/

/-- The thread has `trialRear` at this place. -/
def InsertPC.holds : InsertPC → Bool
  | .fullInserted | .fullRemoved _ | .cas => false
  | _ => true

/-- The thread has `trialFront` at this place. -/
def RemovePC.holds : RemovePC I → Bool
  | .recheckRemoved | .recheckInserted _ | .release | .readFront | .readItem _ => true
  | .testTrial _ _ | .setFront _ _ | .loadRemoved _ | .storeRemoved _ _ | .clear _ => true
  | _ => false

/-- The item and the place of a writer of the rear. -/
def InsertPC.rear (item : I) (pc : InsertPC) : Option (I × InsertPC) :=
  if pc.holds then some (item, pc) else none

/-- The place of a writer of the front. -/
def RemovePC.front (pc : RemovePC I) : Option (RemovePC I) :=
  if pc.holds then some pc else none

@[simp] def InsertOut.rear (item : I) : InsertOut → Option (I × InsertPC)
  | .goes pc => pc.rear item
  | .returns _ => none

@[simp] def RemoveOut.front : RemoveOut I → Option (RemovePC I)
  | .goes pc => pc.front
  | _ => none

@[simp] def Call.rear : Call I → Option (I × InsertPC)
  | .insert item pc => pc.rear item
  | .create _ item pc => pc.rear item
  | _ => none

@[simp] def Call.front : Call I → Option (RemovePC I)
  | .remove pc => pc.front
  | _ => none

/-! ### The counters -/

/-- The words are the lengths of the histories, as far as 32 bits go. -/
structure Shared.CountersOk (n : Capacity) (s : Shared T I) : Prop where
  inserted : s.inserted = BitVec.ofNat 32 s.insertions
  removed : s.removed = BitVec.ofNat 32 s.removals
  rear : s.rear = BitVec.ofNat 32 s.put.length
  front : s.front = BitVec.ofNat 32 s.taken.length
  removals_le : s.removals ≤ s.taken.length
  taken_le : s.taken.length ≤ s.insertions
  insertions_le : s.insertions ≤ s.put.length
  put_le : s.put.length ≤ s.removals + n.val

/-- Nothing of the rear side is under way. -/
def Shared.RearRest (s : Shared T I) : Prop :=
  s.insertions = s.put.length ∧ s.accepted = s.put

/-- Nothing of the front side is under way. -/
def Shared.FrontRest (s : Shared T I) : Prop :=
  s.removals = s.taken.length ∧ s.returned = s.taken

/-- What the writer of the rear knows, by its place. -/
def Shared.RearAt (n : Capacity) (s : Shared T I) : Option (I × InsertPC) → Prop
  | some (_, .refullRemoved i) => s.RearRest ∧ i = BitVec.ofNat 32 s.insertions
  | some (_, .readRear) => s.RearRest ∧ s.put.length < s.removals + n.val
  | some (_, .testTrial p) | some (_, .store p) =>
    s.RearRest ∧ s.put.length < s.removals + n.val ∧ p = BitVec.ofNat 32 (s.put.length + 1)
  | some (item, .setRear p) =>
    s.RearRest ∧ s.put.length < s.removals + n.val ∧ p = BitVec.ofNat 32 (s.put.length + 1) ∧
      s.buf (cell n p) = item
  | some (item, .loadInserted) =>
    s.insertions + 1 = s.put.length ∧ s.put = s.accepted ++ [item]
  | some (item, .storeInserted i) =>
    s.insertions + 1 = s.put.length ∧ s.put = s.accepted ++ [item] ∧
      i = BitVec.ofNat 32 s.insertions
  | some (item, .clear) => s.insertions = s.put.length ∧ s.put = s.accepted ++ [item]
  | _ => s.RearRest

/-- What the writer of the front knows, by its place. -/
def Shared.FrontAt (s : Shared T I) : Option (RemovePC I) → Prop
  | some (.recheckInserted r) => s.FrontRest ∧ r = BitVec.ofNat 32 s.removals
  | some .readFront => s.FrontRest ∧ s.taken.length < s.insertions
  | some (.readItem p) | some (.testTrial p _) | some (.setFront p _) =>
    s.FrontRest ∧ s.taken.length < s.insertions ∧ p = BitVec.ofNat 32 (s.taken.length + 1)
  | some (.loadRemoved item) =>
    s.removals + 1 = s.taken.length ∧ s.taken = s.returned ++ [item]
  | some (.storeRemoved r item) =>
    s.removals + 1 = s.taken.length ∧ s.taken = s.returned ++ [item] ∧
      r = BitVec.ofNat 32 s.removals
  | some (.clear item) => s.removals = s.taken.length ∧ s.taken = s.returned ++ [item]
  | _ => s.FrontRest

/-- The tokens, the counters and the two writers, `ρ` at the rear and `φ` at the front. -/
structure Sides [DecidableEq T] (n : Capacity) (s : Sys T I) (ρ : Option (I × InsertPC))
    (φ : Option (RemovePC I)) : Prop where
  rearToken : Token s.shared.trialRear (fun t => (s.calls t).rear) ρ
  frontToken : Token s.shared.trialFront (fun t => (s.calls t).front) φ
  counters : s.shared.CountersOk n
  rear : s.shared.RearAt n ρ
  front : s.shared.FrontAt φ

/-! ### Machine words -/

/-- Words of numbers less than `2 ^ 32` apart are equal only for equal numbers. -/
theorem ofNat_eq_ofNat_iff {r i : Nat} (h : r ≤ i) (hd : i < r + 2 ^ 32) :
    BitVec.ofNat 32 r = BitVec.ofNat 32 i ↔ r = i := by
  rw [← BitVec.toNat_inj, BitVec.toNat_ofNat, BitVec.toNat_ofNat]
  omega

/-- The test for a full buffer compares the true distance with `n`. -/
theorem sub_eq_capacity_iff (n : Capacity) {r i : Nat} (h : r ≤ i) (hd : i ≤ r + n.val) :
    BitVec.ofNat 32 i - BitVec.ofNat 32 r = BitVec.ofNat 32 n.val ↔ i = r + n.val := by
  have hn := n.int
  rw [← BitVec.toNat_inj, BitVec.toNat_sub, BitVec.toNat_ofNat, BitVec.toNat_ofNat,
    BitVec.toNat_ofNat]
  omega

theorem ofNat_add_one (k : Nat) : BitVec.ofNat 32 k + 1 = BitVec.ofNat 32 (k + 1) :=
  (BitVec.ofNat_add k 1).symm

/-! ### One side does not disturb the other -/

variable {n : Capacity} {num : Nat} {t : T} {item : I} {s s' : Shared T I} {pc : InsertPC}
  {out : InsertOut} {rpc : RemovePC I} {rout : RemoveOut I} {ρ : Option (I × InsertPC)}
  {φ : Option (RemovePC I)}

/-- The front side needs only that `insertions` does not shrink. -/
theorem Shared.FrontAt.of_le (h : s.FrontAt φ) (htaken : s'.taken = s.taken)
    (hreturned : s'.returned = s.returned) (hremovals : s'.removals = s.removals)
    (hle : s.insertions ≤ s'.insertions) : s'.FrontAt φ := by
  unfold Shared.FrontAt Shared.FrontRest at *
  rw [htaken, hreturned, hremovals]
  split at h
  all_goals first
    | exact h
    | exact ⟨h.1, Nat.lt_of_lt_of_le h.2 hle⟩
    | exact ⟨h.1, Nat.lt_of_lt_of_le h.2.1 hle, h.2.2⟩

/-- The rear side needs only that `removals` does not shrink. -/
theorem Shared.RearAt.of_le (h : s.RearAt n ρ) (hput : s'.put = s.put)
    (haccepted : s'.accepted = s.accepted) (hinsertions : s'.insertions = s.insertions)
    (hbuf : s'.buf = s.buf) (hle : s.removals ≤ s'.removals) : s'.RearAt n ρ := by
  unfold Shared.RearAt Shared.RearRest at *
  rw [hput, haccepted, hinsertions, hbuf]
  have hroom : s.put.length < s.removals + n.val → s.put.length < s'.removals + n.val :=
    fun h => by omega
  split at h
  all_goals first
    | exact h
    | exact ⟨h.1, hroom h.2⟩
    | exact ⟨h.1, hroom h.2.1, h.2.2⟩

/-! ### One step of `sbuf_insert` -/

variable [DecidableEq T]

/-- A step of `sbuf_insert` takes, keeps or gives back `trialRear`, and keeps what is known at
both sides. -/
theorem insertStep_keeps {v : T → Option (I × InsertPC)} (htok : Token s.trialRear v ρ)
    (hv : v t = pc.rear item) (hc : s.CountersOk n) (hr : s.RearAt n ρ) (hf : s.FrontAt φ)
    (hs : insertStep n t item s pc = (s', out)) :
    Token.Step t s.trialRear (pc.rear item) s'.trialRear (out.rear item) ∧
      s'.trialFront = s.trialFront ∧ s'.CountersOk n ∧
      s'.RearAt n (Token.next (pc.rear item) (out.rear item) ρ) ∧ s'.FrontAt φ := by
  -- at a place with the token, `t` is the owner and `ρ` is where `t` is
  have hmine : pc.holds = true → s.trialRear = some t ∧ ρ = some (item, pc) := by
    intro hh
    rw [InsertPC.rear, if_pos hh] at hv
    exact htok.owner_of_view hv
  cases pc with
  | fullInserted =>
    cases hs
    exact ⟨.away, rfl, hc, hr, hf⟩
  | fullRemoved i =>
    simp only [insertStep] at hs
    split at hs <;> cases hs
    · exact ⟨.away, rfl, hc, hr, hf⟩
    · exact ⟨.away, rfl, hc, hr, hf⟩
  | cas =>
    simp only [insertStep] at hs
    split at hs <;> cases hs
    · rename_i hfree
      rw [htok.free.mp hfree] at hr
      exact ⟨.acquire hfree _, rfl, { hc with }, hr, hf⟩
    · exact ⟨.away, rfl, hc, hr, hf⟩
  | refullInserted =>
    obtain ⟨howner, rfl⟩ := hmine rfl
    cases hs
    exact ⟨.move howner _ _, rfl, hc, ⟨hr, hc.inserted⟩, hf⟩
  | refullRemoved i =>
    obtain ⟨howner, rfl⟩ := hmine rfl
    obtain ⟨hrest, rfl⟩ := hr
    -- the true distance is compared with `n`, and it can only have shrunk since
    have hfull := sub_eq_capacity_iff n (hc.removals_le.trans hc.taken_le)
      (hc.insertions_le.trans hc.put_le)
    simp only [insertStep, hc.removed, hfull] at hs
    split at hs <;> cases hs
    · exact ⟨.move howner _ _, rfl, hc, hrest, hf⟩
    · rename_i hne
      have hroom : s.put.length < s.removals + n.val := by
        have := hc.put_le
        have := hrest.1
        omega
      exact ⟨.move howner _ _, rfl, hc, ⟨hrest, hroom⟩, hf⟩
  | fail | retry =>
    obtain ⟨howner, rfl⟩ := hmine rfl
    cases hs
    exact ⟨.release howner _, rfl, { hc with }, hr, hf⟩
  | readRear =>
    obtain ⟨howner, rfl⟩ := hmine rfl
    cases hs
    exact ⟨.move howner _ _, rfl, hc, ⟨hr.1, hr.2, by rw [hc.rear, ofNat_add_one]⟩, hf⟩
  | testTrial p =>
    obtain ⟨howner, rfl⟩ := hmine rfl
    simp only [insertStep, howner, ne_eq, not_true_eq_false, if_false] at hs
    cases hs
    exact ⟨.move howner _ _, rfl, hc, hr, hf⟩
  | store p =>
    obtain ⟨howner, rfl⟩ := hmine rfl
    cases hs
    exact ⟨.move howner _ _, rfl, { hc with },
      ⟨hr.1, hr.2.1, hr.2.2, update_self _ _ _⟩, hf⟩
  | setRear p =>
    obtain ⟨howner, rfl⟩ := hmine rfl
    obtain ⟨hrest, hroom, rfl, -⟩ := hr
    cases hs
    have hlen : (s.put ++ [item]).length = s.put.length + 1 := by simp
    refine ⟨.move howner _ _, rfl, { hc with rear := ?_, insertions_le := ?_, put_le := ?_ },
      ⟨?_, ?_⟩, hf⟩
    · rw [hlen]
    · show s.insertions ≤ (s.put ++ [item]).length
      rw [hlen, hrest.1]
      exact Nat.le_succ _
    · show (s.put ++ [item]).length ≤ s.removals + n.val
      rw [hlen]
      exact hroom
    · show s.insertions + 1 = (s.put ++ [item]).length
      rw [hlen, hrest.1]
    · show s.put ++ [item] = s.accepted ++ [item]
      rw [hrest.2]
  | loadInserted =>
    obtain ⟨howner, rfl⟩ := hmine rfl
    cases hs
    exact ⟨.move howner _ _, rfl, hc, ⟨hr.1, hr.2, hc.inserted⟩, hf⟩
  | storeInserted i =>
    obtain ⟨howner, rfl⟩ := hmine rfl
    obtain ⟨hlast, hput, rfl⟩ := hr
    cases hs
    refine ⟨.move howner _ _, rfl,
      { hc with inserted := ?_, taken_le := ?_, insertions_le := ?_ }, ⟨hlast, hput⟩,
      hf.of_le rfl rfl rfl (Nat.le_succ _)⟩
    · exact ofNat_add_one _
    · exact Nat.le_succ_of_le hc.taken_le
    · exact hlast.le
  | clear =>
    obtain ⟨howner, rfl⟩ := hmine rfl
    cases hs
    exact ⟨.release howner _, rfl, { hc with }, ⟨hr.1, hr.2.symm⟩, hf⟩

/-! ### One step of `sbuf_remove` -/

/-- The places of `sbuf_remove` before the token: the step leaves both sides as they are, or it
takes `trialFront`. -/
theorem removeStep_before (hh : rpc.holds = false)
    (hs : removeStep n num t s rpc = some (s', rout)) :
    (∃ w k d, s' = { s with mutexIdleCount := w, idlepCount := k, doneCreatingThreads := d } ∧
      rout.front = none) ∨
    (s.trialFront = none ∧ s' = { s with trialFront := some t } ∧
      rout.front = some .recheckRemoved) := by
  cases rpc <;> simp only [removeStep, RemovePC.holds, Bool.true_eq_false] at hs hh
  case cas =>
      split at hs <;> cases hs
      · exact .inr ⟨‹_›, rfl, rfl⟩
      · exact .inl ⟨_, _, _, rfl, rfl⟩
  all_goals try split at hs
  all_goals cases hs
  all_goals exact .inl ⟨_, _, _, rfl, rfl⟩

/-- A step of `sbuf_remove` takes, keeps or gives back `trialFront`, and keeps what is known at
both sides. -/
theorem removeStep_keeps {v : T → Option (RemovePC I)} (htok : Token s.trialFront v φ)
    (hv : v t = rpc.front) (hc : s.CountersOk n) (hr : s.RearAt n ρ) (hf : s.FrontAt φ)
    (hs : removeStep n num t s rpc = some (s', rout)) :
    Token.Step t s.trialFront rpc.front s'.trialFront rout.front ∧
      s'.trialRear = s.trialRear ∧ s'.CountersOk n ∧
      s'.RearAt n ρ ∧ s'.FrontAt (Token.next rpc.front rout.front φ) := by
  rcases hh : rpc.holds with _ | _
  · have hnone : rpc.front = none := by rw [RemovePC.front, hh]; rfl
    rw [hnone]
    rcases removeStep_before hh hs with ⟨w, k, d, rfl, hout⟩ | ⟨hfree, rfl, hout⟩
    · rw [hout]
      exact ⟨.away, rfl, { hc with }, hr, hf⟩
    · rw [hout]
      rw [htok.free.mp hfree] at hf
      exact ⟨.acquire hfree _, rfl, { hc with }, hr, hf⟩
  -- from here on `t` is the owner and `φ` is where `t` is
  obtain ⟨howner, rfl⟩ : s.trialFront = some t ∧ φ = some rpc := by
    rw [RemovePC.front, if_pos hh] at hv
    exact htok.owner_of_view hv
  cases rpc <;> simp only [RemovePC.holds, Bool.false_eq_true] at hh
  case recheckRemoved =>
      cases hs
      exact ⟨.move howner _ _, rfl, hc, hr, hf, hc.removed⟩
  case recheckInserted r =>
      obtain ⟨hrest, rfl⟩ := hf
      -- the words are equal only if the buffer is empty, and it can only have been filled since
      have hempty : BitVec.ofNat 32 s.removals = BitVec.ofNat 32 s.insertions ↔
          s.removals = s.insertions := by
        have := n.int
        have := hc.insertions_le.trans hc.put_le
        exact ofNat_eq_ofNat_iff (hc.removals_le.trans hc.taken_le) (by omega)
      simp only [removeStep, hc.inserted, hempty] at hs
      split at hs <;> cases hs
      · exact ⟨.move howner _ _, rfl, hc, hr, hrest⟩
      · rename_i hne
        have hitem : s.taken.length < s.insertions := by
          have := hc.taken_le
          have := hrest.1
          omega
        exact ⟨.move howner _ _, rfl, hc, hr, hrest, hitem⟩
  case release =>
      cases hs
      exact ⟨.release howner _, rfl, { hc with }, hr, hf⟩
  case readFront =>
      cases hs
      refine ⟨.move howner _ _, rfl, hc, hr, hf.1, hf.2, ?_⟩
      rw [hc.front, BitVec.add_comm, ofNat_add_one]
  case readItem p =>
      cases hs
      exact ⟨.move howner _ _, rfl, hc, hr, hf⟩
  case testTrial p item =>
      simp only [removeStep, howner, ne_eq, not_true_eq_false, if_false] at hs
      cases hs
      exact ⟨.move howner _ _, rfl, hc, hr, hf⟩
  case setFront p item =>
      obtain ⟨hrest, hitem, rfl⟩ := hf
      cases hs
      have hlen : (s.taken ++ [item]).length = s.taken.length + 1 := by simp
      refine ⟨.move howner _ _, rfl, { hc with front := ?_, removals_le := ?_, taken_le := ?_ },
        hr, ?_, ?_⟩
      · rw [hlen]
      · show s.removals ≤ (s.taken ++ [item]).length
        rw [hlen, hrest.1]
        exact Nat.le_succ _
      · show (s.taken ++ [item]).length ≤ s.insertions
        rw [hlen]
        exact hitem
      · show s.removals + 1 = (s.taken ++ [item]).length
        rw [hlen, hrest.1]
      · show s.taken ++ [item] = s.returned ++ [item]
        rw [hrest.2]
  case loadRemoved item =>
      cases hs
      exact ⟨.move howner _ _, rfl, hc, hr, hf.1, hf.2, hc.removed⟩
  case storeRemoved r item =>
      obtain ⟨hlast, htaken, rfl⟩ := hf
      cases hs
      refine ⟨.move howner _ _, rfl, { hc with removed := ?_, removals_le := ?_, put_le := ?_ },
        hr.of_le rfl rfl rfl rfl (Nat.le_succ _), hlast, htaken⟩
      · exact ofNat_add_one _
      · exact hlast.le
      · show s.put.length ≤ s.removals + 1 + n.val
        have := hc.put_le
        omega
  case clear item =>
      cases hs
      exact ⟨.release howner _, rfl, { hc with }, hr, hf.1, hf.2.symm⟩

/-! ### One step of the threads -/

/-- The call of a thread behind a step of `sbuf_insert`. -/
@[simp] def InsertOut.call (item : I) : InsertOut → Call I
  | .goes pc => .insert item pc
  | .returns r => .inserted r

/-- The call of a thread in `signal_exit_task` behind a step of `sbuf_insert`. -/
@[simp] def InsertOut.create (i : Nat) (item : I) : InsertOut → Call I
  | .goes pc => .create i item pc
  | .returns true => .signal (i + 1)
  | .returns false => .gone

/-- The call of a thread behind a step of `sbuf_remove`. -/
@[simp] def RemoveOut.call : RemoveOut I → Call I
  | .goes pc => .remove pc
  | .signals => .signal 0
  | .returns item => .removed item

/-- What a step of the call `c` of `t` does: the buffer is `sh` and the call is `c'` then. The
items of the exit tasks are the ones in `exits`. -/
inductive CallStep (n : Capacity) (num : Nat) (t : T) (exits : I → Prop) (s : Shared T I) :
    Call I → Shared T I → Call I → Prop
  | insert {item : I} {pc : InsertPC} {sh : Shared T I} {out : InsertOut}
      (does : insertStep n t item s pc = (sh, out)) :
      CallStep n num t exits s (.insert item pc) sh (out.call item)
  | create {i : Nat} {item : I} {pc : InsertPC} {sh : Shared T I} {out : InsertOut}
      (does : insertStep n t item s pc = (sh, out)) :
      CallStep n num t exits s (.create i item pc) sh (out.create i item)
  | remove {pc : RemovePC I} {sh : Shared T I} {out : RemoveOut I}
      (does : removeStep n num t s pc = some (sh, out)) :
      CallStep n num t exits s (.remove pc) sh out.call
  | next {i : Nat} {item : I} (exit : exits item) :
      CallStep n num t exits s (.signal i) s (.create i item .fullInserted)
  | last {i : Nat} : CallStep n num t exits s (.signal i) s (.remove .testUnlock)

/-- Every step of a call is one of these. -/
theorem callStep_of_step (exits : I → Prop) {s s' : Sys T I} (hs : s.callStep n num t = some s') :
    ∃ c, CallStep n num t exits s.shared (s.calls t) s'.shared c ∧
      s'.calls = update s.calls t c := by
  cases hcall : s.calls t with
  | insert item pc =>
    rcases hstep : insertStep n t item s.shared pc with ⟨sh, _ | r⟩ <;>
      simp only [Sys.callStep, hcall, hstep] at hs
    all_goals
      cases hs
      exact ⟨_, .insert hstep, rfl⟩
  | create i item pc =>
    rcases hstep : insertStep n t item s.shared pc with ⟨sh, _ | _ | _⟩ <;>
      simp only [Sys.callStep, hcall, hstep] at hs
    all_goals
      cases hs
      exact ⟨_, .create hstep, rfl⟩
  | remove pc =>
    rcases hstep : removeStep n num t s.shared pc with _ | ⟨sh, _ | _ | _⟩ <;>
      simp only [Sys.callStep, hcall, hstep] at hs
    · cases hs
    all_goals
      cases hs
      exact ⟨_, .remove hstep, rfl⟩
  | signal i =>
    simp only [Sys.callStep, hcall] at hs
    split at hs <;> cases hs
    exact ⟨_, .last, rfl⟩
  | _ =>
    simp only [Sys.callStep, hcall] at hs
    cases hs

/-- What a step of the threads does: a step of `sbuf_insert`, a step of `sbuf_remove`, or a
thread without a token that turns to something else. -/
inductive Sys.Move (n : Capacity) (num : Nat) (s : Sys T I) : Sys T I → Prop
  | insert {t : T} {item : I} {pc : InsertPC} {sh : Shared T I} {out : InsertOut} {c : Call I}
      (rear : (s.calls t).rear = pc.rear item) (front : (s.calls t).front = none)
      (does : insertStep n t item s.shared pc = (sh, out)) (rear' : c.rear = out.rear item)
      (front' : c.front = none) : Sys.Move n num s ⟨sh, update s.calls t c⟩
  | remove {t : T} {pc : RemovePC I} {sh : Shared T I} {out : RemoveOut I} {c : Call I}
      (rear : (s.calls t).rear = none) (front : (s.calls t).front = pc.front)
      (does : removeStep n num t s.shared pc = some (sh, out)) (rear' : c.rear = none)
      (front' : c.front = out.front) : Sys.Move n num s ⟨sh, update s.calls t c⟩
  | turn {t : T} {c : Call I} (rear : (s.calls t).rear = none)
      (front : (s.calls t).front = none) (rear' : c.rear = none) (front' : c.front = none) :
      Sys.Move n num s ⟨s.shared, update s.calls t c⟩

/-- Each step of a call is one of the three. -/
theorem Sys.move_of_callStep {s s' : Sys T I} {exits : I → Prop} {c : Call I}
    (h : CallStep n num t exits s.shared (s.calls t) s'.shared c)
    (hcalls : s'.calls = update s.calls t c) : Sys.Move n num s s' := by
  obtain ⟨sh', calls'⟩ := s'
  subst hcalls
  generalize hcall : s.calls t = b at h
  cases h with
  | insert hdoes =>
    rename_i out
    exact .insert (by rw [hcall]; rfl) (by rw [hcall]; rfl) hdoes (by cases out <;> rfl)
      (by cases out <;> rfl)
  | create hdoes =>
    rename_i out
    exact .insert (by rw [hcall]; rfl) (by rw [hcall]; rfl) hdoes
      (by rcases out with _ | _ | _ <;> rfl) (by rcases out with _ | _ | _ <;> rfl)
  | remove hdoes =>
    rename_i out
    exact .remove (by rw [hcall]; rfl) (by rw [hcall]; rfl) hdoes (by cases out <;> rfl)
      (by cases out <;> rfl)
  | next | last => exact .turn (by rw [hcall]; rfl) (by rw [hcall]; rfl) rfl rfl

/-- Each step of the threads is one of the three. -/
theorem Sys.move_of_step {s s' : Sys T I} {a : Act T I} (hs : s.step n num a = some s') :
    Sys.Move n num s s' := by
  have hfree : ∀ t, (s.calls t).isFree = true →
      (s.calls t).rear = none ∧ (s.calls t).front = none := by
    intro t ht
    cases hcall : s.calls t <;> rw [hcall] at ht <;> first | exact ⟨rfl, rfl⟩ | cases ht
  cases a with
  | step t =>
    obtain ⟨c, h, hcalls⟩ := callStep_of_step (fun _ => True) hs
    exact Sys.move_of_callStep h hcalls
  | insert t item | remove t =>
    simp only [Sys.step] at hs
    split at hs <;> cases hs
    exact .turn (hfree t ‹_›).1 (hfree t ‹_›).2 rfl rfl
  | create t item =>
    simp only [Sys.step] at hs
    split at hs
    · rename_i hcall
      split at hs <;> cases hs
      exact .turn (by rw [hcall]; rfl) (by rw [hcall]; rfl) rfl rfl
    · cases hs

/-! ### The invariant is kept -/

section
variable {s s' : Sys T I} {sh : Shared T I} {c : Call I}

/-- The views after one thread turned to `c`. -/
theorem rear_update (calls : T → Call I) (t : T) (c : Call I) :
    (fun u => (update calls t c u).rear) =
      update (fun u => (calls u).rear) t c.rear :=
  funext (apply_update (fun _ => Call.rear) calls t c)

@[inherit_doc rear_update]
theorem front_update (calls : T → Call I) (t : T) (c : Call I) :
    (fun u => (update calls t c u).front) =
      update (fun u => (calls u).front) t c.front :=
  funext (apply_update (fun _ => Call.front) calls t c)

theorem Sides.insert (h : Sides n s ρ φ) (hrear : (s.calls t).rear = pc.rear item)
    (hfront : (s.calls t).front = none) (hs : insertStep n t item s.shared pc = (sh, out))
    (hrear' : c.rear = out.rear item) (hfront' : c.front = none) :
    Sides n ⟨sh, update s.calls t c⟩ (Token.next (pc.rear item) (out.rear item) ρ) φ := by
  obtain ⟨hstep, htrial, hc, hr, hf⟩ :=
    insertStep_keeps h.rearToken hrear h.counters h.rear h.front hs
  refine ⟨?_, ?_, hc, hr, hf⟩
  · rw [rear_update, hrear', ← hrear]
    exact h.rearToken.step (by rw [hrear]; exact hstep)
  · rw [front_update, hfront', htrial]
    exact h.frontToken.keep hfront

theorem Sides.remove (h : Sides n s ρ φ) (hrear : (s.calls t).rear = none)
    (hfront : (s.calls t).front = rpc.front)
    (hs : removeStep n num t s.shared rpc = some (sh, rout)) (hrear' : c.rear = none)
    (hfront' : c.front = rout.front) :
    Sides n ⟨sh, update s.calls t c⟩ ρ (Token.next rpc.front rout.front φ) := by
  obtain ⟨hstep, htrial, hc, hr, hf⟩ :=
    removeStep_keeps h.frontToken hfront h.counters h.rear h.front hs
  refine ⟨?_, ?_, hc, hr, hf⟩
  · rw [rear_update, hrear', htrial]
    exact h.rearToken.keep hrear
  · rw [front_update, hfront', ← hfront]
    exact h.frontToken.step (by rw [hfront]; exact hstep)

theorem Sides.turn (h : Sides n s ρ φ) (hrear : (s.calls t).rear = none)
    (hfront : (s.calls t).front = none) (hrear' : c.rear = none) (hfront' : c.front = none) :
    Sides n ⟨s.shared, update s.calls t c⟩ ρ φ := by
  refine ⟨?_, ?_, h.counters, h.rear, h.front⟩
  · rw [rear_update, hrear']
    exact h.rearToken.keep hrear
  · rw [front_update, hfront']
    exact h.frontToken.keep hfront

/-- The buffer behind `sbuf_init`: no thread has a token, and all counters are 0. -/
theorem Sides.initial (n : Capacity) (null : I) : Sides n (Sys.initial T null) none none where
  rearToken := .empty fun _ => rfl
  frontToken := .empty fun _ => rfl
  counters := ⟨rfl, rfl, rfl, rfl, Nat.le_refl _, Nat.le_refl _, Nat.le_refl _, Nat.zero_le _⟩
  rear := ⟨rfl, rfl⟩
  front := ⟨rfl, rfl⟩

/-- Every step of the threads keeps the invariant. -/
theorem Sides.step {a : Act T I} (h : Sides n s ρ φ) (hs : s.step n num a = some s') :
    ∃ ρ' φ', Sides n s' ρ' φ' := by
  cases Sys.move_of_step hs with
  | insert hrear hfront hdoes hrear' hfront' =>
    exact ⟨_, _, h.insert hrear hfront hdoes hrear' hfront'⟩
  | remove hrear hfront hdoes hrear' hfront' =>
    exact ⟨_, _, h.remove hrear hfront hdoes hrear' hfront'⟩
  | turn hrear hfront hrear' hfront' => exact ⟨_, _, h.turn hrear hfront hrear' hfront'⟩

end

end

end Stacklets.Mythreads

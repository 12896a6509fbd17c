import Stacklets.Gem5.Machine
import Stacklets.Lib.BitField

/-!
# `Stacklets.Gem5.Trigger`: the arguments of a user-level interrupt on the wire

`stacklet_sendi` puts the callback and its argument into the global map `msg_map`, under the
64-bit number `msg_counter`. The message that goes to the other core is a word with packed fields
(`TriggerIntMessage`), and its field for the key has 32 bits. `recvMessage` unpacks the word, and
`requestInterrupt` looks the key up.

* `recvMessage_sendiMessage` connects the packed message with the machine of
  `Stacklets.Gem5.Machine`, where the key is handed over as a number of 32 bits.
* `sendi_reads_back`: as long as the new value of the counter has 32 bits, the receiver reads the
  callback and the argument that were sent.
* `readsBack_iff_sent`: in general it reads those of the message with the number that is left when
  the counter is cut to 32 bits.
* `sendi_misreads`: the message number `2 ^ 32` reads an entry that nobody wrote.
-/

set_option autoImplicit false

namespace Stacklets.Gem5

open Lib

/-! ### The packed message -/

namespace TriggerIntMessage

/-- The fields of the word that a ULI uses. -/
def vector (message : BitVec 64) : BitVec 64 := bits message 15 8

def deliveryMode (message : BitVec 64) : BitVec 64 := bits message 18 16

def trigger (message : BitVec 64) : BitVec 64 := bits message 21 21

def globalMessageMapKey (message : BitVec 64) : BitVec 64 := bits message 53 22

end TriggerIntMessage

/-- The enumeration of the delivery modes. The field has three bits. -/
def DeliveryMode.ofField : Nat → DeliveryMode
  | 0 => .fixed
  | 1 => .lowestPriority
  | 2 => .smi
  | 3 => .uli
  | 4 => .nmi
  | 5 => .init
  | 6 => .sipi
  | _ => .extInt

/-- The message that `stacklet_sendi` builds. -/
def sendiMessage (msgCounter : UInt64) : BitVec 64 :=
  let message := insertBits 0 18 16 3
  let message := insertBits message 15 8 0
  insertBits message 53 22 msgCounter.toBitVec

/-- `recvMessage`: the fields go to `requestInterrupt`, each cut to the type of its parameter. -/
def Interrupts.recvMessage (i : Interrupts) (msgMap : UInt64 → StackletMessage)
    (message : BitVec 64) : Interrupts :=
  i.requestInterrupt msgMap (UInt8.ofNat (TriggerIntMessage.vector message).toNat)
    (.ofField (TriggerIntMessage.deliveryMode message).toNat)
    (TriggerIntMessage.trigger message != 0)
    (UInt32.ofNat (TriggerIntMessage.globalMessageMapKey message).toNat)

/-- The fields of the message do not overlap, so each can be read back. The mode is that of a
ULI. -/
theorem deliveryMode_sendiMessage (k : UInt64) :
    DeliveryMode.ofField (TriggerIntMessage.deliveryMode (sendiMessage k)).toNat = .uli := by
  unfold TriggerIntMessage.deliveryMode sendiMessage
  dsimp only
  rw [bits_insertBits_of_disjoint _ _ (by decide) (by decide) (by decide) (by decide),
    bits_insertBits_of_disjoint _ _ (by decide) (by decide) (by decide) (by decide)]
  decide

/-- The vector is 0. -/
theorem vector_sendiMessage (k : UInt64) : TriggerIntMessage.vector (sendiMessage k) = 0 := by
  unfold TriggerIntMessage.vector sendiMessage
  dsimp only
  rw [bits_insertBits_of_disjoint _ _ (by decide) (by decide) (by decide) (by decide)]
  decide

/-- The bit for the trigger is never written. -/
theorem trigger_sendiMessage (k : UInt64) : TriggerIntMessage.trigger (sendiMessage k) = 0 := by
  unfold TriggerIntMessage.trigger sendiMessage
  dsimp only
  rw [bits_insertBits_of_disjoint _ _ (by decide) (by decide) (by decide) (by decide)]
  decide

/-- The key in the message is the counter without its upper half. -/
theorem key_sendiMessage (k : UInt64) :
    (TriggerIntMessage.globalMessageMapKey (sendiMessage k)).toNat = k.toNat % 2 ^ 32 := by
  unfold TriggerIntMessage.globalMessageMapKey sendiMessage
  dsimp only
  rw [bits_insertBits_self _ _ (by decide) (by decide), toNat_and_mask _ (by decide)]
  rfl

/-- What arrives is what the machine hands over. -/
theorem recvMessage_sendiMessage (i : Interrupts) (msgMap : UInt64 → StackletMessage)
    (k : UInt64) :
    i.recvMessage msgMap (sendiMessage k) = i.requestInterrupt msgMap 0 .uli false k.toUInt32 := by
  unfold Interrupts.recvMessage
  rw [deliveryMode_sendiMessage, vector_sendiMessage, trigger_sendiMessage, key_sendiMessage]
  have hkey : UInt32.ofNat (k.toNat % 2 ^ 32) = k.toUInt32 := by
    rw [← UInt32.toNat_inj]
    simp
  rw [hkey]
  rfl

/-! ### Histories of sends -/

section
variable {C : Type} [DecidableEq C]

/-- A call of `stacklet_sendi` by a core. -/
structure Sendi (C : Type) where
  sender : C
  callback : UInt64
  p : UInt64
  destCpu : C

/-- The machine after a history of sends. -/
def Machine.sendis (s : Machine C) (history : List (Sendi C)) : Machine C :=
  history.foldl (fun s m => s.stackletSendi m.sender m.callback m.p m.destCpu) s

/-- The controller that gets a message which `stacklet_sendi` built in the state `s`. -/
def Machine.received (s : Machine C) (m : Sendi C) (i : Interrupts) : Interrupts :=
  let s := s.recordMessage m.sender m.callback m.p
  i.recvMessage s.msgMap (sendiMessage s.msgCounter)

/-- The receiver of the latest message finds delivery mode ULI, and adds a node with the callback
and the argument that were sent. -/
def Machine.ReadsBack (s : Machine C) (m : Sendi C) : Prop :=
  DeliveryMode.ofField (TriggerIntMessage.deliveryMode
      (sendiMessage (s.recordMessage m.sender m.callback m.p).msgCounter)).toNat = .uli ∧
    ∀ i : Interrupts, ∃ node, (s.received m i).uliQueue = i.uliQueue ++ [node] ∧
      node.uliHandlerPc = m.callback ∧ node.packetAddress = m.p

omit [DecidableEq C] in
/-- The node that arrives has what the message map holds under the cut key. -/
theorem Machine.received_uliQueue (s : Machine C) (m : Sendi C) (i : Interrupts) :
    (s.received m i).uliQueue = i.uliQueue ++
      [Interrupts.uliNode (s.recordMessage m.sender m.callback m.p).msgMap 0
        (s.msgCounter + 1).toUInt32] := by
  unfold Machine.received
  dsimp only
  rw [recvMessage_sendiMessage]
  rfl

omit [DecidableEq C] in
/-- So the latest message reads back exactly if its callback and argument are there. -/
theorem Machine.readsBack_iff {s : Machine C} (m : Sendi C) :
    s.ReadsBack m ↔
      ((s.recordMessage m.sender m.callback m.p).msgMap
        (s.msgCounter + 1).toUInt32.toUInt64).callback = m.callback ∧
      ((s.recordMessage m.sender m.callback m.p).msgMap
        (s.msgCounter + 1).toUInt32.toUInt64).p = m.p := by
  constructor
  · rintro ⟨-, h⟩
    obtain ⟨node, hqueue, hcallback, hp⟩ := h .reset
    rw [s.received_uliQueue] at hqueue
    obtain rfl := List.singleton_inj.mp (List.append_cancel_left hqueue)
    exact ⟨hcallback, hp⟩
  · intro h
    exact ⟨deliveryMode_sendiMessage _, fun i => ⟨_, s.received_uliQueue m i, h⟩⟩

/-- The latest of any history of sends reads back, if the new value of `msg_counter` has 32
bits: the key then names the entry that was just written. -/
theorem sendi_reads_back (tc : C → ThreadContext) (stage : C → CommitStage)
    (history : List (Sendi C)) (m : Sendi C)
    (h : (((Machine.initial tc stage).sendis history).msgCounter + 1).toNat < 2 ^ 32) :
    ((Machine.initial tc stage).sendis history).ReadsBack m := by
  rw [Machine.readsBack_iff]
  generalize (Machine.initial tc stage).sendis history = s at h
  have hkey : (s.msgCounter + 1).toUInt32.toUInt64 = s.msgCounter + 1 := by
    rw [← UInt64.toNat_inj]
    simp only [UInt32.toNat_toUInt64, UInt64.toNat_toUInt32]
    exact Nat.mod_eq_of_lt h
  unfold Machine.recordMessage
  dsimp only
  rw [hkey, if_pos rfl]
  exact ⟨rfl, rfl⟩

/-- The callback and the argument of the message with this number. Number 0 is never sent. -/
def sent (history : List (Sendi C)) : Nat → UInt64 × UInt64
  | 0 => (0, 0)
  | k + 1 => (history[k]?).elim (0, 0) fun m => (m.callback, m.p)

omit [DecidableEq C] in
/-- The last message of a history has the highest number. -/
theorem sent_append (history : List (Sendi C)) (m : Sendi C) (k : Nat) :
    sent (history ++ [m]) k =
      if k = history.length + 1 then (m.callback, m.p) else sent history k := by
  cases k with
  | zero => rw [if_neg (by omega)]; rfl
  | succ k =>
    simp only [sent]
    by_cases hk : k = history.length
    · rw [if_pos (by omega), hk, List.getElem?_concat_length]
      rfl
    · rw [if_neg (by omega)]
      rcases Nat.lt_or_ge k history.length with hlt | hge
      · rw [List.getElem?_append_left hlt]
      · rw [List.getElem?_eq_none (by simp; omega), List.getElem?_eq_none hge]

/-- The counter counts the sends until it wraps, and the map holds each message under its number.
The induction is on the history, with the latest send last. -/
theorem Machine.sendis_spec (tc : C → ThreadContext) (stage : C → CommitStage)
    (history : List (Sendi C)) (hlen : history.length < 2 ^ 64) :
    ((Machine.initial tc stage).sendis history).msgCounter.toNat = history.length ∧
    (∀ key, ((((Machine.initial tc stage).sendis history).msgMap key).callback,
      (((Machine.initial tc stage).sendis history).msgMap key).p) = sent history key.toNat) ∧
    ((Machine.initial tc stage).sendis history).msgMap 0 = .zero := by
  induction history using List.reverseRecOn with
  | nil =>
    refine ⟨rfl, fun key => ?_, rfl⟩
    cases key.toNat <;> rfl
  | append_singleton history m ih =>
    rw [List.length_append, List.length_singleton] at hlen ⊢
    obtain ⟨hcounter, hmap, hzero⟩ := ih (by omega)
    -- the last send of the history comes on top of the others
    have hsucc : (Machine.initial tc stage).sendis (history ++ [m]) =
        ((Machine.initial tc stage).sendis history).stackletSendi m.sender m.callback m.p
          m.destCpu := by
      unfold Machine.sendis
      rw [List.foldl_append]
      rfl
    rw [hsucc]
    generalize (Machine.initial tc stage).sendis history = s at hcounter hmap hzero
    have hnext : (s.msgCounter + 1).toNat = history.length + 1 := by
      rw [UInt64.toNat_add, hcounter]
      exact Nat.mod_eq_of_lt hlen
    have hwritten : ∀ key : UInt64, key = s.msgCounter + 1 ↔ key.toNat = history.length + 1 :=
      fun key => by rw [← hnext, UInt64.toNat_inj]
    have hentry : ∀ key, (s.stackletSendi m.sender m.callback m.p m.destCpu).msgMap key =
        if key = s.msgCounter + 1 then ⟨m.callback, m.p, some (s.cores m.sender).tc.cr3⟩
        else s.msgMap key := fun _ => rfl
    refine ⟨hnext, fun key => ?_, ?_⟩
    · rw [hentry, sent_append]
      by_cases hkey : key = s.msgCounter + 1
      · rw [if_pos hkey, if_pos ((hwritten key).mp hkey)]
      · rw [if_neg hkey, if_neg fun hk => hkey ((hwritten key).mpr hk), hmap]
    · rw [hentry, if_neg fun hkey => (by cases (hwritten 0).mp hkey), hzero]

/-- What the receiver of the latest message reads is the message whose number is that of the
latest one, cut to 32 bits. -/
theorem readsBack_iff_sent (tc : C → ThreadContext) (stage : C → CommitStage)
    (history : List (Sendi C)) (m : Sendi C) (hlen : history.length + 1 < 2 ^ 64) :
    ((Machine.initial tc stage).sendis history).ReadsBack m ↔
      sent (history ++ [m]) ((history.length + 1) % 2 ^ 32) = (m.callback, m.p) := by
  have hspec := Machine.sendis_spec tc stage (history ++ [m]) (by simpa using hlen)
  obtain ⟨hcounter, -⟩ := Machine.sendis_spec tc stage history (by omega)
  have hkey : ((((Machine.initial tc stage).sendis history).msgCounter +
      1).toUInt32.toUInt64).toNat = (history.length + 1) % 2 ^ 32 := by
    rw [UInt32.toNat_toUInt64, UInt64.toNat_toUInt32, UInt64.toNat_add, hcounter]
    exact congrArg (· % 2 ^ 32) (Nat.mod_eq_of_lt hlen)
  rw [Machine.readsBack_iff, ← hkey, ← hspec.2.1, Prod.mk.injEq]
  unfold Machine.sendis
  rw [List.foldl_append]
  rfl

end

/-- Core 0 sends core 1 the callback at `0x401000` with the argument `0x5000`. -/
def ping : Sendi (Fin 2) := ⟨0, 0x401000, 0x5000, 1⟩

/-- The machine after `n` such sends. -/
def pings (n : Nat) : Machine (Fin 2) :=
  (Machine.initial (fun _ => userContext 1) fun _ => idleStage).sendis (List.replicate n ping)

/-- The third message of `ping` reads back. -/
theorem sendi_reads_back_ping :
    ((pings 2).msgCounter + 1).toNat < 2 ^ 32 ∧ (pings 2).ReadsBack ping :=
  ⟨by decide +kernel, sendi_reads_back _ _ _ ping (by decide +kernel)⟩

/-- With a counter at `2 ^ 32 - 1`, the next message has the key 0. -/
theorem Machine.received_of_counter {s : Machine (Fin 2)}
    (hcounter : s.msgCounter.toNat = 2 ^ 32 - 1) (hmap : s.msgMap 0 = .zero) :
    (s.received ping .reset).uliQueue = [⟨0, 0, 0, none⟩] := by
  have hnext : (s.msgCounter + 1).toNat = 2 ^ 32 := by
    rw [UInt64.toNat_add, hcounter]
    decide
  have hkey : (s.msgCounter + 1).toUInt32.toUInt64 = 0 := by
    rw [← UInt64.toNat_inj, UInt32.toNat_toUInt64, UInt64.toNat_toUInt32, hnext]
    decide
  have hne : (0 : UInt64) ≠ s.msgCounter + 1 := by
    intro hzero
    rw [← hzero] at hnext
    exact absurd hnext (by decide)
  rw [s.received_uliQueue]
  unfold Interrupts.uliNode Machine.recordMessage
  dsimp only
  rw [hkey, if_neg hne, hmap]
  rfl

/-- The message number `2 ^ 32` has the key 0. The receiver adds a node with a null callback. -/
theorem sendi_misreads :
    ((pings (2 ^ 32 - 1)).received ping .reset).uliQueue = [⟨0, 0, 0, none⟩] ∧
      ¬ (pings (2 ^ 32 - 1)).ReadsBack ping := by
  -- stated for every number of sends, so that nothing evaluates the long history
  have hspec : ∀ n, n + 1 < 2 ^ 64 → (pings n).msgCounter.toNat = n ∧ (pings n).msgMap 0 = .zero ∧
      ((pings n).ReadsBack ping ↔ sent (List.replicate n ping ++ [ping]) ((n + 1) % 2 ^ 32) =
        (ping.callback, ping.p)) := by
    intro n hn
    have hlength : (List.replicate n ping).length = n := List.length_replicate
    obtain ⟨hcounter, -, hmap⟩ := Machine.sendis_spec (fun _ => userContext 1)
      (fun _ => idleStage) (List.replicate n ping) (by omega)
    have hiff := readsBack_iff_sent (fun _ => userContext 1) (fun _ => idleStage)
      (List.replicate n ping) ping (by omega)
    rw [hlength] at hcounter hiff
    exact ⟨hcounter, hmap, hiff⟩
  obtain ⟨hcounter, hmap, hiff⟩ := hspec (2 ^ 32 - 1) (by decide)
  have hnumber : (2 ^ 32 - 1 + 1) % 2 ^ 32 = 0 := by decide
  rw [hnumber, sent] at hiff
  refine ⟨Machine.received_of_counter hcounter hmap, fun hreads => ?_⟩
  have hnull : (0 : UInt64) = 0x401000 := congrArg Prod.fst (hiff.mp hreads)
  exact absurd hnull (by decide)

end Stacklets.Gem5

import Stacklets.Messages.Queue

/-!
# `Stacklets.Messages.Memory`: the queues of all cores in one memory

The queues of the cores lie in one memory, and so do the nodes that an `enqueue` has allocated
and not yet linked. `MemoryOk` says that no two of them share a node and that all their nodes are
allocated. `malloc`, `enqueue` and `dequeue` keep it.
-/

set_option autoImplicit false

namespace Stacklets.Messages

open Function (update update_self update_of_ne)
open Lib

section
variable {C N M : Type*}

/-- The queues are lists of allocated nodes that share none with each other, nor with the nodes
`new` that the cores are about to link. -/
structure MemoryOk (heap : N → Node N M) (msgBufs : C → Queue N) (new : C → Option N)
    (nodes : C → List N) : Prop where
  represents : ∀ c, (msgBufs c).Represents heap (nodes c)
  live : ∀ c, ∀ n ∈ nodes c, (heap n).live = true
  disjoint : ∀ c d, c ≠ d → ∀ n ∈ nodes c, n ∉ nodes d
  newLive : ∀ c n, new c = some n → (heap n).live = true
  newFresh : ∀ c n, new c = some n → ∀ d, n ∉ nodes d
  newInj : ∀ c d n, new c = some n → new d = some n → c = d

variable {heap : N → Node N M} {msgBufs : C → Queue N} {new new' : C → Option N}
  {nodes : C → List N} {c : C} {n : N}

/-- All queues are empty and nothing is allocated. -/
theorem memoryOk_initial (contents : N → Node N M) :
    MemoryOk contents (fun _ : C => Queue.empty) (fun _ => none) fun _ => [] where
  represents _ := isDList_nil
  live := nofun
  disjoint := nofun
  newLive := nofun
  newFresh := nofun
  newInj := nofun

namespace MemoryOk

/-- An allocation can be given up. -/
theorem mono (h : MemoryOk heap msgBufs new nodes)
    (hnew : ∀ c n, new' c = some n → new c = some n) :
    MemoryOk heap msgBufs new' nodes where
  represents := h.represents
  live := h.live
  disjoint := h.disjoint
  newLive c n hn := h.newLive c n (hnew c n hn)
  newFresh c n hn := h.newFresh c n (hnew c n hn)
  newInj c d n hc hd := h.newInj c d n (hnew c n hc) (hnew d n hd)

variable [DecidableEq C] [DecidableEq N]

/-- `malloc` gives a node that no queue and no other `enqueue` uses. -/
theorem malloc (h : MemoryOk heap msgBufs new nodes) (hn : (heap n).live = false) :
    MemoryOk (update heap n { heap n with live := true }) msgBufs
      (update new c (some n)) nodes := by
  have hne : ∀ y, (heap y).live = true → y ≠ n := by
    rintro y hy rfl
    rw [hn] at hy
    cases hy
  have hnodes : ∀ d, ∀ y ∈ nodes d, y ≠ n := fun d y hy => hne y (h.live d y hy)
  have hold : ∀ d, d ≠ c → update new c (some n) d = new d := fun d hd =>
    update_of_ne hd _ _
  refine ⟨fun d => ?_, fun d y hy => ?_, h.disjoint, fun d y hy => ?_, fun d y hy => ?_, ?_⟩
  · refine IsDList.congr (h.represents d) (fun y hy => ?_) fun y hy => ?_
    · rw [update_of_ne (hnodes d y hy)]
    · rw [update_of_ne (hnodes d y hy)]
  · rw [update_of_ne (hnodes d y hy)]
    exact h.live d y hy
  · by_cases hyn : y = n
    · subst hyn
      rw [update_self]
    · rw [update_of_ne hyn]
      by_cases hd : d = c
      · subst hd
        rw [update_self] at hy
        exact absurd (Option.some.inj hy).symm hyn
      · exact h.newLive d y (hold d hd ▸ hy)
  · by_cases hd : d = c
    · subst hd
      rw [update_self] at hy
      cases hy
      exact fun e he => hnodes e _ he rfl
    · exact h.newFresh d y (hold d hd ▸ hy)
  · -- The new node is not one that another core is about to link, since those are allocated.
    have hother : ∀ d, d ≠ c → new d ≠ some n := fun d _ hd => hne n (h.newLive d n hd) rfl
    intro d e y hd he
    by_cases hdc : d = c
    · by_cases hec : e = c
      · rw [hdc, hec]
      · rw [hdc, update_self] at hd
        cases hd
        exact absurd (hold e hec ▸ he) (hother e hec)
    · rw [hold d hdc] at hd
      by_cases hec : e = c
      · rw [hec, update_self] at he
        cases he
        exact absurd hd (hother d hdc)
      · exact h.newInj d e y hd (hold e hec ▸ he)

/-- `enqueue` links the new node of `c` into the queue of `t`. -/
theorem enqueue {t : C} {msg : M} (h : MemoryOk heap msgBufs new nodes) (hn : new c = some n) :
    MemoryOk (Messages.enqueue heap (msgBufs t) n msg).1
      (update msgBufs t (Messages.enqueue heap (msgBufs t) n msg).2)
      (update new c none) (update nodes t (nodes t ++ [n])) := by
  have hlive : ∀ y, ((Messages.enqueue heap (msgBufs t) n msg).1 y).live = (heap y).live := by
    intro y
    by_cases hy : y = n
    · subst hy
      exact enqueue_self.2.2.2
    · exact (enqueue_of_ne hy).2.2.2
  -- the new node is the one that the caller allocated
  have hmem : ∀ d y, y ∈ update nodes t (nodes t ++ [n]) d →
      y ∈ nodes d ∨ (y = n ∧ d = t) := by
    intro d y hy
    by_cases hd : d = t
    · subst hd
      rw [update_self, List.mem_append, List.mem_singleton] at hy
      exact hy.imp_right fun hyn => ⟨hyn, rfl⟩
    · rw [update_of_ne hd] at hy
      exact Or.inl hy
  have hnew : ∀ d y, update new c none d = some y → d ≠ c ∧ new d = some y := by
    intro d y hy
    by_cases hd : d = c
    · rw [hd, update_self] at hy
      cases hy
    · rw [update_of_ne hd] at hy
      exact ⟨hd, hy⟩
  refine ⟨fun d => ?_, fun d y hy => ?_, fun d e hde y hy hye => ?_, fun d y hy => ?_,
    fun d y hy e he => ?_, fun d e y hd he => ?_⟩
  · by_cases hd : d = t
    · subst hd
      rw [update_self, update_self]
      exact represents_enqueue (h.represents d) (h.newFresh c n hn d)
    · rw [update_of_ne hd, update_of_ne hd]
      exact represents_enqueue_of_disjoint (h.represents t) (h.represents d) (h.newFresh c n hn d)
        (h.disjoint t d (Ne.symm hd))
  · rw [hlive]
    rcases hmem d y hy with hy | ⟨rfl, _⟩
    · exact h.live d y hy
    · exact h.newLive c y hn
  · rcases hmem d y hy with hyd | ⟨hyn, hdt⟩
    · rcases hmem e y hye with hye | ⟨hyn, _⟩
      · exact h.disjoint d e hde y hyd hye
      · exact h.newFresh c n hn d (hyn ▸ hyd)
    · rcases hmem e y hye with hye | ⟨_, het⟩
      · exact h.newFresh c n hn e (hyn ▸ hye)
      · exact hde (hdt.trans het.symm)
  · rw [hlive]
    exact h.newLive d y (hnew d y hy).2
  · obtain ⟨hdc, hd⟩ := hnew d y hy
    rcases hmem e y he with he | ⟨rfl, _⟩
    · exact h.newFresh d y hd e he
    · exact hdc (h.newInj d c y hd hn)
  · exact h.newInj d e y (hnew d y hd).2 (hnew e y he).2

/-- `dequeue` takes the first node out of the queue of `c` and frees it. -/
theorem dequeue {l : List N} {q : Queue N} (h : MemoryOk heap msgBufs new nodes)
    (hc : nodes c = n :: l) (hq : q.Represents (dequeued heap n) l) :
    MemoryOk (dequeued heap n) (update msgBufs c q) new (update nodes c l) := by
  have hrep : (msgBufs c).Represents heap (n :: l) := hc ▸ h.represents c
  have hmem : ∀ d y, y ∈ update nodes c l d → y ∈ nodes d ∧ y ≠ n := by
    intro d y hy
    by_cases hd : d = c
    · subst hd
      rw [update_self] at hy
      rw [hc]
      refine ⟨List.mem_cons_of_mem _ hy, ?_⟩
      rintro rfl
      exact (List.nodup_cons.mp hrep.nodup).1 hy
    · rw [update_of_ne hd] at hy
      refine ⟨hy, ?_⟩
      rintro rfl
      exact h.disjoint d c hd y hy (hc ▸ List.mem_cons_self)
  refine ⟨fun d => ?_, fun d y hy => ?_, fun d e hde y hy hye => ?_, fun d y hy => ?_,
    fun d y hy e he => ?_, h.newInj⟩
  · by_cases hd : d = c
    · subst hd
      rw [update_self, update_self]
      exact hq
    · rw [update_of_ne hd, update_of_ne hd]
      exact represents_dequeue_of_disjoint hrep (h.represents d) (hc ▸ h.disjoint c d (Ne.symm hd))
  · rw [(dequeued_of_ne (hmem d y hy).2).2.2.2]
    exact h.live d y (hmem d y hy).1
  · exact h.disjoint d e hde y (hmem d y hy).1 (hmem e y hye).1
  · -- The node that is freed was in the queue, so it is not one about to be linked.
    have hyn : y ≠ n := by
      rintro rfl
      exact h.newFresh d y hy c (hc ▸ List.mem_cons_self)
    rw [(dequeued_of_ne hyn).2.2.2]
    exact h.newLive d y hy
  · exact h.newFresh d y hy e (hmem e y he).1

end MemoryOk

/-! ### The messages of a queue -/

/-- The messages of a list of nodes. -/
def messages (heap : N → Node N M) (l : List N) : List M := l.map fun n => (heap n).msg

variable [DecidableEq N] {l : List N}

/-- `enqueue` keeps the messages that are there. -/
theorem messages_enqueue {q : Queue N} {msg : M} (hn : n ∉ l) :
    messages (enqueue heap q n msg).1 l = messages heap l := by
  refine List.map_congr_left fun y hy => ?_
  have hyn : y ≠ n := fun he => hn (he ▸ hy)
  exact (enqueue_of_ne hyn).1

/-- `enqueue` appends its message. -/
theorem messages_enqueue_append {q : Queue N} {msg : M} (hn : n ∉ l) :
    messages (enqueue heap q n msg).1 (l ++ [n]) = messages heap l ++ [msg] := by
  have hlast : messages (enqueue heap q n msg).1 [n] = [msg] := congrArg (· :: []) enqueue_self.1
  show List.map _ (l ++ [n]) = _
  rw [List.map_append]
  exact congrArg₂ _ (messages_enqueue hn) hlast

/-- `dequeue` keeps the messages that stay. -/
theorem messages_dequeued (hn : n ∉ l) : messages (dequeued heap n) l = messages heap l := by
  refine List.map_congr_left fun y hy => ?_
  have hyn : y ≠ n := fun he => hn (he ▸ hy)
  exact (dequeued_of_ne hyn).1

/-- `malloc` keeps all messages. -/
theorem messages_malloc (l : List N) :
    messages (update heap n { heap n with live := true }) l = messages heap l := by
  refine List.map_congr_left fun y _ => ?_
  by_cases hyn : y = n
  · subst hyn
    rw [update_self]
  · rw [update_of_ne hyn]

end

end Stacklets.Messages

import Stacklets.Mythreads.Fifo

/-!
# `Stacklets.Mythreads.Indices`: the cells that the shared buffer uses on runs of any length

`sbuf_insert` writes to `buf[insertPoint % n]` and `sbuf_remove` reads `buf[removePoint % n]`.
The points are the numbers of the insert and of the removal, as far as 32 bits go, so the
removal with number `k` uses the index of the insert with number `k` on a run of any length.
The sign of `%` is the one of the point, and the point with number `2 ^ 31` is negative.

* `cell_of_store`, `cell_of_readItem`: the index by the number of the call.
* `sbuf_indices`: the index is one of the buffer as long as the points are not negative, or the
  buffer has one cell only, and the removal reads what the insert wrote.
* `sbuf_index_negative`: the index of the insert with number `2 ^ 31` in a buffer of 50 cells.
-/

set_option autoImplicit false

namespace Stacklets.Mythreads

open Function (update update_self update_idem)
open Lib

section
variable {T I : Type*} [DecidableEq T] {n : Capacity} {num : Nat}

/-! ### The index of a call -/

/-- The insert with number `put.length + 1` uses the cell of that number. -/
theorem cell_of_store {null : I} {as : List (Act T I)} {s : Sys T I}
    (hrun : run (Sys.step n num) (Sys.initial T null) as = some s) {t : T} {item : I}
    {p : BitVec 32} (hp : (s.calls t).rear = some (item, .store p)) :
    cell n p = slot n s.shared.put.length := by
  obtain ⟨ρ, φ, hsides, -⟩ := fifoOk_run hrun
  have hrear := hsides.rear
  rw [(hsides.rearToken.owner_of_view hp).2] at hrear
  rw [slot, ← hrear.2.2]

/-- The removal with number `taken.length + 1` uses the cell of that number, and the insert with
this number was made. -/
theorem cell_of_readItem {null : I} {as : List (Act T I)} {s : Sys T I}
    (hrun : run (Sys.step n num) (Sys.initial T null) as = some s) {t : T} {p : BitVec 32}
    (hp : (s.calls t).front = some (.readItem p)) :
    cell n p = slot n s.shared.taken.length ∧
      s.shared.taken.length < s.shared.put.length := by
  obtain ⟨ρ, φ, hsides, -⟩ := fifoOk_run hrun
  have hfront := hsides.front
  rw [(hsides.frontToken.owner_of_view hp).2] at hfront
  obtain ⟨-, hitem, hpoint⟩ := hfront
  rw [slot, ← hpoint]
  exact ⟨rfl, Nat.lt_of_lt_of_le hitem hsides.counters.insertions_le⟩

/-! ### Buffers of one cell -/

/-- The only index of a buffer of one cell is 0, also for a negative point. -/
theorem slot_of_one (hn : n.val = 1) (k : Nat) : slot n k = 0 := by
  rw [slot, cell, hn]
  exact Int.tmod_one _

omit [DecidableEq T] in
/-- In a buffer of one cell there is room only when no item is needed. -/
theorem Shared.nextFree_of_one (hn : n.val = 1) (s : Shared T I) : s.NextFree n := by
  intro hroom k hk hlt
  omega

/-- A buffer of one cell keeps its item on runs of any length. -/
theorem slotsOk_of_one (hn : n.val = 1) {null : I} {as : List (Act T I)} {s : Sys T I}
    (hrun : run (Sys.step n num) (Sys.initial T null) as = some s) :
    ∃ ρ φ, Sides n s ρ φ ∧ s.shared.SlotsOk n φ := by
  refine run_induction (I := fun s => ∃ ρ φ, Sides n s ρ φ ∧ s.shared.SlotsOk n φ) ?_ as _ _ ?_
    hrun
  · rintro s a s' ⟨ρ, φ, hsides, hslots⟩ hs
    obtain ⟨ρ', φ', hsides', -, hslots'⟩ := hsides.move (Sys.move_of_step hs)
    exact ⟨ρ', φ', hsides', hslots' (Shared.nextFree_of_one hn _) hslots⟩
  · obtain ⟨ρ, φ, hsides, hslots⟩ := fifoOk_initial (T := T) n null
    exact ⟨ρ, φ, hsides, hslots (Nat.zero_lt_succ _)⟩

/-! ### Indices of the buffer -/

/-- The index with number `k` is one of the buffer. -/
theorem slot_bounds {k : Nat} (h : k + 1 < 2 ^ 31 ∨ n.val = 1) :
    0 ≤ slot n k ∧ slot n k < n.val := by
  rcases h with hk | hn
  · rw [slot_eq hk]
    have := Nat.mod_lt (k + 1) n.pos
    omega
  · rw [slot_of_one hn, hn]
    omega

/-- After every run of any number of threads, as long as fewer than `2 ^ 31 - 1` items were put
or the buffer has one cell:

- a thread that is about to store an item, the one with number `k`, uses the index of `k`, which
  is one of the buffer;
- a thread that is about to read an item, the one with number `k`, uses the index of `k`, which
  is one of the buffer, and reads the item that was put with this number. -/
theorem sbuf_indices (null : I) {as : List (Act T I)} {s : Sys T I}
    (hrun : run (Sys.step n num) (Sys.initial T null) as = some s)
    (hint : s.shared.put.length < 2 ^ 31 - 1 ∨ n.val = 1) (t : T) :
    (∀ item p, (s.calls t).rear = some (item, .store p) →
      cell n p = slot n s.shared.put.length ∧ 0 ≤ cell n p ∧ cell n p < n.val) ∧
    (∀ p, (s.calls t).front = some (.readItem p) →
      cell n p = slot n s.shared.taken.length ∧ 0 ≤ cell n p ∧ cell n p < n.val ∧
        s.shared.put[s.shared.taken.length]? = some (s.shared.buf (cell n p))) := by
  constructor
  · intro item p hp
    rw [cell_of_store hrun hp]
    exact ⟨rfl, slot_bounds (hint.imp_left (by omega))⟩
  · intro p hp
    obtain ⟨hcell, hput⟩ := cell_of_readItem hrun hp
    have hbounds := slot_bounds (n := n) (k := s.shared.taken.length) (hint.imp_left (by omega))
    obtain ⟨ρ, φ, hsides, hslots⟩ : ∃ ρ φ, Sides n s ρ φ ∧ s.shared.SlotsOk n φ := by
      rcases hint with hint | hn
      · obtain ⟨ρ, φ, hsides, hslots⟩ := fifoOk_run hrun
        exact ⟨ρ, φ, hsides, hslots hint⟩
      · exact slotsOk_of_one hn hrun
    rw [hcell]
    exact ⟨rfl, hbounds.1, hbounds.2, hslots.stored.read hsides.counters.removals_le hput⟩

end

/-- One thread inserts 7 and 8. Another one removes 7 and goes on to read 8, in a buffer of 50
cells. -/
def twoItems : List (Act Bool Nat) :=
  List.flatten [.insert true 7 :: steps true 12, .insert true 8 :: steps true 12,
    .remove false :: steps false 20, .remove false :: steps false 14]

theorem sbuf_indices_twoItems :
    ∃ s p, run (Sys.step ⟨50, by decide, by decide⟩ 2) (Sys.initial Bool 0) twoItems = some s ∧
      (s.calls false).front = some (.readItem p) ∧
      cell ⟨50, by decide, by decide⟩ p = slot ⟨50, by decide, by decide⟩ 1 ∧
      0 ≤ cell ⟨50, by decide, by decide⟩ p ∧ cell ⟨50, by decide, by decide⟩ p < 50 ∧
      s.shared.put[1]? = some (s.shared.buf (cell ⟨50, by decide, by decide⟩ p)) := by
  have h : (run (Sys.step ⟨50, by decide, by decide⟩ 2) (Sys.initial Bool 0) twoItems).map
      (fun s => ((s.calls false).front, s.shared.taken, s.shared.put)) =
        some (some (.readItem 2), [7], [7, 8]) := by
    decide +kernel
  obtain ⟨s, hrun, hs⟩ := Option.map_eq_some_iff.mp h
  have hfront : (s.calls false).front = some (.readItem 2) := congrArg Prod.fst hs
  have htaken : s.shared.taken = [7] := congrArg (fun x => x.2.1) hs
  have hput : s.shared.put = [7, 8] := congrArg (fun x => x.2.2) hs
  have hread := (sbuf_indices 0 hrun (.inl (by rw [hput]; decide)) false).2 2 hfront
  rw [htaken] at hread
  exact ⟨s, 2, hrun, hfront, hread⟩

/-! ### The calls of one thread, when no other one is in a call -/

section
variable {T I : Type*} [DecidableEq T] {n : Capacity} {num : Nat} {t : T} {b : Int → I}
  {taken put : List I} {x : I} {calls : T → Call I}

/-- The buffer when no thread is in a call. -/
def Shared.quiet (b : Int → I) (taken put : List I) : Shared T I where
  buf := b
  front := BitVec.ofNat 32 taken.length
  rear := BitVec.ofNat 32 put.length
  trialFront := none
  trialRear := none
  inserted := BitVec.ofNat 32 put.length
  removed := BitVec.ofNat 32 taken.length
  idlepCount := 0
  doneCreatingThreads := false
  mutexIdleCount := none
  put := put
  taken := taken
  accepted := put
  returned := taken
  insertions := put.length
  removals := taken.length

/-- A step of `sbuf_insert`, and the steps behind it. -/
theorem insert_goes {sh sh' : Shared T I} {pc pc' : InsertPC} {k : Nat} {s : Sys T I}
    (h : insertStep n t x sh pc = (sh', .goes pc'))
    (hrun : run (Sys.step n num) ⟨sh', update calls t (.insert x pc')⟩ (steps t k) =
      some s) :
    run (Sys.step n num) ⟨sh, update calls t (.insert x pc)⟩ (steps t (k + 1)) =
      some s := by
  rw [← hrun, steps, List.replicate_succ]
  simp only [run_cons, Sys.step, Sys.callStep, update_self, h, Sys.setCall,
    update_idem, Option.bind_some, steps]

theorem insert_returns {sh sh' : Shared T I} {pc : InsertPC} {r : Bool}
    (h : insertStep n t x sh pc = (sh', .returns r)) :
    run (Sys.step n num) ⟨sh, update calls t (.insert x pc)⟩ (steps t 1) =
      some ⟨sh', update calls t (.inserted r)⟩ := by
  simp only [run_cons, Sys.step, Sys.callStep, update_self, h, Sys.setCall,
    update_idem, Option.bind_some, run_nil, steps, List.replicate]

/-- A step of `sbuf_remove`, and the steps behind it. -/
theorem remove_goes {sh sh' : Shared T I} {pc pc' : RemovePC I} {k : Nat} {s : Sys T I}
    (h : removeStep n num t sh pc = some (sh', .goes pc'))
    (hrun : run (Sys.step n num) ⟨sh', update calls t (.remove pc')⟩ (steps t k) =
      some s) :
    run (Sys.step n num) ⟨sh, update calls t (.remove pc)⟩ (steps t (k + 1)) =
      some s := by
  rw [← hrun, steps, List.replicate_succ]
  simp only [run_cons, Sys.step, Sys.callStep, update_self, h, Sys.setCall,
    update_idem, Option.bind_some, steps]

theorem remove_returns {sh sh' : Shared T I} {pc : RemovePC I}
    (h : removeStep n num t sh pc = some (sh', .returns x)) :
    run (Sys.step n num) ⟨sh, update calls t (.remove pc)⟩ (steps t 1) =
      some ⟨sh', update calls t (.removed x)⟩ := by
  simp only [run_cons, Sys.step, Sys.callStep, update_self, h, Sys.setCall,
    update_idem, Option.bind_some, run_nil, steps, List.replicate]

/-- `sbuf_insert` in a buffer with room, up to the store. -/
theorem quiet_to_store
    (hroom : ¬ BitVec.ofNat 32 put.length - BitVec.ofNat 32 taken.length =
      BitVec.ofNat 32 n.val) :
    run (Sys.step n num) ⟨.quiet b taken put, update calls t (.insert x .fullInserted)⟩
        (steps t 7) =
      some ⟨{ Shared.quiet b taken put with trialRear := some t },
        update calls t (.insert x (.store (BitVec.ofNat 32 put.length + 1)))⟩ := by
  refine insert_goes rfl ?_
  refine insert_goes (if_neg hroom) ?_
  refine insert_goes rfl ?_
  refine insert_goes rfl ?_
  refine insert_goes (if_neg hroom) ?_
  refine insert_goes rfl ?_
  exact insert_goes (if_neg (not_not_intro rfl)) rfl

/-- `sbuf_insert` in a buffer with room. -/
theorem quiet_insert
    (hroom : ¬ BitVec.ofNat 32 put.length - BitVec.ofNat 32 taken.length =
      BitVec.ofNat 32 n.val) :
    run (Sys.step n num) ⟨.quiet b taken put, update calls t (.insert x .fullInserted)⟩
        (steps t 12) =
      some ⟨.quiet (update b (slot n put.length) x) taken (put ++ [x]),
        update calls t (.inserted true)⟩ := by
  rw [show steps t 12 = steps t 7 ++ steps t 5 from rfl, run_append (quiet_to_store hroom)]
  refine insert_goes rfl ?_
  refine insert_goes rfl ?_
  refine insert_goes rfl ?_
  refine insert_goes rfl ?_
  refine (insert_returns rfl).trans ?_
  simp only [Shared.quiet, List.length_append, List.length_singleton, slot, ofNat_add_one]

/-- `sbuf_remove` in a buffer that is not empty. -/
theorem quiet_remove (hne : ¬ BitVec.ofNat 32 taken.length = BitVec.ofNat 32 put.length)
    (hb : b (slot n taken.length) = x) :
    run (Sys.step n num) ⟨.quiet b taken put, update calls t (.remove .emptyRemoved)⟩
        (steps t 20) =
      some ⟨.quiet b (taken ++ [x]) put, update calls t (.removed x)⟩ := by
  -- the thread counts itself, finds the item in its loop, and is not counted any more
  refine remove_goes rfl ?_
  refine remove_goes (if_neg hne) ?_
  refine remove_goes rfl ?_
  refine remove_goes rfl ?_
  refine remove_goes rfl ?_
  refine remove_goes rfl ?_
  refine remove_goes (if_neg hne) ?_
  refine remove_goes rfl ?_
  refine remove_goes rfl ?_
  refine remove_goes rfl ?_
  -- it becomes the one to take the item
  refine remove_goes rfl ?_
  refine remove_goes rfl ?_
  refine remove_goes (if_neg hne) ?_
  refine remove_goes rfl ?_
  refine remove_goes rfl ?_
  refine remove_goes (if_neg (not_not_intro rfl)) ?_
  refine remove_goes rfl ?_
  refine remove_goes rfl ?_
  refine remove_goes rfl ?_
  have hitem : b (cell n (1 + BitVec.ofNat 32 taken.length)) = x := by
    rw [BitVec.add_comm, ofNat_add_one]
    exact hb
  subst hitem
  refine (remove_returns rfl).trans ?_
  simp only [Shared.quiet, List.length_append, List.length_singleton, ofNat_add_one,
    BitVec.add_comm 1]
  rfl

end

/-! ### One thread that inserts and removes an item again and again -/

section
variable {I : Type*} {n : Capacity} {b : Int → I} {l : List I} {c : Call I} {x : I}

/-- One thread is between two calls, and no item is under way. -/
def between (b : Int → I) (taken put : List I) (c : Call I) : Sys Unit I where
  shared := .quiet b taken put
  calls _ := c

/-- The thread is at a place of its call, with the buffer as it is between two calls, but for
`trialRear`. -/
def between.at (s : Sys Unit I) (trialRear : Option Unit) (c : Call I) : Sys Unit I where
  shared := { s.shared with trialRear := trialRear }
  calls _ := c

theorem update_unit {α : Type*} (f : Unit → α) (x : α) : update f () x = fun _ => x := by
  funext u
  rw [update_self]

/-- `removed` and `inserted` are different when one item was not removed. -/
theorem ofNat_ne_succ (k : Nat) : ¬ BitVec.ofNat 32 k = BitVec.ofNat 32 (k + 1) := by
  rw [ofNat_eq_ofNat_iff (by omega) (by omega)]
  omega

/-- There is room in an empty buffer. -/
theorem ofNat_sub_self_ne (n : Capacity) (k : Nat) :
    ¬ BitVec.ofNat 32 k - BitVec.ofNat 32 k = BitVec.ofNat 32 n.val := by
  have := n.pos
  have := n.int
  rw [BitVec.sub_self, ← BitVec.toNat_inj, BitVec.toNat_ofNat, BitVec.toNat_ofNat]
  omega

/-- The first step of a call. -/
theorem between_insert (hc : c.isFree = true) (taken put : List I) :
    (between b taken put c).step n 2 (.insert () x) =
      some ⟨.quiet b taken put, update (fun _ => c) () (.insert x .fullInserted)⟩ :=
  if_pos hc

theorem between_remove (hc : c.isFree = true) (taken put : List I) :
    (between b taken put c).step n 2 (.remove ()) =
      some ⟨.quiet b taken put, update (fun _ => c) () (.remove .emptyRemoved)⟩ :=
  if_pos hc

/-- The thread finds room in an empty buffer, and is about to store its item. -/
theorem run_to_store (hc : c.isFree = true) :
    run (Sys.step n 2) (between b l l c) (.insert () x :: steps () 7) =
      some (between.at (between b l l c) (some ())
        (.insert x (.store (BitVec.ofNat 32 l.length + 1)))) := by
  rw [run_cons, between_insert hc, Option.bind_some, quiet_to_store (ofNat_sub_self_ne n _),
    update_unit]
  rfl

/-- An insert and a removal, with nothing left of them but the counters. -/
theorem run_round (hc : c.isFree = true) :
    ∃ as b', run (Sys.step n 2) (between b l l c) as =
      some (between b' (l ++ [x]) (l ++ [x]) (.removed x)) := by
  refine ⟨(.insert () x :: steps () 12) ++ (.remove () :: steps () 20),
    update b (slot n l.length) x, ?_⟩
  have hinsert : run (Sys.step n 2) (between b l l c) (.insert () x :: steps () 12) =
      some (between (update b (slot n l.length) x) l (l ++ [x]) (.inserted true)) := by
    rw [run_cons, between_insert hc, Option.bind_some, quiet_insert (ofNat_sub_self_ne n _),
      update_unit]
    rfl
  have hne : ¬ BitVec.ofNat 32 l.length = BitVec.ofNat 32 (l ++ [x]).length := by
    rw [List.length_append]
    exact ofNat_ne_succ _
  rw [run_append hinsert, run_cons, between_remove rfl, Option.bind_some,
    quiet_remove hne (update_self ..), update_unit]
  rfl

/-- Any number of inserts, each one with its removal. -/
theorem run_rounds (n : Capacity) (x : I) (k : Nat) :
    ∃ as b c, run (Sys.step n 2) (Sys.initial Unit x) as =
        some (between b (List.replicate k x) (List.replicate k x) c) ∧ c.isFree = true := by
  induction k with
  | zero => exact ⟨[], fun _ => x, .idle, rfl, rfl⟩
  | succ k ih =>
    obtain ⟨as, b, c, hrun, hc⟩ := ih
    obtain ⟨bs, b', hround⟩ := run_round (n := n) (x := x) (b := b) hc
    refine ⟨as ++ bs, b', .removed x, ?_, rfl⟩
    rw [run_append hrun, hround, List.replicate_succ']

/-- The insert behind `k` others is about to use the index `slot n k`. -/
theorem exists_run_to_slot (n : Capacity) (x : I) (k : Nat) :
    ∃ as s p, run (Sys.step n 2) (Sys.initial Unit x) as = some s ∧
      s.calls () = .insert x (.store p) ∧ cell n p = slot n k := by
  obtain ⟨as, b, c, hrun, hc⟩ := run_rounds n x k
  have hstore := run_to_store (n := n) (b := b) (l := List.replicate k x) (x := x) hc
  rw [List.length_replicate, ofNat_add_one] at hstore
  exact ⟨as ++ (.insert () x :: steps () 7), _, _, (run_append hrun _).trans hstore, rfl, rfl⟩

/-- In a buffer of 50 cells, the capacity that `mythreads.h` sets, the insert with number
`2 ^ 31` stores its item at the index -48. -/
theorem sbuf_index_negative :
    ∃ (as : List (Act Unit Nat)) (s : Sys Unit Nat) (p : BitVec 32),
      run (Sys.step ⟨50, by decide, by decide⟩ 2) (Sys.initial Unit 0) as = some s ∧
      s.calls () = .insert 0 (.store p) ∧ cell ⟨50, by decide, by decide⟩ p = -48 := by
  obtain ⟨as, s, p, hrun, hat, hcell⟩ :=
    exists_run_to_slot ⟨50, by decide, by decide⟩ 0 (2 ^ 31 - 1)
  refine ⟨as, s, p, hrun, hat, ?_⟩
  rw [hcell]
  decide

end

end Stacklets.Mythreads

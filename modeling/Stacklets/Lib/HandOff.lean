import Mathlib.Data.List.Chain
import Mathlib.Data.List.Nodup
import Mathlib.Logic.Function.Basic
import Mathlib.Logic.Relation

/-!
# `Stacklets.Lib.HandOff`: locks that are handed down a line of waiters

An abstract lock whose waiters stand in line. The lock knows only the last one in line, the
`tail`. Everyone else knows who stands right before: that is their `Stand`. Someone who finds
the lock without a tail claims it. A claim can be made for somebody else, and it is confirmed
in a step of its own, which looks whether the tail is still the one claimed for. A newcomer
joins behind the tail. Who leaves passes the lock to the one behind, or drops it.

`Step s e s'` says that the event `e` takes the lock from `s` to `s'`. The lists `granted`,
`entered` and `left` are the histories: who became the tail, who entered the critical section
and who left it.

* `Ordered` is the invariant: the lock is free, or there is one line of waiters, or the lock
  is dead, that is, the tail belongs to nobody who will ever be served. `Step.ordered` keeps it.
* `Ordered.eq_of_inside`, `Ordered.entered_isPrefix` and `Ordered.left_isPrefix` are mutual
  exclusion and the order of service.
* A lock dies only when somebody joins behind a claim that is not confirmed yet. `Clean` is
  the invariant of the runs in which nobody does so, and in which nobody joins behind one
  whose own joining is not finished. `Step.clean` keeps it. In a clean state with a tail
  somebody is being served or about to be (`Clean.exists_served`), and everyone behind
  somebody is reached from there (`Clean.reaches`).
-/

set_option autoImplicit false

namespace Stacklets.Lib.HandOff

open Function (update update_self update_of_ne)

/-- Where one stands with respect to the lock. -/
inductive Stand (α : Type*)
  | absent
  /-- The lock was claimed, and the claim is not confirmed yet. -/
  | claimed
  /-- May enter. -/
  | entitled
  | inside
  /-- The tail was taken from `b`, and `b` does not know it yet. -/
  | joining (b : α)
  /-- Stands right behind `b`, which knows it. -/
  | behind (b : α)
  /-- Stood behind somebody, who forgot it. -/
  | lost
deriving DecidableEq

/-- The one right before. -/
@[simp] def Stand.before {α : Type*} : Stand α → Option α
  | .joining b => some b
  | .behind b => some b
  | _ => none

/-- The lock and its histories, the oldest entry first. -/
@[ext] structure St (α : Type*) where
  tail : Option α
  stand : α → Stand α
  granted : List α
  entered : List α
  left : List α

/-- What happens to the lock. -/
inductive Event (α : Type*)
  | claim (a : α)
  | confirm (a : α)
  | resign (a : α)
  | enter (a : α)
  | join (b a : α)
  | link (b a : α)
  | pass (a w : α)
  | drop (a : α)

section
variable {α : Type*} {s s' : St α} {e : Event α} {a b c h x y : α} {l r : List α}

/-- The event `e` takes the lock from `s` to the state given. -/
inductive Step [DecidableEq α] (s : St α) : Event α → St α → Prop
  | claim (a : α) (free : s.tail = none) (out : s.stand a = .absent) :
      Step s (.claim a) { s with
        tail := some a
        stand := update s.stand a .claimed
        granted := s.granted ++ [a] }
  | confirm (a : α) (mine : s.stand a = .claimed) (last : s.tail = some a) :
      Step s (.confirm a) { s with stand := update s.stand a .entitled }
  | resign (a : α) (mine : s.stand a = .claimed) (other : s.tail ≠ some a) :
      Step s (.resign a) { s with stand := update s.stand a .absent }
  | enter (a : α) (may : s.stand a = .entitled) :
      Step s (.enter a) { s with
        stand := update s.stand a .inside
        entered := s.entered ++ [a] }
  | join (b a : α) (last : s.tail = some b) (out : s.stand a = .absent) :
      Step s (.join b a) { s with
        tail := some a
        stand := update s.stand a (.joining b)
        granted := s.granted ++ [a] }
  -- `b` remembers one follower only: whoever stood behind `b` is lost
  | link (b a : α) (joins : s.stand a = .joining b) :
      Step s (.link b a) { s with
        stand := fun c =>
          if c = a then .behind b else if s.stand c = .behind b then .lost else s.stand c }
  | pass (a w : α) (served : s.stand a = .inside) (next : s.stand w = .behind a) :
      Step s (.pass a w) { s with
        stand := update (update s.stand a .absent) w .entitled
        left := s.left ++ [a] }
  | drop (a : α) (served : s.stand a = .inside) (none : ∀ w, (s.stand w).before ≠ some a) :
      Step s (.drop a) { s with
        tail := Option.none
        stand := update s.stand a .absent
        left := s.left ++ [a] }


/-! ### A line of waiters -/

/-- `h` and then the members of `r` stand in line, and nobody else has to do with the lock. -/
structure InLine (s : St α) (h : α) (r : List α) : Prop where
  tail : s.tail = (h :: r).getLast?
  nodup : (h :: r).Nodup
  chain : (h :: r).IsChain fun x y => (s.stand y).before = some x
  others : ∀ c, c ∉ h :: r → s.stand c = .absent

/-- In a chain everyone but the first has somebody before, and this is not the last one. -/
theorem exists_before_of_isChain {R : α → α → Prop} (hl : (a :: l).IsChain R) (hy : y ∈ l) :
    ∃ x ∈ (a :: l).dropLast, R x y := by
  induction l generalizing a with
  | nil => simp at hy
  | cons b t ih =>
    rw [List.isChain_cons_cons] at hl
    rw [List.dropLast_cons_cons]
    rcases List.mem_cons.mp hy with rfl | hy
    · exact ⟨a, List.mem_cons_self, hl.1⟩
    · obtain ⟨x, hx, hR⟩ := ih hl.2 hy
      exact ⟨x, List.mem_cons_of_mem _ hx, hR⟩

/-- Who is before whom determines the chain, so nobody has two followers. -/
theorem eq_of_isChain_before {f : α → Option α} (hn : (a :: l).Nodup)
    (hl : (a :: l).IsChain fun x y => f y = some x) {y z : α} (hy : y ∈ l) (hz : z ∈ l)
    (he : f y = f z) : y = z := by
  induction l generalizing a with
  | nil => simp at hy
  | cons b t ih =>
    rw [List.isChain_cons_cons] at hl
    have hout : ∀ {v}, v ∈ t → f v ≠ some a := by
      -- the one before `v` is in the chain that starts at `b`, where `a` is not
      intro v hv hva
      obtain ⟨x, hx, hR⟩ := exists_before_of_isChain hl.2 hv
      rw [hva] at hR
      cases hR
      exact (List.nodup_cons.mp hn).1 ((List.dropLast_sublist _).subset hx)
    rcases List.mem_cons.mp hy with hyb | hy <;> rcases List.mem_cons.mp hz with hzb | hz
    · rw [hyb, hzb]
    · exact absurd (he ▸ hyb ▸ hl.1) (hout hz)
    · exact absurd (he ▸ hzb ▸ hl.1) (hout hy)
    · exact ih (List.nodup_cons.mp hn).2 hl.2 hy hz

namespace InLine

theorem exists_before (hs : InLine s h r) (hy : y ∈ r) : ∃ x, (s.stand y).before = some x :=
  let ⟨x, _, hx⟩ := exists_before_of_isChain hs.chain hy
  ⟨x, hx⟩

theorem mem_of_ne (hs : InLine s h r) (hc : s.stand c ≠ .absent) : c = h ∨ c ∈ r := by
  by_contra hout
  exact hc (hs.others c (by simpa using hout))

/-- Who has nobody before, and has to do with the lock, is the first. -/
theorem eq_first (hs : InLine s h r) (hc : s.stand c ≠ .absent)
    (hb : (s.stand c).before = none) : c = h := by
  rcases hs.mem_of_ne hc with rfl | hr
  · rfl
  · obtain ⟨x, hx⟩ := hs.exists_before hr
    rw [hb] at hx
    cases hx

theorem mem_of_before (hs : InLine s h r) (hh : (s.stand h).before = none)
    (hy : (s.stand y).before = some x) : y ∈ r := by
  have hne : s.stand y ≠ .absent := by
    intro ha
    rw [ha] at hy
    cases hy
  rcases hs.mem_of_ne hne with rfl | hr
  · rw [hh] at hy
    cases hy
  · exact hr

/-- The one before somebody is not the last in line. -/
theorem before_mem_dropLast (hs : InLine s h r) (hh : (s.stand h).before = none)
    (hy : (s.stand y).before = some x) : x ∈ (h :: r).dropLast := by
  obtain ⟨x', hx', hR⟩ := exists_before_of_isChain hs.chain (hs.mem_of_before hh hy)
  rw [hy] at hR
  cases hR
  exact hx'

/-- Nobody stands behind the tail. -/
theorem before_ne_tail (hs : InLine s h r) (hh : (s.stand h).before = none)
    (hy : (s.stand y).before = some x) : s.tail ≠ some x := by
  intro ht
  have hx := hs.before_mem_dropLast hh hy
  rw [hs.tail, List.getLast?_eq_some_getLast (List.cons_ne_nil h r), Option.some_inj] at ht
  have hn := hs.nodup
  rw [← List.dropLast_append_getLast (List.cons_ne_nil h r), ht, List.nodup_append] at hn
  exact hn.2.2 x hx x (List.mem_singleton_self x) rfl

/-- Nobody has two followers. -/
theorem eq_of_before (hs : InLine s h r) (hh : (s.stand h).before = none)
    (hy : (s.stand y).before = some x) (hc : (s.stand c).before = some x) : y = c :=
  eq_of_isChain_before (f := fun v => (s.stand v).before) hs.nodup hs.chain
    (hs.mem_of_before hh hy) (hs.mem_of_before hh hc) (hy.trans hc.symm)

/-- The one behind the first is the second. -/
theorem eq_cons (hs : InLine s h r) (hh : (s.stand h).before = none)
    (hy : (s.stand y).before = some h) : ∃ r', r = y :: r' := by
  cases r with
  | nil => exact absurd (hs.mem_of_before hh hy) (by simp)
  | cons b t =>
    have hb := (List.isChain_cons_cons.mp hs.chain).1
    rw [hs.eq_of_before hh hy hb]
    exact ⟨t, rfl⟩

/-- If nobody stands behind the first, nobody waits. -/
theorem eq_nil (hs : InLine s h r) (hw : ∀ w, (s.stand w).before ≠ some h) : r = [] := by
  cases r with
  | nil => rfl
  | cons w r => exact absurd (List.isChain_cons_cons.mp hs.chain).1 (hw w)

/-- A change of stands that keeps who is before whom behind the first. -/
theorem congr (hs : InLine s h r) (ht : s'.tail = s.tail)
    (hr : ∀ y ∈ r, (s'.stand y).before = (s.stand y).before)
    (ho : ∀ c, c ∉ h :: r → s'.stand c = s.stand c) : InLine s' h r where
  tail := ht.trans hs.tail
  nodup := hs.nodup
  chain := hs.chain.imp_of_mem_tail_imp fun _ y _ hy hxy => (hr y hy).trans hxy
  others c hc := (ho c hc).trans (hs.others c hc)

/-- A change of the stand of the first. -/
theorem congr_first (hs : InLine s h r) (ht : s'.tail = s.tail)
    (hst : ∀ c, c ≠ h → s'.stand c = s.stand c) : InLine s' h r := by
  refine hs.congr ht (fun y hy => ?_) (fun c hc => hst c (List.ne_of_not_mem_cons hc))
  rw [hst y (ne_of_mem_of_not_mem hy (List.nodup_cons.mp hs.nodup).1)]

theorem notMem_of_absent (hs : InLine s h r) (hh : s.stand h ≠ .absent)
    (ha : s.stand a = .absent) : a ∉ h :: r := by
  intro hmem
  rcases List.mem_cons.mp hmem with rfl | hr
  · exact hh ha
  · obtain ⟨x, hx⟩ := hs.exists_before hr
    rw [ha] at hx
    cases hx

variable [DecidableEq α]

/-- Somebody joins behind the tail. -/
theorem append (hs : InLine s h r) (hh : s.stand h ≠ .absent) (hb : s.tail = some b)
    (ha : s.stand a = .absent) (ht : s'.tail = some a)
    (hst : s'.stand = update s.stand a (.joining b)) : InLine s' h (r ++ [a]) := by
  have hmem := hs.notMem_of_absent hh ha
  have hold : ∀ y ∈ h :: r, s'.stand y = s.stand y := by
    rintro y hy
    rw [hst]
    exact update_of_ne (ne_of_mem_of_not_mem hy hmem) _ _
  have hnew : s'.stand a = .joining b := by rw [hst, update_self]
  refine ⟨?_, ?_, ?_, ?_⟩
  · rw [ht, ← List.cons_append, List.getLast?_concat]
  · rw [← List.cons_append]
    refine List.nodup_append.mpr ⟨hs.nodup, List.nodup_singleton a, fun x hx y hy => ?_⟩
    rw [List.mem_singleton.mp hy]
    exact ne_of_mem_of_not_mem hx hmem
  · rw [← List.cons_append]
    refine (hs.chain.imp_of_mem_tail_imp fun _ y _ hy hxy => ?_).append
      (List.isChain_singleton a) ?_
    · rw [hold y (List.mem_cons_of_mem h hy)]
      exact hxy
    · -- the old tail stands before the newcomer
      intro x hx y hy
      rw [List.head?_singleton, Option.mem_some_iff] at hy
      rw [← hs.tail, hb, Option.mem_some_iff] at hx
      rw [← hy, ← hx, hnew, Stand.before]
  · intro c hc
    rw [← List.cons_append, List.mem_append, not_or, List.mem_singleton] at hc
    rw [hst, update_of_ne hc.2]
    exact hs.others c hc.1

/-- The link of the follower `a` of `b`, which is the only one. -/
theorem link (hs : InLine s h r) (hh : (s.stand h).before = none) (ha : s.stand a = .joining b)
    (ht : s'.tail = s.tail)
    (hst : s'.stand = fun c =>
      if c = a then .behind b else if s.stand c = .behind b then .lost else s.stand c) :
    InLine s' h r := by
  have hbefore : (s.stand a).before = some b := by rw [ha, Stand.before]
  have hone : ∀ c, c ≠ a → s.stand c ≠ .behind b := by
    intro c hca hcb
    refine hca (hs.eq_of_before hh ?_ hbefore)
    rw [hcb, Stand.before]
  refine hs.congr ht (fun y _ => ?_) fun c hc => ?_
  · by_cases hy : y = a
    · simp [hst, hy, ha]
    · simp [hst, hy, hone y hy]
  · have hca : c ≠ a := by
      rintro rfl
      simp [hs.others c hc] at ha
    simp [hst, hca, hone c hca]

end InLine

/-! ### The invariant -/

/-- The lock is free, or there is a line whose first may enter or is inside, or the lock is
dead. Each case says what the histories are. -/
inductive Ordered (s : St α) : Prop
  | free (tail : s.tail = none) (absent : ∀ c, s.stand c = .absent)
      (granted : s.granted = s.entered) (left : s.left = s.entered)
  | waiting (h : α) (r : List α) (line : InLine s h r)
      (first : s.stand h = .entitled ∨ s.stand h = .claimed ∧ r = [])
      (granted : s.granted = s.entered ++ h :: r) (left : s.left = s.entered)
  | serving (h : α) (r : List α) (line : InLine s h r) (first : s.stand h = .inside)
      (granted : s.granted = s.entered ++ r) (left : s.entered = s.left ++ [h])
  | dead (c : α) (tail : s.tail = some c)
      (stuck : s.stand c = .lost ∨ ∃ b, (s.stand c).before = some b)
      (none : ∀ c, s.stand c ≠ .inside ∧ s.stand c ≠ .entitled)
      (granted : s.entered <+: s.granted) (left : s.left = s.entered)

namespace Ordered

/-- The first of a line that waits has nobody before. -/
theorem before_first (h₁ : s.stand h = .entitled ∨ s.stand h = .claimed ∧ r = []) :
    (s.stand h).before = none ∧ s.stand h ≠ .absent := by
  rcases h₁ with h₁ | ⟨h₁, -⟩ <;> simp [h₁]

/-- Who is inside is the first in line. -/
theorem line_of_inside (hs : Ordered s) (ha : s.stand a = .inside) :
    ∃ r, InLine s a r ∧ s.granted = s.entered ++ r ∧ s.entered = s.left ++ [a] := by
  cases hs with
  | free _ habs => simp [habs a] at ha
  | waiting h r line first =>
    obtain rfl : a = h := line.eq_first (by simp [ha]) (by simp [ha])
    simp [ha] at first
  | serving h r line first hg hl =>
    obtain rfl : a = h := line.eq_first (by simp [ha]) (by simp [ha])
    exact ⟨r, line, hg, hl⟩
  | dead c htail hstuck hnone => exact absurd ha (hnone a).1

/-- Mutual exclusion. -/
theorem eq_of_inside (hs : Ordered s) (ha : s.stand a = .inside) (hb : s.stand b = .inside) :
    a = b := by
  obtain ⟨r, line, -⟩ := hs.line_of_inside ha
  exact (line.eq_first (by simp [hb]) (by simp [hb])).symm

/-- They enter in the order in which they became the tail. -/
theorem entered_isPrefix (hs : Ordered s) : s.entered <+: s.granted := by
  cases hs with
  | free _ _ hg => exact hg ▸ List.prefix_rfl
  | waiting h r _ _ hg | serving h r _ _ hg => exact hg ▸ List.prefix_append _ _
  | dead _ _ _ _ hg => exact hg

/-- They leave in the order in which they entered. -/
theorem left_isPrefix (hs : Ordered s) : s.left <+: s.entered := by
  cases hs with
  | free _ _ _ hl | waiting h r _ _ _ hl | dead _ _ _ _ _ hl => exact hl ▸ List.prefix_rfl
  | serving h r _ _ _ hl => exact hl ▸ List.prefix_append _ _

/-- At most one of those who entered has not left. -/
theorem length_entered_le (hs : Ordered s) : s.entered.length ≤ s.left.length + 1 := by
  cases hs with
  | free _ _ _ hl | waiting h r _ _ _ hl | dead _ _ _ _ _ hl => rw [hl]; omega
  | serving h r _ _ _ hl => rw [hl, List.length_append, List.length_singleton]

/-- When somebody may enter, everyone who entered has left. -/
theorem left_eq_entered (hs : Ordered s) (ha : s.stand a = .entitled) : s.left = s.entered := by
  cases hs with
  | free _ _ _ hl => exact hl
  | waiting h r _ _ _ hl => exact hl
  | serving h r line first =>
    obtain rfl : a = h := line.eq_first (by simp [ha]) (by simp [ha])
    simp [ha] at first
  | dead _ _ _ _ _ hl => exact hl

/-- The tail has to do with the lock. -/
theorem stand_tail_ne_absent (hs : Ordered s) (ht : s.tail = some a) : s.stand a ≠ .absent := by
  have hline : ∀ {h r}, InLine s h r → s.stand h ≠ .absent → s.stand a ≠ .absent := by
    intro h r line hh ha
    refine line.notMem_of_absent hh ha (List.mem_of_getLast? ?_)
    rw [← line.tail, ht]
  cases hs with
  | free htail => simp [htail] at ht
  | waiting h r line first => exact hline line (before_first first).2
  | serving h r line first => exact hline line (by simp [first])
  | dead c htail hstuck =>
    obtain rfl : a = c := Option.some.inj (ht.symm.trans htail)
    intro ha
    simp [ha] at hstuck

/-- Who is inside with nobody behind is the tail. -/
theorem tail_of_inside (hs : Ordered s) (ha : s.stand a = .inside)
    (hw : ∀ w, (s.stand w).before ≠ some a) : s.tail = some a := by
  obtain ⟨r, line, -⟩ := hs.line_of_inside ha
  obtain rfl := line.eq_nil hw
  exact line.tail

variable [DecidableEq α]

/-- Nobody is served when one stand changes to a `v` that is not served. -/
theorem none_update {v : Stand α} (hv : v ≠ .inside ∧ v ≠ .entitled)
    (hnone : ∀ d, d ≠ a → s.stand d ≠ .inside ∧ s.stand d ≠ .entitled) (d : α) :
    update s.stand a v d ≠ .inside ∧ update s.stand a v d ≠ .entitled := by
  by_cases hd : d = a
  · rw [hd, update_self]
    exact hv
  · rw [update_of_ne hd]
    exact hnone d hd

/-- Somebody claims a lock without a tail. -/
theorem claim (hs : Ordered s) (ht : s.tail = none) :
    Ordered { s with
      tail := some a
      stand := update s.stand a .claimed
      granted := s.granted ++ [a] } := by
  cases hs with
  | free _ habs hg hl =>
    have hline : InLine ⟨some a, update s.stand a .claimed,
        s.granted ++ [a], s.entered, s.left⟩ a [] :=
      ⟨rfl, List.nodup_singleton a, List.isChain_singleton a, fun c hc => by simp_all⟩
    exact .waiting a [] hline (.inr ⟨by simp, rfl⟩) (by simp [hg]) hl
  | waiting h r line => simp [line.tail] at ht
  | serving h r line => simp [line.tail] at ht
  | dead c htail => simp [htail] at ht

/-- A claim that the tail still names is confirmed. -/
theorem confirm (hs : Ordered s) (ha : s.stand a = .claimed) (ht : s.tail = some a) :
    Ordered { s with stand := update s.stand a .entitled } := by
  cases hs with
  | free _ habs => simp [habs a] at ha
  | waiting h r line first hg hl =>
    obtain rfl : a = h := line.eq_first (by simp [ha]) (by simp [ha])
    exact .waiting a r (line.congr_first rfl fun c hc => by simp [hc]) (.inl (by simp)) hg hl
  | serving h r line first =>
    obtain rfl : a = h := line.eq_first (by simp [ha]) (by simp [ha])
    simp [ha] at first
  | dead c htail hstuck =>
    obtain rfl : a = c := Option.some.inj (ht.symm.trans htail)
    simp [ha] at hstuck

/-- A claim that the tail does not name any more is given up. This happens to a dead lock
only. -/
theorem resign (hs : Ordered s) (ha : s.stand a = .claimed) (ht : s.tail ≠ some a) :
    Ordered { s with stand := update s.stand a .absent } := by
  cases hs with
  | free _ habs => simp [habs a] at ha
  | waiting h r line first =>
    obtain rfl : a = h := line.eq_first (by simp [ha]) (by simp [ha])
    rcases first with first | ⟨-, rfl⟩
    · simp [ha] at first
    · exact absurd line.tail ht
  | serving h r line first =>
    obtain rfl : a = h := line.eq_first (by simp [ha]) (by simp [ha])
    simp [ha] at first
  | dead c htail hstuck hnone hg hl =>
    have hca : c ≠ a := fun h => ht (h ▸ htail)
    exact .dead c htail (by simpa [hca] using hstuck)
      (none_update (by simp) fun d _ => hnone d) hg hl

/-- The first enters. -/
theorem enter (hs : Ordered s) (ha : s.stand a = .entitled) :
    Ordered { s with
      stand := update s.stand a .inside
      entered := s.entered ++ [a] } := by
  cases hs with
  | free _ habs => simp [habs a] at ha
  | waiting h r line first hg hl =>
    obtain rfl : a = h := line.eq_first (by simp [ha]) (by simp [ha])
    exact .serving a r (line.congr_first rfl fun c hc => by simp [hc]) (by simp) (by simp [hg])
      (by simp [hl])
  | serving h r line first =>
    obtain rfl : a = h := line.eq_first (by simp [ha]) (by simp [ha])
    simp [ha] at first
  | dead c htail hstuck hnone => exact absurd ha (hnone a).2

/-- Somebody joins behind the tail. If the tail is a claim that is not confirmed yet, the lock
dies: the claim will find another tail. -/
theorem join (hs : Ordered s) (ht : s.tail = some b) (ha : s.stand a = .absent) :
    Ordered { s with
      tail := some a
      stand := update s.stand a (.joining b)
      granted := s.granted ++ [a] } := by
  cases hs with
  | free htail => simp [htail] at ht
  | waiting h r line first hg hl =>
    have hah : h ≠ a := fun hh => (before_first first).2 (hh ▸ ha)
    rcases first with first | ⟨first, rfl⟩
    · exact .waiting h (r ++ [a]) (line.append (by simp [first]) ht ha rfl rfl)
        (.inl (by simpa [hah] using first)) (by simp [hg]) hl
    · refine .dead a rfl (.inr ⟨b, by simp⟩) (none_update (by simp) fun d _ => ?_) ?_ hl
      · by_cases hdh : d = h
        · simp [hdh, first]
        · simp [line.others d (by simpa using hdh)]
      · rw [hg, List.append_assoc]
        exact List.prefix_append _ _
  | serving h r line first hg hl =>
    have hah : h ≠ a := fun hh => by simp [hh, ha] at first
    exact .serving h (r ++ [a]) (line.append (by simp [first]) ht ha rfl rfl)
      (by simpa [hah] using first) (by simp [hg]) hl
  | dead c htail hstuck hnone hg hl =>
    exact .dead a rfl (.inr ⟨b, by simp⟩) (none_update (by simp) fun d _ => hnone d)
      (hg.trans (List.prefix_append _ _)) hl

/-- The link of the follower. Nobody is forgotten, unless the lock is dead. -/
theorem link (hs : Ordered s) (ha : s.stand a = .joining b) :
    Ordered { s with
      stand := fun c =>
        if c = a then .behind b else if s.stand c = .behind b then .lost else s.stand c } := by
  have hfirst : ∀ {h}, (s.stand h).before = none → h ≠ a ∧ s.stand h ≠ .behind b := fun hh =>
    ⟨by rintro rfl; simp [ha] at hh, by intro h'; simp [h'] at hh⟩
  cases hs with
  | free _ habs => simp [habs a] at ha
  | waiting h r line first hg hl =>
    have hh := (before_first first).1
    exact .waiting h r (line.link hh ha rfl rfl) (by simpa [hfirst hh] using first) hg hl
  | serving h r line first hg hl =>
    have hh : (s.stand h).before = none := by simp [first]
    exact .serving h r (line.link hh ha rfl rfl) (by simpa [hfirst hh] using first) hg hl
  | dead c htail hstuck hnone hg hl =>
    refine .dead c htail ?_ (fun d => ?_) hg hl
    · by_cases hca : c = a
      · exact .inr ⟨b, by simp [hca]⟩
      · by_cases hcb : s.stand c = .behind b
        · exact .inl (by simp [hca, hcb])
        · simpa [hca, hcb] using hstuck
    · by_cases hda : d = a
      · simp [hda]
      · by_cases hdb : s.stand d = .behind b
        · simp [hda, hdb]
        · simpa [hda, hdb] using hnone d

/-- Who is inside leaves, and passes the lock to the one behind. -/
theorem pass {w : α} (hs : Ordered s) (ha : s.stand a = .inside) (hw : s.stand w = .behind a) :
    Ordered { s with
      stand := update (update s.stand a .absent) w .entitled
      left := s.left ++ [a] } := by
  obtain ⟨r, line, hg, hl⟩ := hs.line_of_inside ha
  obtain ⟨r', rfl⟩ := line.eq_cons (by simp [ha]) (show (s.stand w).before = some a by simp [hw])
  obtain ⟨hna, hnw⟩ := List.nodup_cons.mp line.nodup
  have hold : ∀ c, c ≠ w → c ≠ a →
      update (update s.stand a .absent) w .entitled c = s.stand c := by
    intro c hcw hca
    rw [update_of_ne hcw, update_of_ne hca]
  refine .waiting w r' ⟨?_, hnw, ?_, fun c hc => ?_⟩ (.inl (by simp)) hg hl.symm
  · rw [← List.getLast?_cons_cons]
    exact line.tail
  · refine (List.isChain_cons_cons.mp line.chain).2.imp_of_mem_tail_imp fun _ y _ hy hxy => ?_
    show (update (update s.stand a .absent) w .entitled y).before = _
    rw [hold y (ne_of_mem_of_not_mem hy (List.nodup_cons.mp hnw).1)
      (ne_of_mem_of_not_mem (List.mem_cons_of_mem w hy) hna)]
    exact hxy
  · show update (update s.stand a .absent) w .entitled c = _
    have hcw := List.ne_of_not_mem_cons hc
    by_cases hca : c = a
    · rw [update_of_ne hcw, hca, update_self]
    · rw [hold c hcw hca]
      exact line.others c (List.not_mem_cons_of_ne_of_not_mem hca hc)

/-- Who is inside leaves with nobody behind, and the lock is free. -/
theorem drop (hs : Ordered s) (ha : s.stand a = .inside)
    (hw : ∀ w, (s.stand w).before ≠ some a) :
    Ordered { s with
      tail := none
      stand := update s.stand a .absent
      left := s.left ++ [a] } := by
  obtain ⟨r, line, hg, hl⟩ := hs.line_of_inside ha
  obtain rfl := line.eq_nil hw
  refine .free rfl (fun c => ?_) (by simpa using hg) hl.symm
  by_cases hca : c = a
  · simp [hca]
  · simpa [hca] using line.others c (by simpa using hca)

end Ordered

/-- Every step keeps the order. -/
theorem Step.ordered [DecidableEq α] (h : Step s e s') (hs : Ordered s) : Ordered s' := by
  cases h with
  | claim a free out => exact hs.claim free
  | confirm a mine last => exact hs.confirm mine last
  | resign a mine other => exact hs.resign mine other
  | enter a may => exact hs.enter may
  | join b a last out => exact hs.join last out
  | link b a joins => exact hs.link joins
  | pass a w served next => exact hs.pass served next
  | drop a served none => exact hs.drop served none

/-! ### Locks that do not die -/

/-- `c` is inside, or may enter, or is about to learn that the lock was claimed for it. -/
def Served (s : St α) (c : α) : Prop :=
  s.stand c = .inside ∨ s.stand c = .entitled ∨ s.stand c = .claimed ∧ s.tail = some c

/-- Somebody is served unless the lock is free, and only the tail can still be joining. -/
structure Clean (s : St α) : Prop where
  served : s.tail = none ∨ ∃ c, Served s c
  joining : ∀ y b, s.stand y = .joining b → s.tail = some y

namespace Clean

theorem exists_served (hc : Clean s) (ht : s.tail ≠ none) : ∃ c, Served s c :=
  hc.served.resolve_left ht

/-- In a clean state there is a line, unless the lock is free. -/
theorem line (hc : Clean s) (hs : Ordered s) (hy : s.stand y ≠ .absent) :
    ∃ h r, InLine s h r ∧ Served s h ∧ (s.stand h).before = none := by
  cases hs with
  | free _ habs => exact absurd (habs y) hy
  | waiting h r line first =>
    refine ⟨h, r, line, ?_, (Ordered.before_first first).1⟩
    rcases first with first | ⟨first, rfl⟩
    · exact .inr (.inl first)
    · exact .inr (.inr ⟨first, line.tail⟩)
  | serving h r line first => exact ⟨h, r, line, .inl first, by simp [first]⟩
  | dead c htail hstuck hnone =>
    obtain ⟨d, hd | hd | ⟨hd, ht⟩⟩ := hc.exists_served (by simp [htail])
    · exact absurd hd (hnone d).1
    · exact absurd hd (hnone d).2
    · obtain rfl : d = c := Option.some.inj (ht.symm.trans htail)
      simp [hd] at hstuck

/-- Nobody is forgotten. -/
theorem stand_ne_lost (hc : Clean s) (hs : Ordered s) : s.stand y ≠ .lost := by
  intro hy
  obtain ⟨h, r, line, hserved, -⟩ := hc.line hs (show s.stand y ≠ .absent by simp [hy])
  obtain rfl : y = h := line.eq_first (by simp [hy]) (by simp [hy])
  simp [Served, hy] at hserved

/-- Who may enter, or is behind somebody, is reached from one who is served. -/
theorem reaches (hc : Clean s) (hs : Ordered s) (hy : s.stand y = .behind x) :
    ∃ h, Served s h ∧ Relation.ReflTransGen (fun x y => s.stand y = .behind x) h y := by
  obtain ⟨h, r, line, hserved, hh⟩ := hc.line hs (show s.stand y ≠ .absent by simp [hy])
  refine ⟨h, hserved, ?_⟩
  have hnot : ∀ {u v}, (s.stand v).before = some u → s.tail ≠ some u :=
    fun hv => line.before_ne_tail hh hv
  -- down the line everyone is reached, up to the tail, which may still be joining
  have hall : ∀ v ∈ h :: r, s.tail = some v ∨
      Relation.ReflTransGen (fun x y => s.stand y = .behind x) h v := by
    refine line.chain.induction _ _ (fun u v huv hu => ?_) fun _ => .inr .refl
    have hreach := hu.resolve_left (hnot huv)
    cases hst : s.stand v <;> rw [hst] at huv <;> cases huv
    · exact .inl (hc.joining v u hst)
    · exact .inr (hreach.tail hst)
  have hbefore : (s.stand y).before = some x := by rw [hy, Stand.before]
  have hx : x ∈ h :: r := (List.dropLast_sublist _).subset (line.before_mem_dropLast hh hbefore)
  exact ((hall x hx).resolve_left (hnot hbefore)).tail hy

/-- A change of one stand to a `v` that is not joining adds nobody who is. -/
theorem joining_update [DecidableEq α] {v : Stand α} (hc : Clean s) (hv : ∀ b, v ≠ .joining b)
    (y b : α) (hy : update s.stand a v y = .joining b) : s.tail = some y := by
  by_cases hya : y = a
  · rw [hya, update_self] at hy
    exact absurd hy (hv b)
  · rw [update_of_ne hya] at hy
    exact hc.joining y b hy

end Clean

/-- A step keeps a clean state clean, if nobody joins behind a claim that is not confirmed or
behind one who is still joining. -/
theorem Step.clean [DecidableEq α] (h : Step s e s') (hs : Ordered s) (hc : Clean s)
    (hjoin : ∀ b a, e = .join b a → s.stand b ≠ .claimed ∧ ∀ x, s.stand b ≠ .joining x) :
    Clean s' := by
  cases h with
  | claim a free out =>
    refine ⟨.inr ⟨a, .inr (.inr ⟨by simp, rfl⟩)⟩, fun y b hy => ?_⟩
    have := hc.joining_update (by simp) y b hy
    rw [free] at this
    cases this
  | confirm a mine last =>
    exact ⟨.inr ⟨a, .inr (.inl (by simp))⟩, hc.joining_update (by simp)⟩
  | resign a mine other =>
    -- a claim is the only one in line, and so the tail
    obtain ⟨h, r, line, hserved, -⟩ := hc.line hs (show s.stand a ≠ .absent by simp [mine])
    obtain rfl : a = h := line.eq_first (by simp [mine]) (by simp [mine])
    simp [Served, mine, other] at hserved
  | enter a may => exact ⟨.inr ⟨a, .inl (by simp)⟩, hc.joining_update (by simp)⟩
  | join b a last out =>
    obtain ⟨hclaimed, hjoining⟩ := hjoin b a rfl
    obtain ⟨c, hserved⟩ := hc.exists_served (by simp [last])
    have hca : c ≠ a := by
      rintro rfl
      simp [Served, out] at hserved
    refine ⟨.inr ⟨c, ?_⟩, fun y x hy => ?_⟩
    · rcases hserved with hin | hen | ⟨hcl, ht⟩
      · exact .inl (by simpa [hca] using hin)
      · exact .inr (.inl (by simpa [hca] using hen))
      · -- the one served is the tail, and not only claimed for
        obtain rfl : b = c := Option.some.inj (last.symm.trans ht)
        exact absurd hcl hclaimed
    · by_cases hya : y = a
      · exact congrArg some hya.symm
      · have hold : s.stand y = .joining x := by simpa [hya] using hy
        obtain rfl : b = y := Option.some.inj (last.symm.trans (hc.joining y x hold))
        exact absurd hold (hjoining x)
  | link b a joins =>
    refine ⟨hc.served.imp_right ?_, fun y x hy => ?_⟩
    · rintro ⟨c, hserved⟩
      refine ⟨c, ?_⟩
      have hca : c ≠ a := by
        rintro rfl
        simp [Served, joins] at hserved
      have hcb : s.stand c ≠ .behind b := by
        intro hcb
        simp [Served, hcb] at hserved
      simpa [Served, hca, hcb] using hserved
    · by_cases hya : y = a
      · simp [hya] at hy
      · by_cases hyb : s.stand y = .behind b
        · simp [hya, hyb] at hy
        · exact hc.joining y x (by simpa [hya, hyb] using hy)
  | pass a w served next =>
    refine ⟨.inr ⟨w, .inr (.inl (by simp))⟩, fun y x hy => ?_⟩
    by_cases hyw : y = w
    · simp [hyw] at hy
    · exact hc.joining_update (a := a) (v := .absent) (by simp) y x (by simpa [hyw] using hy)
  | drop a served none =>
    refine ⟨.inl rfl, fun y x hy => ?_⟩
    -- whoever is joining is the tail, and the tail leaves
    have hy' := hc.joining_update (by simp) y x hy
    rw [hs.tail_of_inside served none] at hy'
    cases hy'
    simp at hy

end

end Stacklets.Lib.HandOff

import Mathlib.Data.List.Nodup
import Mathlib.Data.List.Perm.Subperm

/-!
# `Stacklets.Lib.Apart`: things that are in one place at most

Every place `i` has a list `c i` of the things that are there. `Apart c` says that no thing is in
two places, and in no place twice. The rules say what keeps this: things that come in and were
nowhere before (`Apart.addAll`, and `Apart.add` for one), things that get lost (`Apart.shrink`), and
things that change between two places (`Apart.exchange`).
-/

set_option autoImplicit false

namespace Stacklets.Lib

variable {ι α : Type*} {c c' : ι → List α} {i j : ι}

/-- No thing is in two places, and in no place twice. -/
structure Apart (c : ι → List α) : Prop where
  nodup : ∀ i, (c i).Nodup
  unique : ∀ {i j a}, a ∈ c i → a ∈ c j → i = j

namespace Apart

/-- A thing that is at one place is not at another. -/
theorem not_mem {a : α} (h : Apart c) (ha : a ∈ c i) (hij : i ≠ j) : a ∉ c j :=
  fun hj => hij (h.unique ha hj)

/-- The things in two places are all different. -/
theorem nodup_append (h : Apart c) (hij : i ≠ j) : (c i ++ c j).Nodup :=
  List.nodup_append.mpr ⟨h.nodup i, h.nodup j, fun _ ha _ hb hab =>
    hij (h.unique ha (hab ▸ hb))⟩

/-- At the place `i` there are only things that were there before, or that were in no other
place. -/
theorem of_subset (h : Apart c) (hi : (c' i).Nodup)
    (hsub : ∀ a ∈ c' i, ∀ k, k ≠ i → a ∉ c k) (hother : ∀ k, k ≠ i → c' k = c k) : Apart c' := by
  have hback : ∀ k, k ≠ i → ∀ a, a ∈ c' k → a ∈ c k := fun k hk a ha => hother k hk ▸ ha
  constructor
  · intro k
    by_cases hk : k = i
    · rw [hk]
      exact hi
    · rw [hother k hk]
      exact h.nodup k
  · intro k l a hk hl
    by_cases hki : k = i
    · by_cases hli : l = i
      · rw [hki, hli]
      · exact absurd (hback l hli a hl) (hsub a (hki ▸ hk) l hli)
    · by_cases hli : l = i
      · exact absurd (hback k hki a hk) (hsub a (hli ▸ hl) k hki)
      · exact h.unique (hback k hki a hk) (hback l hli a hl)

/-- Different things that were nowhere come to the place `i`, and some of those there get lost. -/
theorem addAll (h : Apart c) {l : List α} (hl : l.Nodup) (hfresh : ∀ a ∈ l, ∀ k, a ∉ c k)
    (hi : (c' i).Subperm (l ++ c i)) (hother : ∀ k, k ≠ i → c' k = c k) : Apart c' := by
  obtain ⟨r, hperm, hsub⟩ := hi
  have hnodup : (l ++ c i).Nodup :=
    List.nodup_append.mpr ⟨hl, h.nodup i, fun a ha b hb hab => hfresh a ha i (hab ▸ hb)⟩
  refine h.of_subset (hperm.nodup_iff.mp (hnodup.sublist hsub)) ?_ hother
  intro b hb k hk hin
  rcases List.mem_append.mp (hsub.subset (hperm.mem_iff.mpr hb)) with hb | hold
  · exact hfresh b hb k hin
  · exact hk (h.unique hin hold)

/-- Some of the things at the place `i` get lost. -/
theorem shrink (h : Apart c) (hi : (c' i).Subperm (c i)) (hother : ∀ k, k ≠ i → c' k = c k) :
    Apart c' :=
  h.addAll (l := []) List.nodup_nil nofun hi hother

/-- A thing that was nowhere comes to the place `i`. -/
theorem add {a : α} (h : Apart c) (ha : ∀ k, a ∉ c k) (hi : (c' i).Subperm (a :: c i))
    (hother : ∀ k, k ≠ i → c' k = c k) : Apart c' :=
  h.addAll (List.nodup_singleton a) (fun _ hb => List.mem_singleton.mp hb ▸ ha) hi hother

/-- The things at the places `i` and `j` are divided between the two in another way. -/
theorem exchange (h : Apart c) (hij : i ≠ j) (hsum : (c' i ++ c' j).Subperm (c i ++ c j))
    (hother : ∀ k, k ≠ i → k ≠ j → c' k = c k) : Apart c' := by
  obtain ⟨l, hperm, hsub⟩ := hsum
  have hnodup : (c' i ++ c' j).Nodup :=
    hperm.nodup_iff.mp ((h.nodup_append hij).sublist hsub)
  obtain ⟨hi, hj, hne⟩ := List.nodup_append.mp hnodup
  -- what is at one of the two places now was at one of them before
  have hback : ∀ a, a ∈ c' i ∨ a ∈ c' j → a ∈ c i ∨ a ∈ c j := by
    intro a ha
    exact List.mem_append.mp (hsub.subset (hperm.mem_iff.mpr (List.mem_append.mpr ha)))
  have haway : ∀ a, a ∈ c' i ∨ a ∈ c' j → ∀ k, k ≠ i → k ≠ j → a ∉ c' k := by
    intro a ha k hki hkj hin
    rw [hother k hki hkj] at hin
    rcases hback a ha with hold | hold
    · exact hki (h.unique hin hold)
    · exact hkj (h.unique hin hold)
  -- the two places share nothing, and no third place has what they have
  have hkey : ∀ {k l a}, k = i ∨ k = j → a ∈ c' k → a ∈ c' l → k = l := by
    intro k l a hk hak hal
    by_cases hl : l = i ∨ l = j
    · rcases hk with rfl | rfl <;> rcases hl with rfl | rfl
      · rfl
      · exact absurd rfl (hne a hak a hal)
      · exact absurd rfl (hne a hal a hak)
      · rfl
    · obtain ⟨hli, hlj⟩ := not_or.mp hl
      refine absurd hal (haway a ?_ l hli hlj)
      rcases hk with rfl | rfl
      · exact .inl hak
      · exact .inr hak
  constructor
  · intro k
    by_cases hki : k = i
    · rw [hki]
      exact hi
    · by_cases hkj : k = j
      · rw [hkj]
        exact hj
      · rw [hother k hki hkj]
        exact h.nodup k
  · intro k l a hk hl
    by_cases hkij : k = i ∨ k = j
    · exact hkey hkij hk hl
    · by_cases hlij : l = i ∨ l = j
      · exact (hkey hlij hl hk).symm
      · obtain ⟨hki, hkj⟩ := not_or.mp hkij
        obtain ⟨hli, hlj⟩ := not_or.mp hlij
        rw [hother k hki hkj] at hk
        rw [hother l hli hlj] at hl
        exact h.unique hk hl

end Apart

end Stacklets.Lib

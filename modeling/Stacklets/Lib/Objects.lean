import Stacklets.Lib.Runs

/-!
# `Stacklets.Lib.Objects`: objects with operations that return a value

An object is given by a partial function `step : σ → α → Option (β × σ)`. The operation `a : α`
returns a value and leaves the object in a new state. The result is `none` when the operation may
not be called in that state, or when the program goes wrong in it. `calls` does a sequence of
operations and collects what they return.

`calls_refines` compares an implementation with a specification. When the implementation can do
every single operation that the specification allows, with the same value, it can do every
sequence of them with the same values.
-/

set_option autoImplicit false

namespace Stacklets.Lib

section
variable {σ τ α β : Type*}

/-- The values that a sequence of operations returns, and the state after it. -/
def calls (step : σ → α → Option (β × σ)) : σ → List α → Option (List β × σ)
  | s, [] => some ([], s)
  | s, a :: as =>
    (step s a).bind fun r => (calls step r.2 as).map fun q => (r.1 :: q.1, q.2)

/-- The object as a step function, without the values. -/
def next (step : σ → α → Option (β × σ)) (s : σ) (a : α) : Option σ := (step s a).map Prod.snd

variable {impl : σ → α → Option (β × σ)} {spec : τ → α → Option (β × τ)}

theorem calls_cons_eq_some {s s' : σ} {a : α} {as : List α} {bs : List β} :
    calls impl s (a :: as) = some (bs, s') ↔
      ∃ b s₁ bs₁, impl s a = some (b, s₁) ∧ calls impl s₁ as = some (bs₁, s') ∧ bs = b :: bs₁ := by
  rw [calls, Option.bind_eq_some_iff]
  constructor
  · rintro ⟨⟨b, s₁⟩, hstep, hrest⟩
    obtain ⟨⟨bs₁, s₂⟩, hcalls, heq⟩ := Option.map_eq_some_iff.mp hrest
    obtain ⟨hbs, hs⟩ := Prod.mk.inj heq
    subst hs
    exact ⟨b, s₁, bs₁, hstep, hcalls, hbs.symm⟩
  · rintro ⟨b, s₁, bs₁, hstep, hcalls, rfl⟩
    exact ⟨(b, s₁), hstep, Option.map_eq_some_iff.mpr ⟨(bs₁, s'), hcalls, rfl⟩⟩

/-- A relation between the states that every operation keeps, when the specification allows it and
the condition `ok` is met. The induction is on the sequence, with both states generalized. -/
theorem calls_refines {R : σ → τ → Prop} {ok : σ → α → Prop}
    (hstep : ∀ s t a b t', R s t → ok s a → spec t a = some (b, t') →
      ∃ s', impl s a = some (b, s') ∧ R s' t') :
    ∀ (as : List α) (s : σ) (t t' : τ) (bs : List β), R s t → RunUnder (next impl) ok s as →
      calls spec t as = some (bs, t') → ∃ s', calls impl s as = some (bs, s') ∧ R s' t' := by
  intro as
  induction as with
  | nil =>
    intro s t t' bs hR _ h
    cases h
    exact ⟨s, rfl, hR⟩
  | cons a as ih =>
    intro s t t' bs hR hok h
    obtain ⟨b, t₁, bs₁, hspec, hcalls, rfl⟩ := calls_cons_eq_some.mp h
    obtain ⟨s₁, himpl, hR₁⟩ := hstep s t a b t₁ hR hok.1 hspec
    have hok₁ : RunUnder (next impl) ok s₁ as :=
      hok.2 s₁ (by rw [next, himpl]; rfl)
    obtain ⟨s', hrest, hR'⟩ := ih s₁ t₁ t' bs₁ hR₁ hok₁ hcalls
    exact ⟨s', calls_cons_eq_some.mpr ⟨b, s₁, bs₁, himpl, hrest, rfl⟩, hR'⟩

end

end Stacklets.Lib

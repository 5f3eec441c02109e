set_option autoImplicit false

/-! # Simulation

A run of a labelled transition system together with its labels, and the rule by which every run of
one system is matched by a run of another one with the same labels. -/

namespace NowOS

variable {σ τ α : Type}

/-- The runs of a system: the labels of the steps, the latest first, and the state at the end. -/
inductive Trace (init : σ → Prop) (step : α → σ → σ → Prop) : List α → σ → Prop
  | start {s : σ} (h : init s) : Trace init step [] s
  | next {s s' : σ} {as : List α} (a : α) (ht : Trace init step as s) (h : step a s s') :
      Trace init step (a :: as) s'

/-- **The simulation rule.** `R` holds of the initial states, and a step from related states is
matched by a step with the same label to related states. -/
theorem Trace.simulate {init : σ → Prop} {step : α → σ → σ → Prop} {init' : τ → Prop}
    {step' : α → τ → τ → Prop} (R : σ → τ → Prop)
    (hinit : ∀ s, init s → ∃ t, init' t ∧ R s t)
    (hstep : ∀ a s s' t, R s t → step a s s' → ∃ t', step' a t t' ∧ R s' t') {as : List α} {s : σ}
    (ht : Trace init step as s) : ∃ t, Trace init' step' as t ∧ R s t := by
  induction ht with
  | start h =>
      obtain ⟨t, ht, hR⟩ := hinit _ h
      exact ⟨t, .start ht, hR⟩
  | next a _ h ih =>
      obtain ⟨t, ht, hR⟩ := ih
      obtain ⟨t', hstep', hR'⟩ := hstep a _ _ t hR h
      exact ⟨t', ht.next a hstep', hR'⟩

end NowOS

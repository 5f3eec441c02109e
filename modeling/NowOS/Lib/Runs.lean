set_option autoImplicit false

/-! # Runs of a transition system

The states that a system reaches by labelled steps from its initial states, and the rule by which
a property of all of them is proved: it holds initially and every step keeps it. `Guarded` is the
system that only makes those steps of another one that meet a condition. `runList` executes a
list of steps. `one_owner_of_change` is the step of an invariant by which no two of the components
of a state own the same thing. -/

namespace NowOS

variable {σ α : Type}

/-- The states reached from `init` by `step`. -/
inductive Reach (init : σ → Prop) (step : α → σ → σ → Prop) : σ → Prop
  | start {s : σ} (h : init s) : Reach init step s
  | next {s s' : σ} (a : α) (hr : Reach init step s) (h : step a s s') : Reach init step s'

/-- The steps `a` of a system from states `s` in which `good a s` holds. -/
def Guarded (good : α → σ → Prop) (step : α → σ → σ → Prop) (a : α) (s s' : σ) : Prop :=
  good a s ∧ step a s s'

/-- **The invariant rule.** -/
theorem Reach.invariant {init : σ → Prop} {step : α → σ → σ → Prop} {I : σ → Prop} {s : σ}
    (hr : Reach init step s) (hinit : ∀ s, init s → I s)
    (hstep : ∀ a s s', I s → step a s s' → I s') : I s := by
  induction hr with
  | start h => exact hinit _ h
  | next a _ h ih => exact hstep a _ _ ih h

/-! ## One owner -/

/-- **The owner rule.** If nothing has two owners, and a step changes what `c` owns only, and
nothing that another one owned is `c`'s after it, then nothing has two owners after it. -/
theorem one_owner_of_change {ι τ : Type} [DecidableEq ι] {owns owns' : ι → τ → Prop} {c : ι}
    (hone : ∀ d d' t, owns d t → owns d' t → d = d')
    (hother : ∀ d, d ≠ c → ∀ t, owns' d t → owns d t)
    (hnew : ∀ d, d ≠ c → ∀ t, owns d t → ¬ owns' c t) (d d' : ι) (t : τ)
    (hd : owns' d t) (hd' : owns' d' t) : d = d' := by
  by_cases hdc : d = c
  · by_cases hdc' : d' = c
    · rw [hdc, hdc']
    · rw [hdc] at hd
      exact absurd hd (hnew d' hdc' t (hother d' hdc' t hd'))
  · by_cases hdc' : d' = c
    · rw [hdc'] at hd'
      exact absurd hd' (hnew d hdc t (hother d hdc t hd))
    · exact hone d d' t (hother d hdc t hd) (hother d' hdc' t hd')

/-! ## Running a list of labels -/

/-- Make the steps of the list one after the other, as long as they can be made. -/
def runList (exec : α → σ → Option σ) : List α → σ → Option σ
  | [], s => some s
  | a :: as, s =>
      match exec a s with
      | some s' => runList exec as s'
      | none => none

theorem runList_append (exec : α → σ → Option σ) (as bs : List α) (s : σ) :
    runList exec (as ++ bs) s = (runList exec as s).bind (runList exec bs) := by
  induction as generalizing s with
  | nil => rfl
  | cons a as ih =>
      simp only [List.cons_append, runList]
      cases exec a s with
      | none => rfl
      | some s' => exact ih s'

/-- The invariant rule for a list of labels. -/
theorem invariant_runList {exec : α → σ → Option σ} {I : σ → Prop} {as : List α}
    (hstep : ∀ a ∈ as, ∀ s s', I s → exec a s = some s' → I s') {s s' : σ} (hs : I s)
    (hrun : runList exec as s = some s') : I s' := by
  induction as generalizing s with
  | nil =>
      cases hrun
      exact hs
  | cons a as ih =>
      unfold runList at hrun
      split at hrun
      next s1 h1 =>
        have htail : ∀ b ∈ as, ∀ s s', I s → exec b s = some s' → I s' :=
          fun b hb => hstep b (List.mem_cons_of_mem a hb)
        exact ih htail (hstep a List.mem_cons_self s s1 hs h1) hrun
      next => cases hrun

theorem reach_runList {init : σ → Prop} {step : α → σ → σ → Prop} {exec : α → σ → Option σ}
    (hexec : ∀ a s s', exec a s = some s' → step a s s') {as : List α} {s s' : σ}
    (hr : Reach init step s) (hrun : runList exec as s = some s') : Reach init step s' := by
  induction as generalizing s with
  | nil =>
      cases hrun
      exact hr
  | cons a as ih =>
      unfold runList at hrun
      split at hrun
      next s1 h1 => exact ih (hr.next a (hexec a s s1 h1)) hrun
      next => cases hrun

/-- Read the value off a fallible computation that was evaluated. -/
theorem exists_ok_of_any {ε α : Type} {x : Except ε α} {p : α → Bool}
    (h : x.toOption.any p = true) : ∃ a, x = .ok a ∧ p a = true := by
  cases x with
  | error e => cases h
  | ok a => exact ⟨a, rfl, h⟩

theorem eq_ok_of_toOption {ε α : Type} {x : Except ε α} {a : α} (h : x.toOption = some a) :
    x = .ok a := by
  cases x with
  | error e => cases h
  | ok b => exact congrArg Except.ok (Option.some.inj h)

theorem ok_of_any {ε α β : Type} [BEq α] [LawfulBEq α] {x : Except ε (α × β)} {a : α}
    (h : x.toOption.any (fun r => r.1 == a) = true) : ∃ b, x = .ok (a, b) := by
  obtain ⟨r, hr, ha⟩ := exists_ok_of_any h
  exact ⟨r.2, by rw [hr, ← eq_of_beq ha]⟩

end NowOS

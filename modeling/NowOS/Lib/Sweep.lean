import Mathlib.Data.List.Basic
import Mathlib.Logic.Function.Basic
import Mathlib.Tactic

set_option autoImplicit false

/-! # Cells that are programmed in turn

A loop goes through the cells of a table in order. At its turn a cell is either the source of an
entry for some other cell, which is written there, or it gets a default of its own, but only if it
is still free. An entry may be for a cell whose turn has passed, or is still to come. If no two
entries are for the same cell, the table afterwards is independent of all this: a cell holds the
entry for it, or its default, or what it held before if it is itself the source of an entry. The
simpler loop that rewrites every cell on its own is `foldl_update_apply`. -/

namespace NowOS

/-- A loop that rewrites the cells in `l`, each from what it holds. -/
theorem foldl_update_apply {ι α : Type} [DecidableEq ι] (f : ι → α → α) {l : List ι} (hl : l.Nodup)
    (t : ι → α) (j : ι) :
    l.foldl (fun t i => Function.update t i (f i (t i))) t j =
      if j ∈ l then f j (t j) else t j := by
  induction l generalizing t with
  | nil => simp
  | cons i l ih =>
      obtain ⟨hi, hl⟩ := List.nodup_cons.mp hl
      rw [List.foldl_cons, ih hl]
      by_cases hj : j = i
      · subst hj
        rw [if_neg hi, if_pos List.mem_cons_self, Function.update_self]
      · rw [Function.update_of_ne hj]
        simp only [List.mem_cons, hj, false_or]

section Sweep

variable {α : Type} (free : α → Prop) [DecidablePred free] (prog : Nat → Option (Nat × α))
  (dflt : Nat → α)

/-- The turn of cell `i`. -/
def sweepStep (f : Nat → α) (i : Nat) : Nat → α :=
  match prog i with
  | some (p, v) => Function.update f p v
  | none => if free (f i) then Function.update f i (dflt i) else f

/-- The turns of the first `n` cells. -/
def sweep (f : Nat → α) (n : Nat) : Nat → α := (List.range n).foldl (sweepStep free prog dflt) f

theorem sweep_succ (f : Nat → α) (n : Nat) :
    sweep free prog dflt f (n + 1) = sweepStep free prog dflt (sweep free prog dflt f n) n := by
  unfold sweep
  rw [List.range_succ, List.foldl_append]
  rfl

/-- A sweep only depends on the entries for the turns that it takes. -/
theorem sweep_congr {prog' : Nat → Option (Nat × α)} {n : Nat} (h : ∀ i, i < n → prog' i = prog i)
    (f : Nat → α) : sweep free prog' dflt f n = sweep free prog dflt f n := by
  induction n with
  | zero => rfl
  | succ n ih =>
      rw [sweep_succ, sweep_succ, ih fun i hi => h i (by omega)]
      unfold sweepStep
      rw [h n (Nat.lt_succ_self n)]

/-- The table `g` after the turns of the first `n` cells, if it was `f` before. -/
structure Swept (f : Nat → α) (n : Nat) (g : Nat → α) : Prop where
  entry : ∀ i p v, i < n → prog i = some (p, v) → g p = v
  dflt : ∀ p, p < n → prog p = none → (∀ i v, i < n → prog i ≠ some (p, v)) → g p = dflt p
  same : ∀ p, ¬ (p < n ∧ prog p = none) → (∀ i v, i < n → prog i ≠ some (p, v)) → g p = f p

variable {free prog dflt} {f g : Nat → α} {n : Nat}

/-- The turn of a cell that is the source of an entry. -/
theorem Swept.program (h : Swept prog dflt f n g) {q : Nat} {w : α} (hn : prog n = some (q, w))
    (hnew : ∀ i v, i < n → prog i ≠ some (q, v)) :
    Swept prog dflt f (n + 1) (Function.update g q w) := by
  have hbefore : ∀ {i p v}, i < n + 1 → p ≠ q → prog i = some (p, v) → i < n := by
    intro i p v hi hpq hprog
    refine Nat.lt_of_le_of_ne (Nat.le_of_lt_succ hi) fun heq => hpq ?_
    rw [heq, hn] at hprog
    cases hprog
    rfl
  constructor
  · intro i p v hi hprog
    by_cases hpq : p = q
    · subst hpq
      have hin : i = n := by
        by_contra hne
        exact hnew i v (by omega) hprog
      rw [hin, hn] at hprog
      cases hprog
      exact Function.update_self ..
    · rw [Function.update_of_ne hpq]
      exact h.entry i p v (hbefore hi hpq hprog) hprog
  · intro p hp hnone hother
    have hpq : p ≠ q := fun heq => hother n w (Nat.lt_succ_self n) (heq ▸ hn)
    have hpn : p ≠ n := fun heq => by rw [heq, hn] at hnone; cases hnone
    rw [Function.update_of_ne hpq]
    exact h.dflt p (by omega) hnone fun i v hi => hother i v (by omega)
  · intro p hp hother
    have hpq : p ≠ q := fun heq => hother n w (Nat.lt_succ_self n) (heq ▸ hn)
    rw [Function.update_of_ne hpq]
    exact h.same p (fun hp' => hp ⟨by omega, hp'.2⟩) fun i v hi => hother i v (by omega)

/-- The turn of another cell: it is free iff there was no entry for it. -/
theorem Swept.default (h : Swept prog dflt f n g)
    (hval : ∀ i p v, i < n → prog i = some (p, v) → ¬ free v) (hfree : free (f n))
    (hn : prog n = none) :
    Swept prog dflt f (n + 1) (if free (g n) then Function.update g n (dflt n) else g) := by
  have hbefore : ∀ {i p v}, i < n + 1 → prog i = some (p, v) → i < n := by
    intro i p v hi hprog
    refine Nat.lt_of_le_of_ne (Nat.le_of_lt_succ hi) fun heq => ?_
    rw [heq, hn] at hprog
    cases hprog
  split
  next hg =>
    constructor
    · intro i p v hi hprog
      have hi' := hbefore hi hprog
      have hpn : p ≠ n := by
        rintro rfl
        exact hval i p v hi' hprog (h.entry i p v hi' hprog ▸ hg)
      rw [Function.update_of_ne hpn]
      exact h.entry i p v hi' hprog
    · intro p hp hnone hother
      by_cases hpn : p = n
      · subst hpn
        exact Function.update_self ..
      · rw [Function.update_of_ne hpn]
        exact h.dflt p (by omega) hnone fun i v hi => hother i v (by omega)
    · intro p hp hother
      have hpn : p ≠ n := fun heq => hp ⟨by omega, heq ▸ hn⟩
      rw [Function.update_of_ne hpn]
      exact h.same p (fun hp' => hp ⟨by omega, hp'.2⟩) fun i v hi => hother i v (by omega)
  next hg =>
    constructor
    · exact fun i p v hi hprog => h.entry i p v (hbefore hi hprog) hprog
    · intro p hp hnone hother
      have hpn : p ≠ n := by
        rintro rfl
        -- without an entry the cell would hold what it held before
        refine hg (h.same p (by omega) (fun i v hi => hother i v (by omega)) ▸ hfree)
      exact h.dflt p (by omega) hnone fun i v hi => hother i v (by omega)
    · intro p hp hother
      exact h.same p (fun hp' => hp ⟨by omega, hp'.2⟩) fun i v hi => hother i v (by omega)

/-- **What a sweep leaves**: if no two entries are for the same cell, no entry looks free, and the
cells are free before. -/
theorem swept_sweep
    (hinj : ∀ i j p v w, i < j → j < n → prog i = some (p, v) → prog j ≠ some (p, w))
    (hval : ∀ i p v, i < n → prog i = some (p, v) → ¬ free v) (hfree : ∀ p, p < n → free (f p)) :
    Swept prog dflt f n (sweep free prog dflt f n) := by
  induction n with
  | zero =>
      refine ⟨fun i p v hi => ?_, fun p hp => ?_, fun p _ _ => rfl⟩ <;> omega
  | succ n ih =>
      have hprev := ih (fun i j p v w hij hj => hinj i j p v w hij (by omega))
        (fun i p v hi => hval i p v (by omega)) fun p hp => hfree p (by omega)
      rw [sweep_succ]
      unfold sweepStep
      split
      next q w hn =>
        exact hprev.program hn fun i v hi hprog => hinj i n q v w hi (by omega) hprog hn
      next hn => exact hprev.default (fun i p v hi => hval i p v (by omega)) (hfree n (by omega)) hn

end Sweep

end NowOS

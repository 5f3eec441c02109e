import Mathlib.Data.List.GetD
import Mathlib.Logic.Function.Basic

set_option autoImplicit false

/-! # Records one behind the other

A table is a sequence of records in memory, each of which says where the next one begins. A program
walks over it with one loop that ends at the first address that is not below the end of the table;
what the loop does is a fold over the records it visits. If the records tile the table, it visits
each of them once and ends.

The second half is about arrays of a fixed length that such a loop fills in order, until they are
full. -/

namespace NowOS

/-! ## The walk -/

section Walk

variable {σ : Type} (next : Nat → Nat) (step : σ → Nat → σ)

/-- The loop: `step` at every record from `a` on, as long as the address is below `e`. It is `none`
if the loop has not ended after `fuel` tests of its condition. -/
def walkRecords : Nat → σ → Nat → Nat → Option σ
  | 0, _, _, _ => none
  | fuel + 1, s, a, e => if a < e then walkRecords fuel (step s a) (next a) e else some s

/-- The records that the loop visits. -/
def visits : Nat → Nat → Nat → Option (List Nat)
  | 0, _, _ => none
  | fuel + 1, a, e => if a < e then (visits fuel (next a) e).map (a :: ·) else some []

/-- The loop folds its body over the records that it visits. -/
theorem walkRecords_eq (fuel : Nat) (s : σ) (a e : Nat) :
    walkRecords next step fuel s a e = (visits next fuel a e).map (List.foldl step s) := by
  induction fuel generalizing s a with
  | zero => rfl
  | succ fuel ih =>
      simp only [walkRecords, visits]
      split
      · rw [ih (step s a) (next a), Option.map_map]
        rfl
      · rfl

/-- **The records tile** the addresses from `a` to `e`: each begins where the one before it ends. -/
def Tiled : List Nat → Nat → Nat → Prop
  | [], a, e => a = e
  | r :: rs, a, e => r = a ∧ Tiled rs (next a) e

def Tiled.decide : (rs : List Nat) → (a e : Nat) → Decidable (Tiled next rs a e)
  | [], a, e => inferInstanceAs (Decidable (a = e))
  | r :: rs, a, e =>
      letI := Tiled.decide rs (next a) e
      inferInstanceAs (Decidable (r = a ∧ Tiled next rs (next a) e))

instance (rs : List Nat) (a e : Nat) : Decidable (Tiled next rs a e) := Tiled.decide next rs a e

variable {next} {rs : List Nat} {a e : Nat}

theorem Tiled.le (h : Tiled next rs a e) (hnext : ∀ r ∈ rs, r < next r) : a ≤ e := by
  induction rs generalizing a with
  | nil => exact Nat.le_of_eq h
  | cons r rs ih =>
      obtain ⟨rfl, hrest⟩ := h
      have hr := hnext r List.mem_cons_self
      have := ih hrest fun r' hr' => hnext r' (List.mem_cons_of_mem _ hr')
      omega

/-- Every record of a tiled table is inside the table. -/
theorem Tiled.mem_bounds (h : Tiled next rs a e) (hnext : ∀ r ∈ rs, r < next r) {r : Nat}
    (hr : r ∈ rs) : a ≤ r ∧ next r ≤ e := by
  induction rs generalizing a with
  | nil => cases hr
  | cons r' rs ih =>
      obtain ⟨rfl, hrest⟩ := h
      have hrest_next : ∀ r ∈ rs, r < next r := fun r hr => hnext r (List.mem_cons_of_mem _ hr)
      cases List.mem_cons.1 hr with
      | inl heq =>
          subst heq
          exact ⟨Nat.le_refl _, hrest.le hrest_next⟩
      | inr hmem =>
          have hfirst := hnext r' List.mem_cons_self
          have := ih hrest hrest_next hmem
          omega

/-- The walk only depends on where the records of the table say that the next one begins. -/
theorem Tiled.congr {next' : Nat → Nat} (h : Tiled next rs a e)
    (heq : ∀ r ∈ rs, next' r = next r) : Tiled next' rs a e := by
  induction rs generalizing a with
  | nil => exact h
  | cons r rs ih =>
      obtain ⟨rfl, hrest⟩ := h
      refine ⟨rfl, ?_⟩
      rw [heq r List.mem_cons_self]
      exact ih hrest fun r' hr' => heq r' (List.mem_cons_of_mem _ hr')

/-- **The walk over a tiled table ends**, and visits exactly its records. -/
theorem Tiled.visits (h : Tiled next rs a e) (hnext : ∀ r ∈ rs, r < next r) {fuel : Nat}
    (hfuel : rs.length < fuel) : visits next fuel a e = some rs := by
  induction rs generalizing a fuel with
  | nil =>
      obtain ⟨fuel, rfl⟩ : ∃ n, fuel = n + 1 := ⟨fuel - 1, by simp at hfuel; omega⟩
      have ha : ¬ a < e := by simp only [Tiled] at h; omega
      simp only [NowOS.visits, ha, if_false]
  | cons r rs ih =>
      obtain ⟨fuel, rfl⟩ : ∃ n, fuel = n + 1 := ⟨fuel - 1, by simp at hfuel; omega⟩
      have hrest_next : ∀ r ∈ rs, r < next r := fun r hr => hnext r (List.mem_cons_of_mem _ hr)
      obtain ⟨rfl, hrest⟩ := h
      have hr := hnext r List.mem_cons_self
      have hlt : r < e := by have := hrest.le hrest_next; omega
      have hlen : rs.length < fuel := by simpa using hfuel
      simp only [NowOS.visits, hlt, if_true, ih hrest hrest_next hlen, Option.map_some]

end Walk

/-! ## The records that a walk comes to -/

section Visited

variable {σ : Type} (next : Nat → Nat) (step : σ → Nat → σ)

/-- The walk that starts at `a` with the state `s` comes to the record at `r` with the state `s'`,
whether it ends or not. -/
inductive Visited (e : Nat) : σ → Nat → σ → Nat → Prop
  | first {s : σ} {a : Nat} (ha : a < e) : Visited e s a s a
  | later {s s' : σ} {a r : Nat} (ha : a < e) (hr : Visited e (step s a) (next a) s' r) :
      Visited e s a s' r

/-- What the loop does in its first `fuel` iterations, if it does `acts s r` at the record `r`. -/
def walkTrace {α : Type} (acts : σ → Nat → List α) : Nat → σ → Nat → Nat → List α
  | 0, _, _, _ => []
  | fuel + 1, s, a, e =>
      if a < e then acts s a ++ walkTrace acts fuel (step s a) (next a) e else []

variable {next step} {e : Nat} {s s' : σ} {a r : Nat}

theorem Visited.lt (h : Visited next step e s a s' r) : r < e := by
  induction h with
  | first ha => exact ha
  | later _ _ ih => exact ih

/-- **A walk that always moves up ends.** -/
theorem walkRecords_ends (h : ∀ s' r, Visited next step e s a s' r → r < next r) :
    ∃ fuel s', walkRecords next step fuel s a e = some s' := by
  -- the distance to the end gets smaller
  induction hd : e - a using Nat.strongRecOn generalizing s a with
  | _ d ih =>
      by_cases ha : a < e
      · have hup := h s a (.first ha)
        obtain ⟨fuel, s', hend⟩ := ih (e - next a) (by omega)
          (fun s' r hr => h s' r (.later ha hr)) rfl
        exact ⟨fuel + 1, s', by rw [walkRecords, if_pos ha, hend]⟩
      · exact ⟨1, s, by rw [walkRecords, if_neg ha]⟩

/-- From every record that an ending walk comes to, the rest of it ends. -/
theorem Visited.ends (h : Visited next step e s a s' r) {fuel : Nat} {t : σ}
    (hend : walkRecords next step fuel s a e = some t) :
    ∃ fuel t, walkRecords next step fuel s' r e = some t := by
  induction h generalizing fuel with
  | first _ => exact ⟨fuel, t, hend⟩
  | later ha _ ih =>
      cases fuel with
      | zero => cases hend
      | succ fuel =>
          rw [walkRecords, if_pos ha] at hend
          exact ih hend

/-- **A walk that comes to a record with no length never ends.** -/
theorem Visited.next_ne (h : Visited next step e s a s' r) {fuel : Nat} {t : σ}
    (hend : walkRecords next step fuel s a e = some t) : next r ≠ r := by
  intro hstay
  have hspin : ∀ fuel (s : σ), walkRecords next step fuel s r e = none := by
    intro fuel
    induction fuel with
    | zero => exact fun _ => rfl
    | succ fuel ih =>
        intro s
        rw [walkRecords, if_pos h.lt, hstay]
        exact ih _
  obtain ⟨fuel', t', ht⟩ := h.ends hend
  rw [hspin] at ht
  cases ht

/-- The records that an ending walk comes to are those it visits. -/
theorem Visited.mem_visits (h : Visited next step e s a s' r) {fuel : Nat} {rs : List Nat}
    (hend : visits next fuel a e = some rs) : r ∈ rs := by
  induction h generalizing fuel rs with
  | first ha =>
      cases fuel with
      | zero => cases hend
      | succ fuel =>
          rw [visits, if_pos ha] at hend
          obtain ⟨rest, _, rfl⟩ := Option.map_eq_some_iff.1 hend
          exact List.mem_cons_self
  | later ha _ ih =>
      cases fuel with
      | zero => cases hend
      | succ fuel =>
          rw [visits, if_pos ha] at hend
          obtain ⟨rest, hrest, rfl⟩ := Option.map_eq_some_iff.1 hend
          exact List.mem_cons_of_mem _ (ih hrest)

/-- Two walks are the same if they do the same at every record whose acts have a property, and what
the first one does has it. -/
theorem walkRecords_congr {α : Type} {acts : σ → Nat → List α} {P : α → Prop} {next' : Nat → Nat}
    {step' : σ → Nat → σ}
    (h : ∀ s r, (∀ x ∈ acts s r, P x) → next' r = next r ∧ step' s r = step s r) {fuel : Nat}
    (htrace : ∀ x ∈ walkTrace next step acts fuel s a e, P x) :
    walkRecords next' step' fuel s a e = walkRecords next step fuel s a e := by
  induction fuel generalizing s a with
  | zero => rfl
  | succ fuel ih =>
      rw [walkRecords, walkRecords]
      by_cases ha : a < e
      · rw [walkTrace, if_pos ha] at htrace
        obtain ⟨hnext, hstep⟩ := h s a fun x hx => htrace x (List.mem_append_left _ hx)
        rw [if_pos ha, if_pos ha, hnext, hstep]
        exact ih fun x hx => htrace x (List.mem_append_right _ hx)
      · rw [if_neg ha, if_neg ha]

/-- What a walk does is what it does at the records that it comes to. -/
theorem mem_walkTrace_iff {α : Type} {acts : σ → Nat → List α} {x : α} :
    (∃ fuel, x ∈ walkTrace next step acts fuel s a e) ↔
      ∃ s' r, Visited next step e s a s' r ∧ x ∈ acts s' r := by
  constructor
  · rintro ⟨fuel, hx⟩
    induction fuel generalizing s a with
    | zero => cases hx
    | succ fuel ih =>
        rw [walkTrace] at hx
        split at hx
        next ha =>
          rcases List.mem_append.1 hx with hx | hx
          · exact ⟨s, a, .first ha, hx⟩
          · obtain ⟨s', r, hr, hmem⟩ := ih hx
            exact ⟨s', r, .later ha hr, hmem⟩
        next => cases hx
  · rintro ⟨s', r, hr, hx⟩
    induction hr with
    | first ha => exact ⟨1, by rw [walkTrace, if_pos ha]; exact List.mem_append_left _ hx⟩
    | later ha _ ih =>
        obtain ⟨fuel, hmem⟩ := ih hx
        exact ⟨fuel + 1, by rw [walkTrace, if_pos ha]; exact List.mem_append_right _ hmem⟩

end Visited

/-! ## Arrays that are filled in order -/

section Filled

variable {α : Type}

/-- The array of `cap` cells holds the first `cap` elements of the list in order, and `z` behind
them. -/
def Filled (arr : Nat → α) (cap : Nat) (xs : List α) (z : α) : Prop :=
  ∀ i, i < cap → arr i = xs.getD i z

variable {arr : Nat → α} {cap : Nat} {xs : List α} {x z : α}

theorem Filled.push (h : Filled arr cap xs z) :
    Filled (Function.update arr xs.length x) cap (xs ++ [x]) z := by
  intro i hi
  by_cases hix : i = xs.length
  · subst hix
    simp
  · rw [Function.update_of_ne hix, h i hi]
    rcases Nat.lt_or_gt_of_ne hix with hlt | hgt
    · rw [List.getD_append _ _ _ _ hlt]
    · rw [List.getD_eq_default _ _ (by omega), List.getD_eq_default _ _ (by simp; omega)]

/-- A full array holds a longer list without a change. -/
theorem Filled.full (h : Filled arr cap xs z) (hfull : cap ≤ xs.length) :
    Filled arr cap (xs ++ [x]) z := by
  intro i hi
  rw [h i hi, List.getD_append _ _ _ _ (by omega)]

end Filled

end NowOS

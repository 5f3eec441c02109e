import NowOS.Klib.SortedArrayList

set_option autoImplicit false

/-! # Searching the sorted array list

The bisection of `insert_list` and `remove_list` compares the item with the first unused cell, if it
ends there. So the two functions depend on more than the elements: `sameResult_iff` says exactly
when.

`search_list` bisects in another way. It sets `r = curr_index - 1`, so that `r` can become smaller
than `l`, also `2^32 - 1` if `l` is 0. The loop then ends because the next index is not in the
array, at least if the array has less than `2^31` cells. -/

namespace NowOS

namespace SortedArrayList

variable {A B list : SortedArrayList} {item : Nat}

/-! ## Lists with the same elements -/

/-- The lists have the same sizes and elements. Their unused cells may differ. -/
structure SameLive (A B : SortedArrayList) : Prop where
  arrSize : A.arrSize = B.arrSize
  currSize : A.currSize = B.currSize
  arr : ∀ k, k + 1 < A.currSize → A.arr k = B.arr k

/-- Two calls return the same code and leave lists with the same elements. -/
def SameResult (x y : Int × SortedArrayList) : Prop := x.1 = y.1 ∧ SameLive x.2 y.2

/-- The cell at which a bisection ends. -/
def Probe.cell : Probe → Option Nat
  | .found i => some i
  | .stop i => some i
  | .outside => none

/-- How a bisection ends at cell `i`. -/
def endAt (list : SortedArrayList) (item i : Nat) : Probe :=
  if item = list.arr i then .found i else .stop i

/-- Two bisections of the same cell. -/
theorem probe_single_sameLive (h : SameLive A B) (hlt : A.currSize < W32) {fuel l : Nat}
    (hl : l < A.currSize) :
    (probe item A (fuel + 1) l l = probe item B (fuel + 1) l l ∧
      ∀ i, (probe item A (fuel + 1) l l).cell = some i → i + 1 < A.currSize) ∨
    (probe item A (fuel + 1) l l = endAt A item (A.currSize - 1) ∧
      probe item B (fuel + 1) l l = endAt B item (A.currSize - 1)) := by
  rw [probe_single (by omega), probe_single (by omega), ← h.arrSize]
  by_cases hin : l < A.arrSize
  · simp only [if_pos hin]
    by_cases hdead : l = A.currSize - 1
    · exact Or.inr ⟨by rw [endAt, hdead], by rw [endAt, hdead]⟩
    · -- the cell is an element, the same in both lists
      rw [h.arr l (by omega)]
      refine Or.inl ⟨rfl, fun i hi => ?_⟩
      split at hi
      · cases hi
        omega
      · cases hi
        omega
  · simp only [if_neg hin]
    exact Or.inl ⟨trivial, fun i hi => by cases hi⟩

/-- **Two bisections.** They end in the same way at an element, or outside of the array; or both of
them end at the first unused cell. -/
theorem probe_sameLive (h : SameLive A B) (hlt : A.currSize < W32) :
    ∀ (fuel l r : Nat), l ≤ r → r < A.currSize →
      (probe item A fuel l r = probe item B fuel l r ∧
        ∀ i, (probe item A fuel l r).cell = some i → i + 1 < A.currSize) ∨
      (probe item A fuel l r = endAt A item (A.currSize - 1) ∧
        probe item B fuel l r = endAt B item (A.currSize - 1)) := by
  intro fuel
  induction fuel with
  | zero =>
      intro l r _ _
      exact Or.inl ⟨rfl, fun i hi => by cases hi⟩
  | succ fuel ih =>
      intro l r hlr hr
      by_cases heq : l = r
      · subst heq
        exact probe_single_sameLive h hlt hr
      · simp only [probe, mid_eq hlr (show r < W32 by omega), ← h.arrSize, if_neg heq]
        by_cases hin : l + (r - l) / 2 < A.arrSize
        · -- the cell in the middle is an element
          have hmid : l + (r - l) / 2 + 1 < A.currSize := by omega
          simp only [if_pos hin, h.arr _ hmid]
          by_cases hitem : item = B.arr (l + (r - l) / 2)
          · simp only [if_pos hitem]
            refine Or.inl ⟨trivial, fun i hi => ?_⟩
            cases hi
            exact hmid
          · simp only [if_neg hitem]
            by_cases hless : item < B.arr (l + (r - l) / 2)
            · simp only [if_pos hless]
              exact ih l _ (by omega) (by omega)
            · simp only [if_neg hless, add32_of_lt (show l + (r - l) / 2 + 1 < W32 by omega)]
              exact ih _ r (by omega) hr
        · simp only [if_neg hin]
          exact Or.inl ⟨trivial, fun i hi => by cases hi⟩

/-- `insert_item` into one of the cells up to the first unused one. -/
theorem sameLive_insertItem (h : SameLive A B) (hpos : 1 ≤ A.currSize) {i : Nat}
    (hi : i < A.currSize) :
    SameResult (insertItem item i A) (insertItem item i B) := by
  unfold insertItem
  rw [← h.currSize, ← h.arrSize]
  split
  next => exact ⟨rfl, h⟩
  next =>
    refine ⟨rfl, rfl, rfl, fun k hk => ?_⟩
    have hsize : k < A.currSize := by
      have hle : add32 A.currSize 1 ≤ A.currSize + 1 := Nat.mod_le _ _
      simp only at hk
      omega
    rw [sub32_of_le hpos]
    simp only [Function.update_apply, shiftUp_apply]
    by_cases hki : k = i
    · rw [if_pos hki, if_pos hki]
    · rw [if_neg hki, if_neg hki]
      by_cases hmoved : i < k ∧ k ≤ A.currSize - 1
      · rw [if_pos hmoved, if_pos hmoved]
        exact h.arr _ (by omega)
      · rw [if_neg hmoved, if_neg hmoved]
        exact h.arr _ (by omega)

theorem sameLive_removeItem (h : SameLive A B) (hpos : 1 ≤ A.currSize) (i : Nat) :
    SameLive (removeItem i A) (removeItem i B) := by
  have hsub : sub32 A.currSize 1 = A.currSize - 1 := sub32_of_le hpos
  unfold removeItem
  rw [← h.currSize, hsub]
  refine ⟨h.arrSize, rfl, fun k hk => ?_⟩
  simp only [shiftDown_apply] at hk ⊢
  by_cases hmoved : i ≤ k ∧ k < i + (A.currSize - 1 - i)
  · rw [if_pos hmoved, if_pos hmoved]
    exact h.arr _ (by omega)
  · rw [if_neg hmoved, if_neg hmoved]
    exact h.arr _ (by omega)

/-- The search ends at the first unused cell, and in one of the two lists only this cell holds the
item. -/
def DeadHit (A B : SortedArrayList) (item : Nat) : Prop :=
  (probe item A probeFuel 0 (sub32 A.currSize 1)).cell = some (A.currSize - 1) ∧
    ¬ (A.arr (A.currSize - 1) = item ↔ B.arr (A.currSize - 1) = item)

section SameResult

variable (h : SameLive A B) (hpos : 1 ≤ A.currSize) (hlt : A.currSize < W32)

include h hpos hlt

/-- What is left of the two bisections: they end in the same way, at a cell up to the first unused
one or outside; or one of them finds the item in the first unused cell and the other one stops
there. -/
theorem probe_cases_sameLive :
    (¬ DeadHit A B item ∧ ∃ p, probe item A probeFuel 0 (sub32 A.currSize 1) = p ∧
      probe item B probeFuel 0 (sub32 B.currSize 1) = p ∧ ∀ i, p.cell = some i → i < A.currSize) ∨
    (DeadHit A B item ∧
      ((probe item A probeFuel 0 (sub32 A.currSize 1) = .found (A.currSize - 1) ∧
        probe item B probeFuel 0 (sub32 B.currSize 1) = .stop (A.currSize - 1)) ∨
      (probe item A probeFuel 0 (sub32 A.currSize 1) = .stop (A.currSize - 1) ∧
        probe item B probeFuel 0 (sub32 B.currSize 1) = .found (A.currSize - 1)))) := by
  unfold DeadHit
  rw [← h.currSize, sub32_of_le hpos]
  rcases @probe_sameLive A B item h hlt probeFuel 0 (A.currSize - 1) (Nat.zero_le _) (by omega) with
    ⟨heq, hcell⟩ | ⟨hA, hB⟩
  · refine Or.inl ⟨fun hdead => ?_, _, rfl, heq.symm, fun i hi => ?_⟩
    · have := hcell _ hdead.1
      omega
    · have := hcell i hi
      omega
  · rw [hA, hB]
    unfold endAt
    by_cases hitemA : item = A.arr (A.currSize - 1) <;>
      by_cases hitemB : item = B.arr (A.currSize - 1)
    · refine Or.inl ⟨fun hdead => hdead.2 (iff_of_true hitemA.symm hitemB.symm),
        .found (A.currSize - 1), if_pos hitemA, if_pos hitemB, fun i hi => ?_⟩
      cases hi
      omega
    · refine Or.inr ⟨⟨?_, fun hiff => hitemB (hiff.1 hitemA.symm).symm⟩,
        Or.inl ⟨if_pos hitemA, if_neg hitemB⟩⟩
      rw [if_pos hitemA, Probe.cell]
    · refine Or.inr ⟨⟨?_, fun hiff => hitemA (hiff.2 hitemB.symm).symm⟩,
        Or.inr ⟨if_neg hitemA, if_pos hitemB⟩⟩
      rw [if_neg hitemA, Probe.cell]
    · refine Or.inl ⟨fun hdead => hdead.2 (iff_of_false (Ne.symm hitemA) (Ne.symm hitemB)),
        .stop (A.currSize - 1), if_neg hitemA, if_neg hitemB, fun i hi => ?_⟩
      cases hi
      omega

/-- **`insert_list` of two lists with the same elements.** -/
theorem insertList_sameResult_iff :
    SameResult (insertList item A) (insertList item B) ↔ ¬ DeadHit A B item := by
  -- the code for an item that is found is 1, and for a place that is found it is 0 or -1
  have hcode : ∀ (L : SortedArrayList) (i : Nat),
      (if (insertItem item i L).1 = -1 then ((-1 : Int), L)
        else (0, (insertItem item i L).2)).1 ≠ 1 := by
    intro L i
    split
    next => exact show (-1 : Int) ≠ 1 by decide
    next => exact show (0 : Int) ≠ 1 by decide
  unfold insertList
  rcases @probe_cases_sameLive A B item h hpos hlt with
    ⟨hno, p, hA, hB, hcell⟩ | ⟨hdead, ⟨hA, hB⟩ | ⟨hA, hB⟩⟩
  · rw [hA, hB]
    refine iff_of_true ?_ hno
    cases p with
    | found i => exact ⟨rfl, h⟩
    | stop i =>
        obtain ⟨hret, hlive⟩ := @sameLive_insertItem A B item h hpos i (hcell i rfl)
        simp only [hret]
        split
        next => exact ⟨rfl, h⟩
        next => exact ⟨rfl, hlive⟩
    | outside => exact ⟨rfl, h⟩
  · rw [hA, hB]
    exact iff_of_false (fun hsame => hcode _ _ hsame.1.symm) (not_not.2 hdead)
  · rw [hA, hB]
    exact iff_of_false (fun hsame => hcode _ _ hsame.1) (not_not.2 hdead)

/-- **`remove_list` of two lists with the same elements.** -/
theorem removeList_sameResult_iff :
    SameResult (removeList item A) (removeList item B) ↔ ¬ DeadHit A B item := by
  unfold removeList
  rcases @probe_cases_sameLive A B item h hpos hlt with
    ⟨hno, p, hA, hB, -⟩ | ⟨hdead, ⟨hA, hB⟩ | ⟨hA, hB⟩⟩
  · rw [hA, hB]
    refine iff_of_true ?_ hno
    cases p with
    | found i => exact ⟨rfl, sameLive_removeItem h hpos i⟩
    | stop i => exact ⟨rfl, h⟩
    | outside => exact ⟨rfl, h⟩
  · rw [hA, hB]
    exact iff_of_false (fun hsame => absurd (show (0 : Int) = 1 from hsame.1) (by decide))
      (not_not.2 hdead)
  · rw [hA, hB]
    exact iff_of_false (fun hsame => absurd (show (1 : Int) = 0 from hsame.1) (by decide))
      (not_not.2 hdead)

end SameResult

/-! ### When the bisection ends at the first unused cell

It then went to the right every time, so that the cells it has compared with the item depend on the
size of the list alone. -/

/-- The middles of the intervals from `[l, r]` on, if the bisection always goes to the right. -/
def rightPath (r : Nat) : Nat → Nat → List Nat
  | 0, _ => []
  | fuel + 1, l =>
      if l < r then (l + (r - l) / 2) :: rightPath r fuel (l + (r - l) / 2 + 1) else []

/-- The elements in the middles of the intervals on the way to the first unused cell. -/
def rightmost (list : SortedArrayList) : List Nat :=
  (rightPath (list.currSize - 1) probeFuel 0).map list.arr

/-- A bisection ends in its interval. -/
theorem cell_probe_le {fuel l r i : Nat} (hlr : l ≤ r) (hr : r < W32)
    (hcell : (probe item list fuel l r).cell = some i) : i ≤ r := by
  induction fuel generalizing l r with
  | zero => cases hcell
  | succ fuel ih =>
      rw [probe, mid_eq hlr hr] at hcell
      by_cases hin : l + (r - l) / 2 < list.arrSize
      · simp only [if_pos hin] at hcell
        split at hcell
        · cases hcell
          omega
        · split at hcell
          · cases hcell
            omega
          · split at hcell
            · have := ih (by omega) (by omega) hcell
              omega
            · rw [add32_of_lt (by omega)] at hcell
              exact ih (by omega) hr hcell
      · simp only [if_neg hin] at hcell
        cases hcell

theorem cell_probe_single {fuel r : Nat} (hr : r < W32) :
    (probe item list (fuel + 1) r r).cell = some r ↔ r < list.arrSize := by
  rw [probe_single hr]
  by_cases hin : r < list.arrSize
  · rw [if_pos hin]
    refine iff_of_true ?_ hin
    split
    · rfl
    · rfl
  · rw [if_neg hin]
    exact iff_of_false (fun h => by cases h) hin

theorem rightPath_self (r fuel : Nat) : rightPath r fuel r = [] := by
  cases fuel with
  | zero => rfl
  | succ fuel => rw [rightPath, if_neg (Nat.lt_irrefl r)]

/-- **The bisection ends at the last cell of its interval** if and only if this cell is in the array
and the item exceeds what is in the middles on the way to it. -/
theorem cell_probe_eq_right {fuel l r : Nat} (hlr : l ≤ r) (hr : r < W32)
    (hfuel : r - l < 2 ^ fuel) :
    (probe item list (fuel + 1) l r).cell = some r ↔
      r < list.arrSize ∧ ∀ m ∈ rightPath r (fuel + 1) l, list.arr m < item := by
  induction fuel generalizing l with
  | zero =>
      obtain rfl : l = r := by omega
      rw [cell_probe_single hr, rightPath_self]
      simp
  | succ fuel ih =>
      by_cases heq : l = r
      · subst heq
        rw [cell_probe_single hr, rightPath_self]
        simp
      · have hpow : 2 ^ (fuel + 1) = 2 * 2 ^ fuel := by ring
        rw [probe, mid_eq hlr hr, rightPath, if_pos (show l < r by omega), List.forall_mem_cons]
        obtain ⟨m, hm⟩ : ∃ m, l + (r - l) / 2 = m := ⟨_, rfl⟩
        rw [hm]
        by_cases hin : m < list.arrSize
        · simp only [if_pos hin, if_neg heq]
          by_cases hitem : item = list.arr m
          · rw [if_pos hitem]
            refine iff_of_false (fun h => ?_) fun h => ?_
            · cases h
              omega
            · have := h.2.1
              omega
          · rw [if_neg hitem]
            by_cases hless : item < list.arr m
            · -- the interval shrinks to the left of its last cell
              rw [if_pos hless]
              refine iff_of_false (fun h => ?_) fun h => ?_
              · have := cell_probe_le (show l ≤ m by omega) (by omega) h
                omega
              · have := h.2.1
                omega
            · have hgreater : list.arr m < item := by omega
              rw [if_neg hless, add32_of_lt (by omega), ih (by omega) (by omega)]
              simp only [hgreater, true_and]
        · simp only [if_neg hin]
          refine iff_of_false (fun h => by cases h) fun h => ?_
          omega

/-- The last middle is the cell before. -/
theorem pred_mem_rightPath {fuel l r : Nat} (hlr : l < r) (hfuel : r - l < 2 ^ fuel) :
    r - 1 ∈ rightPath r fuel l := by
  induction fuel generalizing l with
  | zero => omega
  | succ fuel ih =>
      have hpow : 2 ^ (fuel + 1) = 2 * 2 ^ fuel := by ring
      rw [rightPath, if_pos hlr]
      by_cases hlast : l + (r - l) / 2 + 1 = r
      · rw [show r - 1 = l + (r - l) / 2 by omega]
        exact List.mem_cons_self ..
      · exact List.mem_cons_of_mem _ (ih (by omega) (by omega))

theorem lt_of_mem_rightPath {fuel l r m : Nat} (hm : m ∈ rightPath r fuel l) : m < r := by
  induction fuel generalizing l with
  | zero => cases hm
  | succ fuel ih =>
      rw [rightPath] at hm
      split at hm
      · rcases List.mem_cons.1 hm with rfl | hm
        · omega
        · exact ih hm
      · cases hm

/-- In a sorted list the item is at most one of the elements on the way to the first unused cell if
and only if it is at most one of all elements. -/
theorem exists_le_rightmost_iff (hlt : list.currSize < W32)
    (hinc : ∀ i j, i < j → j + 1 < list.currSize → list.arr i < list.arr j) :
    (∃ x ∈ list.rightmost, item ≤ x) ↔ ∃ k, k + 1 < list.currSize ∧ item ≤ list.arr k := by
  unfold rightmost
  constructor
  · rintro ⟨x, hx, hle⟩
    obtain ⟨m, hm, rfl⟩ := List.mem_map.1 hx
    have := lt_of_mem_rightPath hm
    exact ⟨m, by omega, hle⟩
  · rintro ⟨k, hk, hle⟩
    have hlast : list.currSize - 1 - 1 ∈ rightPath (list.currSize - 1) probeFuel 0 :=
      pred_mem_rightPath (by omega) (by unfold probeFuel W32 at *; omega)
    refine ⟨_, List.mem_map.2 ⟨_, hlast, rfl⟩, ?_⟩
    rcases Nat.lt_or_ge k (list.currSize - 1 - 1) with hbefore | hge
    · exact hle.trans (hinc k _ hbefore (by omega)).le
    · rwa [show list.currSize - 1 - 1 = k by omega]

/-- With `curr_size` at `0` the interval is all of the 32-bit numbers, and its middle is not in the
array: an array of pointers has at most `2^30` cells. -/
theorem probe_of_empty (hzero : list.currSize = 0) (hsize : list.arrSize < 2 ^ 31) :
    probe item list probeFuel 0 (sub32 list.currSize 1) = .outside := by
  have hmid : add32 0 (sub32 (sub32 list.currSize 1) 0 / 2) = 2 ^ 31 - 1 := by
    rw [hzero]
    decide
  rw [show probeFuel = 32 + 1 from rfl, probe]
  simp only [hmid]
  rw [if_neg (by omega)]

/-- **The list depends on its elements, and on the cell behind them.** Two lists with the same sizes
and elements answer both calls alike if and only if one of these holds: `curr_size` is `0` (both
calls return `-1`), the array ends before the cell behind the elements, the item does not exceed all
the elements in the middles on the way to that cell, or the cell holds the item in both lists or in
none. In a sorted list the third is that the item does not exceed all elements. -/
theorem sameResult_iff (h : SameLive A B) (hlt : A.currSize < W32)
    (hsize : A.currSize = 0 → A.arrSize < 2 ^ 31) :
    ((SameResult (insertList item A) (insertList item B) ∧
      SameResult (removeList item A) (removeList item B)) ↔
    A.currSize = 0 ∨ A.arrSize < A.currSize ∨ (∃ x ∈ A.rightmost, item ≤ x) ∨
      (A.arr (A.currSize - 1) = item ↔ B.arr (A.currSize - 1) = item)) ∧
    ((∀ i j, i < j → j + 1 < A.currSize → A.arr i < A.arr j) →
      ((∃ x ∈ A.rightmost, item ≤ x) ↔ ∃ k, k + 1 < A.currSize ∧ item ≤ A.arr k)) := by
  refine ⟨?_, exists_le_rightmost_iff hlt⟩
  by_cases hzero : A.currSize = 0
  · have hA := @probe_of_empty A item hzero (hsize hzero)
    have hB := @probe_of_empty B item (h.currSize ▸ hzero) (h.arrSize ▸ hsize hzero)
    unfold insertList removeList
    rw [hA, hB]
    exact iff_of_true ⟨⟨rfl, h⟩, ⟨rfl, h⟩⟩ (Or.inl hzero)
  · have hpos : 1 ≤ A.currSize := by omega
    have hcell : (probe item A probeFuel 0 (sub32 A.currSize 1)).cell = some (A.currSize - 1) ↔
        A.currSize ≤ A.arrSize ∧ ∀ x ∈ A.rightmost, x < item := by
      rw [sub32_of_le hpos, show probeFuel = 32 + 1 from rfl,
        cell_probe_eq_right (Nat.zero_le _) (by omega) (by unfold W32 at hlt; omega), rightmost,
        List.forall_mem_map]
      exact and_congr_left fun _ => by omega
    rw [insertList_sameResult_iff h hpos hlt, removeList_sameResult_iff h hpos hlt, and_self,
      DeadHit, hcell, not_and, not_not, or_iff_right hzero]
    constructor
    · intro himp
      by_cases hfull : A.arrSize < A.currSize
      · exact Or.inl hfull
      · by_cases hpath : ∃ x ∈ A.rightmost, item ≤ x
        · exact Or.inr (Or.inl hpath)
        · refine Or.inr (Or.inr (himp ⟨by omega, fun x hx => ?_⟩))
          by_contra hge
          exact hpath ⟨x, hx, by omega⟩
    · rintro (hfull | ⟨x, hx, hle⟩ | hiff) ⟨hroom, hall⟩
      · omega
      · have := hall x hx
        omega
      · exact hiff

/-- An empty list over an array that is filled with one value. -/
def filledWith (v : Nat) : SortedArrayList := initSortedList (fun _ => v) 4

theorem sameLive_filledWith (v w : Nat) : SameLive (filledWith v) (filledWith w) where
  arrSize := rfl
  currSize := rfl
  arr := by
    intro k hk
    exact absurd hk (by simp [filledWith, initSortedList])

/-- Three elements, with `v` in the cells behind them. -/
def threeBefore (v : Nat) : SortedArrayList := ⟨fun i => if i < 3 then 10 * (i + 1) else v, 8, 4⟩

theorem sameLive_threeBefore (v w : Nat) : SameLive (threeBefore v) (threeBefore w) where
  arrSize := rfl
  currSize := rfl
  arr := by
    intro k hk
    have hk' : k + 1 < 4 := hk
    show (if k < 3 then _ else v) = if k < 3 then _ else w
    rw [if_pos (by omega), if_pos (by omega)]

/-- The item 25 is in one of the unused cells, but not above all elements; and a list whose
`curr_size` has come down to `0`. -/
theorem sameResult_iff_filled :
    (SameResult (insertList 25 (threeBefore 25)) (insertList 25 (threeBefore 99)) ∧
      SameResult (removeList 25 (threeBefore 25)) (removeList 25 (threeBefore 99))) ∧
    (SameResult (insertList 5 { filledWith 0 with currSize := 0 })
        (insertList 5 { filledWith 5 with currSize := 0 }) ∧
      SameResult (removeList 5 { filledWith 0 with currSize := 0 })
        (removeList 5 { filledWith 5 with currSize := 0 })) := by
  constructor
  · have hthree : ∃ x ∈ (threeBefore 25).rightmost, 25 ≤ x := by decide
    exact (sameResult_iff (sameLive_threeBefore 25 99) (by decide) (by decide)).1.2
      (Or.inr (Or.inr (Or.inl hthree)))
  · have hlive : SameLive { filledWith 0 with currSize := 0 }
        { filledWith 5 with currSize := 0 } := ⟨rfl, rfl, fun k hk => absurd hk (by simp)⟩
    exact (sameResult_iff hlive (by decide) (by decide)).1.2 (Or.inl rfl)

/-- Whether 5 can be inserted into an empty list depends on what the array was used for before. -/
theorem insertList_stale :
    SameLive (filledWith 0) (filledWith 5) ∧ (insertList 5 (filledWith 0)).1 = 0 ∧
      (insertList 5 (filledWith 5)).1 = 1 ∧ (removeList 5 (filledWith 0)).1 = 1 ∧
      (removeList 5 (filledWith 5)).1 = 0 :=
  ⟨sameLive_filledWith 0 5, by decide, by decide, by decide, by decide⟩

/-! ## `search_list` -/

/-- A `uint32_t` as an `int`. -/
def toInt32 (n : Nat) : Int := if n < 2 ^ 31 then n else n - W32

/-- The loop of `search_list`; `none` if it has not ended yet. -/
def searchLoop (item : Nat) (list : SortedArrayList) : Nat → Nat → Nat → Option Int
  | 0, _, _ => none
  | fuel + 1, l, r =>
      let currIndex := add32 l (sub32 r l / 2)
      if currIndex < list.arrSize then
        if item = list.arr currIndex then some (toInt32 currIndex)
        else if l = r then some (-1)
        else if item < list.arr currIndex then searchLoop item list fuel l (sub32 currIndex 1)
        else searchLoop item list fuel (add32 currIndex 1) r
      else some (-1)

/-- `search_list`, with one iteration more than the interval can be halved. -/
def searchList (item : Nat) (list : SortedArrayList) : Option Int :=
  searchLoop item list (probeFuel + 1) 0 (sub32 list.currSize 1)

/-- The cells that the loop of `search_list` reads. -/
def searchLoopAccesses (item : Nat) (list : SortedArrayList) : Nat → Nat → Nat → List Nat
  | 0, _, _ => []
  | fuel + 1, l, r =>
      let currIndex := add32 l (sub32 r l / 2)
      if currIndex < list.arrSize then
        currIndex ::
          if item = list.arr currIndex then []
          else if l = r then []
          else if item < list.arr currIndex then
            searchLoopAccesses item list fuel l (sub32 currIndex 1)
          else searchLoopAccesses item list fuel (add32 currIndex 1) r
      else []

def searchListAccesses (item : Nat) (list : SortedArrayList) : List Nat :=
  searchLoopAccesses item list (probeFuel + 1) 0 (sub32 list.currSize 1)

theorem lt_of_mem_searchLoopAccesses {fuel l r k : Nat}
    (hk : k ∈ searchLoopAccesses item list fuel l r) : k < list.arrSize := by
  induction fuel generalizing l r with
  | zero => cases hk
  | succ fuel ih =>
      simp only [searchLoopAccesses] at hk
      split at hk
      next hin =>
        rcases List.mem_cons.1 hk with rfl | hk
        · exact hin
        · split at hk
          · cases hk
          · split at hk
            · cases hk
            · split at hk
              · exact ih hk
              · exact ih hk
      next => cases hk

/-- What the result of `search_list` says about the item. -/
def SearchOk (list : SortedArrayList) (item : Nat) (ret : Option Int) : Prop :=
  (∃ i : Nat, ret = some (i : Int) ∧ i + 1 < list.currSize ∧ list.arr i = item) ∨
    (ret = some (-1) ∧ ∀ j, j + 1 < list.currSize → list.arr j ≠ item)

/-- The item is not an element, if the cells before `m` are smaller and those from `m` on larger. -/
theorem not_element {m : Nat} (hbelow : ∀ j, j < m → list.arr j < item)
    (habove : ∀ j, m ≤ j → j + 1 < list.currSize → item < list.arr j) :
    ∀ j, j + 1 < list.currSize → list.arr j ≠ item := by
  intro j hj
  rcases Nat.lt_or_ge j m with hjm | hjm
  · exact Nat.ne_of_lt (hbelow j hjm)
  · exact Nat.ne_of_gt (habove j hjm hj)

/-- When `r` has fallen below `l`, also if it has wrapped around, the next index is at least `2^31 -
1` and the loop ends. -/
theorem searchLoop_crossed {fuel l r : Nat} (hsize : list.arrSize < 2 ^ 31) (hl : l < 2 ^ 31)
    (hr : r = sub32 l 1) : searchLoop item list (fuel + 1) l r = some (-1) := by
  have hgap : sub32 r l = W32 - 1 := by
    subst hr
    unfold sub32 W32
    split_ifs <;> omega
  have hindex : add32 l (sub32 r l / 2) = l + (2 ^ 31 - 1) := by
    rw [hgap]
    unfold add32 W32
    omega
  have hout : ¬ l + (2 ^ 31 - 1) < list.arrSize := by omega
  rw [searchLoop]
  simp only [hindex, if_neg hout]

theorem toInt32_of_lt {n : Nat} (hn : n < 2 ^ 31) : toInt32 n = n := if_pos hn

theorem searchLoop_single_ok (h : Searchable list item) (hsize : list.arrSize < 2 ^ 31)
    {fuel l : Nat} (hl : l < list.currSize) (hbelow : ∀ j, j < l → list.arr j < item)
    (habove : ∀ j, l < j → j + 1 < list.currSize → item < list.arr j) :
    SearchOk list item (searchLoop item list (fuel + 1) l l) := by
  have hle := h.le
  have hw := h.lt
  rw [searchLoop, mid_eq (Nat.le_refl l) (by omega), Nat.sub_self, Nat.zero_div, Nat.add_zero,
    if_pos (by omega), if_pos rfl]
  by_cases heq : item = list.arr l
  · rw [if_pos heq, toInt32_of_lt (by omega)]
    exact Or.inl ⟨l, rfl, h.found hl heq⟩
  · rw [if_neg heq]
    refine Or.inr ⟨rfl, fun j hj hja => ?_⟩
    rcases Nat.lt_trichotomy j l with hjl | rfl | hjl
    · exact Nat.ne_of_lt (hbelow j hjl) hja
    · exact heq hja.symm
    · exact Nat.ne_of_gt (habove j hjl hj) hja

/-- The invariant of the loop of `search_list`: the item can only be in `[l, r]`. -/
theorem searchLoop_ok (h : Searchable list item) (hsize : list.arrSize < 2 ^ 31) :
    ∀ (fuel l r : Nat), l ≤ r → r < list.currSize → r - l < 2 ^ fuel →
      (∀ j, j < l → list.arr j < item) →
      (∀ j, r < j → j + 1 < list.currSize → item < list.arr j) →
      SearchOk list item (searchLoop item list (fuel + 2) l r) := by
  have hle := h.le
  have hw := h.lt
  intro fuel
  induction fuel with
  | zero =>
      intro l r hlr hr hf hbelow habove
      obtain rfl : l = r := by omega
      exact searchLoop_single_ok h hsize hr hbelow habove
  | succ fuel ih =>
      intro l r hlr hr hf hbelow habove
      by_cases hlr' : l = r
      · subst hlr'
        exact searchLoop_single_ok h hsize hr hbelow habove
      · have hpow : 2 ^ (fuel + 1) = 2 * 2 ^ fuel := by ring
        rw [searchLoop, mid_eq hlr (by omega), if_pos (by omega), if_neg hlr']
        obtain ⟨m, hm⟩ : ∃ m, l + (r - l) / 2 = m := ⟨_, rfl⟩
        rw [hm]
        by_cases heq : item = list.arr m
        · rw [if_pos heq, toInt32_of_lt (by omega)]
          exact Or.inl ⟨m, rfl, h.found (by omega) heq⟩
        · rw [if_neg heq]
          by_cases hlt : item < list.arr m
          · rw [if_pos hlt]
            by_cases hcross : m = l
            · -- `r` falls below `l`
              subst hcross
              rw [searchLoop_crossed hsize (by omega) rfl]
              exact Or.inr ⟨rfl, not_element hbelow (h.above hlt)⟩
            · -- `r` excludes the middle, unlike in the bisection of `insert_list`
              rw [sub32_of_le (by omega)]
              exact ih l (m - 1) (by omega) (by omega) (by omega) hbelow
                fun j hj => h.above hlt j (by omega)
          · rw [if_neg hlt, add32_of_lt (by omega)]
            exact ih (m + 1) r (by omega) hr (by omega) (h.below (by omega) (by omega)) habove

theorem searchList_ok (h : Searchable list item) (hsize : list.arrSize < 2 ^ 31) :
    SearchOk list item (searchList item list) := by
  have hle := h.le
  have hpos := h.pos
  unfold searchList probeFuel
  rw [sub32_of_le hpos]
  refine searchLoop_ok h hsize 32 0 _ (Nat.zero_le _) (by omega) (by omega) ?_ ?_
  · intro j hj
    omega
  · intro j hj hjc
    omega

/-- The code of `remove_list` says whether the item is an element. -/
theorem removeList_code (h : Searchable list item) :
    (removeList item list).1 = if item ∈ live list then 0 else 1 := by
  have hprobe := probe_searchable h
  unfold removeList
  cases hcase : probe item list probeFuel 0 (sub32 list.currSize 1) with
  | found i =>
      rw [hcase] at hprobe
      rw [if_pos ((mem_live_iff h.pos item).2 ⟨i, hprobe⟩)]
  | stop i =>
      rw [hcase] at hprobe
      rw [if_neg fun hmem => ?_]
      obtain ⟨j, hj, hja⟩ := (mem_live_iff h.pos item).1 hmem
      exact not_element hprobe.2.1 hprobe.2.2 j hj hja
  | outside =>
      rw [hcase] at hprobe
      exact hprobe.elim

/-- **`search_list` agrees with membership.** It returns an index at which the item is, if the item
is an element, and `-1` otherwise; `remove_list` would return 0 and 1. It only reads cells of the
array. -/
theorem searchList_iff_mem (h : Searchable list item) (hsize : list.arrSize < 2 ^ 31) :
    (item ∈ live list → (removeList item list).1 = 0 ∧
      ∃ i : Nat, searchList item list = some (i : Int) ∧ i + 1 < list.currSize ∧
        list.arr i = item) ∧
    (item ∉ live list → (removeList item list).1 = 1 ∧ searchList item list = some (-1)) ∧
    ∀ k ∈ searchListAccesses item list, k < list.arrSize := by
  refine ⟨fun hmem => ⟨?_, ?_⟩, fun hmem => ⟨?_, ?_⟩, fun k hk => lt_of_mem_searchLoopAccesses hk⟩
  · rw [removeList_code h, if_pos hmem]
  · rcases searchList_ok h hsize with hfound | ⟨-, hnone⟩
    · exact hfound
    · obtain ⟨j, hj, hja⟩ := (mem_live_iff h.pos item).1 hmem
      exact absurd hja (hnone j hj)
  · rw [removeList_code h, if_neg hmem]
  · rcases searchList_ok h hsize with ⟨i, -, hi⟩ | ⟨hret, -⟩
    · exact absurd ((mem_live_iff h.pos item).2 ⟨i, hi⟩) hmem
    · exact hret

/-- Three elements. A search for 1 ends with `r` at `2^32 - 1`. -/
def threeElements : SortedArrayList := ⟨fun i => if i < 3 then 10 * (i + 1) else 0, 8, 4⟩

theorem searchable_threeElements {item : Nat} (hne : item ≠ 0) : Searchable threeElements item where
  pos := by decide
  le := by decide
  lt := by decide
  inc := by
    intro i j hij hj
    have hj' : j + 1 < 4 := hj
    show (if i < 3 then 10 * (i + 1) else 0) < if j < 3 then 10 * (j + 1) else 0
    rw [if_pos (by omega), if_pos (by omega)]
    omega
  dead := Ne.symm hne

theorem searchList_iff_mem_three :
    (∃ i : Nat, searchList 20 threeElements = some (i : Int) ∧ i + 1 < 4 ∧
      threeElements.arr i = 20) ∧
      searchList 1 threeElements = some (-1) :=
  ⟨((searchList_iff_mem (searchable_threeElements (by decide)) (by decide)).1 (by decide)).2,
    ((searchList_iff_mem (searchable_threeElements (by decide)) (by decide)).2.1 (by decide)).2⟩

end SortedArrayList

end NowOS

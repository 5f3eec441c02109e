import NowOS.Lib.Word32

set_option autoImplicit false

/-! # The sorted array list (`klib/sorted_array_list.c`)

A list of pointers kept in increasing order in an array of `arr_size` cells. `curr_size` counts
one more than the number of elements: the cells `0 … curr_size - 2` are the elements (`live`),
the cell `curr_size - 1` and the ones after it are unused. `insert_list` and `remove_list` look
for their item by bisection over `[0, curr_size - 1]`, an interval that includes the first
unused cell, so an unused cell can be compared with the item (`probe`). `init_sorted_list` does
not clear the array.

The array is a function from cell numbers to contents: what follows the base pointer in memory.
-/

namespace NowOS

/-- `sorted_array_list_t`. The lock plays no part in the sequential behaviour. -/
structure SortedArrayList where
  arr : Nat → Nat
  arrSize : Nat
  currSize : Nat

namespace SortedArrayList

/-! ## The functions of the source -/

/-- `init_sorted_list`: the contents of the array stay as they are. -/
def initSortedList (arrPtr : Nat → Nat) (arraySize : Nat) : SortedArrayList :=
  ⟨arrPtr, arraySize, 1⟩

/-- The loop of `insert_item`: `for (; i > index; i--) arr[i] = arr[i - 1]`. -/
def shiftUp (index : Nat) : Nat → (Nat → Nat) → Nat → Nat
  | 0, arr => arr
  | i + 1, arr =>
      if index < i + 1 then shiftUp index i (Function.update arr (i + 1) (arr i)) else arr

/-- `insert_item`. -/
def insertItem (item index : Nat) (list : SortedArrayList) : Int × SortedArrayList :=
  if list.currSize = list.arrSize then (-1, list)
  else
    (0, { list with
      currSize := add32 list.currSize 1
      arr := Function.update (shiftUp index (sub32 list.currSize 1) list.arr) index item })

/-- The loop of `remove_item`, `n` iterations from `i` on: `arr[i] = arr[i + 1]; i++`. -/
def shiftDown : Nat → Nat → (Nat → Nat) → Nat → Nat
  | 0, _, arr => arr
  | n + 1, i, arr => shiftDown n (i + 1) (Function.update arr i (arr (i + 1)))

/-- `remove_item`: the loop runs while `index < curr_size - 1`. -/
def removeItem (index : Nat) (list : SortedArrayList) : SortedArrayList :=
  { list with
    arr := shiftDown (sub32 list.currSize 1 - index) index list.arr
    currSize := sub32 list.currSize 1 }

/-- How the bisection of `insert_list` and `remove_list` ends: at a cell that holds the item, at
the one cell that is left of the interval, or outside the array. -/
inductive Probe
  | found (i : Nat)
  | stop (i : Nat)
  | outside
  deriving DecidableEq

/-- The bisection that `insert_list` and `remove_list` share. The interval is halved in every
iteration, so `probeFuel` iterations are enough for a 32-bit interval (`probe_ok`). -/
def probe (item : Nat) (list : SortedArrayList) : Nat → Nat → Nat → Probe
  | 0, _, _ => .outside
  | fuel + 1, l, r =>
      let currIndex := add32 l (sub32 r l / 2)
      if currIndex < list.arrSize then
        if item = list.arr currIndex then .found currIndex
        else if l = r then .stop currIndex
        else if item < list.arr currIndex then probe item list fuel l currIndex
        else probe item list fuel (add32 currIndex 1) r
      else .outside

def probeFuel : Nat := 33

/-- `insert_list`: `0` on success, `1` if the item is there already, `-1` if the list is full. -/
def insertList (item : Nat) (list : SortedArrayList) : Int × SortedArrayList :=
  match probe item list probeFuel 0 (sub32 list.currSize 1) with
  | .found _ => (1, list)
  | .stop currIndex =>
      if (insertItem item currIndex list).1 = -1 then (-1, list)
      else (0, (insertItem item currIndex list).2)
  | .outside => (-1, list)

/-- `remove_list`: `0` on success, `1` if the item is not in the list. -/
def removeList (item : Nat) (list : SortedArrayList) : Int × SortedArrayList :=
  match probe item list probeFuel 0 (sub32 list.currSize 1) with
  | .found currIndex => (0, removeItem currIndex list)
  | .stop _ => (1, list)
  | .outside => (-1, list)

/-- The elements: the cells `0 … curr_size - 2`. -/
def live (list : SortedArrayList) : List Nat :=
  (List.range (sub32 list.currSize 1)).map list.arr

/-! ## The loops that move cells -/

theorem shiftUp_apply (index : Nat) :
    ∀ (n : Nat) (arr : Nat → Nat) (k : Nat),
      shiftUp index n arr k = if index < k ∧ k ≤ n then arr (k - 1) else arr k := by
  intro n
  induction n with
  | zero =>
      intro arr k
      rw [if_neg (by omega)]
      rfl
  | succ n ih =>
      intro arr k
      rw [shiftUp]
      by_cases hidx : index < n + 1
      · rw [if_pos hidx, ih]
        -- cell `n + 1` is written by this iteration, the cells below it by the later ones
        by_cases hk : k = n + 1
        · subst hk
          rw [if_neg (by omega), if_pos (by omega)]
          exact Function.update_self _ _ _
        · by_cases hin : index < k ∧ k ≤ n
          · rw [if_pos hin, if_pos (by omega)]
            exact Function.update_of_ne (by omega) _ _
          · rw [if_neg hin, if_neg (by omega)]
            exact Function.update_of_ne hk _ _
      · rw [if_neg hidx, if_neg (by omega)]

theorem shiftDown_apply :
    ∀ (n i : Nat) (arr : Nat → Nat) (k : Nat),
      shiftDown n i arr k = if i ≤ k ∧ k < i + n then arr (k + 1) else arr k := by
  intro n
  induction n with
  | zero =>
      intro i arr k
      rw [if_neg (by omega)]
      rfl
  | succ n ih =>
      intro i arr k
      rw [shiftDown, ih]
      by_cases hk : k = i
      · subst hk
        rw [if_neg (by omega), if_pos (by omega)]
        exact Function.update_self _ _ _
      · by_cases hin : i + 1 ≤ k ∧ k < i + 1 + n
        · rw [if_pos hin, if_pos (by omega)]
          exact Function.update_of_ne (by omega) _ _
        · rw [if_neg hin, if_neg (by omega)]
          exact Function.update_of_ne hk _ _

/-! ## The representation invariant -/

/-- **The list is well formed.** The elements are strictly increasing, and no unused cell holds
a value in `P`, the set the items come from. The array has room for the elements and one more
cell, unless it has no cell at all. -/
structure Ok (P : Nat → Prop) (list : SortedArrayList) : Prop where
  pos : 1 ≤ list.currSize
  le : list.currSize ≤ list.arrSize ∨ list.currSize = 1
  lt : list.arrSize < W32
  inc : ∀ i j, i < j → j + 1 < list.currSize → list.arr i < list.arr j
  unused : ∀ i, list.currSize ≤ i + 1 → i < list.arrSize → ¬ P (list.arr i)

variable {P : Nat → Prop} {list : SortedArrayList}

theorem Ok.sub_one (h : Ok P list) : sub32 list.currSize 1 = list.currSize - 1 :=
  sub32_of_le h.pos

theorem mem_live_iff (hpos : 1 ≤ list.currSize) (a : Nat) :
    a ∈ live list ↔ ∃ i, i + 1 < list.currSize ∧ list.arr i = a := by
  unfold live
  rw [sub32_of_le hpos]
  simp only [List.mem_map, List.mem_range]
  constructor
  · rintro ⟨i, hi, rfl⟩
    exact ⟨i, by omega, rfl⟩
  · rintro ⟨i, hi, rfl⟩
    exact ⟨i, by omega, rfl⟩

theorem Ok.mem_live (h : Ok P list) (a : Nat) :
    a ∈ live list ↔ ∃ i, i + 1 < list.currSize ∧ list.arr i = a := mem_live_iff h.pos a

theorem Ok.length_live (h : Ok P list) : (live list).length + 1 = list.currSize := by
  have hpos := h.pos
  unfold live
  rw [List.length_map, List.length_range, h.sub_one]
  omega

theorem Ok.sorted (h : Ok P list) : (live list).Pairwise (· < ·) := by
  unfold live
  rw [List.pairwise_map, h.sub_one]
  refine List.Pairwise.imp_of_mem ?_ List.pairwise_lt_range
  intro i j _ hj hij
  exact h.inc i j hij (by rw [List.mem_range] at hj; omega)

theorem ok_initSortedList {arrPtr : Nat → Nat} {arraySize : Nat} (hs : arraySize < W32)
    (hP : ∀ i, i < arraySize → ¬ P (arrPtr i)) : Ok P (initSortedList arrPtr arraySize) where
  pos := Nat.le_refl 1
  le := Or.inr rfl
  lt := hs
  inc := by
    intro i j _ hj
    simp only [initSortedList] at hj
    omega
  unused := fun i _ hi => hP i hi

@[simp] theorem live_initSortedList (arrPtr : Nat → Nat) (arraySize : Nat) :
    live (initSortedList arrPtr arraySize) = [] := by
  simp [live, initSortedList, sub32]

/-! ## The bisection -/

/-- Where the item belongs: everything before cell `i` is smaller, every element from cell `i` on
is larger. -/
def Splits (list : SortedArrayList) (item i : Nat) : Prop :=
  i < list.currSize ∧ (∀ j, j < i → list.arr j < item) ∧
    ∀ j, i ≤ j → j + 1 < list.currSize → item < list.arr j

/-- What the end of the bisection says about the item. -/
def ProbeOk (list : SortedArrayList) (item : Nat) : Probe → Prop
  | .found i => i + 1 < list.currSize ∧ list.arr i = item
  | .stop i => Splits list item i
  | .outside => False

/-- The cell in the middle of `[l, r]`. -/
theorem mid_eq {l r : Nat} (hlr : l ≤ r) (hr : r < W32) :
    add32 l (sub32 r l / 2) = l + (r - l) / 2 := by
  rw [sub32_of_le hlr]
  exact add32_of_lt (by omega)

/-- What the bisection needs: the elements are strictly increasing, and the first unused cell, which
is part of the interval at first, does not hold the item. -/
structure Searchable (list : SortedArrayList) (item : Nat) : Prop where
  pos : 1 ≤ list.currSize
  le : list.currSize ≤ list.arrSize
  lt : list.arrSize < W32
  inc : ∀ i j, i < j → j + 1 < list.currSize → list.arr i < list.arr j
  dead : list.arr (list.currSize - 1) ≠ item

theorem Ok.searchable (h : Ok P list) (hle : list.currSize ≤ list.arrSize) {item : Nat}
    (hi : P item) :
    Searchable list item where
  pos := h.pos
  le := hle
  lt := h.lt
  inc := h.inc
  dead := by
    have hpos := h.pos
    intro heq
    exact h.unused (list.currSize - 1) (by omega) (by omega) (heq ▸ hi)

/-- A cell that holds the item is not the unused one at the end. -/
theorem Searchable.found {item : Nat} (h : Searchable list item) {i : Nat} (hlt : i < list.currSize)
    (heq : item = list.arr i) : i + 1 < list.currSize ∧ list.arr i = item := by
  refine ⟨?_, heq.symm⟩
  by_contra hlast
  have hi : i = list.currSize - 1 := by omega
  exact h.dead (hi ▸ heq.symm)

/-- The cells from one that is larger on are larger. -/
theorem Searchable.above {item : Nat} (h : Searchable list item) {m : Nat}
    (hm : item < list.arr m) :
    ∀ j, m ≤ j → j + 1 < list.currSize → item < list.arr j := by
  intro j hj hjc
  rcases Nat.lt_or_eq_of_le hj with hj' | rfl
  · exact Nat.lt_trans hm (h.inc _ j hj' hjc)
  · exact hm

/-- The cells up to one that is smaller are smaller. -/
theorem Searchable.below {item : Nat} (h : Searchable list item) {m : Nat}
    (hmc : m + 1 < list.currSize)
    (hm : list.arr m < item) : ∀ j, j < m + 1 → list.arr j < item := by
  intro j hj
  rcases Nat.lt_or_eq_of_le (Nat.le_of_lt_succ hj) with hj' | rfl
  · exact Nat.lt_trans (h.inc j _ hj' hmc) hm
  · exact hm

/-- The bisection of one cell. -/
theorem probe_single {item fuel l : Nat} (hl : l < W32) :
    probe item list (fuel + 1) l l =
      if l < list.arrSize then (if item = list.arr l then .found l else .stop l) else .outside := by
  rw [probe, mid_eq (Nat.le_refl l) hl, Nat.sub_self, Nat.zero_div, Nat.add_zero, if_pos rfl]

theorem probe_single_ok {item fuel l : Nat} (h : Searchable list item) (hl : l < list.currSize)
    (hbelow : ∀ j, j < l → list.arr j < item)
    (habove : ∀ j, l ≤ j → j + 1 < list.currSize → item < list.arr j) :
    ProbeOk list item (probe item list (fuel + 1) l l) := by
  have hle := h.le
  have hw := h.lt
  rw [probe_single (by omega), if_pos (by omega)]
  split
  · next heq => exact h.found hl heq
  · exact ⟨hl, hbelow, habove⟩

/-- The invariant of the bisection is that the item can only be in `[l, r]`: the cells before `l`
are smaller and the elements from `r` on are larger. -/
theorem probe_ok {item : Nat} (h : Searchable list item) :
    ∀ (fuel l r : Nat), l ≤ r → r < list.currSize → r - l < 2 ^ fuel →
      (∀ j, j < l → list.arr j < item) →
      (∀ j, r ≤ j → j + 1 < list.currSize → item < list.arr j) →
      ProbeOk list item (probe item list (fuel + 1) l r) := by
  have hle := h.le
  have hw := h.lt
  intro fuel
  induction fuel with
  | zero =>
      intro l r hlr hr hf hbelow habove
      obtain rfl : l = r := by
        rw [Nat.pow_zero] at hf
        omega
      exact probe_single_ok h hr hbelow habove
  | succ fuel ih =>
      intro l r hlr hr hf hbelow habove
      by_cases hlr' : l = r
      · subst hlr'
        exact probe_single_ok h hr hbelow habove
      · -- now `l < r`, so the middle cell is an element
        have hpow : 2 ^ (fuel + 1) = 2 * 2 ^ fuel := by ring
        rw [probe, mid_eq hlr (by omega), if_pos (by omega), if_neg hlr']
        by_cases heq : item = list.arr (l + (r - l) / 2)
        · rw [if_pos heq]
          exact h.found (by omega) heq
        · rw [if_neg heq]
          by_cases hlt : item < list.arr (l + (r - l) / 2)
          · rw [if_pos hlt]
            exact ih l _ (by omega) (by omega) (by omega) hbelow (h.above hlt)
          · rw [if_neg hlt, add32_of_lt (by omega)]
            exact ih _ r (by omega) hr (by omega) (h.below (by omega) (by omega)) habove

/-- The bisection over the whole list ends in the array. -/
theorem probe_searchable {item : Nat} (h : Searchable list item) :
    ProbeOk list item (probe item list probeFuel 0 (sub32 list.currSize 1)) := by
  have hle := h.le
  have hw := h.lt
  have hp := h.pos
  rw [sub32_of_le hp]
  unfold W32 at hw
  refine probe_ok h 32 0 _ (Nat.zero_le _) (by omega) (by omega) ?_ ?_
  · intro j hj
    omega
  · intro j hj hjc
    omega

/-- In an array without cells the bisection leaves the array at once. -/
theorem probe_outside (item : Nat) (list : SortedArrayList) (hz : list.arrSize = 0) (l r : Nat) :
    probe item list probeFuel l r = .outside := by
  unfold probeFuel
  rw [probe]
  simp [hz]

/-! ## Insertion and removal -/

theorem Splits.not_mem (h : Ok P list) {item i : Nat} (hs : Splits list item i) :
    item ∉ live list := by
  rw [h.mem_live]
  rintro ⟨j, hj, hja⟩
  rcases Nat.lt_or_ge j i with hji | hji
  · have := hs.2.1 j hji
    omega
  · have := hs.2.2 j hji hj
    omega

/-- **The cells after an insertion at the place where the item belongs.** -/
theorem insertItem_arr (h : Ok P list) (hroom : list.currSize < list.arrSize) (item i k : Nat) :
    (insertItem item i list).2.arr k =
      if k = i then item
      else if i < k ∧ k < list.currSize then list.arr (k - 1) else list.arr k := by
  have hp := h.pos
  unfold insertItem
  rw [if_neg (by omega), h.sub_one]
  simp only [Function.update_apply]
  by_cases hk : k = i
  · rw [if_pos hk, if_pos hk]
  · rw [if_neg hk, if_neg hk, shiftUp_apply]
    by_cases hin : i < k ∧ k < list.currSize
    · rw [if_pos hin, if_pos (by omega)]
    · rw [if_neg hin, if_neg (by omega)]

theorem insertItem_currSize (h : Ok P list) (hroom : list.currSize < list.arrSize) (item i : Nat) :
    (insertItem item i list).2.currSize = list.currSize + 1 := by
  have hw := h.lt
  unfold insertItem
  rw [if_neg (by omega)]
  exact add32_of_lt (by omega)

theorem insertItem_arrSize (item i : Nat) (list : SortedArrayList) :
    (insertItem item i list).2.arrSize = list.arrSize := by
  unfold insertItem
  split <;> rfl

/-- Inserting at the place where the item belongs keeps the list well formed. -/
theorem ok_insertItem (h : Ok P list) (hroom : list.currSize < list.arrSize) {item i : Nat}
    (hs : Splits list item i) : Ok P (insertItem item i list).2 where
  pos := by rw [insertItem_currSize h hroom]; omega
  le := by
    rw [insertItem_currSize h hroom, insertItem_arrSize]
    exact Or.inl hroom
  lt := by rw [insertItem_arrSize]; exact h.lt
  inc := by
    intro a b hab hb
    rw [insertItem_currSize h hroom] at hb
    rw [insertItem_arr h hroom, insertItem_arr h hroom]
    obtain ⟨hi, hbelow, habove⟩ := hs
    by_cases ha : a = i
    · subst ha
      rw [if_pos rfl, if_neg (by omega), if_pos (by omega)]
      exact habove _ (by omega) (by omega)
    · rw [if_neg ha]
      by_cases hai : i < a ∧ a < list.currSize
      · rw [if_pos hai, if_neg (by omega), if_pos (by omega)]
        exact h.inc _ _ (by omega) (by omega)
      · rw [if_neg hai]
        by_cases hb' : b = i
        · subst hb'
          rw [if_pos rfl]
          exact hbelow a hab
        · rw [if_neg hb']
          by_cases hbi : i < b ∧ b < list.currSize
          · rw [if_pos hbi]
            by_cases hab' : a = b - 1
            · omega
            · exact h.inc _ _ (by omega) (by omega)
          · rw [if_neg hbi]
            exact h.inc _ _ hab (by omega)
  unused := by
    intro k hk hka
    rw [insertItem_currSize h hroom] at hk
    rw [insertItem_arrSize] at hka
    rw [insertItem_arr h hroom, if_neg (by have := hs.1; omega), if_neg (by omega)]
    exact h.unused k (by omega) hka

theorem mem_live_insertItem (h : Ok P list) (hroom : list.currSize < list.arrSize) {item i : Nat}
    (hs : Splits list item i) (a : Nat) :
    a ∈ live (insertItem item i list).2 ↔ a = item ∨ a ∈ live list := by
  rw [(ok_insertItem h hroom hs).mem_live, h.mem_live, insertItem_currSize h hroom]
  have hi := hs.1
  constructor
  · rintro ⟨k, hk, rfl⟩
    rw [insertItem_arr h hroom]
    by_cases hki : k = i
    · exact Or.inl (if_pos hki)
    · right
      rw [if_neg hki]
      by_cases hin : i < k ∧ k < list.currSize
      · exact ⟨k - 1, by omega, (if_pos hin).symm⟩
      · exact ⟨k, by omega, (if_neg hin).symm⟩
  · rintro (rfl | ⟨k, hk, rfl⟩)
    · exact ⟨i, by omega, by rw [insertItem_arr h hroom, if_pos rfl]⟩
    · rcases Nat.lt_or_ge k i with hki | hki
      · refine ⟨k, by omega, ?_⟩
        rw [insertItem_arr h hroom, if_neg (by omega), if_neg (by omega)]
      · refine ⟨k + 1, by omega, ?_⟩
        rw [insertItem_arr h hroom, if_neg (by omega), if_pos (by omega), Nat.add_sub_cancel]

/-- The cells after the removal of the element in cell `i`. -/
theorem removeItem_arr (h : Ok P list) {i : Nat} (hi : i + 1 < list.currSize) (k : Nat) :
    (removeItem i list).arr k =
      if i ≤ k ∧ k + 1 < list.currSize then list.arr (k + 1) else list.arr k := by
  unfold removeItem
  rw [h.sub_one]
  simp only [shiftDown_apply]
  by_cases hin : i ≤ k ∧ k + 1 < list.currSize
  · rw [if_pos hin, if_pos (by omega)]
  · rw [if_neg hin, if_neg (by omega)]

theorem removeItem_currSize (h : Ok P list) (i : Nat) :
    (removeItem i list).currSize = list.currSize - 1 := by
  rw [← h.sub_one, removeItem]

theorem removeItem_arrSize (i : Nat) (list : SortedArrayList) :
    (removeItem i list).arrSize = list.arrSize := by
  rw [removeItem]

theorem ok_removeItem (h : Ok P list) {i : Nat} (hi : i + 1 < list.currSize) :
    Ok P (removeItem i list) where
  pos := by rw [removeItem_currSize h]; omega
  le := by
    rw [removeItem_currSize h, removeItem_arrSize]
    rcases h.le with hle | hle <;> omega
  lt := by rw [removeItem_arrSize]; exact h.lt
  inc := by
    intro a b hab hb
    rw [removeItem_currSize h] at hb
    rw [removeItem_arr h hi, removeItem_arr h hi]
    by_cases ha : i ≤ a ∧ a + 1 < list.currSize
    · rw [if_pos ha, if_pos (by omega)]
      exact h.inc _ _ (by omega) (by omega)
    · rw [if_neg ha]
      by_cases hb' : i ≤ b ∧ b + 1 < list.currSize
      · rw [if_pos hb']
        exact h.inc _ _ (by omega) (by omega)
      · rw [if_neg hb']
        exact h.inc _ _ hab (by omega)
  unused := by
    intro k hk hka
    rw [removeItem_currSize h] at hk
    rw [removeItem_arrSize] at hka
    rw [removeItem_arr h hi]
    -- the first unused cell of the new list receives the first unused cell of the old one
    by_cases hin : i ≤ k ∧ k + 1 < list.currSize
    · rw [if_pos hin]
      refine h.unused _ (by omega) ?_
      rcases h.le with hle | hle <;> omega
    · rw [if_neg hin]
      exact h.unused k (by omega) hka

theorem mem_live_removeItem (h : Ok P list) {i : Nat} (hi : i + 1 < list.currSize) (a : Nat) :
    a ∈ live (removeItem i list) ↔ a ∈ live list ∧ a ≠ list.arr i := by
  rw [(ok_removeItem h hi).mem_live, h.mem_live, removeItem_currSize h]
  constructor
  · rintro ⟨k, hk, rfl⟩
    rw [removeItem_arr h hi]
    by_cases hin : i ≤ k ∧ k + 1 < list.currSize
    · rw [if_pos hin]
      exact ⟨⟨k + 1, by omega, rfl⟩, (h.inc i (k + 1) (by omega) (by omega)).ne'⟩
    · rw [if_neg hin]
      exact ⟨⟨k, by omega, rfl⟩, (h.inc k i (by omega) hi).ne⟩
  · rintro ⟨⟨k, hk, rfl⟩, hne⟩
    have hki : k ≠ i := fun hk' => hne (by rw [hk'])
    rcases Nat.lt_or_gt_of_ne hki with hlt | hgt
    · refine ⟨k, by omega, ?_⟩
      rw [removeItem_arr h hi, if_neg (by omega)]
    · refine ⟨k - 1, by omega, ?_⟩
      rw [removeItem_arr h hi, if_pos (by omega), Nat.sub_add_cancel (by omega)]

/-! ## The operations on well-formed lists -/

/-- The bisection in a well-formed list: it finds the item, or the place where it belongs; it
leaves the array only when there is none. -/
theorem probe_cases (h : Ok P list) {item : Nat} (hi : P item) :
    (∃ i, probe item list probeFuel 0 (sub32 list.currSize 1) = .found i ∧
      i + 1 < list.currSize ∧ list.arr i = item) ∨
    (∃ i, probe item list probeFuel 0 (sub32 list.currSize 1) = .stop i ∧
      Splits list item i ∧ list.currSize ≤ list.arrSize) ∨
    (probe item list probeFuel 0 (sub32 list.currSize 1) = .outside ∧
      list.arrSize = 0 ∧ list.currSize = 1) := by
  by_cases hle : list.currSize ≤ list.arrSize
  · have hp := probe_searchable (h.searchable hle hi)
    cases hc : probe item list probeFuel 0 (sub32 list.currSize 1) with
    | found i => rw [hc] at hp; exact Or.inl ⟨i, rfl, hp⟩
    | stop i => rw [hc] at hp; exact Or.inr (Or.inl ⟨i, rfl, hp, hle⟩)
    | outside => rw [hc] at hp; exact hp.elim
  · have h1 : list.currSize = 1 := h.le.resolve_left hle
    have hz : list.arrSize = 0 := by omega
    exact Or.inr (Or.inr ⟨probe_outside item list hz _ _, hz, h1⟩)

/-- **`insert_list` on a well-formed list.** The item is there already, or the list is full, or
the item is inserted where it belongs. -/
theorem insertList_cases (h : Ok P list) {item : Nat} (hi : P item) :
    (item ∈ live list ∧ insertList item list = (1, list)) ∨
    (item ∉ live list ∧ list.arrSize ≤ list.currSize ∧ insertList item list = (-1, list)) ∨
    (item ∉ live list ∧ list.currSize < list.arrSize ∧ ∃ i, Splits list item i ∧
      insertList item list = (0, (insertItem item i list).2)) := by
  unfold insertList
  rcases probe_cases h hi with ⟨i, hp, hic, hia⟩ | ⟨i, hp, hs, hle⟩ | ⟨hp, hz, h1⟩
  · rw [hp]
    exact Or.inl ⟨(h.mem_live item).2 ⟨i, hic, hia⟩, rfl⟩
  · rw [hp]
    refine Or.inr ?_
    by_cases hfull : list.currSize = list.arrSize
    · refine Or.inl ⟨hs.not_mem h, Nat.le_of_eq hfull.symm, ?_⟩
      simp [insertItem, hfull]
    · refine Or.inr ⟨hs.not_mem h, by omega, i, hs, ?_⟩
      have : (insertItem item i list).1 = 0 := by simp [insertItem, hfull]
      simp [this]
  · rw [hp]
    refine Or.inr (Or.inl ⟨?_, by omega, rfl⟩)
    rw [h.mem_live]
    rintro ⟨i, hic, -⟩
    omega

/-- A full list stays as it is. -/
theorem insertList_of_full (h : Ok P list) {item : Nat} (hi : P item)
    (hfull : list.arrSize ≤ list.currSize) : (insertList item list).2 = list := by
  rcases insertList_cases h hi with ⟨-, he⟩ | ⟨-, -, he⟩ | ⟨-, hroom, -⟩
  · rw [he]
  · rw [he]
  · omega

theorem ok_insertList (h : Ok P list) {item : Nat} (hi : P item) :
    Ok P (insertList item list).2 := by
  rcases insertList_cases h hi with ⟨-, he⟩ | ⟨-, -, he⟩ | ⟨-, hroom, i, hs, he⟩
  · rw [he]; exact h
  · rw [he]; exact h
  · rw [he]; exact ok_insertItem h hroom hs

theorem insertList_arrSize (item : Nat) (list : SortedArrayList) :
    (insertList item list).2.arrSize = list.arrSize := by
  unfold insertList
  split
  · rfl
  · split
    · rfl
    · exact insertItem_arrSize item _ list
  · rfl

/-- Insertion adds nothing but the item. -/
theorem mem_live_insertList_imp (h : Ok P list) {item : Nat} (hi : P item) {a : Nat}
    (ha : a ∈ live (insertList item list).2) : a = item ∨ a ∈ live list := by
  rcases insertList_cases h hi with ⟨-, he⟩ | ⟨-, -, he⟩ | ⟨-, hroom, i, hs, he⟩
  · rw [he] at ha; exact Or.inr ha
  · rw [he] at ha; exact Or.inr ha
  · rw [he] at ha; exact (mem_live_insertItem h hroom hs a).1 ha

/-- With room for one more element, insertion adds the item. -/
theorem mem_live_insertList (h : Ok P list) {item : Nat} (hi : P item)
    (hroom : list.currSize < list.arrSize ∨ item ∈ live list) (a : Nat) :
    a ∈ live (insertList item list).2 ↔ a = item ∨ a ∈ live list := by
  rcases insertList_cases h hi with ⟨hm, he⟩ | ⟨hm, hfull, -⟩ | ⟨-, hroom, i, hs, he⟩
  · rw [he]
    constructor
    · exact Or.inr
    · rintro (rfl | ha)
      · exact hm
      · exact ha
  · rcases hroom with hroom | hroom
    · omega
    · exact absurd hroom hm
  · rw [he]; exact mem_live_insertItem h hroom hs a

/-- **`remove_list` on a well-formed list.** -/
theorem removeList_cases (h : Ok P list) {item : Nat} (hi : P item) :
    (item ∈ live list ∧ ∃ i, i + 1 < list.currSize ∧ list.arr i = item ∧
      removeList item list = (0, removeItem i list)) ∨
    (item ∉ live list ∧ (removeList item list).2 = list) := by
  unfold removeList
  rcases probe_cases h hi with ⟨i, hp, hic, hia⟩ | ⟨i, hp, hs, -⟩ | ⟨hp, -, h1⟩
  · rw [hp]
    exact Or.inl ⟨(h.mem_live item).2 ⟨i, hic, hia⟩, i, hic, hia, rfl⟩
  · rw [hp]
    exact Or.inr ⟨hs.not_mem h, rfl⟩
  · rw [hp]
    refine Or.inr ⟨?_, rfl⟩
    rw [h.mem_live]
    rintro ⟨i, hic, -⟩
    omega

theorem removeList_of_not_mem (h : Ok P list) {item : Nat} (hi : P item)
    (hm : item ∉ live list) : (removeList item list).2 = list := by
  rcases removeList_cases h hi with ⟨hm', -⟩ | ⟨-, he⟩
  · exact absurd hm' hm
  · exact he

theorem ok_removeList (h : Ok P list) {item : Nat} (hi : P item) :
    Ok P (removeList item list).2 := by
  rcases removeList_cases h hi with ⟨-, i, hic, -, he⟩ | ⟨-, he⟩
  · rw [he]; exact ok_removeItem h hic
  · rw [he]; exact h

theorem removeList_arrSize (h : Ok P list) {item : Nat} (hi : P item) :
    (removeList item list).2.arrSize = list.arrSize := by
  rcases removeList_cases h hi with ⟨-, i, -, -, he⟩ | ⟨-, he⟩
  · rw [he, removeItem_arrSize]
  · rw [he]

theorem mem_live_removeList (h : Ok P list) {item : Nat} (hi : P item) (a : Nat) :
    a ∈ live (removeList item list).2 ↔ a ∈ live list ∧ a ≠ item := by
  rcases removeList_cases h hi with ⟨-, i, hic, hia, he⟩ | ⟨hm, he⟩
  · rw [he, ← hia]; exact mem_live_removeItem h hic a
  · rw [he]
    constructor
    · intro ha
      exact ⟨ha, fun hai => hm (hai ▸ ha)⟩
    · exact And.left

/-- Removing an element makes room for another one. -/
theorem removeList_currSize_lt (h : Ok P list) {item : Nat} (hi : P item)
    (hm : item ∈ live list) : (removeList item list).2.currSize + 1 = list.currSize := by
  rcases removeList_cases h hi with ⟨-, i, hic, -, he⟩ | ⟨hm', -⟩
  · rw [he, removeItem_currSize h]; omega
  · exact absurd hm hm'

/-- An element that is taken out of a full list and put back is on it again, and no other item gets
onto it. -/
theorem mem_live_reinsert_of_full (h : Ok P list) {item : Nat} (hi : P item)
    (hfull : list.arrSize ≤ list.currSize) :
    item ∈ live (insertList item (removeList item list).2).2 ↔ item ∈ live list := by
  by_cases hin : item ∈ live list
  · have hcur := removeList_currSize_lt h hi hin
    have harr := removeList_arrSize h hi
    have hle := h.le
    have hpos := (ok_removeList h hi).pos
    have hroom : (removeList item list).2.currSize < (removeList item list).2.arrSize := by omega
    exact iff_of_true
      ((mem_live_insertList (ok_removeList h hi) hi (Or.inl hroom) _).2 (Or.inl rfl)) hin
  · rw [removeList_of_not_mem h hi hin, insertList_of_full h hi hfull]

theorem removeList_currSize_le (h : Ok P list) {item : Nat} (hi : P item) :
    (removeList item list).2.currSize ≤ list.currSize := by
  rcases removeList_cases h hi with ⟨-, i, -, -, he⟩ | ⟨-, he⟩
  · rw [he, removeItem_currSize h]; omega
  · rw [he]

end SortedArrayList

end NowOS

import NowOS.Klib.SortedArrayList
import NowOS.Lib.Runs

set_option autoImplicit false

/-! # The sorted array list as a bounded set

`BoundedSet` is what the list is for: a set that holds one element less than the array has cells.
The functions of the source simulate its operations on every run, as long as the cells that the
array holds at first are none of the items. `insertListAccesses` and `removeListAccesses` are the
cells of the array that the functions read and write, in the order in which they do it. -/

namespace NowOS

/-! ## The abstract set -/

namespace BoundedSet

/-- Insertion into a set for which there are `cells` cells. -/
def insert (cells item : Nat) (S : Finset Nat) : Int × Finset Nat :=
  if item ∈ S then (1, S)
  else if S.card + 1 = cells then (-1, S)
  else (0, Insert.insert item S)

def remove (item : Nat) (S : Finset Nat) : Int × Finset Nat :=
  if item ∈ S then (0, S.erase item) else (1, S)

end BoundedSet

namespace SortedArrayList

/-! ## Array accesses -/

/-- The cells that `shiftUp` reads and writes. -/
def shiftUpAccesses (index : Nat) : Nat → List Nat
  | 0 => []
  | i + 1 => if index < i + 1 then i :: (i + 1) :: shiftUpAccesses index i else []

def insertItemAccesses (index : Nat) (list : SortedArrayList) : List Nat :=
  if list.currSize = list.arrSize then []
  else shiftUpAccesses index (sub32 list.currSize 1) ++ [index]

/-- The cells that `shiftDown` reads and writes. -/
def shiftDownAccesses : Nat → Nat → List Nat
  | 0, _ => []
  | n + 1, i => (i + 1) :: i :: shiftDownAccesses n (i + 1)

def removeItemAccesses (index : Nat) (list : SortedArrayList) : List Nat :=
  shiftDownAccesses (sub32 list.currSize 1 - index) index

/-- The cells that the bisection reads. -/
def probeAccesses (item : Nat) (list : SortedArrayList) : Nat → Nat → Nat → List Nat
  | 0, _, _ => []
  | fuel + 1, l, r =>
      let currIndex := add32 l (sub32 r l / 2)
      if currIndex < list.arrSize then
        currIndex ::
          if item = list.arr currIndex then []
          else if l = r then []
          else if item < list.arr currIndex then probeAccesses item list fuel l currIndex
          else probeAccesses item list fuel (add32 currIndex 1) r
      else []

def insertListAccesses (item : Nat) (list : SortedArrayList) : List Nat :=
  probeAccesses item list probeFuel 0 (sub32 list.currSize 1) ++
    match probe item list probeFuel 0 (sub32 list.currSize 1) with
    | .stop currIndex => insertItemAccesses currIndex list
    | _ => []

def removeListAccesses (item : Nat) (list : SortedArrayList) : List Nat :=
  probeAccesses item list probeFuel 0 (sub32 list.currSize 1) ++
    match probe item list probeFuel 0 (sub32 list.currSize 1) with
    | .found currIndex => removeItemAccesses currIndex list
    | _ => []

theorem lt_of_mem_shiftUpAccesses {index n k : Nat} (h : k ∈ shiftUpAccesses index n) : k ≤ n := by
  induction n with
  | zero => cases h
  | succ n ih =>
      unfold shiftUpAccesses at h
      split at h
      next =>
        rcases List.mem_cons.mp h with rfl | h
        · exact Nat.le_succ _
        · rcases List.mem_cons.mp h with rfl | h
          · exact Nat.le_refl _
          · exact Nat.le_succ_of_le (ih h)
      next => cases h

theorem lt_of_mem_shiftDownAccesses {n i k : Nat} (h : k ∈ shiftDownAccesses n i) : k ≤ i + n := by
  induction n generalizing i with
  | zero => cases h
  | succ n ih =>
      unfold shiftDownAccesses at h
      rcases List.mem_cons.mp h with rfl | h
      · omega
      · rcases List.mem_cons.mp h with rfl | h
        · omega
        · have := ih h
          omega

/-- The loop of the bisection ends at the end of the array. -/
theorem lt_of_mem_probeAccesses {item : Nat} {list : SortedArrayList} {fuel l r k : Nat}
    (h : k ∈ probeAccesses item list fuel l r) : k < list.arrSize := by
  induction fuel generalizing l r with
  | zero => cases h
  | succ fuel ih =>
      simp only [probeAccesses] at h
      split at h
      next hlt =>
        rcases List.mem_cons.mp h with rfl | h
        · exact hlt
        · split at h
          next => cases h
          next =>
            split at h
            next => cases h
            next =>
              split at h
              next => exact ih h
              next => exact ih h
      next => cases h

variable {P : Nat → Prop} {list : SortedArrayList}

theorem insertListAccesses_lt (h : Ok P list) {item k : Nat} (hi : P item)
    (hk : k ∈ insertListAccesses item list) : k < list.arrSize := by
  have hp := h.pos
  rcases List.mem_append.mp hk with hk | hk
  · exact lt_of_mem_probeAccesses hk
  · rcases probe_cases h hi with ⟨i, hp, -, -⟩ | ⟨i, hprobe, hs, hle⟩ | ⟨hp, -, -⟩
    · rw [hp] at hk
      cases hk
    · rw [hprobe] at hk
      simp only [insertItemAccesses] at hk
      split at hk
      next => cases hk
      next =>
        rcases List.mem_append.mp hk with hk | hk
        · have := lt_of_mem_shiftUpAccesses hk
          rw [h.sub_one] at this
          omega
        · rw [List.mem_singleton] at hk
          have := hs.1
          omega
    · rw [hp] at hk
      cases hk

theorem removeListAccesses_lt (h : Ok P list) {item k : Nat} (hi : P item)
    (hk : k ∈ removeListAccesses item list) : k < list.arrSize := by
  rcases List.mem_append.mp hk with hk | hk
  · exact lt_of_mem_probeAccesses hk
  · rcases probe_cases h hi with ⟨i, hprobe, hic, -⟩ | ⟨i, hp, -, -⟩ | ⟨hp, -, -⟩
    · rw [hprobe] at hk
      have hbound := lt_of_mem_shiftDownAccesses hk
      rw [h.sub_one] at hbound
      rcases h.le with hle | hle
      · omega
      · omega
    · rw [hp] at hk
      cases hk
    · rw [hp] at hk
      cases hk

/-! ## The calls -/

/-- The calls of a run. -/
inductive Call
  | insertList (item : Nat)
  | removeList (item : Nat)
  deriving DecidableEq, Repr

namespace Call

def item : Call → Nat
  | .insertList item => item
  | .removeList item => item

def exec : Call → SortedArrayList → Int × SortedArrayList
  | .insertList item => SortedArrayList.insertList item
  | .removeList item => SortedArrayList.removeList item

/-- The cells of the array that the call reads and writes. -/
def accesses : Call → SortedArrayList → List Nat
  | .insertList item => insertListAccesses item
  | .removeList item => removeListAccesses item

/-- What the call does to the set. -/
def spec (cells : Nat) : Call → Finset Nat → Int × Finset Nat
  | .insertList item => BoundedSet.insert cells item
  | .removeList item => BoundedSet.remove item

end Call

/-! ## Simulation -/

/-- The elements of the list are the set, in increasing order. -/
structure Represents (list : SortedArrayList) (S : Finset Nat) : Prop where
  sorted : (live list).Pairwise (· < ·)
  mem : ∀ a, a ∈ live list ↔ a ∈ S
  size : list.currSize = S.card + 1

theorem Ok.represents (h : Ok P list) {S : Finset Nat} (hmem : ∀ a, a ∈ live list ↔ a ∈ S) :
    Represents list S := by
  have hnodup : (live list).Nodup := h.sorted.imp Nat.ne_of_lt
  have hset : S = (live list).toFinset := by
    ext a
    rw [List.mem_toFinset, hmem]
  have hlen : (live list).length = list.currSize - 1 := by
    rw [live, List.length_map, List.length_range, h.sub_one]
  have hp := h.pos
  refine ⟨h.sorted, hmem, ?_⟩
  rw [hset, List.toFinset_card_of_nodup hnodup, hlen]
  omega

/-- `insert_list` simulates the insertion into the set. -/
theorem represents_insertList (h : Ok P list) (h1 : 1 ≤ list.arrSize) {S : Finset Nat}
    (hr : Represents list S) {item : Nat} (hi : P item) :
    (insertList item list).1 = (BoundedSet.insert list.arrSize item S).1 ∧
      Represents (insertList item list).2 (BoundedSet.insert list.arrSize item S).2 := by
  have hsize := hr.size
  unfold BoundedSet.insert
  rcases insertList_cases h hi with ⟨hin, he⟩ | ⟨hout, hfull, he⟩ | ⟨hout, hroom, i, hs, he⟩
  · rw [he, if_pos ((hr.mem item).mp hin)]
    exact ⟨rfl, hr⟩
  · have hcard : S.card + 1 = list.arrSize := by
      rcases h.le with hle | hle
      · omega
      · omega
    rw [he, if_neg (fun hin => hout ((hr.mem item).mpr hin)), if_pos hcard]
    exact ⟨rfl, hr⟩
  · have hcard : S.card + 1 ≠ list.arrSize := by omega
    rw [he, if_neg (fun hin => hout ((hr.mem item).mpr hin)), if_neg hcard]
    refine ⟨rfl, (ok_insertItem h hroom hs).represents ?_⟩
    intro a
    rw [mem_live_insertItem h hroom hs, Finset.mem_insert, hr.mem]

/-- `remove_list` simulates the removal from the set. -/
theorem represents_removeList (h : Ok P list) (h1 : 1 ≤ list.arrSize) {S : Finset Nat}
    (hr : Represents list S) {item : Nat} (hi : P item) :
    (removeList item list).1 = (BoundedSet.remove item S).1 ∧
      Represents (removeList item list).2 (BoundedSet.remove item S).2 := by
  unfold BoundedSet.remove
  rcases removeList_cases h hi with ⟨hin, i, hic, hia, he⟩ | ⟨hout, he⟩
  · rw [he, if_pos ((hr.mem item).mp hin)]
    refine ⟨rfl, (ok_removeItem h hic).represents ?_⟩
    intro a
    rw [mem_live_removeItem h hic, Finset.mem_erase, hr.mem, hia, and_comm]
  · rw [if_neg (fun hin => hout ((hr.mem item).mpr hin)), he]
    refine ⟨?_, hr⟩
    unfold removeList
    rcases probe_cases h hi with ⟨i, -, hic, hia⟩ | ⟨i, hp, -, -⟩ | ⟨-, hz, -⟩
    · exact absurd ((h.mem_live item).mpr ⟨i, hic, hia⟩) hout
    · rw [hp]
    · omega

/-! ## Runs -/

/-- The list, and the set that the same calls lead to. -/
structure Pair where
  list : SortedArrayList
  set : Finset Nat

namespace Pair

/-- A call with one of the items of `P`. -/
def Step (P : Nat → Prop) (c : Call) (s s' : Pair) : Prop :=
  P c.item ∧ s'.list = (c.exec s.list).2 ∧ s'.set = (c.spec s.list.arrSize s.set).2

/-- After `init_sorted_list`, with an array that holds none of the items. -/
def Init (P : Nat → Prop) (arrSize : Nat) (s : Pair) : Prop :=
  ∃ arrPtr, (∀ i, i < arrSize → ¬ P (arrPtr i)) ∧ s = ⟨initSortedList arrPtr arrSize, ∅⟩

/-- A call returns what the set returns, changes nothing if it returns `-1`, and stays in the
array. -/
structure Answers (c : Call) (s : Pair) : Prop where
  result : (c.exec s.list).1 = (c.spec s.list.arrSize s.set).1
  unchanged : (c.exec s.list).1 = -1 → (c.exec s.list).2 = s.list
  inside : ∀ k ∈ c.accesses s.list, k < s.list.arrSize

structure Inv (P : Nat → Prop) (arrSize : Nat) (s : Pair) : Prop where
  ok : Ok P s.list
  size : s.list.arrSize = arrSize
  represents : Represents s.list s.set

variable {arrSize : Nat} {s : Pair}

theorem Inv.simulates (h : Inv P arrSize s) (h1 : 1 ≤ arrSize) {c : Call} (hc : P c.item) :
    (c.exec s.list).1 = (c.spec s.list.arrSize s.set).1 ∧
      Represents (c.exec s.list).2 (c.spec s.list.arrSize s.set).2 := by
  have hsize : 1 ≤ s.list.arrSize := by rw [h.size]; exact h1
  cases c with
  | insertList item => exact represents_insertList h.ok hsize h.represents hc
  | removeList item => exact represents_removeList h.ok hsize h.represents hc

theorem Inv.step (h : Inv P arrSize s) (h1 : 1 ≤ arrSize) {c : Call} {s' : Pair}
    (hs : Step P c s s') : Inv P arrSize s' := by
  obtain ⟨hc, hlist, hset⟩ := hs
  refine ⟨?_, ?_, ?_⟩
  · rw [hlist]
    cases c with
    | insertList item => exact ok_insertList h.ok hc
    | removeList item => exact ok_removeList h.ok hc
  · rw [hlist, ← h.size]
    cases c with
    | insertList item => exact insertList_arrSize item s.list
    | removeList item => exact removeList_arrSize h.ok hc
  · rw [hlist, hset]
    exact (h.simulates h1 hc).2

theorem Inv.answers (h : Inv P arrSize s) (h1 : 1 ≤ arrSize) {c : Call} (hc : P c.item) :
    Answers c s := by
  refine ⟨(h.simulates h1 hc).1, ?_, ?_⟩
  · cases c with
    | insertList item =>
        intro hres
        simp only [Call.exec] at hres ⊢
        rcases insertList_cases h.ok hc with ⟨-, he⟩ | ⟨-, -, he⟩ | ⟨-, -, i, -, he⟩
        · rw [Call.item] at he
          rw [he]
        · rw [Call.item] at he
          rw [he]
        · rw [Call.item] at he
          rw [he] at hres
          cases hres
    | removeList item =>
        intro hres
        simp only [Call.exec] at hres ⊢
        rcases removeList_cases h.ok hc with ⟨-, i, -, -, he⟩ | ⟨-, he⟩
        · rw [Call.item] at he
          rw [he] at hres
          cases hres
        · exact he
  · intro k hk
    cases c with
    | insertList item => exact insertListAccesses_lt h.ok hc hk
    | removeList item => exact removeListAccesses_lt h.ok hc hk

/-- **The sorted array list is a bounded ordered set.** In every run whose items are not in the
array at first, the list holds the elements of the set that the same insertions and removals lead
to, in increasing order. Every further call returns what the set returns, `insert_list` changes
nothing if it returns `-1`, and no call leaves the array. -/
theorem bounded_ordered_set (h1 : 1 ≤ arrSize) (hw : arrSize < W32)
    (hr : Reach (Init P arrSize) (Step P) s) :
    Represents s.list s.set ∧ s.list.arrSize = arrSize ∧ ∀ c : Call, P c.item → Answers c s := by
  have h : Inv P arrSize s := by
    apply hr.invariant (I := Inv P arrSize)
    · rintro s ⟨arrPtr, hnew, rfl⟩
      have hok := ok_initSortedList hw hnew
      refine ⟨hok, rfl, hok.represents ?_⟩
      simp
    · intro c s s' h hs
      exact h.step h1 hs
  exact ⟨h.represents, h.size, fun c hc => h.answers h1 hc⟩

/-- The list and the set after calls, one after the other. -/
def after : List Call → Pair → Pair
  | [], s => s
  | c :: cs, s => after cs ⟨(c.exec s.list).2, (c.spec s.list.arrSize s.set).2⟩

theorem reach_after {init : Pair → Prop} (cs : List Call) (hcs : ∀ c ∈ cs, P c.item)
    (hr : Reach init (Step P) s) : Reach init (Step P) (after cs s) := by
  induction cs generalizing s with
  | nil => exact hr
  | cons c cs ih =>
      obtain ⟨hc, hrest⟩ := List.forall_mem_cons.mp hcs
      exact ih hrest (hr.next c ⟨hc, rfl, rfl⟩)

/-- Two elements fill an array of three cells. -/
theorem bounded_ordered_set_three :
    live (after [.insertList 5, .insertList 3] ⟨initSortedList (fun _ => 0) 3, ∅⟩).list = [3, 5] ∧
      ((Call.insertList 7).exec
        (after [.insertList 5, .insertList 3] ⟨initSortedList (fun _ => 0) 3, ∅⟩).list).1 = -1 ∧
      Answers (.insertList 7)
        (after [.insertList 5, .insertList 3] ⟨initSortedList (fun _ => 0) 3, ∅⟩) := by
  refine ⟨by decide +kernel, by decide +kernel, ?_⟩
  have hreach : Reach (Init (fun x => x ≠ 0) 3) (Step fun x => x ≠ 0)
      (after [.insertList 5, .insertList 3] ⟨initSortedList (fun _ => 0) 3, ∅⟩) := by
    apply reach_after _ (by decide)
    exact .start ⟨fun _ => 0, fun _ _ hne => hne rfl, rfl⟩
  exact (bounded_ordered_set (by decide) (by decide) hreach).2.2 _ (by decide)

end Pair

end SortedArrayList

end NowOS

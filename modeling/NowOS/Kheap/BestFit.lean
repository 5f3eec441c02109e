import NowOS.Kheap.Basic
import Mathlib.Data.List.MinMax

set_option autoImplicit false

/-! # Best fit (`kernel/kheap.c`)

`heap_find_free_node` goes once through the free list and keeps the best node so far, `NULL` until a
node fits. It takes a new node only if that is smaller, so what it keeps is the first of the
smallest nodes that fit (`bestFit`): the one with the lowest address, as the list is sorted. -/

namespace NowOS

namespace KHeap

/-- Listed nodes: none is `NULL`, and `check_header` returns for each. -/
def Nodes (h : KHeap) (nodes : List Nat) : Prop := ∀ a ∈ nodes, a ≠ 0 ∧ h.checkHeader a = true

/-- **The best fit**: the first of the smallest nodes that are large enough. -/
def bestFit (h : KHeap) (allocSize : Nat) (nodes : List Nat) : Option Nat :=
  (nodes.filter (allocSize ≤ h.size ·)).argmin h.size

section

variable {h : KHeap} {n : Nat} {nodes : List Nat}

/-! ## The loop -/

theorem bestFit_concat (h : KHeap) (n : Nat) (nodes : List Nat) (a : Nat) :
    h.bestFit n (nodes ++ [a]) =
      if n ≤ h.size a then
        match h.bestFit n nodes with
        | none => some a
        | some best => if h.size a < h.size best then some a else some best
      else h.bestFit n nodes := by
  unfold bestFit
  rw [List.filter_append]
  by_cases hfit : n ≤ h.size a
  · rw [if_pos hfit, List.filter_cons_of_pos (by simpa using hfit), List.filter_nil,
      List.argmin_concat]
    cases List.argmin h.size (nodes.filter (n ≤ h.size ·)) <;> rfl
  · rw [if_neg hfit, List.filter_cons_of_neg (by simpa using hfit), List.filter_nil,
      List.append_nil]

theorem mem_of_bestFit {best : Nat} (hbest : h.bestFit n nodes = some best) :
    best ∈ nodes ∧ n ≤ h.size best := by
  have hmem := List.mem_filter.1 (List.argmin_mem hbest)
  exact ⟨hmem.1, of_decide_eq_true hmem.2⟩

/-- **A step** of the search, with `NULL` for "no node yet". -/
theorem findStep_eq {a : Nat} (hnodes : h.Nodes nodes) (hcheck : h.checkHeader a = true) :
    h.findStep n ((h.bestFit n nodes).getD 0) a = .ok ((h.bestFit n (nodes ++ [a])).getD 0) := by
  rw [bestFit_concat, findStep, if_pos hcheck]
  cases hbest : h.bestFit n nodes with
  | none =>
      by_cases hfit : n ≤ h.size a
      · rw [if_pos (Or.inl ⟨rfl, hfit⟩), if_pos hfit]
        rfl
      · rw [if_neg (by omega), if_neg hfit]
  | some best =>
      have hne : best ≠ 0 := (hnodes best (mem_of_bestFit hbest).1).1
      dsimp only [Option.getD_some]
      by_cases hfit : n ≤ h.size a
      · rw [if_pos hfit]
        by_cases hless : h.size a < h.size best
        · rw [if_pos (Or.inr ⟨hne, hfit, hless⟩), if_pos hless]
          rfl
        · rw [if_neg (by omega), if_neg hless]
          rfl
      · rw [if_neg (by omega), if_neg hfit]
        rfl

/-- **A run** of the search. -/
theorem foldFind_eq (hnodes : h.Nodes nodes) :
    nodes.foldlM (h.findStep n) 0 = .ok ((h.bestFit n nodes).getD 0) := by
  -- the node that is looked at last comes off the end
  induction nodes using List.reverseRecOn with
  | nil => rfl
  | append_singleton nodes a ih =>
      have hinit : h.Nodes nodes := fun c hc => hnodes c (List.mem_append_left _ hc)
      have hlast := hnodes a (List.mem_append_right _ (List.mem_singleton.2 rfl))
      calc (nodes ++ [a]).foldlM (h.findStep n) 0
          = nodes.foldlM (h.findStep n) 0 >>= fun best => h.findStep n best a := by
            simp only [List.foldlM_append, List.foldlM_cons, List.foldlM_nil, bind_pure]
        _ = h.findStep n ((h.bestFit n nodes).getD 0) a := by
            rw [ih hinit]
            rfl
        _ = .ok ((h.bestFit n (nodes ++ [a])).getD 0) := findStep_eq hinit hlast.2

/-! ## What the best fit is -/

theorem bestFit_eq_none_iff : h.bestFit n nodes = none ↔ ∀ a ∈ nodes, h.size a < n := by
  simp only [bestFit, List.argmin_eq_none, List.filter_eq_nil_iff, decide_eq_true_eq, Nat.not_le]

/-- In a sorted list what comes first is lower. -/
theorem le_of_idxOf_le {xs : List Nat} (hsorted : xs.Pairwise (· ≤ ·)) {a b : Nat} (ha : a ∈ xs)
    (hb : b ∈ xs) (hle : xs.idxOf a ≤ xs.idxOf b) : a ≤ b := by
  have hia := List.idxOf_lt_length_of_mem ha
  have hib := List.idxOf_lt_length_of_mem hb
  have hmono := List.Pairwise.rel_get_of_le hsorted (a := ⟨_, hia⟩) (b := ⟨_, hib⟩) hle
  rwa [List.idxOf_get, List.idxOf_get] at hmono

/-- No node that fits is smaller, and of those as small as the best fit none has a lower address. -/
theorem le_of_bestFit {best a : Nat} (hsorted : nodes.Pairwise (· ≤ ·))
    (hbest : h.bestFit n nodes = some best) (ha : a ∈ nodes) (hfit : n ≤ h.size a) :
    h.size best ≤ h.size a ∧ (h.size a = h.size best → best ≤ a) := by
  have hmem : a ∈ nodes.filter (n ≤ h.size ·) := List.mem_filter.2 ⟨ha, decide_eq_true hfit⟩
  obtain ⟨hin, hleast, hfirst⟩ := List.argmin_eq_some_iff.1 hbest
  exact ⟨hleast a hmem, fun hsame =>
    le_of_idxOf_le (hsorted.filter _) hin hmem (hfirst a hmem (Nat.le_of_eq hsame))⟩

/-! ## `heap_find_free_node` -/

/-- The search does not panic and finds the best fit. -/
theorem heapFindFreeNode_eq (hnodes : h.Nodes h.freeNodeList.live) (n : Nat) :
    h.heapFindFreeNode n = .ok ((h.bestFit n h.freeNodeList.live).getD 0) :=
  foldFind_eq hnodes

/-- `NULL` is not a node, so it says that no node fits. -/
theorem getD_bestFit_eq_zero_iff (hnodes : h.Nodes nodes) :
    (h.bestFit n nodes).getD 0 = 0 ↔ ∀ a ∈ nodes, h.size a < n := by
  rw [← bestFit_eq_none_iff]
  cases hbest : h.bestFit n nodes with
  | none => exact iff_of_true rfl rfl
  | some best => exact iff_of_false (hnodes best (mem_of_bestFit hbest).1).1 (by simp)

theorem bestFit_of_getD_ne_zero (hne : (h.bestFit n nodes).getD 0 ≠ 0) :
    h.bestFit n nodes = some ((h.bestFit n nodes).getD 0) := by
  cases hbest : h.bestFit n nodes with
  | none =>
      rw [hbest] at hne
      exact absurd rfl hne
  | some best => rfl

/-- **Best fit.** The search finds `NULL` exactly if every listed node is too small, and otherwise a
node that is large enough, such that no other one that is large enough is smaller, or as small with
a lower address. -/
theorem heapFindFreeNode_bestFit (hnodes : h.Nodes h.freeNodeList.live)
    (hsorted : h.freeNodeList.live.Pairwise (· ≤ ·)) (allocSize : Nat) :
    ∃ node, h.heapFindFreeNode allocSize = .ok node ∧
      (node = 0 ↔ ∀ a ∈ h.freeNodeList.live, h.size a < allocSize) ∧
      (node ≠ 0 → node ∈ h.freeNodeList.live ∧ allocSize ≤ h.size node ∧
        ∀ a ∈ h.freeNodeList.live, allocSize ≤ h.size a →
          h.size node ≤ h.size a ∧ (h.size a = h.size node → node ≤ a)) := by
  refine ⟨_, heapFindFreeNode_eq hnodes allocSize, getD_bestFit_eq_zero_iff hnodes, fun hne => ?_⟩
  have hbest := bestFit_of_getD_ne_zero hne
  obtain ⟨hmem, hfit⟩ := mem_of_bestFit hbest
  exact ⟨hmem, hfit, fun a ha hfits => le_of_bestFit hsorted hbest ha hfits⟩

/-- Three free nodes of 64, 32 and 32 bytes. -/
def threeNodes : KHeap where
  mem := putHeader (putHeader (putHeader (fun _ => 0)
    0xC0128000 false 0 0 64) 0xC0128100 false 0 0 32) 0xC0128200 false 0 0 32
  freeNodeList := ⟨fun i => 0xC0128000 + 256 * i, 8, 4⟩
  topHeapPtr := 0xC0129000
  heapListEndPtr := 0xC0128200

/-- The first of the two smaller nodes is taken. -/
theorem heapFindFreeNode_tie : threeNodes.heapFindFreeNode 20 = .ok 0xC0128100 ∧
    ∃ node, threeNodes.heapFindFreeNode 20 = .ok node ∧
      (node = 0 ↔ ∀ a ∈ threeNodes.freeNodeList.live, threeNodes.size a < 20) ∧
      (node ≠ 0 → node ∈ threeNodes.freeNodeList.live ∧ 20 ≤ threeNodes.size node ∧
        ∀ a ∈ threeNodes.freeNodeList.live, 20 ≤ threeNodes.size a →
          threeNodes.size node ≤ threeNodes.size a ∧
            (threeNodes.size a = threeNodes.size node → node ≤ a)) := by
  have hnodes : threeNodes.Nodes threeNodes.freeNodeList.live := by
    unfold Nodes
    decide +kernel
  refine ⟨?_, heapFindFreeNode_bestFit hnodes (by decide +kernel) 20⟩
  rw [heapFindFreeNode_eq hnodes]
  decide +kernel

end

end KHeap

end NowOS

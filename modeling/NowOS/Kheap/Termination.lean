import NowOS.Kheap.Run

set_option autoImplicit false

/-! # Whether `kmalloc` returns

The only loop of `kmalloc` whose end is in question is the one that rounds the size of an expansion
up to a multiple of 4096: `expand_count` is a 32-bit word, and no multiple of 4096 is above a size
on the last page of the address space. -/

namespace NowOS

namespace KHeap

open SortedArrayList Client

section

variable {L : Layout} {h : KHeap}

/-! ## The loop -/

/-- The loop stops at the first multiple of 4096 above the size. -/
theorem expandLoop_eq {size : Nat} (hs : size < 0xFFFFF000) :
    ∀ fuel k, k ≤ size / 4096 + 1 → size / 4096 + 1 < k + fuel →
      expandLoop size fuel (k * 4096) = some ((size / 4096 + 1) * 4096) := by
  intro fuel
  induction fuel with
  | zero =>
      intro k hk hfuel
      omega
  | succ fuel ih =>
      intro k hk hfuel
      unfold expandLoop
      by_cases hlast : k = size / 4096 + 1
      · rw [hlast, if_neg (by omega)]
      · have hstep : add32 (k * 4096) HEAP_EXPAND_SIZE = (k + 1) * 4096 := by
          show (k * 4096 + 4096) % 4294967296 = _
          omega
        rw [if_pos (by omega), hstep]
        exact ih (k + 1) (by omega) (by omega)

theorem expandCountOf_eq {size : Nat} (hs : size < 0xFFFFF000) :
    expandCountOf size = some ((size / 4096 + 1) * 4096) := by
  have heq := expandLoop_eq hs (1048576 + 1) 0 (by omega) (by omega)
  rw [Nat.zero_mul] at heq
  exact heq

/-- No multiple of 4096 is above the last page: the loop does not stop. -/
theorem expandLoop_spins {size : Nat} (hs : 0xFFFFF000 ≤ size) :
    ∀ fuel c, c % 4096 = 0 → c < 4294967296 → expandLoop size fuel c = none := by
  intro fuel
  induction fuel with
  | zero =>
      intro c _ _
      rfl
  | succ fuel ih =>
      intro c hc hlt
      unfold expandLoop
      rw [if_pos (by omega)]
      refine ih _ ?_ ?_
      · show (c + 4096) % 4294967296 % 4096 = 0
        omega
      · show (c + 4096) % 4294967296 < 4294967296
        omega

/-! ## `kmalloc` -/

theorem kmalloc_of_spin {n : Nat} (hfind : h.heapFindFreeNode (alignUp n 4) = .ok 0)
    (hcount : expandCountOf (alignUp n 4) = none) : h.kmalloc L n = .error .spin := by
  rw [kmalloc_eq_bind, hfind, bind_ok, findOrExpand_zero, hcount, Option.elim_none, bind_error]

/-- The sizes whose aligned value is on the last page of the address space. -/
def OnLastPage (n : Nat) : Prop := 0xFFFFEFFC < n ∧ n ≤ 0xFFFFFFFC

instance (n : Nat) : Decidable (OnLastPage n) := inferInstanceAs (Decidable (_ ∧ _))

theorem onLastPage_iff {n : Nat} (hn : n < W32) : OnLastPage n ↔ 0xFFFFF000 ≤ alignUp n 4 := by
  unfold OnLastPage
  by_cases hle : n ≤ 0xFFFFFFFC
  · obtain ⟨hge, hlt, hal⟩ := alignUp_four hle
    omega
  · rw [alignUp_four_wrap (by omega) hn]
    omega

/-- The loop ends, after any number of iterations, exactly for the other sizes. -/
theorem expandLoop_ends_iff {n : Nat} (hn : n < W32) :
    (∃ iterations count, expandLoop (alignUp n 4) iterations 0 = some count) ↔
      ¬ OnLastPage n := by
  rw [onLastPage_iff hn, Nat.not_le]
  constructor
  · rintro ⟨iterations, count, hloop⟩
    by_contra hge
    rw [expandLoop_spins (by omega) iterations 0 (by decide) (by decide)] at hloop
    cases hloop
  · intro hlt
    have hcount := expandCountOf_eq hlt
    rw [expandCountOf] at hcount
    exact ⟨_, _, hcount⟩

theorem expandCountOf_eq_none_iff {n : Nat} (hn : n < W32) :
    expandCountOf (alignUp n 4) = none ↔ OnLastPage n := by
  constructor
  · intro hnone
    by_contra hpage
    rw [onLastPage_iff hn, Nat.not_le] at hpage
    rw [expandCountOf_eq hpage] at hnone
    cases hnone
  · intro hpage
    rw [expandCountOf]
    exact expandLoop_spins ((onLastPage_iff hn).1 hpage) _ 0 (by decide) (by decide)

theorem foldFind_ne_spin (n : Nat) (ls : List Nat) (best : Nat) :
    ls.foldlM (h.findStep n) best ≠ .error .spin := by
  induction ls generalizing best with
  | nil =>
      intro hspin
      cases hspin
  | cons a ls ih =>
      rw [List.foldlM_cons]
      unfold findStep
      split
      · split
        · exact ih _
        · exact ih _
      · intro hspin
        cases hspin

theorem heapMergeNodes_ne_spin (node : Nat) : h.heapMergeNodes node ≠ .error .spin := by
  unfold heapMergeNodes
  split
  · intro hspin
    cases hspin
  · intro hspin
    cases hspin

theorem expandHeap_ne_spin (count : Nat) : h.expandHeap L count ≠ .error .spin := by
  intro hspin
  unfold expandHeap at hspin
  simp only at hspin
  split at hspin
  · cases hspin
  · split at hspin
    · split at hspin
      · cases hspin
      next hmerge =>
        cases hspin
        exact heapMergeNodes_ne_spin _ hmerge
    · cases hspin

theorem heapSplitNode_ne_spin (node size : Nat) : h.heapSplitNode node size ≠ .error .spin := by
  intro hspin
  unfold heapSplitNode at hspin
  simp only at hspin
  split at hspin
  · split at hspin
    · cases hspin
    · cases hspin
  · cases hspin

/-- Nothing else in `kmalloc` spins. -/
theorem findOrExpand_spin {size node : Nat} (hs : h.findOrExpand L size node = .error .spin) :
    node = 0 ∧ expandCountOf size = none := by
  by_cases h0 : node = 0
  · subst h0
    refine ⟨rfl, ?_⟩
    rw [findOrExpand_zero] at hs
    cases hcount : expandCountOf size with
    | none => rfl
    | some count =>
        rw [hcount, Option.elim_some] at hs
        rcases bind_eq_error_iff.1 hs with hexp | ⟨h1, -, hs⟩
        · exact absurd hexp (expandHeap_ne_spin count)
        · rcases bind_eq_error_iff.1 hs with hfind | ⟨node, -, hs⟩
          · exact absurd hfind (foldFind_ne_spin _ _ _)
          · split_ifs at hs
            cases hs
  · rw [findOrExpand_of_ne h0] at hs
    cases hs

theorem kmalloc_spin {n : Nat} (hs : h.kmalloc L n = .error .spin) :
    h.heapFindFreeNode (alignUp n 4) = .ok 0 ∧ expandCountOf (alignUp n 4) = none := by
  rw [kmalloc_eq_bind] at hs
  rcases bind_eq_error_iff.1 hs with hfind | ⟨node, hfind, hs⟩
  · exact absurd hfind (foldFind_ne_spin _ _ _)
  · rcases bind_eq_error_iff.1 hs with hfoe | ⟨r, -, hs⟩
    · obtain ⟨rfl, hcount⟩ := findOrExpand_spin hfoe
      exact ⟨hfind, hcount⟩
    · rcases bind_eq_error_iff.1 hs with hsplit | ⟨h', -, hs⟩
      · exact absurd hsplit (heapSplitNode_ne_spin _ _)
      · cases hs

/-- **Termination.** The loop that grows `expand_count` ends exactly for the sizes whose aligned
value is not on the last page. In every state of the heap, `kmalloc` does not return for the sizes
on the last page that no free node is large enough for, and for no other size. -/
theorem kmalloc_terminates_iff (L : Layout) (h : KHeap) {n : Nat} (hn : n < W32) :
    ((∃ iterations count, expandLoop (alignUp n 4) iterations 0 = some count) ↔
      ¬ OnLastPage n) ∧
    (h.kmalloc L n = .error .spin ↔
      h.heapFindFreeNode (alignUp n 4) = .ok 0 ∧ OnLastPage n) := by
  refine ⟨expandLoop_ends_iff hn, ?_⟩
  rw [← expandCountOf_eq_none_iff hn]
  constructor
  · exact kmalloc_spin
  · rintro ⟨hfind, hcount⟩
    exact kmalloc_of_spin hfind hcount

/-- The largest size for which the loop ends. -/
theorem kmalloc_terminates_below :
    bootClient.heap.kmalloc bootLayout 0xFFFFEFFC ≠ .error .spin := by
  intro hspin
  have hterm := kmalloc_terminates_iff bootLayout bootClient.heap (n := 0xFFFFEFFC) (by decide)
  exact absurd (hterm.2.1 hspin).2 (by decide)

/-- **A request of `0xFFFFF000` bytes spins.** `expand_count` takes every multiple of 4096 again and
again, and none of them is larger. -/
theorem kmalloc_last_page_spins :
    (∀ iterations, expandLoop (alignUp 0xFFFFF000 4) iterations 0 = none) ∧
      bootClient.heap.kmalloc bootLayout 0xFFFFF000 = .error .spin := by
  have hal : alignUp 0xFFFFF000 4 = 0xFFFFF000 := alignUp_of_aligned (by decide)
  rw [hal]
  refine ⟨fun iterations => expandLoop_spins (Nat.le_refl _) _ 0 (by decide) (by decide), ?_⟩
  refine kmalloc_of_spin ?_ ((expandCountOf_eq_none_iff (by decide)).2 (by decide))
  rw [hal]
  decide +kernel

end

end KHeap

end NowOS

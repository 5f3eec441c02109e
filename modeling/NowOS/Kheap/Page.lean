import NowOS.Kheap.Run
import NowOS.Klib.ByteIndexList

set_option autoImplicit false

/-! # The page heap (`kernel/kheap.c`)

Pages are handed out from a region of 16 pages, the first of which holds the byte index list
`page_list` that says which of the others are in use. `init_byte_index_list` takes the size of its
table in bytes, and `init_page_heap` passes it the number of pages. -/

namespace NowOS

/-- `page_list` and `page_ptr`. -/
structure PageHeap where
  pageList : ByteIndexList
  pagePtr : Nat

namespace PageHeap

open ByteIndexList

/-! ## The functions of the source -/

/-- `init_page_heap`. The table lies in the zeroed section `.bss`. -/
def initPageHeap (L : Layout) : PageHeap :=
  let pageNum := sub32 (sub32 L.pageHeapTop L.pageHeapBottom / PAGE_SIZE) 1
  let pagePtr := alignUp (add32 L.pageHeapBottom PAGE_SIZE) PAGE_SIZE
  ⟨initByteIndexList (fun _ => 0#8) pageNum, pagePtr⟩

/-- `kmalloc_page`; `0` is `NULL`. -/
def kmallocPage (h : PageHeap) : Except String (Nat × PageHeap) :=
  match h.pageList.byteIndexGetFreeSlot with
  | .error e => .error e
  | .ok (index, pageList) =>
      let h := { h with pageList := pageList }
      if index = 0xFFFFFFFF then .ok (0, h)
      else .ok (add32 h.pagePtr (mul32 index PAGE_SIZE), h)

/-- `kfree_page`. -/
def kfreePage (ptr : Nat) (h : PageHeap) : Except String PageHeap :=
  if ¬ isAligned ptr PAGE_SIZE then .error "kfree_page ptr not aligned"
  else
    let index := sub32 ptr h.pagePtr / PAGE_SIZE
    .ok { h with pageList := h.pageList.byteIndexReleaseTbl index }

end PageHeap

/-! ## Runs -/

/-- The page heap and the pages that are in use. -/
structure PageClient where
  heap : PageHeap
  live : List Nat

namespace PageClient

open ByteIndexList PageHeap

/-- The calls of a run. -/
inductive Call
  | kmallocPage
  | kfreePage (ptr : Nat)
  deriving DecidableEq, Repr

/-- A call that does not panic; a page that is freed is in use. -/
def exec : Call → PageClient → Option PageClient
  | .kmallocPage, s =>
      match s.heap.kmallocPage with
      | .error _ => none
      | .ok (p, heap) => some ⟨heap, p :: s.live⟩
  | .kfreePage ptr, s =>
      if ptr ∈ s.live then
        match s.heap.kfreePage ptr with
        | .error _ => none
        | .ok heap => some ⟨heap, s.live.erase ptr⟩
      else none

def Step (c : Call) (s s' : PageClient) : Prop := exec c s = some s'

/-- The page heap after `init_page_heap`. -/
def start (L : Layout) : PageClient := ⟨initPageHeap L, []⟩

variable (L : Layout)

/-- The first page behind the table. -/
def firstPage : Nat := L.pageHeapBottom + 4096

/-- The page of slot `i`. -/
def pageAddr (i : Nat) : Nat := add32 (firstPage L) (mul32 i PAGE_SIZE)

/-- A page that is handed out is what it should be: aligned, not in use, and inside of the page
heap. -/
def Fresh (s : PageClient) (p : Nat) : Prop :=
  p % PAGE_SIZE = 0 ∧ p ∉ s.live ∧ s.heap.pagePtr ≤ p ∧ p + PAGE_SIZE ≤ L.pageHeapTop

/-! ## Slots and pages -/

theorem firstPage_spec : firstPage L % 4096 = 0 ∧ firstPage L + 61440 = L.pageHeapTop ∧
    L.pageHeapTop + 118784 ≤ W32 := by
  have hal := L.page_aligned
  have hfits := L.fits
  have htop : L.pageHeapTop = L.earlyHeapBottom + 32768 + 65536 := rfl
  have hfirst : firstPage L = L.earlyHeapBottom + 32768 + 4096 := rfl
  refine ⟨by omega, by omega, by omega⟩

theorem pageAddr_inj {i j : Nat} (hi : i < 120) (hj : j < 120) (h : pageAddr L i = pageAddr L j) :
    i = j := by
  obtain ⟨-, htop, hfits⟩ := firstPage_spec L
  simp only [pageAddr, add32, mul32, PAGE_SIZE, W32] at *
  omega

theorem pageAddr_aligned (i : Nat) : pageAddr L i % 4096 = 0 := by
  obtain ⟨hal, -, -⟩ := firstPage_spec L
  simp only [pageAddr, add32, mul32, PAGE_SIZE, W32]
  omega

/-- The slots 0 to 14 are the pages of the page heap. -/
theorem pageAddr_inside_iff {i : Nat} (hi : i < 120) :
    (firstPage L ≤ pageAddr L i ∧ pageAddr L i + 4096 ≤ L.pageHeapTop) ↔ i < 15 := by
  obtain ⟨-, htop, hfits⟩ := firstPage_spec L
  simp only [pageAddr, add32, mul32, PAGE_SIZE, W32] at *
  omega

theorem sub32_pageAddr {i : Nat} (hi : i < 120) :
    sub32 (pageAddr L i) (firstPage L) / PAGE_SIZE = i := by
  obtain ⟨-, htop, hfits⟩ := firstPage_spec L
  have hmul : mul32 i PAGE_SIZE = i * PAGE_SIZE :=
    mul32_of_lt (by unfold PAGE_SIZE W32; omega)
  rw [pageAddr, sub32_add32 (by omega) (mul32_lt _ _), hmul]
  exact Nat.mul_div_cancel i (by decide)

/-! ## The invariant -/

/-- The table has 15 bytes, hence 120 slots, and the pages in use are those of the slots in use. -/
structure Inv (s : PageClient) : Prop where
  list : ByteIndexList.Inv s.heap.pageList
  size : s.heap.pageList.size = 15
  ptr : s.heap.pagePtr = firstPage L
  live : ∀ p, p ∈ s.live ↔ ∃ i, i < 120 ∧ s.heap.pageList.bit i = true ∧ p = pageAddr L i
  nodup : s.live.Nodup

variable {L}

theorem Inv.mem_live {s : PageClient} (h : Inv L s) {i : Nat} (hi : i < 120) :
    pageAddr L i ∈ s.live ↔ s.heap.pageList.bit i = true := by
  rw [h.live]
  constructor
  · rintro ⟨j, hj, hbit, heq⟩
    rwa [pageAddr_inj L hi hj heq]
  · intro hbit
    exact ⟨i, hi, hbit, rfl⟩

theorem inv_start : Inv L (start L) := by
  obtain ⟨hal, htop, hfits⟩ := firstPage_spec L
  have hbottom : L.pageHeapTop = L.pageHeapBottom + 65536 := rfl
  have hsize : sub32 (sub32 L.pageHeapTop L.pageHeapBottom / PAGE_SIZE) 1 = 15 := by
    rw [hbottom, sub32_of_le (Nat.le_add_right L.pageHeapBottom 65536), Nat.add_sub_cancel_left]
    rfl
  have hptr : alignUp (add32 L.pageHeapBottom PAGE_SIZE) PAGE_SIZE = firstPage L := by
    have hadd : add32 L.pageHeapBottom PAGE_SIZE = firstPage L :=
      add32_of_lt (by simp only [firstPage, PAGE_SIZE] at *; omega)
    rw [hadd]
    exact alignUp_of_aligned hal
  have hheap : initPageHeap L = ⟨initByteIndexList (fun _ => 0#8) 15, firstPage L⟩ := by
    simp only [initPageHeap, hsize, hptr]
  unfold start
  rw [hheap]
  refine ⟨inv_init _ (by decide), rfl, rfl, ?_, List.nodup_nil⟩
  · intro p
    constructor
    · intro hp
      cases hp
    · rintro ⟨i, -, hbit, -⟩
      simp [initByteIndexList, ByteIndexList.bit] at hbit

/-- `kmalloc_page` hands out the page of the lowest free slot. -/
theorem Inv.kmallocPage {s : PageClient} (h : Inv L s) {p : Nat} {heap : PageHeap}
    (hs : s.heap.kmallocPage = .ok (p, heap)) :
    ∃ i, i < 120 ∧ p = pageAddr L i ∧
      heap = { s.heap with pageList := s.heap.pageList.allocated i } ∧
      s.heap.pageList.bit i = false ∧ ∀ j, j < i → s.heap.pageList.bit j = true := by
  have hsize := h.size
  rcases byteIndexGetFreeSlot_spec h.list (by omega) with ⟨i, hok, hi, hclear, hmin⟩ | ⟨e, he, -⟩
  · have hi120 : i < 120 := by omega
    simp only [PageHeap.kmallocPage, hok] at hs
    rw [if_neg (by omega)] at hs
    cases hs
    exact ⟨i, hi120, by rw [pageAddr, h.ptr], rfl, hclear, hmin⟩
  · simp only [PageHeap.kmallocPage, he] at hs
    cases hs

theorem Inv.step {c : Call} {s s' : PageClient} (h : Inv L s) (hs : Step c s s') : Inv L s' := by
  cases c with
  | kmallocPage =>
      simp only [Step, exec] at hs
      split at hs
      next => cases hs
      next p heap hok =>
        cases hs
        obtain ⟨i, hi, rfl, rfl, hclear, hmin⟩ := h.kmallocPage hok
        have hsize := h.size
        refine ⟨inv_allocated (by omega) hmin, h.size, h.ptr, ?_, ?_⟩
        · intro q
          simp only [List.mem_cons, h.live, bit_allocated, Bool.or_eq_true, decide_eq_true_eq]
          constructor
          · rintro (rfl | ⟨j, hj, hbit, rfl⟩)
            · exact ⟨i, hi, Or.inr rfl, rfl⟩
            · exact ⟨j, hj, Or.inl hbit, rfl⟩
          · rintro ⟨j, hj, hbit | rfl, rfl⟩
            · exact Or.inr ⟨j, hj, hbit, rfl⟩
            · exact Or.inl rfl
        · apply List.nodup_cons.mpr
          refine ⟨?_, h.nodup⟩
          rw [h.mem_live hi, hclear]
          decide
  | kfreePage ptr =>
      simp only [Step, exec] at hs
      split at hs
      next hlive =>
        split at hs
        next => cases hs
        next heap hok =>
          cases hs
          obtain ⟨i, hi, -, rfl⟩ := (h.live ptr).mp hlive
          unfold PageHeap.kfreePage at hok
          split at hok
          next => cases hok
          next =>
            cases hok
            have hindex : sub32 (pageAddr L i) s.heap.pagePtr / PAGE_SIZE = i := by
              rw [h.ptr, sub32_pageAddr L hi]
            rw [hindex]
            refine ⟨h.list.releaseTbl i, h.size, h.ptr, ?_, h.nodup.erase _⟩
            intro q
            simp only [h.nodup.mem_erase_iff, h.live, bit_byteIndexReleaseTbl, Bool.and_eq_true,
              Bool.not_eq_true', decide_eq_false_iff_not]
            constructor
            · rintro ⟨hne, j, hj, hbit, rfl⟩
              exact ⟨j, hj, ⟨hbit, fun hji => hne (by rw [hji])⟩, rfl⟩
            · rintro ⟨j, hj, ⟨hbit, hne⟩, rfl⟩
              exact ⟨fun heq => hne (pageAddr_inj L hj hi heq), j, hj, hbit, rfl⟩
      next => cases hs

theorem inv_of_reach {s : PageClient} (hr : Reach (· = start L) Step s) : Inv L s := by
  apply hr.invariant (I := Inv L)
  · rintro s rfl
    exact inv_start
  · intro c s s' h hs
    exact h.step hs

/-- **The page heap.** In every run, a page that `kmalloc_page` returns is aligned, not in use and
inside of the page heap exactly if one of the 15 pages of the page heap is not in use. -/
theorem kmallocPage_fresh {s : PageClient} (hr : Reach (· = start L) Step s) {p : Nat}
    {heap : PageHeap} (hs : s.heap.kmallocPage = .ok (p, heap)) :
    Fresh L s p ↔ ∃ i, i < 15 ∧ firstPage L + i * PAGE_SIZE ∉ s.live := by
  have h := inv_of_reach hr
  obtain ⟨i, hi, rfl, -, hclear, hmin⟩ := h.kmallocPage hs
  obtain ⟨-, htop, hfits⟩ := firstPage_spec L
  have haddr : ∀ j, j < 15 → firstPage L + j * PAGE_SIZE = pageAddr L j := by
    intro j hj
    simp only [pageAddr, add32, mul32, PAGE_SIZE, W32] at *
    omega
  have hnot : pageAddr L i ∉ s.live := by
    rw [h.mem_live hi, hclear]
    decide
  have hfresh : Fresh L s (pageAddr L i) ↔ i < 15 := by
    rw [← pageAddr_inside_iff L hi, Fresh, h.ptr]
    constructor
    · rintro ⟨-, -, hin⟩
      exact hin
    · intro hin
      exact ⟨pageAddr_aligned L i, hnot, hin⟩
  rw [hfresh]
  constructor
  · intro hlt
    refine ⟨i, hlt, ?_⟩
    rw [haddr i hlt]
    exact hnot
  · rintro ⟨j, hj, hfree⟩
    by_contra hge
    -- all slots below `i` are in use, and `j` is one of them
    rw [haddr j hj, h.mem_live (by omega)] at hfree
    exact hfree (hmin j (by omega))

theorem kmallocPage_fresh_third :
    ∃ s heap, runList exec [.kmallocPage, .kmallocPage, .kfreePage 0xC0119000]
        (start KHeap.Client.bootLayout) = some s ∧
      s.heap.kmallocPage = .ok (0xC0119000, heap) ∧
      Fresh KHeap.Client.bootLayout s 0xC0119000 := by
  have hrun : (runList exec [.kmallocPage, .kmallocPage, .kfreePage 0xC0119000]
      (start KHeap.Client.bootLayout)).any (fun s => decide (s.live = [0xC011A000]) &&
        (s.heap.kmallocPage.toOption.any (fun r => r.1 == 0xC0119000))) = true := by
    decide +kernel
  obtain ⟨s, hs, hlast⟩ := (Option.any_eq_true _ _).1 hrun
  rw [Bool.and_eq_true, decide_eq_true_eq] at hlast
  obtain ⟨hlive, hpage⟩ := hlast
  obtain ⟨heap, hheap⟩ := ok_of_any hpage
  refine ⟨s, heap, hs, hheap, (kmallocPage_fresh ?_ hheap).mpr ⟨0, by decide, ?_⟩⟩
  · exact reach_runList (fun _ _ _ h => h) (.start rfl) hs
  · rw [hlive]
    decide +kernel

/-- With the 15 pages of the page heap in use, the next page is the one at `heap_bottom`. -/
theorem kmallocPage_heapBottom :
    ∃ s heap, runList exec (List.replicate 15 .kmallocPage)
        (start KHeap.Client.bootLayout) = some s ∧
      Reach (· = start KHeap.Client.bootLayout) Step s ∧
      s.heap.kmallocPage = .ok (KHeap.Client.bootLayout.heapBottom, heap) ∧
      ¬ Fresh KHeap.Client.bootLayout s KHeap.Client.bootLayout.heapBottom := by
  have hrun : (runList exec (List.replicate 15 .kmallocPage)
      (start KHeap.Client.bootLayout)).any (fun s =>
        s.heap.kmallocPage.toOption.any
          (fun r => r.1 == KHeap.Client.bootLayout.heapBottom)) = true := by
    decide +kernel
  obtain ⟨s, hs, hpage⟩ := (Option.any_eq_true _ _).1 hrun
  obtain ⟨heap, hheap⟩ := ok_of_any hpage
  refine ⟨s, heap, hs, reach_runList (fun _ _ _ h => h) (.start rfl) hs, hheap, ?_⟩
  rintro ⟨-, -, -, htop⟩
  have hbottom : KHeap.Client.bootLayout.heapBottom = KHeap.Client.bootLayout.pageHeapTop := rfl
  rw [hbottom, PAGE_SIZE] at htop
  omega

end PageClient

end NowOS

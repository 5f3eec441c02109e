import NowOS.Mm.Paging
import NowOS.Mm.PhysMem

set_option autoImplicit false

/-! # Allocation of memory regions (`mem_alloc_region` in `kernel/mm.c`)

A region is mapped and marked page by page, under the lock of the table. Only the table entry of its
first page is looked at before. -/

namespace NowOS

open ByteIndexList

/-! ## The function of the source -/

def MEM_READWRITE : BitVec 8 := 1#8 <<< 0
def MEM_ALLACCESS : BitVec 8 := 1#8 <<< 1
def MEM_WRITETHROUGH : BitVec 8 := 1#8 <<< 2
def MEM_CACHEDISABLE : BitVec 8 := 1#8 <<< 3
def MEM_ALREADYEXISTS : BitVec 8 := 1#8 <<< 4
def MEM_IDENTITYREGION : BitVec 8 := 1#8 <<< 5

/-- `phys_mem_tbl` and the page tables. -/
structure MemState where
  tbl : ByteIndexList
  paging : Paging

/-- The arguments of `mem_alloc_region`. -/
structure Region where
  physAddr : BitVec 32
  size : BitVec 32
  flags : BitVec 8
  deriving DecidableEq, Repr

namespace Region

/-- `num_pages`. -/
def numPages (r : Region) : Nat := alignUp r.size.toNat PAGE_SIZE / PAGE_SIZE

def alreadyExists (r : Region) : Bool := r.flags &&& MEM_ALREADYEXISTS != 0#8

/-- `map_flags`. `MEM_ALLACCESS` is not passed on. -/
def mapFlags (r : Region) : BitVec 8 :=
  (if r.flags &&& MEM_READWRITE != 0#8 then PAGE_READWRITE.setWidth 8 else 0#8) |||
    (if r.flags &&& MEM_WRITETHROUGH != 0#8 then PAGE_WRITETHROUGH.setWidth 8 else 0#8) |||
    (if r.flags &&& MEM_CACHEDISABLE != 0#8 then PAGE_CACHEDISABLE.setWidth 8 else 0#8)

/-- `ret_addr`. -/
def virtAddr (r : Region) : BitVec 32 :=
  if r.flags &&& MEM_IDENTITYREGION != 0#8 then r.physAddr
  else r.physAddr + BitVec.ofNat 32 KERN_VIRTUAL_ADDR

end Region

/-- The loop of `mem_alloc_region`, with `n` pages left. -/
def memAllocPages (early : EarlyPages) (mapFlags : BitVec 8) :
    Nat → BitVec 32 → BitVec 32 → MemState → MemState
  | 0, _, _, s => s
  | n + 1, virtAddr, physAddr, s =>
      memAllocPages early mapFlags n (virtAddr + BitVec.ofNat 32 PAGE_SIZE)
        (physAddr + BitVec.ofNat 32 PAGE_SIZE)
        ⟨memSetTbl physAddr s.tbl, s.paging.mapKernPageFlags early virtAddr physAddr mapFlags⟩

/-- `mem_alloc_region`; `0` is `NULL`. -/
def memAllocRegion (early : EarlyPages) (r : Region) (s : MemState) : BitVec 32 × MemState :=
  if !r.alreadyExists && memCheckTbl r.physAddr s.tbl then (0#32, s)
  else (r.virtAddr, memAllocPages early r.mapFlags r.numPages r.virtAddr r.physAddr s)

/-! ## Marks -/

/-- The frame of an address is marked as used. -/
def MemState.Marked (s : MemState) (p : BitVec 32) : Prop := s.tbl.bit (p.toNat / 4096) = true

instance (s : MemState) (p : BitVec 32) : Decidable (s.Marked p) :=
  inferInstanceAs (Decidable (_ = _))

/-- The pages of a region. -/
def Region.pages (r : Region) : List (BitVec 32) :=
  (List.range r.numPages).map fun i => r.physAddr + BitVec.ofNat 32 (PAGE_SIZE * i)

theorem memCheckTbl_eq (p : BitVec 32) (s : MemState) :
    memCheckTbl p s.tbl = decide (s.Marked p) := by
  rw [memCheckTbl, byteIndexCheckTbl_eq, physAddrToPageIndex_eq]
  show _ = decide (s.tbl.bit (p.toNat / 4096) = true)
  cases s.tbl.bit (p.toNat / 4096) with
  | false => rfl
  | true => rfl

theorem bit_memSetTbl (p : BitVec 32) (tbl : ByteIndexList) (j : Nat) :
    (memSetTbl p tbl).bit j = (tbl.bit j || decide (j = p.toNat / 4096)) := by
  rw [memSetTbl, bit_byteIndexSetTbl, physAddrToPageIndex_eq]

theorem add_page_succ (p : BitVec 32) (k : Nat) :
    p + BitVec.ofNat 32 (PAGE_SIZE * (k + 1)) =
      p + BitVec.ofNat 32 PAGE_SIZE + BitVec.ofNat 32 (PAGE_SIZE * k) := by
  rw [BitVec.add_assoc, ← BitVec.ofNat_add, Nat.mul_succ, Nat.add_comm PAGE_SIZE]

/-- One of `n + 1` pages is the first page, or one of the `n` pages from the next one on. -/
theorem exists_page_succ (p : BitVec 32) (n : Nat) (Q : BitVec 32 → Prop) :
    (∃ k, k < n + 1 ∧ Q (p + BitVec.ofNat 32 (PAGE_SIZE * k))) ↔
      Q p ∨ ∃ k, k < n ∧ Q (p + BitVec.ofNat 32 PAGE_SIZE + BitVec.ofNat 32 (PAGE_SIZE * k)) := by
  have hfirst : p + BitVec.ofNat 32 (PAGE_SIZE * 0) = p := by simp
  constructor
  · rintro ⟨k, hk, hQ⟩
    cases k with
    | zero => exact Or.inl (hfirst ▸ hQ)
    | succ k => exact Or.inr ⟨k, by omega, add_page_succ p k ▸ hQ⟩
  · rintro (hQ | ⟨k, hk, hQ⟩)
    · exact ⟨0, by omega, hfirst.symm ▸ hQ⟩
    · exact ⟨k + 1, by omega, (add_page_succ p k).symm ▸ hQ⟩

/-- The loop marks the frames of its pages, and no others. -/
theorem bit_memAllocPages (early : EarlyPages) (flags : BitVec 8) (n : Nat) (v p : BitVec 32)
    (s : MemState) (j : Nat) :
    (memAllocPages early flags n v p s).tbl.bit j = true ↔
      s.tbl.bit j = true ∨ ∃ i, i < n ∧ j = (p + BitVec.ofNat 32 (PAGE_SIZE * i)).toNat / 4096 := by
  induction n generalizing v p s with
  | zero => simp [memAllocPages]
  | succ n ih =>
      rw [memAllocPages, ih, bit_memSetTbl, Bool.or_eq_true, decide_eq_true_eq, or_assoc]
      apply or_congr_right
      -- the first page, or one of those that the rest of the loop sees
      exact (exists_page_succ p n fun x => j = x.toNat / 4096).symm

theorem marked_memAllocPages (early : EarlyPages) (r : Region) (s : MemState) (x : BitVec 32) :
    (memAllocPages early r.mapFlags r.numPages r.virtAddr r.physAddr s).Marked x ↔
      s.Marked x ∨ ∃ y ∈ r.pages, x.toNat / 4096 = y.toNat / 4096 := by
  rw [MemState.Marked, bit_memAllocPages]
  simp [MemState.Marked, Region.pages]

theorem Region.physAddr_mem_pages {r : Region} (h : r.numPages ≠ 0) : r.physAddr ∈ r.pages := by
  rw [Region.pages, List.mem_map]
  exact ⟨0, List.mem_range.mpr (by omega), by simp⟩

/-! ## Runs -/

/-- The calls of the memory manager. -/
inductive MemCall
  | memAllocRegion (r : Region)
  | memGetFreePagePhys
  | memReleasePagePhys (physAddr : BitVec 32)
  deriving DecidableEq, Repr

namespace MemCall

def isRelease : MemCall → Bool
  | .memReleasePagePhys _ => true
  | _ => false

/-- A call that does not panic. -/
def exec (early : EarlyPages) : MemCall → MemState → Option MemState
  | .memAllocRegion r, s => some (NowOS.memAllocRegion early r s).2
  | .memGetFreePagePhys, s =>
      match NowOS.memGetFreePagePhys s.tbl with
      | .error _ => none
      | .ok (_, tbl) => some { s with tbl := tbl }
  | .memReleasePagePhys p, s => some { s with tbl := NowOS.memReleasePagePhys p s.tbl }

def Step (early : EarlyPages) (c : MemCall) (s s' : MemState) : Prop := c.exec early s = some s'

end MemCall

/-- Whatever the table holds, an allocation keeps the bits that are set. -/
theorem bit_of_getFreeSlot {tbl tbl' : ByteIndexList} {i j : Nat}
    (h : tbl.byteIndexGetFreeSlot = .ok (i, tbl')) (hj : tbl.bit j = true) : tbl'.bit j = true := by
  have htake : ∀ list : ByteIndexList, list.bit j = true → list.takeSlot = .ok (i, tbl') →
      tbl'.bit j = true := by
    intro list hbit hok
    unfold takeSlot at hok
    split at hok
    next => cases hok
    next =>
      split at hok
      next => cases hok
      next =>
        cases hok
        rw [bit_byteIndexSetTbl, hbit, Bool.true_or]
  unfold byteIndexGetFreeSlot at h
  split at h
  next =>
    split at h
    next => cases h
    next list hupdate =>
      apply htake list _ h
      unfold updateFreePtr at hupdate
      split at hupdate
      next =>
        cases hupdate
        exact hj
      next => cases hupdate
  next => exact htake tbl hj h

/-- Only a release takes a mark away. -/
theorem MemCall.Step.marked {early : EarlyPages} {c : MemCall} {s s' : MemState}
    (h : c.Step early s s') (hc : c.isRelease = false) {x : BitVec 32} (hx : s.Marked x) :
    s'.Marked x := by
  cases c with
  | memAllocRegion r =>
      cases h
      unfold NowOS.memAllocRegion
      split
      next => exact hx
      next => exact (marked_memAllocPages early r s x).mpr (Or.inl hx)
  | memGetFreePagePhys =>
      simp only [MemCall.Step, MemCall.exec] at h
      split at h
      next => cases h
      next a tbl hok =>
        cases h
        unfold NowOS.memGetFreePagePhys at hok
        split at hok
        next => cases hok
        next i tbl' hslot =>
          split at hok <;> cases hok <;> exact bit_of_getFreeSlot hslot hx
  | memReleasePagePhys p => cases hc

/-! ## All or nothing -/

/-- A call returns an address only if no page of the region was in use, and `NULL` only if it has
changed nothing. -/
def AllOrNothing (early : EarlyPages) (r : Region) (s : MemState) : Prop :=
  ((memAllocRegion early r s).1 ≠ 0#32 → ∀ x ∈ r.pages, ¬ s.Marked x) ∧
    ((memAllocRegion early r s).1 = 0#32 → (memAllocRegion early r s).2 = s)

/-- The first page is in use, or no page is and the region is not at the virtual address zero. -/
def Region.Clear (r : Region) (s : MemState) : Prop :=
  s.Marked r.physAddr ∨
    ((∀ x ∈ r.pages, ¬ s.Marked x) ∧ (r.virtAddr ≠ 0#32 ∨ r.numPages = 0))

instance (r : Region) (s : MemState) : Decidable (r.Clear s) :=
  -- over the pages, not over all words
  have : Decidable (∀ x ∈ r.pages, ¬ s.Marked x) := List.decidableBAll _ _
  inferInstanceAs (Decidable (_ ∨ _ ∧ (_ ∨ _)))

variable {early : EarlyPages} {r : Region} {s : MemState}

theorem memAllocRegion_of_marked (hr : r.alreadyExists = false) (h : s.Marked r.physAddr) :
    memAllocRegion early r s = (0#32, s) := by
  rw [memAllocRegion, memCheckTbl_eq, hr, decide_eq_true h]
  rfl

theorem memAllocRegion_of_not_marked (h : ¬ s.Marked r.physAddr) :
    memAllocRegion early r s =
      (r.virtAddr, memAllocPages early r.mapFlags r.numPages r.virtAddr r.physAddr s) := by
  rw [memAllocRegion, memCheckTbl_eq, decide_eq_false h, Bool.and_false]
  rfl

theorem allOrNothing_iff_clear (hr : r.alreadyExists = false) :
    AllOrNothing early r s ↔ r.Clear s := by
  unfold AllOrNothing Region.Clear
  by_cases hfirst : s.Marked r.physAddr
  · rw [memAllocRegion_of_marked hr hfirst]
    simp [hfirst]
  · rw [memAllocRegion_of_not_marked hfirst]
    simp only [hfirst, false_or]
    by_cases hvirt : r.virtAddr = 0#32
    · -- the region is allocated, but the caller cannot see it
      constructor
      · rintro ⟨-, hsame⟩
        by_cases hn : r.numPages = 0
        · refine ⟨?_, Or.inr hn⟩
          simp [Region.pages, hn]
        · exfalso
          apply hfirst
          rw [← hsame hvirt]
          exact (marked_memAllocPages early r s _).mpr
            (Or.inr ⟨r.physAddr, Region.physAddr_mem_pages hn, rfl⟩)
      · rintro ⟨-, hne | hn⟩
        · exact absurd hvirt hne
        · refine ⟨fun hne => absurd hvirt hne, fun _ => ?_⟩
          rw [hn]
          rfl
    · constructor
      · rintro ⟨hclear, -⟩
        exact ⟨hclear hvirt, Or.inl hvirt⟩
      · rintro ⟨hclear, -⟩
        exact ⟨fun _ => hclear, fun hzero => absurd hzero hvirt⟩

/-- The pages of a region that was allocated are in use. -/
theorem marked_of_allocated (hr : r.alreadyExists = false)
    (hok : (memAllocRegion early r s).1 ≠ 0#32) {x : BitVec 32}
    (hx : x ∈ r.pages) : (memAllocRegion early r s).2.Marked x := by
  by_cases hfirst : s.Marked r.physAddr
  · rw [memAllocRegion_of_marked hr hfirst] at hok
    exact absurd rfl hok
  · rw [memAllocRegion_of_not_marked hfirst]
    exact (marked_memAllocPages early r s x).mpr (Or.inr ⟨x, hx, rfl⟩)

/-- **Regions are allocated as a whole or not at all** exactly if the first page is in use or none
is, and the region is not at the virtual address zero. Under this condition a region shares no frame
with one that was allocated before, without a release in between. -/
theorem memAllocRegion_exclusive (early : EarlyPages) (r : Region) (s : MemState)
    (hr : r.alreadyExists = false) :
    (AllOrNothing early r s ↔ r.Clear s) ∧
      ∀ s₂ r₂, r₂.alreadyExists = false → (memAllocRegion early r s).1 ≠ 0#32 →
        Reach (· = (memAllocRegion early r s).2)
          (Guarded (fun c _ => c.isRelease = false) (MemCall.Step early)) s₂ →
        r₂.Clear s₂ → (memAllocRegion early r₂ s₂).1 ≠ 0#32 →
        ∀ x ∈ r.pages, ∀ y ∈ r₂.pages, x.toNat / 4096 ≠ y.toNat / 4096 := by
  refine ⟨allOrNothing_iff_clear hr, ?_⟩
  intro s₂ r₂ hr₂ hok hreach hclear hok₂ x hx y hy hframe
  have hmarked : s₂.Marked x := by
    apply hreach.invariant (I := fun s => s.Marked x)
    · rintro s₁ rfl
      exact marked_of_allocated hr hok hx
    · rintro c s₁ s₁' hmark ⟨hc, hstep⟩
      exact hstep.marked hc hmark
  have hfree : ¬ s₂.Marked y := ((allOrNothing_iff_clear hr₂).mpr hclear).1 hok₂ y hy
  apply hfree
  unfold MemState.Marked at hmarked ⊢
  rwa [← hframe]

/-- A table without marks, and memory without page tables. -/
def emptyState : MemState := ⟨initPhysMemTbl 0x7F00000, .newDirectory .lowPages fun _ => 0#32⟩

/-- Two regions next to each other. -/
theorem memAllocRegion_exclusive_adjacent :
    AllOrNothing .lowPages (Region.mk 0x1000 0x1000 0) emptyState ∧
      ∀ x ∈ (Region.mk 0x1000 0x1000 0).pages, ∀ y ∈ (Region.mk 0x2000 0x2000 0).pages,
        x.toNat / 4096 ≠ y.toNat / 4096 := by
  obtain ⟨hiff, hshare⟩ := memAllocRegion_exclusive .lowPages (Region.mk 0x1000 0x1000 0) emptyState
    (by decide)
  have hclear : (Region.mk 0x2000 0x2000 0).Clear
      (memAllocRegion .lowPages (Region.mk 0x1000 0x1000 0) emptyState).2 := by
    decide +kernel
  refine ⟨hiff.mpr (by decide +kernel), ?_⟩
  exact hshare _ (Region.mk 0x2000 0x2000 0) (by decide) (by decide +kernel) (.start rfl) hclear
    (by decide +kernel)

/-- The second region is allocated although its second page is the first region. -/
theorem memAllocRegion_shared :
    (memAllocRegion .lowPages (Region.mk 0x1000 0x1000 0) emptyState).1 = 0xC0001000#32 ∧
      (memAllocRegion .lowPages (Region.mk 0 0x2000 0)
        (memAllocRegion .lowPages (Region.mk 0x1000 0x1000 0) emptyState).2).1 = 0xC0000000#32 ∧
      0x1000#32 ∈ (Region.mk 0x1000 0x1000 0).pages ∧ 0x1000#32 ∈ (Region.mk 0 0x2000 0).pages ∧
      ¬ AllOrNothing .lowPages (Region.mk 0 0x2000 0)
        (memAllocRegion .lowPages (Region.mk 0x1000 0x1000 0) emptyState).2 := by
  refine ⟨by decide +kernel, by decide +kernel, by decide, by decide, ?_⟩
  rw [allOrNothing_iff_clear (by decide)]
  decide +kernel

end NowOS

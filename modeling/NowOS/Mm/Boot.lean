import NowOS.Mm.Frames

set_option autoImplicit false

/-! # The early heap during the boot (`kernel/kmain.c`)

Up to `init_kheap` everything that `kmain` calls takes its memory from the early heap, whose 32 KiB
are fixed: the table of the physical pages, which grows with the memory of the machine, the page
directory and three page tables, a table for the page of the RSDT and one for the local APIC if
their directory slots have none, and what is left is the array of `free_node_list`. Nobody checks
that it is enough. Here the page tables and the early heap run together, and the result says for
which machines it is. -/

namespace NowOS

/-- The kernel is loaded from 1 MiB on (`boot/linker.ld`). -/
structure BootLayout extends Layout where
  loaded : KERN_VIRTUAL_ADDR + 0x100000 ≤ earlyHeapBottom

namespace Boot

/-! ## The calls of `kmain` -/

section Source

variable (L : BootLayout) (memUpper : Nat)

/-- `mem_limit`. -/
def memLimit : Nat := mul32 memUpper 1024

/-- How many pages the table of the physical pages takes, the last one in part. -/
def tblPages : Nat := (memTblSize (memLimit memUpper) + 4095) / 4096

/-- The first page behind the table of the physical pages. -/
def pagesBottom : Nat := L.earlyHeapBottom + 4096 * tblPages memUpper

theorem tblPages_le : tblPages memUpper ≤ 32 := by
  have := PhysMem.memTblSize_le (mul32_lt memUpper 1024)
  unfold tblPages memLimit
  omega

theorem pagesBottom_bounds :
    KERN_VIRTUAL_ADDR + 0x100000 ≤ pagesBottom L memUpper ∧
      pagesBottom L memUpper + 86016 ≤ W32 := by
  have := L.loaded
  have := L.fits
  have := tblPages_le memUpper
  unfold pagesBottom
  omega

/-- The pages that `early_kmalloc_pages` hands out after `init_mem_manager`, by their physical
addresses. -/
def earlyPages : EarlyPages where
  page k := BitVec.ofNat 32 (pagesBottom L memUpper - KERN_VIRTUAL_ADDR + 4096 * k)
  aligned k hk := by
    have hal := L.page_aligned
    rw [BitVec.toNat_ofNat]
    unfold pagesBottom KERN_VIRTUAL_ADDR
    omega
  ne_zero k hk h := by
    obtain ⟨hlow, hhigh⟩ := pagesBottom_bounds L memUpper
    have hnat := congrArg BitVec.toNat h
    rw [BitVec.toNat_ofNat, BitVec.toNat_ofNat] at hnat
    unfold KERN_VIRTUAL_ADDR W32 at *
    omega
  inj j k hj hk h := by
    obtain ⟨hlow, hhigh⟩ := pagesBottom_bounds L memUpper
    have hnat := congrArg BitVec.toNat h
    rw [BitVec.toNat_ofNat, BitVec.toNat_ofNat] at hnat
    unfold KERN_VIRTUAL_ADDR W32 at *
    omega

/-- The page of the RSDT, as `init_acpi` maps it. -/
def rsdtRegion (rsdtAddr : BitVec 32) : Region :=
  ⟨rsdtAddr, BitVec.ofNat 32 PAGE_SIZE, MEM_IDENTITYREGION ||| MEM_ALREADYEXISTS⟩

/-- What `mem_set_tbl` stores, in a table at the physical address `array`. It does not compare the
index with the size of the table, so that the word may be behind the table. -/
def setTblWord (array : Nat) (physAddr : BitVec 32) (s : Paging) : Paging :=
  let index := physAddrToPageIndex physAddr
  let byte := array + index / 8
  -- memory is by words here, and the table by bytes
  let word := BitVec.ofNat 32 (byte / 4 * 4)
  s.store word (s.mem word ||| 1#32 <<< (8 * (byte % 4) + index % 8))

/-- The page tables after `init_kern_paging`, `init_acpi` and `lapic_bsp_init`. -/
def bootPaging (rsdtAddr lapicAddr : BitVec 32) (mem : BitVec 32 → BitVec 32) : Paging :=
  let early := earlyPages L memUpper
  let s := (memAllocRegion early (rsdtRegion rsdtAddr)
    ⟨initPhysMemTbl (memLimit memUpper), .initKernPaging early mem⟩).2
  -- the model of `mem_alloc_region` keeps the table apart from the memory; its write is done here
  let paging := setTblWord (L.earlyHeapBottom - KERN_VIRTUAL_ADDR) rsdtAddr s.paging
  paging.mapKernPageFlags early lapicAddr lapicAddr
    ((PAGE_READWRITE ||| PAGE_CACHEDISABLE).setWidth 8)

/-- Who takes memory from the early heap: the paging functions one page for each that they have
used. -/
def consumers (rsdtAddr lapicAddr : BitVec 32) (mem : BitVec 32 → BitVec 32) : List Consumer :=
  .initMemManager (memLimit memUpper) ::
    (List.replicate (bootPaging L memUpper rsdtAddr lapicAddr mem).taken (.earlyKmallocPages 1) ++
      [.initKheap])

/-- The early heap after `init_kheap`. -/
def boot (rsdtAddr lapicAddr : BitVec 32) (mem : BitVec 32 → BitVec 32) : Except String EarlyHeap :=
  (consumers L memUpper rsdtAddr lapicAddr mem).foldlM
    (fun s a => EarlyHeap.exec L.toLayout a s) (EarlyHeap.initEarlyHeap L.toLayout)

end Source

/-- **The early heap suffices**: all that was handed out is inside of it, and `free_node_list` has
room for two nodes. `early_heap_ptr` is not above the top, so that the subtraction in `init_kheap`
does not wrap around. -/
structure Suffices (L : Layout) (s : EarlyHeap) : Prop where
  inside : ∀ r ∈ s.handedOut, L.earlyHeapBottom ≤ r.addr ∧ r.addr + r.len ≤ L.earlyHeapTop
  noUnderflow : s.earlyHeapPtr ≤ L.earlyHeapTop
  capacity : 2 ≤ freeNodeListSize L s.earlyHeapPtr

/-! ## How many page tables there are -/

section Tables

variable {early : EarlyPages} {s : Paging}

/-- A page is mapped with a new table exactly if its directory entry is zero. -/
theorem taken_mapKernPageFlags (v p : BitVec 32) (flags : BitVec 8) :
    (s.mapKernPageFlags early v p flags).taken =
      s.taken + if s.dirEntry (pdIndex v) = 0#32 then 1 else 0 := by
  unfold Paging.mapKernPageFlags Paging.setEntry Paging.newTable
  split <;> rfl

/-- The page of the RSDT is one page, mapped where it is. -/
theorem memAllocRegion_rsdt (rsdtAddr : BitVec 32) (tbl : ByteIndexList) :
    (memAllocRegion early (rsdtRegion rsdtAddr) ⟨tbl, s⟩).2 =
      ⟨memSetTbl rsdtAddr tbl, s.mapKernPageFlags early rsdtAddr rsdtAddr 0#8⟩ := by
  have hexists : (rsdtRegion rsdtAddr).alreadyExists = true := by
    show ((MEM_IDENTITYREGION ||| MEM_ALREADYEXISTS) &&& MEM_ALREADYEXISTS != 0#8) = true
    decide
  have hpages : (rsdtRegion rsdtAddr).numPages = 1 := by
    show alignUp (BitVec.ofNat 32 PAGE_SIZE).toNat PAGE_SIZE / PAGE_SIZE = 1
    decide +kernel
  have hvirt : (rsdtRegion rsdtAddr).virtAddr = rsdtAddr := by
    show (if (MEM_IDENTITYREGION ||| MEM_ALREADYEXISTS) &&& MEM_IDENTITYREGION != 0#8 then _
      else _) = _
    exact if_pos (by decide)
  have hflags : (rsdtRegion rsdtAddr).mapFlags = 0#8 := by
    show (Region.mk 0#32 0#32 (MEM_IDENTITYREGION ||| MEM_ALREADYEXISTS)).mapFlags = 0#8
    decide
  simp only [memAllocRegion, hexists, hpages, hvirt, hflags, Bool.not_true, Bool.false_and,
    Bool.false_eq_true, if_false, memAllocPages]
  rfl

end Tables

section Count

variable (L : BootLayout) (memUpper : Nat) (rsdtAddr lapicAddr : BitVec 32)

/-- The bit that `mem_set_tbl` sets for the page of the RSDT is not in the table, but in the
directory entry of the local APIC. -/
def Strays : Prop :=
  physAddrToPageIndex rsdtAddr / 32 = 1024 * tblPages memUpper + pdIndex lapicAddr

instance : Decidable (Strays memUpper rsdtAddr lapicAddr) := inferInstanceAs (Decidable (_ = _))

/-- The page tables that `init_acpi` and `lapic_bsp_init` add to the three of `init_kern_paging`. -/
def newTables : Nat :=
  (if pdIndex rsdtAddr ∈ [0, 768, 769] then 0 else 1) +
    (if pdIndex lapicAddr ∈ [pdIndex rsdtAddr, 0, 768, 769] ∨ Strays memUpper rsdtAddr lapicAddr
      then 0 else 1)

theorem newTables_le : newTables memUpper rsdtAddr lapicAddr ≤ 2 := by
  unfold newTables
  split <;> split <;> omega

theorem toNat_page {k : Nat} (hk : k ≤ 1024) :
    ((earlyPages L memUpper).page k).toNat =
      pagesBottom L memUpper - KERN_VIRTUAL_ADDR + 4096 * k := by
  obtain ⟨hlow, hhigh⟩ := pagesBottom_bounds L memUpper
  show (BitVec.ofNat 32 _).toNat = _
  rw [BitVec.toNat_ofNat]
  unfold KERN_VIRTUAL_ADDR W32 at *
  omega

/-- The word that `mem_set_tbl` changes is the directory entry of a slot exactly if the index says
so. -/
theorem setTblWord_addr {d : Nat} (hd : d < 1024) :
    BitVec.ofNat 32
        ((L.earlyHeapBottom - KERN_VIRTUAL_ADDR + physAddrToPageIndex rsdtAddr / 8) / 4 * 4) =
        entryAddr ((earlyPages L memUpper).page 0) d ↔
      physAddrToPageIndex rsdtAddr / 32 = 1024 * tblPages memUpper + d := by
  have hdir := toNat_page L memUpper (Nat.zero_le 1024)
  have hentry := toNat_entryAddr ((earlyPages L memUpper).aligned 0 (Nat.zero_le _)) hd
  have hindex := physAddrToPageIndex_eq rsdtAddr
  have hlt := rsdtAddr.isLt
  have hal := L.page_aligned
  have hlow := L.loaded
  have hfits := L.fits
  have htbl := tblPages_le memUpper
  rw [← BitVec.toNat_inj, hentry, hdir, BitVec.toNat_ofNat]
  unfold pagesBottom KERN_VIRTUAL_ADDR W32 at *
  omega

/-- A bit that is set makes a word different from zero. -/
theorem or_bit_ne_zero (w : BitVec 32) {j : Nat} (hj : j < 32) : w ||| 1#32 <<< j ≠ 0#32 := by
  intro h
  have hbit := congrArg (fun w => BitVec.getLsbD w j) h
  simp [hj] at hbit

/-- `mem_set_tbl` after the mapping of the RSDT page: the directory entry of the local APIC is zero
if its slot has no table and the bit does not stray into it. -/
theorem dirEntry_setTblWord {s : Paging} {slots : List Nat} {m : AddressMap}
    (h : s.Implements (earlyPages L memUpper) slots m) :
    (setTblWord (L.earlyHeapBottom - KERN_VIRTUAL_ADDR) rsdtAddr s).dirEntry (pdIndex lapicAddr) =
        0#32 ↔
      pdIndex lapicAddr ∉ slots ∧ ¬ Strays memUpper rsdtAddr lapicAddr := by
  have hlt := pdIndex_lt lapicAddr
  have haddr := setTblWord_addr L memUpper rsdtAddr hlt
  have hzero := h.dirEntry_eq_zero hlt
  unfold Paging.dirEntry at hzero ⊢
  simp only [setTblWord, Paging.store, h.dir] at hzero ⊢
  rw [Function.update_apply]
  by_cases hstray : Strays memUpper rsdtAddr lapicAddr
  · -- the entry now has the bit, so that it looks like a table
    rw [if_pos (haddr.2 hstray).symm]
    simp only [hstray, not_true_eq_false, and_false, iff_false]
    exact or_bit_ne_zero _ (by omega)
  · rw [if_neg fun heq => hstray (haddr.1 heq.symm), hzero]
    simp [hstray]

/-- **The pages that the page tables take**: the directory, three tables, and the new ones. -/
theorem taken_bootPaging (mem : BitVec 32 → BitVec 32) :
    (bootPaging L memUpper rsdtAddr lapicAddr mem).taken =
      4 + newTables memUpper rsdtAddr lapicAddr := by
  obtain ⟨slots, h, hslots⟩ := Paging.implements_initKernPaging (earlyPages L memUpper) mem
  obtain ⟨slots', h', hslots'⟩ := h.exec (.mapKernPageFlags rsdtAddr rsdtAddr 0#8)
  have hrsdt : (Paging.initKernPaging (earlyPages L memUpper) mem).dirEntry (pdIndex rsdtAddr) =
      0#32 ↔ ¬ pdIndex rsdtAddr ∈ [0, 768, 769] := by
    rw [h.dirEntry_eq_zero (pdIndex_lt rsdtAddr), hslots]
  have hlapic := dirEntry_setTblWord L memUpper rsdtAddr lapicAddr h'
  -- the local APIC finds a table if one of the four slots is its own or the bit has strayed
  rw [hslots', hslots, ← List.mem_cons, ← not_or] at hlapic
  simp only [Paging.MapCall.exec, Paging.MapCall.virt] at hlapic
  have hsame : ∀ s array, (setTblWord array rsdtAddr s).taken = s.taken := fun _ _ => rfl
  simp only [bootPaging, memAllocRegion_rsdt, taken_mapKernPageFlags, hsame, hlapic, hrsdt, ite_not,
    Paging.taken_initKernPaging, newTables]
  rw [Nat.add_assoc]

end Count

/-! ## What the early heap hands out -/

section Run

variable (L : BootLayout) (memUpper : Nat)

/-- The table of the physical pages. -/
def tblRange : ByteRange := ⟨L.earlyHeapBottom, memTblSize (memLimit memUpper)⟩

/-- A page behind the table. -/
def pageRange (k : Nat) : ByteRange := ⟨pagesBottom L memUpper + 4096 * k, 4096⟩

/-- The early heap after `init_mem_manager` and `n` calls of `early_kmalloc_pages(1)`. -/
def afterPages : Nat → EarlyHeap
  | 0 => (EarlyHeap.initEarlyHeap L.toLayout).give (tblRange L memUpper)
      (L.earlyHeapBottom + memTblSize (memLimit memUpper))
  | n + 1 => (afterPages n).give (pageRange L memUpper n) (pagesBottom L memUpper + 4096 * (n + 1))

theorem mem_afterPages {n : Nat} {r : ByteRange} :
    r ∈ (afterPages L memUpper n).handedOut ↔
      r = tblRange L memUpper ∨ ∃ k, k < n ∧ r = pageRange L memUpper k := by
  induction n with
  | zero => simp [afterPages, EarlyHeap.give, EarlyHeap.initEarlyHeap]
  | succ n ih =>
      show r ∈ pageRange L memUpper n :: (afterPages L memUpper n).handedOut ↔ _
      rw [List.mem_cons, ih]
      constructor
      · rintro (rfl | rfl | ⟨k, hk, rfl⟩)
        · exact Or.inr ⟨n, Nat.lt_succ_self n, rfl⟩
        · exact Or.inl rfl
        · exact Or.inr ⟨k, Nat.lt_succ_of_lt hk, rfl⟩
      · rintro (rfl | ⟨k, hk, rfl⟩)
        · exact Or.inr (Or.inl rfl)
        · rcases Nat.lt_succ_iff_lt_or_eq.1 hk with hlt | rfl
          · exact Or.inr (Or.inr ⟨k, hlt, rfl⟩)
          · exact Or.inl rfl

/-- `early_heap_ptr` is moved up to the next page, which is the next one behind the table. -/
theorem alignUp_afterPages {n : Nat} (hn : n ≤ 8) :
    alignUp (afterPages L memUpper n).earlyHeapPtr PAGE_SIZE =
      pagesBottom L memUpper + 4096 * n := by
  have hal := L.page_aligned
  obtain ⟨-, hhigh⟩ := pagesBottom_bounds L memUpper
  have hptr : (afterPages L memUpper n).earlyHeapPtr ≤ pagesBottom L memUpper + 4096 * n ∧
      pagesBottom L memUpper + 4096 * n < (afterPages L memUpper n).earlyHeapPtr + 4096 := by
    cases n with
    | zero =>
        -- the table need not end at the end of a page
        show L.earlyHeapBottom + memTblSize (memLimit memUpper) ≤ _ ∧
          _ < L.earlyHeapBottom + memTblSize (memLimit memUpper) + 4096
        unfold pagesBottom tblPages
        omega
    | succ n =>
        show pagesBottom L memUpper + 4096 * (n + 1) ≤ _ ∧
          _ < pagesBottom L memUpper + 4096 * (n + 1) + 4096
        omega
  obtain ⟨hle, hlt, hmod⟩ :=
    @alignUp_spec (afterPages L memUpper n).earlyHeapPtr 4096 (by decide) (by omega)
  have hbottom : pagesBottom L memUpper % 4096 = 0 := by
    unfold pagesBottom
    omega
  unfold PAGE_SIZE
  omega

/-- **`early_kmalloc_pages(1)` returns the pages that the page tables use**, one after the other. -/
theorem earlyKmallocPages_afterPages {n : Nat} (hn : n ≤ 8) :
    earlyKmallocPages 1 (afterPages L memUpper n).earlyHeapPtr =
      .ok (((earlyPages L memUpper).page n).toNat,
        (afterPages L memUpper (n + 1)).earlyHeapPtr) := by
  obtain ⟨hlow, hhigh⟩ := pagesBottom_bounds L memUpper
  have haligned : isAligned (pagesBottom L memUpper + 4096 * n) PAGE_SIZE = true := by
    have hal := L.page_aligned
    unfold isAligned pagesBottom PAGE_SIZE
    rw [beq_iff_eq]
    omega
  have hphys : sub32 (pagesBottom L memUpper + 4096 * n) KERN_VIRTUAL_ADDR =
      ((earlyPages L memUpper).page n).toNat := by
    have hle : KERN_VIRTUAL_ADDR ≤ pagesBottom L memUpper := (Nat.le_add_right _ _).trans hlow
    rw [toNat_page L memUpper (by omega), sub32_of_le (hle.trans (Nat.le_add_right _ _)),
      Nat.sub_add_comm hle]
  have hone : mul32 1 PAGE_SIZE = 4096 := by decide +kernel
  have hnext : add32 (pagesBottom L memUpper + 4096 * n) (mul32 1 PAGE_SIZE) =
      pagesBottom L memUpper + 4096 * (n + 1) := by
    rw [hone, add32_of_lt (by omega)]
    omega
  unfold earlyKmallocPages
  simp only [alignUp_afterPages L memUpper hn, haligned, hphys, hnext, not_true_eq_false, if_false]
  rfl

theorem exec_afterPages {n : Nat} (hn : n ≤ 8) :
    EarlyHeap.exec L.toLayout (.earlyKmallocPages 1) (afterPages L memUpper n) =
      .ok (afterPages L memUpper (n + 1)) := by
  obtain ⟨hlow, hhigh⟩ := pagesBottom_bounds L memUpper
  have hvirt : add32 ((earlyPages L memUpper).page n).toNat KERN_VIRTUAL_ADDR =
      pagesBottom L memUpper + 4096 * n := by
    rw [toNat_page L memUpper (by omega), add32_of_lt (by omega)]
    omega
  simp only [EarlyHeap.exec, earlyKmallocPages_afterPages L memUpper hn, hvirt]
  rfl

theorem exec_replicate {n : Nat} (k : Nat) (hn : k + n ≤ 8) :
    (List.replicate n (.earlyKmallocPages 1)).foldlM
        (fun s a => EarlyHeap.exec L.toLayout a s) (afterPages L memUpper k) =
      .ok (afterPages L memUpper (k + n)) := by
  induction n generalizing k with
  | zero => rfl
  | succ n ih =>
      rw [List.replicate_succ, List.foldlM_cons, exec_afterPages L memUpper (by omega)]
      show List.foldlM _ (afterPages L memUpper (k + 1)) _ = _
      rw [ih (k + 1) (by omega), Nat.add_assoc, Nat.add_comm 1 n]

/-- The array of `free_node_list` is all that is left. -/
def listRange (n : Nat) : ByteRange :=
  ⟨(afterPages L memUpper n).earlyHeapPtr,
    4 * freeNodeListSize L.toLayout (afterPages L memUpper n).earlyHeapPtr⟩

/-- The early heap after `init_kheap`, if the page tables took `n` pages. -/
def booted (n : Nat) : EarlyHeap :=
  { (afterPages L memUpper n).give (listRange L memUpper n)
      (afterPages L memUpper n).earlyHeapPtr with
    listArray := some (listRange L memUpper n) }

/-- **The boot returns**, and hands out the table, the pages and the array. -/
theorem boot_eq (rsdtAddr lapicAddr : BitVec 32) (mem : BitVec 32 → BitVec 32) :
    boot L memUpper rsdtAddr lapicAddr mem =
      .ok (booted L memUpper (4 + newTables memUpper rsdtAddr lapicAddr)) := by
  have hnew := newTables_le memUpper rsdtAddr lapicAddr
  have htbl : EarlyHeap.exec L.toLayout (.initMemManager (memLimit memUpper))
      (EarlyHeap.initEarlyHeap L.toLayout) = .ok (afterPages L memUpper 0) := by
    have hptr : add32 L.earlyHeapBottom (memTblSize (memLimit memUpper)) =
        L.earlyHeapBottom + memTblSize (memLimit memUpper) := by
      have := L.fits
      have := PhysMem.memTblSize_le (mul32_lt memUpper 1024)
      refine add32_of_lt ?_
      unfold memLimit
      omega
    simp only [EarlyHeap.exec, initMemManager, EarlyHeap.initEarlyHeap, hptr]
    rfl
  have hpages := exec_replicate L memUpper 0
    (show 0 + (4 + newTables memUpper rsdtAddr lapicAddr) ≤ 8 by omega)
  rw [Nat.zero_add] at hpages
  unfold boot consumers
  rw [taken_bootPaging, List.foldlM_cons, htbl]
  show List.foldlM _ (afterPages L memUpper 0) _ = _
  rw [List.foldlM_append, hpages]
  rfl

/-- The early heap suffices for `n` pages of page tables if the table of the physical pages leaves a
page more than these. -/
theorem suffices_booted_iff {n : Nat} (hpos : 0 < n) (hn : n ≤ 8) :
    Suffices L.toLayout (booted L memUpper n) ↔ tblPages memUpper + n ≤ 7 := by
  have hptr : (booted L memUpper n).earlyHeapPtr =
      L.earlyHeapBottom + 4096 * (tblPages memUpper + n) := by
    obtain ⟨k, rfl⟩ : ∃ k, n = k + 1 := ⟨n - 1, by omega⟩
    show pagesBottom L memUpper + 4096 * (k + 1) = _
    unfold pagesBottom
    omega
  have htop : L.earlyHeapTop = L.earlyHeapBottom + 32768 := rfl
  have hcap : tblPages memUpper + n ≤ 8 →
      freeNodeListSize L.toLayout (booted L memUpper n).earlyHeapPtr =
        1024 * (8 - (tblPages memUpper + n)) := by
    intro hle
    rw [freeNodeListSize, sub32_of_le (by omega), hptr, htop]
    omega
  constructor
  · rintro ⟨-, hunder, hcapacity⟩
    have hle : tblPages memUpper + n ≤ 8 := by
      rw [hptr, htop] at hunder
      omega
    rw [hcap hle] at hcapacity
    omega
  · intro hle
    refine ⟨fun r hr => ?_, by omega, by rw [hcap (by omega)]; omega⟩
    have htbl : memTblSize (memLimit memUpper) ≤ 4096 * tblPages memUpper := by
      unfold tblPages
      omega
    have hlist := hcap (by omega)
    rcases List.mem_cons.1 hr with rfl | hr
    · show L.earlyHeapBottom ≤ (booted L memUpper n).earlyHeapPtr ∧
        (booted L memUpper n).earlyHeapPtr +
          4 * freeNodeListSize L.toLayout (booted L memUpper n).earlyHeapPtr ≤ _
      omega
    · rcases (mem_afterPages L memUpper).1 hr with rfl | ⟨k, hk, rfl⟩
      · show L.earlyHeapBottom ≤ L.earlyHeapBottom ∧
          L.earlyHeapBottom + memTblSize (memLimit memUpper) ≤ _
        omega
      · show L.earlyHeapBottom ≤ pagesBottom L memUpper + 4096 * k ∧
          pagesBottom L memUpper + 4096 * k + 4096 ≤ _
        unfold pagesBottom
        omega

/-- **For which machines the early heap suffices.** Whatever the memory of the machine and the
addresses of the RSDT and of the local APIC, the boot returns, and the early heap suffices exactly
if the pages of the table of the physical pages and the page tables for the two addresses together
are at most three. -/
theorem boot_suffices_iff (rsdtAddr lapicAddr : BitVec 32) (mem : BitVec 32 → BitVec 32) :
    ∃ s, boot L memUpper rsdtAddr lapicAddr mem = .ok s ∧
      (Suffices L.toLayout s ↔ tblPages memUpper + newTables memUpper rsdtAddr lapicAddr ≤ 3) := by
  have hnew := newTables_le memUpper rsdtAddr lapicAddr
  refine ⟨_, boot_eq L memUpper rsdtAddr lapicAddr mem, ?_⟩
  rw [suffices_booted_iff L memUpper (by omega) (by omega)]
  omega

end Run

/-- The heaps at `0xC0110000`. -/
def someLayout : BootLayout := ⟨KHeap.Client.bootLayout, by decide⟩

/-- A machine with 256 MiB of memory, the RSDT near its top and the local APIC where it usually is:
the table takes two pages, and nothing is left for `free_node_list`. -/
theorem boot_quarter_gigabyte :
    ∃ s, boot someLayout 261120 0x0FFE1000#32 0xFEE00000#32 (fun _ => 0#32) = .ok s ∧
      s.earlyHeapPtr = someLayout.earlyHeapTop ∧
      freeNodeListSize someLayout.toLayout s.earlyHeapPtr = 0 ∧
      ¬ Suffices someLayout.toLayout s := by
  have htbl : tblPages 261120 = 2 := by decide +kernel
  have hnew : newTables 261120 0x0FFE1000#32 0xFEE00000#32 = 2 := by decide +kernel
  refine ⟨_, boot_eq _ _ _ _ _, ?_, ?_, ?_⟩
  · rw [hnew]
    decide +kernel
  · rw [hnew]
    decide +kernel
  · rw [hnew, suffices_booted_iff _ _ (by decide) (by decide), htbl]
    decide

end Boot

end NowOS

import NowOS.Mm.Bitmap

set_option autoImplicit false

/-! # What a region is mapped to

The pages of a region as the processor sees them after `mem_alloc_region`: where they lead, and with
which rights. The number of pages is computed from the size alone, so that a region that does not
begin at a page can end on a page that is not mapped. The flag `MEM_ALLACCESS` gets lost on the way
to the page tables, and the directory entries do not allow it either. -/

namespace NowOS

/-! ## The loop as a function of the page number -/

theorem pageNumber_lt (x : BitVec 32) : pageNumber x < 1048576 := by
  have hx := x.isLt
  rw [pageNumber_eq_div]
  omega

theorem pageNumber_add_page (v : BitVec 32) (k : Nat) :
    pageNumber (v + BitVec.ofNat 32 (PAGE_SIZE * k)) = (pageNumber v + k) % 1048576 := by
  have hv := v.isLt
  rw [pageNumber_eq_div, pageNumber_eq_div, BitVec.toNat_add, BitVec.toNat_ofNat, PAGE_SIZE]
  omega

/-- How many pages the page `q` is behind the page of `v`, around the address space. -/
def pageOffset (v : BitVec 32) (q : Nat) : Nat := (q + 1048576 - pageNumber v) % 1048576

theorem pageOffset_add_page {v : BitVec 32} {k : Nat} (hk : k < 1048576) :
    pageOffset v (pageNumber (v + BitVec.ofNat 32 (PAGE_SIZE * k))) = k := by
  have hv := pageNumber_lt v
  rw [pageOffset, pageNumber_add_page]
  omega

/-- What a page leads to does not depend on where it is. -/
theorem mapping_virt (v w p : BitVec 32) (flags : BitVec 8) :
    (Paging.MapCall.mapKernPageFlags v p flags).mapping =
      (Paging.MapCall.mapKernPageFlags w p flags).mapping := rfl

/-- **The loop maps `n` pages in a row** and no other page. -/
theorem AddressMap.mapPages_apply (flags : BitVec 8) {n : Nat} (hn : n ≤ 1048576) (v p : BitVec 32)
    (m : AddressMap) {q : Nat} (hq : q < 1048576) :
    AddressMap.mapPages flags n v p m q =
      if pageOffset v q < n then
        some (Paging.MapCall.mapKernPageFlags v
          (p + BitVec.ofNat 32 (PAGE_SIZE * pageOffset v q)) flags).mapping
      else m q := by
  induction n generalizing v p m with
  | zero => rw [if_neg (Nat.not_lt_zero _), AddressMap.mapPages]
  | succ n ih =>
      have hv := pageNumber_lt v
      have hone : v + BitVec.ofNat 32 PAGE_SIZE = v + BitVec.ofNat 32 (PAGE_SIZE * 1) := by
        rw [Nat.mul_one]
      have hnext : pageOffset (v + BitVec.ofNat 32 PAGE_SIZE) q =
          (pageOffset v q + 1048575) % 1048576 := by
        rw [hone, pageOffset, pageOffset, pageNumber_add_page]
        omega
      rw [AddressMap.mapPages, ih (by omega), hnext]
      have hlt : pageOffset v q < 1048576 := Nat.mod_lt _ (by decide)
      by_cases hzero : pageOffset v q = 0
      · -- the page that this iteration maps: the others are too few to come around to it
        have hqv : q = pageNumber v := by
          rw [pageOffset] at hzero
          omega
        rw [hzero, if_neg (by omega), if_pos (by omega), hqv, Function.update_self, Nat.mul_zero]
        simp [Paging.MapCall.mapping]
      · have hqv : q ≠ pageNumber v := by
          intro heq
          rw [pageOffset, heq] at hzero
          omega
        have hpred : (pageOffset v q + 1048575) % 1048576 = pageOffset v q - 1 := by omega
        have hpage : p + BitVec.ofNat 32 PAGE_SIZE +
            BitVec.ofNat 32 (PAGE_SIZE * (pageOffset v q - 1)) =
            p + BitVec.ofNat 32 (PAGE_SIZE * pageOffset v q) := by
          have hsum : PAGE_SIZE + PAGE_SIZE * (pageOffset v q - 1) =
              PAGE_SIZE * pageOffset v q := by
            unfold PAGE_SIZE
            omega
          rw [BitVec.add_assoc, ← BitVec.ofNat_add, hsum]
        rw [hpred, Function.update_of_ne hqv, hpage]
        by_cases hin : pageOffset v q < n + 1
        · rw [if_pos hin, if_pos (by omega), mapping_virt]
        · rw [if_neg hin, if_neg (by omega)]

theorem Region.numPages_le (r : Region) : r.numPages ≤ 1048576 := by
  have hlt := alignUp_lt r.size.isLt PAGE_SIZE
  unfold Region.numPages PAGE_SIZE
  unfold W32 PAGE_SIZE at hlt
  omega

/-! ## The memory after `mem_alloc_region` -/

section

variable {early : EarlyPages} (B : Bitmap early) {s : Paging} {slots : List Nat} {m : AddressMap}
  {r : Region}

theorem Bitmap.implements_memAllocRegion (h : s.Implements early slots m)
    (haccept : s.rejects B.array r = false) (hin : r.InTable B.array B.size s) :
    ∃ slots', (s.memAllocRegion early B.array r).2.Implements early slots'
      (AddressMap.mapPages r.mapFlags r.numPages r.virtAddr r.physAddr m) := by
  have hall := (tblAccesses_lt_iff B.size_lt r s).2 hin
  obtain ⟨-, hholds⟩ := (B.holds_view h).memAllocRegion B hall
  rw [haccept, if_neg Bool.false_ne_true] at hholds
  exact hholds.memory

/-- The marks in the table after `mem_alloc_region`. -/
theorem Bitmap.tblBit_memAllocRegion (h : s.Implements early slots m)
    (haccept : s.rejects B.array r = false) (hin : r.InTable B.array B.size s) {j : Nat}
    (hj : j < 8 * B.size) :
    (s.memAllocRegion early B.array r).2.tblBit B.array j = true ↔
      s.tblBit B.array j = true ∨ (r.physAddr.toNat / 4096 ≤ j ∧
        j < r.physAddr.toNat / 4096 + r.numPages) := by
  have hall := (tblAccesses_lt_iff B.size_lt r s).2 hin
  obtain ⟨-, hholds⟩ := (B.holds_view h).memAllocRegion B hall
  have hsize := B.size_lt
  have hcount : r.markCount B.array s = r.numPages := if_neg (by simp [haccept])
  have hmodel : NowOS.memAllocRegion early r (B.view s) =
      (r.virtAddr,
        NowOS.memAllocPages early r.mapFlags r.numPages r.virtAddr r.physAddr (B.view s)) := by
    rw [NowOS.memAllocRegion, (B.holds_view h).rejects_eq B hall, haccept]
    rfl
  unfold Region.InTable at hin
  rw [hcount] at hin
  rw [hholds.marks j hj, hmodel, bit_memAllocPages]
  refine or_congr Iff.rfl ?_
  constructor
  · rintro ⟨i, hi, rfl⟩
    rw [toNat_add_page (by omega)]
    omega
  · rintro ⟨hlow, hhigh⟩
    refine ⟨j - r.physAddr.toNat / 4096, by omega, ?_⟩
    rw [toNat_add_page (by omega)]
    omega

theorem Bitmap.walk_memAllocRegion (h : s.Implements early slots m)
    (haccept : s.rejects B.array r = false) (hin : r.InTable B.array B.size s) (x : BitVec 32) :
    (s.memAllocRegion early B.array r).2.walk x =
      if pageOffset r.virtAddr (pageNumber x) < r.numPages then
        some (Paging.MapCall.mapKernPageFlags r.virtAddr (r.physAddr +
          BitVec.ofNat 32 (PAGE_SIZE * pageOffset r.virtAddr (pageNumber x))) r.mapFlags).mapping
      else s.walk x := by
  obtain ⟨slots', h'⟩ := B.implements_memAllocRegion h haccept hin
  rw [h'.walk, AddressMap.mapPages_apply _ r.numPages_le _ _ _ (pageNumber_lt x), h.walk]

end

/-! ## A region is covered -/

/-- The address translates to itself. -/
def Paging.Identity (s : Paging) (x : BitVec 32) : Prop :=
  ∃ e, s.walk x = some e ∧ e.frame = x >>> 12

/-- The address translates to itself, and its frame is marked as used. -/
def Bitmap.Covered {early : EarlyPages} (B : Bitmap early) (s : Paging) (x : BitVec 32) : Prop :=
  s.Identity x ∧ s.tblBit B.array (x.toNat / 4096) = true

namespace Region

/-- The addresses of the region. -/
def Contains (r : Region) (x : BitVec 32) : Prop :=
  r.physAddr.toNat ≤ x.toNat ∧ x.toNat < r.physAddr.toNat + r.size.toNat

/-- The address behind the last page that the loop maps. -/
def mappedEnd (r : Region) : Nat := r.physAddr.toNat / 4096 * 4096 + alignUp r.size.toNat PAGE_SIZE

/-- The pages that are as many as the size needs reach from the first page up to the end of the
region. The size is rounded up modulo `2^32`. -/
def InPages (r : Region) : Prop :=
  r.physAddr.toNat % 4096 + r.size.toNat ≤ alignUp r.size.toNat PAGE_SIZE

instance (r : Region) : Decidable r.InPages := inferInstanceAs (Decidable (_ ≤ _))

theorem numPages_mul (r : Region) : r.numPages * 4096 = alignUp r.size.toNat PAGE_SIZE := by
  have hmod : alignUp r.size.toNat 4096 % 4096 = 0 := alignUp_mod (by decide) r.size.toNat
  unfold numPages PAGE_SIZE
  omega

/-- A region that has bits in the table for all of its pages. -/
theorem inTable_of_contains {array size : Nat} {r : Region} (hsize : 1 ≤ r.size.toNat)
    (htbl : (r.physAddr.toNat + r.size.toNat - 1) / 4096 < 8 * size) (s : Paging) :
    r.InTable array size s := by
  have hcount : r.markCount array s ≤ r.numPages := by
    unfold markCount
    split
    · exact Nat.zero_le _
    · exact le_rfl
  have hpages : r.numPages * 4096 < r.size.toNat + 4096 := by
    rw [numPages_mul]
    by_cases hw : r.size.toNat + 4096 ≤ W32
    · exact (alignUp_spec (by decide) hw).2.1
    · -- the size is rounded up to zero, or is the last multiple of 4096
      have hlt := alignUp_lt r.size.isLt PAGE_SIZE
      exact hlt.trans (Nat.lt_of_not_le hw)
  unfold InTable
  omega

end Region

section

variable {early : EarlyPages} (B : Bitmap early) {s : Paging} {slots : List Nat} {m : AddressMap}
  {r : Region}

theorem Region.virtAddr_of_identity (hid : r.flags &&& MEM_IDENTITYREGION ≠ 0#8) :
    r.virtAddr = r.physAddr := by
  unfold Region.virtAddr
  rw [if_pos (by simpa using hid)]

/-- An address of the region is on a page that the loop maps exactly if it is before the end of the
last one. -/
theorem Region.pageOffset_lt_iff {x : BitVec 32} (hx : r.Contains x) :
    pageOffset r.physAddr (pageNumber x) < r.numPages ↔ x.toNat < r.mappedEnd := by
  have hpages := r.numPages_mul
  have hlt := x.isLt
  obtain ⟨hlow, -⟩ := hx
  have hoff : pageOffset r.physAddr (pageNumber x) = x.toNat / 4096 - r.physAddr.toNat / 4096 := by
    rw [pageOffset, pageNumber_eq_div, pageNumber_eq_div]
    omega
  rw [hoff, Region.mappedEnd, ← hpages]
  omega

/-- One address of the region: it is covered by the call, or it was covered before. -/
theorem Bitmap.covered_iff (h : s.Implements early slots m)
    (hid : r.flags &&& MEM_IDENTITYREGION ≠ 0#8) (hexists : r.alreadyExists = true)
    (hsize : 1 ≤ r.size.toNat)
    (htbl : (r.physAddr.toNat + r.size.toNat - 1) / 4096 < 8 * B.size) {x : BitVec 32}
    (hx : r.Contains x) :
    B.Covered (s.memAllocRegion early B.array r).2 x ↔ x.toNat < r.mappedEnd ∨ B.Covered s x := by
  have haccept : s.rejects B.array r = false := by
    rw [Paging.rejects, hexists]
    rfl
  have hin : r.InTable B.array B.size s := Region.inTable_of_contains hsize htbl s
  have hlt := x.isLt
  have hoff := r.pageOffset_lt_iff hx
  have hpages := r.numPages_mul
  obtain ⟨hlow, hhigh⟩ := id hx
  have hmark := B.tblBit_memAllocRegion h haccept hin (j := x.toNat / 4096) (by omega)
  unfold Bitmap.Covered Paging.Identity
  rw [B.walk_memAllocRegion h haccept hin, hmark, Region.virtAddr_of_identity hid]
  by_cases hmapped : x.toNat < r.mappedEnd
  · rw [if_pos (hoff.2 hmapped)]
    have hpage : pageNumber x = (r.physAddr +
        BitVec.ofNat 32 (PAGE_SIZE * pageOffset r.physAddr (pageNumber x))).toNat / 4096 := by
      rw [← pageNumber_eq_div, pageNumber_add_page, pageOffset, pageNumber_eq_div,
        pageNumber_eq_div]
      omega
    refine iff_of_true ⟨⟨_, rfl, ?_⟩, Or.inr ?_⟩ (Or.inl hmapped)
    · apply BitVec.eq_of_toNat_eq
      show ((r.physAddr + _) >>> 12).toNat = (x >>> 12).toNat
      rw [BitVec.toNat_ushiftRight, Nat.shiftRight_eq_div_pow]
      exact hpage.symm
    · unfold Region.mappedEnd at hmapped
      omega
  · -- behind the last page the call changes nothing
    have hnot : ¬ (r.physAddr.toNat / 4096 ≤ x.toNat / 4096 ∧
        x.toNat / 4096 < r.physAddr.toNat / 4096 + r.numPages) := by
      unfold Region.mappedEnd at hmapped
      omega
    rw [if_neg fun hlt => hmapped (hoff.1 hlt), or_iff_left hnot, or_iff_right hmapped]

/-- **Which regions are covered.** For every state of the memory with page tables, every region that
may exist already and is to be mapped to itself, and a table with bits for all of its pages: after
`mem_alloc_region` every address of the region translates to itself and its frame is marked, exactly
if the region does not reach into one page more than its size needs, or what is behind the pages
that are mapped was covered before. -/
theorem region_covered_iff (h : s.Implements early slots m)
    (hid : r.flags &&& MEM_IDENTITYREGION ≠ 0#8) (hexists : r.alreadyExists = true)
    (hsize : 1 ≤ r.size.toNat)
    (htbl : (r.physAddr.toNat + r.size.toNat - 1) / 4096 < 8 * B.size) :
    (∀ x, r.Contains x → B.Covered (s.memAllocRegion early B.array r).2 x) ↔
      r.InPages ∨ ∀ x, r.Contains x → r.mappedEnd ≤ x.toNat → B.Covered s x := by
  constructor
  · intro hall
    right
    intro x hx hbehind
    have hcov := (B.covered_iff h hid hexists hsize htbl hx).1 (hall x hx)
    exact hcov.resolve_left (by omega)
  · intro hcond x hx
    rw [B.covered_iff h hid hexists hsize htbl hx]
    rcases hcond with hpages | hbefore
    · left
      obtain ⟨-, hhigh⟩ := hx
      unfold Region.InPages Region.mappedEnd at *
      omega
    · by_cases hlt : x.toNat < r.mappedEnd
      · exact Or.inl hlt
      · exact Or.inr (hbefore x hx (by omega))

end

namespace Boot

/-- The page tables after `init_kern_paging` on a machine with 127 MiB above the first. -/
def somePaging : Paging := .initKernPaging (earlyPages someLayout 130048) fun _ => 0#32

/-- The first and the last byte of a page. -/
theorem region_covered_page :
    (bitmap someLayout 130048).Covered
        (somePaging.memAllocRegion (earlyPages someLayout 130048) (bitmap someLayout 130048).array
          (rsdtRegion 0x07E01000#32)).2 0x07E01000#32 ∧
      (bitmap someLayout 130048).Covered
        (somePaging.memAllocRegion (earlyPages someLayout 130048) (bitmap someLayout 130048).array
          (rsdtRegion 0x07E01000#32)).2 0x07E01FFF#32 := by
  obtain ⟨slots, h, -⟩ :=
    Paging.implements_initKernPaging (earlyPages someLayout 130048) fun _ => 0#32
  have hall : ∀ x, (rsdtRegion 0x07E01000#32).Contains x → (bitmap someLayout 130048).Covered
      (somePaging.memAllocRegion (earlyPages someLayout 130048) (bitmap someLayout 130048).array
        (rsdtRegion 0x07E01000#32)).2 x :=
    (region_covered_iff (bitmap someLayout 130048) h (by decide) (by decide) (by decide +kernel)
      (by decide +kernel)).2 (Or.inl (by decide +kernel))
  constructor
  · exact hall 0x07E01000#32 (by unfold Region.Contains; decide +kernel)
  · exact hall 0x07E01FFF#32 (by unfold Region.Contains; decide +kernel)

/-- **The end of the RSDT is not mapped.** The firmware has put it in the middle of a page, and the
4096 bytes from there on end on the next page. -/
theorem region_not_covered :
    (rsdtRegion 0x07E01550#32).Contains 0x07E02000#32 ∧ ¬ (bitmap someLayout 130048).Covered
      (somePaging.memAllocRegion (earlyPages someLayout 130048) (bitmap someLayout 130048).array
        (rsdtRegion 0x07E01550#32)).2 0x07E02000#32 := by
  obtain ⟨slots, h, -⟩ :=
    Paging.implements_initKernPaging (earlyPages someLayout 130048) fun _ => 0#32
  have hin : (rsdtRegion 0x07E01550#32).Contains 0x07E02000#32 := by
    unfold Region.Contains
    decide +kernel
  refine ⟨hin, fun hcov => ?_⟩
  rw [somePaging,
    (bitmap someLayout 130048).covered_iff h (by decide) (by decide) (by decide +kernel)
    (by decide +kernel) hin] at hcov
  rcases hcov with hlt | ⟨⟨e, hwalk, -⟩, -⟩
  · exact absurd hlt (by decide +kernel)
  · have hnone : AddressMap.boot (pageNumber 0x07E02000#32) = none := by decide +kernel
    rw [h.walk, hnone] at hwalk
    cases hwalk

end Boot

/-! ## Access rights -/

/-- What an access to a page may do, and how it is cached. -/
structure Rights where
  readWrite : Bool
  allAccess : Bool
  writeThrough : Bool
  cacheDisable : Bool
  deriving DecidableEq, Repr

/-- The rights that the processor enforces for an address: a page is writable, or open to all rings,
if both the directory entry and the table entry say so. The cache bits are those of the table
entry. -/
def Paging.rights (s : Paging) (x : BitVec 32) : Option Rights :=
  let pde := s.dirEntry (pdIndex x)
  (s.walk x).map fun e =>
    ⟨pde.getLsbD 1 && e.readWrite, pde.getLsbD 2 && e.allAccess, e.writeThrough, e.cacheDisable⟩

/-- The rights that the flags of `mem_alloc_region` ask for. -/
def Region.requested (r : Region) : Rights where
  readWrite := r.flags &&& MEM_READWRITE != 0#8
  allAccess := r.flags &&& MEM_ALLACCESS != 0#8
  writeThrough := r.flags &&& MEM_WRITETHROUGH != 0#8
  cacheDisable := r.flags &&& MEM_CACHEDISABLE != 0#8

/-- What is left of the flags for `map_kern_page_flags`. -/
theorem Region.getLsbD_mapFlags (r : Region) :
    r.mapFlags.getLsbD 0 = r.requested.readWrite ∧ r.mapFlags.getLsbD 1 = false ∧
      r.mapFlags.getLsbD 2 = r.requested.writeThrough ∧
      r.mapFlags.getLsbD 3 = r.requested.cacheDisable := by
  obtain ⟨p, size, flags⟩ := r
  -- the address and the size play no part, which leaves 256 cases
  show (Region.mk 0#32 0#32 flags).mapFlags.getLsbD 0 =
    (Region.mk 0#32 0#32 flags).requested.readWrite ∧
    (Region.mk 0#32 0#32 flags).mapFlags.getLsbD 1 = false ∧
    (Region.mk 0#32 0#32 flags).mapFlags.getLsbD 2 =
      (Region.mk 0#32 0#32 flags).requested.writeThrough ∧
    (Region.mk 0#32 0#32 flags).mapFlags.getLsbD 3 =
      (Region.mk 0#32 0#32 flags).requested.cacheDisable
  revert flags
  decide +kernel

/-! The marks of a call go to the table of the physical pages, or behind it: a page of the table has
room for bits that the table does not have. What they must not do is to hit a page directory or a
page table in use, or one that the call itself adds. -/

/-- The word of the memory that the mark of a frame changes. -/
def markAddr (array : Nat) (physAddr : BitVec 32) : BitVec 32 :=
  BitVec.ofNat 32 ((array + physAddrToPageIndex physAddr / 8) / 4 * 4)

namespace Region

/-- The slots of the directory that the pages of the region need and that are empty. -/
def newSlots (r : Region) (s : Paging) : List Nat :=
  ((List.range r.numPages).map fun i =>
    pdIndex (r.virtAddr + BitVec.ofNat 32 (PAGE_SIZE * i))).dedup.filter
      fun d => s.dirEntry d = 0#32

/-- No mark of the region is in a page of the page directory, of a page table, or of a page table
that the region adds. -/
def MarksApart (early : EarlyPages) (array : Nat) (r : Region) (s : Paging) : Prop :=
  ∀ i, i < r.numPages → Paging.Outside early (s.taken + (r.newSlots s).length)
    (markAddr array (r.physAddr + BitVec.ofNat 32 (PAGE_SIZE * i)))

instance (early : EarlyPages) (array : Nat) (r : Region) (s : Paging) :
    Decidable (r.MarksApart early array s) :=
  inferInstanceAs (Decidable (∀ i, i < r.numPages → _))

theorem length_newSlots_le (r : Region) (s : Paging) : (r.newSlots s).length ≤ r.numPages := by
  calc (r.newSlots s).length
      ≤ (((List.range r.numPages).map fun i =>
          pdIndex (r.virtAddr + BitVec.ofNat 32 (PAGE_SIZE * i))).dedup).length :=
        List.length_filter_le _ _
    _ ≤ ((List.range r.numPages).map fun i =>
          pdIndex (r.virtAddr + BitVec.ofNat 32 (PAGE_SIZE * i))).length :=
        (List.dedup_sublist _).length_le
    _ = r.numPages := by rw [List.length_map, List.length_range]

end Region

section

variable {early : EarlyPages} {s : Paging} {slots : List Nat} {m : AddressMap} {r : Region}

/-- **The directory entries close every page to the other rings**, and leave the rest to the table
entry. -/
theorem Paging.Implements.rights (h : s.Implements early slots m) (x : BitVec 32) :
    s.rights x =
      (m (pageNumber x)).map fun e => ⟨e.readWrite, false, e.writeThrough, e.cacheDisable⟩ := by
  rw [Paging.rights, h.walk, h.entry _ (pdIndex_lt x)]
  cases hk : pageOf slots (pdIndex x) with
  | none =>
      rw [pageNumber_eq, h.empty _ (pdIndex_lt x) (pageOf_eq_none.1 hk) _ (ptIndex_lt x)]
      rfl
  | some k =>
      have hpage := h.page_aligned hk
      have hwrite : (pageDirEntry (early.page k) 1 0 0 0 0).getLsbD 1 = true := by
        rw [getLsbD_pageDirEntry hpage (by decide), decide_eq_true (by decide), Bool.or_true]
      have huser : (pageDirEntry (early.page k) 1 0 0 0 0).getLsbD 2 = false := by
        rw [getLsbD_pageDirEntry hpage (by decide), getLsbD_of_aligned hpage (by decide)]
        rfl
      simp only [Option.elim_some, hwrite, huser, Bool.true_and, Bool.false_and]

/-- **The loop, with marks apart from the tables.** The list `T` has every slot that is in use or
that a page of the loop needs, so that the tables never take more pages than it has slots, and
one. -/
theorem Paging.Implements.memAllocPages {array : Nat} {T : List Nat} (flags : BitVec 8) {n : Nat}
    {v p : BitVec 32} (h : s.Implements early slots m) (hsub : slots ⊆ T)
    (hneed : ∀ i, i < n → pdIndex (v + BitVec.ofNat 32 (PAGE_SIZE * i)) ∈ T)
    (hmarks : ∀ i, i < n → Paging.Outside early (T.length + 1)
      (markAddr array (p + BitVec.ofNat 32 (PAGE_SIZE * i)))) :
    ∃ slots', (s.memAllocPages early array flags n v p).Implements early slots'
      (AddressMap.mapPages flags n v p m) := by
  induction n generalizing v p s slots m with
  | zero => exact ⟨slots, h⟩
  | succ n ih =>
      have hfirst : ∀ x : BitVec 32, x + BitVec.ofNat 32 (PAGE_SIZE * 0) = x := by simp
      obtain ⟨slots₁, h₁, hmem⟩ := h.exec (.mapKernPageFlags v p flags)
      have hsub₁ : slots₁ ⊆ T := by
        intro d hd
        rcases (hmem d).1 hd with rfl | hold
        · have hv := hneed 0 (by omega)
          rwa [hfirst] at hv
        · exact hsub hold
      -- the mark of this page comes after the page is mapped
      have hlen : slots₁.length ≤ T.length := (h₁.nodup.subperm hsub₁).length_le
      have hout := hmarks 0 (by omega)
      rw [hfirst] at hout
      have hstore := h₁.store_outside (hout.mono (by rw [h₁.taken]; omega))
      refine ih (hstore _) hsub₁ (fun i hi => ?_) fun i hi => ?_
      · rw [← add_page_succ]
        exact hneed (i + 1) (by omega)
      · rw [← add_page_succ]
        exact hmarks (i + 1) (by omega)

theorem Paging.Implements.memAllocRegion {array : Nat} (h : s.Implements early slots m)
    (haccept : s.rejects array r = false) (hapart : r.MarksApart early array s) :
    ∃ slots', (s.memAllocRegion early array r).2.Implements early slots'
      (AddressMap.mapPages r.mapFlags r.numPages r.virtAddr r.physAddr m) := by
  rw [Paging.memAllocRegion, haccept, if_neg Bool.false_ne_true]
  refine h.memAllocPages (T := slots ++ r.newSlots s) r.mapFlags (List.subset_append_left _ _)
    (fun i hi => ?_) fun i hi => ?_
  · -- the slot of a page has a table, or it is one of the new slots
    rw [List.mem_append]
    by_cases hzero : s.dirEntry (pdIndex (r.virtAddr + BitVec.ofNat 32 (PAGE_SIZE * i))) = 0#32
    · right
      rw [Region.newSlots, List.mem_filter, List.mem_dedup, List.mem_map]
      exact ⟨⟨i, List.mem_range.2 hi, rfl⟩, decide_eq_true hzero⟩
    · left
      rw [h.dirEntry_eq_zero (pdIndex_lt _), not_not] at hzero
      exact hzero
  · refine (hapart i hi).mono ?_
    rw [List.length_append, h.taken]
    omega

/-- The rights of a page that `mem_alloc_region` has mapped: those that were asked for, without
access for the other rings. -/
theorem Paging.Implements.rights_memAllocRegion {array : Nat} (h : s.Implements early slots m)
    (haccept : s.rejects array r = false) (hapart : r.MarksApart early array s) {k : Nat}
    (hk : k < r.numPages) {x : BitVec 32}
    (hx : pageNumber x = pageNumber (r.virtAddr + BitVec.ofNat 32 (PAGE_SIZE * k))) :
    (s.memAllocRegion early array r).2.rights x = some { r.requested with allAccess := false } := by
  obtain ⟨slots', h'⟩ := h.memAllocRegion haccept hapart
  obtain ⟨hrw, -, hwt, hcd⟩ := r.getLsbD_mapFlags
  have hle := r.numPages_le
  rw [h'.rights, AddressMap.mapPages_apply _ hle _ _ _ (pageNumber_lt x), hx,
    pageOffset_add_page (by omega), if_pos hk]
  simp only [Option.map_some, Paging.MapCall.mapping, hrw, hwt, hcd]

/-- **Which access rights take effect.** For every state of the memory with page tables, whatever
was mapped before, every table of the physical pages, and every region that `mem_alloc_region`
accepts and whose marks miss the page directory and the page tables: each page that is mapped has
the rights that were asked for exactly if access for all rings was not, or there is no page. -/
theorem region_rights_iff {array : Nat} (h : s.Implements early slots m)
    (haccept : s.rejects array r = false) (hapart : r.MarksApart early array s) :
    (∀ k, k < r.numPages → ∀ x,
      pageNumber x = pageNumber (r.virtAddr + BitVec.ofNat 32 (PAGE_SIZE * k)) →
      (s.memAllocRegion early array r).2.rights x = some r.requested) ↔
    r.flags &&& MEM_ALLACCESS = 0#8 ∨ r.numPages = 0 := by
  constructor
  · intro hall
    by_cases hzero : r.numPages = 0
    · exact Or.inr hzero
    · left
      have hfirst := hall 0 (by omega) _ rfl
      rw [h.rights_memAllocRegion haccept hapart (by omega) rfl, Option.some.injEq] at hfirst
      have hall' : r.requested.allAccess = false := (congrArg Rights.allAccess hfirst).symm
      simpa [Region.requested] using hall'
  · rintro (hflag | hzero) k hk x hx
    · have hno : r.requested.allAccess = false := by simp [Region.requested, hflag]
      rw [h.rights_memAllocRegion haccept hapart hk hx, ← hno]
    · omega

end

namespace Boot

/-- A writable region that is not cached, on a machine after `init_kern_paging`. -/
def deviceRegion (flags : BitVec 8) : Region :=
  ⟨0x07E00000#32, 0x2000#32, MEM_READWRITE ||| MEM_CACHEDISABLE ||| MEM_IDENTITYREGION |||
    MEM_ALREADYEXISTS ||| flags⟩

theorem accepts_deviceRegion (flags : BitVec 8) (s : Paging) (array : Nat) :
    s.rejects array (deviceRegion flags) = false := by
  have hexists : (deviceRegion flags).alreadyExists = true := by
    show ((MEM_READWRITE ||| MEM_CACHEDISABLE ||| MEM_IDENTITYREGION ||| MEM_ALREADYEXISTS |||
      flags) &&& MEM_ALREADYEXISTS != 0#8) = true
    revert flags
    decide +kernel
  rw [Paging.rejects, hexists]
  rfl

/-- After `init_kern_paging` the directory and three page tables are in use. -/
theorem marksApart_of_bound {L : BootLayout} {memUpper array : Nat} {r : Region}
    (mem : BitVec 32 → BitVec 32)
    (hout : ∀ i, i < r.numPages → Paging.Outside (earlyPages L memUpper) (4 + r.numPages)
      (markAddr array (r.physAddr + BitVec.ofNat 32 (PAGE_SIZE * i)))) :
    r.MarksApart (earlyPages L memUpper) array
      (Paging.initKernPaging (earlyPages L memUpper) mem) := by
  intro i hi
  have hnew := r.length_newSlots_le (Paging.initKernPaging (earlyPages L memUpper) mem)
  exact (hout i hi).mono (by rw [Paging.taken_initKernPaging]; omega)

/-- A page of two, writable and not cached; and the page of the RSDT that `init_acpi` maps on a
machine with 126.875 MiB above the first. The mark of the latter is behind the table and before the
directory. -/
theorem region_rights_device :
    (somePaging.memAllocRegion (earlyPages someLayout 130048) (bitmap someLayout 130048).array
      (deviceRegion 0#8)).2.rights 0x07E01000#32 = some ⟨true, false, false, true⟩ ∧
    ¬ (rsdtRegion 0x07FE1550#32).InTable (bitmap someLayout 129920).array
      (bitmap someLayout 129920).size
      (Paging.initKernPaging (earlyPages someLayout 129920) fun _ => 0#32) ∧
    ((Paging.initKernPaging (earlyPages someLayout 129920) fun _ => 0#32).memAllocRegion
      (earlyPages someLayout 129920) (bitmap someLayout 129920).array
      (rsdtRegion 0x07FE1550#32)).2.rights 0x07FE1550#32 = some ⟨false, false, false, false⟩ := by
  refine ⟨?_, ?_, ?_⟩
  · obtain ⟨slots, h, -⟩ :=
      Paging.implements_initKernPaging (earlyPages someLayout 130048) fun _ => 0#32
    have haccept := accepts_deviceRegion 0#8 somePaging (bitmap someLayout 130048).array
    exact (region_rights_iff h haccept (marksApart_of_bound _ (by decide +kernel))).2
      (Or.inl (by decide)) 1 (by decide +kernel) _ (by decide +kernel)
  · intro hin
    have hfirst : (0x07FE1550#32).toNat / 4096 + 1 ≤ 8 * (bitmap someLayout 129920).size :=
      (Nat.add_le_add_left (le_max_left _ _) _).trans hin
    exact absurd hfirst (by decide +kernel)
  · obtain ⟨slots, h, -⟩ :=
      Paging.implements_initKernPaging (earlyPages someLayout 129920) fun _ => 0#32
    exact (region_rights_iff h (by rfl) (marksApart_of_bound _ (by decide +kernel))).2
      (Or.inl (by decide)) 0 (by decide +kernel) _ (by decide +kernel)

/-- **`MEM_ALLACCESS` has no effect.** The region is mapped as if the flag were not set. -/
theorem region_rights_lost :
    (deviceRegion MEM_ALLACCESS).requested = ⟨true, true, false, true⟩ ∧
      (somePaging.memAllocRegion (earlyPages someLayout 130048) (bitmap someLayout 130048).array
        (deviceRegion MEM_ALLACCESS)).2.rights 0x07E01000#32 = some ⟨true, false, false, true⟩ := by
  obtain ⟨slots, h, -⟩ :=
    Paging.implements_initKernPaging (earlyPages someLayout 130048) fun _ => 0#32
  have haccept := accepts_deviceRegion MEM_ALLACCESS somePaging (bitmap someLayout 130048).array
  refine ⟨by decide, ?_⟩
  exact h.rights_memAllocRegion haccept (marksApart_of_bound _ (by decide +kernel)) (k := 1)
    (by decide +kernel) (by decide +kernel)

end Boot

end NowOS

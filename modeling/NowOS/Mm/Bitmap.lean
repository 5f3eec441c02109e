import NowOS.Mm.Boot

set_option autoImplicit false

/-! # The table of the physical pages and the page tables in one memory

`Mm/Region.lean` keeps `phys_mem_tbl` apart from the page tables. In the machine both are in the
early heap, the page directory and the page tables right behind the table, and neither `mem_set_tbl`
nor `mem_check_tbl` looks at the size of the table. Here `mem_alloc_region` runs on the one memory.
It simulates the model with the table apart as long as the marks stay in the table, and this module
says for which regions they do. -/

namespace NowOS

open Boot (setTblWord)

/-! ## The functions of the source on one memory -/

namespace Paging

/-- The byte at an address. -/
def byte (s : Paging) (addr : Nat) : BitVec 8 :=
  (s.mem (BitVec.ofNat 32 (addr / 4 * 4))).extractLsb' (8 * (addr % 4)) 8

/-- The bit that `byte_index_check_tbl` returns, for a table at the physical address `array`. -/
def tblBit (array index : Nat) (s : Paging) : Bool :=
  (s.byte (array + index / 8)).getLsbD (index % 8)

variable (early : EarlyPages) (array : Nat)

/-- The loop of `mem_alloc_region`, with `n` pages left. -/
def memAllocPages (mapFlags : BitVec 8) : Nat → BitVec 32 → BitVec 32 → Paging → Paging
  | 0, _, _, s => s
  | n + 1, virtAddr, physAddr, s =>
      memAllocPages mapFlags n (virtAddr + BitVec.ofNat 32 PAGE_SIZE)
        (physAddr + BitVec.ofNat 32 PAGE_SIZE)
        (setTblWord array physAddr (s.mapKernPageFlags early virtAddr physAddr mapFlags))

/-- `mem_alloc_region` returns `NULL` without doing anything. -/
def rejects (r : Region) (s : Paging) : Bool :=
  !r.alreadyExists && s.tblBit array (physAddrToPageIndex r.physAddr)

/-- `mem_alloc_region`; `0` is `NULL`. -/
def memAllocRegion (r : Region) (s : Paging) : BitVec 32 × Paging :=
  if s.rejects array r then (0#32, s)
  else (r.virtAddr, s.memAllocPages early array r.mapFlags r.numPages r.virtAddr r.physAddr)

end Paging

/-- The bytes of the table that the loop of `mem_alloc_region` reads and writes. -/
def loopAccesses : Nat → BitVec 32 → List Nat
  | 0, _ => []
  | n + 1, physAddr =>
      physAddrToPageIndex physAddr / 8 :: loopAccesses n (physAddr + BitVec.ofNat 32 PAGE_SIZE)

/-- The bytes of the table that `mem_alloc_region` reads or writes. The operator between the two
conditions is `&`, so that `mem_check_tbl` is called whatever the flags are. -/
def Region.tblAccesses (array : Nat) (r : Region) (s : Paging) : List Nat :=
  physAddrToPageIndex r.physAddr / 8 ::
    if s.rejects array r then [] else loopAccesses r.numPages r.physAddr

/-! ## One mark -/

namespace Paging

variable {early : EarlyPages} {s : Paging} {slots : List Nat} {m : AddressMap}

theorem getLsbD_byte (s : Paging) (addr : Nat) {i : Nat} (hi : i < 8) :
    (s.byte addr).getLsbD i =
      (s.mem (BitVec.ofNat 32 (addr / 4 * 4))).getLsbD (8 * (addr % 4) + i) := by
  rw [byte, BitVec.getLsbD_extractLsb', decide_eq_true hi, Bool.true_and]

/-- **`mem_set_tbl` sets one bit of one byte.** -/
theorem byte_setTblWord {array addr : Nat} (p : BitVec 32) (haddr : addr < W32)
    (hin : array + p.toNat / 4096 / 8 < W32) (s : Paging) :
    (setTblWord array p s).byte addr =
      if addr = array + p.toNat / 4096 / 8 then s.byte addr ||| 1#8 <<< (p.toNat / 4096 % 8)
      else s.byte addr := by
  unfold W32 at haddr hin
  have hword : BitVec.ofNat 32 (addr / 4 * 4) =
        BitVec.ofNat 32 ((array + p.toNat / 4096 / 8) / 4 * 4) ↔
      addr / 4 = (array + p.toNat / 4096 / 8) / 4 := by
    rw [← BitVec.toNat_inj, BitVec.toNat_ofNat, BitVec.toNat_ofNat]
    omega
  apply BitVec.eq_of_getLsbD_eq
  intro i hi
  rw [getLsbD_byte _ _ hi]
  simp only [setTblWord, Paging.store, physAddrToPageIndex_eq, Function.update_apply, hword]
  by_cases hbyte : addr = array + p.toNat / 4096 / 8
  · rw [if_pos (by rw [hbyte]), if_pos hbyte, ← hbyte, BitVec.getLsbD_or, BitVec.getLsbD_or,
      getLsbD_byte _ _ hi, getLsbD_one_shiftLeft hi, getLsbD_one_shiftLeft (by omega)]
    congr 2
    exact propext (Nat.add_left_cancel_iff)
  · rw [if_neg hbyte, getLsbD_byte _ _ hi]
    by_cases hsame : addr / 4 = (array + p.toNat / 4096 / 8) / 4
    · -- another byte of the same word
      rw [if_pos hsame, ← hsame, BitVec.getLsbD_or, getLsbD_one_shiftLeft (by omega),
        decide_eq_false (by omega), Bool.or_false]
    · rw [if_neg hsame]

/-- A mark in the table, bit by bit. -/
theorem tblBit_setTblWord {array j : Nat} (p : BitVec 32) (hj : array + j / 8 < W32)
    (hin : array + p.toNat / 4096 / 8 < W32) (s : Paging) :
    (setTblWord array p s).tblBit array j = (s.tblBit array j || decide (j = p.toNat / 4096)) := by
  have hlt : j % 8 < 8 := Nat.mod_lt _ (by decide)
  unfold tblBit
  rw [byte_setTblWord p hj hin]
  by_cases hbyte : j / 8 = p.toNat / 4096 / 8
  · rw [if_pos (by rw [hbyte]), BitVec.getLsbD_or, getLsbD_one_shiftLeft hlt]
    have hiff : j % 8 = p.toNat / 4096 % 8 ↔ j = p.toNat / 4096 := by omega
    rw [decide_eq_decide.2 hiff]
  · have hne : j ≠ p.toNat / 4096 := fun h => hbyte (by rw [h])
    rw [if_neg (by omega), decide_eq_false hne, Bool.or_false]

/-! ## What is not in a page of the tables -/

/-- The address is in none of the first `n` pages that the early heap hands out. The page directory
and the page tables are in the first `taken` pages, and there are never more than 1025 of them. -/
def Outside (early : EarlyPages) (n : Nat) (a : BitVec 32) : Prop :=
  ∀ k, k < n → ¬ ((early.page k).toNat ≤ a.toNat ∧ a.toNat < (early.page k).toNat + 4096)

instance (n : Nat) (a : BitVec 32) : Decidable (Outside early n a) :=
  inferInstanceAs (Decidable (∀ k, k < n → _))

theorem Outside.mono {n n' : Nat} {a : BitVec 32} (ha : Outside early n a) (hn : n' ≤ n) :
    Outside early n' a := fun k hk => ha k (by omega)

theorem Outside.ne_entryAddr {n : Nat} {a : BitVec 32} (ha : Outside early n a) {k i : Nat}
    (hkn : k < n) (hk : k ≤ 1024) (hi : i < 1024) : a ≠ entryAddr (early.page k) i := by
  rintro rfl
  have haddr := toNat_entryAddr (early.aligned k hk) hi
  exact ha k hkn (by omega)

/-- A store outside of the pages that are in use changes no table. -/
theorem Implements.store_outside (h : Implements early s slots m) {a : BitVec 32}
    (ha : Outside early s.taken a) (w : BitVec 32) : Implements early (s.store a w) slots m := by
  have hlen := h.length_le
  rw [h.taken] at ha
  have hkeep : ∀ k, k ≤ slots.length → ∀ i, i < 1024 →
      (s.store a w).mem (entryAddr (early.page k) i) = s.mem (entryAddr (early.page k) i) :=
    fun k hk i hi =>
      Function.update_of_ne (ha.ne_entryAddr (by omega) (by omega) hi).symm _ _
  refine ⟨h.dir, h.taken, h.nodup, h.lt, ?_, ?_, h.empty⟩
  · intro d hd
    rw [← h.entry d hd]
    show (s.store a w).mem (entryAddr s.kernelDir d) = s.mem (entryAddr s.kernelDir d)
    rw [h.dir]
    exact hkeep 0 (Nat.zero_le _) d hd
  · intro d k hk t ht
    have hbounds := pageOf_bounds hk
    rw [hkeep k (by omega) t ht]
    exact h.table d k hk t ht

/-- Mapping a page writes in the pages of the tables only. -/
theorem Implements.newTable_outside (h : Implements early s slots m) {d : Nat} (hd : d < 1024)
    {a : BitVec 32} (ha : Outside early 1025 a) : (s.newTable early d).mem a = s.mem a := by
  unfold Paging.newTable
  by_cases hzero : s.dirEntry d = 0#32
  · have hlen := h.length_lt hd ((h.dirEntry_eq_zero hd).1 hzero)
    have hdir : a ≠ entryAddr s.kernelDir d := by
      rw [h.dir]
      exact ha.ne_entryAddr (by decide) (by decide) hd
    simp only [hzero, if_true, newPage, h.taken, clearPage_kernelDir]
    calc ((clearPage (early.page (slots.length + 1)) { s with taken := slots.length + 1 + 1 }).store
          (entryAddr s.kernelDir d) (pageDirEntry (early.page (slots.length + 1)) 1 0 0 0 0)).mem a
        = (clearPage (early.page (slots.length + 1))
            { s with taken := slots.length + 1 + 1 }).mem a :=
          Function.update_of_ne hdir _ _
      _ = s.mem a := if_neg (ha _ (by omega))
  · rw [if_neg hzero]

theorem Implements.setEntry_outside (h : Implements early s slots m) (v w : BitVec 32)
    {a : BitVec 32} (ha : Outside early 1025 a) : (s.setEntry early v w).mem a = s.mem a := by
  obtain ⟨slots', h', hmem⟩ := h.newTable (pdIndex_lt v)
  obtain ⟨k, hk⟩ : ∃ k, pageOf slots' (pdIndex v) = some k := by
    cases hk : pageOf slots' (pdIndex v) with
    | none => exact absurd ((hmem _).2 (Or.inl rfl)) (pageOf_eq_none.1 hk)
    | some k => exact ⟨k, rfl⟩
  have hbounds := pageOf_bounds hk
  have hlen := h'.length_le
  have htbl : getTblPhysAddr ((s.newTable early (pdIndex v)).dirEntry (pdIndex v)) =
      early.page k := by
    rw [h'.entry _ (pdIndex_lt v), hk]
    exact (pageDirEntry_and (h'.page_aligned hk)).2
  calc (s.setEntry early v w).mem a
      = ((s.newTable early (pdIndex v)).store (entryAddr (early.page k) (ptIndex v)) w).mem a := by
        rw [Paging.setEntry, htbl]
    _ = (s.newTable early (pdIndex v)).mem a :=
        Function.update_of_ne (ha.ne_entryAddr (by omega) (by omega) (ptIndex_lt v)) _ _
    _ = s.mem a := h.newTable_outside (pdIndex_lt v) ha

end Paging

/-! ## The table in memory -/

/-- `ALIGN_DOWN` wraps around before a table is large enough for all pages. -/
theorem memTblSize_lt {physSize : Nat} (h : physSize < W32) : memTblSize physSize < 131072 := by
  rw [PhysMem.memTblSize_eq h]
  split <;> omega

/-- **Where the table of the physical pages is**: its physical address and its size, apart from the
pages of the page directory and the page tables. It does not reach up to the last page of the
address space. -/
structure Bitmap (early : EarlyPages) where
  array : Nat
  size : Nat
  size_lt : size < 131072
  fits : array + size ≤ W32
  apart : ∀ k, k ≤ 1024 →
    (early.page k).toNat + 4096 ≤ array ∨ array + size ≤ (early.page k).toNat

/-- The table that `init_mem_manager` takes from the early heap. -/
def Boot.bitmap (L : BootLayout) (memUpper : Nat) : Bitmap (Boot.earlyPages L memUpper) where
  array := L.earlyHeapBottom - KERN_VIRTUAL_ADDR
  size := memTblSize (Boot.memLimit memUpper)
  size_lt := memTblSize_lt (mul32_lt memUpper 1024)
  fits := by
    have := PhysMem.memTblSize_le (mul32_lt memUpper 1024)
    have := L.fits
    have := L.higher_half
    unfold Boot.memLimit KERN_VIRTUAL_ADDR at *
    omega
  apart k hk := by
    have hpage := Boot.toNat_page L memUpper hk
    have hhalf := L.higher_half
    right
    rw [hpage]
    unfold Boot.pagesBottom Boot.tblPages
    omega

namespace Bitmap

variable {early : EarlyPages} (B : Bitmap early)

/-- The words of the table are outside of the pages. -/
theorem outside {b : Nat} (hlow : B.array ≤ b) (hhigh : b < B.array + B.size) :
    Paging.Outside early 1025 (BitVec.ofNat 32 (b / 4 * 4)) := by
  intro k hlt
  have hk : k ≤ 1024 := by omega
  have hfits := B.fits
  have hal := early.aligned k hk
  have hlt := (early.page k).isLt
  rw [BitVec.toNat_ofNat]
  unfold W32 at hfits
  rcases B.apart k hk with hap | hap
  · omega
  · omega

/-- **One memory and the model with the table apart**: the memory holds page tables for the same
address map, and the bits of the table. -/
structure Holds (m : AddressMap) (s : Paging) (t : MemState) : Prop where
  memory : ∃ slots, s.Implements early slots m
  tables : ∃ slots, t.paging.Implements early slots m
  marks : ∀ j, j < 8 * B.size → s.tblBit B.array j = t.tbl.bit j

/-- The table that is in the memory. -/
def view (s : Paging) : MemState := ⟨⟨fun i => s.byte (B.array + i), B.size, 0⟩, s⟩

theorem holds_view {s : Paging} {slots : List Nat} {m : AddressMap}
    (h : s.Implements early slots m) :
    B.Holds m s (B.view s) :=
  ⟨⟨slots, h⟩, ⟨slots, h⟩, fun _ _ => rfl⟩

/-! ## The model with the table apart is simulated -/

/-- A mark in the table is a mark in the memory, and changes no page table. -/
theorem Holds.mark {m : AddressMap} {s : Paging} {t : MemState} (h : B.Holds m s t) {p : BitVec 32}
    (hp : p.toNat / 4096 / 8 < B.size) :
    B.Holds m (setTblWord B.array p s) { t with tbl := memSetTbl p t.tbl } := by
  have hfits := B.fits
  obtain ⟨slots, hs⟩ := h.memory
  refine ⟨⟨slots, ?_⟩, h.tables, ?_⟩
  · have hout := B.outside (b := B.array + p.toNat / 4096 / 8) (by omega) (by omega)
    rw [← physAddrToPageIndex_eq] at hout
    have hlen := hs.length_le
    exact hs.store_outside (hout.mono (by rw [hs.taken]; omega)) _
  · intro j hj
    rw [Paging.tblBit_setTblWord p (by omega) (by omega), bit_memSetTbl, h.marks j hj]

/-- A page that is mapped changes no bit of the table. -/
theorem Holds.mapPage {m : AddressMap} {s : Paging} {t : MemState} (h : B.Holds m s t)
    (v p : BitVec 32) (flags : BitVec 8) :
    B.Holds (Function.update m (pageNumber v)
      (some (Paging.MapCall.mapKernPageFlags v p flags).mapping))
      (s.mapKernPageFlags early v p flags)
      { t with paging := t.paging.mapKernPageFlags early v p flags } := by
  obtain ⟨slots, hs⟩ := h.memory
  obtain ⟨slots₂, ht⟩ := h.tables
  obtain ⟨slots', hs', -⟩ := hs.exec (.mapKernPageFlags v p flags)
  obtain ⟨slots₂', ht', -⟩ := ht.exec (.mapKernPageFlags v p flags)
  refine ⟨⟨slots', hs'⟩, ⟨slots₂', ht'⟩, fun j hj => ?_⟩
  have hout := B.outside (b := B.array + j / 8) (by omega) (by omega)
  rw [← h.marks j hj]
  unfold Paging.tblBit Paging.byte Paging.mapKernPageFlags
  simp only [hs.setEntry_outside _ _ hout]

end Bitmap

/-- The address map after the loop of `mem_alloc_region`. -/
def AddressMap.mapPages (flags : BitVec 8) : Nat → BitVec 32 → BitVec 32 → AddressMap → AddressMap
  | 0, _, _, m => m
  | n + 1, v, p, m =>
      mapPages flags n (v + BitVec.ofNat 32 PAGE_SIZE) (p + BitVec.ofNat 32 PAGE_SIZE)
        (Function.update m (pageNumber v)
          (some (Paging.MapCall.mapKernPageFlags v p flags).mapping))

theorem mem_loopAccesses {n : Nat} {p : BitVec 32} {i : Nat} :
    i ∈ loopAccesses n p ↔
      ∃ k, k < n ∧ i = (p + BitVec.ofNat 32 (PAGE_SIZE * k)).toNat / 4096 / 8 := by
  induction n generalizing p with
  | zero => simp [loopAccesses]
  | succ n ih =>
      rw [loopAccesses, List.mem_cons, ih, physAddrToPageIndex_eq]
      exact (exists_page_succ p n fun x => i = x.toNat / 4096 / 8).symm

namespace Bitmap

variable {early : EarlyPages} (B : Bitmap early)

/-- The loop of `mem_alloc_region`, if its marks stay in the table. -/
theorem Holds.memAllocPages (flags : BitVec 8) (n : Nat) (v p : BitVec 32) {m : AddressMap}
    {s : Paging} {t : MemState} (h : B.Holds m s t) (hin : ∀ i ∈ loopAccesses n p, i < B.size) :
    B.Holds (AddressMap.mapPages flags n v p m) (s.memAllocPages early B.array flags n v p)
      (NowOS.memAllocPages early flags n v p t) := by
  induction n generalizing v p m s t with
  | zero => exact h
  | succ n ih =>
      have hfirst : p.toNat / 4096 / 8 < B.size := by
        rw [← physAddrToPageIndex_eq]
        exact hin _ (List.mem_cons_self ..)
      exact ih _ _ ((h.mapPage B v p flags).mark B hfirst)
        fun i hi => hin i (List.mem_cons_of_mem _ hi)

/-- Both models look at the same bit first. -/
theorem Holds.rejects_eq {m : AddressMap} {s : Paging} {t : MemState} (h : B.Holds m s t)
    {r : Region} (hin : ∀ i ∈ r.tblAccesses B.array s, i < B.size) :
    (!r.alreadyExists && memCheckTbl r.physAddr t.tbl) = s.rejects B.array r := by
  have hfirst : physAddrToPageIndex r.physAddr / 8 < B.size := hin _ (List.mem_cons_self ..)
  have hcheck : memCheckTbl r.physAddr t.tbl =
      s.tblBit B.array (physAddrToPageIndex r.physAddr) := by
    rw [memCheckTbl_eq, h.marks _ (by omega), physAddrToPageIndex_eq]
    show decide (t.tbl.bit (r.physAddr.toNat / 4096) = true) = _
    cases t.tbl.bit (r.physAddr.toNat / 4096) with
    | false => rfl
    | true => rfl
  rw [hcheck]
  rfl

/-- **Simulation.** If all the bytes of the table that `mem_alloc_region` touches are in it, the one
memory and the model with the table apart return the same and stay related. -/
theorem Holds.memAllocRegion {m : AddressMap} {s : Paging} {t : MemState} (h : B.Holds m s t)
    {r : Region} (hin : ∀ i ∈ r.tblAccesses B.array s, i < B.size) :
    (s.memAllocRegion early B.array r).1 = (NowOS.memAllocRegion early r t).1 ∧
      B.Holds (if s.rejects B.array r then m
          else AddressMap.mapPages r.mapFlags r.numPages r.virtAddr r.physAddr m)
        (s.memAllocRegion early B.array r).2 (NowOS.memAllocRegion early r t).2 := by
  unfold Paging.memAllocRegion NowOS.memAllocRegion
  rw [h.rejects_eq B hin]
  cases hrej : s.rejects B.array r with
  | true => exact ⟨rfl, h⟩
  | false =>
      refine ⟨rfl, h.memAllocPages B _ _ _ _ fun i hi => hin i ?_⟩
      rw [Region.tblAccesses, hrej]
      exact List.mem_cons_of_mem _ hi

end Bitmap

/-! ## The regions whose marks stay in the table -/

/-- The pages that `mem_alloc_region` marks: all pages of the region, or none. -/
def Region.markCount (array : Nat) (r : Region) (s : Paging) : Nat :=
  if s.rejects array r then 0 else r.numPages

/-- The first page of the region and those that are marked have bits in a table of `size` bytes. -/
def Region.InTable (array size : Nat) (r : Region) (s : Paging) : Prop :=
  r.physAddr.toNat / 4096 + max 1 (r.markCount array s) ≤ 8 * size

instance (array size : Nat) (r : Region) (s : Paging) : Decidable (r.InTable array size s) :=
  inferInstanceAs (Decidable (_ ≤ _))

theorem mem_tblAccesses {array : Nat} {r : Region} {s : Paging} {i : Nat} :
    i ∈ r.tblAccesses array s ↔ i = r.physAddr.toNat / 4096 / 8 ∨
      ∃ k, k < r.markCount array s ∧
        i = (r.physAddr + BitVec.ofNat 32 (PAGE_SIZE * k)).toNat / 4096 / 8 := by
  unfold Region.tblAccesses Region.markCount
  rw [List.mem_cons, physAddrToPageIndex_eq]
  cases s.rejects array r with
  | true => simp
  | false => simp [mem_loopAccesses]

/-- The frame of the `k`-th page of a region, without wrap-around. -/
theorem toNat_add_page {p : BitVec 32} {k : Nat} (h : p.toNat / 4096 + k < 1048576) :
    (p + BitVec.ofNat 32 (PAGE_SIZE * k)).toNat / 4096 = p.toNat / 4096 + k := by
  have hp := p.isLt
  rw [BitVec.toNat_add, BitVec.toNat_ofNat, PAGE_SIZE]
  omega

theorem tblAccesses_lt_iff {array size : Nat} (hsize : size < 131072) (r : Region) (s : Paging) :
    (∀ i ∈ r.tblAccesses array s, i < size) ↔ r.InTable array size s := by
  have hp := r.physAddr.isLt
  unfold Region.InTable
  constructor
  · intro hall
    have hfirst := hall _ (mem_tblAccesses.2 (Or.inl rfl))
    by_cases hwrap : r.physAddr.toNat / 4096 + r.markCount array s ≤ 1048576
    · by_cases hzero : r.markCount array s = 0
      · omega
      · have hlast := hall _ (mem_tblAccesses.2 (Or.inr ⟨r.markCount array s - 1, by omega, rfl⟩))
        rw [toNat_add_page (by omega)] at hlast
        omega
    · -- a region that wraps around has the last page of the address space
      have hlast := hall _ (mem_tblAccesses.2
        (Or.inr ⟨1048575 - r.physAddr.toNat / 4096, by omega, rfl⟩))
      rw [toNat_add_page (by omega)] at hlast
      omega
  · intro htbl i hi
    rcases mem_tblAccesses.1 hi with rfl | ⟨k, hk, rfl⟩
    · omega
    · rw [toNat_add_page (by omega)]
      omega

/-- **Marks touch the bitmap only** for the regions in it. For every memory size that
`init_mem_manager` is given and every region, the bytes of the table that `mem_alloc_region` reads
and writes are inside of the table exactly if the first page and the marked pages have bits in it.
Then no mark changes a byte outside of the table, whatever the memory holds. -/
theorem marks_in_table_iff {physSize array : Nat} (hphys : physSize < W32)
    (harray : array + memTblSize physSize ≤ W32) (r : Region) (s : Paging) :
    ((∀ i ∈ r.tblAccesses array s, i < memTblSize physSize) ↔
      r.InTable array (memTblSize physSize) s) ∧
    (r.InTable array (memTblSize physSize) s → ∀ k, k < r.markCount array s →
      ∀ s' addr, addr < W32 →
      ¬ (array ≤ addr ∧ addr < array + memTblSize physSize) →
      (setTblWord array (r.physAddr + BitVec.ofNat 32 (PAGE_SIZE * k)) s').byte addr =
        s'.byte addr) := by
  have hiff := @tblAccesses_lt_iff array (memTblSize physSize) (memTblSize_lt hphys) r s
  refine ⟨hiff, fun htbl k hk s' addr haddr hout => ?_⟩
  have hin := hiff.2 htbl _ (mem_tblAccesses.2 (Or.inr ⟨k, hk, rfl⟩))
  rw [Paging.byte_setTblWord _ haddr (by omega), if_neg (by omega)]

/-- A machine with 127 MiB, and a page that is in its table. -/
theorem marks_in_table_below :
    (Boot.rsdtRegion 0x07E01550#32).tblAccesses 0x110000 ⟨fun _ => 0#32, 0#32, 0⟩ = [4032, 4032] ∧
      ∀ i ∈ (Boot.rsdtRegion 0x07E01550#32).tblAccesses 0x110000 ⟨fun _ => 0#32, 0#32, 0⟩,
        i < memTblSize 0x07F00000 := by
  refine ⟨by decide +kernel, ?_⟩
  exact (@marks_in_table_iff 0x07F00000 0x110000 (by decide) (by decide +kernel) _ _).1.2
    (by decide +kernel)

/-- **A mark behind the table.** The boot loader reports memory up to `0x7EE0000`, so that the table
has 4060 bytes. The firmware has put the RSDT above that, and the bit for its page is in byte
4092. -/
theorem marks_behind_table :
    memTblSize 0x07EE0000 = 4060 ∧
      4092 ∈ (Boot.rsdtRegion 0x07FE1550#32).tblAccesses 0x110000 ⟨fun _ => 0#32, 0#32, 0⟩ ∧
      (setTblWord 0x110000 0x07FE1550#32 ⟨fun _ => 0#32, 0#32, 0⟩).byte (0x110000 + 4092) ≠
        Paging.byte ⟨fun _ => 0#32, 0#32, 0⟩ (0x110000 + 4092) := by
  decide +kernel

end NowOS

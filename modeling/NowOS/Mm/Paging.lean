import NowOS.Kdef

set_option autoImplicit false

/-! # Kernel page tables (`kernel/paging.c`)

The page directory and the page tables lie in physical memory, a page each, and are written through
their physical addresses. A directory slot gets its table from `early_kmalloc_pages` the first time
that a page behind it is mapped, and keeps it.

`AddressMap` says what the tables are for: which frame a virtual page leads to and with which
rights. `Paging.Implements` relates the words in memory to it, and `Paging.walk` is how the
processor reads them. -/

namespace NowOS

/-! ## The functions of the source -/

def PAGE_READWRITE : BitVec 32 := 1#32 <<< 0
def PAGE_ALLACCESS : BitVec 32 := 1#32 <<< 1
def PAGE_WRITETHROUGH : BitVec 32 := 1#32 <<< 2
def PAGE_CACHEDISABLE : BitVec 32 := 1#32 <<< 3

/-- The index of an address in the page directory. -/
def pdIndex (virtAddr : BitVec 32) : Nat := (virtAddr >>> 22).toNat

/-- The index of an address in its page table. -/
def ptIndex (virtAddr : BitVec 32) : Nat := (virtAddr >>> 12 &&& 0x3FF#32).toNat

/-- `GET_TBL_PHYS_ADDR(x)`. -/
def getTblPhysAddr (x : BitVec 32) : BitVec 32 := x &&& ~~~0x3FF#32

/-- The address of an entry of a page table or of the page directory. -/
def entryAddr (tbl : BitVec 32) (index : Nat) : BitVec 32 := tbl + BitVec.ofNat 32 (4 * index)

/-- The word that `set_page_dir_entry` stores. -/
def pageDirEntry (physAddr readWrite privledge writeThrough cacheDisabled pageSize : BitVec 32) :
    BitVec 32 :=
  let tempAddr := BitVec.ofNat 32 (alignUp physAddr.toNat PAGE_SIZE)
  tempAddr &&& ~~~0x3FF#32 ||| 1#32 ||| readWrite <<< 1 ||| privledge <<< 2 ||| writeThrough <<< 3
    ||| cacheDisabled <<< 4 ||| pageSize <<< 7

/-- The word that `set_page_tbl_entry` stores. The address that it rounds up is not used. -/
def pageTblEntry (physAddr readWrite privledge writeThrough cacheDisabled : BitVec 32) :
    BitVec 32 :=
  physAddr &&& ~~~0x3FF#32 ||| 1#32 ||| readWrite <<< 1 ||| privledge <<< 2 ||| writeThrough <<< 3
    ||| cacheDisabled <<< 4

/-- Physical memory by words, `kernel_dir`, and how many pages `early_kmalloc_pages` has handed
out. -/
structure Paging where
  mem : BitVec 32 → BitVec 32
  kernelDir : BitVec 32
  taken : Nat

/-- The pages that `early_kmalloc_pages` hands out, one after the other: the page directory and at
most one table for each of its slots. They are page-aligned, not at address zero, and different from
each other. -/
structure EarlyPages where
  page : Nat → BitVec 32
  aligned : ∀ k, k ≤ 1024 → (page k).toNat % 4096 = 0
  ne_zero : ∀ k, k ≤ 1024 → page k ≠ 0#32
  inj : ∀ j k, j ≤ 1024 → k ≤ 1024 → page j = page k → j = k

/-- Consecutive pages from 1 MiB + 96 KiB on. -/
def EarlyPages.lowPages : EarlyPages where
  page k := BitVec.ofNat 32 (0x118000 + 4096 * k)
  aligned k hk := by
    rw [BitVec.toNat_ofNat]
    omega
  ne_zero k hk h := by
    have hnat := congrArg BitVec.toNat h
    rw [BitVec.toNat_ofNat, BitVec.toNat_ofNat] at hnat
    omega
  inj j k hj hk h := by
    have hnat := congrArg BitVec.toNat h
    rw [BitVec.toNat_ofNat, BitVec.toNat_ofNat] at hnat
    omega

namespace Paging

/-- `*addr = word`. -/
def store (addr word : BitVec 32) (s : Paging) : Paging :=
  { s with mem := Function.update s.mem addr word }

/-- `memset(addr, 0, PAGE_SIZE)`. -/
def clearPage (addr : BitVec 32) (s : Paging) : Paging :=
  { s with
    mem := fun a => if addr.toNat ≤ a.toNat ∧ a.toNat < addr.toNat + PAGE_SIZE then 0#32
      else s.mem a }

/-- The entry of the page directory at an index. -/
def dirEntry (s : Paging) (pdindex : Nat) : BitVec 32 := s.mem (entryAddr s.kernelDir pdindex)

variable (early : EarlyPages)

/-- A page from `early_kmalloc_pages(1)`, cleared. -/
def newPage (s : Paging) : BitVec 32 × Paging :=
  let page := early.page s.taken
  (page, clearPage page { s with taken := s.taken + 1 })

/-- A directory slot that is zero gets a new page table. -/
def newTable (pdindex : Nat) (s : Paging) : Paging :=
  if s.dirEntry pdindex = 0#32 then
    let (tempPhysAddr, s) := s.newPage early
    s.store (entryAddr s.kernelDir pdindex) (pageDirEntry tempPhysAddr 1 0 0 0 0)
  else s

/-- The common part of `map_kern_page` and `map_kern_page_flags`. -/
def setEntry (virtualAddr entry : BitVec 32) (s : Paging) : Paging :=
  let s := s.newTable early (pdIndex virtualAddr)
  let tbl := getTblPhysAddr (s.dirEntry (pdIndex virtualAddr))
  s.store (entryAddr tbl (ptIndex virtualAddr)) entry

/-- `map_kern_page`. -/
def mapKernPage (virtualAddr physAddr : BitVec 32) (s : Paging) : Paging :=
  s.setEntry early virtualAddr (pageTblEntry physAddr 1 0 0 0)

/-- `map_kern_page_flags`. -/
def mapKernPageFlags (virtualAddr physAddr : BitVec 32) (flags : BitVec 8) (s : Paging) : Paging :=
  let flags := flags.setWidth 32
  let readWrite := (flags &&& PAGE_READWRITE) >>> 0
  let privledge := (flags &&& PAGE_ALLACCESS) >>> 1
  let writeThrough := (flags &&& PAGE_WRITETHROUGH) >>> 2
  let cacheDisabled := (flags &&& PAGE_CACHEDISABLE) >>> 3
  s.setEntry early virtualAddr
    (pageTblEntry physAddr readWrite privledge writeThrough cacheDisabled)

/-- `get_tbl_entry`; `0` is `NULL`. -/
def getTblEntry (virtAddr : BitVec 32) (s : Paging) : BitVec 32 :=
  let tbl := getTblPhysAddr (s.dirEntry (pdIndex virtAddr))
  if tbl = 0#32 then 0#32 else entryAddr tbl (ptIndex virtAddr)

/-- `init_kern_paging` up to the loops: the page directory is allocated and cleared. -/
def newDirectory (mem : BitVec 32 → BitVec 32) : Paging :=
  let (pageDirAddrPhys, s) := newPage early ⟨mem, 0, 0⟩
  { s with kernelDir := pageDirAddrPhys }

end Paging

/-! ## What the processor sees -/

/-- Where a virtual page leads, and the bits R/W, U/S, PWT and PCD of its entry. -/
structure Mapping where
  frame : BitVec 32
  readWrite : Bool
  allAccess : Bool
  writeThrough : Bool
  cacheDisable : Bool
  deriving DecidableEq, Repr

/-- What page tables are for: the mapping of each virtual page number. -/
abbrev AddressMap := Nat → Option Mapping

/-- A page table entry, as the processor reads it. -/
def decodeEntry (entry : BitVec 32) : Option Mapping :=
  if entry.getLsbD 0 then
    some ⟨entry >>> 12, entry.getLsbD 1, entry.getLsbD 2, entry.getLsbD 3, entry.getLsbD 4⟩
  else none

namespace Paging

/-- The address of the page table entry that the processor reads for a virtual address, if the
directory entry is present. `paging_init` has switched pages of 4 MiB off. -/
def walkAddr (s : Paging) (x : BitVec 32) : Option (BitVec 32) :=
  let pde := s.dirEntry (pdIndex x)
  if pde.getLsbD 0 then some (entryAddr (pde &&& ~~~0xFFF#32) (ptIndex x)) else none

/-- The two-level walk of the processor. -/
def walk (s : Paging) (x : BitVec 32) : Option Mapping :=
  (s.walkAddr x).bind fun addr => decodeEntry (s.mem addr)

end Paging

/-! ## Bits of the entries -/

/-- A flag as a word. -/
def flagWord (b : Bool) : BitVec 32 := if b then 1#32 else 0#32

theorem getLsbD_flagWord (b : Bool) (i : Nat) : (flagWord b).getLsbD i = (b && decide (i = 0)) := by
  cases b with
  | false => simp [flagWord]
  | true => simp [flagWord, BitVec.getLsbD_one]

theorem getLsbD_not_0x3FF {i : Nat} (hi : i < 32) : (~~~0x3FF#32).getLsbD i = decide (10 ≤ i) := by
  revert i
  decide

theorem getLsbD_not_0xFFF {i : Nat} (hi : i < 32) : (~~~0xFFF#32).getLsbD i = decide (12 ≤ i) := by
  revert i
  decide

theorem getLsbD_pageTblEntry (p : BitVec 32) (rw us wt cd : Bool) {i : Nat} (hi : i < 32) :
    (pageTblEntry p (flagWord rw) (flagWord us) (flagWord wt) (flagWord cd)).getLsbD i =
      (p.getLsbD i && decide (10 ≤ i) || decide (i = 0) || rw && decide (i = 1)
        || us && decide (i = 2) || wt && decide (i = 3) || cd && decide (i = 4)) := by
  have hshift : ∀ (b : Bool) (k : Nat), (flagWord b <<< k).getLsbD i = (b && decide (i = k)) := by
    intro b k
    rw [BitVec.getLsbD_shiftLeft, getLsbD_flagWord]
    by_cases h : i < k
    · have : i ≠ k := by omega
      simp [h, this]
    · have hiff : i - k = 0 ↔ i = k := by omega
      simp [h, hi, hiff]
  have hone : (1#32).getLsbD i = decide (i = 0) := by simp [BitVec.getLsbD_one]
  simp only [pageTblEntry, BitVec.getLsbD_or, BitVec.getLsbD_and, getLsbD_not_0x3FF hi, hshift,
    hone]

/-- The bits of the address below bit 12 do not reach what the processor reads. -/
theorem decodeEntry_pageTblEntry (p : BitVec 32) (rw us wt cd : Bool) :
    decodeEntry (pageTblEntry p (flagWord rw) (flagWord us) (flagWord wt) (flagWord cd)) =
      some ⟨p >>> 12, rw, us, wt, cd⟩ := by
  have hframe : pageTblEntry p (flagWord rw) (flagWord us) (flagWord wt) (flagWord cd) >>> 12 =
      p >>> 12 := by
    apply BitVec.eq_of_getLsbD_eq
    intro i hi
    rw [BitVec.getLsbD_ushiftRight, BitVec.getLsbD_ushiftRight]
    by_cases h : 12 + i < 32
    · rw [getLsbD_pageTblEntry p rw us wt cd h]
      have h0 : 12 + i ≠ 0 ∧ 12 + i ≠ 1 ∧ 12 + i ≠ 2 ∧ 12 + i ≠ 3 ∧ 12 + i ≠ 4 := by omega
      have h10 : 10 ≤ 12 + i := by omega
      simp [h0, h10]
    · rw [BitVec.getLsbD_of_ge _ _ (by omega), BitVec.getLsbD_of_ge _ _ (by omega)]
  have hbit := fun i => getLsbD_pageTblEntry p rw us wt cd (i := i)
  simp only [decodeEntry, hframe, hbit 0 (by decide), hbit 1 (by decide), hbit 2 (by decide),
    hbit 3 (by decide), hbit 4 (by decide)]
  simp

/-- The low twelve bits of a page-aligned address. -/
theorem getLsbD_of_aligned {f : BitVec 32} (hf : f.toNat % 4096 = 0) {i : Nat} (hi : i < 12) :
    f.getLsbD i = false := by
  have hmod : (f.toNat % 2 ^ 12).testBit i = false := by
    rw [show f.toNat % 2 ^ 12 = 0 from hf, Nat.zero_testBit]
  rwa [Nat.testBit_mod_two_pow, decide_eq_true hi, Bool.true_and] at hmod

theorem getLsbD_present_writable {i : Nat} (hi : i < 32) :
    (1#32 ||| 1#32 <<< 1).getLsbD i = decide (i < 2) := by
  revert i
  decide

/-- A directory entry for a page-aligned table. -/
theorem getLsbD_pageDirEntry {f : BitVec 32} (hf : f.toNat % 4096 = 0) {i : Nat} (hi : i < 32) :
    (pageDirEntry f 1 0 0 0 0).getLsbD i = (f.getLsbD i || decide (i < 2)) := by
  have haddr : BitVec.ofNat 32 (alignUp f.toNat PAGE_SIZE) = f := by
    rw [PAGE_SIZE, alignUp_of_aligned hf, BitVec.ofNat_toNat, BitVec.setWidth_eq]
  have hentry : pageDirEntry f 1 0 0 0 0 = f &&& ~~~0x3FF#32 ||| (1#32 ||| 1#32 <<< 1) := by
    simp only [pageDirEntry, haddr, BitVec.ofNat_eq_ofNat, BitVec.zero_shiftLeft, BitVec.or_zero,
      BitVec.or_assoc]
  rw [hentry, BitVec.getLsbD_or, BitVec.getLsbD_and, getLsbD_not_0x3FF hi,
    getLsbD_present_writable hi]
  by_cases h : i < 12
  · simp [getLsbD_of_aligned hf h]
  · have h10 : 10 ≤ i := by omega
    simp [h10]

/-- The table of a directory entry, with either mask. -/
theorem pageDirEntry_and {f : BitVec 32} (hf : f.toNat % 4096 = 0) :
    pageDirEntry f 1 0 0 0 0 &&& ~~~0xFFF#32 = f ∧
    getTblPhysAddr (pageDirEntry f 1 0 0 0 0) = f := by
  refine ⟨?_, ?_⟩
  · apply BitVec.eq_of_getLsbD_eq
    intro i hi
    rw [BitVec.getLsbD_and, getLsbD_pageDirEntry hf hi, getLsbD_not_0xFFF hi]
    by_cases h : i < 12
    · have h12 : ¬ 12 ≤ i := by omega
      simp [getLsbD_of_aligned hf h, h12]
    · have h2 : ¬ i < 2 := by omega
      have h12 : 12 ≤ i := by omega
      simp [h2, h12]
  · apply BitVec.eq_of_getLsbD_eq
    intro i hi
    rw [getTblPhysAddr, BitVec.getLsbD_and, getLsbD_pageDirEntry hf hi, getLsbD_not_0x3FF hi]
    by_cases h : i < 10
    · have h10 : ¬ 10 ≤ i := by omega
      simp [getLsbD_of_aligned hf (show i < 12 by omega), h10]
    · have h2 : ¬ i < 2 := by omega
      have h10 : 10 ≤ i := by omega
      simp [h2, h10]

theorem pageDirEntry_ne_zero {f : BitVec 32} (hf : f.toNat % 4096 = 0) :
    pageDirEntry f 1 0 0 0 0 ≠ 0#32 := by
  intro h
  have hbit := getLsbD_pageDirEntry hf (show 0 < 32 by decide)
  rw [h] at hbit
  simp at hbit

/-! ## Addresses of entries -/

theorem pdIndex_lt (x : BitVec 32) : pdIndex x < 1024 := by
  have hx := x.isLt
  rw [pdIndex, BitVec.toNat_ushiftRight, Nat.shiftRight_eq_div_pow]
  omega

theorem ptIndex_eq (x : BitVec 32) : ptIndex x = x.toNat / 4096 % 1024 := by
  rw [ptIndex, BitVec.toNat_and, BitVec.toNat_ushiftRight, Nat.shiftRight_eq_div_pow]
  exact Nat.and_two_pow_sub_one_eq_mod _ 10

theorem ptIndex_lt (x : BitVec 32) : ptIndex x < 1024 := by
  rw [ptIndex_eq]
  exact Nat.mod_lt _ (by decide)

/-- The number of the virtual page of an address. -/
def pageNumber (x : BitVec 32) : Nat := (x >>> 12).toNat

theorem pageNumber_eq_div (x : BitVec 32) : pageNumber x = x.toNat / 4096 := by
  rw [pageNumber, BitVec.toNat_ushiftRight, Nat.shiftRight_eq_div_pow]

theorem pageNumber_eq (x : BitVec 32) : pageNumber x = 1024 * pdIndex x + ptIndex x := by
  rw [ptIndex_eq, pageNumber, pdIndex, BitVec.toNat_ushiftRight, BitVec.toNat_ushiftRight,
    Nat.shiftRight_eq_div_pow, Nat.shiftRight_eq_div_pow]
  omega

theorem toNat_entryAddr {f : BitVec 32} (hf : f.toNat % 4096 = 0) {i : Nat} (hi : i < 1024) :
    (entryAddr f i).toNat = f.toNat + 4 * i := by
  have hlt := f.isLt
  rw [entryAddr, BitVec.toNat_add, BitVec.toNat_ofNat]
  omega

/-- Entries of different pages, or of different indices, have different addresses. -/
theorem entryAddr_inj {f g : BitVec 32} (hf : f.toNat % 4096 = 0) (hg : g.toNat % 4096 = 0)
    {i j : Nat} (hi : i < 1024) (hj : j < 1024) (h : entryAddr f i = entryAddr g j) :
    f = g ∧ i = j := by
  have hnat : f.toNat + 4 * i = g.toNat + 4 * j := by
    rw [← toNat_entryAddr hf hi, ← toNat_entryAddr hg hj, h]
  have hfg : f.toNat = g.toNat := by omega
  exact ⟨BitVec.eq_of_toNat_eq hfg, by omega⟩

namespace Paging

@[simp] theorem clearPage_kernelDir (f : BitVec 32) (s : Paging) :
    (s.clearPage f).kernelDir = s.kernelDir := rfl

theorem clearPage_self {f : BitVec 32} (hf : f.toNat % 4096 = 0) {i : Nat} (hi : i < 1024)
    (s : Paging) : (s.clearPage f).mem (entryAddr f i) = 0#32 := by
  have haddr := toNat_entryAddr hf hi
  apply if_pos
  unfold PAGE_SIZE
  omega

theorem clearPage_other {f g : BitVec 32} (hf : f.toNat % 4096 = 0) (hg : g.toNat % 4096 = 0)
    (hne : g ≠ f) {i : Nat} (hi : i < 1024) (s : Paging) :
    (s.clearPage f).mem (entryAddr g i) = s.mem (entryAddr g i) := by
  have haddr := toNat_entryAddr hg hi
  have hnat : g.toNat ≠ f.toNat := fun h => hne (BitVec.eq_of_toNat_eq h)
  apply if_neg
  unfold PAGE_SIZE
  omega

theorem store_self (addr w : BitVec 32) (s : Paging) : (s.store addr w).mem addr = w :=
  Function.update_self _ _ _

theorem store_other {f g : BitVec 32} (hf : f.toNat % 4096 = 0) (hg : g.toNat % 4096 = 0)
    {i j : Nat} (hi : i < 1024) (hj : j < 1024) (hne : ¬ (g = f ∧ j = i)) (w : BitVec 32)
    (s : Paging) : (s.store (entryAddr f i) w).mem (entryAddr g j) = s.mem (entryAddr g j) :=
  Function.update_of_ne (fun h => hne (entryAddr_inj hg hf hj hi h)) _ _

/-! ## The tables implement an address map -/

/-- Which of the pages of `early_kmalloc_pages` is the table of a directory slot, if the slots have
got their tables in the order of the list, the last one first. -/
def pageOf : List Nat → Nat → Option Nat
  | [], _ => none
  | d :: slots, x => if x = d then some (slots.length + 1) else pageOf slots x

theorem pageOf_eq_none {slots : List Nat} {x : Nat} : pageOf slots x = none ↔ x ∉ slots := by
  induction slots with
  | nil => simp [pageOf]
  | cons d slots ih =>
      by_cases h : x = d
      · simp [pageOf, h]
      · simp [pageOf, h, ih]

theorem pageOf_bounds {slots : List Nat} {x k : Nat} (h : pageOf slots x = some k) :
    1 ≤ k ∧ k ≤ slots.length := by
  induction slots with
  | nil => cases h
  | cons d slots ih =>
      simp only [pageOf] at h
      rw [List.length_cons]
      split at h
      · cases h
        omega
      · have := ih h
        omega

theorem pageOf_inj {slots : List Nat} {x y k : Nat} (hx : pageOf slots x = some k)
    (hy : pageOf slots y = some k) : x = y := by
  induction slots with
  | nil => cases hx
  | cons d slots ih =>
      simp only [pageOf] at hx hy
      split at hx <;> split at hy
      · omega
      · -- the newest table has the highest number
        have := pageOf_bounds hy
        cases hx
        omega
      · have := pageOf_bounds hx
        cases hy
        omega
      · exact ih hx hy

/-- **Refinement relation.** The tables in memory implement the address map `m`; the directory slots
`slots` have a table. -/
structure Implements (early : EarlyPages) (s : Paging) (slots : List Nat) (m : AddressMap) :
    Prop where
  dir : s.kernelDir = early.page 0
  taken : s.taken = slots.length + 1
  nodup : slots.Nodup
  lt : ∀ d ∈ slots, d < 1024
  entry : ∀ d, d < 1024 →
    s.dirEntry d = (pageOf slots d).elim 0#32 fun k => pageDirEntry (early.page k) 1 0 0 0 0
  table : ∀ d k, pageOf slots d = some k → ∀ t, t < 1024 →
    decodeEntry (s.mem (entryAddr (early.page k) t)) = m (1024 * d + t)
  empty : ∀ d, d < 1024 → d ∉ slots → ∀ t, t < 1024 → m (1024 * d + t) = none

variable {early : EarlyPages} {s : Paging} {slots : List Nat} {m : AddressMap}

/-- A slot without a table leaves a page for it. -/
theorem Implements.length_lt (h : Implements early s slots m) {d : Nat} (hd : d < 1024)
    (hnew : d ∉ slots) : slots.length < 1024 := by
  have hnodup : (d :: slots).Nodup := List.nodup_cons.mpr ⟨hnew, h.nodup⟩
  have hsub : d :: slots ⊆ List.range 1024 := by
    intro x hx
    rw [List.mem_range]
    rcases List.mem_cons.mp hx with rfl | hx
    · exact hd
    · exact h.lt x hx
  have hlen := (hnodup.subperm hsub).length_le
  rwa [List.length_cons, List.length_range] at hlen

theorem Implements.length_le (h : Implements early s slots m) : slots.length ≤ 1024 := by
  have hsub : slots ⊆ List.range 1024 := fun x hx => List.mem_range.mpr (h.lt x hx)
  have hlen := (h.nodup.subperm hsub).length_le
  rwa [List.length_range] at hlen

theorem Implements.page_aligned (h : Implements early s slots m) {d k : Nat}
    (hk : pageOf slots d = some k) : (early.page k).toNat % 4096 = 0 := by
  have := pageOf_bounds hk
  have := h.length_le
  exact early.aligned k (by omega)

/-- A table is not the page directory. -/
theorem Implements.page_ne_dir (h : Implements early s slots m) {d k : Nat}
    (hk : pageOf slots d = some k) : early.page k ≠ early.page 0 := by
  intro heq
  have hbounds := pageOf_bounds hk
  have hlen := h.length_le
  have : k = 0 := early.inj k 0 (by omega) (by omega) heq
  omega

theorem Implements.dirEntry_eq_zero (h : Implements early s slots m) {d : Nat} (hd : d < 1024) :
    s.dirEntry d = 0#32 ↔ d ∉ slots := by
  rw [h.entry d hd, ← pageOf_eq_none]
  cases hk : pageOf slots d with
  | none => simp
  | some k => simpa using pageDirEntry_ne_zero (h.page_aligned hk)

/-- Before the loops of `init_kern_paging` nothing is mapped. -/
theorem implements_newDirectory (early : EarlyPages) (mem : BitVec 32 → BitVec 32) :
    Implements early (newDirectory early mem) [] fun _ => none where
  dir := rfl
  taken := rfl
  nodup := List.nodup_nil
  lt _ hd := absurd hd List.not_mem_nil
  entry d hd := clearPage_self (early.aligned 0 (by decide)) hd _
  table _ _ hk := by cases hk
  empty _ _ _ _ _ := rfl

theorem Implements.dir_aligned (h : Implements early s slots m) : s.kernelDir.toNat % 4096 = 0 := by
  rw [h.dir]
  exact early.aligned 0 (by decide)

/-- A directory entry without a table gets the next early page as one. -/
theorem Implements.newTable_of_zero (h : Implements early s slots m) {d : Nat} (hd : d < 1024)
    (hzero : s.dirEntry d = 0#32) : Implements early (s.newTable early d) (d :: slots) m := by
  have hnew : d ∉ slots := (h.dirEntry_eq_zero hd).mp hzero
  have hlen := h.length_lt hd hnew
  have hpage : (early.page (slots.length + 1)).toNat % 4096 = 0 := early.aligned _ hlen
  have hne : ∀ k, k ≤ slots.length → early.page k ≠ early.page (slots.length + 1) := by
    intro k hk heq
    have := early.inj _ _ (by omega) hlen heq
    omega
  have hdir : s.kernelDir ≠ early.page (slots.length + 1) := by
    rw [h.dir]
    exact hne 0 (Nat.zero_le _)
  unfold Paging.newTable
  simp only [hzero, if_true, newPage, h.taken, clearPage_kernelDir]
  -- what is neither in the new table nor the directory entry stays
  have hkeep : ∀ g, g.toNat % 4096 = 0 → g ≠ early.page (slots.length + 1) → ∀ i, i < 1024 →
      ¬ (g = s.kernelDir ∧ i = d) →
      ((clearPage (early.page (slots.length + 1)) { s with taken := slots.length + 1 + 1 }).store
        (entryAddr s.kernelDir d) (pageDirEntry (early.page (slots.length + 1)) 1 0 0 0 0)).mem
        (entryAddr g i) = s.mem (entryAddr g i) := by
    intro g hg hgne i hi hother
    rw [store_other h.dir_aligned hg hd hi hother, clearPage_other hpage hg hgne hi]
  refine ⟨h.dir, rfl, List.nodup_cons.mpr ⟨hnew, h.nodup⟩, ?_, ?_, ?_, ?_⟩
  · intro x hx
    rcases List.mem_cons.mp hx with rfl | hx
    · exact hd
    · exact h.lt x hx
  · intro x hx
    by_cases hxd : x = d
    · rw [pageOf, if_pos hxd, hxd]
      exact store_self _ _ _
    · rw [pageOf, if_neg hxd, ← h.entry x hx]
      exact hkeep _ h.dir_aligned hdir x hx fun hother => hxd hother.2
  · intro x k hk t ht
    by_cases hxd : x = d
    · rw [pageOf, if_pos hxd] at hk
      cases hk
      rw [hxd, h.empty d hd hnew t ht, store_other h.dir_aligned hpage hd ht,
        clearPage_self hpage ht]
      · rfl
      · exact fun hother => hdir hother.1.symm
    · rw [pageOf, if_neg hxd] at hk
      rw [← h.table x k hk t ht]
      congr 1
      apply hkeep _ (h.page_aligned hk) (hne k (pageOf_bounds hk).2) t ht
      rintro ⟨heq, -⟩
      rw [h.dir] at heq
      exact h.page_ne_dir hk heq
  · intro x hx hmem t ht
    exact h.empty x hx (fun hin => hmem (List.mem_cons_of_mem _ hin)) t ht

theorem Implements.newTable (h : Implements early s slots m) {d : Nat} (hd : d < 1024) :
    ∃ slots', Implements early (s.newTable early d) slots' m ∧
      ∀ x, x ∈ slots' ↔ x = d ∨ x ∈ slots := by
  by_cases hzero : s.dirEntry d = 0#32
  · exact ⟨d :: slots, h.newTable_of_zero hd hzero, fun x => List.mem_cons⟩
  · have hin : d ∈ slots := by
      by_contra hnot
      exact hzero ((h.dirEntry_eq_zero hd).mpr hnot)
    unfold Paging.newTable
    rw [if_neg hzero]
    refine ⟨slots, h, fun x => ?_⟩
    constructor
    · exact Or.inr
    · rintro (rfl | hx)
      · exact hin
      · exact hx

/-- An entry of a table is written. -/
theorem Implements.store (h : Implements early s slots m) {d t : Nat} (hd : d ∈ slots)
    (ht : t < 1024) (w : BitVec 32) :
    Implements early (s.store (entryAddr (getTblPhysAddr (s.dirEntry d)) t) w) slots
      (Function.update m (1024 * d + t) (decodeEntry w)) := by
  obtain ⟨k, hk⟩ : ∃ k, pageOf slots d = some k := by
    cases hk : pageOf slots d with
    | none => exact absurd hd (pageOf_eq_none.mp hk)
    | some k => exact ⟨k, rfl⟩
  have hpage := h.page_aligned hk
  have htbl : getTblPhysAddr (s.dirEntry d) = early.page k := by
    rw [h.entry d (h.lt d hd), hk]
    exact (pageDirEntry_and hpage).2
  rw [htbl]
  refine ⟨h.dir, h.taken, h.nodup, h.lt, ?_, ?_, ?_⟩
  · intro x hx
    rw [← h.entry x hx]
    apply store_other hpage h.dir_aligned ht hx
    rintro ⟨heq, -⟩
    rw [h.dir] at heq
    exact h.page_ne_dir hk heq.symm
  · intro x j hj u hu
    by_cases hsame : x = d ∧ u = t
    · obtain ⟨rfl, rfl⟩ := hsame
      rw [hk] at hj
      cases hj
      rw [Function.update_self, store_self]
    · have hpn : 1024 * x + u ≠ 1024 * d + t := by omega
      rw [Function.update_of_ne hpn, ← h.table x j hj u hu]
      congr 1
      apply store_other hpage (h.page_aligned hj) ht hu
      rintro ⟨heq, hut⟩
      -- different slots have different tables
      have hjlen := pageOf_bounds hj
      have hklen := pageOf_bounds hk
      have hlen := h.length_le
      have hjk : j = k := early.inj j k (by omega) (by omega) heq
      rw [hjk] at hj
      exact hsame ⟨pageOf_inj hj hk, hut⟩
  · intro x hx hmem u hu
    have hxd : x ≠ d := by
      rintro rfl
      exact hmem hd
    rw [Function.update_of_ne (by omega)]
    exact h.empty x hx hmem u hu

theorem Implements.setEntry (h : Implements early s slots m) (v w : BitVec 32) :
    ∃ slots', Implements early (s.setEntry early v w) slots'
        (Function.update m (pageNumber v) (decodeEntry w)) ∧
      ∀ x, x ∈ slots' ↔ x = pdIndex v ∨ x ∈ slots := by
  obtain ⟨slots', h', hmem⟩ := h.newTable (pdIndex_lt v)
  refine ⟨slots', ?_, hmem⟩
  rw [pageNumber_eq]
  exact h'.store ((hmem _).mpr (Or.inl rfl)) (ptIndex_lt v) w

/-- The walk of the processor finds what the address map says. -/
theorem Implements.walk (h : Implements early s slots m) (x : BitVec 32) :
    s.walk x = m (pageNumber x) := by
  rw [Paging.walk, walkAddr, h.entry _ (pdIndex_lt x), pageNumber_eq]
  cases hk : pageOf slots (pdIndex x) with
  | none =>
      rw [h.empty _ (pdIndex_lt x) (pageOf_eq_none.mp hk) _ (ptIndex_lt x)]
      simp
  | some k =>
      have hpage := h.page_aligned hk
      have hbit : (pageDirEntry (early.page k) 1 0 0 0 0).getLsbD 0 = true := by
        rw [getLsbD_pageDirEntry hpage (by decide), decide_eq_true (by decide), Bool.or_true]
      simp only [Option.elim_some, hbit, if_true, Option.bind_some, (pageDirEntry_and hpage).1]
      exact h.table _ k hk _ (ptIndex_lt x)

/-- `get_tbl_entry` finds the entry that the walk reads, and `NULL` if there is no table. -/
theorem Implements.getTblEntry (h : Implements early s slots m) (x : BitVec 32) :
    s.walkAddr x = (if s.getTblEntry x = 0#32 then none else some (s.getTblEntry x)) ∧
      (s.getTblEntry x = 0#32 ↔ pdIndex x ∉ slots) := by
  rw [walkAddr, Paging.getTblEntry, h.entry _ (pdIndex_lt x), ← pageOf_eq_none]
  cases hk : pageOf slots (pdIndex x) with
  | none =>
      have hnull : getTblPhysAddr 0#32 = 0#32 := by decide
      simp [hnull]
  | some k =>
      have hpage := h.page_aligned hk
      have hbounds := pageOf_bounds hk
      have hlen := h.length_le
      have hne : early.page k ≠ 0#32 := early.ne_zero k (by omega)
      have hbit : (pageDirEntry (early.page k) 1 0 0 0 0).getLsbD 0 = true := by
        rw [getLsbD_pageDirEntry hpage (by decide), decide_eq_true (by decide), Bool.or_true]
      have haddr : entryAddr (early.page k) (ptIndex x) ≠ 0#32 := by
        intro heq
        have hnat := toNat_entryAddr hpage (ptIndex_lt x)
        rw [heq, BitVec.toNat_ofNat, Nat.zero_mod] at hnat
        exact hne (BitVec.eq_of_toNat_eq (by rw [BitVec.toNat_ofNat, Nat.zero_mod]; omega))
      simp only [Option.elim_some, hbit, if_true, (pageDirEntry_and hpage).1,
        (pageDirEntry_and hpage).2, if_neg hne, if_neg haddr]
      exact ⟨trivial, fun h0 => absurd h0 haddr, fun h0 => by cases h0⟩

/-! ## Sequences of calls -/

/-- The calls that map a page. -/
inductive MapCall
  | mapKernPage (virtualAddr physAddr : BitVec 32)
  | mapKernPageFlags (virtualAddr physAddr : BitVec 32) (flags : BitVec 8)
  deriving DecidableEq, Repr

namespace MapCall

def virt : MapCall → BitVec 32
  | .mapKernPage v _ => v
  | .mapKernPageFlags v _ _ => v

/-- What the caller asks for: the frame of the physical address, and a right for each flag.
`map_kern_page` stands for `PAGE_READWRITE`. -/
def mapping : MapCall → Mapping
  | .mapKernPage _ p => ⟨p >>> 12, true, false, false, false⟩
  | .mapKernPageFlags _ p flags =>
      ⟨p >>> 12, flags.getLsbD 0, flags.getLsbD 1, flags.getLsbD 2, flags.getLsbD 3⟩

def exec (early : EarlyPages) : MapCall → Paging → Paging
  | .mapKernPage v p => Paging.mapKernPage early v p
  | .mapKernPageFlags v p flags => Paging.mapKernPageFlags early v p flags

/-- The flags of a call as the words that go into the entry. -/
theorem flagWord_flags (flags : BitVec 8) :
    (flags.setWidth 32 &&& PAGE_READWRITE) >>> 0 = flagWord (flags.getLsbD 0) ∧
      (flags.setWidth 32 &&& PAGE_ALLACCESS) >>> 1 = flagWord (flags.getLsbD 1) ∧
      (flags.setWidth 32 &&& PAGE_WRITETHROUGH) >>> 2 = flagWord (flags.getLsbD 2) ∧
      (flags.setWidth 32 &&& PAGE_CACHEDISABLE) >>> 3 = flagWord (flags.getLsbD 3) := by
  revert flags
  decide +kernel

end MapCall

/-- A call maps its page to what it asks for, and no other page. -/
theorem Implements.exec (h : Implements early s slots m) (c : MapCall) :
    ∃ slots', Implements early (c.exec early s) slots'
        (Function.update m (pageNumber c.virt) (some c.mapping)) ∧
      ∀ x, x ∈ slots' ↔ x = pdIndex c.virt ∨ x ∈ slots := by
  cases c with
  | mapKernPage v p =>
      have hdecode := decodeEntry_pageTblEntry p true false false false
      have hset := h.setEntry v (pageTblEntry p 1 0 0 0)
      rwa [show pageTblEntry p 1 0 0 0 = pageTblEntry p (flagWord true) (flagWord false)
        (flagWord false) (flagWord false) from rfl, hdecode] at hset
  | mapKernPageFlags v p flags =>
      obtain ⟨hrw, hus, hwt, hcd⟩ := MapCall.flagWord_flags flags
      simp only [MapCall.exec, mapKernPageFlags, hrw, hus, hwt, hcd]
      have hset := h.setEntry v (pageTblEntry p (flagWord (flags.getLsbD 0))
        (flagWord (flags.getLsbD 1)) (flagWord (flags.getLsbD 2)) (flagWord (flags.getLsbD 3)))
      rwa [decodeEntry_pageTblEntry] at hset

/-- The state after a sequence of calls, the last one first. -/
def run (early : EarlyPages) (mem : BitVec 32 → BitVec 32) : List MapCall → Paging
  | [] => newDirectory early mem
  | c :: calls => c.exec early (run early mem calls)

/-- The last call that maps the page of an address. -/
def lastCall (calls : List MapCall) (x : BitVec 32) : Option MapCall :=
  calls.find? fun c => c.virt >>> 12 = x >>> 12

theorem implements_run (early : EarlyPages) (mem : BitVec 32 → BitVec 32) (calls : List MapCall) :
    ∃ slots m, Implements early (run early mem calls) slots m ∧
      (∀ x, m (pageNumber x) = (lastCall calls x).map MapCall.mapping) ∧
      ∀ d, d ∈ slots ↔ ∃ c ∈ calls, pdIndex c.virt = d := by
  induction calls with
  | nil => exact ⟨[], _, implements_newDirectory early mem, fun _ => rfl, by simp⟩
  | cons c calls ih =>
      obtain ⟨slots, m, h, hlast, hslots⟩ := ih
      obtain ⟨slots', h', hmem⟩ := h.exec c
      refine ⟨slots', _, h', ?_, ?_⟩
      · intro x
        by_cases hx : c.virt >>> 12 = x >>> 12
        · rw [pageNumber, pageNumber, hx, Function.update_self, lastCall,
            List.find?_cons_of_pos (by simpa using hx)]
          rfl
        · have hne : pageNumber x ≠ pageNumber c.virt :=
            fun heq => hx (BitVec.eq_of_toNat_eq heq.symm)
          rw [Function.update_of_ne hne, hlast, lastCall, lastCall,
            List.find?_cons_of_neg (by simpa using hx)]
      · intro d
        rw [hmem, hslots, List.exists_mem_cons_iff, eq_comm]

/-- **The page tables are the address map in which the last call wins.** After every sequence of
`map_kern_page` and `map_kern_page_flags` the walk of the processor finds, for every address,
exactly what the last call for its page asked for, and nothing if there was none. `get_tbl_entry`
returns the address of the entry that the walk reads, and `NULL` exactly if no address behind the
same directory slot was mapped. -/
theorem walk_run (early : EarlyPages) (mem : BitVec 32 → BitVec 32) (calls : List MapCall)
    (x : BitVec 32) :
    (run early mem calls).walk x = (lastCall calls x).map MapCall.mapping ∧
      (run early mem calls).walkAddr x =
        (if (run early mem calls).getTblEntry x = 0#32 then none
          else some ((run early mem calls).getTblEntry x)) ∧
      ((run early mem calls).getTblEntry x = 0#32 ↔ ∀ c ∈ calls, c.virt >>> 22 ≠ x >>> 22) := by
  obtain ⟨slots, m, h, hlast, hslots⟩ := implements_run early mem calls
  obtain ⟨haddr, hnull⟩ := h.getTblEntry x
  refine ⟨?_, haddr, ?_⟩
  · rw [h.walk, hlast]
  · rw [hnull, hslots, not_exists]
    constructor
    · intro hno c hc heq
      exact hno c ⟨hc, by rw [pdIndex, pdIndex, heq]⟩
    · rintro hno c ⟨hc, heq⟩
      exact hno c hc (BitVec.eq_of_toNat_eq heq)

end Paging

end NowOS

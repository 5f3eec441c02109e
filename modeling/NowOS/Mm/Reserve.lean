import NowOS.Lib.Records
import NowOS.Mm.Region

set_option autoImplicit false

/-! # Reserving the memory map (`reserve_memorymap_pages` in `kernel/kmain.c`)

The boot loader describes the memory of the machine by a sequence of entries, each with a base
address, a length and a type. `reserve_memorymap_pages` marks the pages of the entries that are not
available as used. It takes the size of the entry itself for the length of the memory, it does not
look at the upper halves of base and length, and `ALIGN_DOWN` moves the base up. So what it marks is
not what the map says: `reserveMemorymapPages_eq` has the pages that it marks, and
`pages_reserved_iff` says for which entries they are the right ones. -/

namespace NowOS

/-! ## The functions of the source -/

namespace MmapEntry

variable (mem : Nat → UInt8) (entry : Nat)

/-- `entry->size`, the size of the entry without this field. -/
def size : Nat := wordAt mem entry

def addrLower : Nat := wordAt mem (entry + 4)

def addrHigher : Nat := wordAt mem (entry + 8)

def lenLower : Nat := wordAt mem (entry + 12)

def lenHigher : Nat := wordAt mem (entry + 16)

def type : Nat := wordAt mem (entry + 20)

end MmapEntry

def MULTIBOOT_MEMORY_AVAILABLE : Nat := 1

section Source

variable (mem : Nat → UInt8) (early : EarlyPages)

/-- The entry behind an entry. -/
def nextEntry (entry : Nat) : Nat := add32 (add32 entry (MmapEntry.size mem entry)) 4

/-- The arguments of the call of `mem_alloc_region`. -/
def pageRegion (memAddr : Nat) : Region :=
  ⟨BitVec.ofNat 32 memAddr, BitVec.ofNat 32 PAGE_SIZE, MEM_IDENTITYREGION⟩

/-- The body of the inner loop. -/
def reservePage (s : MemState) (memAddr : Nat) : MemState :=
  (memAllocRegion early (pageRegion memAddr) s).2

/-- `mem_addr_lower` after it was aligned. -/
def memAddrLower (entry : Nat) : Nat := alignDown (MmapEntry.addrLower mem entry) PAGE_SIZE

/-- `mem_addr_upper` after it was aligned. -/
def memAddrUpper (entry : Nat) : Nat :=
  alignUp (add32 (MmapEntry.addrLower mem entry) (MmapEntry.size mem entry)) PAGE_SIZE

/-- The number of pages of the address space. -/
def PAGE_COUNT : Nat := 1048576

/-- The body of the outer loop; `none` if the inner loop has not ended after all pages there are. -/
def reserveEntry (s : Option MemState) (entry : Nat) : Option MemState :=
  if MmapEntry.type mem entry ≠ MULTIBOOT_MEMORY_AVAILABLE then
    s.bind fun s =>
      walkRecords (fun memAddr => add32 memAddr PAGE_SIZE) (reservePage early) (PAGE_COUNT + 1) s
        (memAddrLower mem entry) (memAddrUpper mem entry)
  else s

/-- `reserve_memorymap_pages`; `none` if a loop has not ended yet. -/
def reserveMemorymapPages (fuel mmapAddr mmapLength : Nat) (s : MemState) : Option MemState :=
  (walkRecords (nextEntry mem) (reserveEntry mem early) fuel (some s) mmapAddr
    (add32 mmapAddr mmapLength)).join

end Source

/-! ## What the map says -/

section Spec

variable (mem : Nat → UInt8)

namespace MmapEntry

def addr (entry : Nat) : Nat := addrLower mem entry + W32 * addrHigher mem entry

def len (entry : Nat) : Nat := lenLower mem entry + W32 * lenHigher mem entry

/-- Page `i` has a byte of the memory that the entry describes. -/
def Meets (entry i : Nat) : Prop :=
  ∃ b, b / 4096 = i ∧ addr mem entry ≤ b ∧ b < addr mem entry + len mem entry

/-- The function marks page `i` for the entry. -/
def Reserves (entry i : Nat) : Prop :=
  type mem entry ≠ MULTIBOOT_MEMORY_AVAILABLE ∧
    memAddrLower mem entry / 4096 ≤ i ∧ i < memAddrUpper mem entry / 4096

end MmapEntry

/-- Page `i` belongs to memory that is not available. -/
def Unavailable (entries : List Nat) (i : Nat) : Prop :=
  ∃ e ∈ entries, MmapEntry.type mem e ≠ MULTIBOOT_MEMORY_AVAILABLE ∧ MmapEntry.Meets mem e i

/-- The entries tile the memory map, which does not reach the end of the address space. -/
structure WellFormedMap (mmapAddr mmapLength : Nat) (entries : List Nat) : Prop where
  tiled : Tiled (fun e => e + MmapEntry.size mem e + 4) entries mmapAddr (mmapAddr + mmapLength)
  fits : mmapAddr + mmapLength < W32

/-- **Reserved memory is reserved**: the pages of the table that are not available are marked, and
no others have become marked. -/
structure PagesReserved (entries : List Nat) (s s' : MemState) : Prop where
  marked : ∀ i, i < PAGE_COUNT → i < 8 * s.tbl.size → Unavailable mem entries i →
    s'.tbl.bit i = true
  others : ∀ i, ¬ Unavailable mem entries i → s'.tbl.bit i = true → s.tbl.bit i = true

end Spec

/-! ## The loops -/

section Loops

variable {mem : Nat → UInt8} {early : EarlyPages} {s : MemState}

theorem alreadyExists_pageRegion (a : Nat) : (pageRegion a).alreadyExists = false := by
  have hflags : (MEM_IDENTITYREGION &&& MEM_ALREADYEXISTS != 0#8) = false := by decide
  exact hflags

theorem numPages_pageRegion (a : Nat) : (pageRegion a).numPages = 1 := by
  have hpages : alignUp (BitVec.ofNat 32 PAGE_SIZE).toNat PAGE_SIZE / PAGE_SIZE = 1 := by decide
  exact hpages

/-- A page that is in use already stays as it is, and any other page is marked. -/
theorem bit_reservePage {a : Nat} (ha : a < W32) (i : Nat) :
    (reservePage early s a).tbl.bit i = true ↔ s.tbl.bit i = true ∨ i = a / 4096 := by
  have hframe : (pageRegion a).physAddr.toNat = a := by
    rw [pageRegion, BitVec.toNat_ofNat]
    exact Nat.mod_eq_of_lt ha
  unfold reservePage
  by_cases hmarked : s.Marked (pageRegion a).physAddr
  · -- `mem_alloc_region` refuses, and its code is not looked at
    rw [memAllocRegion_of_marked (alreadyExists_pageRegion a) hmarked]
    refine (or_iff_left_of_imp ?_).symm
    rintro rfl
    rwa [MemState.Marked, hframe] at hmarked
  · rw [memAllocRegion_of_not_marked hmarked, numPages_pageRegion, bit_memAllocPages]
    refine or_congr_right ?_
    constructor
    · rintro ⟨k, hk, rfl⟩
      obtain rfl : k = 0 := by omega
      rw [Nat.mul_zero, BitVec.add_zero, hframe]
    · rintro rfl
      exact ⟨0, by omega, by rw [Nat.mul_zero, BitVec.add_zero, hframe]⟩

/-- **The inner loop** ends, and marks the pages between two page boundaries. -/
theorem bit_reservePages {fuel lower upper : Nat} (hlower : lower % 4096 = 0)
    (hupper : upper % 4096 = 0) (hlt : upper < W32) (hfuel : upper / 4096 - lower / 4096 < fuel) :
    ∃ s', walkRecords (fun memAddr => add32 memAddr PAGE_SIZE) (reservePage early) fuel s lower
        upper = some s' ∧
      ∀ i, s'.tbl.bit i = true ↔
        s.tbl.bit i = true ∨ (lower / 4096 ≤ i ∧ i < upper / 4096) := by
  induction fuel generalizing s lower with
  | zero => omega
  | succ fuel ih =>
      rw [walkRecords]
      by_cases hgo : lower < upper
      · -- below an aligned `upper` there is room for the whole page: the step does not wrap around
        have hnext : add32 lower PAGE_SIZE = lower + 4096 := by
          unfold PAGE_SIZE
          exact add32_of_lt (by unfold W32 at *; omega)
        have hfuel' : upper / 4096 - (lower + 4096) / 4096 < fuel := by omega
        obtain ⟨s', hs', hbits⟩ := @ih (reservePage early s lower) (lower + 4096) (by omega) hfuel'
        refine ⟨s', by rw [if_pos hgo, hnext, hs'], fun i => ?_⟩
        rw [hbits, bit_reservePage (by omega), or_assoc]
        exact or_congr_right (by omega)
      · exact ⟨s, by rw [if_neg hgo], fun i => ⟨Or.inl, fun h => h.elim id (by omega)⟩⟩

theorem alignDown_mod (x : Nat) : alignDown x PAGE_SIZE % 4096 = 0 := by
  unfold alignDown roundDown PAGE_SIZE
  rw [sub32_of_le (Nat.mod_le _ _)]
  omega

/-- The body of the outer loop marks the pages of its entry. -/
theorem bit_reserveEntry (entry : Nat) :
    ∃ s', reserveEntry mem early (some s) entry = some s' ∧
      ∀ i, s'.tbl.bit i = true ↔ s.tbl.bit i = true ∨ MmapEntry.Reserves mem entry i := by
  unfold reserveEntry MmapEntry.Reserves
  by_cases htype : MmapEntry.type mem entry ≠ MULTIBOOT_MEMORY_AVAILABLE
  · have hupper : memAddrUpper mem entry < W32 := alignUp_lt (add32_lt _ _) _
    have hmod : memAddrUpper mem entry % 4096 = 0 := alignUp_mod (by decide) _
    have hfuel : memAddrUpper mem entry / 4096 - memAddrLower mem entry / 4096 <
        PAGE_COUNT + 1 := by
      unfold W32 at hupper
      unfold PAGE_COUNT
      omega
    obtain ⟨s', hs', hbits⟩ := @bit_reservePages early s _ _ _ (alignDown_mod _) hmod hupper hfuel
    refine ⟨s', by rw [if_pos htype, Option.bind_some]; exact hs', fun i => ?_⟩
    rw [hbits i, and_iff_right htype]
    rfl
  · exact ⟨s, if_neg htype, fun i => ⟨Or.inl, fun h => h.elim id fun h => absurd h.1 htype⟩⟩

theorem bit_reserveEntries (entries : List Nat) :
    ∃ s', entries.foldl (reserveEntry mem early) (some s) = some s' ∧
      ∀ i, s'.tbl.bit i = true ↔
        s.tbl.bit i = true ∨ ∃ e ∈ entries, MmapEntry.Reserves mem e i := by
  induction entries generalizing s with
  | nil => exact ⟨s, rfl, by simp⟩
  | cons e entries ih =>
      obtain ⟨s₁, hs₁, hbits₁⟩ := @bit_reserveEntry mem early s e
      obtain ⟨s', hs', hbits⟩ := @ih s₁
      refine ⟨s', by rw [List.foldl_cons, hs₁, hs'], fun i => ?_⟩
      rw [hbits, hbits₁, or_assoc, List.exists_mem_cons_iff]

/-- **The pages that `reserve_memorymap_pages` marks.** The function returns for every memory
map. -/
theorem reserveMemorymapPages_eq {mmapAddr mmapLength : Nat} {entries : List Nat}
    (h : WellFormedMap mem mmapAddr mmapLength entries) :
    ∃ s', reserveMemorymapPages mem early (entries.length + 1) mmapAddr mmapLength s = some s' ∧
      ∀ i, s'.tbl.bit i = true ↔
        s.tbl.bit i = true ∨ ∃ e ∈ entries, MmapEntry.Reserves mem e i := by
  have hup : ∀ e ∈ entries, e < e + MmapEntry.size mem e + 4 := fun e _ => by omega
  have hnext : ∀ e ∈ entries, nextEntry mem e = e + MmapEntry.size mem e + 4 := by
    intro e he
    obtain ⟨-, hle⟩ := h.tiled.mem_bounds hup he
    have hfits := h.fits
    rw [nextEntry, add32_of_lt (show e + MmapEntry.size mem e < W32 by omega),
      add32_of_lt (by omega)]
  have hvisits : visits (nextEntry mem) (entries.length + 1) mmapAddr (add32 mmapAddr mmapLength) =
      some entries := by
    rw [add32_of_lt h.fits]
    refine (h.tiled.congr hnext).visits (fun e he => ?_) (Nat.lt_succ_self _)
    rw [hnext e he]
    exact hup e he
  obtain ⟨s', hs', hbits⟩ := @bit_reserveEntries mem early s entries
  refine ⟨s', ?_, hbits⟩
  rw [reserveMemorymapPages, walkRecords_eq, hvisits, Option.map_some, hs']
  rfl

end Loops

/-! ## Reserved memory -/

/-- The number of pages that begin below an address. -/
def pagesBelow (x : Nat) : Nat := (x + 4095) / 4096

/-- The number of pages below 4 GiB that have a bit in the table. -/
def MemState.tablePages (s : MemState) : Nat := min PAGE_COUNT (8 * s.tbl.size)

namespace MmapEntry

variable (mem : Nat → UInt8) (entry : Nat)

/-- The first page that begins at the base or behind it. In the last page of the address space
`ALIGN_DOWN` wraps around. -/
def markStart : Nat := pagesBelow (addrLower mem entry) % PAGE_COUNT

/-- The first page that begins `size` bytes behind the base or later. -/
def markEnd : Nat := pagesBelow ((addrLower mem entry + size mem entry) % W32) % PAGE_COUNT

/-- **The fields of an entry for which the right pages are marked**, of those in a table for `pages`
pages. If there is memory of the entry in the table, the base has to be page aligned, and the memory
has to have the pages that it would have if its length were `size`, up to the end of the table. An
entry without memory in the table must not mark a page that is not its own. -/
def Matches (pages : Nat) : Prop :=
  if 0 < len mem entry ∧ addr mem entry / 4096 < pages then
    addr mem entry % 4096 = 0 ∧ addr mem entry + size mem entry ≤ W32 - 4096 ∧
      pagesBelow (addr mem entry + size mem entry) ≤ pagesBelow (addr mem entry + len mem entry) ∧
      min (pagesBelow (addr mem entry + len mem entry)) pages ≤
        pagesBelow (addr mem entry + size mem entry)
  else
    markEnd mem entry ≤ markStart mem entry ∨
      (0 < len mem entry ∧ addr mem entry / 4096 ≤ markStart mem entry ∧
        markEnd mem entry ≤ pagesBelow (addr mem entry + len mem entry))

instance (pages : Nat) : Decidable (Matches mem entry pages) :=
  inferInstanceAs (Decidable (if 0 < len mem entry ∧ addr mem entry / 4096 < pages then _ else _))

end MmapEntry

section Reserved

variable {mem : Nat → UInt8} {e : Nat}

/-- The pages of an entry are those from the page of its first byte up to the page of its last
one. -/
theorem meets_iff {i : Nat} :
    MmapEntry.Meets mem e i ↔ 0 < MmapEntry.len mem e ∧ MmapEntry.addr mem e / 4096 ≤ i ∧
      i < pagesBelow (MmapEntry.addr mem e + MmapEntry.len mem e) := by
  unfold MmapEntry.Meets pagesBelow
  constructor
  · rintro ⟨b, rfl, hle, hlt⟩
    omega
  · rintro ⟨hlen, hle, hlt⟩
    by_cases hfirst : MmapEntry.addr mem e / 4096 = i
    · exact ⟨MmapEntry.addr mem e, hfirst, Nat.le_refl _, by omega⟩
    · exact ⟨4096 * i, by omega, by omega, by omega⟩

theorem alignUp_div {x : Nat} (hx : x < W32) :
    alignUp x PAGE_SIZE / 4096 = pagesBelow x % PAGE_COUNT := by
  unfold pagesBelow PAGE_COUNT PAGE_SIZE
  unfold W32 at hx
  by_cases hmod : x % 4096 = 0
  · rw [alignUp_of_aligned hmod]
    omega
  · have hadd : alignUp x 4096 = (x + (4096 - x % 4096)) % W32 := by
      simp only [alignUp, roundUp, isAligned, beq_iff_eq, hmod, if_false, add32]
    rw [hadd]
    unfold W32
    omega

theorem alignDown_div {x : Nat} (hx : x < W32) :
    alignDown x PAGE_SIZE / 4096 = pagesBelow x % PAGE_COUNT := by
  unfold alignDown roundDown pagesBelow PAGE_COUNT PAGE_SIZE
  rw [sub32_of_le (Nat.mod_le _ _)]
  unfold add32 sub32
  unfold W32 at *
  split <;> omega

/-- What the function marks for an entry, in terms of its fields. -/
theorem reserves_iff {i : Nat} :
    MmapEntry.Reserves mem e i ↔ MmapEntry.type mem e ≠ MULTIBOOT_MEMORY_AVAILABLE ∧
      MmapEntry.markStart mem e ≤ i ∧ i < MmapEntry.markEnd mem e := by
  have hlower : memAddrLower mem e / 4096 = MmapEntry.markStart mem e :=
    alignDown_div (wordAt_lt mem _)
  have hupper : memAddrUpper mem e / 4096 = MmapEntry.markEnd mem e := alignUp_div (add32_lt _ _)
  rw [MmapEntry.Reserves, hlower, hupper]

/-- The pages that are marked for an entry of `n` bytes at `a` whose field `size` is `z`, in
numbers. -/
theorem marks_exact_iff {a z n pages : Nat} (ha : a < W32) (hz : z < W32) (hn : 0 < n)
    (hfirst : a / 4096 < pages) (hpages : pages ≤ PAGE_COUNT) :
    (a % 4096 = 0 ∧ a + z ≤ W32 - 4096 ∧ pagesBelow (a + z) ≤ pagesBelow (a + n) ∧
      min (pagesBelow (a + n)) pages ≤ pagesBelow (a + z)) ↔
    (∀ i, i < pages → (0 < n ∧ a / 4096 ≤ i ∧ i < pagesBelow (a + n)) →
      pagesBelow a % PAGE_COUNT ≤ i ∧ i < pagesBelow ((a + z) % W32) % PAGE_COUNT) ∧
    ∀ i, pagesBelow a % PAGE_COUNT ≤ i → i < pagesBelow ((a + z) % W32) % PAGE_COUNT →
      0 < n ∧ a / 4096 ≤ i ∧ i < pagesBelow (a + n) := by
  unfold pagesBelow PAGE_COUNT W32 at *
  constructor
  · rintro ⟨hal, hfit, hle, hmin⟩
    have hmod : (a + z) % 4294967296 = a + z := Nat.mod_eq_of_lt (by omega)
    rw [hmod]
    exact ⟨fun i hi hmeets => by omega, fun i hge hlt => by omega⟩
  · rintro ⟨hmarked, hothers⟩
    -- the first page and the last one in the table are marked, and the last marked page is met
    have h₁ := hmarked (a / 4096) hfirst (by omega)
    have h₂ := hmarked (min ((a + n + 4095) / 4096) pages - 1) (by omega) (by omega)
    have h₃ := hothers (((a + z) % 4294967296 + 4095) / 4096 % 1048576 - 1) (by omega) (by omega)
    refine ⟨by omega, by omega, by omega, by omega⟩

/-- **One entry**: what of it is in the table is marked, and nothing else is, exactly if its fields
match. -/
theorem matches_iff {pages : Nat} (hpages : pages ≤ PAGE_COUNT) :
    MmapEntry.Matches mem e pages ↔
      (∀ i, i < pages → MmapEntry.Meets mem e i →
        MmapEntry.markStart mem e ≤ i ∧ i < MmapEntry.markEnd mem e) ∧
      ∀ i, MmapEntry.markStart mem e ≤ i → i < MmapEntry.markEnd mem e →
        MmapEntry.Meets mem e i := by
  have hlow := wordAt_lt mem (e + 4)
  have haddr :
      MmapEntry.addr mem e = MmapEntry.addrLower mem e + W32 * MmapEntry.addrHigher mem e :=
    rfl
  simp only [meets_iff]
  unfold MmapEntry.Matches
  split
  next htable =>
    obtain ⟨hlen, hfirst⟩ := htable
    -- the base is below 4 GiB
    have hzero : MmapEntry.addrHigher mem e = 0 := by
      unfold PAGE_COUNT at hpages
      unfold W32 at haddr
      omega
    have hlower : MmapEntry.addr mem e = MmapEntry.addrLower mem e := by
      rw [haddr, hzero, Nat.mul_zero, Nat.add_zero]
    unfold MmapEntry.markStart MmapEntry.markEnd
    rw [hlower] at hfirst ⊢
    exact marks_exact_iff hlow (wordAt_lt mem e) hlen hfirst hpages
  next htable =>
    constructor
    · intro hmarks
      exact ⟨fun i hi hmeets => absurd ⟨hmeets.1, by omega⟩ htable, fun i hge hlt => by omega⟩
    · rintro ⟨-, hothers⟩
      by_cases hempty : MmapEntry.markEnd mem e ≤ MmapEntry.markStart mem e
      · exact Or.inl hempty
      · have h₁ := hothers (MmapEntry.markStart mem e) (Nat.le_refl _) (by omega)
        have h₂ := hothers (MmapEntry.markEnd mem e - 1) (by omega) (by omega)
        exact Or.inr ⟨h₁.1, h₁.2.1, by omega⟩

/-- No page of an entry that is not available, and no page that begins within `size` bytes of its
base, was in use before or is one of another entry that is not available. -/
def EntriesApart (mem : Nat → UInt8) (entries : List Nat) (s : MemState) : Prop :=
  ∀ e ∈ entries, MmapEntry.type mem e ≠ MULTIBOOT_MEMORY_AVAILABLE → ∀ i,
    (MmapEntry.Meets mem e i ∨ MmapEntry.markStart mem e ≤ i ∧ i < MmapEntry.markEnd mem e) →
    s.tbl.bit i = false ∧
      ∀ e' ∈ entries, MmapEntry.type mem e' ≠ MULTIBOOT_MEMORY_AVAILABLE →
        (MmapEntry.Meets mem e' i ∨ MmapEntry.markStart mem e' ≤ i ∧ i < MmapEntry.markEnd mem e') →
        e' = e

/-- **When reserved memory is reserved.** For every memory map and every table: if the fields of
every entry that is not available match, the pages that are not available are marked, and no others.
And if the entries are apart, so that none makes up for another one, this is the only way. -/
theorem pages_reserved_iff {mmapAddr mmapLength : Nat} {entries : List Nat}
    (h : WellFormedMap mem mmapAddr mmapLength entries) (early : EarlyPages) (s : MemState) :
    ∃ s', reserveMemorymapPages mem early (entries.length + 1) mmapAddr mmapLength s = some s' ∧
      ((∀ e ∈ entries, MmapEntry.type mem e ≠ MULTIBOOT_MEMORY_AVAILABLE →
        MmapEntry.Matches mem e s.tablePages) → PagesReserved mem entries s s') ∧
      (EntriesApart mem entries s → PagesReserved mem entries s s' →
        ∀ e ∈ entries, MmapEntry.type mem e ≠ MULTIBOOT_MEMORY_AVAILABLE →
          MmapEntry.Matches mem e s.tablePages) := by
  obtain ⟨s', hs', hbits⟩ := @reserveMemorymapPages_eq mem early s _ _ _ h
  have hpages : s.tablePages ≤ PAGE_COUNT := Nat.min_le_left _ _
  refine ⟨s', hs', fun hmatch => ⟨fun i hpage hcovered hun => ?_, fun i hav hmarked => ?_⟩,
    fun hapart hreserved e he htype => (matches_iff hpages).2 ⟨fun i hi hmeets => ?_,
      fun i hge hlt => ?_⟩⟩
  · obtain ⟨e, he, htype, hmeets⟩ := hun
    have hmark := ((matches_iff hpages).1 (hmatch e he htype)).1 i (Nat.lt_min.2 ⟨hpage, hcovered⟩)
      hmeets
    exact (hbits i).2 (Or.inr ⟨e, he, reserves_iff.2 ⟨htype, hmark⟩⟩)
  · rcases (hbits i).1 hmarked with hset | ⟨e, he, hres⟩
    · exact hset
    · obtain ⟨htype, hge, hlt⟩ := reserves_iff.1 hres
      have hmeets := ((matches_iff hpages).1 (hmatch e he htype)).2 i hge hlt
      exact absurd ⟨e, he, htype, hmeets⟩ hav
  · -- the page has become marked, and no other entry has marked it
    obtain ⟨hclear, hown⟩ := hapart e he htype i (Or.inl hmeets)
    obtain ⟨hpage, hcovered⟩ := Nat.lt_min.1 hi
    rcases (hbits i).1 (hreserved.marked i hpage hcovered ⟨e, he, htype, hmeets⟩) with
      hset | ⟨e', he', hres⟩
    · rw [hclear] at hset
      cases hset
    · obtain ⟨htype', hmark⟩ := reserves_iff.1 hres
      rwa [← hown e' he' htype' (Or.inr hmark)]
  · obtain ⟨hclear, hown⟩ := hapart e he htype i (Or.inr ⟨hge, hlt⟩)
    by_contra hnot
    have hav : ¬ Unavailable mem entries i := by
      rintro ⟨e', he', htype', hmeets'⟩
      rw [hown e' he' htype' (Or.inl hmeets')] at hmeets'
      exact hnot hmeets'
    have hmarked := (hbits i).2 (Or.inr ⟨e, he, reserves_iff.2 ⟨htype, hge, hlt⟩⟩)
    have hset := hreserved.others i hav hmarked
    rw [hclear] at hset
    cases hset

/-- Memory that holds words from an address on. -/
def wordsFrom (base : Nat) (words : List Nat) : Nat → UInt8 := fun a =>
  UInt8.ofNat (words.getD ((a - base) / 4) 0 / 256 ^ ((a - base) % 4))

/-- A memory map of one entry: size, base, length and type. -/
def oneEntry (addr len : Nat) : Nat → UInt8 := wordsFrom 0x9000 [20, addr, 0, len, 0, 2]

/-- Memory that is available, a page that is not, and half a page that is not. -/
def threeEntries : Nat → UInt8 :=
  wordsFrom 0x9000
    [20, 0, 0, 0x9F000, 0, 1, 20, 0x9F000, 0, 0x1000, 0, 2, 20, 0xF0000, 0, 0x800, 0, 3]

/-- Two entries that match; and the entry of a PC's firmware, which does not match and is reserved
only in part. -/
theorem pages_reserved_three :
    (∃ s', reserveMemorymapPages threeEntries .lowPages 4 0x9000 72 emptyState = some s' ∧
      PagesReserved threeEntries [0x9000, 0x9018, 0x9030] emptyState s') ∧
    ∃ s', reserveMemorymapPages (oneEntry 0xF0000 0x10000) .lowPages 2 0x9000 24 emptyState =
      some s' ∧
      ¬ PagesReserved (oneEntry 0xF0000 0x10000) [0x9000] emptyState s' := by
  constructor
  · have hmap : WellFormedMap threeEntries 0x9000 72 [0x9000, 0x9018, 0x9030] :=
      ⟨by decide +kernel, by decide⟩
    obtain ⟨s', hs', hsuff, -⟩ := pages_reserved_iff hmap .lowPages emptyState
    exact ⟨s', hs', hsuff (by decide +kernel)⟩
  · have hmap : WellFormedMap (oneEntry 0xF0000 0x10000) 0x9000 24 [0x9000] :=
      ⟨by decide +kernel, by decide⟩
    obtain ⟨s', hs', -, hnec⟩ := pages_reserved_iff hmap .lowPages emptyState
    have hapart : EntriesApart (oneEntry 0xF0000 0x10000) [0x9000] emptyState := by
      intro e he _ i _
      refine ⟨?_, fun e' he' _ _ => ?_⟩
      · exact BitVec.getLsbD_zero
      · rw [List.mem_singleton.1 he, List.mem_singleton.1 he']
    refine ⟨s', hs', fun hreserved => ?_⟩
    have hmatch := hnec hapart hreserved 0x9000 (by decide) (by decide)
    exact absurd hmatch (by decide +kernel)

/-- The firmware of a PC, from `0xF0000` to `0x100000`: only its first page is marked. -/
theorem pages_not_reserved :
    WellFormedMap (oneEntry 0xF0000 0x10000) 0x9000 24 [0x9000] ∧
      Unavailable (oneEntry 0xF0000 0x10000) [0x9000] 0xF1 ∧ 0xF1 < 8 * emptyState.tbl.size ∧
      ((reserveMemorymapPages (oneEntry 0xF0000 0x10000) .lowPages 2 0x9000 24 emptyState).any
        fun s => !s.tbl.bit 0xF1) = true := by
  refine ⟨⟨by decide +kernel, by decide⟩, ?_, by decide +kernel, by decide +kernel⟩
  exact ⟨0x9000, by decide, by decide, 0xF1000, by decide, by decide, by decide⟩

end Reserved

end NowOS

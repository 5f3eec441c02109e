import NowOS.Mm.Frames

set_option autoImplicit false

/-! # Page tables that are edited through themselves (`kernel/paging.c`, `boot/boot.s`)

The functions of `kernel/paging.c` take the physical addresses of the page directory and of the
tables for pointers, but the processor translates each of their accesses: at first through
`boot_page_directory`, which has two pages of 4 MiB, and from `set_kern_dir` on through the very
tables that they edit. Here the functions run with every load and store translated, and an access to
a page that is not present is a fault.

What makes it work is that the first 2 MiB are mapped to themselves, the early heap with all the
tables is there, and no table is changed by clearing the page for a new one. -/

namespace NowOS

/-! ## The processor -/

/-- Physical memory with the variables of `kernel/paging.c`, the page directory base register, and
whether pages of 4 MiB are on (`CR4.PSE`). -/
structure Mmu extends Paging where
  cr3 : BitVec 32
  pse : Bool

namespace Mmu

/-- The physical address that the kernel reaches at `x`. `CR0.WP` is off, so that it may write to
every page that is present. There is no TLB in this model: a translation is that of the tables as
they are now, as if `flush_tlb` followed every change of them. -/
def translate (s : Mmu) (x : BitVec 32) : Option (BitVec 32) :=
  let pde := s.mem (entryAddr s.cr3 (pdIndex x))
  if pde.getLsbD 0 then
    if s.pse ∧ pde.getLsbD 7 then some (pde &&& ~~~0x3FFFFF#32 ||| x &&& 0x3FFFFF#32)
    else
      let pte := s.mem (entryAddr (pde &&& ~~~0xFFF#32) (ptIndex x))
      if pte.getLsbD 0 then some (pte &&& ~~~0xFFF#32 ||| x &&& 0xFFF#32) else none
  else none

/-- A load of the word at `x`; `none` is a page fault. -/
def load (x : BitVec 32) (s : Mmu) : Option (BitVec 32) := (s.translate x).map s.mem

/-- A store. -/
def store (x word : BitVec 32) (s : Mmu) : Option Mmu :=
  (s.translate x).map fun a => { s with toPaging := s.toPaging.store a word }

/-! ## The functions of the source, with their accesses translated -/

/-- `memset(x, 0, 4 * n)`, by words. -/
def clearWords : Nat → BitVec 32 → Mmu → Option Mmu
  | 0, _, s => some s
  | n + 1, x, s => (s.store x 0#32).bind (clearWords n (x + 4#32))

section Source

variable (early : EarlyPages)

/-- A page from `early_kmalloc_pages(1)`, cleared. -/
def newPage (s : Mmu) : Option (BitVec 32 × Mmu) :=
  let page := early.page s.taken
  (clearWords 1024 page { s with taken := s.taken + 1 }).map fun s => (page, s)

/-- A directory slot that is zero gets a new page table. -/
def newTable (pdindex : Nat) (s : Mmu) : Option Mmu := do
  let entry ← s.load (entryAddr s.kernelDir pdindex)
  if entry = 0#32 then
    let (tempPhysAddr, s) ← s.newPage early
    s.store (entryAddr s.kernelDir pdindex) (pageDirEntry tempPhysAddr 1 0 0 0 0)
  else some s

/-- The common part of `map_kern_page` and `map_kern_page_flags`. -/
def setEntry (virtualAddr entry : BitVec 32) (s : Mmu) : Option Mmu := do
  let s ← s.newTable early (pdIndex virtualAddr)
  let pde ← s.load (entryAddr s.kernelDir (pdIndex virtualAddr))
  s.store (entryAddr (getTblPhysAddr pde) (ptIndex virtualAddr)) entry

/-- `map_kern_page`. -/
def mapKernPage (virtualAddr physAddr : BitVec 32) (s : Mmu) : Option Mmu :=
  s.setEntry early virtualAddr (pageTblEntry physAddr 1 0 0 0)

/-- `map_kern_page_flags`. -/
def mapKernPageFlags (virtualAddr physAddr : BitVec 32) (flags : BitVec 8) (s : Mmu) : Option Mmu :=
  let flags := flags.setWidth 32
  let readWrite := (flags &&& PAGE_READWRITE) >>> 0
  let privledge := (flags &&& PAGE_ALLACCESS) >>> 1
  let writeThrough := (flags &&& PAGE_WRITETHROUGH) >>> 2
  let cacheDisabled := (flags &&& PAGE_CACHEDISABLE) >>> 3
  s.setEntry early virtualAddr
    (pageTblEntry physAddr readWrite privledge writeThrough cacheDisabled)

def exec : Paging.MapCall → Mmu → Option Mmu
  | .mapKernPage v p => mapKernPage early v p
  | .mapKernPageFlags v p flags => mapKernPageFlags early v p flags

/-- A loop of `init_kern_paging`, with `n` pages left. -/
def mapKernPages : Nat → BitVec 32 → BitVec 32 → Mmu → Option Mmu
  | 0, _, _, s => some s
  | n + 1, virtAddrCount, physAddrCount, s =>
      (s.mapKernPage early virtAddrCount physAddrCount).bind
        (mapKernPages n (virtAddrCount + BitVec.ofNat 32 PAGE_SIZE)
          (physAddrCount + BitVec.ofNat 32 PAGE_SIZE))

/-- `init_kern_paging` up to `set_kern_dir`. -/
def buildKernDir (s : Mmu) : Option Mmu := do
  let (pageDirAddrPhys, s) ← s.newPage early
  let s := { s with kernelDir := pageDirAddrPhys }
  let s ← s.mapKernPages early (KB 1024 * 2 / PAGE_SIZE) 0#32 0#32
  s.mapKernPages early (KB 1024 * 6 / PAGE_SIZE) (BitVec.ofNat 32 KERN_VIRTUAL_ADDR) 0#32

/-- `set_kern_dir`, which is `paging_init(kernel_dir)`: the directory is loaded and pages of 4 MiB
are turned off. -/
def setKernDir (s : Mmu) : Mmu := { s with cr3 := s.kernelDir, pse := false }

/-- A sequence of calls after `init_kern_paging`. -/
def run (s : Mmu) (calls : List Paging.MapCall) : Option Mmu := do
  let s ← s.buildKernDir early
  calls.foldlM (fun s c => exec early c s) s.setKernDir

end Source

/-- `KERNEL_PAGE_NUMBER`, the slot of the higher half. -/
def KERNEL_PAGE_NUMBER : Nat := KERN_VIRTUAL_ADDR >>> 22

/-- `boot_page_directory`: the first 4 MiB, at address zero and in the higher half. -/
def bootPageDirectory (i : Nat) : BitVec 32 :=
  if i = 0 ∨ i = KERNEL_PAGE_NUMBER then 0x83#32 else 0#32

/-- The processor after `entry`, with `boot_page_directory` at the physical address `dir`. -/
def atEntry (mem : BitVec 32 → BitVec 32) (dir : BitVec 32) : Mmu := ⟨⟨mem, 0#32, 0⟩, dir, true⟩

/-! ## What a translation depends on -/

variable {s : Mmu} {early : EarlyPages} {slots : List Nat} {m : AddressMap}

/-- The pages that the processor reads for its translations: the directory and the tables that it
leads to. -/
def Reads (s : Mmu) (g : BitVec 32) : Prop :=
  g = s.cr3 ∨ ∃ d, d < 1024 ∧ (s.mem (entryAddr s.cr3 d)).getLsbD 0 = true ∧
    ¬ (s.pse = true ∧ (s.mem (entryAddr s.cr3 d)).getLsbD 7 = true) ∧
    g = s.mem (entryAddr s.cr3 d) &&& ~~~0xFFF#32

theorem shiftRight_shiftLeft_twelve (w : BitVec 32) : (w >>> 12) <<< 12 = w &&& ~~~0xFFF#32 := by
  apply BitVec.eq_of_getLsbD_eq
  intro i hi
  rw [BitVec.getLsbD_and, getLsbD_not_0xFFF hi, BitVec.getLsbD_shiftLeft,
    BitVec.getLsbD_ushiftRight]
  by_cases h : 12 ≤ i
  · simp [h, hi, show ¬ i < 12 by omega]
  · simp [h, show i < 12 by omega]

theorem toNat_and_not_0xFFF (w : BitVec 32) : (w &&& ~~~0xFFF#32).toNat % 4096 = 0 := by
  rw [← shiftRight_shiftLeft_twelve, BitVec.toNat_shiftLeft, Nat.shiftLeft_eq]
  omega

theorem Reads.aligned {g : BitVec 32} (h : s.Reads g) (hcr3 : s.cr3.toNat % 4096 = 0) :
    g.toNat % 4096 = 0 := by
  rcases h with rfl | ⟨d, -, -, -, rfl⟩
  · exact hcr3
  · exact toNat_and_not_0xFFF _

section Agree

variable {mem' : BitVec 32 → BitVec 32}
  (h : ∀ g, s.Reads g → ∀ i, i < 1024 → mem' (entryAddr g i) = s.mem (entryAddr g i))

include h

/-- Memory that is the same on the pages that are read translates in the same way. -/
theorem translate_congr (x : BitVec 32) : { s with mem := mem' }.translate x = s.translate x := by
  have hpde : mem' (entryAddr s.cr3 (pdIndex x)) = s.mem (entryAddr s.cr3 (pdIndex x)) :=
    h _ (Or.inl rfl) _ (pdIndex_lt x)
  unfold translate
  simp only [hpde]
  split
  next hpresent =>
    split
    next => rfl
    next hsmall => rw [h _ (Or.inr ⟨_, pdIndex_lt x, hpresent, hsmall, rfl⟩) _ (ptIndex_lt x)]
  next => rfl

theorem reads_congr (g : BitVec 32) : { s with mem := mem' }.Reads g ↔ s.Reads g := by
  have hpde : ∀ d, d < 1024 → mem' (entryAddr s.cr3 d) = s.mem (entryAddr s.cr3 d) :=
    fun d hd => h _ (Or.inl rfl) d hd
  unfold Reads
  dsimp only
  refine or_congr_right (exists_congr fun d => and_congr_right fun hd => ?_)
  rw [hpde d hd]

end Agree

/-- The first 2 MiB are mapped to themselves. -/
def Direct (s : Mmu) : Prop := ∀ x : BitVec 32, x.toNat < 0x200000 → s.translate x = some x

theorem entryAddr_low {f : BitVec 32} (hf : f.toNat % 4096 = 0) (hlow : f.toNat < 0x200000)
    {i : Nat} (hi : i < 1024) : (entryAddr f i).toNat < 0x200000 := by
  rw [toNat_entryAddr hf hi]
  omega

theorem Direct.load (h : Direct s) {f : BitVec 32} (hf : f.toNat % 4096 = 0)
    (hlow : f.toNat < 0x200000) {i : Nat} (hi : i < 1024) :
    s.load (entryAddr f i) = some (s.mem (entryAddr f i)) := by
  rw [Mmu.load, h _ (entryAddr_low hf hlow hi), Option.map_some]

theorem Direct.store (h : Direct s) {f : BitVec 32} (hf : f.toNat % 4096 = 0)
    (hlow : f.toNat < 0x200000) {i : Nat} (hi : i < 1024) (w : BitVec 32) :
    s.store (entryAddr f i) w = some { s with toPaging := s.toPaging.store (entryAddr f i) w } := by
  rw [Mmu.store, h _ (entryAddr_low hf hlow hi), Option.map_some]

/-- Clearing a page that no translation reads. -/
theorem clearWords_eq {f : BitVec 32} (hf : f.toNat % 4096 = 0) (hlow : f.toNat < 0x200000)
    {n j : Nat} (hn : j + n = 1024) (hcr3 : s.cr3.toNat % 4096 = 0) (hdirect : Direct s)
    (hreads : ¬ s.Reads f) :
    ∃ mem', s.clearWords n (entryAddr f j) = some { s with mem := mem' } ∧
      (∀ i, j ≤ i → i < 1024 → mem' (entryAddr f i) = 0#32) ∧
      ∀ x, (∀ i, j ≤ i → i < 1024 → x ≠ entryAddr f i) → mem' x = s.mem x := by
  induction n generalizing s j with
  | zero => exact ⟨s.mem, rfl, fun i hji hi => by omega, fun _ _ => rfl⟩
  | succ n ih =>
      have hj : j < 1024 := by omega
      have hagree : ∀ g, s.Reads g → ∀ i, i < 1024 →
          Function.update s.mem (entryAddr f j) 0#32 (entryAddr g i) = s.mem (entryAddr g i) := by
        intro g hg i hi
        apply Function.update_of_ne
        intro heq
        have hgf := (entryAddr_inj (hg.aligned hcr3) hf hi hj heq).1
        exact hreads (hgf ▸ hg)
      have hnext : entryAddr f j + 4#32 = entryAddr f (j + 1) := by
        rw [entryAddr, entryAddr, BitVec.add_assoc, ← BitVec.ofNat_add, Nat.mul_succ]
      obtain ⟨mem', hrun, hzero, hkeep⟩ := @ih
        { s with mem := Function.update s.mem (entryAddr f j) 0#32 } (j + 1) (by omega) hcr3
        (fun x hx => (translate_congr hagree x).trans (hdirect x hx))
        (fun h => hreads ((reads_congr hagree f).mp h))
      refine ⟨mem', ?_, ?_, ?_⟩
      · rw [clearWords, hdirect.store hf hlow hj, Option.bind_some, hnext]
        exact hrun
      · intro i hji hi
        by_cases hij : i = j
        · -- the word of this turn is not touched again
          rw [hkeep, hij]
          · exact Function.update_self _ _ _
          · intro k hk hk' heq
            have := (entryAddr_inj hf hf hi hk' heq).2
            omega
        · exact hzero i (by omega) hi
      · intro x hx
        rw [hkeep x fun i hi hi' => hx i (by omega) hi']
        exact Function.update_of_ne (hx j (Nat.le_refl j) hj) _ _

end Mmu

/-! ## The same words -/

namespace Paging

variable {early : EarlyPages} {s s' : Paging} {slots : List Nat} {m : AddressMap}

/-- The variables are the same, and so is every word of every page. -/
structure SameWords (s s' : Paging) : Prop where
  kernelDir : s'.kernelDir = s.kernelDir
  taken : s'.taken = s.taken
  mem : ∀ f : BitVec 32, f.toNat % 4096 = 0 → ∀ i, i < 1024 →
    s'.mem (entryAddr f i) = s.mem (entryAddr f i)

theorem SameWords.store (h : SameWords s s') (x w : BitVec 32) :
    SameWords (s.store x w) (s'.store x w) where
  kernelDir := h.kernelDir
  taken := h.taken
  mem f hf i hi := by
    by_cases hx : entryAddr f i = x
    · rw [hx, store_self, store_self]
    · exact (Function.update_of_ne hx _ _).trans
        ((h.mem f hf i hi).trans (Function.update_of_ne hx _ _).symm)

theorem SameWords.dirEntry (h : SameWords s s') (hdir : s.kernelDir.toNat % 4096 = 0) {d : Nat}
    (hd : d < 1024) : s'.dirEntry d = s.dirEntry d := by
  rw [Paging.dirEntry, h.kernelDir, h.mem _ hdir d hd]
  rfl

/-- Which map the tables implement depends on the words only. -/
theorem Implements.congr (h : Implements early s slots m) (hs : SameWords s s') :
    Implements early s' slots m where
  dir := hs.kernelDir.trans h.dir
  taken := hs.taken.trans h.taken
  nodup := h.nodup
  lt := h.lt
  entry d hd := (hs.dirEntry h.dir_aligned hd).trans (h.entry d hd)
  table d k hk t ht := by rw [hs.mem _ (h.page_aligned hk) t ht, h.table d k hk t ht]
  empty := h.empty

/-- A new table changes the pages of `early_kmalloc_pages` only. -/
theorem Implements.newTable_frame (h : Implements early s slots m) {d : Nat} (hd : d < 1024)
    {g : BitVec 32} (hg : g.toNat % 4096 = 0) (hne : ∀ k, k ≤ 1024 → early.page k ≠ g) {i : Nat}
    (hi : i < 1024) : (s.newTable early d).mem (entryAddr g i) = s.mem (entryAddr g i) := by
  unfold Paging.newTable
  split
  next hzero =>
    have htaken : s.taken ≤ 1024 := by
      rw [h.taken]
      exact h.length_lt hd ((h.dirEntry_eq_zero hd).mp hzero)
    have hother : ¬ (g = s.kernelDir ∧ i = d) := by
      rintro ⟨hgd, -⟩
      rw [h.dir] at hgd
      exact hne 0 (by decide) hgd.symm
    simp only [newPage, clearPage_kernelDir]
    rw [store_other h.dir_aligned hg hd hi hother,
      clearPage_other (early.aligned _ htaken) hg (hne _ htaken).symm hi]
  next => rfl

end Paging

namespace Mmu

open Paging

variable {s : Mmu} {early : EarlyPages} {slots : List Nat} {m : AddressMap} {b : BitVec 32}

/-! ## The two directories -/

/-- The first 2 MiB of an address map. -/
def Low (m : AddressMap) : Prop := ∀ n, n < 512 → ∃ e, m n = some e ∧ e.frame = BitVec.ofNat 32 n

/-- The processor uses `boot_page_directory`, at `b`. -/
structure Boots (b : BitVec 32) (s : Mmu) : Prop where
  cr3 : s.cr3 = b
  pse : s.pse = true
  mem : ∀ i, i < 1024 → s.mem (entryAddr b i) = bootPageDirectory i

/-- The processor uses the tables of the kernel. -/
structure Runs (s : Mmu) (m : AddressMap) : Prop where
  cr3 : s.cr3 = s.kernelDir
  pse : s.pse = false
  low : Low m

theorem bootPageDirectory_cases (i : Nat) :
    (i = 0 ∨ i = KERNEL_PAGE_NUMBER) ∧ bootPageDirectory i = 0x83#32 ∨
      ¬ (i = 0 ∨ i = KERNEL_PAGE_NUMBER) ∧ bootPageDirectory i = 0#32 := by
  by_cases h : i = 0 ∨ i = KERNEL_PAGE_NUMBER
  · exact Or.inl ⟨h, if_pos h⟩
  · exact Or.inr ⟨h, if_neg h⟩

/-- The translation at first. -/
theorem Boots.translate (h : Boots b s) (x : BitVec 32) :
    s.translate x =
      if pdIndex x = 0 ∨ pdIndex x = KERNEL_PAGE_NUMBER then some (x &&& 0x3FFFFF#32)
      else none := by
  have hpde := h.mem _ (pdIndex_lt x)
  unfold Mmu.translate
  rw [h.cr3, h.pse, hpde]
  rcases bootPageDirectory_cases (pdIndex x) with ⟨hin, hentry⟩ | ⟨hout, hentry⟩
  · rw [if_pos hin, hentry, if_pos (by decide), if_pos (by decide)]
    simp
  · rw [if_neg hout, hentry, if_neg (by decide)]

theorem Boots.reads (h : Boots b s) {g : BitVec 32} (hg : s.Reads g) : g = b := by
  rcases hg with rfl | ⟨d, hd, hpresent, hsmall, -⟩
  · exact h.cr3
  · rw [h.cr3, h.mem d hd] at hpresent hsmall
    rcases bootPageDirectory_cases d with ⟨-, hentry⟩ | ⟨-, hentry⟩
    · rw [hentry] at hsmall
      exact absurd ⟨h.pse, by decide⟩ hsmall
    · rw [hentry] at hpresent
      exact absurd hpresent (by decide)

/-- Where a mapping leads. -/
def physAddr (e : Mapping) (x : BitVec 32) : BitVec 32 := e.frame <<< 12 ||| x &&& 0xFFF#32

/-- The translation through tables that implement a map. -/
theorem translate_of_implements (hi : Implements early s.toPaging slots m)
    (hcr3 : s.cr3 = s.kernelDir) (hpse : s.pse = false) (x : BitVec 32) :
    s.translate x = (m (pageNumber x)).map fun e => physAddr e x := by
  rw [← hi.walk x, Paging.walk, walkAddr, Mmu.translate, hcr3, hpse, Paging.dirEntry]
  dsimp only
  split
  next =>
    rw [if_neg (by simp), Option.bind_some, decodeEntry]
    split
    next => rw [Option.map_some, physAddr, shiftRight_shiftLeft_twelve]
    next => rfl
  next => rfl

theorem Runs.reads (h : Runs s m) (hi : Implements early s.toPaging slots m) {g : BitVec 32}
    (hg : s.Reads g) : ∃ k, k ≤ slots.length ∧ g = early.page k := by
  rcases hg with rfl | ⟨d, hd, hpresent, -, rfl⟩
  · exact ⟨0, Nat.zero_le _, h.cr3.trans hi.dir⟩
  · rw [h.cr3] at hpresent ⊢
    have hentry := hi.entry d hd
    rw [Paging.dirEntry] at hentry
    rw [hentry] at hpresent ⊢
    cases hk : pageOf slots d with
    | none =>
        rw [hk, Option.elim_none] at hpresent
        exact absurd hpresent (by decide)
    | some k =>
        exact ⟨k, (pageOf_bounds hk).2, (pageDirEntry_and (hi.page_aligned hk)).1⟩

/-! ## Either way the tables can be edited -/

/-- `boot_page_directory` is a page of its own. -/
structure BootPage (early : EarlyPages) (b : BitVec 32) : Prop where
  aligned : b.toNat % 4096 = 0
  ne : ∀ k, k ≤ 1024 → early.page k ≠ b

/-- What the functions need: the first 2 MiB are mapped to themselves, and the pages that
`early_kmalloc_pages` has not yet handed out are not read. -/
structure Usable (early : EarlyPages) (s : Mmu) (used : Nat) : Prop where
  cr3_aligned : s.cr3.toNat % 4096 = 0
  direct : Direct s
  unread : ∀ k, used ≤ k → k ≤ 1024 → ¬ s.Reads (early.page k)

theorem Boots.usable (h : Boots b s) (hb : BootPage early b) (used : Nat) :
    Usable early s used where
  cr3_aligned := by rw [h.cr3]; exact hb.aligned
  direct x hx := by
    have hpd : pdIndex x = 0 := by
      rw [pdIndex, BitVec.toNat_ushiftRight, Nat.shiftRight_eq_div_pow]
      omega
    rw [h.translate x, if_pos (Or.inl hpd)]
    congr 1
    apply BitVec.eq_of_toNat_eq
    have hmask := Nat.and_two_pow_sub_one_eq_mod x.toNat 22
    rw [BitVec.toNat_and]
    exact hmask.trans (Nat.mod_eq_of_lt (by omega))
  unread k _ hk hread := hb.ne k hk (h.reads hread)

/-- A page that is mapped to itself. -/
theorem physAddr_self {x : BitVec 32} {e : Mapping}
    (he : e.frame = BitVec.ofNat 32 (pageNumber x)) :
    physAddr e x = x := by
  have hshift : e.frame = x >>> 12 := by
    rw [he, pageNumber, BitVec.ofNat_toNat, BitVec.setWidth_eq]
  have hmask : ~~~0xFFF#32 ||| 0xFFF#32 = BitVec.allOnes 32 := by decide
  rw [physAddr, hshift, shiftRight_shiftLeft_twelve, ← BitVec.and_or_distrib_left, hmask,
    BitVec.and_allOnes]

theorem Runs.usable (h : Runs s m) (hi : Implements early s.toPaging slots m) :
    Usable early s (slots.length + 1) where
  cr3_aligned := by rw [h.cr3]; exact hi.dir_aligned
  direct x hx := by
    have hpn : pageNumber x < 512 := by
      rw [pageNumber_eq_div]
      omega
    obtain ⟨e, hm, hframe⟩ := h.low _ hpn
    rw [translate_of_implements hi h.cr3 h.pse, hm, Option.map_some, physAddr_self hframe]
  unread k hk hk' hread := by
    obtain ⟨j, hj, heq⟩ := h.reads hi hread
    have := early.inj k j hk' (by have := hi.length_le; omega) heq
    omega

/-- The processor uses either directory. -/
def Mode (b : BitVec 32) (s : Mmu) (m : AddressMap) : Prop := Boots b s ∨ Runs s m

theorem Mode.usable (h : Mode b s m) (hb : BootPage early b)
    (hi : Implements early s.toPaging slots m) : Usable early s (slots.length + 1) := by
  rcases h with hboots | hruns
  · exact hboots.usable hb _
  · exact hruns.usable hi

/-- What a call leaves as it is: the registers, `kernel_dir` and `boot_page_directory`. -/
structure SameDirectory (b : BitVec 32) (s s' : Mmu) : Prop where
  cr3 : s'.cr3 = s.cr3
  pse : s'.pse = s.pse
  kernelDir : s'.kernelDir = s.kernelDir
  mem : ∀ i, i < 1024 → s'.mem (entryAddr b i) = s.mem (entryAddr b i)

theorem Boots.of_same (h : Boots b s) {s' : Mmu} (hs : SameDirectory b s s') : Boots b s' where
  cr3 := hs.cr3.trans h.cr3
  pse := hs.pse.trans h.pse
  mem i hi := (hs.mem i hi).trans (h.mem i hi)

theorem Runs.of_same (h : Runs s m) {s' : Mmu} (hs : SameDirectory b s s') {m' : AddressMap}
    (hlow : Low m') : Runs s' m' where
  cr3 := by rw [hs.cr3, hs.kernelDir, h.cr3]
  pse := hs.pse.trans h.pse
  low := hlow

theorem Mode.of_same (h : Mode b s m) {s' : Mmu} (hs : SameDirectory b s s') : Mode b s' m := by
  rcases h with hboots | hruns
  · exact Or.inl (hboots.of_same hs)
  · exact Or.inr (hruns.of_same hs hruns.low)

/-! ## One call -/

/-- A new page is cleared as on physical memory, and nothing is translated in another way. -/
theorem newPage_eq (hu : Usable early s s.taken) (htaken : s.taken ≤ 1024)
    (hlow : (early.page s.taken).toNat < 0x200000) :
    ∃ s', s.newPage early = some (early.page s.taken, s') ∧
      SameWords (s.toPaging.newPage early).2 s'.toPaging ∧ s'.cr3 = s.cr3 ∧ s'.pse = s.pse ∧
      ∀ x, s'.translate x = s.translate x := by
  have hf := early.aligned s.taken htaken
  obtain ⟨mem', hrun, hzero, hkeep⟩ :=
    @clearWords_eq { s with taken := s.taken + 1 } _ hf hlow 1024 0
      rfl hu.cr3_aligned hu.direct (hu.unread _ (Nat.le_refl _) htaken)
  have hother : ∀ g : BitVec 32, g.toNat % 4096 = 0 → g ≠ early.page s.taken → ∀ i, i < 1024 →
      mem' (entryAddr g i) = s.mem (entryAddr g i) := by
    intro g hg hne i hi
    apply hkeep
    intro j _ hj heq
    exact hne (entryAddr_inj hg hf hi hj heq).1
  have hstart : entryAddr (early.page s.taken) 0 = early.page s.taken := BitVec.add_zero _
  rw [hstart] at hrun
  refine ⟨{ s with taken := s.taken + 1, mem := mem' }, ?_, ⟨rfl, rfl, ?_⟩, rfl, rfl, ?_⟩
  · rw [newPage, hrun, Option.map_some]
  · intro g hg i hi
    by_cases hgf : g = early.page s.taken
    · rw [hgf]
      exact (hzero i (Nat.zero_le i) hi).trans (clearPage_self hf hi _).symm
    · exact (hother g hg hgf i hi).trans (clearPage_other hf hg hgf hi _).symm
  · intro x
    refine translate_congr (s := s) ?_ x
    intro g hg i hi
    refine hother g (hg.aligned hu.cr3_aligned) ?_ i hi
    rintro rfl
    exact hu.unread _ (Nat.le_refl _) htaken hg

/-- The tables that there are, and the one that slot `d` may still need, are below 2 MiB. -/
structure Room (early : EarlyPages) (slots : List Nat) (d : Nat) : Prop where
  low : ∀ k, k ≤ slots.length → (early.page k).toNat < 0x200000
  next : d ∉ slots → (early.page (slots.length + 1)).toNat < 0x200000

theorem Room.low_of_mem {d : Nat} (h : Room early slots d) {slots' : List Nat}
    (hnodup : slots'.Nodup) (hmem : ∀ x ∈ slots', x = d ∨ x ∈ slots) {k : Nat}
    (hk : k ≤ slots'.length) :
    (early.page k).toNat < 0x200000 := by
  by_cases hd : d ∈ slots
  · have hsub : slots' ⊆ slots := by
      intro x hx
      rcases hmem x hx with rfl | hx
      · exact hd
      · exact hx
    exact h.low k (hk.trans (hnodup.subperm hsub).length_le)
  · have hsub : slots' ⊆ d :: slots := fun x hx => List.mem_cons.mpr (hmem x hx)
    have hlen := hk.trans (hnodup.subperm hsub).length_le
    rw [List.length_cons] at hlen
    rcases Nat.lt_or_ge slots.length k with hlt | hge
    · rw [show k = slots.length + 1 by omega]
      exact h.next hd
    · exact h.low k hge

theorem newTable_eq (hi : Implements early s.toPaging slots m)
    (hu : Usable early s (slots.length + 1)) {d : Nat} (hd : d < 1024)
    (hroom : Room early slots d) :
    ∃ s', s.newTable early d = some s' ∧
      SameWords (s.toPaging.newTable early d) s'.toPaging ∧ s'.cr3 = s.cr3 ∧ s'.pse = s.pse := by
  have hdirlow : s.kernelDir.toNat < 0x200000 := by
    rw [hi.dir]
    exact hroom.low 0 (Nat.zero_le _)
  have hload : s.load (entryAddr s.kernelDir d) = some (s.dirEntry d) :=
    hu.direct.load hi.dir_aligned hdirlow hd
  unfold Mmu.newTable Paging.newTable
  rw [hload]
  by_cases hzero : s.dirEntry d = 0#32
  · have hnew : d ∉ slots := (hi.dirEntry_eq_zero hd).mp hzero
    have htaken := hi.taken
    obtain ⟨s1, hpage, hsame, hcr3, hpse, htrans⟩ := newPage_eq (s := s)
      (by rw [htaken]; exact hu) (by rw [htaken]; exact hi.length_lt hd hnew)
      (by rw [htaken]; exact hroom.next hnew)
    have hdir : s1.kernelDir = s.kernelDir := hsame.kernelDir
    have hdirect : Direct s1 := fun x hx => (htrans x).trans (hu.direct x hx)
    have hstore := hdirect.store hi.dir_aligned hdirlow hd
      (pageDirEntry (early.page s.taken) 1 0 0 0 0)
    simp only [Option.bind_eq_bind, Option.bind_some, if_pos hzero, hpage, hdir]
    exact ⟨_, hstore, hsame.store _ _, hcr3, hpse⟩
  · simp only [Option.bind_eq_bind, Option.bind_some, if_neg hzero]
    exact ⟨s, rfl, ⟨rfl, rfl, fun _ _ _ _ => rfl⟩, rfl, rfl⟩

/-- An entry is set as on physical memory. -/
theorem setEntry_eq (hb : BootPage early b) (hi : Implements early s.toPaging slots m)
    (hm : Mode b s m) (v w : BitVec 32) (hroom : Room early slots (pdIndex v)) :
    ∃ s' slots', s.setEntry early v w = some s' ∧
      Implements early s'.toPaging slots' (Function.update m (pageNumber v) (decodeEntry w)) ∧
      (∀ x, x ∈ slots' ↔ x = pdIndex v ∨ x ∈ slots) ∧ SameDirectory b s s' := by
  have hd := pdIndex_lt v
  obtain ⟨s1, hrun, hsame, hcr3, hpse⟩ := newTable_eq hi (hm.usable hb hi) hd hroom
  obtain ⟨slots', hi', hslots'⟩ := hi.newTable hd
  have hi1 : Implements early s1.toPaging slots' m := hi'.congr hsame
  have hs1 : SameDirectory b s s1 := ⟨hcr3, hpse, by rw [hi1.dir, hi.dir], fun i hi_ =>
    (hsame.mem b hb.aligned i hi_).trans (hi.newTable_frame hd hb.aligned hb.ne hi_)⟩
  have hdirect := ((hm.of_same hs1).usable hb hi1).direct
  -- the table is one of the early pages, so that it can be reached
  obtain ⟨k, hk⟩ : ∃ k, pageOf slots' (pdIndex v) = some k := by
    cases hk : pageOf slots' (pdIndex v) with
    | none => exact absurd ((hslots' _).mpr (Or.inl rfl)) (pageOf_eq_none.mp hk)
    | some k => exact ⟨k, rfl⟩
  have htbl : getTblPhysAddr (s1.dirEntry (pdIndex v)) = early.page k := by
    rw [hi1.entry _ hd, hk]
    exact (pageDirEntry_and (hi1.page_aligned hk)).2
  have hdirlow : s1.kernelDir.toNat < 0x200000 := by
    rw [hi1.dir]
    exact hroom.low 0 (Nat.zero_le _)
  have hload : s1.load (entryAddr s1.kernelDir (pdIndex v)) = some (s1.dirEntry (pdIndex v)) :=
    hdirect.load hi1.dir_aligned hdirlow hd
  have htbllow : (early.page k).toNat < 0x200000 :=
    hroom.low_of_mem hi1.nodup (fun x hx => (hslots' x).mp hx) (pageOf_bounds hk).2
  have hstore := hdirect.store (hi1.page_aligned hk) htbllow (ptIndex_lt v) w
  refine ⟨{ s1 with toPaging := s1.toPaging.store (entryAddr (early.page k) (ptIndex v)) w },
    slots', ?_, ?_, hslots', ?_⟩
  · unfold Mmu.setEntry
    simp only [Option.bind_eq_bind, hrun, Option.bind_some, hload, htbl]
    exact hstore
  · have hset := hi1.store ((hslots' _).mpr (Or.inl rfl)) (ptIndex_lt v) w
    rw [htbl] at hset
    rw [pageNumber_eq]
    exact hset
  · refine ⟨hs1.cr3, hs1.pse, hs1.kernelDir, fun i hi_ => ?_⟩
    rw [← hs1.mem i hi_]
    apply Function.update_of_ne
    intro heq
    have hkb := (entryAddr_inj hb.aligned (hi1.page_aligned hk) hi_ (ptIndex_lt v) heq).1
    exact hb.ne k (by have := pageOf_bounds hk; have := hi1.length_le; omega) hkb.symm

/-- The page directory and a table for each slot of `dirs` are below 2 MiB. -/
def TablesLow (early : EarlyPages) (dirs : Finset Nat) : Prop :=
  ∀ k, k ≤ dirs.card → (early.page k).toNat < 0x200000

theorem TablesLow.room {dirs : Finset Nat} (h : TablesLow early dirs) (hnodup : slots.Nodup)
    (hmem : ∀ x ∈ slots, x ∈ dirs) {d : Nat} (hd : d ∈ dirs) : Room early slots d := by
  have hlen : ∀ l : List Nat, l.Nodup → (∀ x ∈ l, x ∈ dirs) → l.length ≤ dirs.card := by
    intro l hl hsub
    rw [← List.toFinset_card_of_nodup hl]
    exact Finset.card_le_card fun x hx => hsub x (List.mem_toFinset.mp hx)
  refine ⟨fun k hk => h k (hk.trans (hlen slots hnodup hmem)), fun hnew => h _ ?_⟩
  refine hlen (d :: slots) (List.nodup_cons.mpr ⟨hnew, hnodup⟩) fun x hx => ?_
  rcases List.mem_cons.mp hx with rfl | hx
  · exact hd
  · exact hmem x hx

/-- The entry that a call stores. -/
def callEntry : MapCall → BitVec 32
  | .mapKernPage _ p => pageTblEntry p 1 0 0 0
  | .mapKernPageFlags _ p flags =>
      pageTblEntry p ((flags.setWidth 32 &&& PAGE_READWRITE) >>> 0)
        ((flags.setWidth 32 &&& PAGE_ALLACCESS) >>> 1)
        ((flags.setWidth 32 &&& PAGE_WRITETHROUGH) >>> 2)
        ((flags.setWidth 32 &&& PAGE_CACHEDISABLE) >>> 3)

theorem decodeEntry_callEntry (c : MapCall) : decodeEntry (callEntry c) = some c.mapping := by
  cases c with
  | mapKernPage v p => exact decodeEntry_pageTblEntry p true false false false
  | mapKernPageFlags v p flags =>
      obtain ⟨hrw, hus, hwt, hcd⟩ := MapCall.flagWord_flags flags
      rw [callEntry, hrw, hus, hwt, hcd, decodeEntry_pageTblEntry]
      rfl

theorem exec_eq_setEntry (early : EarlyPages) (c : MapCall) (s : Mmu) :
    exec early c s = s.setEntry early c.virt (callEntry c) := by
  cases c with
  | mapKernPage v p => rfl
  | mapKernPageFlags v p flags => rfl

/-- A call does not fault, and it maps its page to what it asks for. -/
theorem exec_eq (hb : BootPage early b) (hi : Implements early s.toPaging slots m) (hm : Mode b s m)
    (c : MapCall) {dirs : Finset Nat} (hlow : TablesLow early dirs) (hslots : ∀ x ∈ slots, x ∈ dirs)
    (hc : pdIndex c.virt ∈ dirs) :
    ∃ s' slots', exec early c s = some s' ∧
      Implements early s'.toPaging slots' (Function.update m (pageNumber c.virt) (some c.mapping)) ∧
      (∀ x, x ∈ slots' ↔ x = pdIndex c.virt ∨ x ∈ slots) ∧ SameDirectory b s s' := by
  have hset := setEntry_eq hb hi hm c.virt (callEntry c) (hlow.room hi.nodup hslots hc)
  rwa [decodeEntry_callEntry, ← exec_eq_setEntry] at hset

/-! ## The boot -/

theorem toNat_nextPage {x : BitVec 32} {k : Nat} (hx : x.toNat = 4096 * k) (hk : k + 1 < 1048576) :
    (x + BitVec.ofNat 32 PAGE_SIZE).toNat = 4096 * (k + 1) := by
  rw [BitVec.toNat_add, BitVec.toNat_ofNat, hx, PAGE_SIZE]
  omega

/-- The loops of `init_kern_paging`, with `boot_page_directory` in use. -/
theorem mapKernPages_eq (hb : BootPage early b) (hi : Implements early s.toPaging slots m)
    (hm : Boots b s) {dirs : Finset Nat} (hlow : TablesLow early dirs)
    (hslots : ∀ x ∈ slots, x ∈ dirs) {n vp fp : Nat} {v p : BitVec 32} (hv : v.toNat = 4096 * vp)
    (hp : p.toNat = 4096 * fp) (hvn : vp + n < 1048576) (hpn : fp + n < 1048576)
    (hdirs : ∀ i, i < n → (vp + i) / 1024 ∈ dirs) :
    ∃ s' slots', s.mapKernPages early n v p = some s' ∧
      Implements early s'.toPaging slots' (m.withPages vp fp n) ∧ Boots b s' ∧
      ∀ x ∈ slots', x ∈ dirs := by
  induction n generalizing s slots m vp fp v p with
  | zero =>
      have hsame : m.withPages vp fp 0 = m := by
        funext x
        exact if_neg (by omega)
      exact ⟨s, slots, rfl, by rw [hsame]; exact hi, hm, hslots⟩
  | succ n ih =>
      have hpd : pdIndex v ∈ dirs := by
        rw [pdIndex_of_toNat hv]
        exact hdirs 0 (by omega)
      obtain ⟨s1, slots1, hrun1, hi1, hslots1, hsame⟩ :=
        exec_eq hb hi (Or.inl hm) (.mapKernPage v p) hlow hslots hpd
      have hmem1 : ∀ x ∈ slots1, x ∈ dirs := by
        intro x hx
        rcases (hslots1 x).mp hx with rfl | hx
        · exact hpd
        · exact hslots x hx
      have hdirs1 : ∀ i, i < n → (vp + 1 + i) / 1024 ∈ dirs := by
        intro i hi
        rw [Nat.add_right_comm]
        exact hdirs (i + 1) (by omega)
      obtain ⟨s', slots', hrun, hi', hm', hslots'⟩ := ih hi1 (hm.of_same hsame) hmem1
        (toNat_nextPage hv (by omega)) (toNat_nextPage hp (by omega)) (by omega) (by omega) hdirs1
      simp only [MapCall.virt, MapCall.mapping, pageNumber_of_toNat hv, shiftRight_of_toNat hp,
        withPages_succ] at hi'
      refine ⟨s', slots', ?_, hi', hm', hslots'⟩
      rw [mapKernPages, show s.mapKernPage early v p = some s1 from hrun1, Option.bind_some]
      exact hrun

/-- The slots that `init_kern_paging` needs. -/
def bootDirs : Finset Nat := {0, 768, 769}

/-- `init_kern_paging` up to `set_kern_dir` does not fault, and it leaves the address map of the
boot. -/
theorem buildKernDir_eq (hb : BootPage early b) {mem : BitVec 32 → BitVec 32}
    (hmem : ∀ i, i < 1024 → mem (entryAddr b i) = bootPageDirectory i) {dirs : Finset Nat}
    (hlow : TablesLow early dirs) (hdirs : bootDirs ⊆ dirs) :
    ∃ s slots, (atEntry mem b).buildKernDir early = some s ∧
      Implements early s.toPaging slots .boot ∧ Boots b s ∧ ∀ x ∈ slots, x ∈ dirs := by
  have hboots : Boots b (atEntry mem b) := ⟨rfl, rfl, hmem⟩
  obtain ⟨s0, hpage, hsame, hcr3, hpse, -⟩ := newPage_eq (s := atEntry mem b)
    (hboots.usable hb 0) (Nat.zero_le _) (hlow 0 (Nat.zero_le _))
  -- the directory is empty, and `boot_page_directory` is still in use
  have hi0 : Implements early { s0 with kernelDir := early.page 0 }.toPaging [] fun _ => none :=
    (implements_newDirectory early mem).congr ⟨rfl, hsame.taken, hsame.mem⟩
  have hboots0 : Boots b { s0 with kernelDir := early.page 0 } := by
    refine ⟨hcr3, hpse, fun i hi => ?_⟩
    have hclear :=
      clearPage_other (early.aligned 0 (by decide)) hb.aligned (hb.ne 0 (by decide)).symm hi
    exact (hsame.mem b hb.aligned i hi).trans ((hclear _).trans (hmem i hi))
  have hzero : (0#32).toNat = 4096 * 0 := by decide
  have hhalf : (BitVec.ofNat 32 KERN_VIRTUAL_ADDR).toNat = 4096 * 0xC0000 := by decide
  have hdir : ∀ i, i ∈ [0, 768, 769] → i ∈ dirs := by
    intro i hi
    apply hdirs
    simpa [bootDirs] using hi
  obtain ⟨s1, slots1, hrun1, hi1, hboots1, hslots1⟩ :=
    mapKernPages_eq (n := 512) hb hi0 hboots0 hlow (by simp) hzero hzero (by omega) (by omega)
      (fun i hi => by
        rw [show (0 + i) / 1024 = 0 by omega]
        exact hdir 0 (by simp))
  obtain ⟨s2, slots2, hrun2, hi2, hboots2, hslots2⟩ :=
    mapKernPages_eq (n := 1536) hb hi1 hboots1 hlow hslots1 hhalf hzero (by omega) (by omega)
      (fun i hi => by
        rcases Nat.lt_or_ge i 1024 with hlt | hge
        · rw [show (0xC0000 + i) / 1024 = 768 by omega]
          exact hdir 768 (by simp)
        · rw [show (0xC0000 + i) / 1024 = 769 by omega]
          exact hdir 769 (by simp))
  refine ⟨s2, slots2, ?_, hi2, hboots2, hslots2⟩
  unfold buildKernDir
  simp only [Option.bind_eq_bind, hpage, Option.bind_some,
    show KB 1024 * 2 / PAGE_SIZE = 512 by decide, show KB 1024 * 6 / PAGE_SIZE = 1536 by decide]
  rw [show (atEntry mem b).taken = 0 from rfl, hrun1, Option.bind_some, hrun2]

/-! ## From one directory to the other -/

theorem toNat_physAddr {n : Nat} (hn : n < 1048576) (rw us wt cd : Bool) (x : BitVec 32) :
    (physAddr ⟨BitVec.ofNat 32 n, rw, us, wt, cd⟩ x).toNat = 4096 * n + x.toNat % 4096 := by
  have hmask : (x &&& 0xFFF#32).toNat = x.toNat % 2 ^ 12 := by
    rw [BitVec.toNat_and]
    exact Nat.and_two_pow_sub_one_eq_mod _ 12
  have hframe : (BitVec.ofNat 32 n <<< 12).toNat = n <<< 12 := by
    rw [BitVec.toNat_shiftLeft, BitVec.toNat_ofNat, Nat.shiftLeft_eq, Nat.shiftLeft_eq]
    omega
  rw [physAddr, BitVec.toNat_or, hframe, hmask,
    ← Nat.shiftLeft_add_eq_or_of_lt (Nat.mod_lt _ (by decide)), Nat.shiftLeft_eq]
  omega

/-- What `boot_page_directory` maps. -/
theorem Boots.translate_eq (h : Boots b s) (x : BitVec 32) :
    s.translate x =
      if x.toNat < 0x400000 ∨ 0xC0000000 ≤ x.toNat ∧ x.toNat < 0xC0400000 then
        some (BitVec.ofNat 32 (x.toNat % 0x400000))
      else none := by
  have hpd : pdIndex x = x.toNat / 4194304 := by
    rw [pdIndex, BitVec.toNat_ushiftRight, Nat.shiftRight_eq_div_pow]
  have hmask : x &&& 0x3FFFFF#32 = BitVec.ofNat 32 (x.toNat % 0x400000) := by
    apply BitVec.eq_of_toNat_eq
    rw [BitVec.toNat_and]
    refine (Nat.and_two_pow_sub_one_eq_mod x.toNat 22).trans ?_
    rw [BitVec.toNat_ofNat]
    omega
  rw [h.translate, hpd, hmask, show KERNEL_PAGE_NUMBER = 768 by decide]
  exact if_congr (by omega) rfl rfl

/-- What `init_kern_paging` maps. -/
theorem map_boot_eq (x : BitVec 32) :
    ((AddressMap.boot (pageNumber x)).map fun e => physAddr e x) =
      if x.toNat < 0x200000 ∨ 0xC0000000 ≤ x.toNat ∧ x.toNat < 0xC0600000 then
        some (BitVec.ofNat 32 (x.toNat % 0x40000000))
      else none := by
  have hlt := x.isLt
  have hto : ∀ n, n < 1048576 → 4096 * n + x.toNat % 4096 = x.toNat % 0x40000000 →
      physAddr ⟨BitVec.ofNat 32 n, true, false, false, false⟩ x =
        BitVec.ofNat 32 (x.toNat % 0x40000000) := by
    intro n hn heq
    apply BitVec.eq_of_toNat_eq
    rw [toNat_physAddr hn, BitVec.toNat_ofNat, heq]
    omega
  rw [pageNumber_eq_div, AddressMap.boot, AddressMap.withPages, AddressMap.withPages]
  split
  next hhigh =>
    rw [if_pos (by omega), Option.map_some, hto _ (by omega) (by omega)]
  next hhigh =>
    split
    next hident =>
      rw [if_pos (by omega), Option.map_some, hto _ (by omega) (by omega)]
    next hident => rw [if_neg (by omega), Option.map_none]

/-- **The change of the page directory.** `init_kern_paging` builds its tables without a page fault
while `boot_page_directory` is in use, and the load of `kernel_dir` leaves every translation as it
was, except that the addresses from 2 MiB to 4 MiB are no longer mapped and those of the 2 MiB
behind the first 4 MiB of the higher half are. In particular the kernel itself, which is linked into
the first 4 MiB of the higher half, goes on where it is. -/
theorem setKernDir_agrees_iff (hb : BootPage early b) {mem : BitVec 32 → BitVec 32}
    (hmem : ∀ i, i < 1024 → mem (entryAddr b i) = bootPageDirectory i)
    (hlow : TablesLow early bootDirs) :
    ∃ s, (atEntry mem b).buildKernDir early = some s ∧ ∀ x,
      (s.setKernDir.translate x = s.translate x ↔
        ¬ (0x200000 ≤ x.toNat ∧ x.toNat < 0x400000) ∧
          ¬ (0xC0400000 ≤ x.toNat ∧ x.toNat < 0xC0600000)) := by
  obtain ⟨s, slots, hrun, hi, hboots, -⟩ := buildKernDir_eq hb hmem hlow (Finset.Subset.refl _)
  refine ⟨s, hrun, fun x => ?_⟩
  have hlt := x.isLt
  have hafter : s.setKernDir.translate x =
      (AddressMap.boot (pageNumber x)).map fun e => physAddr e x :=
    translate_of_implements (s := s.setKernDir) hi rfl rfl x
  rw [hafter, hboots.translate_eq x, map_boot_eq]
  constructor
  · intro heq
    split at heq
    next hnew =>
      split at heq
      next hold => omega
      next => cases heq
    next hnew =>
      split at heq
      next => cases heq
      next hold => omega
  · rintro ⟨hident, hhigh⟩
    by_cases hnew : x.toNat < 0x200000 ∨ 0xC0000000 ≤ x.toNat ∧ x.toNat < 0xC0600000
    · rw [if_pos hnew, if_pos (by omega),
        show x.toNat % 0x40000000 = x.toNat % 0x400000 by omega]
    · rw [if_neg hnew, if_neg (by omega)]

/-- `boot_page_directory` at 1 MiB + 4 KiB, in a memory that is otherwise clear. -/
def someMemory : BitVec 32 → BitVec 32 := fun x =>
  if x = entryAddr 0x101000#32 0 ∨ x = entryAddr 0x101000#32 KERNEL_PAGE_NUMBER then 0x83#32
  else 0#32

theorem someMemory_dir {i : Nat} (hi : i < 1024) :
    someMemory (entryAddr 0x101000#32 i) = bootPageDirectory i := by
  have hinj : ∀ j, j < 1024 → (entryAddr 0x101000#32 i = entryAddr 0x101000#32 j ↔ i = j) := by
    intro j hj
    constructor
    · exact fun h => (entryAddr_inj (by decide) (by decide) hi hj h).2
    · rintro rfl
      rfl
  exact if_congr (or_congr (hinj 0 (by decide)) (hinj KERNEL_PAGE_NUMBER (by decide))) rfl rfl

theorem bootPage_lowPages : BootPage .lowPages 0x101000#32 where
  aligned := by decide
  ne k hk h := by
    have hnat := congrArg BitVec.toNat h
    simp only [EarlyPages.lowPages, BitVec.toNat_ofNat] at hnat
    omega

theorem tablesLow_lowPages {dirs : Finset Nat} (h : dirs.card ≤ 100) :
    TablesLow .lowPages dirs := by
  intro k hk
  simp only [EarlyPages.lowPages, BitVec.toNat_ofNat]
  omega

/-- The address of the kernel's first instruction is translated as before. -/
theorem setKernDir_agrees_kernel :
    ∃ s, (atEntry someMemory 0x101000#32).buildKernDir .lowPages = some s ∧
      s.setKernDir.translate 0xC0100000#32 = s.translate 0xC0100000#32 := by
  obtain ⟨s, hrun, hagrees⟩ := setKernDir_agrees_iff bootPage_lowPages (fun _ => someMemory_dir)
    (tablesLow_lowPages (by decide))
  exact ⟨s, hrun, (hagrees _).mpr (by decide)⟩

/-! ## Calls after the boot -/

/-- A call does not map one of the first 2 MiB to another frame. -/
def KeepsLow (c : MapCall) : Prop :=
  pageNumber c.virt < 512 → c.mapping.frame = BitVec.ofNat 32 (pageNumber c.virt)

instance (c : MapCall) : Decidable (KeepsLow c) := inferInstanceAs (Decidable (_ → _))

theorem Low.update (h : Low m) {c : MapCall} (hc : KeepsLow c) :
    Low (Function.update m (pageNumber c.virt) (some c.mapping)) := by
  intro n hn
  by_cases hnc : n = pageNumber c.virt
  · rw [hnc] at hn ⊢
    exact ⟨c.mapping, Function.update_self _ _ _, hc hn⟩
  · obtain ⟨e, he, hframe⟩ := h n hn
    exact ⟨e, (Function.update_of_ne hnc _ _).trans he, hframe⟩

theorem low_boot : Low AddressMap.boot := by
  intro n hn
  have hmap : AddressMap.boot n = some ⟨BitVec.ofNat 32 n, true, false, false, false⟩ := by
    rw [AddressMap.boot, AddressMap.withPages, AddressMap.withPages, if_neg (by omega),
      if_pos (by omega), Nat.zero_add, Nat.sub_zero]
  exact ⟨_, hmap, rfl⟩

/-- The slots that the boot and a sequence of calls need. -/
def dirsOf (calls : List MapCall) : Finset Nat :=
  bootDirs ∪ (calls.map fun c => pdIndex c.virt).toFinset

/-- What a page leads to after a sequence of calls, from a map on. -/
def mapAfter (calls : List MapCall) (m : AddressMap) (x : BitVec 32) : Option Mapping :=
  ((lastCall calls.reverse x).map MapCall.mapping).or (m (pageNumber x))

theorem mapAfter_cons (c : MapCall) (calls : List MapCall) (m : AddressMap) (x : BitVec 32) :
    mapAfter (c :: calls) m x =
      mapAfter calls (Function.update m (pageNumber c.virt) (some c.mapping)) x := by
  unfold mapAfter lastCall
  rw [List.reverse_cons, List.find?_append]
  cases calls.reverse.find? fun d : MapCall => decide (d.virt >>> 12 = x >>> 12) with
  | some d => rfl
  | none =>
      by_cases hc : c.virt >>> 12 = x >>> 12
      · simp [hc, pageNumber]
      · have hne : pageNumber x ≠ pageNumber c.virt :=
          fun heq => hc (BitVec.eq_of_toNat_eq heq.symm)
        simp [hc, Function.update_of_ne hne]

theorem foldlM_exec_eq (hb : BootPage early b) {dirs : Finset Nat} (hlow : TablesLow early dirs)
    {calls : List MapCall} (hcalls : ∀ c ∈ calls, KeepsLow c ∧ pdIndex c.virt ∈ dirs)
    (hi : Implements early s.toPaging slots m) (hm : Runs s m) (hslots : ∀ x ∈ slots, x ∈ dirs) :
    ∃ s', calls.foldlM (fun s c => exec early c s) s = some s' ∧
      ∀ x, s'.translate x = (mapAfter calls m x).map fun e => physAddr e x := by
  induction calls generalizing s slots m with
  | nil => exact ⟨s, rfl, translate_of_implements hi hm.cr3 hm.pse⟩
  | cons c calls ih =>
      obtain ⟨⟨hkeep, hdir⟩, hrest⟩ := List.forall_mem_cons.mp hcalls
      obtain ⟨s1, slots1, hrun1, hi1, hslots1, hsame⟩ :=
        exec_eq hb hi (Or.inr hm) c hlow hslots hdir
      have hmem1 : ∀ x ∈ slots1, x ∈ dirs := by
        intro x hx
        rcases (hslots1 x).mp hx with rfl | hx
        · exact hdir
        · exact hslots x hx
      obtain ⟨s', hrun, htrans⟩ := ih hrest hi1 (hm.of_same hsame (hm.low.update hkeep)) hmem1
      refine ⟨s', ?_, fun x => by rw [htrans x, mapAfter_cons]⟩
      rw [List.foldlM_cons, hrun1]
      exact hrun

/-- **The tables can be edited while they are in use.** Let the page directory and the tables that
the boot and a sequence of calls need be below 2 MiB, and let no call map one of the first 2 MiB to
another frame. Then `init_kern_paging` and all the calls run without a page fault, although every
access of theirs to the tables is translated by the tables themselves, and afterwards the processor
finds at each address what the last call for its page asked for, or else what `init_kern_paging`
mapped. -/
theorem tables_edited_in_use (hb : BootPage early b) {mem : BitVec 32 → BitVec 32}
    (hmem : ∀ i, i < 1024 → mem (entryAddr b i) = bootPageDirectory i) {calls : List MapCall}
    (hcalls : ∀ c ∈ calls, KeepsLow c) (hlow : TablesLow early (dirsOf calls)) :
    ∃ s, run early (atEntry mem b) calls = some s ∧ ∀ x,
      s.translate x = (mapAfter calls AddressMap.boot x).map fun e => physAddr e x := by
  obtain ⟨s, slots, hrun, hi, -, hslots⟩ :=
    buildKernDir_eq hb hmem hlow Finset.subset_union_left
  have hdirs : ∀ c ∈ calls, KeepsLow c ∧ pdIndex c.virt ∈ dirsOf calls := by
    intro c hc
    refine ⟨hcalls c hc, Finset.mem_union_right _ (List.mem_toFinset.mpr ?_)⟩
    exact List.mem_map_of_mem hc
  obtain ⟨s', hrun', htrans⟩ :=
    foldlM_exec_eq (s := s.setKernDir) hb hlow hdirs hi ⟨rfl, rfl, low_boot⟩ hslots
  refine ⟨s', ?_, htrans⟩
  rw [run, hrun]
  exact hrun'

/-- The local APIC is mapped, and its registers are where they were asked for. -/
theorem tables_edited_lapic :
    ∃ s, run .lowPages (atEntry someMemory 0x101000#32)
        [.mapKernPageFlags 0xFEE00000#32 0xFEE00000#32 9#8] = some s ∧
      s.translate 0xFEE00020#32 = some 0xFEE00020#32 := by
  obtain ⟨s, hrun, htrans⟩ := tables_edited_in_use bootPage_lowPages (fun _ => someMemory_dir)
    (show ∀ c ∈ [MapCall.mapKernPageFlags 0xFEE00000#32 0xFEE00000#32 9#8], KeepsLow c by decide)
    (tablesLow_lowPages (by decide))
  exact ⟨s, hrun, (htrans _).trans (by decide)⟩

end Mmu

end NowOS

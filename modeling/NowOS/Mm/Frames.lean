import NowOS.Mm.Region

set_option autoImplicit false

/-! # Page tables and frame allocator together (`kernel/paging.c`, `kernel/mm.c`)

The page tables and `phys_mem_tbl` both say which frames are in use. `mem_alloc_region` keeps them
in step; `init_kern_paging` maps the first 6 MiB and marks nothing. -/

namespace NowOS

open ByteIndexList

/-! ## `init_kern_paging` -/

namespace Paging

variable (early : EarlyPages)

/-- A loop of `init_kern_paging`, with `n` pages left. -/
def mapKernPages : Nat → BitVec 32 → BitVec 32 → Paging → Paging
  | 0, _, _, s => s
  | n + 1, virtAddrCount, physAddrCount, s =>
      mapKernPages n (virtAddrCount + BitVec.ofNat 32 PAGE_SIZE)
        (physAddrCount + BitVec.ofNat 32 PAGE_SIZE)
        (s.mapKernPage early virtAddrCount physAddrCount)

/-- `init_kern_paging`: the first 2 MiB where they are, and the first 6 MiB in the higher half. -/
def initKernPaging (mem : BitVec 32 → BitVec 32) : Paging :=
  let s := newDirectory early mem
  let s := s.mapKernPages early (KB 1024 * 2 / PAGE_SIZE) 0#32 0#32
  s.mapKernPages early (KB 1024 * 6 / PAGE_SIZE) (BitVec.ofNat 32 KERN_VIRTUAL_ADDR) 0#32

end Paging

/-- The address map in which `n` pages from page `vp` on lead to the frames from `fp` on. -/
def AddressMap.withPages (m : AddressMap) (vp fp n : Nat) : AddressMap := fun x =>
  if vp ≤ x ∧ x < vp + n then some ⟨BitVec.ofNat 32 (fp + (x - vp)), true, false, false, false⟩
  else m x

/-- What `init_kern_paging` maps. -/
def AddressMap.boot : AddressMap :=
  AddressMap.withPages (AddressMap.withPages (fun _ => none) 0 0 512) 0xC0000 0 1536

namespace Paging

variable {early : EarlyPages} {s : Paging} {slots : List Nat} {m : AddressMap}

theorem pageNumber_of_toNat {x : BitVec 32} {n : Nat} (h : x.toNat = 4096 * n) :
    pageNumber x = n := by
  rw [pageNumber, BitVec.toNat_ushiftRight, Nat.shiftRight_eq_div_pow, h]
  omega

theorem shiftRight_of_toNat {x : BitVec 32} {n : Nat} (h : x.toNat = 4096 * n) :
    x >>> 12 = BitVec.ofNat 32 n := by
  apply BitVec.eq_of_toNat_eq
  have hlt := x.isLt
  rw [BitVec.toNat_ushiftRight, Nat.shiftRight_eq_div_pow, h, BitVec.toNat_ofNat]
  omega

theorem pdIndex_of_toNat {x : BitVec 32} {n : Nat} (h : x.toNat = 4096 * n) :
    pdIndex x = n / 1024 := by
  rw [pdIndex, BitVec.toNat_ushiftRight, Nat.shiftRight_eq_div_pow, h]
  omega

/-- The first page, then the others. -/
theorem withPages_succ (m : AddressMap) (vp fp n : Nat) :
    AddressMap.withPages
        (Function.update m vp (some ⟨BitVec.ofNat 32 fp, true, false, false, false⟩)) (vp + 1)
        (fp + 1) n =
      m.withPages vp fp (n + 1) := by
  funext x
  simp only [AddressMap.withPages, Function.update_apply]
  by_cases hx : x = vp
  · rw [if_neg (by omega), if_pos hx, if_pos (by omega), hx, Nat.sub_self, Nat.add_zero]
  · rw [if_neg hx]
    by_cases hin : vp + 1 ≤ x ∧ x < vp + 1 + n
    · rw [if_pos hin, if_pos (by omega), show fp + 1 + (x - (vp + 1)) = fp + (x - vp) by omega]
    · rw [if_neg hin, if_neg (by omega)]

/-- The slots of `n + 1` pages are that of the first one and those of the others. -/
theorem exists_slot_succ {vp n x : Nat} :
    (∃ i, i < n + 1 ∧ x = (vp + i) / 1024) ↔
      x = vp / 1024 ∨ ∃ i, i < n ∧ x = (vp + 1 + i) / 1024 := by
  constructor
  · rintro ⟨i, hi, hx⟩
    cases i with
    | zero => exact Or.inl hx
    | succ i => exact Or.inr ⟨i, by omega, by rw [hx, Nat.add_right_comm, Nat.add_assoc]⟩
  · rintro (hx | ⟨i, hi, hx⟩)
    · exact ⟨0, by omega, hx⟩
    · exact ⟨i + 1, by omega, by rw [hx, Nat.add_right_comm, Nat.add_assoc]⟩

/-- The loops of `init_kern_paging` map one page after the other; the slots of these pages get
tables. -/
theorem Implements.mapKernPages (h : Implements early s slots m) {n vp fp : Nat} {v p : BitVec 32}
    (hv : v.toNat = 4096 * vp) (hp : p.toNat = 4096 * fp) (hvn : vp + n < 1048576)
    (hpn : fp + n < 1048576) :
    ∃ slots', Implements early (s.mapKernPages early n v p) slots' (m.withPages vp fp n) ∧
      ∀ x, x ∈ slots' ↔ x ∈ slots ∨ ∃ i, i < n ∧ x = (vp + i) / 1024 := by
  induction n generalizing s slots m vp fp v p with
  | zero =>
      have hsame : m.withPages vp fp 0 = m := by
        funext x
        exact if_neg (by omega)
      exact ⟨slots, by rw [hsame]; exact h, by simp⟩
  | succ n ih =>
      obtain ⟨slots1, h1, hmem1⟩ := h.exec (.mapKernPage v p)
      have hnext : ∀ (x : BitVec 32) (k : Nat), x.toNat = 4096 * k → k + (n + 1) < 1048576 →
          (x + BitVec.ofNat 32 PAGE_SIZE).toNat = 4096 * (k + 1) := by
        intro x k hx hk
        rw [BitVec.toNat_add, BitVec.toNat_ofNat, hx, PAGE_SIZE]
        omega
      obtain ⟨slots', h', hmem'⟩ := ih h1 (hnext v vp hv hvn) (hnext p fp hp hpn) (by omega)
        (by omega)
      simp only [MapCall.virt, MapCall.mapping, pageNumber_of_toNat hv, shiftRight_of_toNat hp,
        withPages_succ] at h'
      refine ⟨slots', h', fun x => ?_⟩
      rw [hmem', hmem1, MapCall.virt, pdIndex_of_toNat hv, exists_slot_succ, or_right_comm, or_comm,
        or_left_comm]

/-- The page tables after `init_kern_paging`: there are three. -/
theorem implements_initKernPaging (early : EarlyPages) (mem : BitVec 32 → BitVec 32) :
    ∃ slots, Implements early (initKernPaging early mem) slots .boot ∧
      ∀ x, x ∈ slots ↔ x ∈ [0, 768, 769] := by
  have hinit : initKernPaging early mem = ((newDirectory early mem).mapKernPages early 512 0#32
      0#32).mapKernPages early 1536 (BitVec.ofNat 32 KERN_VIRTUAL_ADDR) 0#32 := by
    simp only [initKernPaging, show KB 1024 * 2 / PAGE_SIZE = 512 by decide,
      show KB 1024 * 6 / PAGE_SIZE = 1536 by decide]
  have hhalf : (BitVec.ofNat 32 KERN_VIRTUAL_ADDR).toNat = 4096 * 0xC0000 := by decide
  have hzero : (0#32).toNat = 4096 * 0 := by decide
  obtain ⟨slots1, h1, hmem1⟩ :=
    (implements_newDirectory early mem).mapKernPages (n := 512) hzero hzero
      (by omega) (by omega)
  obtain ⟨slots2, h2, hmem2⟩ := h1.mapKernPages (n := 1536) hhalf hzero (by omega) (by omega)
  rw [hinit]
  refine ⟨slots2, h2, fun x => ?_⟩
  rw [hmem2, hmem1]
  simp only [List.not_mem_nil, false_or, List.mem_cons, or_false]
  constructor
  · rintro (⟨i, hi, hx⟩ | ⟨i, hi, hx⟩)
    · omega
    · omega
  · rintro (hx | hx | hx)
    · exact Or.inl ⟨0, by omega, hx⟩
    · exact Or.inr ⟨0, by omega, hx⟩
    · exact Or.inr ⟨1024, by omega, hx⟩

/-- The directory and the three tables. The slots differ from each other, so that they are as many
as their set has elements. -/
theorem taken_initKernPaging (early : EarlyPages) (mem : BitVec 32 → BitVec 32) :
    (initKernPaging early mem).taken = 4 := by
  obtain ⟨slots, h, hslots⟩ := implements_initKernPaging early mem
  have hperm : slots.Perm [0, 768, 769] :=
    (List.perm_ext_iff_of_nodup h.nodup (by decide)).2 hslots
  rw [h.taken, hperm.length_eq]
  rfl

end Paging

/-- All that is mapped at first is below 6 MiB. -/
theorem AddressMap.boot_frame {x : Nat} {e : Mapping} (h : AddressMap.boot x = some e) :
    e.frame.toNat < 1536 := by
  have hlow : ∀ k, k < 1536 → (BitVec.ofNat 32 (0 + k)).toNat < 1536 := by
    intro k hk
    rw [BitVec.toNat_ofNat]
    omega
  unfold AddressMap.boot AddressMap.withPages at h
  split at h
  next hhigh =>
    rw [← Option.some.inj h]
    exact hlow _ (by omega)
  next =>
    split at h
    next hident =>
      rw [← Option.some.inj h]
      exact hlow _ (by omega)
    next => cases h

/-! ## Runs -/

/-- The memory manager, and the frames that `mem_get_free_page_phys` has returned so far. -/
structure FrameState where
  mem : MemState
  obtained : List (BitVec 32)

namespace FrameState

variable (early : EarlyPages)

/-- A call that does not panic; a frame that is released was obtained before. -/
def exec : MemCall → FrameState → Option FrameState
  | .memAllocRegion r, s => some { s with mem := (memAllocRegion early r s.mem).2 }
  | .memGetFreePagePhys, s =>
      match memGetFreePagePhys s.mem.tbl with
      | .error _ => none
      | .ok (a, tbl) => some ⟨{ s.mem with tbl := tbl }, a :: s.obtained⟩
  | .memReleasePagePhys p, s =>
      if p ∈ s.obtained then
        some { s with mem := { s.mem with tbl := memReleasePagePhys p s.mem.tbl } }
      else none

def Step (c : MemCall) (s s' : FrameState) : Prop := exec early c s = some s'

/-- After `init_mem_manager` and `init_kern_paging`. -/
def start (physSize : Nat) (mem : BitVec 32 → BitVec 32) : FrameState :=
  ⟨⟨initPhysMemTbl physSize, .initKernPaging early mem⟩, []⟩

/-- No present page table entry leads to the frame. -/
def Unmapped (s : FrameState) (a : BitVec 32) : Prop :=
  ∀ x e, s.mem.paging.walk x = some e → e.frame ≠ a >>> 12

/-- Frames are taken while all those below 6 MiB are marked, released while nothing leads to them,
and regions are in the memory that the table describes. -/
def Good : MemCall → FrameState → Prop
  | .memAllocRegion r, s => ∀ x ∈ r.pages, x.toNat / 4096 < 8 * s.mem.tbl.size
  | .memGetFreePagePhys, s => ∀ i, i < 1536 → s.mem.tbl.bit i = true
  | .memReleasePagePhys p, s => s.Unmapped p

end FrameState

/-! ## The invariant -/

/-- A frame that is mapped is marked, unless it is one that `init_kern_paging` has mapped. -/
structure MemState.Inv (early : EarlyPages) (s : MemState) : Prop where
  tbl : PhysMem.Inv s.tbl
  tables : ∃ slots m, s.paging.Implements early slots m
  marked : ∀ x e, s.paging.walk x = some e → e.frame.toNat < 1536 ∨ s.tbl.bit e.frame.toNat = true

variable {early : EarlyPages}

theorem toNat_shiftRight_twelve (p : BitVec 32) : (p >>> 12).toNat = p.toNat / 4096 := by
  rw [BitVec.toNat_ushiftRight, Nat.shiftRight_eq_div_pow]

/-- The walk after a page has been mapped. -/
theorem Paging.walk_mapKernPageFlags {s : Paging} (h : ∃ slots m, s.Implements early slots m)
    {v p : BitVec 32} {flags : BitVec 8} {x : BitVec 32} {e : Mapping}
    (he : (s.mapKernPageFlags early v p flags).walk x = some e) :
    e.frame = p >>> 12 ∨ s.walk x = some e := by
  obtain ⟨slots, m, himpl⟩ := h
  obtain ⟨slots', h', -⟩ := himpl.exec (.mapKernPageFlags v p flags)
  have hwalk := h'.walk x
  rw [MapCall.exec, he] at hwalk
  by_cases hx : pageNumber x = pageNumber v
  · left
    rw [hx, MapCall.virt, Function.update_self] at hwalk
    rw [Option.some.inj hwalk]
    rfl
  · right
    rw [himpl.walk, hwalk]
    exact (Function.update_of_ne hx _ _).symm

/-- One round of the loop of `mem_alloc_region`. -/
theorem MemState.Inv.page {s : MemState} (h : s.Inv early) (v p : BitVec 32) (flags : BitVec 8) :
    MemState.Inv early ⟨memSetTbl p s.tbl, s.paging.mapKernPageFlags early v p flags⟩ where
  tbl := h.tbl.memSetTbl p
  tables := by
    obtain ⟨slots, m, himpl⟩ := h.tables
    obtain ⟨slots', h', -⟩ := himpl.exec (.mapKernPageFlags v p flags)
    exact ⟨slots', _, h'⟩
  marked x e he := by
    simp only [bit_memSetTbl, Bool.or_eq_true, decide_eq_true_eq]
    rcases Paging.walk_mapKernPageFlags h.tables he with hnew | hold
    · right
      right
      rw [hnew, toNat_shiftRight_twelve]
    · rcases h.marked x e hold with hlow | hbit
      · exact Or.inl hlow
      · exact Or.inr (Or.inl hbit)

theorem MemState.Inv.memAllocPages {s : MemState} (h : s.Inv early) (flags : BitVec 8) (n : Nat)
    (v p : BitVec 32) : (memAllocPages early flags n v p s).Inv early := by
  induction n generalizing s v p with
  | zero => exact h
  | succ n ih => exact ih (h.page v p flags) _ _

theorem MemState.Inv.memAllocRegion {s : MemState} (h : s.Inv early) (r : Region) :
    (memAllocRegion early r s).2.Inv early := by
  unfold NowOS.memAllocRegion
  split
  · exact h
  · exact h.memAllocPages _ _ _ _

namespace FrameState

theorem start_paging (physSize : Nat) (mem : BitVec 32 → BitVec 32) :
    (start early physSize mem).mem.paging = .initKernPaging early mem := by
  simp only [start]

theorem inv_start {physSize : Nat} (hp : physSize < W32) (mem : BitVec 32 → BitVec 32) :
    (start early physSize mem).mem.Inv early := by
  obtain ⟨slots, h, -⟩ := Paging.implements_initKernPaging early mem
  refine ⟨PhysMem.inv_init hp, ⟨slots, .boot, ?_⟩, fun x e he => Or.inl ?_⟩
  · rw [start_paging]
    exact h
  · rw [start_paging, h.walk] at he
    exact AddressMap.boot_frame he

/-- A frame that is taken under the condition: it is the lowest one that is not marked. -/
theorem unmapped_of_inv {s : FrameState} (h : s.mem.Inv early)
    (hgood : Good .memGetFreePagePhys s) {a : BitVec 32} {tbl : ByteIndexList}
    (hget : memGetFreePagePhys s.mem.tbl = .ok (a, tbl)) : s.Unmapped a ∧ 0x600000 ≤ a.toNat := by
  rcases h.tbl.memGetFreePagePhys with ⟨i, a', hok, ha, -, hclear, -⟩ | ⟨e, he, -⟩
  · rw [hget] at hok
    cases hok
    have hi : 1536 ≤ i := by
      by_contra hlt
      rw [hgood i (by omega)] at hclear
      cases hclear
    refine ⟨?_, by omega⟩
    intro x e he heq
    have hframe : e.frame.toNat = i := by
      rw [heq, toNat_shiftRight_twelve, ha]
      omega
    rcases h.marked x e he with hlow | hbit
    · omega
    · rw [hframe, hclear] at hbit
      cases hbit
  · rw [hget] at he
    cases he

theorem inv_step {c : MemCall} {s s' : FrameState} (h : s.mem.Inv early)
    (hs : Guarded Good (Step early) c s s') : s'.mem.Inv early := by
  obtain ⟨hgood, hstep⟩ := hs
  cases c with
  | memAllocRegion r =>
      cases hstep
      exact h.memAllocRegion r
  | memGetFreePagePhys =>
      simp only [Step, exec] at hstep
      rcases h.tbl.memGetFreePagePhys with ⟨i, a, hok, -, hi, -, hmin⟩ | ⟨e, he, -⟩
      · rw [hok] at hstep
        cases hstep
        refine ⟨h.tbl.allocated hi hmin, h.tables, fun x e he => ?_⟩
        rcases h.marked x e he with hlow | hbit
        · exact Or.inl hlow
        · right
          rw [bit_allocated, hbit, Bool.true_or]
      · rw [he] at hstep
        cases hstep
  | memReleasePagePhys p =>
      simp only [Step, exec] at hstep
      split at hstep
      next =>
        cases hstep
        refine ⟨h.tbl.memFreeTbl p, h.tables, fun x e he => ?_⟩
        rcases h.marked x e he with hlow | hbit
        · exact Or.inl hlow
        · right
          -- the frame that is released is another one
          have hne : e.frame.toNat ≠ p.toNat / 4096 := by
            rw [← toNat_shiftRight_twelve]
            exact fun heq => hgood x e he (BitVec.eq_of_toNat_eq heq)
          rw [memReleasePagePhys, memFreeTbl, bit_byteIndexReleaseTbl, physAddrToPageIndex_eq, hbit,
            decide_eq_false hne]
          rfl
      next => cases hstep

/-- **Mapped frames are not handed out.** In every run in which frames are taken while those below
6 MiB are marked and released while nothing leads to them, no page table entry leads to a frame that
`mem_get_free_page_phys` returns, and it is above the first 6 MiB, in which the kernel lies. -/
theorem mapped_not_handed_out {physSize : Nat} (hp : physSize < W32) {mem : BitVec 32 → BitVec 32}
    {s : FrameState}
    (hr : Reach (· = start early physSize mem) (Guarded Good (Step early)) s)
    (hgood : Good .memGetFreePagePhys s) {a : BitVec 32} {tbl : ByteIndexList}
    (hget : memGetFreePagePhys s.mem.tbl = .ok (a, tbl)) : s.Unmapped a ∧ 0x600000 ≤ a.toNat := by
  have hinv : s.mem.Inv early := by
    apply hr.invariant (I := fun s => s.mem.Inv early)
    · rintro s rfl
      exact inv_start hp mem
    · intro c s s' h hs
      exact inv_step h hs
  exact unmapped_of_inv hinv hgood hget

/-- The first 6 MiB as a region that exists already. -/
def lowMemory : Region := ⟨0, 0x600000, MEM_READWRITE ||| MEM_ALREADYEXISTS⟩

theorem memAllocPages_size (flags : BitVec 8) (n : Nat) (v p : BitVec 32) (s : MemState) :
    (memAllocPages early flags n v p s).tbl.size = s.tbl.size := by
  induction n generalizing v p s with
  | zero => rfl
  | succ n ih =>
      rw [memAllocPages, ih]
      rfl

theorem memAllocRegion_size (r : Region) (s : MemState) :
    (memAllocRegion early r s).2.tbl.size = s.tbl.size := by
  unfold memAllocRegion
  split
  · rfl
  · exact memAllocPages_size _ _ _ _ _

theorem lowMemory_page {i : Nat} (hi : i < 1536) :
    (lowMemory.physAddr + BitVec.ofNat 32 (PAGE_SIZE * i)).toNat / 4096 = i := by
  rw [show lowMemory.physAddr = 0#32 from rfl, BitVec.zero_add, BitVec.toNat_ofNat, PAGE_SIZE]
  omega

/-- After `mem_alloc_region` of the first 6 MiB exactly their frames are marked. -/
theorem bit_lowMemory (j : Nat) :
    (memAllocRegion .lowPages lowMemory (start .lowPages 0x7F00000 fun _ => 0#32).mem).2.tbl.bit j =
      decide (j < 1536) := by
  have hpages : lowMemory.numPages = 1536 := by decide +kernel
  have hexists : lowMemory.alreadyExists = true := by decide
  rw [Bool.eq_iff_iff, decide_eq_true_eq]
  simp only [memAllocRegion, hexists, Bool.not_true, Bool.false_and, Bool.false_eq_true, if_false,
    hpages, bit_memAllocPages]
  constructor
  · rintro (hbit | ⟨i, hi, rfl⟩)
    · simp [start, initPhysMemTbl, initByteIndexList, ByteIndexList.bit] at hbit
    · rwa [lowMemory_page hi]
  · intro hj
    exact Or.inr ⟨j, hj, (lowMemory_page hj).symm⟩

/-- Once the first 6 MiB are marked, the next frame is the one behind them. -/
theorem mapped_not_handed_out_above :
    ∃ s a tbl, Reach (· = start .lowPages 0x7F00000 fun _ => 0#32)
        (Guarded Good (Step .lowPages)) s ∧
      memGetFreePagePhys s.mem.tbl = .ok (a, tbl) ∧ a.toNat = 0x600000 ∧ s.Unmapped a := by
  have hsize : memTblSize 0x7F00000 = 4064 := by decide +kernel
  have hreach : Reach (· = start .lowPages 0x7F00000 fun _ => 0#32) (Guarded Good (Step .lowPages))
      ⟨(memAllocRegion .lowPages lowMemory (start .lowPages 0x7F00000 fun _ => 0#32).mem).2,
        []⟩ := by
    refine .next (.memAllocRegion lowMemory) (.start rfl) ⟨?_, rfl⟩
    intro x hx
    obtain ⟨i, hi, rfl⟩ := List.mem_map.mp hx
    have hi' : i < 1536 := by
      have hpages : lowMemory.numPages = 1536 := by decide +kernel
      rwa [List.mem_range, hpages] at hi
    rw [lowMemory_page hi']
    show i < 8 * memTblSize 0x7F00000
    omega
  have hstart : (start .lowPages 0x7F00000 fun _ => 0#32).mem.Inv .lowPages :=
    inv_start (by decide) _
  have hinv := hstart.memAllocRegion lowMemory
  rcases hinv.tbl.memGetFreePagePhys with ⟨i, a, hok, ha, -, hclear, hmin⟩ | ⟨e, -, hall⟩
  · have hi : i = 1536 := by
      rw [bit_lowMemory, decide_eq_false_iff_not] at hclear
      by_contra hne
      have hset := hmin 1536 (by omega)
      rw [bit_lowMemory] at hset
      cases hset
    obtain ⟨hun, -⟩ := mapped_not_handed_out (by decide) hreach
      (fun j hj => by rw [bit_lowMemory, decide_eq_true hj]) hok
    exact ⟨_, a, _, hreach, hok, by omega, hun⟩
  · have hsame : (memAllocRegion .lowPages lowMemory
        (start .lowPages 0x7F00000 fun _ => 0#32).mem).2.tbl.size = 4064 := by
      rw [memAllocRegion_size]
      exact hsize
    have hset := hall 1536 (by rw [PhysMem.slotBytes, hsame]; decide)
    rw [bit_lowMemory] at hset
    cases hset

/-- The first frame that is handed out is frame 0, which is mapped. -/
theorem mapped_handed_out :
    (∃ tbl, memGetFreePagePhys (start .lowPages 0x7F00000 fun _ => 0#32).mem.tbl =
      .ok (0#32, tbl)) ∧
      ¬ (start .lowPages 0x7F00000 fun _ => 0#32).Unmapped 0#32 := by
  constructor
  · apply ok_of_any
    decide +kernel
  · obtain ⟨slots, h, -⟩ := Paging.implements_initKernPaging .lowPages fun _ => 0#32
    intro hun
    have hwalk := h.walk 0#32
    have hboot : AddressMap.boot (pageNumber 0#32) = some ⟨0#32, true, false, false, false⟩ := rfl
    rw [← start_paging 0x7F00000, hboot] at hwalk
    exact hun _ _ hwalk rfl

end FrameState

end NowOS

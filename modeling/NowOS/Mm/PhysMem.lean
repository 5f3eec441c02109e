import NowOS.Kheap.Early
import NowOS.Klib.ByteIndexList

set_option autoImplicit false

/-! # The frame allocator (`kernel/mm.c`)

A byte index list says which physical pages are in use, one bit for each page of the memory that the
boot loader reports. Its table is the first thing taken from the early heap. -/

namespace NowOS

open ByteIndexList

/-! ## The functions of the source -/

/-- `PHYS_ADDR_TO_PAGE_INDEX(x)`. -/
def physAddrToPageIndex (x : BitVec 32) : Nat := ((x &&& ~~~0xFFF#32) >>> 12).toNat

/-- `phys_mem_tbl` after `init_mem_manager`. The early heap lies in the zeroed section `.bss` and
nothing has been taken from it, so that clearing the table changes nothing. -/
def initPhysMemTbl (physSize : Nat) : ByteIndexList :=
  initByteIndexList (fun _ => 0#8) (memTblSize physSize)

/-- `mem_set_tbl`. -/
def memSetTbl (physAddr : BitVec 32) (tbl : ByteIndexList) : ByteIndexList :=
  tbl.byteIndexSetTbl (physAddrToPageIndex physAddr)

/-- `mem_free_tbl`. -/
def memFreeTbl (physAddr : BitVec 32) (tbl : ByteIndexList) : ByteIndexList :=
  tbl.byteIndexReleaseTbl (physAddrToPageIndex physAddr)

/-- `mem_check_tbl`. -/
def memCheckTbl (physAddr : BitVec 32) (tbl : ByteIndexList) : Bool :=
  tbl.byteIndexCheckTbl (physAddrToPageIndex physAddr) != 0

/-- `mem_get_free_page_phys`. -/
def memGetFreePagePhys (tbl : ByteIndexList) : Except String (BitVec 32 × ByteIndexList) :=
  match tbl.byteIndexGetFreeSlot with
  | .error e => .error e
  | .ok (index, tbl) =>
      if index = 0xFFFFFFFF then .ok (0xFFFFFFFF#32, tbl)
      else .ok (BitVec.ofNat 32 (mul32 index PAGE_SIZE), tbl)

/-- `mem_release_page_phys`. -/
def memReleasePagePhys (physAddr : BitVec 32) (tbl : ByteIndexList) : ByteIndexList :=
  memFreeTbl physAddr tbl

theorem physAddrToPageIndex_eq (x : BitVec 32) : physAddrToPageIndex x = x.toNat / 4096 := by
  have hshift : (x &&& ~~~0xFFF#32) >>> 12 = x >>> 12 := by
    apply BitVec.eq_of_getLsbD_eq
    intro i hi
    rw [BitVec.getLsbD_ushiftRight, BitVec.getLsbD_ushiftRight, BitVec.getLsbD_and]
    by_cases h : 12 + i < 32
    · have hmask : ∀ j, j < 32 → 12 ≤ j → (~~~0xFFF#32).getLsbD j = true := by decide
      rw [hmask _ h (by omega), Bool.and_true]
    · rw [BitVec.getLsbD_of_ge x _ (by omega), Bool.false_and]
  rw [physAddrToPageIndex, hshift, BitVec.toNat_ushiftRight, Nat.shiftRight_eq_div_pow]

namespace PhysMem

/-! ## Allocation -/

/-- The table has a byte even if its size is zero: `byte_index_get_free_slot` looks at the byte at
`free_ptr` before it looks at the size. -/
def slotBytes (tbl : ByteIndexList) : Nat := max 1 tbl.size

/-- The table with the byte that is used in any case. -/
def grown (tbl : ByteIndexList) : ByteIndexList := { tbl with size := slotBytes tbl }

/-- The invariant of the table, for all sizes that a 32-bit memory size can lead to. -/
structure Inv (tbl : ByteIndexList) : Prop where
  list : ByteIndexList.Inv (grown tbl)
  size : tbl.size ≤ 131072

theorem Inv.memSetTbl {tbl : ByteIndexList} (h : Inv tbl) (p : BitVec 32) : Inv (memSetTbl p tbl) :=
  ⟨h.list.setTbl _, h.size⟩

theorem Inv.memFreeTbl {tbl : ByteIndexList} (h : Inv tbl) (p : BitVec 32) :
    Inv (memFreeTbl p tbl) :=
  ⟨h.list.releaseTbl _, h.size⟩

theorem Inv.getFreeSlot {tbl : ByteIndexList} (h : Inv tbl) :
    (∃ i, tbl.byteIndexGetFreeSlot = .ok (i, tbl.allocated i) ∧ i < 8 * slotBytes tbl ∧
      tbl.bit i = false ∧ ∀ j, j < i → tbl.bit j = true) ∨
    (∃ e, tbl.byteIndexGetFreeSlot = .error e ∧ ∀ i, i < 8 * slotBytes tbl → tbl.bit i = true) := by
  have hsize := h.size
  by_cases hpos : 1 ≤ tbl.size
  · have heq : grown tbl = tbl := by simp [grown, slotBytes, Nat.max_eq_right hpos]
    have hlist := h.list
    rw [heq] at hlist
    rw [slotBytes, Nat.max_eq_right hpos]
    exact byteIndexGetFreeSlot_spec hlist (by omega)
  · -- the table is empty, and `free_ptr` is at its beginning
    have hzero : tbl.size = 0 := by omega
    have hbytes : slotBytes tbl = 1 := by rw [slotBytes, hzero]; rfl
    have hptr : tbl.freePtr = 0 := by
      have hin := h.list.inside
      simp only [grown, hbytes] at hin
      omega
    rw [hbytes]
    by_cases hbyte : tbl.array tbl.freePtr = 0xFF#8
    · right
      refine ⟨"WE COULDNT FIND ANY MORE FREE SPACE", ?_, ?_⟩
      · simp only [byteIndexGetFreeSlot, if_pos hbyte, updateFreePtr, hzero, Nat.zero_sub, scanFree]
      · intro i hi
        apply bit_of_full
        rwa [show i / 8 = tbl.freePtr by omega]
    · left
      obtain ⟨i, htake, hdiv, hclear, hmin⟩ :=
        @takeSlot_spec tbl h.list.full hbyte (by rw [hptr]; decide)
      refine ⟨i, ?_, by omega, hclear, hmin⟩
      simp only [byteIndexGetFreeSlot, if_neg hbyte, htake]

/-- **The allocation of a frame.** It is the lowest one that is free; if there is none, the kernel
panics. -/
theorem Inv.memGetFreePagePhys {tbl : ByteIndexList} (h : Inv tbl) :
    (∃ i a, memGetFreePagePhys tbl = .ok (a, tbl.allocated i) ∧ a.toNat = i * 4096 ∧
      i < 8 * slotBytes tbl ∧ tbl.bit i = false ∧ ∀ j, j < i → tbl.bit j = true) ∨
    (∃ e, memGetFreePagePhys tbl = .error e ∧ ∀ i, i < 8 * slotBytes tbl → tbl.bit i = true) := by
  have hsize := h.size
  rcases h.getFreeSlot with ⟨i, hok, hi, hclear, hmin⟩ | ⟨e, he, hall⟩
  · left
    have hi' : i < 1048576 := by
      unfold slotBytes at hi
      omega
    have hmul : mul32 i PAGE_SIZE = i * 4096 := mul32_of_lt (by unfold PAGE_SIZE W32; omega)
    refine ⟨i, BitVec.ofNat 32 (i * 4096), ?_, ?_, hi, hclear, hmin⟩
    · simp only [NowOS.memGetFreePagePhys, hok]
      rw [if_neg (by omega), hmul]
    · rw [BitVec.toNat_ofNat, Nat.mod_eq_of_lt (by omega)]
  · right
    exact ⟨e, by simp only [NowOS.memGetFreePagePhys, he], hall⟩

theorem Inv.allocated {tbl : ByteIndexList} (h : Inv tbl) {i : Nat} (hi : i < 8 * slotBytes tbl)
    (hmin : ∀ j, j < i → tbl.bit j = true) : Inv (tbl.allocated i) :=
  ⟨@inv_allocated (grown tbl) i hi hmin, h.size⟩

/-! ## The size of the table -/

/-- `ALIGN_DOWN` rounds up, and the last page of the address space wraps around to nothing. -/
theorem memTblSize_eq {physSize : Nat} (h : physSize < W32) :
    memTblSize physSize =
      if physSize ≤ 4294963200 then (physSize + 4095) / 4096 / 8 else 0 := by
  have hw : W32 = 4294967296 := rfl
  have hround : ∀ x, roundDown x 4096 = x / 4096 * 4096 := by
    intro x
    rw [roundDown, sub32_of_le (Nat.mod_le _ _)]
    omega
  rw [memTblSize, PAGE_SIZE, alignDown, hround]
  split
  next hle =>
    have hup : sub32 (add32 physSize 4096) 1 = physSize + 4095 := by
      unfold sub32 add32 W32
      split <;> omega
    rw [hup]
    omega
  next hgt =>
    have hup : sub32 (add32 physSize 4096) 1 < 4096 := by
      unfold sub32 add32 W32
      split <;> omega
    omega

theorem memTblSize_le {physSize : Nat} (h : physSize < W32) : memTblSize physSize ≤ 131072 := by
  rw [memTblSize_eq h]
  split <;> omega

theorem inv_init {physSize : Nat} (h : physSize < W32) : Inv (initPhysMemTbl physSize) where
  list := ByteIndexList.inv_init _ (Nat.le_max_left 1 _)
  size := memTblSize_le h

/-! ## Runs -/

/-- The calls of a run. -/
inductive Call
  | memGetFreePagePhys
  | memReleasePagePhys (physAddr : BitVec 32)
  deriving DecidableEq, Repr

/-- A call that does not panic. -/
def exec : Call → ByteIndexList → Option ByteIndexList
  | .memGetFreePagePhys, tbl =>
      match memGetFreePagePhys tbl with
      | .error _ => none
      | .ok (_, tbl) => some tbl
  | .memReleasePagePhys p, tbl => some (memReleasePagePhys p tbl)

def Step (c : Call) (tbl tbl' : ByteIndexList) : Prop := exec c tbl = some tbl'

/-- The tables that are reached from `init_mem_manager`. -/
def Reachable (physSize : Nat) (tbl : ByteIndexList) : Prop :=
  Reach (· = initPhysMemTbl physSize) Step tbl

theorem inv_of_reachable {physSize : Nat} (h : physSize < W32) {tbl : ByteIndexList}
    (hr : Reachable physSize tbl) : Inv tbl ∧ tbl.size = memTblSize physSize := by
  apply hr.invariant (I := fun tbl => Inv tbl ∧ tbl.size = memTblSize physSize)
  · rintro tbl rfl
    exact ⟨inv_init h, rfl⟩
  · rintro c tbl tbl' ⟨hinv, hsize⟩ hs
    cases c with
    | memGetFreePagePhys =>
        simp only [Step, exec] at hs
        rcases hinv.memGetFreePagePhys with ⟨i, a, hok, -, hi, -, hmin⟩ | ⟨e, he, -⟩
        · rw [hok] at hs
          cases hs
          exact ⟨hinv.allocated hi hmin, hsize⟩
        · rw [he] at hs
          cases hs
    | memReleasePagePhys p =>
        cases hs
        exact ⟨hinv.memFreeTbl p, hsize⟩

/-- Frames are handed out from the bottom, so that every number of frames up to all of them is
handed out by some run. -/
theorem reachable_prefix {physSize : Nat} (h : physSize < W32) {k : Nat}
    (hk : k ≤ 8 * max 1 (memTblSize physSize)) :
    ∃ tbl, Reachable physSize tbl ∧ ∀ i, tbl.bit i = decide (i < k) := by
  induction k with
  | zero =>
      refine ⟨_, .start rfl, fun i => ?_⟩
      simp [initPhysMemTbl, initByteIndexList, ByteIndexList.bit]
  | succ k ih =>
      obtain ⟨tbl, hr, hbit⟩ := ih (by omega)
      obtain ⟨hinv, hsize⟩ := inv_of_reachable h hr
      rcases hinv.memGetFreePagePhys with ⟨i, a, hok, -, hi, hclear, hmin⟩ | ⟨e, he, hall⟩
      · have hik : i = k := by
          rw [hbit, decide_eq_false_iff_not] at hclear
          by_contra hne
          have hset := hmin k (by omega)
          rw [hbit, decide_eq_true_eq] at hset
          omega
        refine ⟨tbl.allocated i, hr.next .memGetFreePagePhys ?_, fun j => ?_⟩
        · simp only [Step, exec, hok]
        · rw [bit_allocated, hbit, hik, ← Bool.decide_or, decide_eq_decide]
          omega
      · have hset := hall k (by rw [slotBytes, hsize]; omega)
        rw [hbit, decide_eq_true_eq] at hset
        omega

/-- The frames that are handed out are those below the number of slots. -/
theorem frames_inside_iff_slots {physSize : Nat} (h : physSize < W32) :
    (∀ tbl, Reachable physSize tbl → ∀ a tbl', memGetFreePagePhys tbl = .ok (a, tbl') →
        a.toNat + PAGE_SIZE ≤ physSize) ↔
      8 * max 1 (memTblSize physSize) * 4096 ≤ physSize := by
  constructor
  · intro hall
    obtain ⟨tbl, hr, hbit⟩ := reachable_prefix h (k := 8 * max 1 (memTblSize physSize) - 1)
      (by omega)
    obtain ⟨hinv, hsize⟩ := inv_of_reachable h hr
    rcases hinv.memGetFreePagePhys with ⟨i, a, hok, ha, hi, hclear, -⟩ | ⟨e, he, hset⟩
    · have hin := hall tbl hr a _ hok
      rw [hbit, decide_eq_false_iff_not] at hclear
      rw [slotBytes, hsize] at hi
      unfold PAGE_SIZE at hin
      omega
    · have hlast := hset (8 * max 1 (memTblSize physSize) - 1) (by rw [slotBytes, hsize]; omega)
      rw [hbit, decide_eq_true_eq] at hlast
      omega
  · intro hle tbl hr a tbl' hok
    obtain ⟨hinv, hsize⟩ := inv_of_reachable h hr
    rcases hinv.memGetFreePagePhys with ⟨i, a', hok', ha, hi, -, -⟩ | ⟨e, he, -⟩
    · rw [hok] at hok'
      cases hok'
      rw [slotBytes, hsize] at hi
      unfold PAGE_SIZE
      omega
    · rw [hok] at he
      cases he

/-- **The frames are inside of the physical memory** exactly for the memory sizes of at least 32 KiB
that are at most 28 KiB more than a multiple of 32 KiB, or that are in the last page of the address
space. -/
theorem frames_inside {physSize : Nat} (h : physSize < W32) :
    (∀ tbl, Reachable physSize tbl → ∀ a tbl', memGetFreePagePhys tbl = .ok (a, tbl') →
        a.toNat + PAGE_SIZE ≤ physSize) ↔
      32768 ≤ physSize ∧ (physSize % 32768 ≤ 28672 ∨ 4294963200 < physSize) := by
  rw [frames_inside_iff_slots h, memTblSize_eq h]
  have hw : W32 = 4294967296 := rfl
  split <;> omega

/-- With 127 MiB the second frame is inside, like all others. -/
theorem frames_inside_127MiB :
    ∃ tbl, runList exec [.memGetFreePagePhys] (initPhysMemTbl 0x7F00000) = some tbl ∧
      (∃ tbl', memGetFreePagePhys tbl = .ok (0x1000#32, tbl')) ∧
      (0x1000#32).toNat + PAGE_SIZE ≤ 0x7F00000 := by
  have hrun : (runList exec [.memGetFreePagePhys] (initPhysMemTbl 0x7F00000)).any
      (fun tbl => (memGetFreePagePhys tbl).toOption.any fun r => r.1 == 0x1000#32) = true := by
    decide +kernel
  obtain ⟨tbl, hs, hget⟩ := (Option.any_eq_true _ _).1 hrun
  obtain ⟨tbl', hok⟩ := ok_of_any hget
  have hreach : Reachable 0x7F00000 tbl := reach_runList (fun _ _ _ h => h) (.start rfl) hs
  exact ⟨tbl, hs, ⟨tbl', hok⟩, (frames_inside (by decide)).mpr (by decide) tbl hreach _ tbl' hok⟩

/-- With a kibibyte less than 64 KiB the sixteenth frame reaches beyond the memory. -/
theorem frames_outside_63KiB :
    ∃ tbl, runList exec (List.replicate 15 .memGetFreePagePhys) (initPhysMemTbl 0xFC00) = some tbl ∧
      Reachable 0xFC00 tbl ∧
      (∃ tbl', memGetFreePagePhys tbl = .ok (0xF000#32, tbl')) ∧
      ¬ (0xF000#32).toNat + PAGE_SIZE ≤ 0xFC00 := by
  have hrun : (runList exec (List.replicate 15 .memGetFreePagePhys) (initPhysMemTbl 0xFC00)).any
      (fun tbl => (memGetFreePagePhys tbl).toOption.any fun r => r.1 == 0xF000#32) = true := by
    decide +kernel
  obtain ⟨tbl, hs, hget⟩ := (Option.any_eq_true _ _).1 hrun
  exact ⟨tbl, hs, reach_runList (fun _ _ _ h => h) (.start rfl) hs, ok_of_any hget, by decide⟩

end PhysMem

end NowOS

import NowOS.Kheap.Run

set_option autoImplicit false

/-! # The early heap (`kernel/kheap.c`, `kernel/mm.c`)

The early heap is one pointer, `early_heap_ptr`, that moves up. Four functions take memory from it:
`early_kmalloc_sectors`, `early_kmalloc_pages`, `init_mem_manager` for the table of physical pages,
and `init_kheap` for the array of `free_node_list`. The last one takes all that is left and does not
move the pointer. -/

namespace NowOS

/-! ## Ranges of bytes -/

/-- `len` bytes from `addr` on. Addresses wrap around. -/
structure ByteRange where
  addr : Nat
  len : Nat
  deriving DecidableEq, Repr

namespace ByteRange

def Covers (r : ByteRange) (x : Nat) : Prop := x < W32 ∧ sub32 x r.addr < r.len

instance (r : ByteRange) (x : Nat) : Decidable (r.Covers x) := inferInstanceAs (Decidable (_ ∧ _))

/-- No byte is in both ranges. -/
def Disjoint (r r' : ByteRange) : Prop := ∀ x, ¬ (r.Covers x ∧ r'.Covers x)

theorem Disjoint.symm {r r' : ByteRange} (h : r.Disjoint r') : r'.Disjoint r :=
  fun x hx => h x ⟨hx.2, hx.1⟩

/-- A range that ends before another one begins. -/
theorem disjoint_of_le {r r' : ByteRange} (h : r.addr + r.len ≤ r'.addr)
    (hw : r'.addr + r'.len ≤ W32) : r.Disjoint r' := by
  rintro x ⟨⟨hx, h1⟩, -, h2⟩
  unfold sub32 at h1 h2
  split at h1 <;> split at h2 <;> omega

theorem disjoint_of_empty {r r' : ByteRange} (h : r'.len = 0) : r.Disjoint r' := by
  rintro x ⟨-, -, h2⟩
  rw [h] at h2
  exact Nat.not_lt_zero _ h2

end ByteRange

/-! ## The functions of the source -/

def SECTOR_SIZE : Nat := 512

/-- `early_kmalloc_sectors`: the address, and `early_heap_ptr` afterwards. -/
def earlyKmallocSectors (sectorNum earlyHeapPtr : Nat) : Nat × Nat :=
  (earlyHeapPtr, alignUp (add32 earlyHeapPtr (mul32 sectorNum SECTOR_SIZE)) 4)

/-- `early_kmalloc_pages`: the physical address, and `early_heap_ptr` afterwards. -/
def earlyKmallocPages (numPages earlyHeapPtr : Nat) : Except String (Nat × Nat) :=
  let earlyHeapPtr := alignUp earlyHeapPtr PAGE_SIZE
  if ¬ isAligned earlyHeapPtr PAGE_SIZE then .error "PAGE IS NOT ALLIGNED"
  else .ok (sub32 earlyHeapPtr KERN_VIRTUAL_ADDR, add32 earlyHeapPtr (mul32 numPages PAGE_SIZE))

/-- The size of the table that `init_mem_manager` sets up, one bit for each physical page. -/
def memTblSize (physSize : Nat) : Nat := alignDown physSize PAGE_SIZE / PAGE_SIZE / 8

/-- `init_mem_manager`: the address of the table, and `early_heap_ptr` afterwards. -/
def initMemManager (physSize earlyHeapPtr : Nat) : Nat × Nat :=
  (earlyHeapPtr, add32 earlyHeapPtr (memTblSize physSize))

/-- The number of cells that `init_kheap` gives to `free_node_list`. -/
def freeNodeListSize (L : Layout) (earlyHeapPtr : Nat) : Nat :=
  sub32 L.earlyHeapTop earlyHeapPtr / 4

/-- Those who take memory from the early heap. -/
inductive Consumer
  | initMemManager (physSize : Nat)
  | earlyKmallocSectors (sectorNum : Nat)
  | earlyKmallocPages (numPages : Nat)
  | initKheap
  deriving DecidableEq, Repr

/-- The early heap: `early_heap_ptr`, the array of `free_node_list` once `init_kheap` has run, and
the ranges that have been handed out, the latest one first. -/
structure EarlyHeap where
  earlyHeapPtr : Nat
  listArray : Option ByteRange
  handedOut : List ByteRange
  deriving DecidableEq, Repr

namespace EarlyHeap

variable (L : Layout)

/-- `init_early_heap`. -/
def initEarlyHeap : EarlyHeap := ⟨L.earlyHeapBottom, none, []⟩

/-- A range is handed out and `early_heap_ptr` gets a new value. -/
def give (s : EarlyHeap) (r : ByteRange) (earlyHeapPtr : Nat) : EarlyHeap :=
  { s with earlyHeapPtr := earlyHeapPtr, handedOut := r :: s.handedOut }

/-- A consumer runs. The physical address that `early_kmalloc_pages` returns is seen
`KERN_VIRTUAL_ADDR` higher. -/
def exec : Consumer → EarlyHeap → Except String EarlyHeap
  | .initMemManager physSize, s =>
      let (array, ptr) := NowOS.initMemManager physSize s.earlyHeapPtr
      .ok (s.give ⟨array, memTblSize physSize⟩ ptr)
  | .earlyKmallocSectors k, s =>
      let (addr, ptr) := NowOS.earlyKmallocSectors k s.earlyHeapPtr
      .ok (s.give ⟨addr, k * SECTOR_SIZE⟩ ptr)
  | .earlyKmallocPages k, s =>
      match NowOS.earlyKmallocPages k s.earlyHeapPtr with
      | .error e => .error e
      | .ok (phys, ptr) => .ok (s.give ⟨add32 phys KERN_VIRTUAL_ADDR, k * PAGE_SIZE⟩ ptr)
  | .initKheap, s =>
      let r := ⟨s.earlyHeapPtr, 4 * freeNodeListSize L s.earlyHeapPtr⟩
      .ok { s.give r s.earlyHeapPtr with listArray := some r }

/-- `early_heap_ptr` does not wrap around. -/
def NoWrap : Consumer → EarlyHeap → Prop
  | .initMemManager physSize, s => s.earlyHeapPtr + memTblSize physSize < W32
  | .earlyKmallocSectors k, s => s.earlyHeapPtr + k * SECTOR_SIZE + 4 ≤ W32
  | .earlyKmallocPages k, s =>
      s.earlyHeapPtr + PAGE_SIZE ≤ W32 ∧ alignUp s.earlyHeapPtr PAGE_SIZE + k * PAGE_SIZE < W32
  | .initKheap, _ => True

/-- The consumers run in any order, but `init_kheap` runs once. -/
def Step (a : Consumer) (s s' : EarlyHeap) : Prop :=
  (a = .initKheap → s.listArray = none) ∧ NoWrap a s ∧ exec L a s = .ok s'

/-- The ranges that have been handed out are pairwise disjoint. -/
def Disjoint (s : EarlyHeap) : Prop := s.handedOut.Pairwise ByteRange.Disjoint

/-- The first byte behind the array of `free_node_list`. -/
def listEnd (s : EarlyHeap) : Nat :=
  match s.listArray with
  | none => 0
  | some r => r.addr + r.len

/-- Where a consumer takes memory and how much. -/
def request : Consumer → EarlyHeap → ByteRange
  | .initMemManager physSize, s => ⟨s.earlyHeapPtr, memTblSize physSize⟩
  | .earlyKmallocSectors k, s => ⟨s.earlyHeapPtr, k * SECTOR_SIZE⟩
  | .earlyKmallocPages k, s => ⟨alignUp s.earlyHeapPtr PAGE_SIZE, k * PAGE_SIZE⟩
  | .initKheap, s => ⟨s.earlyHeapPtr, 4 * freeNodeListSize L s.earlyHeapPtr⟩

/-- `init_kheap` runs while `early_heap_ptr` is still in the early heap, and who takes memory after
it finds `early_heap_ptr` behind the array of `free_node_list`. -/
def Good : Consumer → EarlyHeap → Prop
  | .initKheap, s => s.earlyHeapPtr ≤ L.earlyHeapTop
  | .initMemManager physSize, s => memTblSize physSize = 0 ∨ s.listEnd ≤ s.earlyHeapPtr
  | .earlyKmallocSectors k, s => k = 0 ∨ s.listEnd ≤ s.earlyHeapPtr
  | .earlyKmallocPages k, s => k = 0 ∨ s.listEnd ≤ alignUp s.earlyHeapPtr PAGE_SIZE

/-! ## What a consumer does -/

/-- A consumer other than `init_kheap` takes its range above `early_heap_ptr` and moves the pointer
to the end of the range or above. -/
theorem exec_bump {a : Consumer} {s : EarlyHeap} (hw : NoWrap a s) (ha : a ≠ .initKheap)
    (hlow : KERN_VIRTUAL_ADDR ≤ s.earlyHeapPtr) :
    ∃ ptr, exec L a s = .ok (s.give (request L a s) ptr) ∧
      s.earlyHeapPtr ≤ (request L a s).addr ∧
      (request L a s).addr + (request L a s).len ≤ ptr ∧ ptr < W32 := by
  cases a with
  | initMemManager physSize =>
      have hptr : add32 s.earlyHeapPtr (memTblSize physSize) =
          s.earlyHeapPtr + memTblSize physSize := add32_of_lt hw
      refine ⟨_, rfl, Nat.le_refl _, ?_, add32_lt _ _⟩
      exact Nat.le_of_eq hptr.symm
  | earlyKmallocSectors k =>
      simp only [NoWrap] at hw
      have hmul : mul32 k SECTOR_SIZE = k * SECTOR_SIZE := mul32_of_lt (by omega)
      have hadd : add32 s.earlyHeapPtr (mul32 k SECTOR_SIZE) =
          s.earlyHeapPtr + k * SECTOR_SIZE := by
        rw [hmul]
        exact add32_of_lt (by omega)
      obtain ⟨hle, hlt, hal⟩ := @alignUp_spec (s.earlyHeapPtr + k * SECTOR_SIZE) 4 (by decide) hw
      refine ⟨_, rfl, Nat.le_refl _, ?_, ?_⟩
      · rw [hadd]
        exact hle
      · rw [hadd]
        unfold W32 at *
        omega
  | earlyKmallocPages k =>
      obtain ⟨hal, hend⟩ := hw
      obtain ⟨hle, -, hmod⟩ := @alignUp_spec s.earlyHeapPtr PAGE_SIZE (by decide) hal
      have haligned : isAligned (alignUp s.earlyHeapPtr PAGE_SIZE) PAGE_SIZE = true := by
        simp [isAligned, hmod]
      have hphys : add32 (sub32 (alignUp s.earlyHeapPtr PAGE_SIZE) KERN_VIRTUAL_ADDR)
          KERN_VIRTUAL_ADDR = alignUp s.earlyHeapPtr PAGE_SIZE := by
        rw [sub32_of_le (by omega), add32_of_lt (by omega)]
        omega
      have hmul : mul32 k PAGE_SIZE = k * PAGE_SIZE := mul32_of_lt (by omega)
      have hadd : add32 (alignUp s.earlyHeapPtr PAGE_SIZE) (mul32 k PAGE_SIZE) =
          alignUp s.earlyHeapPtr PAGE_SIZE + k * PAGE_SIZE := by
        rw [hmul]
        exact add32_of_lt hend
      refine ⟨alignUp s.earlyHeapPtr PAGE_SIZE + k * PAGE_SIZE, ?_, hle, Nat.le_refl _, hend⟩
      simp only [exec, NowOS.earlyKmallocPages, haligned, not_true_eq_false, if_false, hphys, hadd,
        request]
  | initKheap => exact absurd rfl ha

/-! ## Runs -/

/-- What every state of a run keeps: all that has been handed out lies below `early_heap_ptr` or
below the end of the array. -/
structure Inv (s : EarlyHeap) : Prop where
  low : KERN_VIRTUAL_ADDR ≤ s.earlyHeapPtr
  lt : s.earlyHeapPtr < W32
  list : s.listEnd ≤ W32
  below : ∀ r ∈ s.handedOut, r.addr + r.len ≤ max s.earlyHeapPtr s.listEnd
  disjoint : s.Disjoint

theorem inv_init : Inv (initEarlyHeap L) where
  low := L.higher_half
  lt := by
    have h := L.fits
    show L.earlyHeapBottom < W32
    omega
  list := Nat.zero_le _
  below _ hr := by cases hr
  disjoint := List.Pairwise.nil

/-- A consumer other than `init_kheap`. -/
theorem Inv.bump {a : Consumer} {s s' : EarlyHeap} (h : Inv s) (hw : NoWrap a s)
    (ha : a ≠ .initKheap) (hs : exec L a s = .ok s')
    (hgood : (request L a s).len = 0 ∨ s.listEnd ≤ (request L a s).addr) : Inv s' := by
  obtain ⟨ptr, hexec, hstart, hend, hlt⟩ := exec_bump L hw ha h.low
  rw [hexec] at hs
  cases hs
  generalize request L a s = r at hstart hend hgood
  have hmax : max s.earlyHeapPtr s.listEnd ≤ max ptr s.listEnd := by omega
  constructor
  · have := h.low
    show KERN_VIRTUAL_ADDR ≤ ptr
    omega
  · exact hlt
  · exact h.list
  · intro r' hr'
    rcases List.mem_cons.mp hr' with rfl | hr'
    · exact hend.trans (Nat.le_max_left _ _)
    · exact (h.below r' hr').trans hmax
  · apply List.pairwise_cons.mpr
    refine ⟨?_, h.disjoint⟩
    intro r' hr'
    rcases hgood with hempty | hbehind
    · exact (ByteRange.disjoint_of_empty hempty).symm
    · -- everything that was handed out before ends where the new range begins, or below
      have hbelow := h.below r' hr'
      apply ByteRange.Disjoint.symm
      apply ByteRange.disjoint_of_le
      · omega
      · omega

theorem Inv.kheap {s s' : EarlyHeap} (h : Inv s) (hfirst : s.listArray = none)
    (hs : exec L .initKheap s = .ok s') (hgood : s.earlyHeapPtr ≤ L.earlyHeapTop) : Inv s' := by
  cases hs
  have hsize : freeNodeListSize L s.earlyHeapPtr = (L.earlyHeapTop - s.earlyHeapPtr) / 4 := by
    rw [freeNodeListSize, sub32_of_le hgood]
  have htop : s.earlyHeapPtr + 4 * freeNodeListSize L s.earlyHeapPtr ≤ L.earlyHeapTop := by
    rw [hsize]
    omega
  have hfits : L.earlyHeapTop ≤ W32 := by
    have hfits := L.fits
    unfold Layout.earlyHeapTop
    omega
  have hnone : s.listEnd = 0 := by rw [listEnd, hfirst]
  have hbelow : ∀ r ∈ s.handedOut, r.addr + r.len ≤ s.earlyHeapPtr := by
    intro r hr
    have hr' := h.below r hr
    rw [hnone] at hr'
    omega
  constructor
  · exact h.low
  · exact h.lt
  · exact htop.trans hfits
  · intro r hr
    rcases List.mem_cons.mp hr with rfl | hr
    · exact Nat.le_max_right _ _
    · exact (hbelow r hr).trans (Nat.le_max_left _ _)
  · apply List.pairwise_cons.mpr
    refine ⟨?_, h.disjoint⟩
    intro r hr
    apply ByteRange.Disjoint.symm
    exact ByteRange.disjoint_of_le (hbelow r hr) (htop.trans hfits)

theorem Inv.step {a : Consumer} {s s' : EarlyHeap} (h : Inv s) (hgood : Good L a s)
    (hs : Step L a s s') : Inv s' := by
  obtain ⟨hfirst, hw, hexec⟩ := hs
  cases a with
  | initKheap => exact h.kheap L (hfirst rfl) hexec hgood
  | initMemManager physSize => exact h.bump L hw (by simp) hexec hgood
  | earlyKmallocSectors k =>
      apply h.bump L hw (by simp) hexec
      exact hgood.imp (fun hk => by simp [request, hk]) id
  | earlyKmallocPages k =>
      apply h.bump L hw (by simp) hexec
      exact hgood.imp (fun hk => by simp [request, hk]) id

/-- **The early heap.** As long as `init_kheap` runs with `early_heap_ptr` inside of the early heap
and nobody takes memory after it below the end of the array of `free_node_list`, the ranges that
are handed out are pairwise disjoint. -/
theorem early_ranges_disjoint {s : EarlyHeap}
    (hr : Reach (· = initEarlyHeap L) (Guarded (Good L) (Step L)) s) : s.Disjoint := by
  have hinv : Inv s := by
    apply hr.invariant (I := Inv)
    · rintro s rfl
      exact inv_init L
    · rintro a s s' h ⟨hgood, hs⟩
      exact h.step L hgood hs
  exact hinv.disjoint

instance (a : Consumer) (s : EarlyHeap) : Decidable (NoWrap a s) := by
  cases a <;> unfold NoWrap <;> infer_instance

instance (a : Consumer) (s : EarlyHeap) : Decidable (Good L a s) := by
  cases a <;> unfold Good <;> infer_instance

/-- A consumer runs if it is one of the steps of a run. -/
def consume (a : Consumer) (s : EarlyHeap) : Option EarlyHeap :=
  if (a = .initKheap → s.listArray = none) ∧ NoWrap a s then (exec L a s).toOption else none

theorem step_of_consume {a : Consumer} {s s' : EarlyHeap} (h : consume L a s = some s') :
    Step L a s s' := by
  unfold consume at h
  split at h
  next hstep =>
    refine ⟨hstep.1, hstep.2, ?_⟩
    cases hexec : exec L a s with
    | error e =>
        rw [hexec] at h
        cases h
    | ok s1 =>
        rw [hexec] at h
        cases h
        rfl
  next => cases h

/-- The consumers that `kmain` runs up to `init_kheap` with 127 MiB of upper memory: the table of
the physical pages, the page directory with three page tables of the kernel, one for the ACPI tables
and one for the local APIC, and the array of `free_node_list`. -/
def bootConsumers : List Consumer :=
  [.initMemManager 0x7F00000, .earlyKmallocPages 1, .earlyKmallocPages 1, .earlyKmallocPages 1,
    .earlyKmallocPages 1, .earlyKmallocPages 1, .earlyKmallocPages 1, .initKheap]

/-- Up to `init_kheap` the boot stays within the condition. -/
theorem early_ranges_disjoint_boot :
    ∃ s, runList (fun a s => if Good KHeap.Client.bootLayout a s
        then consume KHeap.Client.bootLayout a s else none) bootConsumers
        (initEarlyHeap KHeap.Client.bootLayout) = some s ∧
      s.handedOut.length = 8 ∧ s.Disjoint := by
  obtain ⟨s, hs, hlen⟩ := (Option.any_eq_true _ _).1 (show
    (runList (fun a s => if Good KHeap.Client.bootLayout a s
      then consume KHeap.Client.bootLayout a s else none) bootConsumers
      (initEarlyHeap KHeap.Client.bootLayout)).any (fun s => s.handedOut.length == 8) = true by
    decide +kernel)
  refine ⟨s, hs, beq_iff_eq.mp hlen, early_ranges_disjoint KHeap.Client.bootLayout ?_⟩
  refine reach_runList ?_ (.start rfl) hs
  intro a s s' h
  split at h
  next hgood => exact ⟨hgood, step_of_consume _ h⟩
  next => cases h

/-- `init_smp` takes a page for the stacks of four processors after `init_kheap`, and it is the page
in which the array of `free_node_list` lies. -/
theorem early_ranges_overlap :
    ∃ s, runList (consume KHeap.Client.bootLayout) (bootConsumers ++ [.earlyKmallocPages 1])
        (initEarlyHeap KHeap.Client.bootLayout) = some s ∧
      Reach (· = initEarlyHeap KHeap.Client.bootLayout) (Step KHeap.Client.bootLayout) s ∧
      ¬ s.Disjoint := by
  have hrun : (runList (consume KHeap.Client.bootLayout)
      (bootConsumers ++ [.earlyKmallocPages 1]) (initEarlyHeap KHeap.Client.bootLayout)).any
      (fun s => s.handedOut.take 2 == [⟨0xC0117000, 4096⟩, ⟨0xC0117000, 4096⟩]) = true := by
    decide +kernel
  obtain ⟨s, hs, htake⟩ := (Option.any_eq_true _ _).1 hrun
  refine ⟨s, hs, reach_runList (fun _ _ _ => step_of_consume _) (.start rfl) hs, ?_⟩
  intro hdis
  have hpair : (s.handedOut.take 2).Pairwise ByteRange.Disjoint := List.Pairwise.take hdis
  rw [beq_iff_eq.mp htake, List.pairwise_cons] at hpair
  apply hpair.1 _ (List.mem_singleton_self _) 0xC0117000
  decide +kernel

end EarlyHeap

end NowOS

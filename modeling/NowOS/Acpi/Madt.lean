import NowOS.Kdef
import NowOS.Lib.Records

set_option autoImplicit false

/-! # The interrupt controllers of the machine (`kernel/acpi.c`)

`parse_apic_table` reads the MADT, the ACPI table that lists the interrupt controllers: a header
with a checksum, and records of different types and lengths up to the end of the table. Its results
are the globals of the file and the array of interrupt overrides of `arch/apic.c`.

Memory is read by the byte, at 32-bit addresses. The result for a table whose records tile it is
stated in terms of the list of its records, as `Parsed`. -/

namespace NowOS

/-! ## The structures of `acpi.h` -/

section Layout

variable (mem : Nat → UInt8)

namespace AcpiHeader

/-- `header->length`, the length of the table with its header. -/
def length (header : Nat) : Nat := wordAt mem (header + 4)

end AcpiHeader

/-- `sizeof(acpi_madt)`. -/
def ACPI_MADT_SIZE : Nat := 44

namespace AcpiMadt

def localApicAddr (madt : Nat) : Nat := wordAt mem (madt + 36)

end AcpiMadt

/-- `sizeof(apic_header)`. -/
def APIC_HEADER_SIZE : Nat := 2

namespace ApicHeader

def type (header : Nat) : UInt8 := byteAt mem header

def length (header : Nat) : Nat := (byteAt mem (header + 1)).toNat

end ApicHeader

namespace ApicLocalApic

def acpiProcessorId (entry : Nat) : UInt8 := byteAt mem entry

def apicId (entry : Nat) : UInt8 := byteAt mem (entry + 1)

end ApicLocalApic

namespace ApicIoApic

def ioApicAddress (entry : Nat) : Nat := wordAt mem (entry + 2)

def globalSystemInterruptBase (entry : Nat) : Nat := wordAt mem (entry + 6)

end ApicIoApic

def APIC_TYPE_LOCAL_APIC : UInt8 := 0

def APIC_TYPE_IO_APIC : UInt8 := 1

def APIC_TYPE_INTERRUPT_OVERRIDE : UInt8 := 2

end Layout

def MAX_IOAPIC_OVERRIDES : Nat := 24

/-! ## The parser -/

/-- The globals of `acpi.c`, and `ioapic_overrides` of `apic.c`. A pointer is an address and `0` is
`NULL`. -/
structure Acpi where
  ioApicAddr : Nat
  localApicAddr : Nat
  gsiBase : Nat
  apicCpuCount : Nat
  apicProcessorIds : Nat → UInt8
  apicCpuIds : Nat → UInt8
  ioapicOverrides : Nat → Nat

/-- The sum of the first `n` bytes, in an `unsigned char`. -/
def sumBytes (mem : Nat → UInt8) (header : Nat) : Nat → UInt8
  | 0 => 0
  | n + 1 => sumBytes mem header n + byteAt mem (header + n)

def checkAcpiHeader (mem : Nat → UInt8) (header : Nat) : Except Stop Unit :=
  if sumBytes mem header (AcpiHeader.length mem header) ≠ 0 then
    .error (.panic "ACPI_HEADER CHECKSUM FAILED\n")
  else
    .ok ()

/-- The array after its first `n` cells were set to `z`. -/
def memset {α : Type} (arr : Nat → α) (z : α) (n : Nat) : Nat → α :=
  fun i => if i < n then z else arr i

/-- The first `NULL` of the `n` cells from `i` on takes the entry. -/
def overrideLoop (overrides : Nat → Nat) (entry : Nat) : Nat → Nat → Nat → Nat
  | 0, _ => overrides
  | n + 1, i =>
      if overrides i = 0 then Function.update overrides i entry
      else overrideLoop overrides entry n (i + 1)

namespace Acpi

variable (mem : Nat → UInt8) (st : Acpi)

def parseProcessorTable (entry : Nat) : Acpi :=
  -- CPUs beyond the arrays are left out
  if st.apicCpuCount < MAX_CPU_COUNT then
    { st with
      apicCpuIds := Function.update st.apicCpuIds st.apicCpuCount (ApicLocalApic.apicId mem entry)
      apicProcessorIds := Function.update st.apicProcessorIds st.apicCpuCount
        (ApicLocalApic.acpiProcessorId mem entry)
      apicCpuCount := st.apicCpuCount + 1 }
  else
    st

def parseIoTable (entry : Nat) : Acpi :=
  -- there is one variable for all I/O APICs, so that the last one stays
  { st with
    ioApicAddr := ApicIoApic.ioApicAddress mem entry
    gsiBase := ApicIoApic.globalSystemInterruptBase mem entry }

def parseInterruptOverride (entry : Nat) : Acpi :=
  { st with ioapicOverrides := overrideLoop st.ioapicOverrides entry MAX_IOAPIC_OVERRIDES 0 }

/-- The body of the loop, for the record at `header`. -/
def parseRecord (header : Nat) : Acpi :=
  if ApicHeader.type mem header = APIC_TYPE_LOCAL_APIC then
    st.parseProcessorTable mem (add32 header APIC_HEADER_SIZE)
  else if ApicHeader.type mem header = APIC_TYPE_IO_APIC then
    st.parseIoTable mem (add32 header APIC_HEADER_SIZE)
  else if ApicHeader.type mem header = APIC_TYPE_INTERRUPT_OVERRIDE then
    st.parseInterruptOverride (add32 header APIC_HEADER_SIZE)
  else
    st

/-- The start of the parser, which clears the arrays. It does not reset the number of CPUs. -/
def clear (madt : Nat) : Acpi :=
  { st with
    apicProcessorIds := memset st.apicProcessorIds 0 MAX_CPU_COUNT
    apicCpuIds := memset st.apicCpuIds 0 MAX_CPU_COUNT
    ioapicOverrides := memset st.ioapicOverrides 0 MAX_IOAPIC_OVERRIDES
    localApicAddr := AcpiMadt.localApicAddr mem madt }

end Acpi

/-- Where the record after that at `header` begins. -/
def nextRecord (mem : Nat → UInt8) (header : Nat) : Nat :=
  add32 header (ApicHeader.length mem header)

/-- The first record of the table. -/
def firstRecord (madt : Nat) : Nat := add32 madt ACPI_MADT_SIZE

/-- `end`. -/
def tableEnd (mem : Nat → UInt8) (madt : Nat) : Nat := add32 madt (AcpiHeader.length mem madt)

/-- `parse_apic_table`. The loop has no bound of its own: with a record of length `0` it never ends.
`fuel` bounds the number of its tests, and `spin` says that they were not enough. -/
def parseApicTable (mem : Nat → UInt8) (fuel madt : Nat) (st : Acpi) : Except Stop Acpi := do
  checkAcpiHeader mem madt
  match walkRecords (nextRecord mem) (Acpi.parseRecord mem) fuel (st.clear mem madt)
      (firstRecord madt) (tableEnd mem madt) with
  | some st => .ok st
  | none => .error .spin

/-- The records that `parse_apic_table` visits. -/
def madtRecords (mem : Nat → UInt8) (fuel madt : Nat) : Option (List Nat) :=
  visits (nextRecord mem) fuel (firstRecord madt) (tableEnd mem madt)

/-- An accepted table is one with a valid checksum whose walk ends; the result is the fold of the
body over the records of the walk. -/
theorem parseApicTable_ok_iff {mem : Nat → UInt8} {fuel madt : Nat} {st st' : Acpi} :
    parseApicTable mem fuel madt st = .ok st' ↔
      sumBytes mem madt (AcpiHeader.length mem madt) = 0 ∧
        ∃ rs, madtRecords mem fuel madt = some rs ∧
          st' = rs.foldl (Acpi.parseRecord mem) (st.clear mem madt) := by
  unfold parseApicTable checkAcpiHeader madtRecords
  -- the walk with its state is the walk alone, and then the fold
  rw [walkRecords_eq]
  by_cases hsum : sumBytes mem madt (AcpiHeader.length mem madt) = 0
  · cases visits (nextRecord mem) fuel (firstRecord madt) (tableEnd mem madt) with
    | none => simp [hsum, bind, Except.bind]
    | some rs => simp [hsum, bind, Except.bind, eq_comm]
  · simp [hsum, bind, Except.bind]

/-! ## What the table lists -/

section Lists

variable (mem : Nat → UInt8) (rs : List Nat)

/-- The records of one type, in order. -/
def ofType (t : UInt8) : List Nat := rs.filter fun r => ApicHeader.type mem r == t

/-- What `field` reads of the records of one type, in order. -/
def fieldOf {α : Type} (t : UInt8) (field : Nat → α) : List α :=
  (ofType mem rs t).map fun r => field (add32 r APIC_HEADER_SIZE)

/-- The APIC ids of the local APICs. -/
def cpuIds : List UInt8 := fieldOf mem rs APIC_TYPE_LOCAL_APIC (ApicLocalApic.apicId mem)

/-- The processor ids of the local APICs. -/
def processorIds : List UInt8 :=
  fieldOf mem rs APIC_TYPE_LOCAL_APIC (ApicLocalApic.acpiProcessorId mem)

/-- The addresses of the I/O APICs. -/
def ioApicAddrs : List Nat := fieldOf mem rs APIC_TYPE_IO_APIC (ApicIoApic.ioApicAddress mem)

/-- The first interrupts of the I/O APICs. -/
def gsiBases : List Nat :=
  fieldOf mem rs APIC_TYPE_IO_APIC (ApicIoApic.globalSystemInterruptBase mem)

/-- The interrupt overrides. -/
def intOverrides : List Nat := fieldOf mem rs APIC_TYPE_INTERRUPT_OVERRIDE id

end Lists

/-- **The state lists the records** `rs`, and is as `st` where they say nothing: the arrays hold
what fits into them, and the I/O APIC is the last one. -/
structure Parsed (mem : Nat → UInt8) (st : Acpi) (rs : List Nat) (st' : Acpi) : Prop where
  count : st'.apicCpuCount = min (cpuIds mem rs).length MAX_CPU_COUNT
  apicCpuIds : Filled st'.apicCpuIds MAX_CPU_COUNT (cpuIds mem rs) 0
  apicProcessorIds : Filled st'.apicProcessorIds MAX_CPU_COUNT (processorIds mem rs) 0
  ioApicAddr : st'.ioApicAddr = (ioApicAddrs mem rs).getLast?.getD st.ioApicAddr
  gsiBase : st'.gsiBase = (gsiBases mem rs).getLast?.getD st.gsiBase

section Step

variable {mem : Nat → UInt8} {rs : List Nat} {r : Nat} {st st' : Acpi}

theorem fieldOf_append {α : Type} {t : UInt8} (field : Nat → α) (ht : ApicHeader.type mem r = t) :
    fieldOf mem (rs ++ [r]) t field = fieldOf mem rs t field ++
      [field (add32 r APIC_HEADER_SIZE)] := by
  simp [fieldOf, ofType, ht]

theorem fieldOf_append_of_ne {α : Type} {t : UInt8} (field : Nat → α)
    (ht : ApicHeader.type mem r ≠ t) :
    fieldOf mem (rs ++ [r]) t field = fieldOf mem rs t field := by
  simp [fieldOf, ofType, ht]

theorem length_processorIds (mem : Nat → UInt8) (rs : List Nat) :
    (processorIds mem rs).length = (cpuIds mem rs).length := by
  simp [processorIds, cpuIds, fieldOf]

/-- A record that is no local APIC changes nothing in the lists of the CPUs. -/
theorem cpus_append_of_ne (hcpu : ApicHeader.type mem r ≠ APIC_TYPE_LOCAL_APIC) :
    cpuIds mem (rs ++ [r]) = cpuIds mem rs ∧ processorIds mem (rs ++ [r]) = processorIds mem rs :=
  ⟨fieldOf_append_of_ne _ hcpu, fieldOf_append_of_ne _ hcpu⟩

/-- A record that is no I/O APIC changes nothing in the lists of the I/O APICs. -/
theorem ioApics_append_of_ne (hio : ApicHeader.type mem r ≠ APIC_TYPE_IO_APIC) :
    ioApicAddrs mem (rs ++ [r]) = ioApicAddrs mem rs ∧ gsiBases mem (rs ++ [r]) = gsiBases mem rs :=
  ⟨fieldOf_append_of_ne _ hio, fieldOf_append_of_ne _ hio⟩

/-- A local APIC goes to the first free cell of both arrays, if there is one. -/
theorem Parsed.processor (h : Parsed mem st rs st')
    (ht : ApicHeader.type mem r = APIC_TYPE_LOCAL_APIC) :
    Parsed mem st (rs ++ [r]) (st'.parseProcessorTable mem (add32 r APIC_HEADER_SIZE)) := by
  have hids : cpuIds mem (rs ++ [r]) = cpuIds mem rs ++ [_] := fieldOf_append _ ht
  have hproc : processorIds mem (rs ++ [r]) = processorIds mem rs ++ [_] := fieldOf_append _ ht
  obtain ⟨haddr, hgsi⟩ := @ioApics_append_of_ne mem rs r (by rw [ht]; decide)
  have hlen := length_processorIds mem rs
  have hcount := h.count
  unfold Acpi.parseProcessorTable
  split
  · -- The arrays have room: the number of CPUs is the number of records so far.
    have hcpu : st'.apicCpuCount = (cpuIds mem rs).length := by omega
    constructor
    · rw [hids, List.length_append, List.length_singleton]
      simp only
      omega
    · rw [hids, hcpu]
      exact h.apicCpuIds.push
    · rw [hproc, hcpu, ← hlen]
      exact h.apicProcessorIds.push
    · rw [haddr]; exact h.ioApicAddr
    · rw [hgsi]; exact h.gsiBase
  · constructor
    · rw [hids, List.length_append, List.length_singleton]
      omega
    · rw [hids]; exact h.apicCpuIds.full (by omega)
    · rw [hproc]; exact h.apicProcessorIds.full (by omega)
    · rw [haddr]; exact h.ioApicAddr
    · rw [hgsi]; exact h.gsiBase

theorem Parsed.ioApic (h : Parsed mem st rs st')
    (ht : ApicHeader.type mem r = APIC_TYPE_IO_APIC) :
    Parsed mem st (rs ++ [r]) (st'.parseIoTable mem (add32 r APIC_HEADER_SIZE)) := by
  obtain ⟨hids, hproc⟩ := @cpus_append_of_ne mem rs r (by rw [ht]; decide)
  have haddr : ioApicAddrs mem (rs ++ [r]) = ioApicAddrs mem rs ++ [_] := fieldOf_append _ ht
  have hgsi : gsiBases mem (rs ++ [r]) = gsiBases mem rs ++ [_] := fieldOf_append _ ht
  constructor
  · rw [hids]; exact h.count
  · rw [hids]; exact h.apicCpuIds
  · rw [hproc]; exact h.apicProcessorIds
  · rw [haddr, List.getLast?_concat]; rfl
  · rw [hgsi, List.getLast?_concat]; rfl

/-- The record is neither a local APIC nor an I/O APIC, and the globals are as they were. -/
theorem Parsed.other (h : Parsed mem st rs st')
    (hcpu : ApicHeader.type mem r ≠ APIC_TYPE_LOCAL_APIC)
    (hio : ApicHeader.type mem r ≠ APIC_TYPE_IO_APIC) : Parsed mem st (rs ++ [r]) st' := by
  obtain ⟨hids, hproc⟩ := @cpus_append_of_ne mem rs r hcpu
  obtain ⟨haddr, hgsi⟩ := @ioApics_append_of_ne mem rs r hio
  constructor
  · rw [hids]; exact h.count
  · rw [hids]; exact h.apicCpuIds
  · rw [hproc]; exact h.apicProcessorIds
  · rw [haddr]; exact h.ioApicAddr
  · rw [hgsi]; exact h.gsiBase

theorem Parsed.parseRecord (h : Parsed mem st rs st') :
    Parsed mem st (rs ++ [r]) (st'.parseRecord mem r) := by
  unfold Acpi.parseRecord
  split
  next ht => exact h.processor ht
  next hcpu =>
    split
    next ht => exact h.ioApic ht
    next hio =>
      have := h.other hcpu hio
      split
      -- The overrides are no part of `Parsed`.
      · exact ⟨this.count, this.apicCpuIds, this.apicProcessorIds, this.ioApicAddr, this.gsiBase⟩
      · exact this

/-- **The walk lists its records**: the parser starts with no CPUs and takes one record after the
other. -/
theorem parsed_foldl (hst : st.apicCpuCount = 0) (madt : Nat) (rs : List Nat) :
    Parsed mem st rs (rs.foldl (Acpi.parseRecord mem) (st.clear mem madt)) := by
  induction rs using List.reverseRecOn with
  | nil =>
      refine ⟨by simp [Acpi.clear, hst, cpuIds, fieldOf, ofType], ?_, ?_, rfl, rfl⟩
      · intro i hi
        simp [Acpi.clear, memset, hi, cpuIds, fieldOf, ofType]
      · intro i hi
        simp [Acpi.clear, memset, hi, processorIds, fieldOf, ofType]
  | append_singleton rs r ih =>
      rw [List.foldl_append]
      exact ih.parseRecord

/-! ## The interrupt overrides -/

/-- The loop puts the entry behind the pointers that are there, or nowhere if the array is full. -/
theorem overrideLoop_filled {ov : Nat → Nat} {entry cap : Nat} {xs : List Nat}
    (h : Filled ov cap xs 0) (hxs : ∀ x ∈ xs, x ≠ 0) (n i : Nat) (hi : i ≤ xs.length)
    (hn : i + n = cap) : Filled (overrideLoop ov entry n i) cap (xs ++ [entry]) 0 := by
  induction n generalizing i with
  | zero => exact h.full (by omega)
  | succ n ih =>
      have hcell := h i (by omega)
      simp only [overrideLoop]
      -- the invariant: the loop has not passed the end of the pointers that are there
      rcases Nat.lt_or_eq_of_le hi with hlt | rfl
      · have hmem : xs.getD i 0 ∈ xs := by
          rw [List.getD_eq_getElem _ _ hlt]
          exact List.getElem_mem hlt
        rw [if_neg (by rw [hcell]; exact hxs _ hmem)]
        exact ih (i + 1) hlt (by omega)
      · rw [if_pos (by rw [hcell, List.getD_eq_default _ _ (Nat.le_refl _)])]
        exact h.push

theorem overrides_parseRecord
    (h : Filled st'.ioapicOverrides MAX_IOAPIC_OVERRIDES (intOverrides mem rs) 0)
    (hrs : ∀ x ∈ intOverrides mem rs, x ≠ 0) :
    Filled (st'.parseRecord mem r).ioapicOverrides MAX_IOAPIC_OVERRIDES
      (intOverrides mem (rs ++ [r])) 0 := by
  by_cases ht : ApicHeader.type mem r = APIC_TYPE_INTERRUPT_OVERRIDE
  · have hov : intOverrides mem (rs ++ [r]) = intOverrides mem rs ++ [_] := fieldOf_append id ht
    have hcpu : ApicHeader.type mem r ≠ APIC_TYPE_LOCAL_APIC := by rw [ht]; decide
    have hio : ApicHeader.type mem r ≠ APIC_TYPE_IO_APIC := by rw [ht]; decide
    rw [hov, Acpi.parseRecord, if_neg hcpu, if_neg hio, if_pos ht]
    exact overrideLoop_filled h hrs _ 0 (Nat.zero_le _) (Nat.zero_add _)
  · have hov : intOverrides mem (rs ++ [r]) = intOverrides mem rs := fieldOf_append_of_ne id ht
    have hsame : (st'.parseRecord mem r).ioapicOverrides = st'.ioapicOverrides := by
      unfold Acpi.parseRecord Acpi.parseProcessorTable Acpi.parseIoTable
      rw [if_neg ht]
      repeat' split
      all_goals rfl
    rw [hov, hsame]
    exact h

/-- No record is at the address whose entry would be at `NULL`. -/
theorem overrides_foldl (hrs : ∀ r ∈ rs, r + APIC_HEADER_SIZE < W32) (madt : Nat) :
    Filled (rs.foldl (Acpi.parseRecord mem) (st.clear mem madt)).ioapicOverrides
      MAX_IOAPIC_OVERRIDES (intOverrides mem rs) 0 := by
  induction rs using List.reverseRecOn with
  | nil =>
      intro i hi
      simp [Acpi.clear, memset, hi, intOverrides, fieldOf, ofType]
  | append_singleton rs r ih =>
      have hrest : ∀ r ∈ rs, r + APIC_HEADER_SIZE < W32 := fun r hr =>
        hrs r (List.mem_append_left _ hr)
      rw [List.foldl_append]
      refine overrides_parseRecord (ih hrest) fun x hx => ?_
      obtain ⟨r', hr', rfl⟩ := List.mem_map.1 hx
      have hlt := hrest r' (List.mem_filter.1 hr').1
      rw [id, add32_of_lt hlt]
      unfold APIC_HEADER_SIZE
      omega

end Step

/-! ## Well-formed tables -/

/-- The length of the structure of a record with its header: of a record of an unknown type, the
header. -/
def structLength (t : UInt8) : Nat :=
  if t = APIC_TYPE_LOCAL_APIC then 8
  else if t = APIC_TYPE_IO_APIC then 12
  else if t = APIC_TYPE_INTERRUPT_OVERRIDE then 10
  else APIC_HEADER_SIZE

/-- **A well-formed table**: its checksum is valid, and the records `rs` tile it behind its header,
each at least as long as its type says. The table is an object in memory, so that the address behind
it is an address too. -/
structure WellFormedMadt (mem : Nat → UInt8) (madt : Nat) (rs : List Nat) : Prop where
  checksum : sumBytes mem madt (AcpiHeader.length mem madt) = 0
  tiled : Tiled (fun r => r + ApicHeader.length mem r) rs (madt + ACPI_MADT_SIZE)
    (madt + AcpiHeader.length mem madt)
  long : ∀ r ∈ rs, structLength (ApicHeader.type mem r) ≤ ApicHeader.length mem r
  fits : madt + AcpiHeader.length mem madt < W32

instance (mem : Nat → UInt8) (madt : Nat) (rs : List Nat) :
    Decidable (WellFormedMadt mem madt rs) :=
  decidable_of_iff
    (sumBytes mem madt (AcpiHeader.length mem madt) = 0 ∧
      Tiled (fun r => r + ApicHeader.length mem r) rs (madt + ACPI_MADT_SIZE)
        (madt + AcpiHeader.length mem madt) ∧
      (∀ r ∈ rs, structLength (ApicHeader.type mem r) ≤ ApicHeader.length mem r) ∧
      madt + AcpiHeader.length mem madt < W32)
    ⟨fun ⟨h₁, h₂, h₃, h₄⟩ => ⟨h₁, h₂, h₃, h₄⟩, fun h => ⟨h.1, h.2, h.3, h.4⟩⟩

theorem header_le_structLength (t : UInt8) : APIC_HEADER_SIZE ≤ structLength t := by
  unfold structLength APIC_HEADER_SIZE
  repeat' split
  all_goals omega

section Exact

variable {mem : Nat → UInt8} {madt : Nat} {rs : List Nat}

theorem WellFormedMadt.header_le (h : WellFormedMadt mem madt rs) {r : Nat} (hr : r ∈ rs) :
    2 ≤ ApicHeader.length mem r :=
  (header_le_structLength _).trans (h.long r hr)

/-- The records lie in the table. -/
theorem WellFormedMadt.bounds (h : WellFormedMadt mem madt rs) {r : Nat} (hr : r ∈ rs) :
    r + ApicHeader.length mem r < W32 := by
  have hnext : ∀ r ∈ rs, r < r + ApicHeader.length mem r := fun r hr => by
    have := h.header_le hr
    omega
  have := (h.tiled.mem_bounds hnext hr).2
  have := h.fits
  omega

/-- The parser visits the records of a well-formed table. -/
theorem WellFormedMadt.madtRecords (h : WellFormedMadt mem madt rs) {fuel : Nat}
    (hfuel : rs.length < fuel) :
    madtRecords mem fuel madt = some rs := by
  have hnext : ∀ r ∈ rs, nextRecord mem r = r + ApicHeader.length mem r := fun r hr =>
    add32_of_lt (h.bounds hr)
  have hlt : ∀ r ∈ rs, r < r + ApicHeader.length mem r := fun r hr => by
    have := h.header_le hr
    omega
  have hle := h.tiled.le hlt
  have hfits := h.fits
  have hfirst : firstRecord madt = madt + ACPI_MADT_SIZE := add32_of_lt (by omega)
  have hend : tableEnd mem madt = madt + AcpiHeader.length mem madt := add32_of_lt hfits
  unfold NowOS.madtRecords
  rw [hfirst, hend]
  exact (h.tiled.congr hnext).visits (fun r hr => by rw [hnext r hr]; exact hlt r hr) hfuel

/-- **`parse_apic_table` is exact on well-formed tables.** Started with no CPUs it returns, whatever
the order and the number of the records, and its results list them: the first CPUs in order and
zeros behind them, their number up to the length of the arrays, the last I/O APIC, and the first
interrupt overrides with `NULL` behind them. -/
theorem parseApicTable_exact (h : WellFormedMadt mem madt rs) {st : Acpi}
    (hst : st.apicCpuCount = 0) {fuel : Nat} (hfuel : rs.length < fuel) :
    ∃ st', parseApicTable mem fuel madt st = .ok st' ∧
      Parsed mem st rs st' ∧
      Filled st'.ioapicOverrides MAX_IOAPIC_OVERRIDES (intOverrides mem rs) 0 := by
  refine ⟨_, parseApicTable_ok_iff.2 ⟨h.checksum, rs, h.madtRecords hfuel, rfl⟩,
    parsed_foldl hst madt rs, overrides_foldl (fun r hr => ?_) madt⟩
  have := h.header_le hr
  have := h.bounds hr
  unfold APIC_HEADER_SIZE
  omega

end Exact

/-- The table of a machine with two CPUs, one I/O APIC and one interrupt override. The second CPU
has the APIC id `id`. -/
def smallMadt (id checksum : UInt8) : List UInt8 :=
  [0x41, 0x50, 0x49, 0x43, 82, 0, 0, 0, 1, checksum, 0, 0, 0, 0, 0, 0, 0, 0, 0, 0, 0, 0, 0, 0,
    0, 0, 0, 0, 0, 0, 0, 0, 0, 0, 0, 0, 0, 0, 0xE0, 0xFE, 1, 0, 0, 0] ++
  [0, 8, 0, 0, 1, 0, 0, 0] ++ [0, 8, 1, id, 1, 0, 0, 0] ++
  [1, 12, 2, 0, 0, 0, 0xC0, 0xFE, 0, 0, 0, 0] ++ [2, 10, 0, 0, 2, 0, 0, 0, 0, 0]

/-- The memory of this machine: the table is at `0x1000`. -/
def smallMemory (id checksum : UInt8) : Nat → UInt8 :=
  fun a => if 0x1000 ≤ a then (smallMadt id checksum).getD (a - 0x1000) 0 else 0

/-- Where the records of the table are. -/
def smallRecords : List Nat := [0x102C, 0x1034, 0x103C, 0x1048]

/-- The globals of a kernel that was just loaded. -/
def Acpi.bss : Acpi := ⟨0, 0, 0, 0, fun _ => 0, fun _ => 0, fun _ => 0⟩

theorem parseApicTable_exact_small :
    ∃ st', parseApicTable (smallMemory 1 194) 5 0x1000 Acpi.bss = .ok st' ∧
      Parsed (smallMemory 1 194) Acpi.bss smallRecords st' ∧
      Filled st'.ioapicOverrides MAX_IOAPIC_OVERRIDES
        (intOverrides (smallMemory 1 194) smallRecords) 0 := by
  have hwell : WellFormedMadt (smallMemory 1 194) 0x1000 smallRecords := by decide +kernel
  exact parseApicTable_exact hwell rfl (by decide)

/-! ## Termination

The length of each record is a byte that the firmware has put into it. The checksum is over the
whole table, and says nothing about the single records. -/

/-- The parser comes to the record at `r` with the globals `st'`. -/
def MadtVisited (mem : Nat → UInt8) (madt : Nat) (st st' : Acpi) (r : Nat) : Prop :=
  Visited (nextRecord mem) (Acpi.parseRecord mem) (tableEnd mem madt) (st.clear mem madt)
    (firstRecord madt) st' r

section Termination

variable {mem : Nat → UInt8} {madt : Nat} {st : Acpi}

/-- With a valid checksum, the parser is its loop. -/
theorem parseApicTable_of_sum (hsum : sumBytes mem madt (AcpiHeader.length mem madt) = 0)
    (fuel : Nat) :
    parseApicTable mem fuel madt st =
      match walkRecords (nextRecord mem) (Acpi.parseRecord mem) fuel (st.clear mem madt)
          (firstRecord madt) (tableEnd mem madt) with
      | some st => .ok st
      | none => .error .spin := by
  unfold parseApicTable checkAcpiHeader
  rw [if_neg (not_not.2 hsum)]
  rfl

theorem walkRecords_of_ok (hsum : sumBytes mem madt (AcpiHeader.length mem madt) = 0) {fuel : Nat}
    {st' : Acpi} (hok : parseApicTable mem fuel madt st = .ok st') :
    walkRecords (nextRecord mem) (Acpi.parseRecord mem) fuel (st.clear mem madt) (firstRecord madt)
      (tableEnd mem madt) = some st' := by
  rw [parseApicTable_of_sum hsum] at hok
  split at hok
  next t heq =>
    cases hok
    exact heq
  next => cases hok

theorem MadtVisited.lt {st' : Acpi} {r : Nat} (h : MadtVisited mem madt st st' r) : r < W32 :=
  (Visited.lt h).trans (add32_lt _ _)

/-- A parser that ends has come to no record whose length is `0`: it would have stayed there. -/
theorem length_ne_zero_of_ends (hsum : sumBytes mem madt (AcpiHeader.length mem madt) = 0)
    (hends : ∃ fuel st', parseApicTable mem fuel madt st = .ok st') {st' : Acpi} {r : Nat}
    (hr : MadtVisited mem madt st st' r) : ApicHeader.length mem r ≠ 0 := by
  obtain ⟨fuel, t, hok⟩ := hends
  intro hzero
  refine hr.next_ne (walkRecords_of_ok hsum hok) ?_
  rw [nextRecord, hzero]
  exact add32_of_lt hr.lt

/-- **When the parser ends.** For every table with a valid checksum and all globals before the call,
if no record that the parser comes to reaches up to the end of the address space: it ends exactly if
it comes to no record whose length is `0`. -/
theorem parseApicTable_ends (hsum : sumBytes mem madt (AcpiHeader.length mem madt) = 0) (st : Acpi)
    (hreach : ∀ st' r, MadtVisited mem madt st st' r → r + ApicHeader.length mem r < W32) :
    (∃ fuel st', parseApicTable mem fuel madt st = .ok st') ↔
      ∀ st' r, MadtVisited mem madt st st' r → ApicHeader.length mem r ≠ 0 := by
  constructor
  · intro hends st' r hr
    exact length_ne_zero_of_ends hsum hends hr
  · intro hlen
    -- every step moves up, and the end of the table stays where it is
    have hup : ∀ st' r, MadtVisited mem madt st st' r → r < nextRecord mem r := by
      intro st' r hr
      have hne := hlen st' r hr
      rw [nextRecord, add32_of_lt (hreach st' r hr)]
      omega
    obtain ⟨fuel, t, ht⟩ := walkRecords_ends hup
    refine ⟨fuel, t, ?_⟩
    rw [parseApicTable_of_sum hsum, ht]

end Termination

/-- A table of 46 bytes near the end of the address space, with one record of an unknown type. -/
def highMemory (a : Nat) : UInt8 :=
  if 0xFFFFFF00 ≤ a then
    ([0x41, 0x50, 0x49, 0x43, 46, 0, 0, 0, 1, 202, 0, 0, 0, 0, 0, 0, 0, 0, 0, 0, 0, 0, 0, 0,
      0, 0, 0, 0, 0, 0, 0, 0, 0, 0, 0, 0, 0, 0, 0xE0, 0xFE, 1, 0, 0, 0, 9, 2]).getD
        (a - 0xFFFFFF00) 0
  else 0

/-- A table with records of all types, and one that ends less than 255 bytes before the end of the
address space. -/
theorem parseApicTable_ends_small :
    (∃ fuel st', parseApicTable (smallMemory 1 194) fuel 0x1000 Acpi.bss = .ok st') ∧
      ∃ fuel st', parseApicTable highMemory fuel 0xFFFFFF00 Acpi.bss = .ok st' := by
  constructor
  · have hwell : WellFormedMadt (smallMemory 1 194) 0x1000 smallRecords := by decide +kernel
    have hmem : ∀ st' r, MadtVisited (smallMemory 1 194) 0x1000 Acpi.bss st' r →
        r ∈ smallRecords := fun _ _ hr =>
      Visited.mem_visits hr (hwell.madtRecords (Nat.lt_succ_self _))
    refine (parseApicTable_ends hwell.checksum Acpi.bss fun st' r hr =>
      hwell.bounds (hmem st' r hr)).2 fun st' r hr => ?_
    have := hwell.header_le (hmem st' r hr)
    omega
  · have hrecords : madtRecords highMemory 2 0xFFFFFF00 = some [0xFFFFFF2C] := by decide +kernel
    have hlength : ApicHeader.length highMemory 0xFFFFFF2C = 2 := by decide +kernel
    have hmem : ∀ st' r, MadtVisited highMemory 0xFFFFFF00 Acpi.bss st' r → r = 0xFFFFFF2C :=
      fun _ _ hr => List.mem_singleton.1 (Visited.mem_visits hr hrecords)
    refine (parseApicTable_ends (by decide +kernel) Acpi.bss fun st' r hr => ?_).2
      fun st' r hr => ?_
    · rw [hmem st' r hr, hlength]
      unfold W32
      omega
    · rw [hmem st' r hr, hlength]
      decide

/-- A table whose only record has type and length `0`. -/
def spinMadt : List UInt8 :=
  [0x41, 0x50, 0x49, 0x43, 46, 0, 0, 0, 1, 213, 0, 0, 0, 0, 0, 0, 0, 0, 0, 0, 0, 0, 0, 0,
    0, 0, 0, 0, 0, 0, 0, 0, 0, 0, 0, 0, 0, 0, 0xE0, 0xFE, 1, 0, 0, 0, 0, 0]

def spinMemory (a : Nat) : UInt8 :=
  if 0x1000 ≤ a then spinMadt.getD (a - 0x1000) 0 else 0

/-- **A table for which the parser never ends.** Its checksum is valid. -/
theorem parseApicTable_spins :
    sumBytes spinMemory 0x1000 (AcpiHeader.length spinMemory 0x1000) = 0 ∧
      ∀ fuel, parseApicTable spinMemory fuel 0x1000 Acpi.bss = .error .spin := by
  have hsum : sumBytes spinMemory 0x1000 (AcpiHeader.length spinMemory 0x1000) = 0 := by
    decide +kernel
  have hstay : nextRecord spinMemory (firstRecord 0x1000) = firstRecord 0x1000 := by decide +kernel
  have hfirst : firstRecord 0x1000 < tableEnd spinMemory 0x1000 := by decide +kernel
  refine ⟨hsum, fun fuel => ?_⟩
  rw [parseApicTable_of_sum hsum]
  cases hwalk : walkRecords (nextRecord spinMemory) (Acpi.parseRecord spinMemory) fuel
      (Acpi.bss.clear spinMemory 0x1000) (firstRecord 0x1000) (tableEnd spinMemory 0x1000) with
  | none => rfl
  | some t => exact absurd hstay (Visited.next_ne (.first hfirst) hwalk)

end NowOS

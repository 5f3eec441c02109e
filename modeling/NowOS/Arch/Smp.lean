import NowOS.Acpi.Madt
import Mathlib.Data.List.Nodup
import Mathlib.Data.List.Forall2

set_option autoImplicit false

/-! # Starting the other CPUs (`arch/smp.c`, `arch/processor.c`)

`init_smp` sends INIT and STARTUP to every CPU that the MADT parser recorded, but the one it runs
on. A CPU finds its entry of `processor_tbl` by its local APIC id, which the MADT chooses: nothing
says that the ids are below the length of the table. -/

namespace NowOS

/-- The APIC ids `init_smp` sends INIT and STARTUP to, in order; `bspId` is the id of the CPU that
runs it. The ids are those in the ICR, so the CPU that starts has this local APIC id. -/
def initSmp (st : Acpi) (bspId : UInt8) : List UInt8 :=
  (List.range st.apicCpuCount).filterMap fun i =>
    if st.apicCpuIds i = bspId then none else some (st.apicCpuIds i)

/-- `processor_get_info` on the CPU with this local APIC id: the index of its entry of
`processor_tbl`. -/
def processorGetInfo (lapicId : UInt8) : Except Stop Nat :=
  if lapicId.toNat < MAX_CPU_COUNT then .ok lapicId.toNat
  else .error (.panic "Assertion is false")

/-- Every one of the CPUs finds an entry of `processor_tbl`, and no two find the same. -/
def HaveSlots (cpus : List UInt8) : Prop :=
  ∃ slots : List Nat, List.Forall₂ (fun id slot => processorGetInfo id = .ok slot) cpus slots ∧
    slots.Nodup

theorem processorGetInfo_ok_iff {id : UInt8} {slot : Nat} :
    processorGetInfo id = .ok slot ↔ id.toNat < MAX_CPU_COUNT ∧ id.toNat = slot := by
  unfold processorGetInfo
  split <;> simp [*]

/-- CPUs with different ids have slots exactly if the table has an entry for every id. -/
theorem haveSlots_iff {cpus : List UInt8} (hcpus : cpus.Nodup) :
    HaveSlots cpus ↔ ∀ id ∈ cpus, id.toNat < MAX_CPU_COUNT := by
  constructor
  · -- an id without an entry ends in the assertion, whatever the slots are
    rintro ⟨slots, hslots, -⟩ id hid
    obtain ⟨i, hi, rfl⟩ := List.getElem_of_mem hid
    have hlen := hslots.length_eq
    have := hslots.get hi (hlen ▸ hi)
    exact (processorGetInfo_ok_iff.1 this).1
  · intro h
    refine ⟨cpus.map UInt8.toNat, ?_, hcpus.map fun _ _ heq => UInt8.toNat_inj.1 heq⟩
    rw [List.forall₂_map_right_iff, List.forall₂_same]
    intro id hid
    exact processorGetInfo_ok_iff.2 ⟨h id hid, rfl⟩

section Started

variable {mem : Nat → UInt8} {fuel madt : Nat} {st st' : Acpi} {rs : List Nat}

/-- The recorded ids are the first ones of the table. -/
theorem Parsed.recorded (h : Parsed mem st rs st') :
    (List.range st'.apicCpuCount).map st'.apicCpuIds = (cpuIds mem rs).take MAX_CPU_COUNT := by
  have hlen : ((cpuIds mem rs).take MAX_CPU_COUNT).length = st'.apicCpuCount := by
    rw [List.length_take, h.count, Nat.min_comm]
  refine List.ext_getElem (by simp [hlen]) fun i hi₁ hi₂ => ?_
  have hi : i < st'.apicCpuCount := by simpa using hi₁
  have hcount := h.count
  rw [List.getElem_map, List.getElem_range, List.getElem_take, h.apicCpuIds i (by omega),
    List.getD_eq_getElem _ _ (by omega)]

/-- `init_smp` starts the first CPUs of the table but its own. -/
theorem Parsed.initSmp (h : Parsed mem st rs st') (bspId : UInt8) :
    initSmp st' bspId = ((cpuIds mem rs).take MAX_CPU_COUNT).filter (· ≠ bspId) := by
  rw [← h.recorded, List.filter_map, ← List.filterMap_eq_map, ← List.filterMap_eq_filter,
    List.filterMap_filterMap]
  refine List.filterMap_congr fun i _ => ?_
  by_cases hi : st'.apicCpuIds i = bspId
  · simp [hi, Option.guard]
  · simp [hi, Option.guard]

/-- **Which tables start only CPUs with a slot**: exactly those in which every CPU to start, that is
one of the first `MAX_CPU_COUNT` local APICs but the own one, has an APIC id below
`MAX_CPU_COUNT`. -/
theorem initSmp_haveSlots_iff (hparse : parseApicTable mem fuel madt st = .ok st')
    (hst : st.apicCpuCount = 0) (hrs : madtRecords mem fuel madt = some rs)
    (hids : (cpuIds mem rs).Nodup) (bspId : UInt8) :
    HaveSlots (initSmp st' bspId) ↔
      ∀ id ∈ (cpuIds mem rs).take MAX_CPU_COUNT, id ≠ bspId → id.toNat < MAX_CPU_COUNT := by
  obtain ⟨-, rs', hrs', rfl⟩ := parseApicTable_ok_iff.1 hparse
  obtain rfl : rs' = rs := Option.some.inj (hrs'.symm.trans hrs)
  have hparsed : Parsed mem st rs' _ := parsed_foldl hst madt rs'
  have hnodup : ((cpuIds mem rs').take MAX_CPU_COUNT).Nodup :=
    hids.sublist (List.take_sublist _ _)
  rw [hparsed.initSmp bspId, haveSlots_iff (hnodup.filter _)]
  simp [List.mem_filter]

end Started

theorem initSmp_haveSlots_small :
    ∃ st', parseApicTable (smallMemory 1 194) 5 0x1000 Acpi.bss = .ok st' ∧
      HaveSlots (initSmp st' 0) := by
  have hrs : madtRecords (smallMemory 1 194) 5 0x1000 = some smallRecords := by decide +kernel
  have hparse : parseApicTable (smallMemory 1 194) 5 0x1000 Acpi.bss = .ok _ :=
    parseApicTable_ok_iff.2 ⟨by decide +kernel, _, hrs, rfl⟩
  exact ⟨_, hparse, (initSmp_haveSlots_iff hparse rfl hrs (by decide +kernel) 0).2
    (by decide +kernel)⟩

/-- A machine whose second CPU has the APIC id 16, as the first CPU of a second package can have it.
The CPU is started, and panics when it looks for its entry. -/
theorem initSmp_sixteen :
    ∃ st', parseApicTable (smallMemory 16 179) 5 0x1000 Acpi.bss = .ok st' ∧
      (cpuIds (smallMemory 16 179) smallRecords).Nodup ∧
      initSmp st' 0 = [16] ∧
      processorGetInfo 16 = .error (.panic "Assertion is false") ∧
      ¬ HaveSlots (initSmp st' 0) := by
  have hrs : madtRecords (smallMemory 16 179) 5 0x1000 = some smallRecords := by decide +kernel
  have hparse : parseApicTable (smallMemory 16 179) 5 0x1000 Acpi.bss = .ok _ :=
    parseApicTable_ok_iff.2 ⟨by decide +kernel, _, hrs, rfl⟩
  have hstarted : initSmp (smallRecords.foldl (Acpi.parseRecord (smallMemory 16 179))
      (Acpi.bss.clear (smallMemory 16 179) 0x1000)) 0 = [16] := by decide +kernel
  refine ⟨_, hparse, by decide +kernel, hstarted, by decide, ?_⟩
  rw [hstarted, haveSlots_iff (List.nodup_singleton _)]
  decide

end NowOS

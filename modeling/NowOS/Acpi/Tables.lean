import NowOS.Acpi.Madt
import NowOS.Klib.String

set_option autoImplicit false

/-! # The walk over the ACPI tables (`kernel/acpi.c`)

`parse_acpi_tables` is given the RSDT, an array of pointers behind a header. It checks the checksum
of every table and gives those with the signature `APIC` to `parse_apic_table`. The lengths of the
tables and of the records in them are bytes of the firmware, and nothing compares them with what is
read.

The reads of both functions are lists of addresses. They are what the functions depend on
(`parseApicTable_congr`, `parseAcpiTables_congr`), and the result is when all of them are inside the
tables. -/

namespace NowOS

/-! ## `parse_acpi_tables` -/

/-- `sizeof(acpi_header)`. -/
def ACPI_HEADER_SIZE : Nat := 36

/-- `"APIC"`. -/
def apicSignature (i : Nat) : UInt8 := [0x41, 0x50, 0x49, 0x43].getD i 0

section Rsdt

variable (mem : Nat → UInt8)

/-- `strncmp(entry->signature, "APIC", 4) == 0`. -/
def IsApic (entry : Nat) : Prop := strncmp (fun i => byteAt mem (entry + i)) apicSignature 4 = 0

instance (entry : Nat) : Decidable (IsApic mem entry) := inferInstanceAs (Decidable (_ = _))

/-- `entries`. The subtraction is of unsigned numbers. -/
def rsdtEntries (rsdt : Nat) : Nat := sub32 (AcpiHeader.length mem rsdt) ACPI_HEADER_SIZE / 4

/-- `&h[i]`. -/
def tablePtr (rsdt i : Nat) : Nat := add32 (add32 rsdt ACPI_HEADER_SIZE) (4 * i)

/-- `h[i]`. -/
def tableAt (rsdt i : Nat) : Nat := wordAt mem (tablePtr rsdt i)

/-- The body of the loop, for the table at `entry`. -/
def parseTable (fuel entry : Nat) (st : Acpi) : Except Stop Acpi := do
  checkAcpiHeader mem entry
  if IsApic mem entry then parseApicTable mem fuel entry st else .ok st

/-- The `n` iterations of the loop from `i` on. -/
def tablesLoop (fuel rsdt : Nat) : Nat → Nat → Acpi → Except Stop Acpi
  | 0, _, st => .ok st
  | n + 1, i, st => do
      let st ← parseTable mem fuel (tableAt mem rsdt i) st
      tablesLoop fuel rsdt n (i + 1) st

def parseAcpiTables (fuel rsdt : Nat) (st : Acpi) : Except Stop Acpi := do
  checkAcpiHeader mem rsdt
  tablesLoop mem fuel rsdt (rsdtEntries mem rsdt) 0 st

end Rsdt

section Run

variable {mem : Nat → UInt8} {fuel rsdt entry : Nat} {st : Acpi}

theorem isApic_iff : IsApic mem entry ↔ ∀ i, i < 4 → byteAt mem (entry + i) = apicSignature i := by
  rw [IsApic, strncmp_eq_zero_iff]
  refine ⟨fun h i => ?_, fun h i hi _ => h i hi⟩
  -- No byte of the signature ends the string.
  induction i using Nat.strongRecOn with
  | _ i ih =>
      intro hi
      refine h i hi fun j hj => ?_
      rw [ih j hj (by omega)]
      have : ∀ j, j < 4 → apicSignature j ≠ 0 := by decide
      exact this j (by omega)

theorem checkAcpiHeader_ok_iff {header : Nat} :
    checkAcpiHeader mem header = .ok () ↔
      sumBytes mem header (AcpiHeader.length mem header) = 0 := by
  unfold checkAcpiHeader
  split
  next h => exact iff_of_false (fun h => by cases h) h
  next h => exact iff_of_true rfl (not_not.1 h)

theorem parseTable_of_sum (hsum : sumBytes mem entry (AcpiHeader.length mem entry) = 0) :
    parseTable mem fuel entry st =
      if IsApic mem entry then parseApicTable mem fuel entry st else .ok st := by
  rw [parseTable, checkAcpiHeader_ok_iff.2 hsum]
  rfl

end Run

/-! ## The reads -/

/-- The `n` bytes from `a` on. -/
def fieldBytes (a n : Nat) : List Nat := (List.range n).map (add32 a)

section Reads

variable (mem : Nat → UInt8)

/-- The reads of `check_acpi_header`. -/
def checkReads (header : Nat) : List Nat :=
  fieldBytes (add32 header 4) 4 ++ fieldBytes header (AcpiHeader.length mem header)

/-- The reads of `parse_processor_table`. -/
def processorReads (st : Acpi) (entry : Nat) : List Nat :=
  if st.apicCpuCount < MAX_CPU_COUNT then fieldBytes entry 2 else []

/-- The reads of `parse_io_table`. -/
def ioReads (entry : Nat) : List Nat :=
  fieldBytes (add32 entry 2) 4 ++ fieldBytes (add32 entry 6) 4

/-- The reads of one iteration of the loop, of the type and the length and by the parser of the
record. That of the interrupt overrides stores a pointer and reads nothing. -/
def recordReads (st : Acpi) (header : Nat) : List Nat :=
  fieldBytes header APIC_HEADER_SIZE ++
    if ApicHeader.type mem header = APIC_TYPE_LOCAL_APIC then
      processorReads st (add32 header APIC_HEADER_SIZE)
    else if ApicHeader.type mem header = APIC_TYPE_IO_APIC then
      ioReads (add32 header APIC_HEADER_SIZE)
    else
      []

/-- The reads of `parse_apic_table` and of the functions it calls, in the first `fuel`
iterations. -/
def madtReads (fuel madt : Nat) (st : Acpi) : List Nat :=
  checkReads mem madt ++
    if sumBytes mem madt (AcpiHeader.length mem madt) = 0 then
      fieldBytes (add32 madt 36) 4 ++
        walkTrace (nextRecord mem) (Acpi.parseRecord mem) (recordReads mem) fuel (st.clear mem madt)
          (firstRecord madt) (tableEnd mem madt)
    else
      []

/-- The reads of the `n` iterations from `i` on, if an iteration makes those that `reads` says. A
table that is not accepted ends them. -/
def tablesTrace (reads : Nat → Acpi → List Nat) (fuel rsdt : Nat) : Nat → Nat → Acpi → List Nat
  | 0, _, _ => []
  | n + 1, i, st =>
      reads i st ++
        match parseTable mem fuel (tableAt mem rsdt i) st with
        | .ok st => tablesTrace reads fuel rsdt n (i + 1) st
        | .error _ => []

/-- The reads of `parse_acpi_tables` in the array of pointers of the RSDT. -/
def pointerReads (fuel rsdt : Nat) (st : Acpi) : List Nat :=
  if sumBytes mem rsdt (AcpiHeader.length mem rsdt) = 0 then
    tablesTrace mem (fun i _ => fieldBytes (tablePtr rsdt i) 4) fuel rsdt
      (rsdtEntries mem rsdt) 0 st
  else
    []

/-- The reads of one iteration in the table at `entry`: the check, the signature, and if it is a
MADT those of `parse_apic_table`. -/
def tableReads (fuel entry : Nat) (st : Acpi) : List Nat :=
  checkReads mem entry ++
    if sumBytes mem entry (AcpiHeader.length mem entry) = 0 then
      fieldBytes entry 4 ++ if IsApic mem entry then madtReads mem fuel entry st else []
    else
      []

/-- The reads of `parse_acpi_tables`: of the header of the RSDT, and in each iteration of the
pointer and of the table that it points to. -/
def acpiReads (fuel rsdt : Nat) (st : Acpi) : List Nat :=
  checkReads mem rsdt ++
    if sumBytes mem rsdt (AcpiHeader.length mem rsdt) = 0 then
      tablesTrace mem
        (fun i st => fieldBytes (tablePtr rsdt i) 4 ++ tableReads mem fuel (tableAt mem rsdt i) st)
        fuel rsdt (rsdtEntries mem rsdt) 0 st
    else
      []

end Reads

theorem mem_fieldBytes_iff {a n b : Nat} : b ∈ fieldBytes a n ↔ ∃ k, k < n ∧ add32 a k = b := by
  simp [fieldBytes]

/-! ## The reads are what the parser depends on -/

section Congr

variable {mem mem' : Nat → UInt8} {a n : Nat} {st : Acpi}

theorem byteAt_congr (h : ∀ b ∈ fieldBytes a n, mem' b = mem b) {k : Nat} (hk : k < n) :
    byteAt mem' (a + k) = byteAt mem (a + k) :=
  h _ (mem_fieldBytes_iff.2 ⟨k, hk, rfl⟩)

theorem wordAt_add32 (mem : Nat → UInt8) (a k : Nat) :
    wordAt mem (add32 a k) = wordAt mem (a + k) := by
  have hzero : byteAt mem (add32 a k) = byteAt mem (a + k) := byteAt_mod mem (a + k) 0
  unfold wordAt
  rw [hzero]
  unfold add32
  rw [byteAt_mod, byteAt_mod, byteAt_mod]

theorem wordAt_congr (h : ∀ b ∈ fieldBytes a 4, mem' b = mem b) : wordAt mem' a = wordAt mem a := by
  have h₀ : byteAt mem' a = byteAt mem a := byteAt_congr h (by omega : 0 < 4)
  unfold wordAt
  rw [h₀, byteAt_congr h (by omega : 1 < 4), byteAt_congr h (by omega : 2 < 4),
    byteAt_congr h (by omega : 3 < 4)]

theorem wordAt_add32_congr {k : Nat} (h : ∀ b ∈ fieldBytes (add32 a k) 4, mem' b = mem b) :
    wordAt mem' (a + k) = wordAt mem (a + k) := by
  rw [← wordAt_add32, ← wordAt_add32]
  exact wordAt_congr h

theorem sumBytes_congr (h : ∀ b ∈ fieldBytes a n, mem' b = mem b) {k : Nat} (hk : k ≤ n) :
    sumBytes mem' a k = sumBytes mem a k := by
  induction k with
  | zero => rfl
  | succ k ih => rw [sumBytes, sumBytes, ih (by omega), byteAt_congr h (by omega)]

/-- The parser of a record, and the step to the next one, depend on the reads of the record. -/
theorem parseRecord_congr {r : Nat} (h : ∀ b ∈ recordReads mem st r, mem' b = mem b) :
    nextRecord mem' r = nextRecord mem r ∧ st.parseRecord mem' r = st.parseRecord mem r := by
  have hheader : ∀ b ∈ fieldBytes r APIC_HEADER_SIZE, mem' b = mem b := fun b hb =>
    h b (List.mem_append_left _ hb)
  have htype : ApicHeader.type mem' r = ApicHeader.type mem r :=
    byteAt_congr hheader (by decide : 0 < APIC_HEADER_SIZE)
  have hlength : ApicHeader.length mem' r = ApicHeader.length mem r := by
    unfold ApicHeader.length
    rw [byteAt_congr hheader (by decide : 1 < APIC_HEADER_SIZE)]
  refine ⟨by rw [nextRecord, nextRecord, hlength], ?_⟩
  have hrest := fun b hb => h b (List.mem_append_right _ hb)
  unfold Acpi.parseRecord
  rw [htype]
  by_cases hcpu : ApicHeader.type mem r = APIC_TYPE_LOCAL_APIC
  · rw [if_pos hcpu, if_pos hcpu]
    rw [if_pos hcpu] at hrest
    unfold Acpi.parseProcessorTable
    by_cases hroom : st.apicCpuCount < MAX_CPU_COUNT
    · rw [processorReads, if_pos hroom] at hrest
      have hid : ApicLocalApic.acpiProcessorId mem' (add32 r APIC_HEADER_SIZE) =
          ApicLocalApic.acpiProcessorId mem (add32 r APIC_HEADER_SIZE) :=
        byteAt_congr hrest (by omega : 0 < 2)
      have hapic : ApicLocalApic.apicId mem' (add32 r APIC_HEADER_SIZE) =
          ApicLocalApic.apicId mem (add32 r APIC_HEADER_SIZE) :=
        byteAt_congr hrest (by omega : 1 < 2)
      rw [if_pos hroom, if_pos hroom, hid, hapic]
    · rw [if_neg hroom, if_neg hroom]
  · rw [if_neg hcpu, if_neg hcpu]
    rw [if_neg hcpu] at hrest
    by_cases hio : ApicHeader.type mem r = APIC_TYPE_IO_APIC
    · rw [if_pos hio] at hrest
      rw [if_pos hio, if_pos hio]
      have haddr : ApicIoApic.ioApicAddress mem' (add32 r APIC_HEADER_SIZE) =
          ApicIoApic.ioApicAddress mem (add32 r APIC_HEADER_SIZE) :=
        wordAt_add32_congr fun b hb => hrest b (List.mem_append_left _ hb)
      have hgsi : ApicIoApic.globalSystemInterruptBase mem' (add32 r APIC_HEADER_SIZE) =
          ApicIoApic.globalSystemInterruptBase mem (add32 r APIC_HEADER_SIZE) :=
        wordAt_add32_congr fun b hb => hrest b (List.mem_append_right _ hb)
      unfold Acpi.parseIoTable
      rw [haddr, hgsi]
    · rw [if_neg hio, if_neg hio]

theorem mem_madtReads_of_visited {madt r b : Nat} {st' : Acpi}
    (hsum : sumBytes mem madt (AcpiHeader.length mem madt) = 0) (hr : MadtVisited mem madt st st' r)
    (hb : b ∈ recordReads mem st' r) : ∃ fuel, b ∈ madtReads mem fuel madt st := by
  obtain ⟨fuel, hmem⟩ := mem_walkTrace_iff.2 ⟨st', r, hr, hb⟩
  refine ⟨fuel, ?_⟩
  rw [madtReads, if_pos hsum]
  exact List.mem_append_right _ (List.mem_append_right _ hmem)

/-- The check of a header depends on its reads. -/
theorem sum_congr {header : Nat} (h : ∀ b ∈ checkReads mem header, mem' b = mem b) :
    AcpiHeader.length mem' header = AcpiHeader.length mem header ∧
      sumBytes mem' header (AcpiHeader.length mem' header) =
        sumBytes mem header (AcpiHeader.length mem header) := by
  have hlength : AcpiHeader.length mem' header = AcpiHeader.length mem header :=
    wordAt_add32_congr fun b hb => h b (List.mem_append_left _ hb)
  refine ⟨hlength, ?_⟩
  rw [hlength]
  exact sumBytes_congr (fun b hb => h b (List.mem_append_right _ hb)) (Nat.le_refl _)

theorem checkAcpiHeader_congr {header : Nat} (h : ∀ b ∈ checkReads mem header, mem' b = mem b) :
    checkAcpiHeader mem' header = checkAcpiHeader mem header := by
  unfold checkAcpiHeader
  rw [(sum_congr h).2]

/-- **The reads are all that `parse_apic_table` depends on**: on two memories that agree on what it
reads of the first one it does the same. -/
theorem parseApicTable_congr {madt fuel : Nat}
    (h : ∀ b ∈ madtReads mem fuel madt st, mem' b = mem b) :
    parseApicTable mem' fuel madt st = parseApicTable mem fuel madt st := by
  have hcheck : ∀ b ∈ checkReads mem madt, mem' b = mem b := fun b hb =>
    h b (List.mem_append_left _ hb)
  obtain ⟨hlength, hbytes⟩ := sum_congr hcheck
  by_cases hsum : sumBytes mem madt (AcpiHeader.length mem madt) = 0
  · have hrest := fun b hb => h b (List.mem_append_right _ hb)
    rw [if_pos hsum] at hrest
    have hlocal : AcpiMadt.localApicAddr mem' madt = AcpiMadt.localApicAddr mem madt :=
      wordAt_add32_congr fun b hb => hrest b (List.mem_append_left _ hb)
    have hclear : st.clear mem' madt = st.clear mem madt := by
      unfold Acpi.clear
      rw [hlocal]
    have hend : tableEnd mem' madt = tableEnd mem madt := by
      unfold tableEnd
      rw [hlength]
    have hwalk : walkRecords (nextRecord mem') (Acpi.parseRecord mem') fuel (st.clear mem madt)
          (firstRecord madt) (tableEnd mem madt) =
        walkRecords (nextRecord mem) (Acpi.parseRecord mem) fuel (st.clear mem madt)
          (firstRecord madt) (tableEnd mem madt) := by
      apply walkRecords_congr (P := fun b => mem' b = mem b)
      · exact fun s r hr => parseRecord_congr hr
      · exact fun b hb => hrest b (List.mem_append_right _ hb)
    rw [parseApicTable_of_sum hsum, parseApicTable_of_sum (hbytes.trans hsum), hclear, hend, hwalk]
  · unfold parseApicTable
    rw [checkAcpiHeader_congr hcheck, checkAcpiHeader, if_pos hsum]
    rfl

/-- One iteration depends on its reads. -/
theorem parseTable_congr {fuel entry : Nat}
    (h : ∀ b ∈ tableReads mem fuel entry st, mem' b = mem b) :
    parseTable mem' fuel entry st = parseTable mem fuel entry st := by
  have hcheck : ∀ b ∈ checkReads mem entry, mem' b = mem b := fun b hb =>
    h b (List.mem_append_left _ hb)
  by_cases hsum : sumBytes mem entry (AcpiHeader.length mem entry) = 0
  · have hrest := fun b hb => h b (List.mem_append_right _ hb)
    rw [if_pos hsum] at hrest
    have hapic : IsApic mem' entry ↔ IsApic mem entry := by
      rw [isApic_iff, isApic_iff]
      refine forall₂_congr fun i hi => ?_
      rw [byteAt_congr (fun b hb => hrest b (List.mem_append_left _ hb)) hi]
    rw [parseTable_of_sum hsum, parseTable_of_sum ((sum_congr hcheck).2.trans hsum)]
    by_cases hmadt : IsApic mem entry
    · rw [if_pos hmadt, if_pos (hapic.2 hmadt)]
      refine parseApicTable_congr fun b hb => hrest b (List.mem_append_right _ ?_)
      rwa [if_pos hmadt]
    · rw [if_neg hmadt, if_neg (mt hapic.1 hmadt)]
  · unfold parseTable
    rw [checkAcpiHeader_congr hcheck, checkAcpiHeader, if_pos hsum]
    rfl

theorem tablesLoop_congr {fuel rsdt i : Nat}
    (h : ∀ b ∈ tablesTrace mem
      (fun i st => fieldBytes (tablePtr rsdt i) 4 ++ tableReads mem fuel (tableAt mem rsdt i) st)
      fuel rsdt n i st, mem' b = mem b) :
    tablesLoop mem' fuel rsdt n i st = tablesLoop mem fuel rsdt n i st := by
  induction n generalizing i st with
  | zero => rfl
  | succ n ih =>
      have hfirst := fun b hb => h b (List.mem_append_left _ hb)
      have hrest := fun b hb => h b (List.mem_append_right _ hb)
      have hptr : tableAt mem' rsdt i = tableAt mem rsdt i :=
        wordAt_congr fun b hb => hfirst b (List.mem_append_left _ hb)
      rw [tablesLoop, tablesLoop, hptr,
        parseTable_congr fun b hb => hfirst b (List.mem_append_right _ hb)]
      cases hparse : parseTable mem fuel (tableAt mem rsdt i) st with
      | error stop => rfl
      | ok st₁ =>
          simp only [hparse] at hrest
          exact ih hrest

/-- **The reads are all that `parse_acpi_tables` depends on.** -/
theorem parseAcpiTables_congr {fuel rsdt : Nat}
    (h : ∀ b ∈ acpiReads mem fuel rsdt st, mem' b = mem b) :
    parseAcpiTables mem' fuel rsdt st = parseAcpiTables mem fuel rsdt st := by
  have hcheck : ∀ b ∈ checkReads mem rsdt, mem' b = mem b := fun b hb =>
    h b (List.mem_append_left _ hb)
  have hentries : rsdtEntries mem' rsdt = rsdtEntries mem rsdt := by
    unfold rsdtEntries
    rw [(sum_congr hcheck).1]
  unfold parseAcpiTables
  rw [checkAcpiHeader_congr hcheck, hentries]
  by_cases hsum : sumBytes mem rsdt (AcpiHeader.length mem rsdt) = 0
  · have hrest := fun b hb => h b (List.mem_append_right _ hb)
    rw [if_pos hsum] at hrest
    rw [tablesLoop_congr hrest]
  · rw [checkAcpiHeader, if_pos hsum]
    rfl

theorem tablesTrace_mono {reads reads' : Nat → Acpi → List Nat} {fuel rsdt i : Nat}
    (h : ∀ i st, reads i st ⊆ reads' i st) :
    tablesTrace mem reads fuel rsdt n i st ⊆ tablesTrace mem reads' fuel rsdt n i st := by
  induction n generalizing i st with
  | zero => exact List.Subset.refl _
  | succ n ih =>
      rw [tablesTrace, tablesTrace]
      cases parseTable mem fuel (tableAt mem rsdt i) st with
      | error stop =>
          exact List.append_subset.2 ⟨List.subset_append_of_subset_left _ (h i st), by simp⟩
      | ok st₁ =>
          exact List.append_subset.2 ⟨List.subset_append_of_subset_left _ (h i st),
            List.subset_append_of_subset_right _ ih⟩

/-- The reads of the pointers are among them. -/
theorem pointerReads_subset (fuel rsdt : Nat) :
    pointerReads mem fuel rsdt st ⊆ acpiReads mem fuel rsdt st := by
  unfold pointerReads acpiReads
  refine List.subset_append_of_subset_right _ ?_
  split
  · exact tablesTrace_mono fun i st => List.subset_append_left _ _
  · exact List.Subset.refl _

end Congr

/-! ## Reads inside the tables -/

/-- **The byte at `b` is in the table** at `t`: its distance from the start is less than the
length. -/
def InAcpiTable (mem : Nat → UInt8) (t b : Nat) : Prop := sub32 b t < AcpiHeader.length mem t

instance (mem : Nat → UInt8) (t b : Nat) : Decidable (InAcpiTable mem t b) :=
  inferInstanceAs (Decidable (_ < _))

/-- How many bytes of a record the parser needs. -/
def readLength (mem : Nat → UInt8) (st : Acpi) (r : Nat) : Nat :=
  if ApicHeader.type mem r = APIC_TYPE_LOCAL_APIC then
    if st.apicCpuCount < MAX_CPU_COUNT then 4 else 2
  else if ApicHeader.type mem r = APIC_TYPE_IO_APIC then 12
  else 2

/-- **The table has room for what is read**: for its header up to the address of the local APICs,
and from every record that the parser comes to, for what the parser needs of it. -/
def MadtFits (mem : Nat → UInt8) (madt : Nat) (st : Acpi) : Prop :=
  40 ≤ AcpiHeader.length mem madt ∧
    ∀ st' r, MadtVisited mem madt st st' r →
      sub32 r madt + readLength mem st' r ≤ AcpiHeader.length mem madt

section Inside

variable {mem : Nat → UInt8} {t a n b : Nat} {st : Acpi}

/-- For a table that does not wrap around, `InAcpiTable` is an interval of addresses. -/
theorem inAcpiTable_iff (ht : t + AcpiHeader.length mem t ≤ W32) :
    InAcpiTable mem t b ↔ t ≤ b ∧ b < t + AcpiHeader.length mem t := by
  unfold InAcpiTable sub32
  split <;> omega

theorem inAcpiTable_add32 {k : Nat} (ha : a < W32) (ht : t < W32) (hk : sub32 a t + k < W32) :
    InAcpiTable mem t (add32 a k) ↔ sub32 a t + k < AcpiHeader.length mem t := by
  rw [InAcpiTable, sub32_add32_comm k ha ht, add32_of_lt hk]

/-- A field is in the table if its end is. -/
theorem inAcpiTable_fieldBytes (ha : a < W32) (ht : t < W32)
    (h : sub32 a t + n ≤ AcpiHeader.length mem t) : ∀ b ∈ fieldBytes a n, InAcpiTable mem t b := by
  intro b hb
  obtain ⟨k, hk, rfl⟩ := mem_fieldBytes_iff.1 hb
  have hlength : AcpiHeader.length mem t < W32 := wordAt_lt mem (t + 4)
  exact (inAcpiTable_add32 ha ht (by omega)).2 (by omega)

theorem fieldBytes_append (a : Nat) {k : Nat} (hk : k + n ≤ b) :
    ∀ x ∈ fieldBytes (add32 a k) n, x ∈ fieldBytes a b := by
  intro x hx
  obtain ⟨i, hi, rfl⟩ := mem_fieldBytes_iff.1 hx
  exact mem_fieldBytes_iff.2 ⟨k + i, by omega, (add32_add32 a k i).symm⟩

/-- What is read of a record is the header, and other bytes of the part the parser needs, up to the
last one. -/
theorem recordReads_bounds (mem : Nat → UInt8) (st : Acpi) (r : Nat) :
    (∀ b ∈ recordReads mem st r, b ∈ fieldBytes r (readLength mem st r)) ∧
      add32 r (readLength mem st r - 1) ∈ recordReads mem st r := by
  have hlast : ∀ a n, 0 < n → add32 a (n - 1) ∈ fieldBytes a n := fun a n hn =>
    mem_fieldBytes_iff.2 ⟨n - 1, by omega, rfl⟩
  have hheader : ∀ n, 2 ≤ n → ∀ b ∈ fieldBytes r APIC_HEADER_SIZE, b ∈ fieldBytes r n := by
    intro n hn b hb
    obtain ⟨k, hk, rfl⟩ := mem_fieldBytes_iff.1 hb
    exact mem_fieldBytes_iff.2 ⟨k, Nat.lt_of_lt_of_le hk hn, rfl⟩
  unfold recordReads readLength
  by_cases hcpu : ApicHeader.type mem r = APIC_TYPE_LOCAL_APIC
  · rw [if_pos hcpu, if_pos hcpu]
    by_cases hroom : st.apicCpuCount < MAX_CPU_COUNT
    · rw [processorReads, if_pos hroom, if_pos hroom]
      constructor
      · intro b hb
        rcases List.mem_append.1 hb with hb | hb
        · exact hheader 4 (by omega) b hb
        · exact fieldBytes_append r (by decide : APIC_HEADER_SIZE + 2 ≤ 4) b hb
      · refine List.mem_append_right _ ?_
        have := hlast (add32 r APIC_HEADER_SIZE) 2 (by omega)
        rwa [add32_add32] at this
    · rw [processorReads, if_neg hroom, if_neg hroom, List.append_nil]
      exact ⟨fun b hb => hb, hlast r 2 (by omega)⟩
  · rw [if_neg hcpu, if_neg hcpu]
    by_cases hio : ApicHeader.type mem r = APIC_TYPE_IO_APIC
    · rw [if_pos hio, if_pos hio, ioReads, add32_add32, add32_add32]
      constructor
      · intro b hb
        rcases List.mem_append.1 hb with hb | hb
        · exact hheader 12 (by omega) b hb
        · rcases List.mem_append.1 hb with hb | hb
          · exact fieldBytes_append r (by decide : APIC_HEADER_SIZE + 2 + 4 ≤ 12) b hb
          · exact fieldBytes_append r (by decide : APIC_HEADER_SIZE + 6 + 4 ≤ 12) b hb
      · refine List.mem_append_right _ (List.mem_append_right _ ?_)
        have := hlast (add32 r (APIC_HEADER_SIZE + 6)) 4 (by omega)
        rwa [add32_add32] at this
    · rw [if_neg hio, if_neg hio, List.append_nil]
      exact ⟨fun b hb => hb, hlast r 2 (by omega)⟩

theorem readLength_bounds (mem : Nat → UInt8) (st : Acpi) (r : Nat) :
    2 ≤ readLength mem st r ∧ readLength mem st r ≤ 12 := by
  unfold readLength
  repeat' split
  all_goals omega

/-- **A table with room is not left.** -/
theorem MadtFits.inAcpiTable {madt : Nat} (h : MadtFits mem madt st) (hmadt : madt < W32)
    {fuel : Nat} :
    ∀ b ∈ madtReads mem fuel madt st, InAcpiTable mem madt b := by
  obtain ⟨hheader, hrecords⟩ := h
  have hfield : ∀ k n, k + n ≤ AcpiHeader.length mem madt → k < W32 →
      ∀ b ∈ fieldBytes (add32 madt k) n, InAcpiTable mem madt b := fun k n hkn hk =>
    inAcpiTable_fieldBytes (add32_lt _ _) hmadt (by rw [sub32_add32 hmadt hk]; exact hkn)
  intro b hb
  rcases List.mem_append.1 hb with hb | hb
  · rcases List.mem_append.1 hb with hb | hb
    · exact hfield 4 4 (by omega) (by decide) b hb
    · refine hfield 0 (AcpiHeader.length mem madt) (by omega) (by decide) b ?_
      rwa [add32_zero hmadt]
  · split at hb
    next hsum =>
      rcases List.mem_append.1 hb with hb | hb
      · exact hfield 36 4 (by omega) (by decide) b hb
      · obtain ⟨st', r, hr, hread⟩ := mem_walkTrace_iff.1 ⟨fuel, hb⟩
        exact inAcpiTable_fieldBytes (MadtVisited.lt hr) hmadt (hrecords st' r hr) b
          ((recordReads_bounds mem st' r).1 b hread)
    next => cases hb

/-- What is parsed of a table with room only depends on the bytes of the table. -/
theorem MadtFits.congr {madt : Nat} (h : MadtFits mem madt st) (hmadt : madt < W32)
    {mem' : Nat → UInt8} (hmem : ∀ b, InAcpiTable mem madt b → mem' b = mem b) (fuel : Nat) :
    parseApicTable mem' fuel madt st = parseApicTable mem fuel madt st :=
  parseApicTable_congr fun b hb => hmem b (h.inAcpiTable hmadt b hb)

/-- A table that is not left has room. Of the longest tables, the last record could wrap around to
the first bytes. -/
theorem madtFits_of_inAcpiTable {madt : Nat} (hmadt : madt < W32)
    (hlength : AcpiHeader.length mem madt + 12 ≤ W32)
    (hsum : sumBytes mem madt (AcpiHeader.length mem madt) = 0)
    (h : ∀ fuel, ∀ b ∈ madtReads mem fuel madt st, InAcpiTable mem madt b) :
    MadtFits mem madt st := by
  constructor
  · have hlast : add32 madt 39 ∈ madtReads mem 0 madt st := by
      rw [madtReads, if_pos hsum]
      refine List.mem_append_right _ (List.mem_append_left _ ?_)
      exact mem_fieldBytes_iff.2 ⟨3, by omega, add32_add32 madt 36 3⟩
    have hin := h 0 _ hlast
    rw [InAcpiTable, sub32_add32 hmadt (by decide)] at hin
    omega
  · intro st' r hr
    have hall : ∀ b ∈ recordReads mem st' r, InAcpiTable mem madt b := fun b hb =>
      have ⟨fuel, hmem⟩ := mem_madtReads_of_visited hsum hr hb
      h fuel b hmem
    have hbounds := readLength_bounds mem st' r
    have hfirst : InAcpiTable mem madt r := by
      refine hall r (List.mem_append_left _ ?_)
      exact mem_fieldBytes_iff.2 ⟨0, by decide, add32_zero hr.lt⟩
    have hoff : sub32 r madt < AcpiHeader.length mem madt := hfirst
    have hlast := hall _ (recordReads_bounds mem st' r).2
    rw [inAcpiTable_add32 hr.lt hmadt (by omega)] at hlast
    omega

/-- A well-formed table has room for what is read. -/
theorem WellFormedMadt.madtFits {madt : Nat} {rs : List Nat} (h : WellFormedMadt mem madt rs)
    (st : Acpi) : MadtFits mem madt st := by
  have hup : ∀ r ∈ rs, r < r + ApicHeader.length mem r := fun r hr => by
    have := h.header_le hr
    omega
  have hle := h.tiled.le hup
  have hfits := h.fits
  constructor
  · unfold ACPI_MADT_SIZE at hle
    omega
  · intro st' r hr
    have hmem : r ∈ rs := Visited.mem_visits hr (h.madtRecords (Nat.lt_succ_self _))
    obtain ⟨hlow, hhigh⟩ := h.tiled.mem_bounds hup hmem
    have hread : readLength mem st' r ≤ structLength (ApicHeader.type mem r) := by
      unfold readLength structLength APIC_HEADER_SIZE
      repeat' split
      all_goals omega
    have hlong := h.long r hmem
    rw [sub32_of_le (by omega)]
    omega

theorem pointers_inAcpiTable {fuel rsdt i : Nat} (hrsdt : rsdt < W32)
    (h : ACPI_HEADER_SIZE + 4 * (i + n) ≤ AcpiHeader.length mem rsdt) :
    ∀ b ∈ tablesTrace mem (fun i _ => fieldBytes (tablePtr rsdt i) 4) fuel rsdt n i st,
      InAcpiTable mem rsdt b := by
  have hlength : AcpiHeader.length mem rsdt < W32 := wordAt_lt mem (rsdt + 4)
  induction n generalizing i st with
  | zero =>
      intro b hb
      cases hb
  | succ n ih =>
      intro b hb
      rcases List.mem_append.1 hb with hb | hb
      · refine inAcpiTable_fieldBytes (add32_lt _ _) hrsdt ?_ b hb
        rw [add32_add32, sub32_add32 hrsdt (by omega)]
        omega
      · split at hb
        next => exact ih (by omega) b hb
        next => cases hb

/-- **The array of pointers is not left** iff the length of the RSDT is at least that of its
header. -/
theorem pointerReads_inAcpiTable_iff {rsdt : Nat} (hrsdt : rsdt < W32)
    (hsum : sumBytes mem rsdt (AcpiHeader.length mem rsdt) = 0) :
    (∀ fuel, ∀ b ∈ pointerReads mem fuel rsdt st, InAcpiTable mem rsdt b) ↔
      ACPI_HEADER_SIZE ≤ AcpiHeader.length mem rsdt := by
  have hlength : AcpiHeader.length mem rsdt < W32 := wordAt_lt mem (rsdt + 4)
  constructor
  · intro h
    by_contra hshort
    -- The subtraction wraps around, and the first pointer is read.
    have hpos : 0 < rsdtEntries mem rsdt := by
      unfold rsdtEntries sub32
      rw [if_neg (by omega)]
      unfold ACPI_HEADER_SIZE W32 at *
      omega
    obtain ⟨n, hn⟩ : ∃ n, rsdtEntries mem rsdt = n + 1 := ⟨_, (Nat.succ_pred_eq_of_pos hpos).symm⟩
    have hread : add32 rsdt ACPI_HEADER_SIZE ∈ pointerReads mem 0 rsdt st := by
      rw [pointerReads, if_pos hsum, hn]
      refine List.mem_append_left _ (mem_fieldBytes_iff.2 ⟨0, by omega, ?_⟩)
      rw [tablePtr, add32_add32, add32_add32]
      rfl
    have hin := h 0 _ hread
    rw [InAcpiTable, sub32_add32 hrsdt (by decide)] at hin
    omega
  · intro hlong fuel
    rw [pointerReads, if_pos hsum]
    refine pointers_inAcpiTable hrsdt ?_
    unfold rsdtEntries
    rw [sub32_of_le hlong]
    omega

end Inside

/-- **When the walk stays inside the tables.** For every RSDT with a valid checksum, every byte read
in its array of pointers is in it iff its length is at least that of its header. For every MADT with
a valid checksum, whatever the globals: if it has room for what is read, every byte read by
`parse_apic_table` and the parsers of the records is in it; and if they all are, it has. -/
theorem acpi_reads_inside (mem : Nat → UInt8) (st : Acpi) {rsdt madt : Nat} (hrsdt : rsdt < W32)
    (hmadt : madt < W32) (hrsdt_sum : sumBytes mem rsdt (AcpiHeader.length mem rsdt) = 0)
    (hmadt_sum : sumBytes mem madt (AcpiHeader.length mem madt) = 0) :
    ((∀ fuel, ∀ b ∈ pointerReads mem fuel rsdt st, InAcpiTable mem rsdt b) ↔
      ACPI_HEADER_SIZE ≤ AcpiHeader.length mem rsdt) ∧
    (MadtFits mem madt st → ∀ fuel, ∀ b ∈ madtReads mem fuel madt st, InAcpiTable mem madt b) ∧
    (AcpiHeader.length mem madt + 12 ≤ W32 →
      (∀ fuel, ∀ b ∈ madtReads mem fuel madt st, InAcpiTable mem madt b) → MadtFits mem madt st) :=
  ⟨pointerReads_inAcpiTable_iff hrsdt hrsdt_sum, fun h _ => h.inAcpiTable hmadt,
    fun hlength h => madtFits_of_inAcpiTable hmadt hlength hmadt_sum h⟩

/-- An RSDT at `0x2000` that lists a FADT, at `0x3000`, and the MADT of the machine with two
CPUs. -/
def rsdtMemory (a : Nat) : UInt8 :=
  if 0x3000 ≤ a then
    ([0x46, 0x41, 0x43, 0x50, 36, 0, 0, 0, 1, 193]).getD (a - 0x3000) 0
  else if 0x2000 ≤ a then
    ([0x52, 0x53, 0x44, 0x54, 44, 0, 0, 0, 1, 86, 0, 0, 0, 0, 0, 0, 0, 0, 0, 0, 0, 0, 0, 0,
      0, 0, 0, 0, 0, 0, 0, 0, 0, 0, 0, 0, 0, 0x30, 0, 0, 0, 0x10, 0, 0]).getD (a - 0x2000) 0
  else smallMemory 1 194 a

/-- Both pointers of the RSDT are read, and nothing outside of the array; and the MADT is not
left. -/
theorem acpi_reads_inside_small :
    (0x2024 ∈ pointerReads rsdtMemory 5 0x2000 Acpi.bss ∧
      0x2028 ∈ pointerReads rsdtMemory 5 0x2000 Acpi.bss) ∧
    (∀ fuel, ∀ b ∈ pointerReads rsdtMemory fuel 0x2000 Acpi.bss,
      InAcpiTable rsdtMemory 0x2000 b) ∧
    ∀ fuel, ∀ b ∈ madtReads rsdtMemory fuel 0x1000 Acpi.bss, InAcpiTable rsdtMemory 0x1000 b := by
  have hwell : WellFormedMadt rsdtMemory 0x1000 smallRecords := by decide +kernel
  obtain ⟨hpointers, hrecords, _⟩ := acpi_reads_inside rsdtMemory Acpi.bss
    (by decide : 0x2000 < W32) (by decide : 0x1000 < W32) (by decide +kernel) hwell.checksum
  exact ⟨by decide +kernel, hpointers.2 (by decide +kernel), hrecords (hwell.madtFits _)⟩

/-- A table whose only record is the header of a local APIC. -/
def truncatedMadt : List UInt8 :=
  [0x41, 0x50, 0x49, 0x43, 46, 0, 0, 0, 1, 205, 0, 0, 0, 0, 0, 0, 0, 0, 0, 0, 0, 0, 0, 0,
    0, 0, 0, 0, 0, 0, 0, 0, 0, 0, 0, 0, 0, 0, 0xE0, 0xFE, 1, 0, 0, 0, 0, 8]

def truncatedMemory (a : Nat) : UInt8 :=
  if 0x1000 ≤ a then truncatedMadt.getD (a - 0x1000) 0 else 0

/-- **Both tables are left.** In a memory of zeros an RSDT of length `0` has a valid checksum, and
the pointers behind its header are read; and so has the truncated table, of whose record the two
bytes behind its end are read. -/
theorem acpi_reads_outside :
    (sumBytes (fun _ => 0) 0x2000 (AcpiHeader.length (fun _ => 0) 0x2000) = 0 ∧
      ¬ ∀ fuel, ∀ b ∈ pointerReads (fun _ => 0) fuel 0x2000 Acpi.bss,
        InAcpiTable (fun _ => 0) 0x2000 b) ∧
    sumBytes truncatedMemory 0x1000 (AcpiHeader.length truncatedMemory 0x1000) = 0 ∧
      ∃ b ∈ madtReads truncatedMemory 1 0x1000 Acpi.bss,
        ¬ InAcpiTable truncatedMemory 0x1000 b := by
  have hzero : sumBytes (fun _ => 0) 0x2000 (AcpiHeader.length (fun _ => 0) 0x2000) = 0 := by
    decide +kernel
  refine ⟨⟨hzero, ?_⟩, by decide +kernel, by decide +kernel⟩
  rw [pointerReads_inAcpiTable_iff (by decide) hzero]
  decide +kernel

end NowOS

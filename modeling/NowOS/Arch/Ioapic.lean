import NowOS.Acpi.Madt
import NowOS.Lib.BitTable
import NowOS.Lib.Sweep

set_option autoImplicit false

/-! # The routing of the I/O APIC (`arch/apic.c`)

The I/O APIC has two registers for each of its pins, which say the vector of the interrupts of the
pin, their polarity and their trigger mode. Its registers are read and written through a window: the
register `REGSEL` selects the one that `WIN` stands for.

`ioapic_init` goes through the pins in order. A pin that is the source of an interrupt override
gives its interrupt to another pin; any other pin gets its own, unless an override has reached it
before. -/

namespace NowOS

/-! ## The registers -/

/-- The device. Its registers keep what is written to them. -/
structure Ioapic where
  regsel : UInt8
  regs : UInt8 → BitVec 32

def IOAPIC_REDIR : Nat := 0x10

def IRQ_BASE : UInt8 := 32

namespace Ioapic

/-- `ioapic_out`. -/
def out (io : Ioapic) (reg : UInt8) (val : BitVec 32) : Ioapic :=
  let io := { io with regsel := reg }
  { io with regs := Function.update io.regs io.regsel val }

/-- `ioapic_in`, with the device afterwards. -/
def read (io : Ioapic) (reg : UInt8) : BitVec 32 × Ioapic :=
  let io := { io with regsel := reg }
  (io.regs io.regsel, io)

/-- The number of the first register of a pin, in a `uint8_t`. -/
def redirReg (index : Nat) : UInt8 := UInt8.ofNat (2 * index + IOAPIC_REDIR)

/-- The number of the second register of a pin. -/
def redirReg2 (index : Nat) : UInt8 := UInt8.ofNat (2 * index + IOAPIC_REDIR + 1)

/-- The vector in the first register of a pin, its low byte. -/
def vectorOf (entry : BitVec 32) : UInt8 := UInt8.ofBitVec ((entry &&& 0xff#32).setWidth 8)

def readRedirectionEntry (io : Ioapic) (index : UInt8) : UInt8 × Ioapic :=
  let (entry, io) := io.read (redirReg index.toNat)
  (vectorOf entry, io)

end Ioapic

/-- A `bool` in a word. -/
def boolWord (b : Bool) : BitVec 32 := if b then 1#32 else 0#32

/-- `redirection_entry1`. -/
def redirectionEntry1 (interruptVector deliveryMode : UInt8)
    (logicalDestination activeLow triggerLevelMode masked : Bool) : BitVec 32 :=
  interruptVector.toBitVec.setWidth 32 |||
    (deliveryMode.toBitVec.setWidth 32 &&& 0b111#32) <<< 8 |||
    boolWord logicalDestination <<< 11 ||| boolWord activeLow <<< 13 |||
    boolWord triggerLevelMode <<< 15 ||| boolWord masked <<< 16

/-- `redirection_entry2`. -/
def redirectionEntry2 (destination : UInt8) : BitVec 32 := destination.toBitVec.setWidth 32 <<< 24

/-- `set_redirection_entry`. -/
def Ioapic.setRedirectionEntry (io : Ioapic) (index : Nat) (interruptVector deliveryMode : UInt8)
    (logicalDestination activeLow triggerLevelMode masked : Bool) (destination : UInt8) : Ioapic :=
  (io.out (redirReg index) (redirectionEntry1 interruptVector deliveryMode logicalDestination
    activeLow triggerLevelMode masked)).out (redirReg2 index) (redirectionEntry2 destination)

/-- `ioapic_identitymap_interrupts`. -/
def Ioapic.identitymapInterrupts (io : Ioapic) (vector : UInt8) : Ioapic :=
  io.setRedirectionEntry vector.toNat (vector + IRQ_BASE) 0 false false false true 0

/-! ## Interrupt overrides -/

/-- A `uint16_t` in memory. -/
def halfAt (mem : Nat → UInt8) (a : Nat) : Nat :=
  (byteAt mem a).toNat + 256 * (byteAt mem (a + 1)).toNat

namespace ApicIntOverride

variable (mem : Nat → UInt8)

def source (entry : Nat) : UInt8 := byteAt mem (entry + 1)

def interrupt (entry : Nat) : Nat := wordAt mem (entry + 2)

def flags (entry : Nat) : Nat := halfAt mem (entry + 6)

end ApicIntOverride

/-- `active_low` for the flags of an override. -/
def activeLowOf (flags : Nat) : Bool :=
  match flags &&& 0b11 with
  | 0 => false
  | 1 => false
  | 3 => true
  | _ => false

/-- `trigger_level_mode` for the flags of an override. The first case falls through to the
second. -/
def triggerLevelModeOf (flags : Nat) : Bool :=
  match (flags >>> 2) &&& 0b11 with
  | 0 => false
  | 1 => false
  | 3 => true
  | _ => false

/-- `ioapic_override_interrupts`. -/
def Ioapic.overrideInterrupts (io : Ioapic) (gsiBase : Nat) (src gsi : UInt8) (flags : Nat) :
    Ioapic :=
  io.setRedirectionEntry (sub32 gsi.toNat gsiBase) (src + IRQ_BASE) 0 false (activeLowOf flags)
    (triggerLevelModeOf flags) true 0

/-- The first override of the array, from cell `i` on, whose source is `vector`. `NULL` ends the
search. -/
def findOverride (mem : Nat → UInt8) (overrides : Nat → Nat) (vector : UInt8) :
    Nat → Nat → Option Nat
  | 0, _ => none
  | n + 1, i =>
      if overrides i = 0 then none
      else if ApicIntOverride.source mem (overrides i) ≠ vector then
        findOverride mem overrides vector n (i + 1)
      else some (overrides i)

section Mapping

variable (mem : Nat → UInt8) (st : Acpi)

/-- `map_redirection_interrupts`. -/
def mapRedirectionInterrupts (io : Ioapic) (vector : UInt8) : Ioapic :=
  match findOverride mem st.ioapicOverrides vector MAX_IOAPIC_OVERRIDES 0 with
  | some override =>
      io.overrideInterrupts st.gsiBase (ApicIntOverride.source mem override)
        (UInt8.ofNat (ApicIntOverride.interrupt mem override)) (ApicIntOverride.flags mem override)
  | none =>
      let (entry, io) := io.readRedirectionEntry vector
      if entry = 0 then io.identitymapInterrupts vector else io

/-- The mapping loop of `ioapic_init`. -/
def mapInterrupts (count : Nat) (io : Ioapic) : Ioapic :=
  (List.range count).foldl (fun io i => mapRedirectionInterrupts mem st io (UInt8.ofNat i)) io

end Mapping

/-- `ioapic_mask_redirection_entry`. -/
def Ioapic.maskRedirectionEntry (io : Ioapic) (index : UInt8) : Ioapic :=
  let (entry, io) := io.read (redirReg index.toNat)
  if entry &&& 1#32 <<< 16 ≠ 0#32 then io
  else io.out (redirReg index.toNat) (entry ||| 1#32 <<< 16)

/-- `ioapic_mask_all`. -/
def Ioapic.maskAll (io : Ioapic) (count : Nat) : Ioapic :=
  (List.range count).foldl (fun io i => io.maskRedirectionEntry (UInt8.ofNat i)) io

/-- `redirection_entry_count` for the version register. -/
def redirectionEntryCount (version : BitVec 32) : UInt8 :=
  UInt8.ofBitVec (((version >>> 16) &&& 0xff#32).setWidth 8) + 1

/-- `ioapic_init`, after the registers of the device are mapped. -/
def ioapicInit (mem : Nat → UInt8) (st : Acpi) (io : Ioapic) : Ioapic :=
  let (version, io) := io.read 0x01
  let count := (redirectionEntryCount version).toNat
  (mapInterrupts mem st count io).maskAll count

/-! ## Pins

With at most 120 pins no two registers of the pins have the same number. -/

namespace Ioapic

/-- The two registers of a pin. -/
def pin (io : Ioapic) (p : Nat) : BitVec 32 × BitVec 32 :=
  (io.regs (redirReg p), io.regs (redirReg2 p))

theorem toNat_index {p : Nat} (hp : p < 120) : (UInt8.ofNat p).toNat = p := by
  rw [UInt8.toNat_ofNat']
  omega

/-- The numbers of the registers have 8 bits, so that two pins share theirs if they are 128
apart. -/
theorem redirReg_eq_iff {p q : Nat} : redirReg p = redirReg q ↔ p % 128 = q % 128 := by
  unfold redirReg IOAPIC_REDIR
  rw [← UInt8.toNat_inj, UInt8.toNat_ofNat', UInt8.toNat_ofNat']
  omega

theorem redirReg2_eq_iff {p q : Nat} : redirReg2 p = redirReg2 q ↔ p % 128 = q % 128 := by
  unfold redirReg2 IOAPIC_REDIR
  rw [← UInt8.toNat_inj, UInt8.toNat_ofNat', UInt8.toNat_ofNat']
  omega

/-- The one is even and the other odd. -/
theorem redirReg_ne_redirReg2 (p q : Nat) : redirReg p ≠ redirReg2 q := by
  unfold redirReg redirReg2 IOAPIC_REDIR
  rw [Ne, ← UInt8.toNat_inj, UInt8.toNat_ofNat', UInt8.toNat_ofNat']
  omega

theorem redirReg_toNat (p : Nat) : redirReg (UInt8.ofNat p).toNat = redirReg p := by
  rw [redirReg_eq_iff, UInt8.toNat_ofNat']
  omega

/-- A write of the first register of a pin. -/
theorem regs_out_redirReg (io : Ioapic) (p q : Nat) (entry : BitVec 32) :
    (io.out (redirReg p) entry).regs (redirReg q) =
      if q % 128 = p % 128 then entry else io.regs (redirReg q) := by
  show Function.update io.regs (redirReg p) entry (redirReg q) = _
  by_cases hpq : q % 128 = p % 128
  · rw [if_pos hpq, redirReg_eq_iff.2 hpq, Function.update_self]
  · rw [if_neg hpq, Function.update_of_ne (mt redirReg_eq_iff.1 hpq)]

/-- The first register of a pin after an entry is set. -/
theorem regs_setRedirectionEntry (io : Ioapic) (p q : Nat) (vector mode : UInt8)
    (logical low level masked : Bool) (destination : UInt8) :
    (io.setRedirectionEntry p vector mode logical low level masked destination).regs (redirReg q) =
      if q % 128 = p % 128 then redirectionEntry1 vector mode logical low level masked
      else io.regs (redirReg q) := by
  rw [← regs_out_redirReg]
  exact Function.update_of_ne (redirReg_ne_redirReg2 q p) _ _

/-- The two writes of an entry change the one pin. -/
theorem pin_setRedirectionEntry (io : Ioapic) {p q : Nat} (hp : p < 120) (hq : q < 120)
    (vector mode : UInt8) (logical low level masked : Bool) (destination : UInt8) :
    (io.setRedirectionEntry p vector mode logical low level masked destination).pin q =
      Function.update io.pin p (redirectionEntry1 vector mode logical low level masked,
        redirectionEntry2 destination) q := by
  by_cases hpq : q = p
  · subst hpq
    rw [Function.update_self]
    simp only [pin, setRedirectionEntry, out, Function.update_self]
    rw [Function.update_of_ne (redirReg_ne_redirReg2 q q), Function.update_self]
  · rw [Function.update_of_ne hpq]
    have h₁ : redirReg q ≠ redirReg p := fun heq => by
      have := redirReg_eq_iff.1 heq
      omega
    have h₂ : redirReg2 q ≠ redirReg2 p := fun heq => by
      have := redirReg2_eq_iff.1 heq
      omega
    simp only [pin, setRedirectionEntry, out]
    rw [Function.update_of_ne (redirReg_ne_redirReg2 q p), Function.update_of_ne h₁,
      Function.update_of_ne h₂, Function.update_of_ne (redirReg_ne_redirReg2 p q).symm]

/-- The mask bit is set, if it was not. -/
theorem regs_maskRedirectionEntry (io : Ioapic) (p q : Nat) :
    (io.maskRedirectionEntry (UInt8.ofNat p)).regs (redirReg q) =
      if q % 128 = p % 128 then io.regs (redirReg q) ||| 1#32 <<< 16 else io.regs (redirReg q) := by
  unfold maskRedirectionEntry
  simp only [read, redirReg_toNat]
  split
  next hmasked =>
    -- nothing is written, and reading the entry only moves `regsel`
    by_cases hpq : q % 128 = p % 128
    · rw [if_pos hpq, redirReg_eq_iff.2 hpq]
      refine ((or_bit_eq_self (by omega)).2 ?_).symm
      by_contra hclear
      exact hmasked ((and_bit_eq_zero (by omega)).2 (Bool.eq_false_iff.2 hclear))
    · rw [if_neg hpq]
  next =>
    rw [regs_out_redirReg]
    by_cases hpq : q % 128 = p % 128
    · rw [if_pos hpq, if_pos hpq, redirReg_eq_iff.2 hpq]
    · rw [if_neg hpq, if_neg hpq]

end Ioapic

/-! ## The fields of an entry -/

section Fields

variable (vector mode : UInt8) (logical low level masked : Bool)

theorem getLsbD_boolWord_shiftLeft (b : Bool) (k : Nat) {i : Nat} (hi : i < 32) :
    (boolWord b <<< k).getLsbD i = (b && decide (i = k)) := by
  cases b with
  | false => simp [boolWord]
  | true => rw [boolWord, if_pos rfl, getLsbD_one_shiftLeft hi, Bool.true_and]

theorem getLsbD_seven {i : Nat} (hi : i < 32) : (0b111#32).getLsbD i = decide (i < 3) := by
  have h : ∀ i, i < 32 → (0b111#32).getLsbD i = decide (i < 3) := by decide
  exact h i hi

theorem getLsbD_redirectionEntry1 {i : Nat} (hi : i < 32) :
    (redirectionEntry1 vector mode logical low level masked).getLsbD i =
      (vector.toBitVec.getLsbD i || (decide (8 ≤ i ∧ i < 11) && mode.toBitVec.getLsbD (i - 8)) ||
        (logical && decide (i = 11)) || (low && decide (i = 13)) || (level && decide (i = 15)) ||
        (masked && decide (i = 16))) := by
  have hmode : ((mode.toBitVec.setWidth 32 &&& 0b111#32) <<< 8).getLsbD i =
      (decide (8 ≤ i ∧ i < 11) && mode.toBitVec.getLsbD (i - 8)) := by
    have hseven : (0b111#32).getLsbD (i - 8) = decide (i - 8 < 3) := getLsbD_seven (by omega)
    rw [BitVec.getLsbD_shiftLeft, BitVec.getLsbD_and, hseven, BitVec.getLsbD_setWidth]
    by_cases h8 : i < 8
    · simp [h8]
    · have h11 : i - 8 < 3 ↔ i < 11 := by omega
      simp [hi, h8, h11, Nat.not_lt.1 h8, Nat.lt_of_le_of_lt (Nat.sub_le i 8) hi, Bool.and_comm]
  unfold redirectionEntry1
  simp only [BitVec.getLsbD_or, getLsbD_boolWord_shiftLeft _ _ hi, hmode, BitVec.getLsbD_setWidth,
    decide_eq_true hi, Bool.true_and]

/-- An entry has the vector it was made with. -/
theorem vectorOf_redirectionEntry1 :
    Ioapic.vectorOf (redirectionEntry1 vector mode logical low level masked) = vector := by
  have hmask : ∀ i, i < 8 → (0xff#32).getLsbD i = true := by decide
  have hbits : (redirectionEntry1 vector mode logical low level masked &&& 0xff#32).setWidth 8 =
      vector.toBitVec := by
    apply BitVec.eq_of_getLsbD_eq
    intro i hi
    have h₁ : ¬ (8 ≤ i ∧ i < 11) := by omega
    have h₂ : i ≠ 11 := by omega
    have h₃ : i ≠ 13 := by omega
    have h₄ : i ≠ 15 := by omega
    have h₅ : i ≠ 16 := by omega
    rw [BitVec.getLsbD_setWidth, BitVec.getLsbD_and, hmask i hi,
      getLsbD_redirectionEntry1 _ _ _ _ _ _ (by omega)]
    simp [hi, h₁, h₂, h₃, h₄, h₅]
  unfold Ioapic.vectorOf
  rw [hbits]

/-- An entry has the polarity and the trigger mode it was made with. -/
theorem modes_redirectionEntry1 :
    (redirectionEntry1 vector mode logical low level masked).getLsbD 13 = low ∧
      (redirectionEntry1 vector mode logical low level masked).getLsbD 15 = level := by
  have hhigh : ∀ i, 8 ≤ i → vector.toBitVec.getLsbD i = false := fun i hi =>
    BitVec.getLsbD_of_ge _ _ hi
  rw [getLsbD_redirectionEntry1 _ _ _ _ _ _ (by omega),
    getLsbD_redirectionEntry1 _ _ _ _ _ _ (by omega), hhigh 13 (by omega), hhigh 15 (by omega)]
  simp

end Fields

/-! ## The flags of an override -/

theorem and_three (n : Nat) : n &&& 0b11 = n % 4 := Nat.and_two_pow_sub_one_eq_mod n 2

theorem activeLowOf_eq (flags : Nat) : activeLowOf flags = decide (flags % 4 = 3) := by
  unfold activeLowOf
  rw [and_three]
  have hlt : flags % 4 < 4 := Nat.mod_lt _ (by decide)
  generalize flags % 4 = n at hlt
  interval_cases n <;> rfl

theorem triggerLevelModeOf_eq (flags : Nat) :
    triggerLevelModeOf flags = decide (flags / 4 % 4 = 3) := by
  have hshift : flags >>> 2 = flags / 4 := Nat.shiftRight_eq_div_pow flags 2
  unfold triggerLevelModeOf
  rw [and_three, hshift]
  have hlt : flags / 4 % 4 < 4 := Nat.mod_lt _ (by decide)
  generalize flags / 4 % 4 = n at hlt
  interval_cases n <;> rfl

/-! ## Routing -/

/-- What a pin does with its interrupts. -/
structure Route where
  vector : Nat
  activeLow : Bool
  levelTriggered : Bool
  deriving DecidableEq, Repr

def Ioapic.route (io : Ioapic) (p : Nat) : Route :=
  ⟨(vectorOf (io.pin p).1).toNat, (io.pin p).1.getLsbD 13, (io.pin p).1.getLsbD 15⟩

/-- The route that an override asks for: `11` in the first two bits of the flags is active-low, and
`11` in the next two is level-triggered. -/
def overrideRoute (mem : Nat → UInt8) (o : Nat) : Route :=
  ⟨(ApicIntOverride.source mem o).toNat + IRQ_BASE.toNat,
    decide (ApicIntOverride.flags mem o % 4 = 3), decide (ApicIntOverride.flags mem o / 4 % 4 = 3)⟩

/-- The route of the interrupt `p` of the old controllers: active-high and edge-triggered. -/
def identityRoute (p : Nat) : Route := ⟨p + IRQ_BASE.toNat, false, false⟩

/-- The array of the overrides holds the list `os`, and `NULL` behind it. -/
structure OverrideList (st : Acpi) (os : List Nat) : Prop where
  filled : Filled st.ioapicOverrides MAX_IOAPIC_OVERRIDES os 0
  length_le : os.length ≤ MAX_IOAPIC_OVERRIDES
  ne_null : ∀ o ∈ os, o ≠ 0

/-- **The overrides of a machine** whose I/O APIC has `c` pins: no interrupt has two, and no pin. -/
structure ValidOverrides (mem : Nat → UInt8) (st : Acpi) (os : List Nat) (c : Nat) : Prop where
  filled : Filled st.ioapicOverrides MAX_IOAPIC_OVERRIDES os 0
  length_le : os.length ≤ MAX_IOAPIC_OVERRIDES
  ne_null : ∀ o ∈ os, o ≠ 0
  source_lt : ∀ o ∈ os, (ApicIntOverride.source mem o).toNat < c
  interrupt_lt : ∀ o ∈ os, ApicIntOverride.interrupt mem o < c
  source_nodup : (os.map (ApicIntOverride.source mem)).Nodup
  interrupt_nodup : (os.map (ApicIntOverride.interrupt mem)).Nodup

/-- The registers that an override asks for. -/
def overridePin (mem : Nat → UInt8) (o : Nat) : BitVec 32 × BitVec 32 :=
  (redirectionEntry1 (ApicIntOverride.source mem o + IRQ_BASE) 0 false
    (activeLowOf (ApicIntOverride.flags mem o))
    (triggerLevelModeOf (ApicIntOverride.flags mem o)) true, redirectionEntry2 0)

/-- The registers of the identity mapping. -/
def identityPin (p : Nat) : BitVec 32 × BitVec 32 :=
  (redirectionEntry1 (UInt8.ofNat p + IRQ_BASE) 0 false false false true, redirectionEntry2 0)

/-- What the overrides have for the turn of pin `i`. -/
def overrideProg (mem : Nat → UInt8) (os : List Nat) (i : Nat) :
    Option (Nat × (BitVec 32 × BitVec 32)) :=
  (os.find? fun o => ApicIntOverride.source mem o = UInt8.ofNat i).map fun o =>
    (ApicIntOverride.interrupt mem o, overridePin mem o)

/-- The pin has no vector yet. -/
def FreePin (pin : BitVec 32 × BitVec 32) : Prop := Ioapic.vectorOf pin.1 = 0

instance : DecidablePred FreePin := fun pin =>
  inferInstanceAs (Decidable (Ioapic.vectorOf pin.1 = 0))

section Routing

variable {mem : Nat → UInt8} {st : Acpi} {os : List Nat} {c : Nat} {io : Ioapic}

theorem ValidOverrides.overrideList (h : ValidOverrides mem st os c) : OverrideList st os :=
  ⟨h.filled, h.length_le, h.ne_null⟩

/-- The search finds the override in the list. -/
theorem findOverride_eq (mem : Nat → UInt8) (h : OverrideList st os) (vector : UInt8) {n i : Nat}
    (hi : i + n = MAX_IOAPIC_OVERRIDES) :
    findOverride mem st.ioapicOverrides vector n i =
      (os.drop i).find? fun o => ApicIntOverride.source mem o = vector := by
  induction n generalizing i with
  | zero =>
      have hlen := h.length_le
      rw [findOverride, List.drop_eq_nil_of_le (by omega), List.find?_nil]
  | succ n ih =>
      have hcell := h.filled i (by omega)
      rw [findOverride, hcell]
      by_cases hlt : i < os.length
      · rw [List.getD_eq_getElem _ _ hlt, if_neg (h.ne_null _ (List.getElem_mem hlt)),
          List.drop_eq_getElem_cons hlt, List.find?_cons, ih (by omega)]
        by_cases hsrc : ApicIntOverride.source mem os[i] = vector
        · rw [if_neg (not_not.2 hsrc), decide_eq_true hsrc]
        · rw [if_pos hsrc, decide_eq_false hsrc]
      · rw [List.getD_eq_default _ _ (by omega), if_pos rfl, List.drop_eq_nil_of_le (by omega),
          List.find?_nil]

/-- No two overrides have the same source. -/
theorem find_source (hnodup : (os.map (ApicIntOverride.source mem)).Nodup) {o : Nat} (ho : o ∈ os) :
    (os.find? fun o' => ApicIntOverride.source mem o' = ApicIntOverride.source mem o) = some o := by
  cases hfind : os.find? fun o' => ApicIntOverride.source mem o' = ApicIntOverride.source mem o with
  | none =>
      have hnot := List.find?_eq_none.1 hfind o ho
      exact absurd (decide_eq_true rfl) hnot
  | some o' =>
      have hdecide := List.find?_some hfind
      have heq : ApicIntOverride.source mem o' = ApicIntOverride.source mem o :=
        of_decide_eq_true hdecide
      rw [List.inj_on_of_nodup_map hnodup (List.mem_of_find?_eq_some hfind) ho heq]

theorem mapInterrupts_succ (mem : Nat → UInt8) (st : Acpi) (n : Nat) (io : Ioapic) :
    mapInterrupts mem st (n + 1) io =
      mapRedirectionInterrupts mem st (mapInterrupts mem st n io) (UInt8.ofNat n) := by
  rw [mapInterrupts, List.range_succ, List.foldl_append]
  rfl

/-- The turn of a pin does with the registers of the pins what the turn of a cell does. -/
theorem pin_mapRedirectionInterrupts (h : ValidOverrides mem st os c) (hc : c ≤ 120)
    (hbase : st.gsiBase = 0) {f : Nat → BitVec 32 × BitVec 32} (hf : ∀ p, p < 120 → io.pin p = f p)
    {i : Nat} (hi : i < 120) :
    ∀ p, p < 120 → (mapRedirectionInterrupts mem st io (UInt8.ofNat i)).pin p =
      sweepStep FreePin (overrideProg mem os) identityPin f i p := by
  intro p hp
  have hupdate : ∀ q v, Function.update io.pin q v p = Function.update f q v p := by
    intro q v
    by_cases hpq : p = q
    · subst hpq
      rw [Function.update_self, Function.update_self]
    · rw [Function.update_of_ne hpq, Function.update_of_ne hpq, hf p hp]
  have hindex : (UInt8.ofNat i).toNat = i := Ioapic.toNat_index hi
  have hfind := findOverride_eq mem h.overrideList (UInt8.ofNat i)
    (Nat.zero_add MAX_IOAPIC_OVERRIDES)
  rw [List.drop_zero] at hfind
  unfold mapRedirectionInterrupts sweepStep overrideProg
  rw [hfind]
  cases hcase : os.find? fun o => ApicIntOverride.source mem o = UInt8.ofNat i with
  | some o =>
      have hlt := h.interrupt_lt o (List.mem_of_find?_eq_some hcase)
      have hgsi : sub32 (UInt8.ofNat (ApicIntOverride.interrupt mem o)).toNat st.gsiBase =
          ApicIntOverride.interrupt mem o := by
        calc sub32 (UInt8.ofNat (ApicIntOverride.interrupt mem o)).toNat st.gsiBase
            = sub32 (ApicIntOverride.interrupt mem o) 0 := by
              rw [Ioapic.toNat_index (by omega), hbase]
          _ = ApicIntOverride.interrupt mem o := sub32_of_le (Nat.zero_le _)
      simp only [Option.map_some, Ioapic.overrideInterrupts, hgsi]
      rw [Ioapic.pin_setRedirectionEntry io (by omega) hp]
      exact hupdate _ _
  | none =>
      -- reading the register of the pin only selects it
      have hread : (io.readRedirectionEntry (UInt8.ofNat i)).1 = Ioapic.vectorOf (f i).1 := by
        rw [← hf i hi]
        unfold Ioapic.readRedirectionEntry
        rw [hindex]
        rfl
      have hpins : ∀ q, (io.readRedirectionEntry (UInt8.ofNat i)).2.pin q = io.pin q := fun _ => rfl
      simp only [Option.map_none, hread]
      by_cases hfree : Ioapic.vectorOf (f i).1 = 0
      · rw [if_pos hfree, if_pos (show FreePin (f i) from hfree), Ioapic.identitymapInterrupts,
          hindex, Ioapic.pin_setRedirectionEntry _ hi hp, funext hpins]
        exact hupdate _ _
      · rw [if_neg hfree, if_neg (show ¬ FreePin (f i) from hfree), hpins, hf p hp]

/-- The mapping loop is a sweep over the pins. -/
theorem pin_mapInterrupts (h : ValidOverrides mem st os c) (hc : c ≤ 120) (hbase : st.gsiBase = 0)
    {n : Nat} (hn : n ≤ 120) :
    ∀ p, p < 120 → (mapInterrupts mem st n io).pin p =
      sweep FreePin (overrideProg mem os) identityPin io.pin n p := by
  induction n with
  | zero => exact fun p _ => rfl
  | succ n ih =>
      intro p hp
      calc (mapInterrupts mem st (n + 1) io).pin p
          = (mapRedirectionInterrupts mem st (mapInterrupts mem st n io)
            (UInt8.ofNat n)).pin p := by
            rw [mapInterrupts_succ]
        _ = sweepStep FreePin (overrideProg mem os) identityPin
              (sweep FreePin (overrideProg mem os) identityPin io.pin n) n p :=
            pin_mapRedirectionInterrupts h hc hbase (ih (by omega)) (by omega) p hp
        _ = sweep FreePin (overrideProg mem os) identityPin io.pin (n + 1) p := by rw [sweep_succ]

/-- The override for the turn of a pin is the one whose source is its interrupt. -/
theorem overrideProg_eq_some_iff (h : ValidOverrides mem st os c) {i p : Nat} (hi : i < 120)
    {v : BitVec 32 × BitVec 32} :
    overrideProg mem os i = some (p, v) ↔
      ∃ o ∈ os, (ApicIntOverride.source mem o).toNat = i ∧ ApicIntOverride.interrupt mem o = p ∧
        overridePin mem o = v := by
  have hsource : ∀ o, ApicIntOverride.source mem o = UInt8.ofNat i ↔
      (ApicIntOverride.source mem o).toNat = i := by
    intro o
    rw [← UInt8.toNat_inj, Ioapic.toNat_index hi]
  have hfound : ∀ o, (os.find? fun o => ApicIntOverride.source mem o = UInt8.ofNat i) = some o →
      ApicIntOverride.source mem o = UInt8.ofNat i := by
    intro o hfind
    have hdecide := List.find?_some hfind
    exact of_decide_eq_true hdecide
  unfold overrideProg
  rw [Option.map_eq_some_iff]
  constructor
  · rintro ⟨o, hfind, heq⟩
    cases heq
    exact ⟨o, List.mem_of_find?_eq_some hfind, (hsource o).1 (hfound o hfind), rfl, rfl⟩
  · rintro ⟨o, ho, hsrc, rfl, rfl⟩
    refine ⟨o, ?_, rfl⟩
    rw [← (hsource o).2 hsrc]
    exact find_source h.source_nodup ho

theorem overrideProg_eq_none_iff (h : ValidOverrides mem st os c) {i : Nat} (hi : i < 120) :
    overrideProg mem os i = none ↔ ∀ o ∈ os, (ApicIntOverride.source mem o).toNat ≠ i := by
  constructor
  · intro hnone o ho hsrc
    have := (overrideProg_eq_some_iff h hi).2 ⟨o, ho, hsrc, rfl, rfl⟩
    rw [hnone] at this
    cases this
  · intro hall
    cases hprog : overrideProg mem os i with
    | none => rfl
    | some pv =>
        obtain ⟨o, ho, hsrc, _⟩ := (overrideProg_eq_some_iff h hi).1 hprog
        exact absurd hsrc (hall o ho)

/-- No turn is for a pin that no override is for. -/
theorem overrideProg_ne_some (h : ValidOverrides mem st os c) (hc : c ≤ 120) {p : Nat}
    (hno : ∀ o ∈ os, ApicIntOverride.interrupt mem o ≠ p) :
    ∀ i v, i < c → overrideProg mem os i ≠ some (p, v) := by
  intro i v hi hprog
  obtain ⟨o, ho, _, hint, _⟩ := (overrideProg_eq_some_iff h (by omega)).1 hprog
  exact hno o ho hint

theorem toNat_add_IRQ_BASE {s : UInt8} (hs : s.toNat < 120) :
    (s + IRQ_BASE).toNat = s.toNat + IRQ_BASE.toNat := by
  have : IRQ_BASE.toNat = 32 := rfl
  rw [UInt8.toNat_add]
  omega

/-- The vector of an entry is not `0`. -/
theorem not_freePin {s : UInt8} (hs : s.toNat < 120) (low level : Bool) (hi : BitVec 32) :
    ¬ FreePin (redirectionEntry1 (s + IRQ_BASE) 0 false low level true, hi) := by
  unfold FreePin
  rw [vectorOf_redirectionEntry1, ← UInt8.toNat_inj, toNat_add_IRQ_BASE hs]
  exact Nat.ne_of_gt (Nat.lt_of_lt_of_le (by decide) (Nat.le_add_left _ _))

/-- What the sweep over the pins leaves in their registers. -/
theorem swept_mapInterrupts (h : ValidOverrides mem st os c) (hc : c ≤ 120)
    (hzero : ∀ p, p < c → (io.route p).vector = 0) :
    Swept (overrideProg mem os) identityPin io.pin c
      (sweep FreePin (overrideProg mem os) identityPin io.pin c) := by
  refine swept_sweep ?_ ?_ ?_
  · intro i j p v w hij hj hi hjp
    obtain ⟨o, ho, hsrc, hint, _⟩ := (overrideProg_eq_some_iff h (by omega)).1 hi
    obtain ⟨o', ho', hsrc', hint', _⟩ := (overrideProg_eq_some_iff h (by omega)).1 hjp
    -- no two overrides are for the same pin
    have heq : o = o' :=
      List.inj_on_of_nodup_map h.interrupt_nodup ho ho' (hint.trans hint'.symm)
    rw [heq] at hsrc
    omega
  · intro i p v hi hprog
    obtain ⟨o, ho, _, _, rfl⟩ := (overrideProg_eq_some_iff h (by omega)).1 hprog
    exact not_freePin ((h.source_lt o ho).trans_le hc) _ _ _
  · intro p hp
    exact UInt8.toNat_inj.1 (hzero p hp)

end Routing

section Result

variable {mem : Nat → UInt8} {st : Acpi} {os : List Nat} {c : Nat} {io : Ioapic}

theorem route_of_pin {p : Nat} {s : UInt8} {low level : Bool} {second : BitVec 32}
    (hs : s.toNat < 120)
    (hpin : io.pin p = (redirectionEntry1 (s + IRQ_BASE) 0 false low level true, second)) :
    io.route p = ⟨s.toNat + IRQ_BASE.toNat, low, level⟩ := by
  obtain ⟨hlow, hlevel⟩ := modes_redirectionEntry1 (s + IRQ_BASE) 0 false low level true
  unfold Ioapic.route
  rw [hpin, vectorOf_redirectionEntry1, toNat_add_IRQ_BASE hs]
  simp only [hlow, hlevel]

section Pins

variable (h : ValidOverrides mem st os c) (hc : c ≤ 120) (hbase : st.gsiBase = 0)
  (hzero : ∀ p, p < c → (io.route p).vector = 0)

include h hc hbase hzero

/-- The pin that an override is for. -/
theorem pin_mapInterrupts_override {o : Nat} (ho : o ∈ os) :
    (mapInterrupts mem st c io).pin (ApicIntOverride.interrupt mem o) = overridePin mem o := by
  have hlt := h.source_lt o ho
  have hint := h.interrupt_lt o ho
  have hprog := (overrideProg_eq_some_iff h (by omega)).2 ⟨o, ho, rfl, rfl, rfl⟩
  rw [pin_mapInterrupts h hc hbase hc _ (by omega)]
  exact (swept_mapInterrupts h hc hzero).entry _ _ _ hlt hprog

variable {p : Nat} (hp : p < c) (hno : ∀ o ∈ os, ApicIntOverride.interrupt mem o ≠ p)

include hp hno

/-- A pin that no override is for, and whose interrupt is not overridden. -/
theorem pin_mapInterrupts_identity (hsrc : ∀ o ∈ os, (ApicIntOverride.source mem o).toNat ≠ p) :
    (mapInterrupts mem st c io).pin p = identityPin p := by
  have hnone := (overrideProg_eq_none_iff h (by omega)).2 hsrc
  rw [pin_mapInterrupts h hc hbase hc _ (by omega)]
  exact (swept_mapInterrupts h hc hzero).dflt p hp hnone (overrideProg_ne_some h hc hno)

/-- A pin that no override is for, and whose interrupt has gone to another pin. -/
theorem pin_mapInterrupts_moved (hsrc : ∃ o ∈ os, (ApicIntOverride.source mem o).toNat = p) :
    (mapInterrupts mem st c io).pin p = io.pin p := by
  obtain ⟨o, ho, hsource⟩ := hsrc
  rw [pin_mapInterrupts h hc hbase hc _ (by omega)]
  -- the turn of the pin was the one of its override, and no other turn was for it
  refine (swept_mapInterrupts h hc hzero).same p (fun hnone => ?_) (overrideProg_ne_some h hc hno)
  exact (overrideProg_eq_none_iff h (by omega)).1 hnone.2 o ho hsource

end Pins

theorem route_overridePin {p o : Nat} (hs : (ApicIntOverride.source mem o).toNat < 120)
    (hpin : io.pin p = overridePin mem o) : io.route p = overrideRoute mem o :=
  calc io.route p
      = ⟨(ApicIntOverride.source mem o).toNat + IRQ_BASE.toNat,
          activeLowOf (ApicIntOverride.flags mem o),
          triggerLevelModeOf (ApicIntOverride.flags mem o)⟩ := route_of_pin hs hpin
    _ = overrideRoute mem o := by rw [activeLowOf_eq, triggerLevelModeOf_eq, overrideRoute]

theorem route_identityPin {p : Nat} (hp : p < 120) (hpin : io.pin p = identityPin p) :
    io.route p = identityRoute p := by
  have hindex : (UInt8.ofNat p).toNat = p := Ioapic.toNat_index hp
  calc io.route p
      = ⟨(UInt8.ofNat p).toNat + IRQ_BASE.toNat, false, false⟩ := route_of_pin (by omega) hpin
    _ = identityRoute p := by rw [hindex, identityRoute]

/-- **Interrupt routing does not depend on the order of the overrides.** After the mapping loop a
pin has the route of the override for it; without one it has the identity route, if its interrupt is
not overridden; and otherwise its registers are as they were. -/
theorem interrupt_routing (h : ValidOverrides mem st os c) (hc : c ≤ 120) (hbase : st.gsiBase = 0)
    (hzero : ∀ p, p < c → (io.route p).vector = 0) {p : Nat} (hp : p < c) :
    (∀ o ∈ os, ApicIntOverride.interrupt mem o = p →
      (mapInterrupts mem st c io).route p = overrideRoute mem o) ∧
    ((∀ o ∈ os, ApicIntOverride.interrupt mem o ≠ p) →
      (∀ o ∈ os, (ApicIntOverride.source mem o).toNat ≠ p) →
      (mapInterrupts mem st c io).route p = identityRoute p) ∧
    ((∀ o ∈ os, ApicIntOverride.interrupt mem o ≠ p) →
      (∃ o ∈ os, (ApicIntOverride.source mem o).toNat = p) →
      (mapInterrupts mem st c io).pin p = io.pin p) := by
  refine ⟨fun o ho hint => ?_, fun hno hsrc => ?_, fun hno hsrc => ?_⟩
  · subst hint
    exact route_overridePin ((h.source_lt o ho).trans_le hc)
      (pin_mapInterrupts_override h hc hbase hzero ho)
  · exact route_identityPin (by omega) (pin_mapInterrupts_identity h hc hbase hzero hp hno hsrc)
  · exact pin_mapInterrupts_moved h hc hbase hzero hp hno hsrc

/-- The vector is the low byte. -/
theorem vectorOf_congr {entry entry' : BitVec 32}
    (h : ∀ i, i < 16 → entry'.getLsbD i = entry.getLsbD i) :
    Ioapic.vectorOf entry' = Ioapic.vectorOf entry := by
  unfold Ioapic.vectorOf
  congr 1
  apply BitVec.eq_of_getLsbD_eq
  intro i hi
  rw [BitVec.getLsbD_setWidth, BitVec.getLsbD_setWidth, BitVec.getLsbD_and, BitVec.getLsbD_and,
    h i (by omega)]

/-- The route is in the bits below the mask bit. -/
theorem route_congr {io' : Ioapic} {p : Nat}
    (h : ∀ i, i < 16 → (io'.pin p).1.getLsbD i = (io.pin p).1.getLsbD i) :
    io'.route p = io.route p := by
  unfold Ioapic.route
  rw [vectorOf_congr h, h 13 (by omega), h 15 (by omega)]

/-- The mask bit is no part of the route. -/
theorem route_maskRedirectionEntry (io : Ioapic) (i p : Nat) :
    (io.maskRedirectionEntry (UInt8.ofNat i)).route p = io.route p := by
  refine route_congr fun j hj => ?_
  show ((io.maskRedirectionEntry (UInt8.ofNat i)).regs (Ioapic.redirReg p)).getLsbD j = _
  rw [Ioapic.regs_maskRedirectionEntry]
  split
  next =>
    rw [BitVec.getLsbD_or, getLsbD_one_shiftLeft (by omega), decide_eq_false (by omega),
      Bool.or_false]
    rfl
  next => rfl

theorem route_maskAll (io : Ioapic) (n p : Nat) : (io.maskAll n).route p = io.route p := by
  induction n with
  | zero => rfl
  | succ n ih =>
      rw [Ioapic.maskAll, List.range_succ, List.foldl_append]
      exact (route_maskRedirectionEntry _ n p).trans ih

/-- After `ioapic_init` the pins have the routes of the mapping loop. -/
theorem route_ioapicInit (mem : Nat → UInt8) (st : Acpi) (io : Ioapic) (p : Nat) :
    (ioapicInit mem st io).route p =
      (mapInterrupts mem st (redirectionEntryCount (io.regs 0x01)).toNat
        { io with regsel := 0x01 }).route p :=
  route_maskAll _ _ p

/-- The registers of the pins after the mapping loop only depend on which overrides there are. -/
theorem pin_mapInterrupts_perm {st' : Acpi} {os' : List Nat} (h : ValidOverrides mem st os c)
    (h' : ValidOverrides mem st' os' c) (hperm : os.Perm os') (hc : c ≤ 120)
    (hbase : st.gsiBase = 0) (hbase' : st'.gsiBase = 0) {p : Nat} (hp : p < 120) :
    (mapInterrupts mem st c io).pin p = (mapInterrupts mem st' c io).pin p := by
  have hprog : ∀ i, i < c → overrideProg mem os i = overrideProg mem os' i := by
    intro i hi
    apply Option.ext
    rintro ⟨q, v⟩
    rw [overrideProg_eq_some_iff h (by omega), overrideProg_eq_some_iff h' (by omega)]
    simp only [hperm.mem_iff]
  calc (mapInterrupts mem st c io).pin p
      = sweep FreePin (overrideProg mem os) identityPin io.pin c p :=
        pin_mapInterrupts h hc hbase hc p hp
    _ = sweep FreePin (overrideProg mem os') identityPin io.pin c p := by
        rw [sweep_congr FreePin _ _ hprog]
    _ = (mapInterrupts mem st' c io).pin p := (pin_mapInterrupts h' hc hbase' hc p hp).symm

end Result

/-- The globals for the table of the machine with two CPUs: the interrupt `0` is for pin `2`. -/
def smallOverrides : Acpi :=
  { Acpi.bss with ioapicOverrides := fun i => if i = 0 then 0x104A else 0 }

/-- Overrides in memory, from `0x2000` on: a source, a GSI and flags each. -/
def overrideMemory (l : List (UInt8 × UInt8 × UInt8)) (a : Nat) : UInt8 :=
  if 0x2000 ≤ a then
    (l.flatMap fun o => [0, o.1, o.2.1, 0, 0, 0, o.2.2, 0]).getD (a - 0x2000) 0
  else 0

/-- The globals for `n` overrides in memory. -/
def overrideGlobals (gsiBase n : Nat) : Acpi :=
  { Acpi.bss with
    gsiBase := gsiBase
    ioapicOverrides := fun i => if i < n then 0x2000 + 8 * i else 0 }

/-- The interrupt `0` goes to pin `2` and `2` on to pin `5`; `9` goes back to pin `4`, active-low
and level-triggered, after the pin has got its own interrupt. -/
def chainOverrides : Nat → UInt8 := overrideMemory [(0, 2, 0), (2, 5, 0), (9, 4, 0x0F)]

/-- A chain and an override that goes back: the pins `0` and `9` stay as they are. -/
theorem interrupt_routing_small :
    (mapInterrupts chainOverrides (overrideGlobals 0 3) 24 ⟨0, fun _ => 0#32⟩).route 2 =
        ⟨32, false, false⟩ ∧
      (mapInterrupts chainOverrides (overrideGlobals 0 3) 24 ⟨0, fun _ => 0#32⟩).route 5 =
        ⟨34, false, false⟩ ∧
      (mapInterrupts chainOverrides (overrideGlobals 0 3) 24 ⟨0, fun _ => 0#32⟩).route 4 =
        ⟨41, true, true⟩ ∧
      (mapInterrupts chainOverrides (overrideGlobals 0 3) 24 ⟨0, fun _ => 0#32⟩).route 1 =
        ⟨33, false, false⟩ ∧
      (mapInterrupts chainOverrides (overrideGlobals 0 3) 24 ⟨0, fun _ => 0#32⟩).pin 0 =
        (0#32, 0#32) ∧
      (mapInterrupts chainOverrides (overrideGlobals 0 3) 24 ⟨0, fun _ => 0#32⟩).pin 9 =
        (0#32, 0#32) := by
  have hvalid : ValidOverrides chainOverrides (overrideGlobals 0 3)
      [0x2000, 0x2008, 0x2010] 24 := by
    constructor
    · unfold Filled
      decide +kernel
    all_goals decide +kernel
  have hzero : ∀ p, p < 24 → ((⟨0, fun _ => 0#32⟩ : Ioapic).route p).vector = 0 := by
    intro p _
    have : (Ioapic.vectorOf 0#32).toNat = 0 := by decide
    exact this
  have hrouting := fun p (hp : p < 24) => interrupt_routing hvalid (by decide) rfl hzero hp
  refine ⟨?_, ?_, ?_, ?_, ?_, ?_⟩
  · exact ((hrouting 2 (by decide)).1 0x2000 (by decide) (by decide +kernel)).trans
      (by decide +kernel)
  · exact ((hrouting 5 (by decide)).1 0x2008 (by decide) (by decide +kernel)).trans
      (by decide +kernel)
  · exact ((hrouting 4 (by decide)).1 0x2010 (by decide) (by decide +kernel)).trans
      (by decide +kernel)
  · exact ((hrouting 1 (by decide)).2.1 (by decide +kernel) (by decide +kernel)).trans
      (by decide +kernel)
  · exact (hrouting 0 (by decide)).2.2 (by decide +kernel) (by decide +kernel)
  · exact (hrouting 9 (by decide)).2.2 (by decide +kernel) (by decide +kernel)

end NowOS

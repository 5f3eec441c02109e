import Mathlib.Tactic

set_option autoImplicit false

/-! # Segment descriptors (`arch/gdt.c`)

A segment descriptor scatters its base and its limit over 64 bits. `create_descriptor` puts it
together with masks and shifts; the processor takes it apart by fields. -/

namespace NowOS

/-- `create_descriptor`. -/
def createDescriptor (base limit : BitVec 32) (flag : BitVec 16) : BitVec 64 :=
  let descriptor := (limit &&& 0x000F0000#32).setWidth 64
  let descriptor := descriptor ||| (flag.setWidth 32 <<< 8 &&& 0x00F0FF00#32).setWidth 64
  let descriptor := descriptor ||| (base >>> 16 &&& 0x000000FF#32).setWidth 64
  let descriptor := descriptor ||| (base &&& 0xFF000000#32).setWidth 64
  let descriptor := descriptor <<< 32
  let descriptor := descriptor ||| (base <<< 16).setWidth 64
  descriptor ||| (limit &&& 0x0000FFFF#32).setWidth 64

/-! ## What the processor reads -/

/-- A descriptor, as the processor takes it apart. -/
@[ext]
structure Segment where
  base : BitVec 32
  limit : BitVec 20
  access : BitVec 8
  flags : BitVec 4
  deriving DecidableEq, Repr

def decodeDescriptor (d : BitVec 64) : Segment where
  base := (d.extractLsb' 16 24).setWidth 32 ||| (d.extractLsb' 56 8).setWidth 32 <<< 24
  limit := (d.extractLsb' 0 16).setWidth 20 ||| (d.extractLsb' 48 4).setWidth 20 <<< 16
  access := d.extractLsb' 40 8
  flags := d.extractLsb' 52 4

/-- The 16 bits that `create_descriptor` takes for the access byte and the flags. The four in the
middle are not used. -/
def Segment.flag (s : Segment) : BitVec 16 := s.access.setWidth 16 ||| s.flags.setWidth 16 <<< 12

/-! ## Bits -/

theorem getLsbD_masks {i : Nat} (hi : i < 32) :
    (0x000F0000#32).getLsbD i = decide (16 ≤ i ∧ i < 20) ∧
      (0x00F0FF00#32).getLsbD i = decide (8 ≤ i ∧ i < 16 ∨ 20 ≤ i ∧ i < 24) ∧
      (0x000000FF#32).getLsbD i = decide (i < 8) ∧
      (0xFF000000#32).getLsbD i = decide (24 ≤ i) ∧
      (0x0000FFFF#32).getLsbD i = decide (i < 16) := by
  revert i
  decide

/-- The lower half of a descriptor. -/
theorem getLsbD_createDescriptor_low (base limit : BitVec 32) (flag : BitVec 16) {i : Nat}
    (hi : i < 32) :
    (createDescriptor base limit flag).getLsbD i =
      if i < 16 then limit.getLsbD i else base.getLsbD (i - 16) := by
  obtain ⟨-, -, -, -, hlow⟩ := getLsbD_masks hi
  simp only [createDescriptor, BitVec.getLsbD_or, BitVec.getLsbD_shiftLeft, BitVec.getLsbD_setWidth,
    BitVec.getLsbD_and, hlow, hi, show i < 64 by omega, decide_true, Bool.not_true, Bool.true_and,
    Bool.and_false, Bool.false_and, Bool.false_or]
  split
  next h => simp [h]
  next h => simp [h]

/-- The upper half of a descriptor. -/
theorem getLsbD_createDescriptor_high (base limit : BitVec 32) (flag : BitVec 16) {i : Nat}
    (hi : i < 32) :
    (createDescriptor base limit flag).getLsbD (32 + i) =
      if i < 8 then base.getLsbD (16 + i)
      else if i < 16 then flag.getLsbD (i - 8)
      else if i < 20 then limit.getLsbD i
      else if i < 24 then flag.getLsbD (i - 8)
      else base.getLsbD i := by
  obtain ⟨hlimit, hflag, hmid, hhigh, -⟩ := getLsbD_masks hi
  simp only [createDescriptor, BitVec.getLsbD_or, BitVec.getLsbD_shiftLeft, BitVec.getLsbD_setWidth,
    BitVec.getLsbD_and, BitVec.getLsbD_ushiftRight, Nat.add_sub_cancel_left, hlimit, hflag, hmid,
    hhigh, hi, show 32 + i < 64 by omega, show ¬ 32 + i < 32 by omega, show i < 64 by omega,
    decide_true, decide_false, Bool.not_false, Bool.true_and, Bool.and_false, Bool.false_and,
    Bool.or_false]
  by_cases h8 : i < 8
  · simp [h8, show ¬ 16 ≤ i by omega, show ¬ 8 ≤ i by omega, show ¬ 20 ≤ i by omega,
      show ¬ 24 ≤ i by omega]
  · by_cases h16 : i < 16
    · simp [h8, h16, show ¬ 16 ≤ i by omega, show 8 ≤ i by omega, show ¬ 20 ≤ i by omega,
        show ¬ 24 ≤ i by omega, show i - 8 < 32 by omega]
    · by_cases h20 : i < 20
      · simp [h8, h16, h20, show 16 ≤ i by omega, show ¬ 20 ≤ i by omega, show ¬ 24 ≤ i by omega]
      · by_cases h24 : i < 24
        · simp [h8, h16, h20, h24, show 16 ≤ i by omega, show 20 ≤ i by omega,
            show ¬ 24 ≤ i by omega, show i - 8 < 32 by omega]
        · simp [h8, h16, h20, h24, show 16 ≤ i by omega, show 24 ≤ i by omega]

/-! ## Places

Where the bits of the base, of the limit and of the flags are in a descriptor. -/

def basePlace (j : Nat) : Nat := if j < 24 then 16 + j else 32 + j

def limitPlace (j : Nat) : Nat := if j < 16 then j else 32 + j

def flagPlace (j : Nat) : Nat := 40 + j

/-- The bits of `flag` that have a place. -/
def IsFlag (j : Nat) : Prop := j < 8 ∨ 12 ≤ j ∧ j < 16

/-- Every bit of a descriptor is a place. -/
theorem exists_place {i : Nat} (hi : i < 64) :
    (∃ j, j < 32 ∧ i = basePlace j) ∨ (∃ j, j < 20 ∧ i = limitPlace j) ∨
      ∃ j, IsFlag j ∧ i = flagPlace j := by
  unfold basePlace limitPlace flagPlace IsFlag
  by_cases h16 : i < 16
  · exact Or.inr (Or.inl ⟨i, by omega, by rw [if_pos h16]⟩)
  · by_cases h40 : i < 40
    · exact Or.inl ⟨i - 16, by omega, by rw [if_pos (by omega)]; omega⟩
    · by_cases h48 : i < 48
      · exact Or.inr (Or.inr ⟨i - 40, by omega, by omega⟩)
      · by_cases h52 : i < 52
        · exact Or.inr (Or.inl ⟨i - 32, by omega, by rw [if_neg (by omega)]; omega⟩)
        · by_cases h56 : i < 56
          · exact Or.inr (Or.inr ⟨i - 40, by omega, by omega⟩)
          · exact Or.inl ⟨i - 32, by omega, by rw [if_neg (by omega)]; omega⟩

section Create

variable (base limit : BitVec 32) (flag : BitVec 16) {j : Nat}

theorem createDescriptor_basePlace (hj : j < 32) :
    (createDescriptor base limit flag).getLsbD (basePlace j) = base.getLsbD j := by
  unfold basePlace
  by_cases h24 : j < 24
  · rw [if_pos h24]
    by_cases h16 : j < 16
    · rw [getLsbD_createDescriptor_low _ _ _ (by omega), if_neg (by omega), Nat.add_sub_cancel_left]
    · -- the middle of the base is at the beginning of the upper half
      rw [show 16 + j = 32 + (j - 16) by omega, getLsbD_createDescriptor_high _ _ _ (by omega),
        if_pos (by omega), show 16 + (j - 16) = j by omega]
  · rw [if_neg h24, getLsbD_createDescriptor_high _ _ _ hj, if_neg (by omega), if_neg (by omega),
      if_neg (by omega), if_neg h24]

theorem createDescriptor_limitPlace (hj : j < 20) :
    (createDescriptor base limit flag).getLsbD (limitPlace j) = limit.getLsbD j := by
  unfold limitPlace
  by_cases h16 : j < 16
  · rw [if_pos h16, getLsbD_createDescriptor_low _ _ _ (by omega), if_pos h16]
  · rw [if_neg h16, getLsbD_createDescriptor_high _ _ _ (by omega), if_neg (by omega), if_neg h16,
      if_pos hj]

theorem createDescriptor_flagPlace (hj : IsFlag j) :
    (createDescriptor base limit flag).getLsbD (flagPlace j) = flag.getLsbD j := by
  unfold IsFlag at hj
  rw [flagPlace, show 40 + j = 32 + (8 + j) by omega,
    getLsbD_createDescriptor_high _ _ _ (by omega), if_neg (by omega), Nat.add_sub_cancel_left]
  rcases hj with hj | hj
  · rw [if_pos (by omega)]
  · rw [if_neg (by omega), if_neg (by omega), if_pos (by omega)]

end Create

section Decode

variable (d : BitVec 64) {j : Nat}

theorem decode_base (hj : j < 32) :
    (decodeDescriptor d).base.getLsbD j = d.getLsbD (basePlace j) := by
  unfold decodeDescriptor basePlace
  by_cases h24 : j < 24
  · simp [h24, hj]
  · simp [h24, hj, show j - 24 < 8 by omega, show 56 + (j - 24) = 32 + j by omega]

theorem decode_limit (hj : j < 20) :
    (decodeDescriptor d).limit.getLsbD j = d.getLsbD (limitPlace j) := by
  unfold decodeDescriptor limitPlace
  by_cases h16 : j < 16
  · simp [h16, hj]
  · simp [h16, hj, show j - 16 < 4 by omega, show 48 + (j - 16) = 32 + j by omega]

theorem decode_access (hj : j < 8) :
    (decodeDescriptor d).access.getLsbD j = d.getLsbD (flagPlace j) := by
  simp [decodeDescriptor, flagPlace, hj]

theorem decode_flags (hj : j < 4) :
    (decodeDescriptor d).flags.getLsbD j = d.getLsbD (flagPlace (12 + j)) := by
  simp [decodeDescriptor, flagPlace, hj, show 40 + (12 + j) = 52 + j by omega]

theorem decode_flag (hj : IsFlag j) :
    (decodeDescriptor d).flag.getLsbD j = d.getLsbD (flagPlace j) := by
  rw [Segment.flag, BitVec.getLsbD_or, BitVec.getLsbD_shiftLeft, BitVec.getLsbD_setWidth,
    BitVec.getLsbD_setWidth]
  rcases hj with hj | hj
  · rw [decode_access d hj]
    simp [show j < 16 by omega, show j < 12 by omega]
  · rw [decode_flags d (by omega), show 12 + (j - 12) = j by omega,
      BitVec.getLsbD_of_ge _ j (by omega)]
    simp [hj.2, show ¬ j < 12 by omega, show j - 12 < 16 by omega]

end Decode

/-! ## The round trip -/

/-- What the processor reads from a descriptor of `create_descriptor`. -/
theorem decode_createDescriptor (base limit : BitVec 32) (flag : BitVec 16) :
    decodeDescriptor (createDescriptor base limit flag) =
      ⟨base, limit.setWidth 20, flag.setWidth 8, flag.extractLsb' 12 4⟩ := by
  have hbase : (decodeDescriptor (createDescriptor base limit flag)).base = base := by
    apply BitVec.eq_of_getLsbD_eq
    intro j hj
    rw [decode_base _ hj, createDescriptor_basePlace _ _ _ hj]
  have hlimit : (decodeDescriptor (createDescriptor base limit flag)).limit =
      limit.setWidth 20 := by
    apply BitVec.eq_of_getLsbD_eq
    intro j hj
    rw [decode_limit _ hj, createDescriptor_limitPlace _ _ _ hj, BitVec.getLsbD_setWidth,
      decide_eq_true hj, Bool.true_and]
  have haccess : (decodeDescriptor (createDescriptor base limit flag)).access =
      flag.setWidth 8 := by
    apply BitVec.eq_of_getLsbD_eq
    intro j hj
    rw [decode_access _ hj, createDescriptor_flagPlace _ _ _ (Or.inl hj), BitVec.getLsbD_setWidth,
      decide_eq_true hj, Bool.true_and]
  have hflags : (decodeDescriptor (createDescriptor base limit flag)).flags =
      flag.extractLsb' 12 4 := by
    apply BitVec.eq_of_getLsbD_eq
    intro j hj
    rw [decode_flags _ hj, createDescriptor_flagPlace _ _ _ (Or.inr ⟨by omega, by omega⟩),
      BitVec.getLsbD_extractLsb', decide_eq_true hj, Bool.true_and]
  exact Segment.ext hbase hlimit haccess hflags

/-- **Descriptors go around both ways.** The processor reads back what `create_descriptor` was
given, up to the parts that have no place in the format: the upper 12 bits of the limit and four
bits of the flags. And every descriptor is the one that `create_descriptor` makes of what the
processor reads. -/
theorem descriptor_round_trip (base limit : BitVec 32) (flag : BitVec 16) (d : BitVec 64) :
    decodeDescriptor (createDescriptor base limit flag) =
        ⟨base, limit.setWidth 20, flag.setWidth 8, flag.extractLsb' 12 4⟩ ∧
      createDescriptor (decodeDescriptor d).base ((decodeDescriptor d).limit.setWidth 32)
        (decodeDescriptor d).flag = d := by
  refine ⟨decode_createDescriptor base limit flag, ?_⟩
  apply BitVec.eq_of_getLsbD_eq
  intro i hi
  rcases exists_place hi with ⟨j, hj, rfl⟩ | ⟨j, hj, rfl⟩ | ⟨j, hj, rfl⟩
  · rw [createDescriptor_basePlace _ _ _ hj, decode_base _ hj]
  · rw [createDescriptor_limitPlace _ _ _ hj, BitVec.getLsbD_setWidth, decode_limit _ hj,
      decide_eq_true (by omega), Bool.true_and]
  · rw [createDescriptor_flagPlace _ _ _ hj, decode_flag _ hj]

/-! ## The tables

All segments of the kernel are the whole address space, for the boot processor and for the others,
so that logical addresses are linear addresses. -/

def SEG_DESCTYPE (x : BitVec 16) : BitVec 16 := x <<< 0x04
def SEG_PRES (x : BitVec 16) : BitVec 16 := x <<< 0x07
def SEG_SAVL (x : BitVec 16) : BitVec 16 := x <<< 0x0C
def SEG_LONG (x : BitVec 16) : BitVec 16 := x <<< 0x0D
def SEG_SIZE (x : BitVec 16) : BitVec 16 := x <<< 0x0E
def SEG_GRAN (x : BitVec 16) : BitVec 16 := x <<< 0x0F
def SEG_PRIV (x : BitVec 16) : BitVec 16 := (x &&& 0x03#16) <<< 0x05

def SEG_DATA_RDWR : BitVec 16 := 0x02
def SEG_CODE_EXRD : BitVec 16 := 0x0A

/-- What `GDT_CODE_PL0`, `GDT_DATA_PL0`, `GDT_CODE_PL3` and `GDT_DATA_PL3` have in common. -/
def gdtFlags (priv type : BitVec 16) : BitVec 16 :=
  SEG_DESCTYPE 1 ||| SEG_PRES 1 ||| SEG_SAVL 0 ||| SEG_LONG 0 ||| SEG_SIZE 1 ||| SEG_GRAN 1 |||
    SEG_PRIV priv ||| type

def GDT_CODE_PL0 : BitVec 16 := gdtFlags 0 SEG_CODE_EXRD
def GDT_DATA_PL0 : BitVec 16 := gdtFlags 0 SEG_DATA_RDWR
def GDT_CODE_PL3 : BitVec 16 := gdtFlags 3 SEG_CODE_EXRD
def GDT_DATA_PL3 : BitVec 16 := gdtFlags 3 SEG_DATA_RDWR

/-- `gdt_table` after `create_gdt_table`. -/
def gdtTable : List (BitVec 64) :=
  [createDescriptor 0 0 0, createDescriptor 0 0xFFFFFFFF GDT_CODE_PL0,
    createDescriptor 0 0xFFFFFFFF GDT_DATA_PL0, createDescriptor 0 0xFFFFFFFF GDT_CODE_PL3,
    createDescriptor 0 0xFFFFFFFF GDT_DATA_PL3]

/-- The table with which the other processors begin (`ap_init_gdt_start` in `boot/boot.s`). -/
def apInitGdt : List (BitVec 64) := [0x0, 0x00cf9a000000FFFF, 0x00cf92000000FFFF]

/-- The offset of the last byte of a segment. -/
def Segment.lastByte (s : Segment) : Nat :=
  if s.flags.getLsbD 3 then 4096 * s.limit.toNat + 4095 else s.limit.toNat

/-- A descriptor of a segment that is the whole address space. -/
def IsFlat (d : BitVec 64) : Prop :=
  (decodeDescriptor d).base = 0#32 ∧ (decodeDescriptor d).access.getLsbD 7 = true ∧
    (decodeDescriptor d).lastByte = 0xFFFFFFFF

/-- A segment from address 0 on with the limit `0xFFFFFFFF`, which the format cuts down to 20 bits,
is flat when it is present and its limit counts pages. -/
theorem isFlat_createDescriptor {flag : BitVec 16} (hpresent : flag.getLsbD 7 = true)
    (hgran : flag.getLsbD 15 = true) : IsFlat (createDescriptor 0 0xFFFFFFFF flag) := by
  have haccess : (flag.setWidth 8).getLsbD 7 = true := by
    rw [BitVec.getLsbD_setWidth, hpresent]
    rfl
  have hflags : (flag.extractLsb' 12 4).getLsbD 3 = true := by
    rw [BitVec.getLsbD_extractLsb', hgran]
    rfl
  have hlimit : ((0xFFFFFFFF : BitVec 32).setWidth 20).toNat = 1048575 := by decide
  have hlast : 4096 * 1048575 + 4095 = 0xFFFFFFFF := by norm_num
  rw [IsFlat, decode_createDescriptor]
  refine ⟨rfl, haccess, ?_⟩
  rw [Segment.lastByte, if_pos hflags]
  dsimp only
  rw [hlimit, hlast]

theorem gdtTable_flat : ∀ d ∈ gdtTable.tail, IsFlat d := by
  -- The four descriptors are taken one by one: `decide` would go through all words of 64 bits.
  intro d hd
  simp only [gdtTable, List.tail_cons, List.mem_cons, List.not_mem_nil, or_false] at hd
  rcases hd with rfl | rfl | rfl | rfl
  all_goals exact isFlat_createDescriptor (by decide) (by decide)

/-- The two descriptors of the other processors are those of the kernel. -/
theorem apInitGdt_flat : ∀ d ∈ apInitGdt.tail, IsFlat d := by
  have hsame : apInitGdt.tail = gdtTable.tail.take 2 := by decide +kernel
  intro d hd
  rw [hsame] at hd
  exact gdtTable_flat d (List.mem_of_mem_take hd)

end NowOS

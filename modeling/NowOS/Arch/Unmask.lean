import NowOS.Arch.Ioapic

set_option autoImplicit false

/-! # Unmasking the I/O APIC (`arch/apic.c`)

`kmain` calls `ioapic_init`, which leaves all pins masked, and then `ioapic_unmask_all`. The second
goes through all pins and does not ask whether the first has given them a vector. A pin whose
interrupt an override has moved to another pin, and that no override is for, still has the vector it
had at reset: `0`, the vector of the divide error. -/

namespace NowOS

namespace Ioapic

/-- `ioapic_unmask_redirection_entry`. -/
def unmaskRedirectionEntry (io : Ioapic) (index : UInt8) : Ioapic :=
  let (entry, io) := io.read (redirReg index.toNat)
  if entry &&& 1#32 <<< 16 = 0#32 then io
  else io.out (redirReg index.toNat) (entry &&& ~~~(1#32 <<< 16))

/-- `ioapic_unmask_all`. -/
def unmaskAll (io : Ioapic) (count : Nat) : Ioapic :=
  (List.range count).foldl (fun io i => io.unmaskRedirectionEntry (UInt8.ofNat i)) io

/-- The mask bit of a pin. -/
def masked (io : Ioapic) (p : Nat) : Bool := (io.pin p).1.getLsbD 16

end Ioapic

/-- The two calls of `kmain`. The second uses the count of the first. -/
def ioapicStart (mem : Nat → UInt8) (st : Acpi) (io : Ioapic) : Ioapic :=
  (ioapicInit mem st io).unmaskAll (redirectionEntryCount (io.regs 0x01)).toNat

namespace Ioapic

theorem getLsbD_and_not_bit (entry : BitVec 32) {i k : Nat} (hi : i < 32) :
    (entry &&& ~~~(1#32 <<< k)).getLsbD i = (entry.getLsbD i && !decide (i = k)) := by
  rw [BitVec.getLsbD_and, BitVec.getLsbD_not, getLsbD_one_shiftLeft hi, decide_eq_true hi,
    Bool.true_and]

/-- The mask bit is cleared, if it was not. -/
theorem regs_unmaskRedirectionEntry (io : Ioapic) (p q : Nat) :
    (io.unmaskRedirectionEntry (UInt8.ofNat p)).regs (redirReg q) =
      if q % 128 = p % 128 then io.regs (redirReg q) &&& ~~~(1#32 <<< 16)
      else io.regs (redirReg q) := by
  unfold unmaskRedirectionEntry
  simp only [read, redirReg_toNat]
  split
  next hzero =>
    -- nothing is written, and reading the entry only moves `regsel`
    by_cases hpq : q % 128 = p % 128
    · rw [if_pos hpq, redirReg_eq_iff.2 hpq]
      have hbit := (and_bit_eq_zero (by omega)).1 hzero
      apply BitVec.eq_of_getLsbD_eq
      intro i hi
      rw [getLsbD_and_not_bit _ hi]
      by_cases h16 : i = 16
      · rw [h16, hbit, Bool.false_and]
      · rw [decide_eq_false h16, Bool.not_false, Bool.and_true]
    · rw [if_neg hpq]
  next =>
    rw [regs_out_redirReg]
    by_cases hpq : q % 128 = p % 128
    · rw [if_pos hpq, if_pos hpq, redirReg_eq_iff.2 hpq]
    · rw [if_neg hpq, if_neg hpq]

theorem unmaskAll_succ (io : Ioapic) (n : Nat) :
    io.unmaskAll (n + 1) = (io.unmaskAll n).unmaskRedirectionEntry (UInt8.ofNat n) := by
  rw [unmaskAll, List.range_succ, List.foldl_append]
  rfl

theorem masked_unmaskAll (io : Ioapic) {n p : Nat} (hp : p < n) :
    (io.unmaskAll n).masked p = false := by
  induction n with
  | zero => omega
  | succ n ih =>
      show ((io.unmaskAll (n + 1)).regs (redirReg p)).getLsbD 16 = false
      rw [unmaskAll_succ, regs_unmaskRedirectionEntry]
      by_cases hpn : p % 128 = n % 128
      · rw [if_pos hpn, getLsbD_and_not_bit _ (by decide)]
        simp
      · -- a pin that shares no register with this one was unmasked before
        rw [if_neg hpn]
        refine ih ?_
        by_contra hge
        exact hpn (by rw [show p = n by omega])

theorem route_unmaskRedirectionEntry (io : Ioapic) (i p : Nat) :
    (io.unmaskRedirectionEntry (UInt8.ofNat i)).route p = io.route p := by
  refine route_congr fun j hj => ?_
  show ((io.unmaskRedirectionEntry (UInt8.ofNat i)).regs (redirReg p)).getLsbD j = _
  rw [regs_unmaskRedirectionEntry]
  split
  next =>
    have hne : j ≠ 16 := by omega
    rw [getLsbD_and_not_bit _ (by omega), decide_eq_false hne, Bool.not_false, Bool.and_true]
    rfl
  next => rfl

theorem route_unmaskAll (io : Ioapic) (n p : Nat) : (io.unmaskAll n).route p = io.route p := by
  induction n with
  | zero => rfl
  | succ n ih =>
      rw [unmaskAll_succ, route_unmaskRedirectionEntry]
      exact ih

/-- Pins that share their registers have one vector. -/
theorem route_vector_congr (io : Ioapic) {p q : Nat} (hpq : p % 128 = q % 128) :
    (io.route p).vector = (io.route q).vector := by
  show (vectorOf (io.regs (redirReg p))).toNat = (vectorOf (io.regs (redirReg q))).toNat
  rw [redirReg_eq_iff.2 hpq]

theorem vector_setRedirectionEntry (io : Ioapic) (p q : Nat) (vector : UInt8) (low level : Bool) :
    ((io.setRedirectionEntry p vector 0 false low level true 0).route q).vector =
      if q % 128 = p % 128 then vector.toNat else (io.route q).vector := by
  show (vectorOf ((io.setRedirectionEntry p vector 0 false low level true 0).regs
    (redirReg q))).toNat = _
  rw [regs_setRedirectionEntry]
  split
  next => rw [vectorOf_redirectionEntry1]
  next => rfl

end Ioapic

/-- `ioapic_init` and `ioapic_unmask_all` leave the routes of the mapping loop, and no pin
masked. -/
theorem route_ioapicStart {mem : Nat → UInt8} {st : Acpi} {c : Nat} {io : Ioapic}
    (hcount : (redirectionEntryCount (io.regs 0x01)).toNat = c) {p : Nat} (hp : p < c) :
    (ioapicStart mem st io).masked p = false ∧
      (ioapicStart mem st io).route p =
        (mapInterrupts mem st c { io with regsel := 0x01 }).route p := by
  subst hcount
  exact ⟨Ioapic.masked_unmaskAll _ hp,
    (Ioapic.route_unmaskAll _ _ p).trans (route_ioapicInit mem st io p)⟩

/-! ## The turns of the mapping loop

The number of a vector has 8 bits as well, so that the turn of a pin from 224 on gives a vector
below `IRQ_BASE`. -/

/-- **Overrides with distinct sources and distinct GSIs** that are for pins of an I/O APIC with `c`
pins. -/
structure OverridesInRange (mem : Nat → UInt8) (st : Acpi) (os : List Nat) (c : Nat) : Prop
    extends OverrideList st os where
  source_nodup : (os.map (ApicIntOverride.source mem)).Nodup
  interrupt_nodup : (os.map (ApicIntOverride.interrupt mem)).Nodup
  gsiBase_le : ∀ o ∈ os, st.gsiBase ≤ ApicIntOverride.interrupt mem o
  interrupt_lt : ∀ o ∈ os, ApicIntOverride.interrupt mem o < st.gsiBase + c

/-- The pin that an override is for. -/
def overridePinNumber (mem : Nat → UInt8) (st : Acpi) (o : Nat) : Nat :=
  ApicIntOverride.interrupt mem o - st.gsiBase

/-- The turn of the pin `i` is for the pin `q`: an override sends the interrupt `i` there, or there
is no override for it and the pins share their registers. -/
def TurnFor (mem : Nat → UInt8) (st : Acpi) (os : List Nat) (i q : Nat) : Prop :=
  (∃ o ∈ os, (ApicIntOverride.source mem o).toNat = i ∧
    overridePinNumber mem st o % 128 = q % 128) ∨
  ((∀ o ∈ os, (ApicIntOverride.source mem o).toNat ≠ i) ∧ i % 128 = q % 128)

section Turns

variable {mem : Nat → UInt8} {st : Acpi} {os : List Nat} {c : Nat}

/-- The GSI is cut to 8 bits before `gsi_base` is subtracted, which is 32 bits wide. For the number
of the register neither matters. -/
theorem OverridesInRange.index_mod (h : OverridesInRange mem st os c) {o : Nat} (ho : o ∈ os) :
    sub32 (UInt8.ofNat (ApicIntOverride.interrupt mem o)).toNat st.gsiBase % 128 =
      overridePinNumber mem st o % 128 := by
  have hbase := h.gsiBase_le o ho
  have hlt := wordAt_lt mem (o + 2)
  rw [UInt8.toNat_ofNat']
  unfold sub32 overridePinNumber
  unfold ApicIntOverride.interrupt W32 at *
  split <;> omega

theorem OverridesInRange.turn_override (h : OverridesInRange mem st os c) {o : Nat} (ho : o ∈ os)
    (io : Ioapic) (q : Nat) :
    ((mapRedirectionInterrupts mem st io
        (UInt8.ofNat (ApicIntOverride.source mem o).toNat)).route q).vector =
      if q % 128 = overridePinNumber mem st o % 128 then
        (ApicIntOverride.source mem o + IRQ_BASE).toNat
      else (io.route q).vector := by
  have hfind := findOverride_eq mem h.toOverrideList (ApicIntOverride.source mem o)
    (Nat.zero_add MAX_IOAPIC_OVERRIDES)
  rw [List.drop_zero, find_source h.source_nodup ho] at hfind
  rw [UInt8.ofNat_toNat, mapRedirectionInterrupts, hfind]
  show ((io.overrideInterrupts _ _ _ _).route q).vector = _
  rw [Ioapic.overrideInterrupts, Ioapic.vector_setRedirectionEntry, h.index_mod ho]

theorem OverridesInRange.turn_identity (h : OverridesInRange mem st os c) {i : Nat} (hi : i < 256)
    (hno : ∀ o ∈ os, (ApicIntOverride.source mem o).toNat ≠ i) (io : Ioapic) (q : Nat) :
    ((mapRedirectionInterrupts mem st io (UInt8.ofNat i)).route q).vector =
      if (io.route i).vector = 0 ∧ q % 128 = i % 128 then (UInt8.ofNat i + IRQ_BASE).toNat
      else (io.route q).vector := by
  have hindex : (UInt8.ofNat i).toNat = i := by
    rw [UInt8.toNat_ofNat']
    omega
  have hnone : (os.find? fun o => ApicIntOverride.source mem o = UInt8.ofNat i) = none := by
    rw [List.find?_eq_none]
    intro o ho heq
    refine hno o ho ?_
    rw [of_decide_eq_true heq, hindex]
  have hfind := findOverride_eq mem h.toOverrideList (UInt8.ofNat i)
    (Nat.zero_add MAX_IOAPIC_OVERRIDES)
  rw [List.drop_zero, hnone] at hfind
  have hread : (io.readRedirectionEntry (UInt8.ofNat i)).1 = 0 ↔ (io.route i).vector = 0 := by
    rw [← UInt8.toNat_inj, Ioapic.readRedirectionEntry, hindex]
    rfl
  rw [mapRedirectionInterrupts, hfind]
  simp only [hread]
  by_cases hfree : (io.route i).vector = 0
  · simp only [hfree, if_true, true_and]
    rw [Ioapic.identitymapInterrupts, Ioapic.vector_setRedirectionEntry, hindex]
    rfl
  · rw [if_neg hfree, if_neg fun h => hfree h.1]
    rfl

/-- The vector of a turn. -/
theorem toNat_vector {i : Nat} {s : UInt8} (hs : s.toNat = i) :
    (s + IRQ_BASE).toNat = (i + 32) % 256 := by
  rw [UInt8.toNat_add, hs]
  rfl

/-- **One turn**: it gives its vector to the pins that it is for, if they have none or an override
sends it there, and changes no other vector. -/
theorem OverridesInRange.turn (h : OverridesInRange mem st os c) {i : Nat} (hi : i < 256)
    (io : Ioapic) (q : Nat) :
    (TurnFor mem st os i q ∧
      (((mapRedirectionInterrupts mem st io (UInt8.ofNat i)).route q).vector = (i + 32) % 256 ∨
        ((mapRedirectionInterrupts mem st io (UInt8.ofNat i)).route q).vector =
          (io.route q).vector ∧ (io.route q).vector ≠ 0)) ∨
    (¬ TurnFor mem st os i q ∧
      ((mapRedirectionInterrupts mem st io (UInt8.ofNat i)).route q).vector =
        (io.route q).vector) := by
  by_cases hsrc : ∃ o ∈ os, (ApicIntOverride.source mem o).toNat = i
  · obtain ⟨o, ho, rfl⟩ := hsrc
    have hturn := h.turn_override ho io q
    rw [toNat_vector rfl] at hturn
    by_cases hpin : q % 128 = overridePinNumber mem st o % 128
    · rw [if_pos hpin] at hturn
      exact Or.inl ⟨Or.inl ⟨o, ho, rfl, hpin.symm⟩, Or.inl hturn⟩
    · rw [if_neg hpin] at hturn
      refine Or.inr ⟨?_, hturn⟩
      rintro (⟨o', ho', hsource, hpin'⟩ | ⟨hno, -⟩)
      · have heq : o' = o := List.inj_on_of_nodup_map h.source_nodup ho' ho
          (UInt8.toNat_inj.1 hsource)
        rw [heq] at hpin'
        exact hpin hpin'.symm
      · exact hno o ho rfl
  · have hno : ∀ o ∈ os, (ApicIntOverride.source mem o).toNat ≠ i :=
      fun o ho heq => hsrc ⟨o, ho, heq⟩
    have hturn := h.turn_identity hi hno io q
    rw [toNat_vector (UInt8.toNat_ofNat_of_lt' hi)] at hturn
    by_cases hpin : q % 128 = i % 128
    · refine Or.inl ⟨Or.inr ⟨hno, hpin.symm⟩, ?_⟩
      by_cases hfree : (io.route i).vector = 0
      · rw [if_pos ⟨hfree, hpin⟩] at hturn
        exact Or.inl hturn
      · rw [if_neg fun hboth => hfree hboth.1] at hturn
        exact Or.inr ⟨hturn, by rwa [io.route_vector_congr hpin]⟩
    · rw [if_neg fun hboth => hpin hboth.2] at hturn
      refine Or.inr ⟨?_, hturn⟩
      rintro (⟨o, ho, hsource, -⟩ | ⟨-, hpin'⟩)
      · exact hno o ho hsource
      · exact hpin hpin'.symm

variable {io : Ioapic}

/-- Up to pin 224, a pin has the vector of an interrupt once a turn was for it, and before it has
none. -/
theorem OverridesInRange.vector_of_le (h : OverridesInRange mem st os c) {n q : Nat} (hn : n ≤ 224)
    (hzero : (io.route q).vector = 0) :
    ((∃ i, i < n ∧ TurnFor mem st os i q) ∧ 32 ≤ ((mapInterrupts mem st n io).route q).vector) ∨
    ((¬ ∃ i, i < n ∧ TurnFor mem st os i q) ∧
      ((mapInterrupts mem st n io).route q).vector = 0) := by
  induction n with
  | zero => exact Or.inr ⟨fun ⟨i, hi, _⟩ => by omega, hzero⟩
  | succ n ih =>
      rw [mapInterrupts_succ]
      obtain ⟨hfor, hvec⟩ | ⟨hnot, hvec⟩ :=
        h.turn (show n < 256 by omega) (mapInterrupts mem st n io) q
      · refine Or.inl ⟨⟨n, Nat.lt_succ_self n, hfor⟩, ?_⟩
        obtain hnew | ⟨hold, hne⟩ := hvec
        · omega
        · obtain ⟨-, hge⟩ | ⟨-, hz⟩ := ih (by omega)
          · omega
          · exact absurd hz hne
      · rw [hvec]
        obtain ⟨⟨i, hi, hfor⟩, hge⟩ | ⟨hnone, hz⟩ := ih (by omega)
        · exact Or.inl ⟨⟨i, by omega, hfor⟩, hge⟩
        · refine Or.inr ⟨?_, hz⟩
          rintro ⟨i, hi, hfor⟩
          rcases Nat.lt_or_eq_of_le (Nat.lt_succ_iff.1 hi) with hlt | rfl
          · exact hnone ⟨i, hlt, hfor⟩
          · exact hnot hfor

/-- From pin 224 on no vector gets up to `IRQ_BASE`. -/
theorem OverridesInRange.vector_stays_low (h : OverridesInRange mem st os c) {m n q : Nat}
    (hm : 224 ≤ m) (hmn : m ≤ n) (hn : n ≤ 256)
    (hlow : ((mapInterrupts mem st m io).route q).vector < 32) :
    ((mapInterrupts mem st n io).route q).vector < 32 := by
  induction n, hmn using Nat.le_induction with
  | base => exact hlow
  | succ n hle ih =>
      have hprev := ih (by omega)
      rw [mapInterrupts_succ]
      have hturn := h.turn (show n < 256 by omega) (mapInterrupts mem st n io) q
      omega

/-- Without overrides for interrupts from 224 on, the vectors of interrupts stay. -/
theorem OverridesInRange.vector_stays_high (h : OverridesInRange mem st os c)
    (hsrc : ∀ o ∈ os, (ApicIntOverride.source mem o).toNat < c →
      (ApicIntOverride.source mem o).toNat < 224) {m n q : Nat} (hm : 224 ≤ m) (hmn : m ≤ n)
    (hn : n ≤ c) (hc : c ≤ 256) (hhigh : 32 ≤ ((mapInterrupts mem st m io).route q).vector) :
    32 ≤ ((mapInterrupts mem st n io).route q).vector := by
  induction n, hmn using Nat.le_induction with
  | base => exact hhigh
  | succ n hle ih =>
      have hprev := ih (by omega)
      have hno : ∀ o ∈ os, (ApicIntOverride.source mem o).toNat ≠ n := by
        intro o ho heq
        have := hsrc o ho (by omega)
        omega
      rw [mapInterrupts_succ, h.turn_identity (by omega) hno]
      by_cases hpin : q % 128 = n % 128
      · rw [Ioapic.route_vector_congr _ hpin] at hprev
        rw [if_neg fun hboth => by omega, Ioapic.route_vector_congr _ hpin]
        exact hprev
      · rw [if_neg fun hboth => hpin hboth.2]
        exact hprev

/-- An override for an interrupt from 224 on leaves its pin without the vector of an interrupt. -/
theorem OverridesInRange.vector_low_of_source (h : OverridesInRange mem st os c) (hc : c ≤ 256)
    {o : Nat} (ho : o ∈ os) (hge : 224 ≤ (ApicIntOverride.source mem o).toNat)
    (hlt : (ApicIntOverride.source mem o).toNat < c) :
    ((mapInterrupts mem st c io).route (overridePinNumber mem st o)).vector < 32 := by
  -- the turn of the override leaves a vector that is too low, and it stays
  have hturn := h.turn_override ho (mapInterrupts mem st (ApicIntOverride.source mem o).toNat io)
    (overridePinNumber mem st o)
  rw [if_pos rfl, toNat_vector rfl, ← mapInterrupts_succ] at hturn
  refine h.vector_stays_low (m := (ApicIntOverride.source mem o).toNat + 1) (by omega) (by omega) hc
    ?_
  omega

/-- A pin with the vector of an interrupt has got it in the turn of a pin before 224. -/
theorem OverridesInRange.exists_turnFor (h : OverridesInRange mem st os c) (hc : c ≤ 256) {q : Nat}
    (hzero : (io.route q).vector = 0)
    (hhigh : 32 ≤ ((mapInterrupts mem st c io).route q).vector) :
    ∃ i, i < min c 224 ∧ TurnFor mem st os i q := by
  obtain ⟨hfor, -⟩ | ⟨-, hlow⟩ := h.vector_of_le (n := min c 224) (by omega) hzero
  · exact hfor
  · exfalso
    by_cases hle : c ≤ 224
    · rw [Nat.min_eq_left hle] at hlow
      omega
    · rw [Nat.min_eq_right (by omega)] at hlow
      have hbelow := hlow.trans_lt (show 0 < 32 by decide)
      have := h.vector_stays_low (n := c) (Nat.le_refl 224) (by omega) hc hbelow
      omega

/-- And if no interrupt from 224 on is overridden, it keeps the vector. -/
theorem OverridesInRange.vector_of_turnFor (h : OverridesInRange mem st os c) (hc : c ≤ 256)
    (hsrc : ∀ o ∈ os, (ApicIntOverride.source mem o).toNat < c →
      (ApicIntOverride.source mem o).toNat < 224) {q : Nat} (hzero : (io.route q).vector = 0)
    (hfor : ∃ i, i < min c 224 ∧ TurnFor mem st os i q) :
    32 ≤ ((mapInterrupts mem st c io).route q).vector := by
  obtain ⟨-, hhigh⟩ | ⟨hnone, -⟩ := h.vector_of_le (n := min c 224) (by omega) hzero
  · by_cases hle : c ≤ 224
    · rwa [Nat.min_eq_left hle] at hhigh
    · rw [Nat.min_eq_right (by omega)] at hhigh
      exact h.vector_stays_high hsrc (Nat.le_refl 224) (by omega) (Nat.le_refl c) hc hhigh
  · exact absurd hfor hnone

end Turns

/-! ## The vectors of the unmasked pins -/

/-- The pin `s` gets a vector although its own interrupt `s` goes to another pin: an override is for
it; or, with more than 128 pins, another pin with the same registers has its turn. -/
def Replaced (mem : Nat → UInt8) (st : Acpi) (os : List Nat) (c s : Nat) : Prop :=
  (∃ o ∈ os, (ApicIntOverride.source mem o).toNat < c ∧
    overridePinNumber mem st o % 128 = s % 128) ∨
  ∃ i, i < c ∧ i < 224 ∧ i % 128 = s % 128 ∧
    ∀ o ∈ os, (ApicIntOverride.source mem o).toNat ≠ i

section Vectors

variable {mem : Nat → UInt8} {st : Acpi} {os : List Nat} {c : Nat} {io : Ioapic}

/-- With at most 128 pins, another override has to be for the pin. -/
theorem OverridesInRange.replaced_iff (h : OverridesInRange mem st os c) (hc : c ≤ 128) {o : Nat}
    (ho : o ∈ os) (hlt : (ApicIntOverride.source mem o).toNat < c) :
    Replaced mem st os c (ApicIntOverride.source mem o).toNat ↔
      ∃ o' ∈ os, (ApicIntOverride.source mem o').toNat < c ∧
        ApicIntOverride.interrupt mem o' = st.gsiBase + (ApicIntOverride.source mem o).toNat := by
  constructor
  · rintro (⟨o', ho', hsrc, hpin⟩ | ⟨i, hi, -, hmod, hno⟩)
    · have hge := h.gsiBase_le o' ho'
      have hub := h.interrupt_lt o' ho'
      unfold overridePinNumber at hpin
      exact ⟨o', ho', hsrc, by omega⟩
    · exact absurd (by omega) (hno o ho)
  · rintro ⟨o', ho', hsrc, hint⟩
    refine Or.inl ⟨o', ho', hsrc, ?_⟩
    rw [overridePinNumber, hint, Nat.add_sub_cancel_left]

/-- If the pin of every interrupt that is overridden gets another vector, then some turn before pin
224 is for each pin. -/
theorem exists_turnFor_of_replaced
    (hcond : ∀ o ∈ os, (ApicIntOverride.source mem o).toNat < c →
      (ApicIntOverride.source mem o).toNat < 224 ∧
        Replaced mem st os c (ApicIntOverride.source mem o).toNat) {p : Nat} (hp : p < c) :
    ∃ i, i < min c 224 ∧ TurnFor mem st os i p := by
  have hmod : p % 128 % 128 = p % 128 := Nat.mod_mod _ _
  by_cases hsrc : ∃ o ∈ os, (ApicIntOverride.source mem o).toNat = p % 128
  · obtain ⟨o, ho, hsource⟩ := hsrc
    obtain ⟨-, ⟨o', ho', hlt, hpin⟩ | ⟨i, hi, hi224, hmod', hno⟩⟩ := hcond o ho (by omega)
    · obtain ⟨hlt224, -⟩ := hcond o' ho' hlt
      exact ⟨_, by omega, Or.inl ⟨o', ho', rfl, by omega⟩⟩
    · exact ⟨i, by omega, Or.inr ⟨hno, by omega⟩⟩
  · exact ⟨p % 128, by omega, Or.inr ⟨fun o ho heq => hsrc ⟨o, ho, heq⟩, hmod⟩⟩

/-- **Which pins are unmasked without a vector.** For every array of overrides with distinct sources
and distinct GSIs in range, every `gsi_base` and every number of pins: after `ioapic_init` and
`ioapic_unmask_all` all pins that are not masked have vectors of interrupts if and only if the pin
of every interrupt that is overridden gets another vector, and no interrupt from 224 on is
overridden. -/
theorem unmasked_vector_iff (h : OverridesInRange mem st os c)
    (hcount : (redirectionEntryCount (io.regs 0x01)).toNat = c)
    (hzero : ∀ p, p < c → (io.route p).vector = 0) :
    (∀ p, p < c → (ioapicStart mem st io).masked p = false →
      IRQ_BASE.toNat ≤ ((ioapicStart mem st io).route p).vector) ↔
    ∀ o ∈ os, (ApicIntOverride.source mem o).toNat < c →
      (ApicIntOverride.source mem o).toNat < 224 ∧
        Replaced mem st os c (ApicIntOverride.source mem o).toNat := by
  have hc : c ≤ 256 := by
    have := (redirectionEntryCount (io.regs 0x01)).toNat_lt
    omega
  have hirq : IRQ_BASE.toNat = 32 := rfl
  have hreg : ∀ p, p < c → (({ io with regsel := 0x01 } : Ioapic).route p).vector = 0 := hzero
  rw [hirq]
  constructor
  · intro hall o ho hlt
    -- the vectors at the end, in terms of the mapping loop
    have hvec : ∀ p, p < c →
        32 ≤ ((mapInterrupts mem st c { io with regsel := 0x01 }).route p).vector := by
      intro p hp
      rw [← (route_ioapicStart hcount hp).2]
      exact hall p hp (route_ioapicStart hcount hp).1
    have hpin : overridePinNumber mem st o < c := by
      have := h.gsiBase_le o ho
      have := h.interrupt_lt o ho
      unfold overridePinNumber
      omega
    have hsmall : (ApicIntOverride.source mem o).toNat < 224 := by
      by_contra hge
      exact absurd (hvec _ hpin) (not_le.2 (h.vector_low_of_source hc ho (not_lt.1 hge) hlt))
    refine ⟨hsmall, ?_⟩
    obtain ⟨i, hi, ⟨o', ho', hsrc, hpin'⟩ | ⟨hno, hmod⟩⟩ :=
      h.exists_turnFor hc (hreg _ hlt) (hvec _ hlt)
    · exact Or.inl ⟨o', ho', by omega, hpin'⟩
    · exact Or.inr ⟨i, by omega, by omega, hmod, hno⟩
  · intro hcond p hp _
    rw [(route_ioapicStart hcount hp).2]
    exact h.vector_of_turnFor hc (fun o ho hlt => (hcond o ho hlt).1) (hreg p hp)
      (exists_turnFor_of_replaced hcond hp)

/-- A device with 24 pins after reset: all pins masked, with vector `0`. -/
def resetIoapic : Ioapic := ⟨0, fun reg => if reg = 0x01 then 0x00170020#32 else 0x00010000#32⟩

theorem vector_resetIoapic : ∀ p, p < 24 → (resetIoapic.route p).vector = 0 := by
  decide +kernel

/-- The interrupts of the pins `0` and `2` are swapped, on an I/O APIC whose first GSI is 24. -/
def swapOverrides : Nat → UInt8 := overrideMemory [(0, 26, 0), (2, 24, 0)]

theorem unmasked_vector_iff_reset :
    OverridesInRange swapOverrides (overrideGlobals 24 2) [0x2000, 0x2008] 24 ∧
      ∀ p, p < 24 →
        (ioapicStart swapOverrides (overrideGlobals 24 2) resetIoapic).masked p = false →
        IRQ_BASE.toNat ≤
          ((ioapicStart swapOverrides (overrideGlobals 24 2) resetIoapic).route p).vector := by
  have hvalid : OverridesInRange swapOverrides (overrideGlobals 24 2) [0x2000, 0x2008] 24 := by
    refine ⟨⟨?_, ?_, ?_⟩, ?_, ?_, ?_, ?_⟩
    · unfold Filled
      decide +kernel
    all_goals decide +kernel
  have hclosed : ∀ o ∈ [0x2000, 0x2008],
      (ApicIntOverride.source swapOverrides o).toNat < 224 ∧
        ∃ o' ∈ [0x2000, 0x2008], (ApicIntOverride.source swapOverrides o').toNat < 24 ∧
          ApicIntOverride.interrupt swapOverrides o' =
            24 + (ApicIntOverride.source swapOverrides o).toNat := by decide +kernel
  refine ⟨hvalid, (unmasked_vector_iff hvalid (by decide) vector_resetIoapic).2
    fun o ho hlt => ⟨(hclosed o ho).1, ?_⟩⟩
  exact (hvalid.replaced_iff (by decide) ho hlt).2 (hclosed o ho).2

/-- The interrupt `0` is for pin `2`, as on most machines, and pin `0` is unmasked with vector
`0`. -/
theorem unmasked_vector_zero :
    OverridesInRange (smallMemory 1 194) smallOverrides [0x104A] 24 ∧
      (∀ p, p < 24 → resetIoapic.masked p = true ∧ (resetIoapic.route p).vector = 0) ∧
      (ioapicStart (smallMemory 1 194) smallOverrides resetIoapic).masked 0 = false ∧
      ((ioapicStart (smallMemory 1 194) smallOverrides resetIoapic).route 0).vector = 0 := by
  refine ⟨?_, by decide +kernel, by decide +kernel, by decide +kernel⟩
  refine ⟨⟨?_, ?_, ?_⟩, ?_, ?_, ?_, ?_⟩
  · unfold Filled
    decide +kernel
  all_goals decide +kernel

end Vectors

end NowOS

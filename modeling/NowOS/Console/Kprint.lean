import NowOS.Console.Tty
import NowOS.Lib.Numeral
import Mathlib.Data.List.GetD
import Mathlib.Tactic

set_option autoImplicit false

/-! # `kprint` (`kernel/kprint.c`)

`kprint` puts out a header with the number of the message and then the format, in which `%c`, `%d`,
`%s` and `%x` stand for the arguments. An integer is written by `convert` into a static buffer, from
its end backwards, and is put out from there.

`convert` is right for every number (`convert_spec`), but for a negative argument of `%d` it is
given `-1` instead of the absolute value: it prints `-4294967295`, whatever the argument is.
`integer_conversion_iff` has both conversions of integers, and `kprint_emits` the text of a whole
call. -/

namespace NowOS

/-! ## The functions of the source -/

/-- The number of bytes of `buff`. -/
def BUFF_SIZE : Nat := 50

/-- `"0123456789ABCDEF"` -/
def representation : List UInt8 :=
  [48, 49, 50, 51, 52, 53, 54, 55, 56, 57, 65, 66, 67, 68, 69, 70]

/-- The loop of `convert` with `ptr` at the index `ptr` of `buff`; `none` if it leaves the
buffer. -/
def convertLoop (base : Nat) : (ptr num : Nat) → (Nat → UInt8) → Option (Nat × (Nat → UInt8))
  | 0, _, _ => none
  | ptr + 1, num, buff =>
      if num / base ≠ 0 then
        convertLoop base ptr (num / base)
          (Function.update buff ptr (representation.getD (num % base) 0))
      else some (ptr, Function.update buff ptr (representation.getD (num % base) 0))

/-- `convert`: where the numeral begins in the buffer, and the buffer. -/
def convert (num base : Nat) (buff : Nat → UInt8) : Option (Nat × (Nat → UInt8)) :=
  convertLoop base (BUFF_SIZE - 1) num (Function.update buff (BUFF_SIZE - 1) 0)

inductive LogLevel where
  | info | warn | error
  deriving DecidableEq, Repr

/-- The static variables, and `charp` and the arguments that are left. -/
structure Kprint where
  charp : Nat
  arg : List (BitVec 32)
  logCount : BitVec 32
  buff : Nat → UInt8
  term : Term

/-- `'%'` -/
def percentChar : UInt8 := 37

/-- `'-'` -/
def minusChar : UInt8 := 45

/-- A string literal. -/
def literal (text : List UInt8) (i : Nat) : UInt8 := text.getD i 0

/-- The colour that a level is written in. -/
def levelColor : LogLevel → VgaColor
  | .info => .white
  | .warn => .lightRed
  | .error => .red

section Source

variable (mem : Nat → UInt8) (fuel : Nat)

/-- `term_writestring(data)` -/
def writeData (data : Nat → UInt8) (k : Kprint) : Option Kprint :=
  (termWritestring data fuel 0 k.term).map fun term => { k with term := term }

/-- `term_writestring(convert(num, base))` -/
def writeConverted (num base : Nat) (k : Kprint) : Option Kprint :=
  (convert num base k.buff).bind fun (ptr, buff) =>
    writeData fuel (fun i => buff (ptr + i)) { k with buff := buff }

/-- `va_arg`; `none` if there is no argument left. -/
def vaArg (k : Kprint) : Option (BitVec 32 × Kprint) :=
  match k.arg with
  | [] => none
  | i :: arg => some (i, { k with arg := arg })

def putchar (c : UInt8) (k : Kprint) : Kprint := { k with term := termPutchar k.term c }

def printChar (i : BitVec 32) (k : Kprint) : Option Kprint :=
  some (putchar (UInt8.ofNat (i &&& 0x7F#32).toNat) k)

def printSigned (i : BitVec 32) (k : Kprint) : Option Kprint :=
  if i.toInt < 0 then writeConverted fuel (-1#32).toNat 10 (putchar minusChar k)
  else writeConverted fuel i.toNat 10 k

def printString (s : BitVec 32) (k : Kprint) : Option Kprint :=
  writeData fuel (fun i => byteAt mem (s.toNat + i)) k

def printHex (i : BitVec 32) (k : Kprint) : Option Kprint :=
  (writeData fuel (literal [48, 120]) k).bind (writeConverted fuel i.toNat 16)

/-- The `switch` on the character behind a `%`. -/
def printConversion (letter : UInt8) (k : Kprint) : Option Kprint :=
  if letter = 99 then (vaArg k).bind fun (i, k) => printChar i k
  else if letter = 100 then (vaArg k).bind fun (i, k) => printSigned fuel i k
  else if letter = 115 then (vaArg k).bind fun (s, k) => printString mem fuel s k
  else if letter = 120 then (vaArg k).bind fun (i, k) => printHex fuel i k
  else some k

/-- One turn of the loop over the format. -/
def kprintStep (k : Kprint) : Option Kprint :=
  if byteAt mem k.charp ≠ percentChar then
    some { putchar (byteAt mem k.charp) k with charp := k.charp + 1 }
  else
    (printConversion mem fuel (byteAt mem (k.charp + 1)) k).map fun k =>
      { k with charp := k.charp + 2 }

def kprintLoop : (turns : Nat) → Kprint → Option Kprint
  | 0, _ => none
  | turns + 1, k =>
      if byteAt mem k.charp = 0 then some k else (kprintStep mem fuel k).bind (kprintLoop turns)

/-- What `kprint` puts out before the format: the number of the message. -/
def kprintHeader (level : LogLevel) (k : Kprint) : Option Kprint :=
  (writeData fuel (literal [91])
      { k with term := termSetcolor (levelColor level).code k.term }).bind
    fun k => (writeConverted fuel k.logCount.toNat 10 k).bind fun k =>
      (writeData fuel (literal [93, 32]) k).map fun k => { k with logCount := k.logCount + 1 }

/-- `kprint(level, format, arg)`; `none` if it has not come to an end yet or there are too few
arguments. -/
def kprint (level : LogLevel) (format : Nat) (arg : List (BitVec 32)) (k : Kprint) :
    Option Kprint :=
  (kprintHeader fuel level k).bind fun k =>
    kprintLoop mem fuel fuel { k with charp := format, arg := arg }

end Source

/-! ## Integers as text -/

/-- A digit in upper case. -/
def digitChar (d : Nat) : UInt8 := UInt8.ofNat (if d < 10 then 48 + d else 55 + d)

def digitValue (c : UInt8) : Nat := if c.toNat < 65 then c.toNat - 48 else c.toNat - 55

/-- The canonical numeral of `n`. -/
def unsignedText (b n : Nat) : List UInt8 := (numeral b n).map digitChar

/-- The canonical numeral of an integer, with its sign if it is negative. -/
def signedText (i : Int) : List UInt8 :=
  if i < 0 then minusChar :: unsignedText 10 i.natAbs else unsignedText 10 i.natAbs

def readUnsigned (b : Nat) (text : List UInt8) : Nat := readNumeral b (text.map digitValue)

def readSigned : List UInt8 → Int
  | [] => 0
  | c :: text => if c = minusChar then -readUnsigned 10 text else readUnsigned 10 (c :: text)

theorem digitValue_digitChar {d : Nat} (hd : d < 16) : digitValue (digitChar d) = d := by
  decide +revert

theorem digitChar_ne_zero {d : Nat} (hd : d < 16) : digitChar d ≠ 0 := by decide +revert

theorem digitChar_ne_minus {d : Nat} (hd : d < 16) : digitChar d ≠ minusChar := by decide +revert

theorem representation_getD {d : Nat} (hd : d < 16) : representation.getD d 0 = digitChar d := by
  decide +revert

section Text

variable {b : Nat} (hb : 1 < b) (hb16 : b ≤ 16)

include hb hb16

theorem readUnsigned_unsignedText (n : Nat) : readUnsigned b (unsignedText b n) = n := by
  have hvalues : (numeral b n).map (digitValue ∘ digitChar) = numeral b n :=
    (List.map_congr_left fun d hd =>
      digitValue_digitChar (Nat.lt_of_lt_of_le (lt_of_mem_numeral hb hd) hb16)).trans
        (List.map_id _)
  rw [readUnsigned, unsignedText, List.map_map, hvalues, readNumeral_numeral]

theorem ne_zero_of_mem_unsignedText {n : Nat} {c : UInt8} (hc : c ∈ unsignedText b n) : c ≠ 0 := by
  obtain ⟨d, hd, rfl⟩ := List.mem_map.1 hc
  exact digitChar_ne_zero (Nat.lt_of_lt_of_le (lt_of_mem_numeral hb hd) hb16)

theorem unsignedText_ne_minus {n : Nat} {c : UInt8} (hc : c ∈ unsignedText b n) :
    c ≠ minusChar := by
  obtain ⟨d, hd, rfl⟩ := List.mem_map.1 hc
  exact digitChar_ne_minus (Nat.lt_of_lt_of_le (lt_of_mem_numeral hb hd) hb16)

end Text

theorem readSigned_signedText (i : Int) : readSigned (signedText i) = i := by
  rw [signedText]
  split
  · next hneg =>
    rw [readSigned, if_pos rfl, readUnsigned_unsignedText (by decide) (by decide)]
    omega
  · next hpos =>
    -- a numeral without a sign begins with a digit
    obtain ⟨c, text, htext⟩ : ∃ c text, unsignedText 10 i.natAbs = c :: text :=
      List.exists_cons_of_ne_nil fun h => numeral_ne_nil 10 i.natAbs (List.map_eq_nil_iff.1 h)
    have hc : c ≠ minusChar :=
      @unsignedText_ne_minus 10 (by decide) (by decide) i.natAbs c (htext ▸ List.mem_cons_self)
    rw [htext, readSigned, if_neg hc, ← htext, readUnsigned_unsignedText (by decide) (by decide)]
    omega

/-! ## What `convert` leaves in the buffer -/

/-- The digits are below `ptr`, and what was from `ptr` on is still there. -/
theorem convertLoop_spec {base : Nat} (hb : 1 < base) (hb16 : base ≤ 16) {ptr num : Nat}
    (hnum : num < base ^ ptr) (hptr : 0 < ptr) (buff : Nat → UInt8) :
    ∃ start buff', convertLoop base ptr num buff = some (start, buff') ∧ start ≤ ptr ∧
      (List.range' start (ptr - start)).map buff' = unsignedText base num ∧
      ∀ i, ptr ≤ i → buff' i = buff i := by
  induction ptr generalizing num buff with
  | zero => exact absurd hptr (Nat.lt_irrefl 0)
  | succ ptr ih =>
      have hdigit : representation.getD (num % base) 0 = digitChar (num % base) :=
        representation_getD (Nat.lt_of_lt_of_le (Nat.mod_lt _ (by omega)) hb16)
      rw [convertLoop, hdigit]
      split
      · next hmore =>
        have hnum' : num / base < base ^ ptr := Nat.div_lt_of_lt_mul (by rwa [← Nat.pow_succ'])
        have hptr' : 0 < ptr := Nat.pos_of_ne_zero fun h => by
          rw [h, Nat.pow_zero] at hnum'
          exact hmore (Nat.lt_one_iff.1 hnum')
        obtain ⟨start, buff', hrun, hstart, htext, hrest⟩ :=
          ih hnum' hptr' (Function.update buff ptr (digitChar (num % base)))
        refine ⟨start, buff', hrun, Nat.le_succ_of_le hstart, ?_, fun i hi => ?_⟩
        · -- the digits of the quotient, and behind them the one written in this turn
          calc (List.range' start (ptr + 1 - start)).map buff'
              = (List.range' start (ptr - start)).map buff' ++ [buff' ptr] := by
                rw [Nat.succ_sub hstart, List.range'_1_concat, List.map_append,
                  Nat.add_sub_cancel' hstart]
                rfl
            _ = unsignedText base (num / base) ++ [digitChar (num % base)] := by
                rw [htext, hrest ptr (Nat.le_refl ptr), Function.update_self]
            _ = unsignedText base num := by
                rw [unsignedText, unsignedText, numeral_append hb hmore, List.map_append]
                rfl
        · rw [hrest i (Nat.le_of_succ_le hi), Function.update_of_ne (Nat.ne_of_gt hi)]
      · next hlast =>
        have hlt : num < base := by
          rcases Nat.div_eq_zero_iff.1 (not_not.1 hlast) with h | h <;> omega
        refine ⟨ptr, _, rfl, Nat.le_succ ptr, ?_,
          fun i hi => Function.update_of_ne (Nat.ne_of_gt hi) _ _⟩
        rw [Nat.succ_sub (Nat.le_refl ptr), Nat.sub_self, unsignedText, numeral_of_lt hlt,
          Nat.mod_eq_of_lt hlt]
        exact congrArg (fun c => [c]) (Function.update_self ..)

theorem isString_literal {text : List UInt8} (h : 0 ∉ text) : IsString (literal text) text := by
  refine ⟨⟨literal text, text.length, List.getD_eq_default _ _ (Nat.le_refl _),
    fun i hi => ?_⟩, rfl, List.ext_getElem (by simp [CString.chars]) fun i hi hi' => ?_⟩
  · rw [literal, List.getD_eq_getElem _ _ hi]
    exact fun hzero => h (hzero ▸ List.getElem_mem hi)
  · simp [CString.chars, literal, hi']

/-- The result of `convert` is the numeral of the number, as a string. -/
theorem convert_spec {base num : Nat} (hb : 1 < base) (hb16 : base ≤ 16) (hnum : num < 2 ^ 32)
    (buff : Nat → UInt8) :
    ∃ start buff', convert num base buff = some (start, buff') ∧
      IsString (fun i => buff' (start + i)) (unsignedText base num) ∧
      (unsignedText base num).length < BUFF_SIZE := by
  have hfits : num < base ^ (BUFF_SIZE - 1) :=
    calc num < 2 ^ 32 := hnum
      _ ≤ 2 ^ (BUFF_SIZE - 1) := Nat.pow_le_pow_right (by decide) (by decide)
      _ ≤ base ^ (BUFF_SIZE - 1) := Nat.pow_le_pow_left hb _
  obtain ⟨start, buff', hrun, hstart, htext, hrest⟩ :=
    convertLoop_spec hb hb16 hfits (by decide) (Function.update buff (BUFF_SIZE - 1) 0)
  have hend : buff' (BUFF_SIZE - 1) = 0 := (hrest _ (Nat.le_refl _)).trans (Function.update_self ..)
  have hchars : (List.range (BUFF_SIZE - 1 - start)).map (fun i => buff' (start + i)) =
      unsignedText base num := by
    rw [← htext, List.range'_eq_map_range, List.map_map]
    rfl
  refine ⟨start, buff', hrun,
    ⟨⟨fun i => buff' (start + i), BUFF_SIZE - 1 - start, ?_, fun i hi => ?_⟩, rfl, hchars⟩, ?_⟩
  · rw [Nat.add_sub_cancel' hstart, hend]
  · exact ne_zero_of_mem_unsignedText hb hb16
      (hchars ▸ List.mem_map.2 ⟨i, List.mem_range.2 hi, rfl⟩)
  · rw [← hchars, List.length_map, List.length_range]
    exact Nat.lt_of_le_of_lt (Nat.sub_le _ _) (by decide)

/-! ## What the conversions put out -/

/-- `k'` is `k` after a text was put out, `n` characters further in the format and with the
arguments `arg` left. -/
structure Emitted (k : Kprint) (n : Nat) (text : List UInt8) (arg : List (BitVec 32))
    (k' : Kprint) : Prop where
  charp : k'.charp = k.charp + n
  arg : k'.arg = arg
  logCount : k'.logCount = k.logCount
  term : k'.term = emit k.term text

theorem Emitted.trans {k k₁ k₂ : Kprint} {n m : Nat} {text more : List UInt8}
    {arg arg' : List (BitVec 32)} (h₁ : Emitted k n text arg k₁) (h₂ : Emitted k₁ m more arg' k₂) :
    Emitted k (n + m) (text ++ more) arg' k₂ :=
  ⟨by rw [h₂.charp, h₁.charp, Nat.add_assoc], h₂.arg, h₂.logCount.trans h₁.logCount,
    by rw [h₂.term, h₁.term, emit_append]⟩

theorem writeData_emitted {data : Nat → UInt8} {text : List UInt8} (h : IsString data text)
    (k : Kprint) :
    ∃ k', (∀ fuel, text.length < fuel → writeData fuel data k = some k') ∧
      Emitted k 0 text k.arg k' := by
  obtain ⟨s, rfl, rfl⟩ := h
  refine ⟨{ k with term := emit k.term s.chars }, fun fuel hfuel => ?_, rfl, rfl, rfl, rfl⟩
  rw [CString.chars, List.length_map, List.length_range] at hfuel
  rw [writeData, termWritestring_eq s hfuel]
  rfl

theorem writeConverted_emitted {base num : Nat} (hb : 1 < base) (hb16 : base ≤ 16)
    (hnum : num < 2 ^ 32) (k : Kprint) :
    ∃ k', (∀ fuel, BUFF_SIZE ≤ fuel → writeConverted fuel num base k = some k') ∧
      Emitted k 0 (unsignedText base num) k.arg k' := by
  obtain ⟨start, buff', hconvert, hstring, hlen⟩ := convert_spec hb hb16 hnum k.buff
  obtain ⟨k', hwrite, hk'⟩ := writeData_emitted hstring { k with buff := buff' }
  refine ⟨k', fun fuel hfuel => ?_, hk'.charp, hk'.arg, hk'.logCount, hk'.term⟩
  rw [writeConverted, hconvert]
  exact hwrite fuel (Nat.lt_of_lt_of_le hlen hfuel)

/-- What `%d` puts out. -/
def printedSigned (i : BitVec 32) : List UInt8 :=
  if i.toInt < 0 then minusChar :: unsignedText 10 4294967295 else unsignedText 10 i.toNat

/-- What `%x` puts out. -/
def printedHex (i : BitVec 32) : List UInt8 := [48, 120] ++ unsignedText 16 i.toNat

theorem printSigned_emitted (i : BitVec 32) (k : Kprint) :
    ∃ k', (∀ fuel, BUFF_SIZE ≤ fuel → printSigned fuel i k = some k') ∧
      Emitted k 0 (printedSigned i) k.arg k' := by
  rw [printedSigned]
  split
  · next hneg =>
    have hnum : (-1#32).toNat = 4294967295 := by decide
    obtain ⟨k', hrun, hk'⟩ := @writeConverted_emitted 10 4294967295 (by decide) (by decide)
      (by decide) (putchar minusChar k)
    refine ⟨k', fun fuel hfuel => ?_, hk'.charp, hk'.arg, hk'.logCount, ?_⟩
    · rw [printSigned, if_pos hneg, hnum, hrun fuel hfuel]
    · rw [emit_cons]
      exact hk'.term
  · next hpos =>
    obtain ⟨k', hrun, hk'⟩ := @writeConverted_emitted 10 i.toNat (by decide) (by decide) i.isLt k
    refine ⟨k', fun fuel hfuel => ?_, hk'⟩
    rw [printSigned, if_neg hpos, hrun fuel hfuel]

theorem printHex_emitted (i : BitVec 32) (k : Kprint) :
    ∃ k', (∀ fuel, BUFF_SIZE ≤ fuel → printHex fuel i k = some k') ∧
      Emitted k 0 (printedHex i) k.arg k' := by
  obtain ⟨k₁, hrun₁, hk₁⟩ := writeData_emitted (@isString_literal [48, 120] (by decide)) k
  obtain ⟨k₂, hrun₂, hk₂⟩ := @writeConverted_emitted 16 i.toNat (by decide) (by decide) i.isLt k₁
  refine ⟨k₂, fun fuel hfuel => ?_, hk₁.arg ▸ hk₁.trans hk₂⟩
  rw [printHex, hrun₁ fuel (Nat.lt_of_lt_of_le (by decide) hfuel)]
  exact hrun₂ fuel hfuel

/-! ## The parts of a format -/

/-- A character of the format, or a conversion with its argument. -/
inductive Directive where
  | plain (c : UInt8)
  | char (i : BitVec 32)
  | signed (i : BitVec 32)
  | string (s : BitVec 32) (text : List UInt8)
  | hex (i : BitVec 32)
  /-- A `%` with some other character, for which nothing is put out. -/
  | unknown (letter : UInt8)

namespace Directive

/-- The format has the directive at the address `a`. -/
def At (mem : Nat → UInt8) (a : Nat) : Directive → Prop
  | .plain c => byteAt mem a = c ∧ c ≠ 0 ∧ c ≠ percentChar
  | .char _ => byteAt mem a = percentChar ∧ byteAt mem (a + 1) = 99
  | .signed _ => byteAt mem a = percentChar ∧ byteAt mem (a + 1) = 100
  | .string s text => byteAt mem a = percentChar ∧ byteAt mem (a + 1) = 115 ∧
      IsString (fun i => byteAt mem (s.toNat + i)) text
  | .hex _ => byteAt mem a = percentChar ∧ byteAt mem (a + 1) = 120
  | .unknown letter => byteAt mem a = percentChar ∧ byteAt mem (a + 1) = letter ∧
      letter ≠ 0 ∧ letter ≠ 99 ∧ letter ≠ 100 ∧ letter ≠ 115 ∧ letter ≠ 120

/-- The number of characters in the format. -/
def size : Directive → Nat
  | .plain _ => 1
  | _ => 2

def arg : Directive → List (BitVec 32)
  | .plain _ | .unknown _ => []
  | .char i | .signed i | .string i _ | .hex i => [i]

/-- What is put out for it. -/
def text : Directive → List UInt8
  | .plain c => [c]
  | .char i => [UInt8.ofNat (i &&& 0x7F#32).toNat]
  | .signed i => printedSigned i
  | .string _ text => text
  | .hex i => printedHex i
  | .unknown _ => []

end Directive

section Step

variable {mem : Nat → UInt8} {k : Kprint}

theorem vaArg_eq {i : BitVec 32} {arg : List (BitVec 32)} (h : k.arg = i :: arg) :
    vaArg k = some (i, { k with arg := arg }) := by
  rw [vaArg, h]

/-- A turn of the loop at a `%`, once it is known what the conversion puts out. -/
theorem kprintStep_conversion (hpercent : byteAt mem k.charp = percentChar) {text : List UInt8}
    {arg : List (BitVec 32)} {n : Nat}
    (h : ∃ k', (∀ fuel, n ≤ fuel →
      printConversion mem fuel (byteAt mem (k.charp + 1)) k = some k') ∧ Emitted k 0 text arg k') :
    ∃ k', (∀ fuel, n ≤ fuel → kprintStep mem fuel k = some k') ∧ Emitted k 2 text arg k' := by
  obtain ⟨k', hrun, hk'⟩ := h
  refine ⟨{ k' with charp := k'.charp + 2 }, fun fuel hfuel => ?_, ?_, hk'.arg, hk'.logCount,
    hk'.term⟩
  · rw [kprintStep, if_neg (not_not.2 hpercent), hrun fuel hfuel]
    rfl
  · rw [hk'.charp, Nat.add_zero]

theorem kprintStep_signed (hpercent : byteAt mem k.charp = percentChar)
    (hletter : byteAt mem (k.charp + 1) = 100) {i : BitVec 32} {arg : List (BitVec 32)}
    (harg : k.arg = i :: arg) :
    ∃ k', (∀ fuel, BUFF_SIZE ≤ fuel → kprintStep mem fuel k = some k') ∧
      Emitted k 2 (printedSigned i) arg k' := by
  obtain ⟨k', hrun, hk'⟩ := printSigned_emitted i { k with arg := arg }
  refine kprintStep_conversion hpercent ⟨k', fun fuel hfuel => ?_, hk'.charp, hk'.arg, hk'.logCount,
    hk'.term⟩
  rw [hletter, printConversion, if_neg (by decide), if_pos rfl, vaArg_eq harg]
  exact hrun fuel hfuel

theorem kprintStep_hex (hpercent : byteAt mem k.charp = percentChar)
    (hletter : byteAt mem (k.charp + 1) = 120) {i : BitVec 32} {arg : List (BitVec 32)}
    (harg : k.arg = i :: arg) :
    ∃ k', (∀ fuel, BUFF_SIZE ≤ fuel → kprintStep mem fuel k = some k') ∧
      Emitted k 2 (printedHex i) arg k' := by
  obtain ⟨k', hrun, hk'⟩ := printHex_emitted i { k with arg := arg }
  refine kprintStep_conversion hpercent ⟨k', fun fuel hfuel => ?_, hk'.charp, hk'.arg, hk'.logCount,
    hk'.term⟩
  rw [hletter, printConversion, if_neg (by decide), if_neg (by decide), if_neg (by decide),
    if_pos rfl, vaArg_eq harg]
  exact hrun fuel hfuel

theorem kprintStep_string (hpercent : byteAt mem k.charp = percentChar)
    (hletter : byteAt mem (k.charp + 1) = 115) {s : BitVec 32} {arg : List (BitVec 32)}
    (harg : k.arg = s :: arg) {text : List UInt8}
    (hstring : IsString (fun i => byteAt mem (s.toNat + i)) text) :
    ∃ k', (∀ fuel, text.length + 1 ≤ fuel → kprintStep mem fuel k = some k') ∧
      Emitted k 2 text arg k' := by
  obtain ⟨k', hrun, hk'⟩ := writeData_emitted hstring { k with arg := arg }
  refine kprintStep_conversion hpercent ⟨k', fun fuel hfuel => ?_, hk'.charp, hk'.arg, hk'.logCount,
    hk'.term⟩
  rw [hletter, printConversion, if_neg (by decide), if_neg (by decide), if_pos rfl, vaArg_eq harg]
  exact hrun fuel hfuel

/-- One turn of the loop: the directive is passed, its argument is used and its text is put out. -/
theorem kprintStep_directive {d : Directive} (hat : d.At mem k.charp) {arg : List (BitVec 32)}
    (harg : k.arg = d.arg ++ arg) :
    byteAt mem k.charp ≠ 0 ∧
      ∃ k' n, (∀ fuel, n ≤ fuel → kprintStep mem fuel k = some k') ∧
        Emitted k d.size d.text arg k' := by
  have hne : percentChar ≠ 0 := by decide
  cases d with
  | plain c =>
      obtain ⟨hc, hzero, hplain⟩ := hat
      refine ⟨hc ▸ hzero, { putchar c k with charp := k.charp + 1 }, 0, fun fuel _ => ?_, rfl, harg,
        rfl, rfl⟩
      rw [kprintStep, if_pos (hc ▸ hplain), hc]
  | char i =>
      obtain ⟨hpercent, hletter⟩ := hat
      obtain ⟨k', hrun, hk'⟩ := @kprintStep_conversion mem k hpercent
        [UInt8.ofNat (i &&& 0x7F#32).toNat] arg 0
        ⟨putchar (UInt8.ofNat (i &&& 0x7F#32).toNat) { k with arg := arg }, fun fuel _ => by
          rw [hletter, printConversion, if_pos rfl, vaArg_eq harg]; rfl, rfl, rfl, rfl, rfl⟩
      exact ⟨hpercent ▸ hne, k', 0, hrun, hk'⟩
  | signed i =>
      obtain ⟨k', hrun, hk'⟩ := kprintStep_signed hat.1 hat.2 harg
      exact ⟨hat.1 ▸ hne, k', _, hrun, hk'⟩
  | string s text =>
      obtain ⟨k', hrun, hk'⟩ := kprintStep_string hat.1 hat.2.1 harg hat.2.2
      exact ⟨hat.1 ▸ hne, k', _, hrun, hk'⟩
  | hex i =>
      obtain ⟨k', hrun, hk'⟩ := kprintStep_hex hat.1 hat.2 harg
      exact ⟨hat.1 ▸ hne, k', _, hrun, hk'⟩
  | unknown letter =>
      obtain ⟨hpercent, hletter, -, hc, hd, hs, hx⟩ := hat
      obtain ⟨k', hrun, hk'⟩ := @kprintStep_conversion mem k hpercent [] arg 0
        ⟨k, fun fuel _ => by
          rw [hletter, printConversion, if_neg hc, if_neg hd, if_neg hs, if_neg hx], rfl, harg,
            rfl, rfl⟩
      exact ⟨hpercent ▸ hne, k', 0, hrun, hk'⟩

end Step

/-! ## Whole calls -/

/-- The directives of the format at the address `a`, up to its end. -/
def FormatAt (mem : Nat → UInt8) : Nat → List Directive → Prop
  | a, [] => byteAt mem a = 0
  | a, d :: ds => d.At mem a ∧ FormatAt mem (a + d.size) ds

theorem kprintLoop_emitted {mem : Nat → UInt8} {ds : List Directive} {k : Kprint}
    (hformat : FormatAt mem k.charp ds) (harg : k.arg = ds.flatMap Directive.arg) :
    ∃ k' n, (∀ fuel turns, n ≤ fuel → ds.length < turns → kprintLoop mem fuel turns k = some k') ∧
      Emitted k (ds.map Directive.size).sum (ds.flatMap Directive.text) [] k' := by
  induction ds generalizing k with
  | nil =>
      refine ⟨k, 0, fun fuel turns _ hturns => ?_, rfl, harg, rfl, rfl⟩
      cases turns with
      | zero => exact absurd hturns (Nat.lt_irrefl 0)
      | succ turns => rw [kprintLoop, if_pos (show byteAt mem k.charp = 0 from hformat)]
  | cons d ds ih =>
      -- one turn for the directive, and the rest from where it ends
      obtain ⟨hne, k₁, n₁, hrun₁, hk₁⟩ := kprintStep_directive hformat.1 harg
      obtain ⟨k₂, n₂, hrun₂, hk₂⟩ := ih (hk₁.charp ▸ hformat.2) hk₁.arg
      refine ⟨k₂, max n₁ n₂, fun fuel turns hfuel hturns => ?_, hk₁.trans hk₂⟩
      cases turns with
      | zero => exact absurd hturns (Nat.not_lt_zero _)
      | succ turns =>
          rw [kprintLoop, if_neg hne, hrun₁ fuel (by omega)]
          exact hrun₂ fuel turns (by omega) (Nat.lt_of_succ_lt_succ hturns)

/-- The number of the message in brackets. -/
def headerText (logCount : BitVec 32) : List UInt8 :=
  [91] ++ (unsignedText 10 logCount.toNat ++ [93, 32])

theorem kprintHeader_emitted (level : LogLevel) (k : Kprint) :
    ∃ k', (∀ fuel, BUFF_SIZE ≤ fuel → kprintHeader fuel level k = some k') ∧
      k'.logCount = k.logCount + 1 ∧
      k'.term = emit (termSetcolor (levelColor level).code k.term) (headerText k.logCount) := by
  obtain ⟨k₁, hrun₁, hk₁⟩ := writeData_emitted (@isString_literal [91] (by decide))
    { k with term := termSetcolor (levelColor level).code k.term }
  obtain ⟨k₂, hrun₂, hk₂⟩ := @writeConverted_emitted 10 k₁.logCount.toNat (by decide) (by decide)
    k₁.logCount.isLt k₁
  obtain ⟨k₃, hrun₃, hk₃⟩ := writeData_emitted (@isString_literal [93, 32] (by decide)) k₂
  have hall := hk₁.trans (hk₂.trans hk₃)
  refine ⟨{ k₃ with logCount := k₃.logCount + 1 }, fun fuel hfuel => ?_, ?_, ?_⟩
  · rw [kprintHeader, hrun₁ fuel (Nat.lt_of_lt_of_le (by decide) hfuel), Option.bind_some,
      hrun₂ fuel hfuel, Option.bind_some, hrun₃ fuel (Nat.lt_of_lt_of_le (by decide) hfuel)]
    rfl
  · rw [hall.logCount]
  · rw [hall.term, hk₁.logCount]
    rfl

/-- A call of `kprint` with a format of directives and the arguments for them returns, and it has
put out the number of the message and the text of each directive. -/
theorem kprint_emits {mem : Nat → UInt8} {format : Nat} {ds : List Directive} (level : LogLevel)
    (hformat : FormatAt mem format ds) (k : Kprint) :
    ∃ k' n, (∀ fuel, n ≤ fuel → kprint mem fuel level format (ds.flatMap Directive.arg) k =
      some k') ∧
      k'.logCount = k.logCount + 1 ∧
      k'.term.serial = k.term.serial ++ (headerText k.logCount ++ ds.flatMap Directive.text) := by
  obtain ⟨k₁, hrun₁, hcount, hterm⟩ := kprintHeader_emitted level k
  obtain ⟨k₂, n, hrun₂, hk₂⟩ := @kprintLoop_emitted mem ds
    { k₁ with charp := format, arg := ds.flatMap Directive.arg } hformat rfl
  refine ⟨k₂, max (max n BUFF_SIZE) (ds.length + 1), fun fuel hfuel => ?_,
    hk₂.logCount.trans hcount, ?_⟩
  · rw [kprint, hrun₁ fuel (by omega)]
    exact hrun₂ fuel fuel (by omega) (by omega)
  · rw [hk₂.term]
    show (emit k₁.term _).serial = _
    rw [hterm, ← emit_append, serial_emit]
    rfl

/-! ## Integers -/

theorem printedSigned_eq_iff (i : BitVec 32) :
    printedSigned i = signedText i.toInt ↔ 0 ≤ i.toInt := by
  rw [printedSigned, signedText]
  split
  · next hneg =>
    -- the numeral of `2 ^ 32 - 1` is that of no absolute value, as reading both back shows
    refine iff_of_false (fun h => ?_) (by omega)
    have hread := congrArg (readUnsigned 10) (List.cons.inj h).2
    rw [readUnsigned_unsignedText (by decide) (by decide),
      readUnsigned_unsignedText (by decide) (by decide)] at hread
    have := i.isLt
    have := BitVec.toInt_eq_toNat_cond i
    omega
  · next hpos =>
    refine iff_of_true ?_ (by omega)
    have hnat : i.toInt.natAbs = i.toNat := by
      have := BitVec.toInt_eq_toNat_cond i
      have := i.isLt
      omega
    rw [hnat]

/-- A turn of the loop at `%d` puts out the numeral of its argument iff that is not negative, and
one at `%x` always does; the numerals can be read back. -/
theorem integer_conversion_iff (mem : Nat → UInt8) (k : Kprint) (i : BitVec 32)
    (arg : List (BitVec 32)) (hpercent : byteAt mem k.charp = percentChar)
    (harg : k.arg = i :: arg) :
    (byteAt mem (k.charp + 1) = 100 →
      ∃ k', (∀ fuel, BUFF_SIZE ≤ fuel → kprintStep mem fuel k = some k') ∧
        k'.charp = k.charp + 2 ∧ k'.arg = arg ∧
        (k'.term.serial = k.term.serial ++ signedText i.toInt ↔ 0 ≤ i.toInt)) ∧
    (byteAt mem (k.charp + 1) = 120 →
      ∃ k', (∀ fuel, BUFF_SIZE ≤ fuel → kprintStep mem fuel k = some k') ∧
        k'.charp = k.charp + 2 ∧ k'.arg = arg ∧
        k'.term.serial = k.term.serial ++ ([48, 120] ++ unsignedText 16 i.toNat)) ∧
    readSigned (signedText i.toInt) = i.toInt ∧
    readUnsigned 16 (unsignedText 16 i.toNat) = i.toNat := by
  refine ⟨fun hletter => ?_, fun hletter => ?_, readSigned_signedText _,
    readUnsigned_unsignedText (by decide) (by decide) _⟩
  · obtain ⟨k', hrun, hk'⟩ := kprintStep_signed hpercent hletter harg
    refine ⟨k', hrun, hk'.charp, hk'.arg, ?_⟩
    rw [hk'.term, serial_emit, List.append_cancel_left_eq, printedSigned_eq_iff]
  · obtain ⟨k', hrun, hk'⟩ := kprintStep_hex hpercent hletter harg
    exact ⟨k', hrun, hk'.charp, hk'.arg, by rw [hk'.term, serial_emit]; rfl⟩

/-- Before the first message. -/
def firstMessage : Kprint := ⟨0, [], 0, fun _ => 0, termReset fun _ => 0⟩

/-- `%d` with `5`, and `%x` with `255`. -/
theorem integer_conversion_five :
    (∃ k', (∀ fuel, BUFF_SIZE ≤ fuel →
        kprintStep (literal [37, 100]) fuel { firstMessage with arg := [5#32] } = some k') ∧
      k'.term.serial = [53]) ∧
    ∃ k', (∀ fuel, BUFF_SIZE ≤ fuel →
        kprintStep (literal [37, 120]) fuel { firstMessage with arg := [255#32] } = some k') ∧
      k'.term.serial = [48, 120, 70, 70] := by
  have hfive : signedText (5#32).toInt = [53] := by
    norm_num [signedText, unsignedText, numeral, digitChar, BitVec.toInt]
    rfl
  have hff : unsignedText 16 (255#32).toNat = [70, 70] := by
    norm_num [unsignedText, numeral, digitChar]
    rfl
  constructor
  · obtain ⟨k', hrun, -, -, hserial⟩ := (integer_conversion_iff (literal [37, 100])
      { firstMessage with arg := [5#32] } 5#32 [] (by decide) rfl).1 (by decide)
    exact ⟨k', hrun, (hserial.2 (by decide)).trans (by rw [hfive]; rfl)⟩
  · obtain ⟨k', hrun, -, -, hserial⟩ := (integer_conversion_iff (literal [37, 120])
      { firstMessage with arg := [255#32] } 255#32 [] (by decide) rfl).2.1 (by decide)
    exact ⟨k', hrun, hserial.trans (by rw [hff]; rfl)⟩

/-- `kprint(INFO, "%d", -5)` puts out `[0] -4294967295`. -/
theorem kprint_minus_five :
    (kprint (literal [37, 100]) BUFF_SIZE .info 0 [-5#32] firstMessage).map
        (fun k => k.term.serial) =
      some [91, 48, 93, 32, 45, 52, 50, 57, 52, 57, 54, 55, 50, 57, 53] ∧
      signedText (-5#32).toInt = [45, 53] := by
  refine ⟨by decide +kernel, ?_⟩
  norm_num [signedText, unsignedText, numeral, digitChar, minusChar, BitVec.toInt]
  rfl

end NowOS

import NowOS.Klib.String
import NowOS.Lib.Screen
import Mathlib.Data.UInt
import Mathlib.Tactic

set_option autoImplicit false

/-! # The terminal (`kernel/tty.c`)

The terminal writes into the memory of the VGA text mode: 25 rows of 80 entries, each a character
and a colour. Behind the last row it moves all rows up by one, in place. Each character also goes to
the serial port.

What the screen should show is said by a page without an end, on which a newline goes to the first
column of the next line and any other character goes one column on, to the next line behind column
79, and is put there (`layout`). The terminal shows the last 25 lines of it, whatever is written:
`Shows` is the simulation, `Shows.putchar` its step, and `screen_last_lines` the result for every
sequence of calls. -/

namespace NowOS

def VGA_WIDTH : Nat := 80

def VGA_HEIGHT : Nat := 25

def TERM_COMMAND_PORT : Nat := 0x3D4

def TERM_DATA_PORT : Nat := 0x3D5

def TERM_HIGH_BYTE_COMMAND : UInt8 := 14

def TERM_LOW_BYTE_COMMAND : UInt8 := 15

/-- The port that `debug_print` writes to. -/
def SERIAL_PORT : Nat := 0x3F8

/-- `'\n'` -/
def newlineChar : UInt8 := 10

/-- `' '` -/
def blankChar : UInt8 := 32

/-- `enum vga_color` -/
inductive VgaColor where
  | black | blue | green | cyan | red | magenta | brown | lightGrey
  | darkGrey | lightBlue | lightGreen | lightCyan | lightRed | lightMagenta | lightBrown | white
  deriving DecidableEq, Repr

/-- The number of a colour, which is its position in the enumeration. -/
def VgaColor.code (color : VgaColor) : UInt8 := UInt8.ofNat color.ctorIdx

/-- The variables of the terminal, the memory at `VGA_MEM`, and what was sent to the ports. -/
structure Term where
  row : Nat
  column : Nat
  color : UInt8
  /-- `terminal_buffer[index]` -/
  buffer : Nat → BitVec 16
  /-- The indices of `terminal_buffer` that were written. -/
  written : List Nat
  ports : List (Nat × UInt8)

/-! ## The functions of the source -/

def vgaEntryColor (fg bg : VgaColor) : UInt8 := fg.code ||| bg.code <<< 4

def vgaEntry (uc color : UInt8) : BitVec 16 :=
  uc.toBitVec.setWidth 16 ||| color.toBitVec.setWidth 16 <<< 8

/-- `terminal_buffer[index] = entry` -/
def setEntry (index : Nat) (entry : BitVec 16) (t : Term) : Term :=
  { t with buffer := Function.update t.buffer index entry, written := index :: t.written }

def outb (port : Nat) (data : UInt8) (t : Term) : Term :=
  { t with ports := t.ports ++ [(port, data)] }

def debugPrint (data : UInt8) (t : Term) : Term := outb SERIAL_PORT data t

def termMoveCursor (pos : UInt16) (t : Term) : Term :=
  outb TERM_DATA_PORT (pos &&& 0x00FF).toUInt8 <|
    outb TERM_COMMAND_PORT TERM_LOW_BYTE_COMMAND <|
      outb TERM_DATA_PORT ((pos >>> 8) &&& 0x00FF).toUInt8 <|
        outb TERM_COMMAND_PORT TERM_HIGH_BYTE_COMMAND t

/-- The variables as `term_init` sets them, where `vga` is what the memory held before. -/
def termReset (vga : Nat → BitVec 16) : Term := ⟨0, 0, vgaEntryColor .lightGrey .black, vga, [], []⟩

def termInit (vga : Nat → BitVec 16) : Term :=
  rowMajor VGA_HEIGHT VGA_WIDTH (fun y x t =>
    setEntry (y * VGA_WIDTH + x) (vgaEntry blankChar t.color) t)
    (termReset vga)

def termSetcolor (color : UInt8) (t : Term) : Term := { t with color := color }

def termPutentryat (c color : UInt8) (x y : Nat) (t : Term) : Term :=
  termMoveCursor (UInt16.ofNat (y * VGA_WIDTH + x))
    (setEntry (y * VGA_WIDTH + x) (vgaEntry c color) t)

/-- The body of the loops of `move_entries_up`. -/
def moveEntry (y x : Nat) (t : Term) : Term :=
  if y = VGA_HEIGHT - 1 then
    termMoveCursor (UInt16.ofNat (y * VGA_WIDTH))
      (setEntry (y * VGA_WIDTH + x) (vgaEntry blankChar t.color) t)
  else setEntry (y * VGA_WIDTH + x) (t.buffer ((y + 1) * VGA_WIDTH + x)) t

def moveEntriesUp (t : Term) : Term := rowMajor VGA_HEIGHT VGA_WIDTH moveEntry t

/-- `terminal_column = 0` and the step to the next row, as both cases of `term_putchar` have it. -/
def nextRow (t : Term) : Term :=
  if t.row + 1 = VGA_HEIGHT then moveEntriesUp { t with column := 0, row := VGA_HEIGHT - 1 }
  else { t with column := 0, row := t.row + 1 }

/-- The step to the next column in the default case of `term_putchar`. -/
def nextColumn (t : Term) : Term :=
  if t.column + 1 = VGA_WIDTH then nextRow t else { t with column := t.column + 1 }

def termPutchar (t : Term) (c : UInt8) : Term :=
  debugPrint c <|
    if c = newlineChar then nextRow t
    else termPutentryat c (nextColumn t).color (nextColumn t).column (nextColumn t).row
      (nextColumn t)

def termWrite (data : Nat → UInt8) (size : Nat) (t : Term) : Term :=
  (List.range size).foldl (fun t i => termPutchar t (data i)) t

/-- `term_writestring` from the character `i` on; `none` if it has not come to the end yet. -/
def termWritestring (data : Nat → UInt8) : (fuel i : Nat) → Term → Option Term
  | 0, _, _ => none
  | fuel + 1, i, t =>
      if data i = 0 then some t else termWritestring data fuel (i + 1) (termPutchar t (data i))

/-! ## Writing text -/

/-- The terminal after the characters of a text were put out. -/
def emit (t : Term) (text : List UInt8) : Term := text.foldl termPutchar t

theorem emit_cons (t : Term) (c : UInt8) (text : List UInt8) :
    emit t (c :: text) = emit (termPutchar t c) text := rfl

theorem emit_append (t : Term) (text more : List UInt8) :
    emit t (text ++ more) = emit (emit t text) more := List.foldl_append

theorem termWrite_eq (data : Nat → UInt8) (size : Nat) (t : Term) :
    termWrite data size t = emit t ((List.range size).map data) := List.foldl_map.symm

theorem termWritestring_from (s : CString) {fuel i : Nat} (hi : i ≤ s.len)
    (hfuel : s.len < fuel + i) (t : Term) :
    termWritestring s.data fuel i t = some (emit t ((List.range' i (s.len - i)).map s.data)) := by
  induction fuel generalizing i t with
  | zero => omega
  | succ fuel ih =>
      rw [termWritestring]
      by_cases hend : i = s.len
      · rw [if_pos (hend ▸ s.ends), hend, Nat.sub_self]
        rfl
      · have hlt : i < s.len := Nat.lt_of_le_of_ne hi hend
        rw [if_neg (s.before i hlt), ih hlt (by omega),
          show s.len - i = s.len - (i + 1) + 1 by omega, List.range'_succ]
        rfl

theorem termWritestring_eq (s : CString) {fuel : Nat} (hfuel : s.len < fuel) (t : Term) :
    termWritestring s.data fuel 0 t = some (emit t s.chars) := by
  rw [termWritestring_from s (Nat.zero_le _) hfuel, Nat.sub_zero, CString.chars,
    List.range_eq_range']

/-! ## The serial log -/

/-- The characters that were sent to the serial port. -/
def Term.serial (t : Term) : List UInt8 :=
  t.ports.filterMap fun out => if out.1 = SERIAL_PORT then some out.2 else none

theorem serial_outb_of_ne {port : Nat} (h : port ≠ SERIAL_PORT) (data : UInt8) (t : Term) :
    (outb port data t).serial = t.serial := by
  simp [Term.serial, outb, List.filterMap_append, h]

theorem serial_debugPrint (c : UInt8) (t : Term) : (debugPrint c t).serial = t.serial ++ [c] := by
  simp [Term.serial, debugPrint, outb, List.filterMap_append]

@[simp]
theorem serial_termMoveCursor (pos : UInt16) (t : Term) :
    (termMoveCursor pos t).serial = t.serial := by
  have hcommand : TERM_COMMAND_PORT ≠ SERIAL_PORT := by decide
  have hdata : TERM_DATA_PORT ≠ SERIAL_PORT := by decide
  rw [termMoveCursor, serial_outb_of_ne hdata, serial_outb_of_ne hcommand, serial_outb_of_ne hdata,
    serial_outb_of_ne hcommand]

/-! ## What the loops do -/

/-- The number of entries of the screen. -/
def VGA_SIZE : Nat := VGA_HEIGHT * VGA_WIDTH

/-- Only entries of the screen were written since `t₀`, and no character was put out. -/
structure EntriesOnly (t₀ t : Term) : Prop where
  row : t.row = t₀.row
  column : t.column = t₀.column
  color : t.color = t₀.color
  serial : t.serial = t₀.serial
  written : ∀ i, i ∈ t.written → i ∈ t₀.written ∨ i < VGA_SIZE

theorem EntriesOnly.refl (t : Term) : EntriesOnly t t := ⟨rfl, rfl, rfl, rfl, fun _ => Or.inl⟩

theorem EntriesOnly.setEntry {t₀ t : Term} (h : EntriesOnly t₀ t) {index : Nat}
    (hi : index < VGA_SIZE) (entry : BitVec 16) : EntriesOnly t₀ (setEntry index entry t) := by
  refine ⟨h.row, h.column, h.color, h.serial, fun i hmem => ?_⟩
  rcases List.mem_cons.1 hmem with rfl | hmem
  · exact Or.inr hi
  · exact h.written i hmem

theorem buffer_setEntry (index : Nat) (entry : BitVec 16) (t : Term) :
    (setEntry index entry t).buffer index = entry := Function.update_self ..

theorem buffer_setEntry_of_ne {index i : Nat} (h : i ≠ index) (entry : BitVec 16) (t : Term) :
    (setEntry index entry t).buffer i = t.buffer i := Function.update_of_ne h ..

theorem EntriesOnly.moveCursor {t₀ t : Term} (h : EntriesOnly t₀ t) (pos : UInt16) :
    EntriesOnly t₀ (termMoveCursor pos t) :=
  ⟨h.row, h.column, h.color, (serial_termMoveCursor pos t).trans h.serial, h.written⟩

theorem index_lt_size {y x : Nat} (hy : y < VGA_HEIGHT) (hx : x < VGA_WIDTH) :
    y * VGA_WIDTH + x < VGA_SIZE := by
  simp only [VGA_SIZE, VGA_HEIGHT, VGA_WIDTH] at *
  omega

/-- All entries of the screen are blank after `term_init`. -/
theorem termInit_spec (vga : Nat → BitVec 16) :
    EntriesOnly (termReset vga) (termInit vga) ∧
      ∀ i, i < VGA_SIZE → (termInit vga).buffer i = vgaEntry blankChar (termReset vga).color := by
  refine rowMajor_invariant
    (fun n t => EntriesOnly (termReset vga) t ∧
      ∀ i, i < n → t.buffer i = vgaEntry blankChar (termReset vga).color)
    (fun y x t hy hx ⟨honly, hblank⟩ => ⟨honly.setEntry (index_lt_size hy hx) _, fun i hi => ?_⟩)
    ⟨EntriesOnly.refl _, fun i hi => absurd hi (Nat.not_lt_zero i)⟩
  rcases Nat.lt_succ_iff_lt_or_eq.1 hi with hi | rfl
  · rw [buffer_setEntry_of_ne (Nat.ne_of_lt hi), hblank i hi]
  · rw [buffer_setEntry, honly.color]

/-- The entry `i` once all rows have moved up by one. -/
def movedEntry (t : Term) (i : Nat) : BitVec 16 :=
  if i < VGA_SIZE - VGA_WIDTH then t.buffer (i + VGA_WIDTH) else vgaEntry blankChar t.color

/-- What `move_entries_up` has done when `n` entries are written. An entry is read before it is
written, since it is read one row earlier. -/
structure MovedUp (t₀ : Term) (n : Nat) (t : Term) : Prop where
  only : EntriesOnly t₀ t
  moved : ∀ i, i < n → t.buffer i = movedEntry t₀ i
  rest : ∀ i, n ≤ i → t.buffer i = t₀.buffer i

theorem MovedUp.setEntry {t₀ t : Term} {n : Nat} (h : MovedUp t₀ n t) (hn : n < VGA_SIZE) :
    MovedUp t₀ (n + 1) (setEntry n (movedEntry t₀ n) t) := by
  refine ⟨h.only.setEntry hn _, fun i hi => ?_, fun i hi => ?_⟩
  · rcases Nat.lt_succ_iff_lt_or_eq.1 hi with hi | rfl
    · rw [buffer_setEntry_of_ne (Nat.ne_of_lt hi), h.moved i hi]
    · exact buffer_setEntry ..
  · rw [buffer_setEntry_of_ne (Nat.ne_of_gt hi), h.rest i (Nat.le_of_succ_le hi)]

theorem MovedUp.moveEntry {t₀ t : Term} {y x : Nat} (hy : y < VGA_HEIGHT) (hx : x < VGA_WIDTH)
    (h : MovedUp t₀ (y * VGA_WIDTH + x) t) :
    MovedUp t₀ (y * VGA_WIDTH + x + 1) (moveEntry y x t) := by
  have hnext := h.setEntry (index_lt_size hy hx)
  have hrow : y * VGA_WIDTH + x < VGA_SIZE - VGA_WIDTH ↔ y ≠ VGA_HEIGHT - 1 := by
    simp only [VGA_SIZE, VGA_HEIGHT, VGA_WIDTH] at *
    omega
  rw [NowOS.moveEntry]
  split
  · next hlast =>
    rw [movedEntry, if_neg fun hlt => hrow.1 hlt hlast, ← h.only.color] at hnext
    exact ⟨hnext.only.moveCursor _, hnext.moved, hnext.rest⟩
  · next hlast =>
    -- the entry of the next row is not written yet
    have hfrom : t.buffer ((y + 1) * VGA_WIDTH + x) =
        t₀.buffer (y * VGA_WIDTH + x + VGA_WIDTH) := by
      rw [h.rest _ (by rw [Nat.succ_mul]; omega), Nat.succ_mul, Nat.add_right_comm]
    rw [movedEntry, if_pos (hrow.2 hlast), ← hfrom] at hnext
    exact hnext

theorem moveEntriesUp_spec (t : Term) : MovedUp t VGA_SIZE (moveEntriesUp t) :=
  rowMajor_invariant (MovedUp t) (fun _ _ _ hy hx => MovedUp.moveEntry hy hx)
    ⟨EntriesOnly.refl t, fun i hi => absurd hi (Nat.not_lt_zero i), fun _ _ => rfl⟩

theorem serial_nextRow (t : Term) : (nextRow t).serial = t.serial := by
  rw [nextRow]
  split
  · exact (moveEntriesUp_spec _).only.serial
  · rfl

theorem serial_termPutchar (t : Term) (c : UInt8) : (termPutchar t c).serial = t.serial ++ [c] := by
  rw [termPutchar, serial_debugPrint]
  congr 1
  split
  · exact serial_nextRow t
  · rw [termPutentryat, serial_termMoveCursor]
    show (nextColumn t).serial = t.serial
    rw [nextColumn]
    split
    · exact serial_nextRow t
    · rfl

/-- The serial port gets the text. -/
theorem serial_emit (t : Term) (text : List UInt8) : (emit t text).serial = t.serial ++ text := by
  induction text generalizing t with
  | nil => exact (List.append_nil _).symm
  | cons c text ih =>
      calc (emit t (c :: text)).serial = (termPutchar t c).serial ++ text := ih _
        _ = t.serial ++ [c] ++ text := by rw [serial_termPutchar]
        _ = t.serial ++ c :: text := by rw [List.append_assoc, List.singleton_append]

/-! ## The page that the terminal shows -/

/-- The character of an entry. -/
def entryChar (entry : BitVec 16) : UInt8 := ⟨entry.setWidth 8⟩

theorem entryChar_vgaEntry (uc color : UInt8) : entryChar (vgaEntry uc color) = uc := by
  refine UInt8.toBitVec_inj.1 (BitVec.eq_of_getLsbD_eq fun i hi => ?_)
  simp [entryChar, vgaEntry, hi]

/-- One character on the page. -/
def layoutChar (p : Page UInt8) (c : UInt8) : Page UInt8 :=
  if c = newlineChar then p.newline else (p.advance VGA_WIDTH).place c

/-- The page with a text on it. -/
def layout (text : List UInt8) : Page UInt8 := text.foldl layoutChar (Page.empty blankChar)

/-- The terminal shows the last lines of the page, and has only written to the screen. -/
structure Shows (t : Term) (p : Page UInt8) : Prop where
  fresh : p.Fresh blankChar VGA_WIDTH
  row : t.row = min p.row (VGA_HEIGHT - 1)
  column : t.column = p.col
  cell : ∀ y x, y < VGA_HEIGHT → x < VGA_WIDTH →
    entryChar (t.buffer (y * VGA_WIDTH + x)) = p.window VGA_HEIGHT y x
  written : ∀ i, i ∈ t.written → i < VGA_SIZE

theorem shows_termInit (vga : Nat → BitVec 16) : Shows (termInit vga) (Page.empty blankChar) := by
  obtain ⟨honly, hblank⟩ := termInit_spec vga
  refine ⟨Page.fresh_empty (by decide), honly.row, honly.column, fun y x hy hx => ?_,
    fun i hi => ?_⟩
  · rw [hblank _ (index_lt_size hy hx), entryChar_vgaEntry]
    rfl
  · exact (honly.written i hi).resolve_left (List.not_mem_nil)

namespace Shows

variable {t : Term} {p : Page UInt8}

theorem nextRow (h : Shows t p) : Shows (nextRow t) p.newline := by
  have hrow := h.row
  rw [NowOS.nextRow]
  split
  · next hlast =>
    -- the last row: the page is longer than the screen, and everything moves up
    have hfull : VGA_HEIGHT ≤ p.row + 1 := by omega
    have hmoved := moveEntriesUp_spec { t with column := 0, row := VGA_HEIGHT - 1 }
    refine ⟨h.fresh.newline, ?_, hmoved.only.column, fun y x hy hx => ?_, fun i hi => ?_⟩
    · rw [hmoved.only.row]
      show VGA_HEIGHT - 1 = min (p.row + 1) (VGA_HEIGHT - 1)
      omega
    · rw [hmoved.moved _ (index_lt_size hy hx), Page.window_newline_full h.fresh hfull, movedEntry]
      have hcond : y * VGA_WIDTH + x < VGA_SIZE - VGA_WIDTH ↔ y + 1 < VGA_HEIGHT := by
        simp only [VGA_SIZE, VGA_HEIGHT, VGA_WIDTH] at *
        omega
      by_cases hy' : y + 1 < VGA_HEIGHT
      · rw [if_pos (hcond.2 hy'), if_pos hy', ← h.cell (y + 1) x hy' hx, Nat.succ_mul,
          Nat.add_right_comm]
      · rw [if_neg (mt hcond.1 hy'), if_neg hy', entryChar_vgaEntry]
    · exact (hmoved.only.written i hi).elim (h.written i) id
  · next hlast =>
    have hroom : p.row + 1 < VGA_HEIGHT := by
      simp only [VGA_HEIGHT] at *
      omega
    refine ⟨h.fresh.newline, ?_, rfl, fun y x hy hx => ?_, h.written⟩
    · show t.row + 1 = min (p.row + 1) (VGA_HEIGHT - 1)
      omega
    · exact (h.cell y x hy hx).trans (Page.window_newline_room hroom y x).symm

theorem nextColumn (h : Shows t p) : Shows (nextColumn t) (p.advance VGA_WIDTH) := by
  have hfresh := h.fresh.advance
  rw [NowOS.nextColumn, Page.advance, h.column] at *
  split
  · exact h.nextRow
  · next hroom =>
    rw [if_neg hroom] at hfresh
    exact ⟨hfresh, h.row, rfl, h.cell, h.written⟩

theorem putentryat (h : Shows t p) (c color : UInt8) :
    Shows (termPutentryat c color t.column t.row t) (p.place c) := by
  have hrow : t.row < VGA_HEIGHT := by
    rw [h.row]
    exact Nat.lt_of_le_of_lt (Nat.min_le_right _ _) (by decide)
  have hcol : t.column < VGA_WIDTH := h.column ▸ h.fresh.col_lt
  refine ⟨h.fresh.place c, h.row, h.column, fun y x hy hx => ?_, fun i hi => ?_⟩
  · show entryChar ((setEntry (t.row * VGA_WIDTH + t.column) (vgaEntry c color) t).buffer _) = _
    rw [Page.window_place, ← h.row, ← h.column]
    by_cases hhere : y = t.row ∧ x = t.column
    · rw [if_pos hhere, hhere.1, hhere.2, buffer_setEntry, entryChar_vgaEntry]
    · -- two places of the screen do not have the same index
      have hne : y * VGA_WIDTH + x ≠ t.row * VGA_WIDTH + t.column := by
        simp only [VGA_WIDTH] at *
        omega
      rw [if_neg hhere, buffer_setEntry_of_ne hne, h.cell y x hy hx]
  · rcases List.mem_cons.1 hi with rfl | hi
    · exact index_lt_size hrow hcol
    · exact h.written i hi

theorem putchar (h : Shows t p) (c : UInt8) : Shows (termPutchar t c) (layoutChar p c) := by
  have hstep : Shows (if c = newlineChar then NowOS.nextRow t
      else termPutentryat c (NowOS.nextColumn t).color (NowOS.nextColumn t).column
        (NowOS.nextColumn t).row (NowOS.nextColumn t)) (layoutChar p c) := by
    rw [layoutChar]
    split
    · exact h.nextRow
    · exact h.nextColumn.putentryat c _
  exact ⟨hstep.fresh, hstep.row, hstep.column, hstep.cell, hstep.written⟩

theorem emit (h : Shows t p) (text : List UInt8) :
    Shows (emit t text) (text.foldl layoutChar p) := by
  induction text generalizing t p with
  | nil => exact h
  | cons c text ih => exact ih (h.putchar c)

theorem setcolor (h : Shows t p) (color : UInt8) : Shows (termSetcolor color t) p :=
  ⟨h.fresh, h.row, h.column, h.cell, h.written⟩

end Shows

/-! ## Every sequence of calls -/

inductive TermCall where
  | putchar (c : UInt8)
  | writestring (s : CString)
  | write (data : Nat → UInt8) (size : Nat)
  | setcolor (color : UInt8)

namespace TermCall

def run (fuel : Nat) (t : Term) : TermCall → Option Term
  | .putchar c => some (termPutchar t c)
  | .writestring s => termWritestring s.data fuel 0 t
  | .write data size => some (termWrite data size t)
  | .setcolor color => some (termSetcolor color t)

/-- The characters that a call writes. -/
def text : TermCall → List UInt8
  | .putchar c => [c]
  | .writestring s => s.chars
  | .write data size => (List.range size).map data
  | .setcolor _ => []

/-- A call returns, and the terminal shows the text of it behind what was there. -/
theorem run_shows (call : TermCall) {t : Term} {p : Page UInt8} (h : Shows t p) :
    ∃ t' n, (∀ fuel, n ≤ fuel → call.run fuel t = some t') ∧
      Shows t' (call.text.foldl layoutChar p) := by
  cases call with
  | putchar c => exact ⟨_, 0, fun _ _ => rfl, h.putchar c⟩
  | writestring s =>
      exact ⟨_, s.len + 1, fun _ hfuel => termWritestring_eq s hfuel t, h.emit s.chars⟩
  | write data size => exact ⟨_, 0, fun _ _ => rfl, termWrite_eq data size t ▸ h.emit _⟩
  | setcolor color => exact ⟨_, 0, fun _ _ => rfl, h.setcolor color⟩

theorem runs_shows (calls : List TermCall) {t : Term} {p : Page UInt8} (h : Shows t p) :
    ∃ t' n, (∀ fuel, n ≤ fuel → calls.foldlM (run fuel) t = some t') ∧
      Shows t' ((calls.flatMap text).foldl layoutChar p) := by
  induction calls generalizing t p with
  | nil => exact ⟨t, 0, fun _ _ => rfl, h⟩
  | cons call calls ih =>
      obtain ⟨t₁, n₁, hrun₁, h₁⟩ := call.run_shows h
      obtain ⟨t₂, n₂, hrun₂, h₂⟩ := ih h₁
      refine ⟨t₂, max n₁ n₂, fun fuel hfuel => ?_, ?_⟩
      · rw [List.foldlM_cons, hrun₁ fuel (by omega)]
        exact hrun₂ fuel (by omega)
      · rw [List.flatMap_cons, List.foldl_append]
        exact h₂

end TermCall

/-- After `term_init` and any sequence of calls, the terminal shows the last 25 lines of the page
that holds the text, its place is within the screen, and it has written nowhere else. -/
theorem screen_last_lines (vga : Nat → BitVec 16) (calls : List TermCall) :
    ∃ t n, (∀ fuel, n ≤ fuel → calls.foldlM (TermCall.run fuel) (termInit vga) = some t) ∧
      t.row < VGA_HEIGHT ∧ t.column < VGA_WIDTH ∧ (∀ i, i ∈ t.written → i < 80 * 25) ∧
      ∀ y x, y < VGA_HEIGHT → x < VGA_WIDTH →
        entryChar (t.buffer (y * VGA_WIDTH + x)) =
          (layout (calls.flatMap TermCall.text)).cells
            ((layout (calls.flatMap TermCall.text)).row - 24 + y) x := by
  obtain ⟨t, n, hrun, h⟩ := TermCall.runs_shows calls (shows_termInit vga)
  refine ⟨t, n, hrun, ?_, h.column ▸ h.fresh.col_lt, h.written, h.cell⟩
  rw [h.row]
  exact Nat.lt_of_le_of_lt (Nat.min_le_right _ _) (by decide)

end NowOS

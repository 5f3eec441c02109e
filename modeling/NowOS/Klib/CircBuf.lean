import NowOS.Kdef
import NowOS.Lib.Ring

set_option autoImplicit false

/-! # The ring buffer (`klib/circ_buf.c`)

A queue of entries of `type_size` bytes in a buffer of `size * type_size` bytes. The buffer is
declared as `void **buf`, so `&buf[index]` is `4 * index` bytes behind its start whatever the size
of an entry is. The memory is one of bytes, and each call says which bytes of the buffer it
accesses.

The spin lock of the structure is never taken and is left out, and so is the test for a `NULL`
structure. -/

namespace NowOS

def SUCCESS : Nat := 0

def FAILURE : Nat := 1

/-- `circ_buf_t`, and the memory. -/
structure CircBuf where
  currSize : Nat
  currIndex : Nat
  size : Nat
  typeSize : Nat
  buf : Nat
  mem : Nat → UInt8

namespace CircBuf

/-! ## The functions of the source -/

/-- `init_circ_buf`, with the address that `kmalloc(size * type_size)` returned. -/
def initCircBuf (size typeSize buf : Nat) (mem : Nat → UInt8) : CircBuf :=
  ⟨0, 0, size, typeSize, buf, mem⟩

/-- `&circ_buf->buf[index]`, for an array of pointers. -/
def entryAddr (c : CircBuf) (index : Nat) : Nat := add32 c.buf (mul32 index 4)

/-- `memcpy(dst, src, n)`, with `src i` for the byte `src[i]`. -/
def memcpy (mem : Nat → UInt8) (dst : Nat) (src : Nat → UInt8) : Nat → Nat → UInt8
  | 0 => mem
  | n + 1 => Function.update (memcpy mem dst src n) (add32 dst n) (src n)

/-- The addresses of `n` bytes from `addr` on. -/
def byteRange (addr n : Nat) : List Nat := (List.range n).map (add32 addr)

/-- The bytes that `push_circ_buf` writes. -/
def pushDst (c : CircBuf) : Nat := c.entryAddr (add32 c.currIndex c.currSize % c.size)

/-- `push_circ_buf`; `none` if the assertion fails. -/
def pushCircBuf (c : CircBuf) (entrySrc : Nat → UInt8) : Option (CircBuf × Nat) :=
  if c.currSize = c.size then some (c, FAILURE)
  else
    -- the slot behind the last entry
    let c := { c with
      mem := memcpy c.mem c.pushDst entrySrc c.typeSize
      currSize := add32 c.currSize 1 }
    if c.currSize ≤ c.size then some (c, SUCCESS) else none

/-- `pop_circ_buf`, with the bytes that are copied to `entry_dst`. -/
def popCircBuf (c : CircBuf) : CircBuf × Nat × List UInt8 :=
  if c.currSize = 0 then (c, FAILURE, [])
  else
    ({ c with
        currIndex := add32 c.currIndex 1 % c.size
        currSize := sub32 c.currSize 1 },
      SUCCESS, (byteRange (c.entryAddr c.currIndex) c.typeSize).map c.mem)

/-! ## Calls -/

inductive Call
  | push (entrySrc : Nat → UInt8)
  | pop

/-- What a call returns, and the bytes that it delivers. -/
structure Result where
  ret : Nat
  bytes : List UInt8
  deriving DecidableEq, Repr

def exec (c : CircBuf) : Call → Option (CircBuf × Result)
  | .push src => (c.pushCircBuf src).map fun r => (r.1, ⟨r.2, []⟩)
  | .pop => some (c.popCircBuf.1, ⟨c.popCircBuf.2.1, c.popCircBuf.2.2⟩)

/-- The bytes of the buffer that a call accesses. -/
def accesses (c : CircBuf) : Call → List Nat
  | .push _ => if c.currSize = c.size then [] else byteRange c.pushDst c.typeSize
  | .pop => if c.currSize = 0 then [] else byteRange (c.entryAddr c.currIndex) c.typeSize

/-- The calls one after the other: the state they leave, what they return, and all bytes of the
buffer that they access. -/
def run : List Call → CircBuf → Option (CircBuf × List Result × List Nat)
  | [], c => some (c, [], [])
  | call :: calls, c =>
      match c.exec call with
      | none => none
      | some (c', result) =>
          (run calls c').map fun r => (r.1, result :: r.2.1, c.accesses call ++ r.2.2)

/-! ## The queue -/

namespace Fifo

/-- The bytes of an entry. -/
def entry (typeSize : Nat) (src : Nat → UInt8) : List UInt8 := (List.range typeSize).map src

/-- A bounded queue of entries. -/
def exec (size typeSize : Nat) (q : List (List UInt8)) : Call → List (List UInt8) × Result
  | .push src =>
      if q.length = size then (q, ⟨FAILURE, []⟩) else (q ++ [entry typeSize src], ⟨SUCCESS, []⟩)
  | .pop =>
      match q with
      | [] => ([], ⟨FAILURE, []⟩)
      | x :: q => (q, ⟨SUCCESS, x⟩)

def run (size typeSize : Nat) : List Call → List (List UInt8) → List Result
  | [], _ => []
  | call :: calls, q =>
      (exec size typeSize q call).2 :: run size typeSize calls (exec size typeSize q call).1

end Fifo

/-- **A byte-exact bounded FIFO**: every sequence of calls after `init_circ_buf` returns what the
queue returns and stays in the buffer, and a call that fails changes nothing. -/
structure ByteFifo (size typeSize buf : Nat) : Prop where
  runs : ∀ mem calls, ∃ c acc, run calls (initCircBuf size typeSize buf mem) =
    some (c, Fifo.run size typeSize calls [], acc) ∧
      ∀ a ∈ acc, buf ≤ a ∧ a < buf + size * typeSize
  unchanged : ∀ (c : CircBuf) call c' result, c.exec call = some (c', result) →
    result.ret = FAILURE → c' = c

/-! ## Copies -/

section

variable {c : CircBuf} {mem : Nat → UInt8} {src : Nat → UInt8} {size typeSize buf : Nat}

/-- `memcpy` writes the bytes from `dst` on and no others. -/
theorem memcpy_apply {dst : Nat} (n a : Nat) (hfit : dst + n ≤ W32) :
    memcpy mem dst src n a = if dst ≤ a ∧ a < dst + n then src (a - dst) else mem a := by
  induction n with
  | zero =>
      rw [if_neg (by omega)]
      rfl
  | succ n ih =>
      have haddr : add32 dst n = dst + n := add32_of_lt (by omega)
      rw [memcpy, haddr]
      by_cases ha : a = dst + n
      · rw [ha, Function.update_self, if_pos (by omega)]
        congr 1
        omega
      · rw [Function.update_of_ne ha, ih (by omega)]
        by_cases hin : dst ≤ a ∧ a < dst + n
        · rw [if_pos hin, if_pos (by omega)]
        · rw [if_neg hin, if_neg (by omega)]

theorem byteRange_eq {addr n : Nat} (hfit : addr + n ≤ W32) :
    byteRange addr n = (List.range n).map (addr + ·) := by
  refine List.map_congr_left fun i hi => ?_
  rw [List.mem_range] at hi
  exact add32_of_lt (by omega)

/-- The entry in slot `i` of the buffer. -/
def slot (mem : Nat → UInt8) (buf typeSize i : Nat) : List UInt8 :=
  (List.range typeSize).map fun b => mem (buf + 4 * i + b)

theorem slot_memcpy_self {i : Nat} (hfit : buf + 4 * i + typeSize ≤ W32) :
    slot (memcpy mem (buf + 4 * i) src typeSize) buf typeSize i = Fifo.entry typeSize src := by
  refine List.map_congr_left fun b hb => ?_
  rw [List.mem_range] at hb
  rw [memcpy_apply _ _ hfit, if_pos (by omega)]
  congr 1
  omega

/-- Entries of at most four bytes do not overlap. -/
theorem slot_memcpy_of_ne {i j : Nat} (hfit : buf + 4 * i + typeSize ≤ W32) (ht : typeSize ≤ 4)
    (hne : j ≠ i) :
    slot (memcpy mem (buf + 4 * i) src typeSize) buf typeSize j = slot mem buf typeSize j := by
  refine List.map_congr_left fun b hb => ?_
  rw [List.mem_range] at hb
  rw [memcpy_apply _ _ hfit, if_neg (by omega)]

/-! ## Refinement -/

/-- The parameters of a buffer whose slots do not overlap and are in the buffer. -/
structure Fits (size typeSize buf : Nat) : Prop where
  size_pos : 1 ≤ size
  typeSize_pos : 1 ≤ typeSize
  total_lt : size * typeSize < 2147483648
  fits : buf + size * typeSize ≤ W32
  slots : ∀ i, i < size → 4 * i + typeSize ≤ size * typeSize
  disjoint : typeSize ≤ 4 ∨ size = 1

theorem Fits.size_lt (hf : Fits size typeSize buf) : size < 2147483648 :=
  Nat.lt_of_le_of_lt (Nat.le_mul_of_pos_right size hf.typeSize_pos) hf.total_lt

/-- **The invariant**: the slots of the ring hold the queue. -/
structure Inv (size typeSize buf : Nat) (c : CircBuf) (q : List (List UInt8)) : Prop where
  size_eq : c.size = size
  typeSize_eq : c.typeSize = typeSize
  buf_eq : c.buf = buf
  index_lt : c.currIndex < size
  currSize_eq : c.currSize = q.length
  holds : RingHolds (slot c.mem buf typeSize) size c.currIndex q

variable {q : List (List UInt8)}

theorem inv_init (hf : Fits size typeSize buf) (mem : Nat → UInt8) :
    Inv size typeSize buf (initCircBuf size typeSize buf mem) [] :=
  ⟨rfl, rfl, rfl, hf.size_pos, rfl, ringHolds_nil _ _ _⟩

theorem Inv.entryAddr_eq (hf : Fits size typeSize buf) (h : Inv size typeSize buf c q) {i : Nat}
    (hi : i < size) : c.entryAddr i = buf + 4 * i := by
  have hslot := hf.slots i hi
  have hfits := hf.fits
  have htotal := hf.total_lt
  have hpos := hf.typeSize_pos
  have hmul : mul32 i 4 = 4 * i := by
    rw [mul32_of_lt (by unfold W32; omega)]
    omega
  rw [entryAddr, h.buf_eq, hmul]
  exact add32_of_lt (by omega)

/-- The bytes of a slot are in the buffer. -/
theorem Fits.byteRange_mem (hf : Fits size typeSize buf) {i a : Nat} (hi : i < size)
    (ha : a ∈ byteRange (buf + 4 * i) typeSize) : buf ≤ a ∧ a < buf + size * typeSize := by
  have hslot := hf.slots i hi
  have hfits := hf.fits
  rw [byteRange_eq (by omega)] at ha
  obtain ⟨b, hb, rfl⟩ := List.mem_map.1 ha
  rw [List.mem_range] at hb
  omega

theorem Inv.pushDst_eq (hf : Fits size typeSize buf) (h : Inv size typeSize buf c q) :
    c.pushDst = buf + 4 * ((c.currIndex + q.length) % size) := by
  have hlt := hf.size_lt
  have hindex := h.index_lt
  have hlen := h.holds.length_le
  have hadd : add32 c.currIndex c.currSize = c.currIndex + q.length := by
    rw [h.currSize_eq]
    exact add32_of_lt (by unfold W32; omega)
  rw [pushDst, hadd, h.size_eq]
  exact h.entryAddr_eq hf (Nat.mod_lt _ hf.size_pos)

/-- A push into a buffer with room. -/
theorem Inv.push (hf : Fits size typeSize buf) (h : Inv size typeSize buf c q)
    (hroom : q.length < size) (src : Nat → UInt8) :
    ∃ c', c.pushCircBuf src = some (c', SUCCESS) ∧
      Inv size typeSize buf c' (q ++ [Fifo.entry typeSize src]) := by
  have hlt := hf.size_lt
  have hslot := hf.slots _ (Nat.mod_lt (c.currIndex + q.length) hf.size_pos)
  have hfits := hf.fits
  have hcurr : add32 c.currSize 1 = q.length + 1 := by
    rw [h.currSize_eq]
    exact add32_of_lt (by unfold W32; omega)
  have hne : c.currSize ≠ c.size := by
    rw [h.currSize_eq, h.size_eq]
    omega
  refine ⟨{ c with
    mem := memcpy c.mem c.pushDst src c.typeSize
    currSize := add32 c.currSize 1 }, ?_, h.size_eq, h.typeSize_eq, h.buf_eq, h.index_lt, ?_, ?_⟩
  · have hle : add32 c.currSize 1 ≤ c.size := by
      rw [hcurr, h.size_eq]
      omega
    unfold pushCircBuf
    rw [if_neg hne]
    simp only [hle, if_true]
  · rw [List.length_append, List.length_singleton]
    exact hcurr
  · -- the copy fills its own slot and leaves the others as they are
    simp only [h.pushDst_eq hf, h.typeSize_eq]
    refine h.holds.push hroom (slot_memcpy_self (by omega)) fun i hi hother => ?_
    rcases hf.disjoint with hsmall | hone
    · exact slot_memcpy_of_ne (by omega) hsmall hother
    · -- a buffer with one slot has no other slot
      subst hone
      exact absurd (by omega) hother

/-- A pop of the first entry. -/
theorem Inv.pop {x : List UInt8} (hf : Fits size typeSize buf)
    (h : Inv size typeSize buf c (x :: q)) :
    ∃ c', c.popCircBuf = (c', SUCCESS, x) ∧ Inv size typeSize buf c' q := by
  have hlt := hf.size_lt
  have hindex := h.index_lt
  have hslot := hf.slots _ hindex
  have hfits := hf.fits
  have hlen := h.holds.length_le
  have hcurr : c.currSize = q.length + 1 := h.currSize_eq
  have hsub : sub32 c.currSize 1 = q.length := by
    rw [hcurr, sub32_of_le (by omega)]
    omega
  have hadd : add32 c.currIndex 1 = c.currIndex + 1 := add32_of_lt (by unfold W32; omega)
  have hbytes : (byteRange (c.entryAddr c.currIndex) c.typeSize).map c.mem = x := by
    have hfront := h.holds.front
    rw [Nat.mod_eq_of_lt hindex] at hfront
    rw [h.entryAddr_eq hf hindex, h.typeSize_eq, byteRange_eq (by omega), List.map_map, ← hfront]
    rfl
  refine ⟨{ c with
    currIndex := add32 c.currIndex 1 % c.size
    currSize := sub32 c.currSize 1 }, ?_, h.size_eq, h.typeSize_eq, h.buf_eq, ?_, hsub, ?_⟩
  · unfold popCircBuf
    rw [if_neg (by omega), hbytes]
  · rw [h.size_eq]
    exact Nat.mod_lt _ hf.size_pos
  · simp only [hadd, h.size_eq]
    exact h.holds.pop

/-- **A step.** A call returns what the queue returns. -/
theorem Inv.exec (hf : Fits size typeSize buf) (h : Inv size typeSize buf c q) (call : Call) :
    ∃ c', c.exec call = some (c', (Fifo.exec size typeSize q call).2) ∧
      Inv size typeSize buf c' (Fifo.exec size typeSize q call).1 := by
  cases call with
  | push src =>
      by_cases hfull : q.length = size
      · have hcurr : c.currSize = c.size := by rw [h.currSize_eq, h.size_eq, hfull]
        refine ⟨c, ?_, ?_⟩
        · simp only [CircBuf.exec, pushCircBuf, hcurr, if_true, Fifo.exec, hfull]
          rfl
        · simp only [Fifo.exec, hfull, if_true]
          exact h
      · have hlen := h.holds.length_le
        obtain ⟨c', hok, h'⟩ := h.push hf (by omega) src
        refine ⟨c', ?_, ?_⟩
        · simp only [CircBuf.exec, hok, Fifo.exec, hfull, if_false]
          rfl
        · simp only [Fifo.exec, hfull, if_false]
          exact h'
  | pop =>
      cases q with
      | nil =>
          have hcurr : c.currSize = 0 := h.currSize_eq
          refine ⟨c, ?_, h⟩
          simp only [CircBuf.exec, popCircBuf, hcurr, if_true, Fifo.exec]
      | cons x q =>
          obtain ⟨c', hok, h'⟩ := h.pop hf
          refine ⟨c', ?_, h'⟩
          simp only [CircBuf.exec, hok, Fifo.exec]

/-- Every byte that a call accesses is in the buffer. -/
theorem Inv.accesses (hf : Fits size typeSize buf) (h : Inv size typeSize buf c q) {call : Call}
    {a : Nat} (ha : a ∈ c.accesses call) : buf ≤ a ∧ a < buf + size * typeSize := by
  cases call with
  | push src =>
      simp only [CircBuf.accesses, h.pushDst_eq hf, h.typeSize_eq] at ha
      split_ifs at ha with hfull
      · cases ha
      · exact hf.byteRange_mem (Nat.mod_lt _ hf.size_pos) ha
  | pop =>
      simp only [CircBuf.accesses, h.entryAddr_eq hf h.index_lt, h.typeSize_eq] at ha
      split_ifs at ha with hempty
      · cases ha
      · exact hf.byteRange_mem h.index_lt ha

/-- **A run.** -/
theorem Inv.run (hf : Fits size typeSize buf) (h : Inv size typeSize buf c q) (calls : List Call) :
    ∃ c' acc, CircBuf.run calls c = some (c', Fifo.run size typeSize calls q, acc) ∧
      ∀ a ∈ acc, buf ≤ a ∧ a < buf + size * typeSize := by
  induction calls generalizing c q with
  | nil => exact ⟨c, [], rfl, by simp⟩
  | cons call calls ih =>
      obtain ⟨c1, hexec, h1⟩ := h.exec hf call
      obtain ⟨c', acc, hrun, hacc⟩ := ih h1
      refine ⟨c', c.accesses call ++ acc, ?_, fun a ha => ?_⟩
      · simp only [CircBuf.run, hexec, hrun]
        rfl
      · rcases List.mem_append.1 ha with ha | ha
        · exact h.accesses hf ha
        · exact hacc a ha

/-- A call that fails changes nothing. -/
theorem exec_failure {call : Call} {c' : CircBuf} {result : Result}
    (hexec : c.exec call = some (c', result)) (hret : result.ret = FAILURE) : c' = c := by
  cases call with
  | push src =>
      simp only [exec, pushCircBuf] at hexec
      split_ifs at hexec
      · cases hexec
        rfl
      · cases hexec
        cases hret
      · cases hexec
  | pop =>
      simp only [exec, popCircBuf] at hexec
      split_ifs at hexec
      · cases hexec
        rfl
      · cases hexec
        cases hret

/-! ## Other sizes -/

/-- The state after a push into a buffer with room. -/
def pushed (c : CircBuf) (src : Nat → UInt8) : CircBuf :=
  { c with mem := memcpy c.mem c.pushDst src c.typeSize, currSize := c.currSize + 1 }

theorem exec_push (hroom : c.currSize < c.size) (hsize : c.size ≤ 2147483648) (src : Nat → UInt8) :
    c.exec (.push src) = some (c.pushed src, ⟨SUCCESS, []⟩) ∧
      c.accesses (.push src) = byteRange c.pushDst c.typeSize := by
  have hne : c.currSize ≠ c.size := by omega
  have hcurr : add32 c.currSize 1 = c.currSize + 1 := add32_of_lt (by unfold W32; omega)
  have hle : c.currSize + 1 ≤ c.size := hroom
  constructor
  · simp only [exec, pushCircBuf, hne, if_false, hcurr, hle, if_true]
    rfl
  · simp only [accesses, hne, if_false]

theorem pushDst_of_index_zero (hindex : c.currIndex = 0) (hroom : c.currSize < c.size)
    (hsize : c.size < 2147483648) : c.pushDst = c.entryAddr c.currSize := by
  have hadd : add32 0 c.currSize = c.currSize := by
    rw [add32_of_lt (by unfold W32; omega), Nat.zero_add]
  rw [pushDst, hindex, hadd, Nat.mod_eq_of_lt hroom]

/-- Pushes into a buffer that nothing was taken from fill the slots in order. -/
theorem run_pushes (src : Nat → UInt8) (k : Nat) (hindex : c.currIndex = 0)
    (hroom : c.currSize + k < c.size) (hsize : c.size < 2147483648) :
    ∃ c' results acc, run (List.replicate (k + 1) (.push src)) c = some (c', results, acc) ∧
      byteRange (c.entryAddr (c.currSize + k)) c.typeSize ⊆ acc := by
  induction k generalizing c with
  | zero =>
      obtain ⟨hexec, hacc⟩ := exec_push (c := c) hroom hsize.le src
      refine ⟨_, _, _, by simp only [List.replicate, run, hexec]; rfl, ?_⟩
      rw [hacc, pushDst_of_index_zero hindex hroom hsize]
      exact List.subset_append_left _ _
  | succ k ih =>
      obtain ⟨hexec, -⟩ := exec_push (c := c) (by omega) hsize.le src
      have hroom' : (c.pushed src).currSize + k < (c.pushed src).size := by
        show c.currSize + 1 + k < c.size
        omega
      obtain ⟨c', results, acc, hrun, hsub⟩ := ih (c := c.pushed src) hindex hroom' hsize
      refine ⟨c', _, _, by rw [List.replicate_succ, run, hexec]; simp only [hrun]; rfl, ?_⟩
      have hslot : c.currSize + (k + 1) = (c.pushed src).currSize + k := by
        show _ = c.currSize + 1 + k
        omega
      rw [hslot]
      exact fun a ha => List.mem_append_right _ (hsub ha)

/-- **Short entries overrun the buffer.** A slot of four bytes is longer than an entry, so there are
slots behind the end of the buffer. -/
theorem not_byteFifo_of_lt (hs : 2 ≤ size) (ht : 1 ≤ typeSize) (hlt : typeSize < 4)
    (htotal : size * typeSize < 2147483648) (hfit : buf + size * typeSize ≤ W32) :
    ¬ ByteFifo size typeSize buf := by
  intro hfifo
  -- the first slot that reaches behind the end
  obtain ⟨k, hk, hsize, hout⟩ : ∃ k, k + 1 ≤ size ∧ size < 2147483648 ∧
      size * typeSize < 4 * k + typeSize ∧ 4 * k ≤ size * typeSize + 4 := by
    refine ⟨(size * typeSize - typeSize) / 4 + 1, ?_⟩
    obtain rfl | rfl | rfl : typeSize = 1 ∨ typeSize = 2 ∨ typeSize = 3 := by omega
    all_goals omega
  obtain ⟨c', results, acc, hrun, hsub⟩ := run_pushes
    (c := initCircBuf size typeSize buf fun _ => 0) (fun _ => 0) k rfl
    (show 0 + k < size by omega) hsize
  obtain ⟨c2, acc2, hrun2, hacc⟩ := hfifo.runs (fun _ => 0)
    (List.replicate (k + 1) (.push fun _ => 0))
  rw [hrun] at hrun2
  cases hrun2
  have hmem : add32 (add32 buf (mul32 (0 + k) 4)) (typeSize - 1) ∈ acc :=
    hsub (List.mem_map.2 ⟨typeSize - 1,
      List.mem_range.2 (by show typeSize - 1 < typeSize; omega), rfl⟩)
  have hbounds := hacc _ hmem
  unfold add32 mul32 W32 at *
  omega

/-- **Long entries overlap.** The second entry overwrites the first one from its fifth byte on. -/
theorem not_byteFifo_of_gt (hs : 2 ≤ size) (hgt : 4 < typeSize)
    (htotal : size * typeSize < 2147483648) (hfit : buf + size * typeSize ≤ W32) :
    ¬ ByteFifo size typeSize buf := by
  intro hfifo
  have htwo : 2 * typeSize ≤ size * typeSize := Nat.mul_le_mul_right _ hs
  have hsize : size < 2147483648 :=
    Nat.lt_of_le_of_lt (Nat.le_mul_of_pos_right size (by omega)) htotal
  obtain ⟨c2, hc2⟩ : ∃ c2, ((initCircBuf size typeSize buf fun _ => 0).pushed fun _ => 0).pushed
    (fun _ => 1) = c2 := ⟨_, rfl⟩
  obtain ⟨hfirst, -⟩ := exec_push (c := initCircBuf size typeSize buf fun _ => 0)
    (show 0 < size by omega) hsize.le fun _ => 0
  obtain ⟨hsecond, -⟩ :=
    exec_push (c := (initCircBuf size typeSize buf fun _ => 0).pushed fun _ => 0)
      (show 1 < size by omega) hsize.le fun _ => 1
  have hdst : ((initCircBuf size typeSize buf fun _ => 0).pushed fun _ => 0).pushDst = buf + 4 := by
    rw [pushDst_of_index_zero rfl (show 1 < size by omega) hsize]
    exact add32_of_lt (by show buf + 4 < W32; omega)
  -- the fifth byte of the first slot is the first byte of the second one
  have hbyte : c2.mem (add32 (c2.entryAddr 0) 4) = 1 := by
    have haddr : add32 (c2.entryAddr 0) 4 = buf + 4 := by
      rw [← hc2]
      show add32 (add32 buf 0) 4 = buf + 4
      rw [add32_of_lt (b := 0) (by omega), add32_of_lt (by omega)]
    rw [haddr, ← hc2]
    show memcpy _ _ _ typeSize (buf + 4) = 1
    rw [hdst, memcpy_apply _ _ (by omega), if_pos (by omega)]
  have hpop : c2.exec .pop = some (c2.popCircBuf.1,
      ⟨SUCCESS, (byteRange (c2.entryAddr 0) typeSize).map c2.mem⟩) := by
    rw [← hc2]
    rfl
  obtain ⟨c', acc, hrun, -⟩ := hfifo.runs (fun _ => 0) [.push fun _ => 0, .push fun _ => 1, .pop]
  have hne0 : 0 ≠ size := by omega
  have hne1 : 1 ≠ size := by omega
  simp only [run, hfirst, hsecond, hc2, hpop, Fifo.run, Fifo.exec, List.length_nil, hne0, if_false,
    List.nil_append, List.length_singleton, hne1, List.singleton_append, Option.map_some,
    Option.some.injEq, Prod.mk.injEq, List.cons.injEq, Result.mk.injEq, true_and, and_true] at hrun
  have hfifth := congrArg (fun bytes => bytes[4]?) hrun.2.1
  simp [byteRange, Fifo.entry, hgt, hbyte] at hfifth

/-- **The ring buffer is a byte-exact FIFO** exactly if an entry is as long as a pointer, or the
buffer has one slot only. -/
theorem circBuf_byteFifo_iff (hs : 1 ≤ size) (ht : 1 ≤ typeSize)
    (htotal : size * typeSize < 2147483648) (hfit : buf + size * typeSize ≤ W32) :
    ByteFifo size typeSize buf ↔ typeSize = 4 ∨ size = 1 := by
  constructor
  · intro hfifo
    by_contra hno
    rw [not_or] at hno
    rcases Nat.lt_or_gt_of_ne hno.1 with hlt | hgt
    · exact not_byteFifo_of_lt (by omega) ht hlt htotal hfit hfifo
    · exact not_byteFifo_of_gt (by omega) hgt htotal hfit hfifo
  · intro hgood
    have hf : Fits size typeSize buf := by
      refine ⟨hs, ht, htotal, hfit, fun i hi => ?_, ?_⟩
      · rcases hgood with rfl | rfl <;> omega
      · rcases hgood with rfl | rfl <;> simp
    exact ⟨fun mem calls => (inv_init hf mem).run hf calls,
      fun c call c' result hexec hret => exec_failure hexec hret⟩

/-- A buffer of four integers, as the tests of the source use. -/
theorem circBuf_byteFifo_ints : ByteFifo 4 4 0xC0128010 :=
  (circBuf_byteFifo_iff (by decide) (by decide) (by decide) (by decide)).2 (Or.inl rfl)

/-- **Two entries of eight bytes.** The pop delivers four bytes of the first entry and four bytes of
the second one. -/
theorem circBuf_mixes_entries :
    (∃ c acc, run [.push UInt8.ofNat, .push fun _ => 255, .pop]
        (initCircBuf 2 8 0xC0128010 fun _ => 0) = some (c,
          [⟨SUCCESS, []⟩, ⟨SUCCESS, []⟩, ⟨SUCCESS, [0, 1, 2, 3, 255, 255, 255, 255]⟩], acc)) ∧
      Fifo.entry 8 UInt8.ofNat = [0, 1, 2, 3, 4, 5, 6, 7] ∧ ¬ ByteFifo 2 8 0xC0128010 := by
  refine ⟨?_, by decide, not_byteFifo_of_gt (by decide) (by decide) (by decide) (by decide)⟩
  have hrun : (run [.push UInt8.ofNat, .push fun _ => 255, .pop]
      (initCircBuf 2 8 0xC0128010 fun _ => 0)).any (fun r => r.2.1 ==
        [⟨SUCCESS, []⟩, ⟨SUCCESS, []⟩, ⟨SUCCESS, [0, 1, 2, 3, 255, 255, 255, 255]⟩]) = true := by
    decide +kernel
  obtain ⟨⟨c, results, acc⟩, hr, hresults⟩ := (Option.any_eq_true _ _).1 hrun
  exact ⟨c, acc, by rw [hr, ← eq_of_beq hresults]⟩

end

end CircBuf

end NowOS

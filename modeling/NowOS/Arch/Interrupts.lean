import NowOS.Arch.Preemption
import NowOS.Lib.Sweep

set_option autoImplicit false

/-! # Interrupt entry and exit (`arch/idt.c`, `arch/irq.s`)

An interrupt takes the processor through a gate of the table that `set_idt` fills to one of the
handlers of `irq.s`, which builds an `int_state_t`, calls `interrupt_handler` and returns with
`iret`. The code that was interrupted must not notice. Whether that is so depends on a word: for
some vectors the processor pushes an error code, and the handler has to push one itself exactly for
the others. -/

namespace NowOS

/-! ## The table (`set_idt`) -/

/-- `idt_entry`. -/
structure IdtEntry where
  offsetLower : BitVec 16
  selector : BitVec 16
  zero : BitVec 8
  type : BitVec 8
  offsetHigher : BitVec 16
  deriving DecidableEq, Repr

def KERN_CODE_SEGMENT : BitVec 16 := 0x08#16

def TYPE_32_INT_GATE : BitVec 8 := 0x8E#8

/-- The entry that `set_idt_entry` makes. -/
def idtEntry (address : BitVec 32) (selector : BitVec 16) (type : BitVec 8) : IdtEntry where
  offsetLower := (address &&& 0xFFFF#32).setWidth 16
  selector := selector
  zero := 0#8
  type := type
  offsetHigher := ((address &&& 0xFFFF0000#32) >>> 16).setWidth 16

/-- `set_kern_interrupt`. -/
def setKernInterrupt (intNum : Nat) (address : BitVec 32) (idt : Nat → IdtEntry) :
    Nat → IdtEntry :=
  Function.update idt intNum (idtEntry address KERN_CODE_SEGMENT TYPE_32_INT_GATE)

/-- The vectors `v` for which `irq.s` has an `interrupt_handler_v` and `set_idt` sets the entry. -/
def handledVectors : List Nat :=
  List.range 9 ++ [10, 11, 12, 13, 14, 16, 17, 18, 19, 20, 30] ++ List.range' 32 224

/-- `set_idt`; `handler v` is the address of `interrupt_handler_v`. The second loop is for the
entries that have not been set, which it tells by the lower half of the offset. -/
def setIdt (handler : Nat → BitVec 32) : Nat → IdtEntry :=
  let idt := handledVectors.foldl (fun idt v => setKernInterrupt v (handler v) idt)
    fun _ => ⟨0#16, 0#16, 0#8, 0#8, 0#16⟩
  (List.range 256).foldl
    (fun idt i => if (idt i).offsetLower = 0#16 then setKernInterrupt i (handler 1) idt
      else idt) idt

/-- A gate as the processor reads it: present, its privilege level, whether it is a 32-bit interrupt
gate, and where it leads. -/
structure Gate where
  present : Bool
  dpl : BitVec 2
  interrupt32 : Bool
  selector : BitVec 16
  offset : BitVec 32
  deriving DecidableEq, Repr

def IdtEntry.gate (e : IdtEntry) : Gate where
  present := e.type.getLsbD 7
  dpl := e.type.extractLsb' 5 2
  interrupt32 := e.type.extractLsb' 0 5 == 0xE#5
  selector := e.selector
  offset := e.offsetHigher ++ e.offsetLower

/-- The vector whose handler the entry of `v` leads to. -/
def entryTarget (handler : Nat → BitVec 32) (v : Nat) : Nat :=
  if v ∈ handledVectors ∧ (handler v).setWidth 16 ≠ 0#16 then v else 1

section Offset

theorem getLsbD_lowMask : ∀ i, i < 32 → (0xFFFF#32).getLsbD i = decide (i < 16) := by decide

theorem getLsbD_highMask : ∀ i, i < 32 → (0xFFFF0000#32).getLsbD i = decide (16 ≤ i) := by decide

theorem setWidth_and_lowMask (a : BitVec 32) : (a &&& 0xFFFF#32).setWidth 16 = a.setWidth 16 := by
  apply BitVec.eq_of_getLsbD_eq
  intro i hi
  simp only [BitVec.getLsbD_setWidth, BitVec.getLsbD_and, getLsbD_lowMask i (by omega), hi,
    decide_true, Bool.and_true]

/-- An offset that is split into its halves is put together again. -/
theorem halves_append (a : BitVec 32) :
    ((a &&& 0xFFFF0000#32) >>> 16).setWidth 16 ++ (a &&& 0xFFFF#32).setWidth 16 = a := by
  apply BitVec.eq_of_getLsbD_eq
  intro i hi
  rw [BitVec.getLsbD_append, setWidth_and_lowMask]
  by_cases hlow : i < 16
  · simp [hlow]
  · have h16 : i - 16 < 16 := by omega
    have hadd : 16 + (i - 16) = i := by omega
    have hle : 16 ≤ i := by omega
    simp [hlow, BitVec.getLsbD_ushiftRight, BitVec.getLsbD_and, h16, hadd, getLsbD_highMask i hi,
      hle]

end Offset

theorem idtEntry_gate (address : BitVec 32) :
    (idtEntry address KERN_CODE_SEGMENT TYPE_32_INT_GATE).gate =
      ⟨true, 0#2, true, KERN_CODE_SEGMENT, address⟩ := by
  simp only [idtEntry, IdtEntry.gate, halves_append]
  rfl

theorem handledVectors_nodup : handledVectors.Nodup := by decide +kernel

/-- The whole table after `set_idt`. -/
theorem setIdt_apply (handler : Nat → BitVec 32) {v : Nat} (hv : v < 256) :
    setIdt handler v =
      idtEntry (handler (entryTarget handler v)) KERN_CODE_SEGMENT TYPE_32_INT_GATE := by
  -- both loops rewrite an entry from what it holds
  have hfirst := foldl_update_apply
    (fun v (_ : IdtEntry) => idtEntry (handler v) KERN_CODE_SEGMENT TYPE_32_INT_GATE)
    handledVectors_nodup (fun _ => ⟨0#16, 0#16, 0#8, 0#8, 0#16⟩) v
  have hstep : ∀ (idt : Nat → IdtEntry) i,
      (if (idt i).offsetLower = 0#16 then setKernInterrupt i (handler 1) idt else idt) =
        Function.update idt i (if (idt i).offsetLower = 0#16 then
          idtEntry (handler 1) KERN_CODE_SEGMENT TYPE_32_INT_GATE else idt i) := by
    intro idt i
    split
    · rfl
    · rw [Function.update_eq_self]
  unfold setIdt
  simp only [hstep]
  rw [foldl_update_apply
    (fun _ e => if e.offsetLower = 0#16 then
      idtEntry (handler 1) KERN_CODE_SEGMENT TYPE_32_INT_GATE else e) List.nodup_range]
  simp only [List.mem_range, hv, if_true]
  simp only [setKernInterrupt, hfirst]
  by_cases hmem : v ∈ handledVectors
  · have hlow : (idtEntry (handler v) KERN_CODE_SEGMENT TYPE_32_INT_GATE).offsetLower =
        (handler v).setWidth 16 := setWidth_and_lowMask _
    simp only [if_pos hmem, hlow]
    rw [entryTarget]
    by_cases h0 : (handler v).setWidth 16 = 0#16
    · rw [if_pos h0, if_neg fun h => h.2 h0]
    · rw [if_neg h0, if_pos ⟨hmem, h0⟩]
  · simp only [if_neg hmem]
    rw [if_true, entryTarget, if_neg fun h => hmem h.1]

/-! ## The handlers (`irq.s`) -/

namespace Machine

open ByteMem

/-- The handlers made by `error_code_interrupt_handler`. -/
def errorCodeHandlers : List Nat := [8, 10, 11, 12, 13, 14, 30]

/-- `interrupt_handler_v` up to the jump. -/
def interruptHandlerPush (v : Nat) : List Instr :=
  if v ∈ errorCodeHandlers then [.pushImm (BitVec.ofNat 32 v)]
  else [.pushImm 0#32, .pushImm (BitVec.ofNat 32 v)]

/-- `common_interrupt_handler` up to the call. -/
def commonSave : List Instr :=
  [.push .eax,
    .push .ebx,
    .push .ecx,
    .push .edx,
    .push .esi,
    .push .edi,
    .push .ebp,
    .mov .eax .esp,
    .add .eax 48#32,
    .push .eax,
    .fromCr .eax .cr3,
    .push .eax,
    .fromCr .eax .cr2,
    .push .eax,
    .fromCr .eax .cr0,
    .push .eax,
    .mov .eax .esp,
    .push .eax]

/-- `common_interrupt_handler` after the call. -/
def commonRestore : List Instr :=
  [.pop .eax,
    .pop .eax,
    .pop .eax,
    .pop .eax,
    .pop .eax,
    .pop .ebp,
    .pop .edi,
    .pop .esi,
    .pop .edx,
    .pop .ecx,
    .pop .ebx,
    .pop .eax,
    .add .esp 8#32,
    .iret]

/-- `interrupt_handler_v` with `common_interrupt_handler`. -/
def interruptHandlerCode (v : Nat) : List Instr :=
  interruptHandlerPush v ++ (commonSave ++ .call :: commonRestore)

/-- The vectors for which the processor pushes an error code behind `eip`. -/
def errorCodeVectors : List Nat := [8, 10, 11, 12, 13, 14, 17, 21, 29, 30]

/-- What the processor does on the exception or interrupt with vector `v`. -/
def deliver (v : Nat) (errorCode : BitVec 32) (s : Machine) : Machine :=
  if v ∈ errorCodeVectors then s.interrupt.push errorCode else s.interrupt

/-- The interrupted code goes on as if nothing had happened. -/
structure Resumed (u s : Machine) : Prop where
  eax : u.eax = s.eax
  ebx : u.ebx = s.ebx
  ecx : u.ecx = s.ecx
  edx : u.edx = s.edx
  esi : u.esi = s.esi
  edi : u.edi = s.edi
  ebp : u.ebp = s.ebp
  esp : u.esp = s.esp
  eip : u.eip = s.eip
  cs : u.cs = s.cs
  eflags : u.eflags = s.eflags
  cr0 : u.cr0 = s.cr0
  cr2 : u.cr2 = s.cr2
  cr3 : u.cr3 = s.cr3

/-- `common_interrupt_handler` has been entered in the state `r` with the stack pointer at `b + 48`,
and `u` is its state at the call: the registers are on the stack, and what was there before is still
there. -/
structure Saved (r u : Machine) (b : BitVec 32) : Prop where
  esp : u.esp = b
  ebp : u.mem.load (b + 20#32) = r.ebp
  edi : u.mem.load (b + 24#32) = r.edi
  esi : u.mem.load (b + 28#32) = r.esi
  edx : u.mem.load (b + 32#32) = r.edx
  ecx : u.mem.load (b + 36#32) = r.ecx
  ebx : u.mem.load (b + 40#32) = r.ebx
  eax : u.mem.load (b + 44#32) = r.eax
  above : ∀ j, 48 ≤ j → j < 65536 →
    u.mem.load (b + BitVec.ofNat 32 j) = r.mem.load (b + BitVec.ofNat 32 j)
  cs : u.cs = r.cs
  cr0 : u.cr0 = r.cr0
  cr2 : u.cr2 = r.cr2
  cr3 : u.cr3 = r.cr3

theorem saved_commonSave (callee : Machine → Machine) (r : Machine) {b : BitVec 32}
    (hb : r.esp = b + 48#32) : Saved r (run callee commonSave r) b := by
  generalize hu : run callee commonSave r = u
  simp -implicitDefEqProofs [commonSave, hb, BitVec.add_assoc,
    BitVec.sub_eq_add_neg, -BitVec.add_zero, -add_zero, -add_sub_cancel_right,
    -add_neg_cancel_right] at hu
  subst hu
  constructor
  case above =>
    intro j hj hlt
    simp -implicitDefEqProofs (disch := omega) only [load_store_within]
  all_goals
    simp -implicitDefEqProofs (disch := decide) [-BitVec.add_zero, -add_zero, load_store_within,
      load_store_self]

/-- `common_interrupt_handler` after the call takes the registers from the stack. -/
theorem run_commonRestore (callee : Machine → Machine) (s : Machine) :
    run callee commonRestore s =
      { s with
        eax := s.mem.load (s.esp + 44#32)
        ebx := s.mem.load (s.esp + 40#32)
        ecx := s.mem.load (s.esp + 36#32)
        edx := s.mem.load (s.esp + 32#32)
        esi := s.mem.load (s.esp + 28#32)
        edi := s.mem.load (s.esp + 24#32)
        ebp := s.mem.load (s.esp + 20#32)
        esp := s.esp + 68#32
        eip := s.mem.load (s.esp + 56#32)
        cs := s.mem.load (s.esp + 60#32)
        eflags := s.mem.load (s.esp + 64#32) } := by
  simp -implicitDefEqProofs [commonRestore, BitVec.add_assoc]

/-- The processor when `interrupt_handler_t` calls `interrupt_handler`. -/
def atCall (callee : Machine → Machine) (t : Nat) (s : Machine) : Machine :=
  run callee commonSave (run callee (interruptHandlerPush t) s)

/-- How far the stack has grown when `common_interrupt_handler` starts. -/
def entryDepth (v t : Nat) : BitVec 32 :=
  12#32 + (if v ∈ errorCodeVectors then 4#32 else 0#32) +
    if t ∈ errorCodeHandlers then 4#32 else 8#32

/-- The stack is as deep as the code after the call expects if just one of the processor and the
handler has pushed an error code. -/
theorem entryDepth_eq_iff (v t : Nat) :
    entryDepth v t = 20#32 ↔ (v ∈ errorCodeVectors ↔ t ∈ errorCodeHandlers) := by
  unfold entryDepth
  by_cases hv : v ∈ errorCodeVectors <;> by_cases ht : t ∈ errorCodeHandlers <;> simp [hv, ht]

theorem run_interruptHandlerPush_esp (callee : Machine → Machine) (v t : Nat)
    (errorCode : BitVec 32) (s : Machine) :
    (run callee (interruptHandlerPush t) (deliver v errorCode s)).esp = s.esp - entryDepth v t := by
  unfold entryDepth interruptHandlerPush deliver
  split <;> split <;> simp [interrupt] <;> bv_omega

theorem atCall_esp (callee : Machine → Machine) (v t : Nat) (errorCode : BitVec 32) (s : Machine) :
    (atCall callee t (deliver v errorCode s)).esp = s.esp - entryDepth v t - 48#32 := by
  rw [← run_interruptHandlerPush_esp callee v t errorCode]
  exact (saved_commonSave callee _ (BitVec.sub_add_cancel _ 48#32).symm).esp

/-- `r` is the processor when `common_interrupt_handler` starts: the registers are those of the
interrupted code, and `iret` will find the rest of its state behind the two words that the handler
and the processor have pushed for the vector and the error code. -/
structure Entered (r s : Machine) : Prop where
  eax : r.eax = s.eax
  ebx : r.ebx = s.ebx
  ecx : r.ecx = s.ecx
  edx : r.edx = s.edx
  esi : r.esi = s.esi
  edi : r.edi = s.edi
  ebp : r.ebp = s.ebp
  eip : r.mem.load (r.esp + 8#32) = s.eip
  cs : r.mem.load (r.esp + 12#32) = s.cs
  eflags : r.mem.load (r.esp + 16#32) = s.eflags
  cr0 : r.cr0 = s.cr0
  cr2 : r.cr2 = s.cr2
  cr3 : r.cr3 = s.cr3

theorem entered_interruptHandlerPush (callee : Machine → Machine) {v t : Nat}
    (errorCode : BitVec 32) (s : Machine) (h : v ∈ errorCodeVectors ↔ t ∈ errorCodeHandlers) :
    Entered (run callee (interruptHandlerPush t) (deliver v errorCode s)) s := by
  obtain ⟨b, hb⟩ : ∃ b, s.esp = b + 20#32 := ⟨_, (BitVec.sub_add_cancel _ _).symm⟩
  unfold interruptHandlerPush deliver
  by_cases hv : v ∈ errorCodeVectors
  · rw [if_pos hv, if_pos (h.1 hv)]
    constructor <;>
    simp -implicitDefEqProofs (disch := decide) [interrupt, hb, BitVec.add_assoc,
      BitVec.sub_eq_add_neg, -BitVec.add_zero, -add_zero, -add_sub_cancel_right,
      -add_neg_cancel_right, load_store_within, load_store_self]
  · rw [if_neg hv, if_neg fun ht => hv (h.2 ht)]
    constructor <;>
    simp -implicitDefEqProofs (disch := decide) [interrupt, hb, BitVec.add_assoc,
      BitVec.sub_eq_add_neg, -BitVec.add_zero, -add_zero, -add_sub_cancel_right,
      -add_neg_cancel_right, load_store_within, load_store_self]

theorem run_interruptHandlerCode (callee : Machine → Machine) (t : Nat) (s : Machine) :
    run callee (interruptHandlerCode t) s =
      run callee commonRestore (callee (atCall callee t s)) := by
  rw [interruptHandlerCode, run_append, run_append, run_cons]
  rfl

/-- The region that `interrupt_handler` leaves alone, seen from the stack pointer at its call. -/
theorem Cdecl.load_frame {callee : Machine → Machine} {b : BitVec 32}
    (hc : Cdecl callee b [(b + 4#32, 64)]) {u : Machine} (hu : u.esp = b) {k : Nat} (hk : 4 ≤ k)
    (hle : k ≤ 64) :
    (callee u).mem.load (b + BitVec.ofNat 32 k) = u.mem.load (b + BitVec.ofNat 32 k) := by
  have hsame := hc.mem u hu _ (List.mem_singleton_self _) (k - 4) (by omega)
  have hadd : b + 4#32 + BitVec.ofNat 32 (k - 4) = b + BitVec.ofNat 32 k := by
    rw [BitVec.add_assoc, ← BitVec.ofNat_add, Nat.add_sub_cancel' hk]
  rwa [hadd] at hsame

theorem esp_interruptHandlerCode {callee : Machine → Machine} {t : Nat} {r s : Machine}
    (hr : run callee (interruptHandlerPush t) s = r) {b : BitVec 32} (hb : r.esp = b + 48#32)
    (hc : Cdecl callee b [(b + 4#32, 64)]) :
    (run callee (interruptHandlerCode t) s).esp = r.esp + 20#32 := by
  have hsaved : Saved r (atCall callee t s) b := by
    rw [atCall, hr]
    exact saved_commonSave callee r hb
  rw [run_interruptHandlerCode, run_commonRestore, hc.esp _ hsaved.esp, hsaved.esp, hb,
    BitVec.add_assoc]
  rfl

/-- The code after the call finds what was saved and what the processor pushed, and hence puts the
registers back, if it has been entered as it expects. -/
theorem resumed_interruptHandlerCode {callee : Machine → Machine} {t : Nat} {d r s : Machine}
    (hr : run callee (interruptHandlerPush t) d = r) {b : BitVec 32} (hb : r.esp = b + 48#32)
    (hc : Cdecl callee b [(b + 4#32, 64)]) (hent : Entered r s) (hesp : r.esp = s.esp - 20#32) :
    Resumed (run callee (interruptHandlerCode t) d) s := by
  have hsaved : Saved r (atCall callee t d) b := by
    rw [atCall, hr]
    exact saved_commonSave callee r hb
  have hload := fun k (hk : 4 ≤ k) (hle : k ≤ 64) => hc.load_frame hsaved.esp hk hle
  have hframe : ∀ k, 48 ≤ k → k ≤ 64 →
      (callee (atCall callee t d)).mem.load (b + BitVec.ofNat 32 k) =
        r.mem.load (r.esp + BitVec.ofNat 32 (k - 48)) := by
    intro k hk hle
    have hadd : b + 48#32 + BitVec.ofNat 32 (k - 48) = b + BitVec.ofNat 32 k := by
      rw [BitVec.add_assoc, ← BitVec.ofNat_add, Nat.add_sub_cancel' hk]
    rw [hload k (by omega) hle, hsaved.above k hk (by omega), hb, hadd]
  have hfinal := esp_interruptHandlerCode hr hb hc
  rw [run_interruptHandlerCode, run_commonRestore] at hfinal ⊢
  rw [hc.esp _ hsaved.esp, hsaved.esp] at hfinal ⊢
  constructor
  case esp => rw [hfinal, hesp, BitVec.sub_add_cancel]
  case eax => exact (hload 44 (by decide) (by decide)).trans (hsaved.eax.trans hent.eax)
  case ebx => exact (hload 40 (by decide) (by decide)).trans (hsaved.ebx.trans hent.ebx)
  case ecx => exact (hload 36 (by decide) (by decide)).trans (hsaved.ecx.trans hent.ecx)
  case edx => exact (hload 32 (by decide) (by decide)).trans (hsaved.edx.trans hent.edx)
  case esi => exact (hload 28 (by decide) (by decide)).trans (hsaved.esi.trans hent.esi)
  case edi => exact (hload 24 (by decide) (by decide)).trans (hsaved.edi.trans hent.edi)
  case ebp => exact (hload 20 (by decide) (by decide)).trans (hsaved.ebp.trans hent.ebp)
  case eip => exact (hframe 56 (by decide) (by decide)).trans hent.eip
  case cs => exact (hframe 60 (by decide) (by decide)).trans hent.cs
  case eflags => exact (hframe 64 (by decide) (by decide)).trans hent.eflags
  case cr0 => exact (hc.cr0 _ hsaved.esp).trans (hsaved.cr0.trans hent.cr0)
  case cr2 => exact (hc.cr2 _ hsaved.esp).trans (hsaved.cr2.trans hent.cr2)
  case cr3 => exact (hc.cr3 _ hsaved.esp).trans (hsaved.cr3.trans hent.cr3)

/-- Where the error codes fit: not for the vectors `17`, `21` and `29`, which get an error code and
have no handler that expects one, nor for a handler that `set_idt` has replaced. -/
theorem errorCode_fits_iff (handler : Nat → BitVec 32) (v : Nat) :
    (v ∈ errorCodeVectors ↔ entryTarget handler v ∈ errorCodeHandlers) ↔
      v ∉ [17, 21, 29] ∧ (v ∈ errorCodeHandlers → (handler v).setWidth 16 ≠ 0#16) := by
  have hone : 1 ∉ errorCodeHandlers := by decide
  have hhandled : ∀ w ∈ errorCodeHandlers, w ∈ handledVectors := by decide
  have hvectors : v ∈ errorCodeVectors ↔ v ∈ errorCodeHandlers ∨ v ∈ [17, 21, 29] := by
    simp only [errorCodeVectors, errorCodeHandlers, List.mem_cons, List.not_mem_nil, or_false]
    omega
  have hapart : v ∈ errorCodeHandlers → v ∉ [17, 21, 29] := by
    have hall : ∀ w ∈ errorCodeHandlers, w ∉ [17, 21, 29] := by decide
    exact hall v
  rw [hvectors, entryTarget]
  by_cases hv : v ∈ errorCodeHandlers
  · by_cases hlow : (handler v).setWidth 16 = 0#16
    · rw [if_neg fun h => h.2 hlow]
      exact ⟨fun h => absurd (h.1 (Or.inl hv)) hone, fun h => absurd hlow (h.2 hv)⟩
    · rw [if_pos ⟨hhandled v hv, hlow⟩]
      exact ⟨fun _ => ⟨hapart hv, fun _ => hlow⟩, fun _ => ⟨fun _ => hv, Or.inl⟩⟩
  · have htarget : (if v ∈ handledVectors ∧ (handler v).setWidth 16 ≠ 0#16 then v else 1) ∉
        errorCodeHandlers := by
      split
      · exact hv
      · exact hone
    constructor
    · exact fun h => ⟨fun h17 => htarget (h.1 (Or.inr h17)), fun h' => absurd h' hv⟩
    · exact fun h => ⟨fun h' => (h'.elim hv h.1).elim, fun h' => absurd h' htarget⟩

/-- **Interrupts are transparent, except where the error codes do not fit.** Every entry of the
table that `set_idt` fills is an interrupt gate of the kernel to the handler `entryTarget`. Whatever
was interrupted, and whatever a compiled `interrupt_handler` that returns does within the calling
convention, the interrupted code goes on with all its registers, its flags, its stack and its
address space, with two exceptions: the vectors `17`, `21` and `29`, and a handler with an error
code that starts at a multiple of 64 KiB, which `set_idt` takes for one that is missing. -/
theorem interrupt_transparent_iff (handler : Nat → BitVec 32) (callee : Machine → Machine) {v : Nat}
    (hv : v < 256) (errorCode : BitVec 32) (s : Machine) {b : BitVec 32}
    (hb : (atCall callee (entryTarget handler v) (deliver v errorCode s)).esp = b)
    (hc : Cdecl callee b [(b + 4#32, 64)]) :
    (setIdt handler v).gate =
        ⟨true, 0#2, true, KERN_CODE_SEGMENT, handler (entryTarget handler v)⟩ ∧
      (Resumed (run callee (interruptHandlerCode (entryTarget handler v))
        (deliver v errorCode s)) s ↔
        v ∉ [17, 21, 29] ∧ (v ∈ errorCodeHandlers → (handler v).setWidth 16 ≠ 0#16)) := by
  refine ⟨?_, ?_⟩
  · rw [setIdt_apply handler hv, idtEntry_gate]
  rw [← errorCode_fits_iff]
  generalize entryTarget handler v = t at hb ⊢
  generalize hr : run callee (interruptHandlerPush t) (deliver v errorCode s) = r
  have hdepth : r.esp = s.esp - entryDepth v t := by
    rw [← hr, run_interruptHandlerPush_esp]
  have hentry : r.esp = b + 48#32 := by
    rw [atCall_esp, ← hdepth] at hb
    rw [← hb, BitVec.sub_add_cancel]
  constructor
  · intro hres
    rw [← entryDepth_eq_iff]
    have hesp := (esp_interruptHandlerCode hr hentry hc).symm.trans hres.esp
    rw [hdepth] at hesp
    bv_omega
  · intro hmatch
    rw [(entryDepth_eq_iff v t).2 hmatch] at hdepth
    have hent : Entered r s := hr ▸ entered_interruptHandlerPush callee errorCode s hmatch
    exact resumed_interruptHandlerCode hr hentry hc hent hdepth

/-- The timer interrupt of a running thread goes unnoticed, an alignment check does not. -/
theorem interrupt_transparent_two :
    Resumed (run unlock (interruptHandlerCode 252) (deliver 252 0#32 (running 5#32 0x202#32)))
        (running 5#32 0x202#32) ∧
      ¬ Resumed (run unlock (interruptHandlerCode 17) (deliver 17 0#32 (running 5#32 0x202#32)))
        (running 5#32 0x202#32) := by
  have htarget : ∀ v ∈ [17, 252],
      entryTarget (fun v => 0xC0101000#32 + BitVec.ofNat 32 (16 * v)) v = v := by decide +kernel
  have h252 := (interrupt_transparent_iff (fun v => 0xC0101000#32 + BitVec.ofNat 32 (16 * v)) unlock
    (v := 252) (by decide) 0#32 (running 5#32 0x202#32) (b := 0xC0300FBC#32)
    (by rw [atCall_esp]; decide +kernel)
    (unlock_cdecl (by decide +kernel))).2
  have h17 := (interrupt_transparent_iff (fun v => 0xC0101000#32 + BitVec.ofNat 32 (16 * v)) unlock
    (v := 17) (by decide) 0#32 (running 5#32 0x202#32) (b := 0xC0300FB8#32)
    (by rw [atCall_esp]; decide +kernel)
    (unlock_cdecl (by decide +kernel))).2
  rw [htarget 252 (by decide)] at h252
  rw [htarget 17 (by decide)] at h17
  exact ⟨h252.2 (by decide +kernel), fun h => (h17.1 h).1 (by decide)⟩

end Machine

end NowOS

import NowOS.Arch.Machine

set_option autoImplicit false

/-! # Switching threads (`arch/thread_switch.s`, `arch/irq.s`)

The routines of the source, instruction by instruction. -/

namespace NowOS

namespace Machine

/-! ## Offsets into `cpu_state_t`, `int_state_t` and the prepared stack -/

@[simp] def cpuCr0 : BitVec 32 := 0#32
@[simp] def cpuCr2 : BitVec 32 := 4#32
@[simp] def cpuCr3 : BitVec 32 := 8#32
@[simp] def cpuEflags : BitVec 32 := 12#32
@[simp] def cpuEip : BitVec 32 := 16#32
@[simp] def cpuEsp : BitVec 32 := 20#32
@[simp] def cpuEbp : BitVec 32 := 24#32
@[simp] def cpuEdi : BitVec 32 := 28#32
@[simp] def cpuEsi : BitVec 32 := 32#32
@[simp] def cpuEdx : BitVec 32 := 36#32
@[simp] def cpuEcx : BitVec 32 := 40#32
@[simp] def cpuEbx : BitVec 32 := 44#32
@[simp] def cpuEax : BitVec 32 := 48#32

@[simp] def intCr0 : BitVec 32 := 0#32
@[simp] def intCr2 : BitVec 32 := 4#32
@[simp] def intCr3 : BitVec 32 := 8#32
@[simp] def intEsp : BitVec 32 := 12#32
@[simp] def intEbp : BitVec 32 := 16#32
@[simp] def intEdi : BitVec 32 := 20#32
@[simp] def intEsi : BitVec 32 := 24#32
@[simp] def intEdx : BitVec 32 := 28#32
@[simp] def intEcx : BitVec 32 := 32#32
@[simp] def intEbx : BitVec 32 := 36#32
@[simp] def intEax : BitVec 32 := 40#32
@[simp] def intEip : BitVec 32 := 52#32
@[simp] def intCs : BitVec 32 := 56#32
@[simp] def intEflags : BitVec 32 := 60#32

@[simp] def threadPrepEflags : BitVec 32 := -4#32
@[simp] def threadPrepCs : BitVec 32 := -8#32
@[simp] def threadPrepEip : BitVec 32 := -12#32
@[simp] def threadPrepEax : BitVec 32 := -16#32
@[simp] def threadPrepEbx : BitVec 32 := -20#32
@[simp] def threadPrepEcx : BitVec 32 := -24#32
@[simp] def threadPrepEdx : BitVec 32 := -28#32

/-! ## The routines -/

/-- `thread_switch_sync` up to the call of `scheduler_leave_and_queue`. -/
def threadSwitchSyncSave : List Instr :=
  [.cli,
    .load .eax .esp 4#32,
    .load .ebx .esp 8#32,
    .mov .ecx .esp,
    .add .ecx 4#32,
    .store .eax cpuEsp .ecx,
    .store .eax cpuEbp .ebp,
    .mov .ecx .esp,
    .load .edx .esp 0#32,
    .store .eax cpuEip .edx,
    .push .eax]

/-- `thread_switch_sync` after the call. -/
def threadSwitchSyncRestore : List Instr :=
  [.add .esp 4#32,
    .load .eax .esp 4#32,
    .load .ebx .esp 8#32,
    .load .esp .ebx cpuEsp,
    .load .eax .ebx cpuEip,
    .push .eax,
    .load .eax .ebx cpuEax,
    .push .eax,
    .load .eax .ebx cpuEbx,
    .push .eax,
    .load .eax .ebx cpuEcx,
    .push .eax,
    .load .eax .ebx cpuEdx,
    .push .eax,
    .load .esi .ebx cpuEsi,
    .load .edi .ebx cpuEdi,
    .load .ebp .ebx cpuEbp,
    .load .eax .ebx cpuCr0,
    .toCr .cr0 .eax,
    .load .eax .ebx cpuCr2,
    .toCr .cr2 .eax,
    .fromCr .eax .cr3,
    .load .ebx .ebx cpuCr3,
    .cmp .eax .ebx,
    .jeOver (.toCr .cr3 .ebx),
    .pop .edx,
    .pop .ecx,
    .pop .ebx,
    .pop .eax,
    .sti,
    .ret]

/-- `thread_switch_sync`. -/
def threadSwitchSync : List Instr := threadSwitchSyncSave ++ .call :: threadSwitchSyncRestore

/-- `thread_switch_async` up to the call of `scheduler_async_leave`. -/
def threadSwitchAsyncPrep : List Instr :=
  [.load .eax .esp 4#32,
    .load .ebx .esp 8#32,
    .load .ecx .esp 12#32,
    .load .edx .ebx cpuEsp,
    .load .esi .ecx intEflags,
    .store .edx threadPrepEflags .esi,
    .load .esi .ecx intCs,
    .store .edx threadPrepCs .esi]

/-- `thread_switch_async` after the call. -/
def threadSwitchAsyncRestore : List Instr :=
  [.load .eax .esp 4#32,
    .load .ebx .esp 8#32,
    .load .ecx .esp 12#32,
    .load .edx .ebx cpuEsp,
    .load .esi .ebx cpuEip,
    .store .edx threadPrepEip .esi,
    .load .esi .ebx cpuEax,
    .store .edx threadPrepEax .esi,
    .load .esi .ebx cpuEbx,
    .store .edx threadPrepEbx .esi,
    .load .esi .ebx cpuEcx,
    .store .edx threadPrepEcx .esi,
    .load .esi .ebx cpuEdx,
    .store .edx threadPrepEdx .esi,
    .load .esi .ebx cpuEsi,
    .load .edi .ebx cpuEdi,
    .load .ebp .ebx cpuEbp,
    .load .esi .ebx cpuCr0,
    .toCr .cr0 .esi,
    .load .esi .ebx cpuCr2,
    .toCr .cr2 .esi,
    .fromCr .eax .cr3,
    .load .ebx .ebx cpuCr3,
    .cmp .eax .ebx,
    .jeOver (.toCr .cr3 .ebx),
    .add .edx threadPrepEdx,
    .mov .esp .edx,
    .pop .edx,
    .pop .ecx,
    .pop .ebx,
    .pop .eax,
    .iret]

/-- `thread_switch_async`. -/
def threadSwitchAsync : List Instr := threadSwitchAsyncPrep ++ .call :: threadSwitchAsyncRestore

/-- What the processor does on an interrupt without a change of the privilege level: it pushes
`eflags`, `cs` and `eip`, and an interrupt gate turns interrupts off. -/
def interrupt (s : Machine) : Machine :=
  let s' := ((s.push s.eflags).push s.cs).push s.eip
  { s' with eflags := s.eflags &&& ~~~IF_FLAG }

/-- `interrupt_handler_%1` without an error code, and `common_interrupt_handler` up to the call of
`interrupt_handler`. -/
def commonInterruptHandler (num : BitVec 32) : List Instr :=
  [.pushImm 0#32,
    .pushImm num,
    .push .eax,
    .push .ebx,
    .push .ecx,
    .push .edx,
    .push .esi,
    .push .edi,
    .push .ebp,
    .mov .eax .esp,
    .add .eax 48#32,
    .push .eax,
    .fromCr .eax .cr3,
    .push .eax,
    .fromCr .eax .cr2,
    .push .eax,
    .fromCr .eax .cr0,
    .push .eax,
    .mov .eax .esp,
    .push .eax]

/-- `save_register_state(thread, state)`, on the memory. -/
def saveRegisterState (thread state : BitVec 32) (m : ByteMem) : ByteMem :=
  [(cpuEax, intEax), (cpuEbx, intEbx), (cpuEcx, intEcx), (cpuEdx, intEdx), (cpuEsi, intEsi),
    (cpuEdi, intEdi), (cpuEbp, intEbp), (cpuEsp, intEsp), (cpuEip, intEip),
    (cpuEflags, intEflags), (cpuCr3, intCr3), (cpuCr2, intCr2), (cpuCr0, intCr0)].foldl
    (fun m f => m.store (thread + f.1) (m.load (state + f.2))) m

/-! ## What the routines do -/

section Restore

open ByteMem

/-- The registers of the thread whose `cpu_state_t` is at `t`, as the switch routines load them,
with what they do not load from there: `esi`, the flags, the code segment and the memory. -/
def resumed (m : ByteMem) (t esi eflags cs : BitVec 32) (m' : ByteMem) : Machine where
  eax := m.load (t + cpuEax)
  ebx := m.load (t + cpuEbx)
  ecx := m.load (t + cpuEcx)
  edx := m.load (t + cpuEdx)
  esi := esi
  edi := m.load (t + cpuEdi)
  ebp := m.load (t + cpuEbp)
  esp := m.load (t + cpuEsp)
  eip := m.load (t + cpuEip)
  cs := cs
  eflags := eflags
  cr0 := m.load (t + cpuCr0)
  cr2 := m.load (t + cpuCr2)
  cr3 := m.load (t + cpuCr3)
  mem := m'

/-- The part of both routines that loads `cr3` unless it is the same already. -/
def loadCr3 : List Instr :=
  [.fromCr .eax .cr3, .load .ebx .ebx cpuCr3, .cmp .eax .ebx, .jeOver (.toCr .cr3 .ebx)]

theorem run_loadCr3 (callee : Machine → Machine) (s : Machine) {v : BitVec 32}
    (hv : s.mem.load (s.ebx + cpuCr3) = v) :
    run callee loadCr3 s =
      { s with eax := s.cr3, ebx := v, cr3 := v,
               eflags := withStatus s.eflags (cmpFlags s.cr3 v) } := by
  simp only [cpuCr3] at hv
  simp only [run_cons, run_nil, loadCr3, exec, get, set, getCr, setCr, setStatus, zf,
    withStatus_cmpFlags_zf, hv, cpuCr3]
  split
  case isTrue h => rw [decide_eq_true_eq] at h; simp only [h]
  case isFalse => rfl

/-- `thread_switch_sync` from the return of `scheduler_leave_and_queue` on, with `to_thread` at `t`
and its stack pointer 28 bytes above `p`. -/
theorem run_syncRestore (callee : Machine → Machine) (s : Machine) {t p : BitVec 32}
    (hto : s.mem.load (s.esp + 12#32) = t) (hsp : s.mem.load (t + cpuEsp) = p + 28#32)
    (h : Apart p 28 t 52) :
    ∃ f m', f &&& DF_FLAG = s.eflags &&& DF_FLAG ∧ run callee threadSwitchSyncRestore s =
      resumed s.mem t (s.mem.load (t + cpuEsi))
        (withStatus f (cmpFlags s.cr3 (s.mem.load (t + cpuCr3))) ||| IF_FLAG) s.cs m' := by
  rw [show threadSwitchSyncRestore =
    threadSwitchSyncRestore.take 21 ++ (loadCr3 ++ threadSwitchSyncRestore.drop 25) from rfl,
    run_append, run_append, run_loadCr3 callee _ rfl]
  simp only [cpuEsp] at hsp
  refine ⟨withStatus s.eflags (addFlags s.esp 4#32), ?_, withStatus_and_df _ _, ?_⟩
  rotate_left
  · simp -implicitDefEqProofs (disch := decide)
      [threadSwitchSyncRestore, resumed, hto, hsp, BitVec.add_assoc, BitVec.sub_eq_add_neg,
      -BitVec.add_zero, h.load_store, load_store_within, load_store_self]
    rfl

/-- `thread_switch_async` from the return of `scheduler_async_leave` on. The flags and the code
segment are the two words that were prepared before the call. `esi` is loaded from `to_thread`, and
then it is the register through which `cr0` and `cr2` are loaded. -/
theorem run_asyncRestore (callee : Machine → Machine) (s : Machine) {t p : BitVec 32}
    (hto : s.mem.load (s.esp + 8#32) = t) (hsp : s.mem.load (t + cpuEsp) = p + 28#32)
    (h : Apart p 28 t 52) :
    ∃ m', run callee threadSwitchAsyncRestore s =
      resumed s.mem t (s.mem.load (t + cpuCr2)) (s.mem.load (p + 24#32)) (s.mem.load (p + 20#32))
        m' := by
  rw [show threadSwitchAsyncRestore =
    threadSwitchAsyncRestore.take 21 ++ (loadCr3 ++ threadSwitchAsyncRestore.drop 25) from rfl,
    run_append, run_append, run_loadCr3 callee _ rfl]
  simp only [cpuEsp] at hsp
  refine ⟨?_, ?_⟩
  rotate_left
  · simp -implicitDefEqProofs (disch := decide)
      [threadSwitchAsyncRestore, resumed, hto, hsp, BitVec.add_assoc, -BitVec.add_zero,
      h.load_store, load_store_within, load_store_self]
    rfl

theorem run_syncSave (callee : Machine → Machine) (r : Machine) {f q : BitVec 32}
    (hq : r.esp = q + 4#32) (hfrom : r.mem.load (r.esp + 4#32) = f) (h : Apart f 52 q 16) :
    run callee threadSwitchSyncSave r =
      { r with
        eax := f
        ebx := r.mem.load (r.esp + 8#32)
        ecx := r.esp
        edx := r.mem.load r.esp
        esp := q
        eflags := withStatus (r.eflags &&& ~~~IF_FLAG) (addFlags r.esp 4#32)
        mem := (((r.mem.store (f + cpuEsp) (r.esp + 4#32)).store (f + cpuEbp) r.ebp).store
          (f + cpuEip) (r.mem.load r.esp)).store (q + 0#32) f } := by
  rw [hq] at hfrom
  simp only [BitVec.add_assoc, BitVec.reduceAdd] at hfrom
  simp -implicitDefEqProofs (disch := decide) [threadSwitchSyncSave, hq, hfrom, BitVec.add_assoc,
    BitVec.sub_eq_add_neg, -BitVec.add_zero, -add_zero, -add_sub_cancel_right,
    -add_neg_cancel_right, h.load_store]

theorem run_asyncPrep (callee : Machine → Machine) (r : Machine) {t i p : BitVec 32}
    (hto : r.mem.load (r.esp + 8#32) = t) (hint : r.mem.load (r.esp + 12#32) = i)
    (hsp : r.mem.load (t + cpuEsp) = p + 28#32) (h : Apart p 28 i 64) :
    run callee threadSwitchAsyncPrep r =
      { r with
        eax := r.mem.load (r.esp + 4#32)
        ebx := t
        ecx := i
        edx := p + 28#32
        esi := r.mem.load (i + intCs)
        mem := (r.mem.store (p + 24#32) (r.mem.load (i + intEflags))).store (p + 20#32)
          (r.mem.load (i + intCs)) } := by
  simp only [cpuEsp] at hsp
  simp -implicitDefEqProofs (disch := decide) [threadSwitchAsyncPrep, hto, hint, hsp,
    BitVec.add_assoc, h.load_store]

/-- What is loaded depends on the words at `t` only. -/
theorem resumed_congr {m₁ m₂ : ByteMem} {t : BitVec 32} (h : SameOn t 52 m₁ m₂)
    (esi eflags cs : BitVec 32) (m' : ByteMem) :
    resumed m₂ t esi eflags cs m' = resumed m₁ t esi eflags cs m' := by
  simp only [resumed, cpuEax, cpuEbx, cpuEcx, cpuEdx, cpuEdi, cpuEbp, cpuEsp, cpuEip, cpuCr0,
    cpuCr2, cpuCr3, h 0 (by decide), h 4 (by decide), h 8 (by decide), h 16 (by decide),
    h 20 (by decide), h 24 (by decide), h 28 (by decide), h 36 (by decide), h 40 (by decide),
    h 44 (by decide), h 48 (by decide)]

end Restore

/-! ## A switch, by either routine -/

/-- The routine that resumes a thread. -/
inductive Via
  | sync
  | async
  deriving DecidableEq, Repr

namespace Via

open ByteMem

def routine : Via → List Instr
  | .sync => threadSwitchSync
  | .async => threadSwitchAsync

/-- The stack pointer at the call of the C function. -/
def callEsp : Via → Machine → BitVec 32
  | .sync, r => r.esp - 4#32
  | .async, r => r.esp

/-- The return address and the arguments of the routine. -/
def frameSize : Via → Nat
  | .sync => 12
  | .async => 16

/-- The memory that the C function does not own: the registers of `to_thread`, the frame of the
routine and, for `scheduler_async_leave`, what was put in front of the stack of `to_thread`. -/
def kept : Via → Machine → BitVec 32 → List (BitVec 32 × Nat)
  | .sync, r, t => [(t, 52), (r.esp, 12)]
  | .async, r, t => [(t, 52), (r.esp, 16), (r.mem.load (t + cpuEsp) - 28#32, 28)]

/-- What `esi` is loaded with. -/
def esi : Via → ByteMem → BitVec 32 → BitVec 32
  | .sync, m, t => m.load (t + cpuEsi)
  | .async, m, t => m.load (t + cpuCr2)

end Via

/-- The status flags and the direction flag. -/
def USER_FLAGS : BitVec 32 := STATUS_FLAGS ||| DF_FLAG

/-- The status flags and the direction flag after the routine: `thread_switch_sync` leaves those of
its comparison of `cr3` and the direction flag of the processor, `thread_switch_async` those of the
interrupt frame of `from_thread`. -/
def Via.flags : Via → Machine → BitVec 32 → BitVec 32
  | .sync, r, t =>
      (cmpFlags r.cr3 (r.mem.load (t + cpuCr3)) &&& STATUS_FLAGS) ||| (r.eflags &&& DF_FLAG)
  | .async, r, _ => r.mem.load (r.mem.load (r.esp + 12#32) + intEflags) &&& USER_FLAGS

open ByteMem in
/-- **A call of a switch routine.** In `r` the processor is at the entry of the routine, with
`from_thread` at `f` and `to_thread` at `t`. The thread information blocks, the frame of the
routine and the 28 bytes in front of the stack of `to_thread` do not overlap, and neither does the
interrupt frame of `from_thread` with the latter. The C function follows the calling convention. -/
structure Switch (callee : Machine → Machine) (via : Via) (r : Machine) (f t : BitVec 32) :
    Prop where
  fromThread : r.mem.load (r.esp + 4#32) = f
  toThread : r.mem.load (r.esp + 8#32) = t
  tibs : Apart f 52 t 52
  frame_from : Apart f 52 (r.esp - 4#32) (4 + via.frameSize)
  frame_to : Apart (r.esp - 4#32) (4 + via.frameSize) t 52
  prep_to : Apart (r.mem.load (t + cpuEsp) - 28#32) 28 t 52
  prep_frame : Apart (r.mem.load (t + cpuEsp) - 28#32) 28 (r.esp - 4#32) (4 + via.frameSize)
  prep_int : via = .async →
    Apart (r.mem.load (t + cpuEsp) - 28#32) 28 (r.mem.load (r.esp + 12#32)) 64
  cdecl : Cdecl callee (via.callEsp r) (via.kept r t)

section Switch

open ByteMem

variable {callee : Machine → Machine} {r : Machine} {f t : BitVec 32}

theorem flags_of_sync {fl flags f' : BitVec 32} (h : f' &&& DF_FLAG = fl &&& DF_FLAG) :
    (withStatus f' flags ||| IF_FLAG) &&& USER_FLAGS =
      (flags &&& STATUS_FLAGS) ||| (fl &&& DF_FLAG) := by
  have hstatus : (withStatus f' flags ||| IF_FLAG) &&& STATUS_FLAGS = flags &&& STATUS_FLAGS := by
    rw [BitVec.and_or_distrib_right, withStatus_and_status]
    simp [IF_FLAG, STATUS_FLAGS]
  have hdf : (withStatus f' flags ||| IF_FLAG) &&& DF_FLAG = fl &&& DF_FLAG := by
    rw [BitVec.and_or_distrib_right, withStatus_and_df, h]
    simp [IF_FLAG, DF_FLAG]
  rw [USER_FLAGS, BitVec.and_or_distrib_left, hstatus, hdf]

theorem Switch.resumes_sync (h : Switch callee .sync r f t) :
    ∃ fl cs m', fl &&& USER_FLAGS = Via.sync.flags r t ∧
      run callee Via.sync.routine r = resumed r.mem t (Via.sync.esi r.mem t) fl cs m' := by
  obtain ⟨q, hq⟩ : ∃ q, r.esp = q + 4#32 := ⟨r.esp - 4#32, (BitVec.sub_add_cancel _ _).symm⟩
  have hq' : r.esp - 4#32 = q := by rw [hq, BitVec.add_sub_cancel]
  have hff := h.frame_from
  have hft := h.frame_to
  have hc := h.cdecl
  rw [hq', Via.frameSize] at hff hft
  rw [Via.callEsp, hq'] at hc
  -- the state at the call of `scheduler_leave_and_queue`
  have hsave := run_syncSave callee r hq h.fromThread hff
  generalize hs : run callee threadSwitchSyncSave r = s at hsave
  have hesp : s.esp = q := by rw [hsave]
  have hsame : SameOn t 52 r.mem s.mem := by
    rw [hsave]
    exact (((SameOn.store _ _ h.tibs (by decide)).trans
      (SameOn.store _ _ h.tibs (by decide))).trans
      (SameOn.store _ _ h.tibs (by decide))).trans (SameOn.store _ _ hft (by decide))
  have hto : s.mem.load (q + 12#32) = t := by
    have hto := h.toThread
    rw [hq] at hto
    simp only [BitVec.add_assoc, BitVec.reduceAdd] at hto
    rw [hsave]
    simp (disch := decide) [hff.load_store, load_store_within, -BitVec.add_zero, hto]
  -- the state at its return
  have hkept := hc.mem s hesp
  have hmem : SameOn t 52 r.mem (callee s).mem := hsame.trans (hkept (t, 52) (by simp [Via.kept]))
  have hto' : (callee s).mem.load ((callee s).esp + 12#32) = t := by
    have hframe := hkept (r.esp, 12) (by simp [Via.kept]) 8 (by simp)
    simp only [hq, BitVec.add_assoc, BitVec.reduceAdd] at hframe
    rw [hc.esp s hesp, hesp, hframe, hto]
  obtain ⟨p, hp⟩ : ∃ p, r.mem.load (t + cpuEsp) = p + 28#32 :=
    ⟨_, (BitVec.sub_add_cancel _ _).symm⟩
  have hprep := h.prep_to
  rw [hp, BitVec.add_sub_cancel] at hprep
  obtain ⟨fl, m', hdf, hrun⟩ := run_syncRestore callee (callee s) hto'
    ((hmem 20 (by decide)).trans hp) hprep
  have hcr3 : (callee s).cr3 = r.cr3 := by rw [hc.cr3 s hesp, hsave]
  have hdf' : fl &&& DF_FLAG = r.eflags &&& DF_FLAG := by
    rw [hdf, hc.df s hesp, hsave, withStatus_and_df, BitVec.and_assoc]
    rfl
  rw [resumed_congr hmem, hcr3, cpuCr3, hmem 8 (by decide), cpuEsi, hmem 32 (by decide)] at hrun
  refine ⟨_, (callee s).cs, m', flags_of_sync hdf', ?_⟩
  rw [Via.routine, threadSwitchSync, run_append, run_cons, exec, hs, hrun, Via.esi, cpuEsi, cpuCr3]

theorem Switch.resumes_async (h : Switch callee .async r f t) :
    ∃ fl cs m', fl &&& USER_FLAGS = Via.async.flags r t ∧
      run callee Via.async.routine r = resumed r.mem t (Via.async.esi r.mem t) fl cs m' := by
  obtain ⟨p, hp⟩ : ∃ p, r.mem.load (t + cpuEsp) = p + 28#32 :=
    ⟨_, (BitVec.sub_add_cancel _ _).symm⟩
  have hpt := h.prep_to
  have hpf := h.prep_frame
  have hpi := h.prep_int rfl
  have hc := h.cdecl
  rw [hp, BitVec.add_sub_cancel] at hpt hpf hpi
  rw [Via.callEsp, Via.kept, hp, BitVec.add_sub_cancel] at hc
  -- the state at the call of `scheduler_async_leave`
  have hprep := run_asyncPrep callee r h.toThread rfl hp hpi
  generalize hs : run callee threadSwitchAsyncPrep r = s at hprep
  have hesp : s.esp = r.esp := by rw [hprep]
  have hsame : SameOn t 52 r.mem s.mem := by
    rw [hprep]
    exact (SameOn.store _ _ hpt (by decide)).trans (SameOn.store _ _ hpt (by decide))
  have hto : s.mem.load (r.esp + 8#32) = t := by
    obtain ⟨q, hq⟩ : ∃ q, r.esp = q + 4#32 := ⟨_, (BitVec.sub_add_cancel _ _).symm⟩
    have hto := h.toThread
    rw [hq, BitVec.add_sub_cancel] at hpf
    rw [hq] at hto ⊢
    simp only [BitVec.add_assoc, BitVec.reduceAdd] at hto ⊢
    rw [hprep]
    simp (disch := decide) only [hpf.load_store, hto]
  have hflags : s.mem.load (p + 24#32) =
      r.mem.load (r.mem.load (r.esp + 12#32) + intEflags) := by
    rw [hprep]
    simp (disch := decide) only [load_store_within, load_store_self]
  -- the state at its return
  have hkept := hc.mem s hesp
  have hmem : SameOn t 52 r.mem (callee s).mem := hsame.trans (hkept (t, 52) (by simp))
  have hto' : (callee s).mem.load ((callee s).esp + 8#32) = t := by
    rw [hc.esp s hesp, hesp, hkept (r.esp, 16) (by simp) 8 (by simp), hto]
  obtain ⟨m', hrun⟩ := run_asyncRestore callee (callee s) hto' ((hmem 20 (by decide)).trans hp) hpt
  rw [resumed_congr hmem, hkept (p, 28) (by simp) 24 (by simp), hflags, cpuCr2,
    hmem 4 (by decide)] at hrun
  refine ⟨_, (callee s).mem.load (p + 20#32), m', rfl, ?_⟩
  rw [Via.routine, threadSwitchAsync, run_append, run_cons, exec, hs, hrun, Via.esi, cpuCr2]

/-- **What a switch does.** The processor goes on with the registers of `to_thread`. -/
theorem Switch.resumes {via : Via} (h : Switch callee via r f t) :
    ∃ fl cs m', fl &&& USER_FLAGS = via.flags r t ∧
      run callee via.routine r = resumed r.mem t (via.esi r.mem t) fl cs m' := by
  cases via with
  | sync => exact h.resumes_sync
  | async => exact h.resumes_async

end Switch

end Machine

end NowOS

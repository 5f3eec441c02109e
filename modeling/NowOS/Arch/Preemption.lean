import NowOS.Arch.ThreadSwitch

set_option autoImplicit false

/-! # What a thread finds when it is resumed

A thread leaves the processor in two ways. A timer interrupt preempts it: `common_interrupt_handler`
builds an `int_state_t` on its stack and `save_register_state` copies that into its `cpu_state_t`
(`Preempted`). Or it yields: `thread_switch_sync` saves `esp`, `ebp` and the return address and
nothing else (`Yielded`). Either way one of the two switch routines resumes it, called by another
thread in any state (`Switch`). The results say which of its registers and flags come back. -/

namespace NowOS

namespace Machine

open ByteMem

/-! ## The context of a preempted thread -/

/-- The `cpu_state_t` at `t` holds the registers of `s`. -/
structure Holds (m : ByteMem) (t : BitVec 32) (s : Machine) : Prop where
  cr0 : m.load (t + cpuCr0) = s.cr0
  cr2 : m.load (t + cpuCr2) = s.cr2
  cr3 : m.load (t + cpuCr3) = s.cr3
  eflags : m.load (t + cpuEflags) = s.eflags
  eip : m.load (t + cpuEip) = s.eip
  esp : m.load (t + cpuEsp) = s.esp
  ebp : m.load (t + cpuEbp) = s.ebp
  edi : m.load (t + cpuEdi) = s.edi
  esi : m.load (t + cpuEsi) = s.esi
  edx : m.load (t + cpuEdx) = s.edx
  ecx : m.load (t + cpuEcx) = s.ecx
  ebx : m.load (t + cpuEbx) = s.ebx
  eax : m.load (t + cpuEax) = s.eax

/-- The `int_state_t` at `q` holds the registers of `s`. -/
structure Frame (m : ByteMem) (q : BitVec 32) (s : Machine) : Prop where
  cr0 : m.load (q + intCr0) = s.cr0
  cr2 : m.load (q + intCr2) = s.cr2
  cr3 : m.load (q + intCr3) = s.cr3
  esp : m.load (q + intEsp) = s.esp
  ebp : m.load (q + intEbp) = s.ebp
  edi : m.load (q + intEdi) = s.edi
  esi : m.load (q + intEsi) = s.esi
  edx : m.load (q + intEdx) = s.edx
  ecx : m.load (q + intEcx) = s.ecx
  ebx : m.load (q + intEbx) = s.ebx
  eax : m.load (q + intEax) = s.eax
  eip : m.load (q + intEip) = s.eip
  cs : m.load (q + intCs) = s.cs
  eflags : m.load (q + intEflags) = s.eflags

theorem Holds.congr {m m' : ByteMem} {t : BitVec 32} {s : Machine} (h : Holds m t s)
    (hm : SameOn t 52 m m') : Holds m' t s where
  cr0 := (hm 0 (by decide)).trans h.cr0
  cr2 := (hm 4 (by decide)).trans h.cr2
  cr3 := (hm 8 (by decide)).trans h.cr3
  eflags := (hm 12 (by decide)).trans h.eflags
  eip := (hm 16 (by decide)).trans h.eip
  esp := (hm 20 (by decide)).trans h.esp
  ebp := (hm 24 (by decide)).trans h.ebp
  edi := (hm 28 (by decide)).trans h.edi
  esi := (hm 32 (by decide)).trans h.esi
  edx := (hm 36 (by decide)).trans h.edx
  ecx := (hm 40 (by decide)).trans h.ecx
  ebx := (hm 44 (by decide)).trans h.ebx
  eax := (hm 48 (by decide)).trans h.eax

theorem Frame.congr {m m' : ByteMem} {q : BitVec 32} {s : Machine} (h : Frame m q s)
    (hm : SameOn q 64 m m') : Frame m' q s where
  cr0 := (hm 0 (by decide)).trans h.cr0
  cr2 := (hm 4 (by decide)).trans h.cr2
  cr3 := (hm 8 (by decide)).trans h.cr3
  esp := (hm 12 (by decide)).trans h.esp
  ebp := (hm 16 (by decide)).trans h.ebp
  edi := (hm 20 (by decide)).trans h.edi
  esi := (hm 24 (by decide)).trans h.esi
  edx := (hm 28 (by decide)).trans h.edx
  ecx := (hm 32 (by decide)).trans h.ecx
  ebx := (hm 36 (by decide)).trans h.ebx
  eax := (hm 40 (by decide)).trans h.eax
  eip := (hm 52 (by decide)).trans h.eip
  cs := (hm 56 (by decide)).trans h.cs
  eflags := (hm 60 (by decide)).trans h.eflags

/-- `common_interrupt_handler` builds an `int_state_t` with the registers at the interrupt and
pushes its address. -/
theorem interrupt_frame (callee : Machine → Machine) (num : BitVec 32) (s : Machine) :
    (run callee (commonInterruptHandler num) s.interrupt).top = s.esp - 64#32 ∧
      Frame (run callee (commonInterruptHandler num) s.interrupt).mem (s.esp - 64#32) s := by
  obtain ⟨b, hb⟩ : ∃ b, s.esp = b + 68#32 := ⟨_, (BitVec.sub_add_cancel _ _).symm⟩
  generalize hu : run callee (commonInterruptHandler num) s.interrupt = u
  simp -implicitDefEqProofs [commonInterruptHandler, interrupt, hb, BitVec.add_assoc,
    BitVec.sub_eq_add_neg, -BitVec.add_zero, -add_zero, -add_sub_cancel_right,
    -add_neg_cancel_right] at hu
  subst hu
  refine ⟨?_, ?_⟩
  · simp -implicitDefEqProofs [hb, BitVec.add_assoc, BitVec.sub_eq_add_neg, load_store_self]
  · constructor <;>
    simp -implicitDefEqProofs (disch := decide) [hb, BitVec.add_assoc, BitVec.sub_eq_add_neg,
      -BitVec.add_zero, -add_zero, -add_sub_cancel_right, -add_neg_cancel_right, load_store_within,
      load_store_self]

/-- `save_register_state` copies the registers of the frame. -/
theorem saveRegisterState_holds {m : ByteMem} {t q : BitVec 32} {s : Machine} (h : Frame m q s)
    (htq : Apart t 52 q 64) : Holds (saveRegisterState t q m) t s := by
  generalize hm : saveRegisterState t q m = m'
  simp -implicitDefEqProofs (disch := decide) [saveRegisterState, htq.load_store,
    -BitVec.add_zero] at hm
  subst hm
  constructor <;>
  simp -implicitDefEqProofs (disch := decide) [load_store_within, load_store_self, -BitVec.add_zero]
  exacts [h.cr0, h.cr2, h.cr3, h.eflags, h.eip, h.esp, h.ebp, h.edi, h.esi, h.edx, h.ecx, h.ebx,
    h.eax]

/-- The processor when `common_interrupt_handler` calls `interrupt_handler`. -/
def interrupted (num : BitVec 32) (s : Machine) : Machine :=
  run id (commonInterruptHandler num) s.interrupt

/-- **A preempted thread.** The interrupt `num` hit the thread at `t` in the state `s`. The compiled
handler left the frame alone up to `save_register_state`, and since then nobody has written to the
registers of the thread: in `m` they are as they were saved. -/
structure Preempted (s : Machine) (num t : BitVec 32) (m : ByteMem) : Prop where
  apart : Apart t 52 (s.esp - 64#32) 64
  saved : ∃ m₁, SameOn (interrupted num s).top 64 (interrupted num s).mem m₁ ∧
    SameOn t 52 (saveRegisterState t (interrupted num s).top m₁) m

theorem Preempted.holds {s : Machine} {num t : BitVec 32} {m : ByteMem}
    (h : Preempted s num t m) : Holds m t s := by
  obtain ⟨m₁, hframe, hsaved⟩ := h.saved
  obtain ⟨htop, hint⟩ := interrupt_frame id num s
  rw [interrupted, htop] at hframe hsaved
  exact (saveRegisterState_holds (hint.congr hframe) h.apart).congr hsaved

/-! ## Two threads

Two threads with which the results below are tried out. The thread at `tibT` has its stack pointer
at `0xC0301000` when it is resumed; the one at `tibF` is left. -/

def tibT : BitVec 32 := 0xC0200000#32
def tibF : BitVec 32 := 0xC0200100#32

/-- A compiled function that clears the word of a lock and uses the registers that the calling
convention leaves to it. -/
def unlock (s : Machine) : Machine :=
  { s with
    eax := 0xC0108000#32, ecx := 0#32, edx := 0#32
    mem := s.mem.store (0xC0108000#32 + 0#32) 0#32 }

theorem unlock_cdecl {sp : BitVec 32} {keep : List (BitVec 32 × Nat)}
    (h : ∀ r ∈ keep, Apart 0xC0108000#32 4 r.1 r.2) : Cdecl unlock sp keep where
  ebx _ _ := rfl
  esi _ _ := rfl
  edi _ _ := rfl
  ebp _ _ := rfl
  esp _ _ := rfl
  cs _ _ := rfl
  cr0 _ _ := rfl
  cr2 _ _ := rfl
  cr3 _ _ := rfl
  df _ _ := rfl
  mem _ _ r hr := SameOn.store _ _ (h r hr) (by decide)

/-- The memory with the arguments `tibF`, `tibT` and an interrupt frame in which the flags are
`0x202`. -/
def withArgs (m : ByteMem) : ByteMem :=
  (((m.store 0xC0311004#32 tibF).store 0xC0311008#32 tibT).store 0xC031100C#32 0xC0311100#32).store
    0xC031113C#32 0x202#32

/-- The processor at the entry of a switch routine. -/
def switching (m : ByteMem) : Machine where
  eax := 0#32
  ebx := 0#32
  ecx := 0#32
  edx := 0#32
  esi := 0#32
  edi := 0#32
  ebp := 0xC0311040#32
  esp := 0xC0311000#32
  eip := 0xC0101000#32
  cs := 8#32
  eflags := 2#32
  cr0 := 0x80000011#32
  cr2 := 0#32
  cr3 := 0x10D000#32
  mem := withArgs m

theorem withArgs_sameOn (m : ByteMem) : SameOn tibT 52 m (withArgs m) := by
  intro i hi
  have happart : ∀ a : BitVec 32, Apart a 4 tibT 52 → Apart a 4 (tibT + BitVec.ofNat 32 i) 4 := by
    intro a ha
    have hpart := ha.part 0 4 i 4 (by decide) hi (by decide) (by decide)
    rwa [BitVec.add_zero] at hpart
  rw [withArgs, load_store_apart _ _ (happart _ (by decide +kernel)),
    load_store_apart _ _ (happart _ (by decide +kernel)),
    load_store_apart _ _ (happart _ (by decide +kernel)),
    load_store_apart _ _ (happart _ (by decide +kernel))]

theorem switch_switching (via : Via) {m : ByteMem}
    (hsp : m.load (tibT + cpuEsp) = 0xC0301000#32) :
    Switch unlock via (switching m) tibF tibT := by
  have hsp' : (switching m).mem.load (tibT + cpuEsp) = 0xC0301000#32 :=
    (withArgs_sameOn m 20 (by decide)).trans hsp
  have hint : (switching m).mem.load ((switching m).esp + 12#32) = 0xC0311100#32 := by
    show (withArgs m).load 0xC031100C#32 = _
    rw [withArgs, load_store_apart _ _ (by decide +kernel), load_store_self]
  have hframe : (switching m).esp - 4#32 = 0xC0310FFC#32 := by
    show 0xC0311000#32 - 4#32 = _
    decide +kernel
  constructor
  case fromThread =>
    show (withArgs m).load 0xC0311004#32 = _
    rw [withArgs, load_store_apart _ _ (by decide +kernel),
      load_store_apart _ _ (by decide +kernel), load_store_apart _ _ (by decide +kernel),
      load_store_self]
  case toThread =>
    show (withArgs m).load 0xC0311008#32 = _
    rw [withArgs, load_store_apart _ _ (by decide +kernel),
      load_store_apart _ _ (by decide +kernel), load_store_self]
  case tibs => decide +kernel
  case frame_from => rw [hframe]; cases via <;> decide +kernel
  case frame_to => rw [hframe]; cases via <;> decide +kernel
  case prep_to => rw [hsp']; decide +kernel
  case prep_frame => rw [hsp', hframe]; cases via <;> decide +kernel
  case prep_int => rw [hsp', hint]; intro _; decide +kernel
  case cdecl =>
    have hkept : ∀ k ∈ [(tibT, 52), (0xC0311000#32, 16), (0xC0300FE4#32, 28), (0xC0311000#32, 12)],
        Apart 0xC0108000#32 4 k.1 k.2 := by decide +kernel
    have hprep : 0xC0301000#32 - 28#32 = 0xC0300FE4#32 := by decide +kernel
    apply unlock_cdecl
    intro k hk
    apply hkept
    cases via with
    | sync =>
        rw [Via.kept] at hk
        simp only [List.mem_cons, List.not_mem_nil, or_false] at hk ⊢
        rcases hk with rfl | rfl
        · exact Or.inl rfl
        · exact Or.inr (Or.inr (Or.inr rfl))
    | async =>
        rw [Via.kept, hsp', hprep] at hk
        exact List.mem_append_left [(0xC0311000#32, 12)] hk

/-- The thread at `tibT` when the timer interrupt hits it. -/
def running (esi eflags : BitVec 32) : Machine where
  eax := 1#32
  ebx := 2#32
  ecx := 3#32
  edx := 4#32
  esi := esi
  edi := 6#32
  ebp := 0xC0301040#32
  esp := 0xC0301000#32
  eip := 0xC0101234#32
  cs := 8#32
  eflags := eflags
  cr0 := 0x80000011#32
  cr2 := 0#32
  cr3 := 0x10D000#32
  mem := fun _ => 0#8

/-- The processor when the preempted thread is resumed. -/
def resuming (esi eflags : BitVec 32) : Machine :=
  switching (saveRegisterState tibT (interrupted 32#32 (running esi eflags)).top
    (interrupted 32#32 (running esi eflags)).mem)

theorem preempted_running (esi eflags : BitVec 32) :
    Preempted (running esi eflags) 32#32 tibT (resuming esi eflags).mem where
  apart := by
    show Apart tibT 52 (0xC0301000#32 - 64#32) 64
    decide +kernel
  saved := ⟨_, fun _ _ => rfl, withArgs_sameOn _⟩

theorem switch_resuming (via : Via) (esi eflags : BitVec 32) :
    Switch unlock via (resuming esi eflags) tibF tibT := by
  have hesp := (preempted_running esi eflags).holds.esp
  apply switch_switching
  exact (withArgs_sameOn _ 20 (by decide)).symm.trans hesp

/-! ## Registers -/

/-- The two states agree in the general registers and in the instruction pointer. -/
def SameRegisters (u s : Machine) : Prop :=
  u.eax = s.eax ∧ u.ebx = s.ebx ∧ u.ecx = s.ecx ∧ u.edx = s.edx ∧ u.esi = s.esi ∧ u.edi = s.edi ∧
    u.ebp = s.ebp ∧ u.esp = s.esp ∧ u.eip = s.eip

/-- **Preemption and the general registers.** A preempted thread goes on with the registers it had
at the interrupt exactly if `thread_switch_sync` resumes it or its `esi` happened to be equal to
`cr2`: `thread_switch_async` loads `esi` and then uses it to load `cr0` and `cr2`. -/
theorem preemption_registers {callee : Machine → Machine} {via : Via} {r s : Machine}
    {f t num : BitVec 32} (hp : Preempted s num t r.mem) (hsw : Switch callee via r f t) :
    SameRegisters (run callee via.routine r) s ↔ via = .sync ∨ s.esi = s.cr2 := by
  have h := hp.holds
  obtain ⟨fl, cs, m', -, hrun⟩ := hsw.resumes
  -- all but `esi` come from the saved registers, whichever routine it is
  have hesi : SameRegisters (run callee via.routine r) s ↔ via.esi r.mem t = s.esi := by
    rw [hrun]
    simp only [SameRegisters, resumed, h.eax, h.ebx, h.ecx, h.edx, h.edi, h.ebp, h.esp, h.eip,
      true_and, and_true]
  rw [hesi]
  cases via with
  | sync => simp only [Via.esi, h.esi, true_or]
  | async =>
      rw [Via.esi, h.cr2, eq_comm]
      simp only [reduceCtorEq, false_or]

theorem preemption_registers_resuming :
    SameRegisters (run unlock threadSwitchSync (resuming 5#32 0x246#32)) (running 5#32 0x246#32) ∧
      SameRegisters (run unlock threadSwitchAsync (resuming 0#32 0x246#32))
        (running 0#32 0x246#32) :=
  ⟨(preemption_registers (preempted_running _ _) (switch_resuming .sync _ _)).mpr (Or.inl rfl),
    (preemption_registers (preempted_running _ _) (switch_resuming .async _ _)).mpr (Or.inr rfl)⟩

/-- A thread with 5 in `esi` is preempted, and `thread_switch_async` resumes it with 0 there. -/
theorem preemption_loses_esi :
    Preempted (running 5#32 0x246#32) 32#32 tibT (resuming 5#32 0x246#32).mem ∧
      Switch unlock .async (resuming 5#32 0x246#32) tibF tibT ∧
      (run unlock threadSwitchAsync (resuming 5#32 0x246#32)).esi = 0#32 ∧
      ¬ SameRegisters (run unlock threadSwitchAsync (resuming 5#32 0x246#32))
        (running 5#32 0x246#32) := by
  have hp := preempted_running 5#32 0x246#32
  have hsw := switch_resuming .async 5#32 0x246#32
  obtain ⟨fl, cs, m', -, hrun⟩ := hsw.resumes
  have hesi : (run unlock threadSwitchAsync (resuming 5#32 0x246#32)).esi = 0#32 := by
    rw [← Via.routine, hrun, resumed, Via.esi, hp.holds.cr2, running]
  refine ⟨hp, hsw, hesi, ?_⟩
  intro hsame
  have h := hesi.symm.trans hsame.2.2.2.2.1
  exact absurd h (by rw [running]; decide)

/-! ## Flags -/

/-- **Preemption and the flags.** A preempted thread goes on with its status flags and its direction
flag exactly if they happen to be those of the interrupt frame of the thread from which
`thread_switch_async` switches or, after `thread_switch_sync`, those of the comparison of the two
`cr3` with the direction flag of the thread that is left. Neither routine loads the saved flags. -/
theorem preemption_flags {callee : Machine → Machine} {via : Via} {r s : Machine}
    {f t num : BitVec 32} (hp : Preempted s num t r.mem) (hsw : Switch callee via r f t) :
    (run callee via.routine r).eflags &&& USER_FLAGS = s.eflags &&& USER_FLAGS ↔
      (via = .sync → (cmpFlags r.cr3 s.cr3 &&& STATUS_FLAGS) ||| (r.eflags &&& DF_FLAG) =
        s.eflags &&& USER_FLAGS) ∧
      (via = .async → r.mem.load (r.mem.load (r.esp + 12#32) + intEflags) &&& USER_FLAGS =
        s.eflags &&& USER_FLAGS) := by
  have h := hp.holds
  obtain ⟨fl, cs, m', hfl, hrun⟩ := hsw.resumes
  rw [hrun, resumed, hfl]
  cases via with
  | sync => simp only [Via.flags, h.cr3, true_implies, reduceCtorEq, false_implies, and_true]
  | async => simp only [Via.flags, true_implies, reduceCtorEq, false_implies, true_and]

theorem preemption_flags_resuming :
    (run unlock threadSwitchSync (resuming 5#32 0x246#32)).eflags &&& USER_FLAGS = 0x44#32 ∧
      (run unlock threadSwitchAsync (resuming 5#32 0x202#32)).eflags &&& USER_FLAGS = 0#32 := by
  have hsync := (preemption_flags (preempted_running 5#32 0x246#32)
    (switch_resuming .sync _ _)).mpr
    ⟨fun _ => by decide +kernel, fun h => absurd h (by decide)⟩
  have hasync := (preemption_flags (preempted_running 5#32 0x202#32)
    (switch_resuming .async _ _)).mpr
    ⟨fun h => absurd h (by decide), fun _ => by decide +kernel⟩
  exact ⟨hsync, hasync⟩

/-- A thread is preempted between a comparison and its branch. `thread_switch_async` takes the zero
flag from it, and `thread_switch_sync` gives it one that it did not have. -/
theorem preemption_loses_flags :
    (Preempted (running 5#32 0x246#32) 32#32 tibT (resuming 5#32 0x246#32).mem ∧
      Switch unlock .async (resuming 5#32 0x246#32) tibF tibT ∧
      (run unlock threadSwitchAsync (resuming 5#32 0x246#32)).eflags &&& USER_FLAGS ≠
        (running 5#32 0x246#32).eflags &&& USER_FLAGS) ∧
    Preempted (running 5#32 0x202#32) 32#32 tibT (resuming 5#32 0x202#32).mem ∧
      Switch unlock .sync (resuming 5#32 0x202#32) tibF tibT ∧
      (run unlock threadSwitchSync (resuming 5#32 0x202#32)).eflags &&& USER_FLAGS ≠
        (running 5#32 0x202#32).eflags &&& USER_FLAGS := by
  refine ⟨⟨preempted_running _ _, switch_resuming _ _ _, ?_⟩, preempted_running _ _,
    switch_resuming _ _ _, ?_⟩
  · obtain ⟨fl, cs, m', hfl, hrun⟩ := (switch_resuming .async 5#32 0x246#32).resumes
    rw [← Via.routine, hrun, resumed, hfl]
    decide +kernel
  · obtain ⟨fl, cs, m', hfl, hrun⟩ := (switch_resuming .sync 5#32 0x202#32).resumes
    rw [← Via.routine, hrun, resumed, hfl]
    decide +kernel

/-! ## A yield -/

/-- **A thread that has yielded.** The thread at `t` called `thread_switch_sync` in the state `s`,
and since the routine called `scheduler_leave_and_queue` nobody has written to its registers. Before
the call `scheduler_yield` has stored the control registers, of which `cr2` matters here. -/
structure Yielded (s : Machine) (t : BitVec 32) (m : ByteMem) : Prop where
  fromThread : s.mem.load (s.esp + 4#32) = t
  cr2 : s.mem.load (t + cpuCr2) = s.cr2
  apart : Apart t 52 (s.esp - 4#32) 16
  parked : SameOn t 52 (run id threadSwitchSyncSave s).mem m

/-- Of the registers of the thread, `thread_switch_sync` saves three. The others keep what an
earlier preemption saved, or what they were created with. -/
theorem Yielded.words {s : Machine} {t : BitVec 32} {m : ByteMem} (h : Yielded s t m) :
    m.load (t + cpuEsp) = s.esp + 4#32 ∧ m.load (t + cpuEip) = s.top ∧
      m.load (t + cpuEbp) = s.ebp ∧ m.load (t + cpuEbx) = s.mem.load (t + cpuEbx) ∧
      m.load (t + cpuEdi) = s.mem.load (t + cpuEdi) ∧
      ∀ via : Via, via.esi m t = via.esi s.mem t := by
  obtain ⟨q, hq⟩ : ∃ q, s.esp = q + 4#32 := ⟨_, (BitVec.sub_add_cancel _ _).symm⟩
  have hap := h.apart
  rw [hq, BitVec.add_sub_cancel] at hap
  have hpark := h.parked
  rw [run_syncSave id s hq h.fromThread hap] at hpark
  have hqt := hap.symm
  have hsame : ∀ i, i + 4 ≤ 52 → i + 4 ≤ 16 ∨ 28 ≤ i →
      m.load (t + BitVec.ofNat 32 i) = s.mem.load (t + BitVec.ofNat 32 i) := by
    intro i hi hout
    rw [hpark i hi, hqt.load_store _ _ _ _ (by decide) hi, cpuEip, cpuEbp, cpuEsp,
      load_store_within, load_store_within, load_store_within]
    all_goals omega
  refine ⟨?_, ?_, ?_, hsame 44 (by decide) (by decide), hsame 28 (by decide) (by decide), ?_⟩
  · rw [cpuEsp, hpark 20 (by decide)]
    simp (disch := decide) only [hqt.load_store, load_store_within, load_store_self, cpuEsp,
      cpuEbp, cpuEip]
  · rw [cpuEip, hpark 16 (by decide)]
    simp (disch := decide) only [hqt.load_store, load_store_self, cpuEip, top]
  · rw [cpuEbp, hpark 24 (by decide)]
    simp (disch := decide) only [hqt.load_store, load_store_within, load_store_self, cpuEsp,
      cpuEbp, cpuEip]
  · intro via
    cases via with
    | sync => exact hsame 32 (by decide) (by decide)
    | async => exact hsame 4 (by decide) (by decide)

/-- The call that was made in the state `s` has returned in the state `u`, with the registers that
belong to the caller as they were. -/
def Returned (u s : Machine) : Prop :=
  u.esp = s.esp + 4#32 ∧ u.eip = s.top ∧ u.ebx = s.ebx ∧ u.esi = s.esi ∧ u.edi = s.edi ∧
    u.ebp = s.ebp

/-- **A yield and its caller.** A thread returns from `thread_switch_sync` with the callee-saved
registers of the call exactly if they happened to be in its `cpu_state_t` before the call already;
`esi` has to be equal to `cr2` instead if `thread_switch_async` resumes it. -/
theorem yield_returned {callee : Machine → Machine} {via : Via} {r s : Machine}
    {f t : BitVec 32} (hy : Yielded s t r.mem) (hsw : Switch callee via r f t) :
    Returned (run callee via.routine r) s ↔
      s.mem.load (t + cpuEbx) = s.ebx ∧ s.mem.load (t + cpuEdi) = s.edi ∧
        (via = .sync → s.mem.load (t + cpuEsi) = s.esi) ∧
        (via = .async → s.cr2 = s.esi) := by
  obtain ⟨hesp, heip, hebp, hebx, hedi, hesi⟩ := hy.words
  obtain ⟨fl, cs, m', -, hrun⟩ := hsw.resumes
  rw [hrun]
  simp only [Returned, resumed, hesp, heip, hebp, hebx, hedi, hesi]
  cases via with
  | sync => simp [Via.esi, and_comm]
  | async =>
      rw [Via.esi, hy.cr2]
      simp [and_comm]

/-- The thread at `tibT`, which has never been preempted, when it yields. -/
def yielding (ebx : BitVec 32) : Machine :=
  { running 0#32 0x246#32 with
    ebx := ebx, edi := 0#32, esp := 0xC0300FFC#32
    mem := ByteMem.store (fun _ => 0#8) 0xC0301000#32 tibT }

theorem yielded_yielding (ebx : BitVec 32) :
    Yielded (yielding ebx) tibT
      (switching (run id threadSwitchSyncSave (yielding ebx)).mem).mem where
  fromThread := load_store_self _ _ _
  cr2 := by
    show (ByteMem.store (fun _ => 0#8) 0xC0301000#32 tibT).load (tibT + cpuCr2) = 0#32
    decide +kernel
  apart := by
    show Apart tibT 52 (0xC0300FFC#32 - 4#32) 16
    decide +kernel
  parked := withArgs_sameOn _

theorem switch_yielding (via : Via) (ebx : BitVec 32) :
    Switch unlock via (switching (run id threadSwitchSyncSave (yielding ebx)).mem) tibF tibT := by
  have hesp := (yielded_yielding ebx).words.1
  apply switch_switching
  exact (withArgs_sameOn _ 20 (by decide)).symm.trans hesp

theorem yield_returned_yielding :
    Returned (run unlock threadSwitchAsync
      (switching (run id threadSwitchSyncSave (yielding 0#32)).mem)) (yielding 0#32) :=
  (yield_returned (yielded_yielding 0#32) (switch_yielding .async 0#32)).mpr
    ⟨by decide +kernel, by decide +kernel, fun h => absurd h (by decide),
      fun _ => by decide +kernel⟩

/-- A thread that has never been preempted yields with 2 in `ebx` and comes back with 0 there. -/
theorem yield_loses_ebx :
    Yielded (yielding 2#32) tibT (switching (run id threadSwitchSyncSave (yielding 2#32)).mem).mem ∧
      Switch unlock .sync (switching (run id threadSwitchSyncSave (yielding 2#32)).mem) tibF tibT ∧
      (run unlock threadSwitchSync
        (switching (run id threadSwitchSyncSave (yielding 2#32)).mem)).ebx = 0#32 ∧
      ¬ Returned (run unlock threadSwitchSync
        (switching (run id threadSwitchSyncSave (yielding 2#32)).mem)) (yielding 2#32) := by
  have hy := yielded_yielding 2#32
  have hsw := switch_yielding .sync 2#32
  obtain ⟨fl, cs, m', -, hrun⟩ := hsw.resumes
  have hebx : (run unlock threadSwitchSync
      (switching (run id threadSwitchSyncSave (yielding 2#32)).mem)).ebx = 0#32 := by
    rw [← Via.routine, hrun, resumed, hy.words.2.2.2.1]
    show (yielding 2#32).mem.load (tibT + cpuEbx) = 0#32
    decide +kernel
  refine ⟨hy, hsw, hebx, ?_⟩
  intro hret
  have h := hebx.symm.trans hret.2.2.1
  exact absurd h (by decide +kernel)

end Machine

end NowOS

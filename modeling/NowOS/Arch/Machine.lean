import NowOS.Lib.Memory

set_option autoImplicit false

/-! # The 32-bit x86 instructions of the interrupt and switch routines

The registers, the flags and the memory of one processor, and the instructions that `arch/irq.s`
and `arch/thread_switch.s` use, on 32-bit operands. `mov` does not change the flags; `add` and
`cmp` set the six status flags. A `call` of a C function is a parameter: the function is compiled
code, of which only the calling convention is known. -/

namespace NowOS

/-- The general registers. -/
inductive Reg
  | eax
  | ebx
  | ecx
  | edx
  | esi
  | edi
  | ebp
  | esp
  deriving DecidableEq, Repr

/-- The control registers that the routines use. -/
inductive Cr
  | cr0
  | cr2
  | cr3
  deriving DecidableEq, Repr

/-- The state of a processor. -/
structure Machine where
  eax : BitVec 32
  ebx : BitVec 32
  ecx : BitVec 32
  edx : BitVec 32
  esi : BitVec 32
  edi : BitVec 32
  ebp : BitVec 32
  esp : BitVec 32
  eip : BitVec 32
  cs : BitVec 32
  eflags : BitVec 32
  cr0 : BitVec 32
  cr2 : BitVec 32
  cr3 : BitVec 32
  mem : ByteMem

namespace Machine

variable (s : Machine)

/-! ## Registers and flags -/

@[simp]
def get : Reg → BitVec 32
  | .eax => s.eax
  | .ebx => s.ebx
  | .ecx => s.ecx
  | .edx => s.edx
  | .esi => s.esi
  | .edi => s.edi
  | .ebp => s.ebp
  | .esp => s.esp

@[simp]
def set (r : Reg) (v : BitVec 32) : Machine :=
  match r with
  | .eax => { s with eax := v }
  | .ebx => { s with ebx := v }
  | .ecx => { s with ecx := v }
  | .edx => { s with edx := v }
  | .esi => { s with esi := v }
  | .edi => { s with edi := v }
  | .ebp => { s with ebp := v }
  | .esp => { s with esp := v }

@[simp]
def getCr : Cr → BitVec 32
  | .cr0 => s.cr0
  | .cr2 => s.cr2
  | .cr3 => s.cr3

@[simp]
def setCr (r : Cr) (v : BitVec 32) : Machine :=
  match r with
  | .cr0 => { s with cr0 := v }
  | .cr2 => { s with cr2 := v }
  | .cr3 => { s with cr3 := v }

/-- `CF`, `PF`, `AF`, `ZF`, `SF` and `OF`. -/
def STATUS_FLAGS : BitVec 32 := 0x8D5

/-- The interrupt-enable flag. -/
def IF_FLAG : BitVec 32 := 0x200

/-- The direction flag. -/
def DF_FLAG : BitVec 32 := 0x400

/-- The bit `mask` if `b` holds. -/
def flagIf (b : Bool) (mask : BitVec 32) : BitVec 32 := if b then mask else 0

/-- The parity flag is set if the low byte of the result has an even number of ones. -/
def evenParity (v : BitVec 32) : Bool :=
  !((List.range 8).foldl (fun acc i => acc ^^ v.getLsbD i) false)

/-- The flags that depend on the result only: `PF`, `ZF` and `SF`. -/
def resultFlags (v : BitVec 32) : BitVec 32 :=
  flagIf (evenParity v) 0x4 ||| flagIf (v == 0) 0x40 ||| flagIf v.msb 0x80

/-- The status flags after `a + b`. -/
def addFlags (a b : BitVec 32) : BitVec 32 :=
  resultFlags (a + b) ||| flagIf (decide (2 ^ 32 ≤ a.toNat + b.toNat)) 0x1 |||
    flagIf (decide (16 ≤ a.toNat % 16 + b.toNat % 16)) 0x10 |||
    flagIf (a.msb == b.msb && (a + b).msb != a.msb) 0x800

/-- The status flags after the comparison of `a` with `b`, which are those of `a - b`. -/
def cmpFlags (a b : BitVec 32) : BitVec 32 :=
  resultFlags (a - b) ||| flagIf (decide (a.toNat < b.toNat)) 0x1 |||
    flagIf (decide (a.toNat % 16 < b.toNat % 16)) 0x10 |||
    flagIf (a.msb != b.msb && (a - b).msb != a.msb) 0x800

/-- The flags `f` with the status flags replaced. -/
def withStatus (f flags : BitVec 32) : BitVec 32 :=
  (f &&& ~~~STATUS_FLAGS) ||| (flags &&& STATUS_FLAGS)

@[simp]
def setStatus (flags : BitVec 32) : Machine := { s with eflags := withStatus s.eflags flags }

/-- The zero flag. -/
@[simp]
def zf : Bool := s.eflags.getLsbD 6

/-! ## Instructions -/

/-- `push v`. -/
@[simp]
def push (v : BitVec 32) : Machine :=
  { s with esp := s.esp - 4, mem := s.mem.store (s.esp - 4) v }

/-- The word on top of the stack. -/
@[simp]
def top : BitVec 32 := s.mem.load s.esp

end Machine

/-- The instructions. Operands in memory are a register plus a displacement. -/
inductive Instr
  | mov (dst src : Reg)
  | load (dst base : Reg) (disp : BitVec 32)
  | store (base : Reg) (disp : BitVec 32) (src : Reg)
  | add (dst : Reg) (v : BitVec 32)
  | cmp (a b : Reg)
  | push (src : Reg)
  | pushImm (v : BitVec 32)
  | pop (dst : Reg)
  | fromCr (dst : Reg) (src : Cr)
  | toCr (dst : Cr) (src : Reg)
  | jeOver (skipped : Instr)
  | cli
  | sti
  | call
  | ret
  | iret
  deriving DecidableEq, Repr

namespace Machine

/-- One instruction; `callee` is what a `call` does until it has returned. `jeOver i` is a `je` to
the label behind the instruction `i`. `iret` returns to the same privilege level. -/
@[simp]
def exec (callee : Machine → Machine) : Instr → Machine → Machine
  | .mov dst src, s => s.set dst (s.get src)
  | .load dst base disp, s => s.set dst (s.mem.load (s.get base + disp))
  | .store base disp src, s => { s with mem := s.mem.store (s.get base + disp) (s.get src) }
  | .add dst v, s => (s.setStatus (addFlags (s.get dst) v)).set dst (s.get dst + v)
  | .cmp a b, s => s.setStatus (cmpFlags (s.get a) (s.get b))
  | .push src, s => s.push (s.get src)
  | .pushImm v, s => s.push v
  | .pop dst, s => { s with esp := s.esp + 4 }.set dst s.top
  | .fromCr dst src, s => s.set dst (s.getCr src)
  | .toCr dst src, s => s.setCr dst (s.get src)
  | .jeOver i, s => if s.zf then s else exec callee i s
  | .cli, s => { s with eflags := s.eflags &&& ~~~IF_FLAG }
  | .sti, s => { s with eflags := s.eflags ||| IF_FLAG }
  | .call, s => callee s
  | .ret, s => { s with eip := s.top, esp := s.esp + 4 }
  | .iret, s =>
      { s with
        eip := s.top
        cs := s.mem.load (s.esp + 4)
        eflags := s.mem.load (s.esp + 8)
        esp := s.esp + 12 }

/-- A sequence of instructions. -/
def run (callee : Machine → Machine) (is : List Instr) (s : Machine) : Machine :=
  is.foldl (fun s i => exec callee i s) s

@[simp]
theorem run_nil (callee : Machine → Machine) (s : Machine) : run callee [] s = s := rfl

@[simp]
theorem run_cons (callee : Machine → Machine) (i : Instr) (is : List Instr) (s : Machine) :
    run callee (i :: is) s = run callee is (exec callee i s) := rfl

theorem run_append (callee : Machine → Machine) (is js : List Instr) (s : Machine) :
    run callee (is ++ js) s = run callee js (run callee is s) := List.foldl_append

/-! ## Flags -/

theorem withStatus_and_status (f flags : BitVec 32) :
    withStatus f flags &&& STATUS_FLAGS = flags &&& STATUS_FLAGS := by
  simp only [withStatus, STATUS_FLAGS, BitVec.and_or_distrib_right, BitVec.and_assoc]
  simp

theorem withStatus_and_df (f flags : BitVec 32) :
    withStatus f flags &&& DF_FLAG = f &&& DF_FLAG := by
  simp only [withStatus, STATUS_FLAGS, DF_FLAG, BitVec.and_or_distrib_right, BitVec.and_assoc]
  simp

theorem flagIf_getLsbD (b : Bool) (mask : BitVec 32) (i : Nat) :
    (flagIf b mask).getLsbD i = (b && mask.getLsbD i) := by
  cases b <;> simp [flagIf]

/-- A comparison sets the zero flag exactly if its operands are equal. -/
theorem withStatus_cmpFlags_zf (f a b : BitVec 32) :
    (withStatus f (cmpFlags a b)).getLsbD 6 = decide (a = b) := by
  have hsub : (a - b == 0#32) = decide (a = b) := by
    rw [Bool.eq_iff_iff]
    simp [BitVec.sub_eq_iff_eq_add]
  simp only [withStatus, cmpFlags, resultFlags, STATUS_FLAGS, BitVec.getLsbD_or,
    BitVec.getLsbD_and, BitVec.getLsbD_not, flagIf_getLsbD]
  simp [hsub]

/-! ## Calls -/

/-- **The calling convention.** A compiled C function that is called with the stack pointer `sp`
returns with the callee-saved registers, the stack pointer, the control registers, the code
segment and the direction flag as they were. It leaves the memory alone that is not its own, here
the regions `keep`. -/
structure Cdecl (callee : Machine → Machine) (sp : BitVec 32) (keep : List (BitVec 32 × Nat)) :
    Prop where
  ebx : ∀ s, s.esp = sp → (callee s).ebx = s.ebx
  esi : ∀ s, s.esp = sp → (callee s).esi = s.esi
  edi : ∀ s, s.esp = sp → (callee s).edi = s.edi
  ebp : ∀ s, s.esp = sp → (callee s).ebp = s.ebp
  esp : ∀ s, s.esp = sp → (callee s).esp = s.esp
  cs : ∀ s, s.esp = sp → (callee s).cs = s.cs
  cr0 : ∀ s, s.esp = sp → (callee s).cr0 = s.cr0
  cr2 : ∀ s, s.esp = sp → (callee s).cr2 = s.cr2
  cr3 : ∀ s, s.esp = sp → (callee s).cr3 = s.cr3
  df : ∀ s, s.esp = sp → (callee s).eflags &&& DF_FLAG = s.eflags &&& DF_FLAG
  mem : ∀ s, s.esp = sp → ∀ r ∈ keep, ByteMem.SameOn r.1 r.2 s.mem (callee s).mem

end Machine

end NowOS

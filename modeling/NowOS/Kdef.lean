import NowOS.Lib.Word32

set_option autoImplicit false

/-! # Constants and macros of `kdef.h`, and the memory layout of the kernel image

The alignment macros work on `uint32_t` values, so they wrap around like every other operation
on them. The addresses of the heaps are labels of `boot/boot.s`; the linker script
(`boot/linker.ld`) chooses where the section they are in begins, which is the one parameter of
`Layout`. -/

namespace NowOS

def PAGE_SIZE : Nat := 4096

def KERN_VIRTUAL_ADDR : Nat := 0xC0000000

def MAX_CPU_COUNT : Nat := 8

def THREAD_STACK_SIZE : Nat := 1024

/-- Why a call does not return: `PANIC` with its text, or a loop that never ends. -/
inductive Stop
  | panic (msg : String)
  | spin
  deriving DecidableEq, Repr

section Memory

variable (mem : Nat → UInt8)

/-- The byte at an address, which is a `uint32_t`. -/
def byteAt (a : Nat) : UInt8 := mem (a % W32)

/-- A `uint32_t` in memory, which is little-endian. -/
def wordAt (a : Nat) : Nat :=
  (byteAt mem a).toNat + 256 * (byteAt mem (a + 1)).toNat + 65536 * (byteAt mem (a + 2)).toNat
    + 16777216 * (byteAt mem (a + 3)).toNat

theorem wordAt_lt (a : Nat) : wordAt mem a < W32 := by
  have h₀ := (byteAt mem a).toNat_lt
  have h₁ := (byteAt mem (a + 1)).toNat_lt
  have h₂ := (byteAt mem (a + 2)).toNat_lt
  have h₃ := (byteAt mem (a + 3)).toNat_lt
  unfold wordAt W32
  omega

theorem byteAt_mod (a k : Nat) : byteAt mem (a % W32 + k) = byteAt mem (a + k) := by
  unfold byteAt
  rw [Nat.mod_add_mod]

end Memory

/-- `KB(x)`. -/
def KB (x : Nat) : Nat := 1024 * x

/-- `IS_ALIGNED(x, size)`. -/
def isAligned (x size : Nat) : Bool := x % size == 0

/-- `ROUND_DOWN(x, size)`. -/
def roundDown (x size : Nat) : Nat := sub32 x (x % size)

/-- `ROUND_UP(x, size)`. -/
def roundUp (x size : Nat) : Nat :=
  if isAligned x size then x else add32 x (size - x % size)

/-- `ALIGN_UP(x, size)`. -/
def alignUp (x size : Nat) : Nat := roundUp x size

/-- `ALIGN_DOWN(x, size)`, which in the source first adds `size - 1`. -/
def alignDown (x size : Nat) : Nat := roundDown (sub32 (add32 x size) 1) size

theorem alignUp_of_aligned {x size : Nat} (h : x % size = 0) : alignUp x size = x := by
  simp [alignUp, roundUp, isAligned, h]

theorem alignUp_lt {x : Nat} (hx : x < W32) (size : Nat) : alignUp x size < W32 := by
  unfold alignUp roundUp
  split
  · exact hx
  · exact add32_lt _ _

/-- The next multiple of `size` above `x`. -/
theorem add_sub_mod {size : Nat} (hs : 0 < size) (x : Nat) :
    x + (size - x % size) = size * (x / size + 1) := by
  have hlt : x % size < size := Nat.mod_lt _ hs
  have hdiv := Nat.div_add_mod x size
  rw [Nat.mul_add, Nat.mul_one]
  omega

/-- Without wrap-around, `ALIGN_UP` moves up to the next multiple, by less than `size`. -/
theorem alignUp_spec {x size : Nat} (hs : 0 < size) (h : x + size ≤ W32) :
    x ≤ alignUp x size ∧ alignUp x size < x + size ∧ alignUp x size % size = 0 := by
  unfold alignUp roundUp isAligned
  by_cases hx : x % size = 0
  · simp [hx, hs]
  · have hlt : x % size < size := Nat.mod_lt _ hs
    simp only [beq_iff_eq, hx, if_false]
    rw [add32_of_lt (by omega)]
    refine ⟨by omega, by omega, ?_⟩
    rw [add_sub_mod hs, Nat.mul_mod_right]

/-- With or without wrap-around, `ALIGN_UP` gives a multiple of every size that divides `2^32`. -/
theorem alignUp_mod {size : Nat} (hs : size ∣ W32) (x : Nat) : alignUp x size % size = 0 := by
  unfold alignUp roundUp isAligned
  by_cases hx : x % size = 0
  · simp [hx]
  · simp only [beq_iff_eq, hx, if_false]
    have hpos : 0 < size := Nat.pos_of_dvd_of_pos hs (by decide)
    rw [add32, add_sub_mod hpos, Nat.mod_mod_of_dvd _ hs, Nat.mul_mod_right]

/-- Rounding a word to a multiple of four only wraps around in the last three words. -/
theorem alignUp_four {n : Nat} (h : n ≤ 0xFFFFFFFC) :
    n ≤ alignUp n 4 ∧ alignUp n 4 < n + 4 ∧ alignUp n 4 % 4 = 0 :=
  alignUp_spec (by decide) (by unfold W32; omega)

theorem alignUp_four_wrap {n : Nat} (h : 0xFFFFFFFC < n) (hn : n < W32) : alignUp n 4 = 0 := by
  unfold W32 at hn
  obtain rfl | rfl | rfl : n = 0xFFFFFFFD ∨ n = 0xFFFFFFFE ∨ n = 0xFFFFFFFF := by omega
  all_goals decide

/-- The addresses of the statically reserved memory (`boot/boot.s`, section `.bss`): three
heaps, one after the other from a page boundary in the higher half, and the boot stack. -/
structure Layout where
  earlyHeapBottom : Nat
  page_aligned : earlyHeapBottom % 4096 = 0
  higher_half : KERN_VIRTUAL_ADDR ≤ earlyHeapBottom
  fits : earlyHeapBottom + 32768 + 65536 + 102400 + 16384 ≤ W32

namespace Layout

variable (L : Layout)

def earlyHeapTop : Nat := L.earlyHeapBottom + 32768

def pageHeapBottom : Nat := L.earlyHeapTop

def pageHeapTop : Nat := L.pageHeapBottom + 65536

def heapBottom : Nat := L.pageHeapTop

def heapTop : Nat := L.heapBottom + 102400

theorem heapTop_eq : L.heapTop = L.heapBottom + 102400 := rfl

theorem heapBottom_aligned : L.heapBottom % 4096 = 0 := by
  have := L.page_aligned
  simp only [heapBottom, pageHeapTop, pageHeapBottom, earlyHeapTop]
  omega

theorem heapBottom_pos : 3221225472 ≤ L.heapBottom := by
  have := L.higher_half
  simp only [KERN_VIRTUAL_ADDR, heapBottom, pageHeapTop, pageHeapBottom, earlyHeapTop] at *
  omega

theorem heapTop_lt : L.heapTop + 16384 ≤ 4294967296 := by
  have := L.fits
  simp only [W32, heapTop, heapBottom, pageHeapTop, pageHeapBottom, earlyHeapTop] at *
  omega

end Layout

end NowOS

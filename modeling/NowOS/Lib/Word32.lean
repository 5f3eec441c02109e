import Mathlib.Tactic

set_option autoImplicit false

/-! # Unsigned 32-bit arithmetic on natural numbers

A machine word is a natural number below `W32 = 2^32`. The operations wrap around; the lemmas
`add32_of_lt` and `sub32_of_le` say when they do not, which is how they are used in proofs.

Subtraction adds `2^32` only when it has to: with `(a + 2^32 - b) % 2^32` every unfolding of a
subtraction of two variables would count down from `2^32`. -/

namespace NowOS

/-- `2^32`, the number of 32-bit words. -/
def W32 : Nat := 4294967296

/-- Addition of 32-bit words. -/
def add32 (a b : Nat) : Nat := (a + b) % W32

/-- Subtraction of 32-bit words. -/
def sub32 (a b : Nat) : Nat := if b ≤ a then a - b else a + W32 - b

/-- Multiplication of 32-bit words. -/
def mul32 (a b : Nat) : Nat := (a * b) % W32

theorem add32_lt (a b : Nat) : add32 a b < W32 := Nat.mod_lt _ (by decide)

theorem mul32_lt (a b : Nat) : mul32 a b < W32 := Nat.mod_lt _ (by decide)

theorem sub32_lt {a : Nat} (b : Nat) (ha : a < W32) : sub32 a b < W32 := by
  unfold sub32
  split <;> omega

theorem add32_of_lt {a b : Nat} (h : a + b < W32) : add32 a b = a + b := Nat.mod_eq_of_lt h

theorem mul32_of_lt {a b : Nat} (h : a * b < W32) : mul32 a b = a * b := Nat.mod_eq_of_lt h

theorem sub32_of_le {a b : Nat} (hb : b ≤ a) : sub32 a b = a - b := if_pos hb

/-- Subtraction undoes addition, also if the addition wraps around. -/
theorem sub32_add32 {a x : Nat} (ha : a < W32) (hx : x < W32) : sub32 (add32 a x) a = x := by
  unfold sub32 add32 W32 at *
  split <;> omega

theorem add32_zero {a : Nat} (ha : a < W32) : add32 a 0 = a := add32_of_lt ha

theorem add32_add32 (a b c : Nat) : add32 (add32 a b) c = add32 a (b + c) := by
  unfold add32
  rw [Nat.mod_add_mod, Nat.add_assoc]

/-- The distance to an address grows with the address. -/
theorem sub32_add32_comm {a t : Nat} (k : Nat) (ha : a < W32) (ht : t < W32) :
    sub32 (add32 a k) t = add32 (sub32 a t) k := by
  unfold sub32 add32 W32 at *
  split <;> split <;> omega

end NowOS

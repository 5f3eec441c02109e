import Mathlib.Data.Nat.Digits.Lemmas
import Mathlib.Tactic

set_option autoImplicit false

/-! # Numerals

The numeral of a number: its digits, the most significant one first and without leading zeros, and
the one digit `0` for the number zero. A numeral grows at its end (`numeral_append`), which is how
it is written from the least significant digit on, and reading it from the left gives the number
back (`readNumeral_numeral`). -/

namespace NowOS

def numeral (b n : Nat) : List Nat := if n = 0 then [0] else (Nat.digits b n).reverse

/-- The number that a list of digits stands for. -/
def readNumeral (b : Nat) (digits : List Nat) : Nat := digits.foldl (fun value d => value * b + d) 0

variable {b n : Nat}

theorem numeral_of_lt (h : n < b) : numeral b n = [n] := by
  rw [numeral]
  split
  · next hzero => rw [hzero]
  · next hpos => rw [Nat.digits_of_lt b n hpos h, List.reverse_singleton]

theorem numeral_append (hb : 1 < b) (h : n / b ≠ 0) :
    numeral b n = numeral b (n / b) ++ [n % b] := by
  have hn : n ≠ 0 := fun hzero => h (by rw [hzero, Nat.zero_div])
  rw [numeral, if_neg hn, numeral, if_neg h, Nat.digits_def' hb (Nat.pos_of_ne_zero hn),
    List.reverse_cons]

theorem lt_of_mem_numeral (hb : 1 < b) {d : Nat} (hd : d ∈ numeral b n) : d < b := by
  rw [numeral] at hd
  split at hd
  · rw [List.mem_singleton.1 hd]
    exact Nat.zero_lt_of_lt hb
  · exact Nat.digits_lt_base hb (List.mem_reverse.1 hd)

theorem numeral_ne_nil (b n : Nat) : numeral b n ≠ [] := by
  rw [numeral]
  split
  · exact List.cons_ne_nil _ _
  · next hn => exact fun h => hn (Nat.digits_eq_nil_iff_eq_zero.1 (List.reverse_eq_nil_iff.1 h))

theorem readNumeral_numeral (b n : Nat) : readNumeral b (numeral b n) = n := by
  rw [numeral]
  split
  · next hzero => rw [hzero]; exact Nat.zero_mul b
  · calc readNumeral b (Nat.digits b n).reverse
        = (Nat.digits b n).foldr (fun d value => value * b + d) 0 := List.foldl_reverse
      _ = Nat.ofDigits b (Nat.digits b n) := by
          rw [Nat.ofDigits_eq_foldr]
          simp only [Nat.cast_id, Nat.mul_comm, Nat.add_comm]
      _ = n := Nat.ofDigits_digits b n

end NowOS

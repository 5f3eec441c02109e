import Mathlib.Tactic

set_option autoImplicit false

/-! # Tables of bits

A sequence of `w`-bit words as a sequence of bits: bit `n` is bit `n % w` of word `n / w`. Setting
and clearing a bit are the two updates of a word by a mask with one bit. -/

namespace NowOS

/-! ## Masks with one bit -/

section

variable {w : Nat}

theorem getLsbD_one_shiftLeft {i j : Nat} (hi : i < w) :
    (1#w <<< j).getLsbD i = decide (i = j) := by
  rw [BitVec.getLsbD_shiftLeft, BitVec.getLsbD_one]
  by_cases h : i < j
  · have hne : i ≠ j := by omega
    simp [h, hne]
  · have hw : 0 < w := by omega
    have hiff : i - j = 0 ↔ i = j := by omega
    simp [h, hi, hw, hiff]

/-- The bit is set if it changes nothing to set it. -/
theorem or_bit_eq_self {x : BitVec w} {i : Nat} (hi : i < w) :
    x ||| 1#w <<< i = x ↔ x.getLsbD i = true := by
  constructor
  · intro h
    rw [← h, BitVec.getLsbD_or, getLsbD_one_shiftLeft hi, decide_eq_true rfl, Bool.or_true]
  · intro h
    apply BitVec.eq_of_getLsbD_eq
    intro j hj
    rw [BitVec.getLsbD_or, getLsbD_one_shiftLeft hj]
    by_cases hij : j = i
    · rw [hij, h, Bool.true_or]
    · rw [decide_eq_false hij, Bool.or_false]

/-- The bit is clear if nothing is left of the word under the mask. -/
theorem and_bit_eq_zero {x : BitVec w} {i : Nat} (hi : i < w) :
    x &&& 1#w <<< i = 0#w ↔ x.getLsbD i = false := by
  constructor
  · intro h
    have hbit := congrArg (fun b : BitVec w => b.getLsbD i) h
    simpa [getLsbD_one_shiftLeft hi, hi] using hbit
  · intro h
    apply BitVec.eq_of_getLsbD_eq
    intro j hj
    rw [BitVec.getLsbD_and, getLsbD_one_shiftLeft hj, BitVec.getLsbD_zero]
    by_cases hij : j = i
    · rw [hij, h, Bool.false_and]
    · rw [decide_eq_false hij, Bool.and_false]

theorem eq_allOnes_iff {x : BitVec w} : x = ~~~0#w ↔ ∀ i, i < w → x.getLsbD i = true := by
  constructor
  · rintro rfl i hi
    simp [hi]
  · intro h
    apply BitVec.eq_of_getLsbD_eq
    intro i hi
    rw [h i hi]
    simp [hi]

end

/-! ## The table -/

namespace BitTable

variable {w : Nat}

/-- Bit `n` of the table. -/
def get (t : Nat → BitVec w) (n : Nat) : Bool := (t (n / w)).getLsbD (n % w)

/-- Set bit `n`. -/
def set (t : Nat → BitVec w) (n : Nat) : Nat → BitVec w :=
  Function.update t (n / w) (t (n / w) ||| 1#w <<< (n % w))

/-- Clear bit `n`. -/
def clear (t : Nat → BitVec w) (n : Nat) : Nat → BitVec w :=
  Function.update t (n / w) (t (n / w) &&& ~~~(1#w <<< (n % w)))

theorem eq_of_div_mod {m n : Nat} (hdiv : m / w = n / w) (hmod : m % w = n % w) : m = n := by
  rw [← Nat.div_add_mod m w, ← Nat.div_add_mod n w, hdiv, hmod]

theorem get_set (hw : 0 < w) (t : Nat → BitVec w) (n k : Nat) :
    get (set t n) k = (get t k || decide (k = n)) := by
  unfold get set
  by_cases hdiv : k / w = n / w
  · rw [hdiv, Function.update_self, BitVec.getLsbD_or, getLsbD_one_shiftLeft (Nat.mod_lt _ hw)]
    congr 1
    rw [decide_eq_decide]
    exact ⟨eq_of_div_mod hdiv, fun h => by rw [h]⟩
  · have hne : k ≠ n := fun h => hdiv (by rw [h])
    rw [Function.update_of_ne hdiv, decide_eq_false hne, Bool.or_false]

theorem get_clear (hw : 0 < w) (t : Nat → BitVec w) (n k : Nat) :
    get (clear t n) k = (get t k && !decide (k = n)) := by
  have hlt : k % w < w := Nat.mod_lt _ hw
  unfold get clear
  by_cases hdiv : k / w = n / w
  · rw [hdiv, Function.update_self, BitVec.getLsbD_and, BitVec.getLsbD_not,
      getLsbD_one_shiftLeft hlt, decide_eq_true hlt, Bool.true_and]
    congr 2
    rw [decide_eq_decide]
    exact ⟨eq_of_div_mod hdiv, fun h => by rw [h]⟩
  · have hne : k ≠ n := fun h => hdiv (by rw [h])
    rw [Function.update_of_ne hdiv, decide_eq_false hne, Bool.not_false, Bool.and_true]

end BitTable

end NowOS

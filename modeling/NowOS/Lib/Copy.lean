import Mathlib.Logic.Function.Basic
import Mathlib.Tactic

set_option autoImplicit false

/-! # Copies between regions that overlap

A region is copied element by element onto another one, which may overlap it. In the middle of the
copy the elements of an interval are those of the source as it was at first, and everything else is
unchanged (`Copied`). The next element can be copied at either end of the interval if it has not
been overwritten: at the upper end if the region moves down (`Copied.read_up`), at the lower end if
it moves up or stays where it is (`Copied.read_down`). -/

namespace NowOS

variable {α : Type*} {f g : Nat → α} {dst src lo hi : Nat}

/-- In `g` the elements `lo`, …, `hi - 1` of the region at `dst` are those of the region at `src` in
`f`. -/
structure Copied (f : Nat → α) (dst src lo hi : Nat) (g : Nat → α) : Prop where
  inside : ∀ i, lo ≤ i → i < hi → g (dst + i) = f (src + i)
  outside : ∀ a, (a < dst + lo ∨ dst + hi ≤ a) → g a = f a

theorem copied_refl (f : Nat → α) (dst src n : Nat) : Copied f dst src n n f :=
  ⟨fun _ hlo hhi => absurd hhi (Nat.not_lt_of_le hlo), fun _ _ => rfl⟩

namespace Copied

/-- The source of the next element is above the interval. -/
theorem read_up (h : Copied f dst src lo hi g) (hdown : dst < src) : g (src + hi) = f (src + hi) :=
  h.outside _ (Or.inr (by omega))

/-- The source of the next element is below the interval. -/
theorem read_down (h : Copied f dst src (lo + 1) hi g) (hup : src ≤ dst) :
    g (src + lo) = f (src + lo) :=
  h.outside _ (Or.inl (by omega))

theorem up (h : Copied f dst src lo hi g) (hlo : lo ≤ hi) {x : α} (hx : x = f (src + hi)) :
    Copied f dst src lo (hi + 1) (Function.update g (dst + hi) x) := by
  refine ⟨fun i hlo' hi' => ?_, fun a ha => ?_⟩
  · by_cases hlast : i = hi
    · rw [hlast, Function.update_self, hx]
    · rw [Function.update_of_ne (by omega), h.inside i hlo' (by omega)]
  · rw [Function.update_of_ne (by omega), h.outside a (by omega)]

theorem down (h : Copied f dst src (lo + 1) hi g) (hlo : lo < hi) {x : α} (hx : x = f (src + lo)) :
    Copied f dst src lo hi (Function.update g (dst + lo) x) := by
  refine ⟨fun i hlo' hi' => ?_, fun a ha => ?_⟩
  · by_cases hfirst : i = lo
    · rw [hfirst, Function.update_self, hx]
    · rw [Function.update_of_ne (by omega), h.inside i (by omega) hi']
  · rw [Function.update_of_ne (by omega), h.outside a (by omega)]

end Copied

end NowOS

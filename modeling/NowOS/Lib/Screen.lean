import Mathlib.Logic.Function.Basic
import Mathlib.Data.List.Range
import Mathlib.Tactic

set_option autoImplicit false

/-! # Loops over a grid, and a window on a page

Text that is written into lines of a fixed width fills a *page*: lines without an end, and a place
where the last character was put. A screen shows the last `h` lines of it, the *window*. When the
page gets a new line, the window stays as it is as long as there is room, and after that moves up by
one line and shows a blank line at its foot (`window_newline_room`, `window_newline_full`).

A screen is kept in one array, row after row, and is filled by two nested loops.
`rowMajor_invariant` is the rule for these: the cells that were visited are those whose index is
below a number that grows by one in each step. -/

namespace NowOS

section Grid

variable {σ : Type*}

/-- `for (y = 0; y < h; y++) for (x = 0; x < w; x++) body` -/
def rowMajor (h w : Nat) (body : Nat → Nat → σ → σ) (s : σ) : σ :=
  (List.range h).foldl (fun s y => (List.range w).foldl (fun s x => body y x s) s) s

/-- The rule for one counting loop. -/
theorem foldl_range_invariant {n : Nat} {body : σ → Nat → σ} (I : Nat → σ → Prop)
    (step : ∀ i s, i < n → I i s → I (i + 1) (body s i)) {s : σ} (h0 : I 0 s) :
    I n ((List.range n).foldl body s) := by
  induction n with
  | zero => exact h0
  | succ n ih =>
      rw [List.range_succ, List.foldl_append]
      exact step n _ (Nat.lt_succ_self n) (ih fun i s hi => step i s (Nat.lt_succ_of_lt hi))

theorem rowMajor_invariant {h w : Nat} {body : Nat → Nat → σ → σ} (I : Nat → σ → Prop)
    (step : ∀ y x s, y < h → x < w → I (y * w + x) s → I (y * w + x + 1) (body y x s)) {s : σ}
    (h0 : I 0 s) : I (h * w) (rowMajor h w body s) := by
  refine foldl_range_invariant (fun y => I (y * w)) (fun y s hy hs => ?_)
    ((Nat.zero_mul w).symm ▸ h0)
  -- one row: the inner loop goes from the index of its first cell to that of the next row
  rw [Nat.succ_mul]
  exact foldl_range_invariant (fun x => I (y * w + x)) (fun x s hx => step y x s hy hx) hs

end Grid

/-- The lines written so far and the place of the last character. -/
structure Page (α : Type*) where
  row : Nat
  col : Nat
  cells : Nat → Nat → α

namespace Page

variable {α : Type*} (blank : α)

def empty : Page α := ⟨0, 0, fun _ _ => blank⟩

/-- To the first column of the next line. -/
def newline (p : Page α) : Page α := ⟨p.row + 1, 0, p.cells⟩

/-- To the next column, in lines of the width `w`. -/
def advance (w : Nat) (p : Page α) : Page α :=
  if p.col + 1 = w then p.newline else ⟨p.row, p.col + 1, p.cells⟩

def place (c : α) (p : Page α) : Page α :=
  ⟨p.row, p.col, fun y x => if y = p.row ∧ x = p.col then c else p.cells y x⟩

/-- The place is within a line, and nothing was written below it. -/
structure Fresh (w : Nat) (p : Page α) : Prop where
  col_lt : p.col < w
  blank_below : ∀ y x, p.row < y → p.cells y x = blank

variable {blank} {w : Nat} {p : Page α}

theorem fresh_empty (hw : 0 < w) : (empty blank).Fresh blank w := ⟨hw, fun _ _ _ => rfl⟩

theorem Fresh.newline (hp : p.Fresh blank w) : p.newline.Fresh blank w :=
  ⟨Nat.zero_lt_of_lt hp.col_lt, fun y x hy => hp.blank_below y x (Nat.lt_of_succ_lt hy)⟩

theorem Fresh.advance (hp : p.Fresh blank w) : (p.advance w).Fresh blank w := by
  rw [Page.advance]
  split
  · exact hp.newline
  · next hroom => exact ⟨by have := hp.col_lt; dsimp only; omega, hp.blank_below⟩

theorem Fresh.place (hp : p.Fresh blank w) (c : α) : (p.place c).Fresh blank w :=
  ⟨hp.col_lt,
    fun y x hy => (if_neg fun h => absurd h.1 (Nat.ne_of_gt hy)).trans (hp.blank_below y x hy)⟩

/-! ## The last lines -/

/-- The line `y` of the last `h` lines. -/
def window (h : Nat) (p : Page α) (y x : Nat) : α := p.cells (p.row - (h - 1) + y) x

variable {h : Nat}

theorem window_newline_room (hroom : p.row + 1 < h) (y x : Nat) :
    p.newline.window h y x = p.window h y x := by
  show p.cells (p.row + 1 - (h - 1) + y) x = p.cells (p.row - (h - 1) + y) x
  rw [Nat.sub_eq_zero_of_le (by omega), Nat.sub_eq_zero_of_le (by omega)]

theorem window_newline_full (hp : p.Fresh blank w) (hfull : h ≤ p.row + 1) (y x : Nat) :
    p.newline.window h y x = if y + 1 < h then p.window h (y + 1) x else blank := by
  show p.cells (p.row + 1 - (h - 1) + y) x = if y + 1 < h then p.cells (p.row - (h - 1) + (y + 1)) x
    else blank
  split
  · rw [show p.row + 1 - (h - 1) + y = p.row - (h - 1) + (y + 1) by omega]
  · exact hp.blank_below _ x (by omega)

theorem window_place (c : α) (y x : Nat) :
    (p.place c).window h y x =
      if y = min p.row (h - 1) ∧ x = p.col then c else p.window h y x := by
  have hline : p.row - (h - 1) + y = p.row ↔ y = min p.row (h - 1) := by omega
  exact if_congr (and_congr_left' hline) rfl rfl

end Page

end NowOS

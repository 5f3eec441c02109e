import Mathlib.Order.Basic
import Mathlib.Data.List.Lex
import Mathlib.Tactic

set_option autoImplicit false

/-! # The sign of a lexicographic comparison

`lexSign xs ys` is `-1`, `0` or `1` if the list `xs` comes before `ys`, is the same, or comes after
it in the lexicographic order, in which a proper prefix comes first. Lists that end with a
terminator below all their elements need not be compared to the end: the shorter one decides with
its terminator (`lexSign_terminated`). -/

namespace NowOS

variable {α : Type*} [LinearOrder α]

def lexSign (xs ys : List α) : Int := if xs < ys then -1 else if ys < xs then 1 else 0

variable {x y z : α} {xs ys : List α}

@[simp]
theorem lexSign_self (xs : List α) : lexSign xs xs = 0 := by
  rw [lexSign, if_neg (lt_irrefl xs), if_neg (lt_irrefl xs)]

@[simp]
theorem lexSign_nil_cons (y : α) (ys : List α) : lexSign [] (y :: ys) = -1 :=
  if_pos (List.nil_lt_cons y ys)

@[simp]
theorem lexSign_cons_nil (x : α) (xs : List α) : lexSign (x :: xs) [] = 1 := by
  rw [lexSign, if_neg (List.not_lt_nil _), if_pos (List.nil_lt_cons x xs)]

theorem sign_lexSign (xs ys : List α) : (lexSign xs ys).sign = lexSign xs ys := by
  unfold lexSign
  split
  · rfl
  · split <;> rfl

/-- The first elements decide, unless they are the same. -/
theorem lexSign_cons_cons (x y : α) (xs ys : List α) :
    lexSign (x :: xs) (y :: ys) = if x < y then -1 else if y < x then 1 else lexSign xs ys := by
  rcases lt_trichotomy x y with hlt | rfl | hgt
  · rw [if_pos hlt, lexSign, if_pos (List.cons_lt_cons_iff.2 (Or.inl hlt))]
  · have hcons : ∀ as bs : List α, x :: as < x :: bs ↔ as < bs := fun as bs =>
      List.cons_lt_cons_iff.trans ⟨fun h => (h.resolve_left (lt_irrefl x)).2,
        fun h => Or.inr ⟨rfl, h⟩⟩
    rw [if_neg (lt_irrefl x), if_neg (lt_irrefl x)]
    exact if_congr (hcons xs ys) rfl (if_congr (hcons ys xs) rfl rfl)
  · have hnot : ¬ x :: xs < y :: ys := fun h =>
      (List.cons_lt_cons_iff.1 h).elim (lt_asymm hgt) fun h => absurd h.1 (ne_of_gt hgt)
    rw [if_neg (lt_asymm hgt), if_pos hgt, lexSign, if_neg hnot,
      if_pos (List.cons_lt_cons_iff.2 (Or.inl hgt))]

/-- One element more than the shorter list has, with the terminator `z` behind both. -/
theorem lexSign_terminated (hx : ∀ c ∈ xs, z < c) (hy : ∀ c ∈ ys, z < c) :
    lexSign ((xs ++ [z]).take (min xs.length ys.length + 1))
      ((ys ++ [z]).take (min xs.length ys.length + 1)) = lexSign xs ys := by
  induction xs generalizing ys with
  | nil =>
      cases ys with
      | nil => simp
      | cons y ys =>
          have hzy : z < y := hy y List.mem_cons_self
          rw [List.length_nil, Nat.zero_min, lexSign_nil_cons]
          exact (lexSign_cons_cons z y [] _).trans (if_pos hzy)
  | cons x xs ih =>
      cases ys with
      | nil =>
          have hzx : z < x := hx x List.mem_cons_self
          rw [List.length_nil, Nat.min_zero, lexSign_cons_nil]
          exact (lexSign_cons_cons x z _ []).trans ((if_neg (lt_asymm hzx)).trans (if_pos hzx))
      | cons y ys =>
          rw [List.length_cons, List.length_cons, Nat.succ_min_succ, List.cons_append,
            List.cons_append, List.take_succ_cons, List.take_succ_cons, lexSign_cons_cons,
            lexSign_cons_cons, ih (fun c hc => hx c (List.mem_cons_of_mem x hc))
              fun c hc => hy c (List.mem_cons_of_mem y hc)]

end NowOS

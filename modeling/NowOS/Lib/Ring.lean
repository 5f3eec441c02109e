import Mathlib.Data.Nat.ModEq
import Mathlib.Data.List.Basic

set_option autoImplicit false

/-! # Rings

A queue in a ring of `cap` cells: its elements are in the cells from `head` on, and behind the last
cell comes the first one again. A push fills the cell behind the last element and a pop moves the
head; neither touches the cells of the other elements.

Seen from outside, a ring is a sequence of uses of its cells. If the pushes go round the ring, and
so do the pops behind them, then each pop is of the cell that the push with the same number has
filled, and no push has filled again in between (`InTurn`). -/

namespace NowOS

variable {α : Type}

/-- **The ring holds the queue** `q` from the cell `head` on. -/
structure RingHolds (cell : Nat → α) (cap head : Nat) (q : List α) : Prop where
  length_le : q.length ≤ cap
  cells : ∀ k x, q[k]? = some x → cell ((head + k) % cap) = x

variable {cell cell' : Nat → α} {cap head : Nat} {q : List α} {x : α}

theorem ringHolds_nil (cell : Nat → α) (cap head : Nat) : RingHolds cell cap head [] :=
  ⟨Nat.zero_le _, fun _ _ hk => by cases hk⟩

/-- Different positions of a queue that fits into the ring are in different cells. -/
theorem ring_index_inj {j k : Nat} (hj : j < cap) (hk : k < cap)
    (heq : (head + j) % cap = (head + k) % cap) : j = k :=
  Nat.ModEq.eq_of_lt_of_lt (Nat.ModEq.add_left_cancel' head heq) hj hk

theorem RingHolds.push (h : RingHolds cell cap head q) (hroom : q.length < cap)
    (hnew : cell' ((head + q.length) % cap) = x)
    (hold : ∀ i, i < cap → i ≠ (head + q.length) % cap → cell' i = cell i) :
    RingHolds cell' cap head (q ++ [x]) := by
  refine ⟨by rw [List.length_append]; exact hroom, fun k y hk => ?_⟩
  by_cases hlt : k < q.length
  · -- an old element: its cell is not the new one
    rw [List.getElem?_append_left hlt] at hk
    have hne : (head + k) % cap ≠ (head + q.length) % cap := by
      intro heq
      have := ring_index_inj (Nat.lt_trans hlt hroom) hroom heq
      omega
    rw [hold _ (Nat.mod_lt _ (Nat.zero_lt_of_lt hroom)) hne]
    exact h.cells k y hk
  · have hlen : k < (q ++ [x]).length := (List.getElem?_eq_some_iff.1 hk).1
    rw [List.length_append, List.length_singleton] at hlen
    obtain rfl : k = q.length := by omega
    rw [List.getElem?_concat_length] at hk
    rw [hnew, Option.some.inj hk]

theorem RingHolds.front (h : RingHolds cell cap head (x :: q)) : cell (head % cap) = x :=
  h.cells 0 x rfl

theorem RingHolds.pop (h : RingHolds cell cap head (x :: q)) :
    RingHolds cell cap ((head + 1) % cap) q := by
  have hlen := h.length_le
  rw [List.length_cons] at hlen
  refine ⟨by omega, fun k y hk => ?_⟩
  rw [Nat.mod_add_mod, Nat.add_right_comm, Nat.add_assoc]
  exact h.cells (k + 1) y hk

/-! ## The uses of the cells -/

/-- A push into a cell, or a pop out of one. -/
inductive RingUse where
  | push (cell : Nat)
  | pop (cell : Nat)
  deriving DecidableEq, Repr

def pushedCells (uses : List RingUse) : List Nat :=
  uses.filterMap fun
    | .push cell => some cell
    | .pop _ => none

def poppedCells (uses : List RingUse) : List Nat :=
  uses.filterMap fun
    | .push _ => none
    | .pop cell => some cell

theorem pushedCells_push (uses : List RingUse) (cell : Nat) :
    pushedCells (uses ++ [.push cell]) = pushedCells uses ++ [cell] :=
  List.filterMap_append

theorem pushedCells_pop (uses : List RingUse) (cell : Nat) :
    pushedCells (uses ++ [.pop cell]) = pushedCells uses :=
  List.filterMap_append.trans (List.append_nil _)

theorem poppedCells_push (uses : List RingUse) (cell : Nat) :
    poppedCells (uses ++ [.push cell]) = poppedCells uses :=
  List.filterMap_append.trans (List.append_nil _)

theorem poppedCells_pop (uses : List RingUse) (cell : Nat) :
    poppedCells (uses ++ [.pop cell]) = poppedCells uses ++ [cell] :=
  List.filterMap_append

/-- After `uses`, a pop of the cell is one of the oldest push that was not popped yet, and no later
push is into the same cell. -/
def PopsOldest (uses : List RingUse) (cell : Nat) : Prop :=
  (pushedCells uses)[(poppedCells uses).length]? = some cell ∧
    ∀ j, (poppedCells uses).length < j → (pushedCells uses)[j]? ≠ some cell

/-- **Every pop is in turn.** -/
def InTurn (uses : List RingUse) : Prop :=
  ∀ i cell, uses[i]? = some (.pop cell) → PopsOldest (uses.take i) cell

theorem InTurn.concat {uses : List RingUse} (h : InTurn uses) {use : RingUse}
    (hlast : ∀ cell, use = .pop cell → PopsOldest uses cell) : InTurn (uses ++ [use]) := by
  intro i cell hi
  by_cases hlt : i < uses.length
  · rw [List.getElem?_append_left hlt] at hi
    rw [List.take_append_of_le_length (Nat.le_of_lt hlt)]
    exact h i cell hi
  · -- the new use, with all others before it
    have hlen := (List.getElem?_eq_some_iff.1 hi).1
    rw [List.length_append, List.length_singleton] at hlen
    obtain rfl : i = uses.length := by omega
    rw [List.getElem?_concat_length] at hi
    rw [List.take_left']
    · exact hlast cell (Option.some.inj hi)
    · rfl

/-- The pushes go round the ring, and the pops are behind them, by one round at most. -/
structure GoesRound (cap : Nat) (uses : List RingUse) : Prop where
  pushed : pushedCells uses = (List.range (pushedCells uses).length).map (· % cap)
  popped_le : (poppedCells uses).length ≤ (pushedCells uses).length
  pushed_le : (pushedCells uses).length ≤ (poppedCells uses).length + cap
  inTurn : InTurn uses

theorem goesRound_nil (cap : Nat) : GoesRound cap [] :=
  ⟨rfl, Nat.le_refl 0, Nat.zero_le _, fun i cell hi => by cases hi⟩

namespace GoesRound

variable {uses : List RingUse} {m n : Nat}

/-- A push into the next cell. -/
theorem push (h : GoesRound cap uses) (hn : (pushedCells uses).length = n)
    (hroom : n < (poppedCells uses).length + cap) : GoesRound cap (uses ++ [.push (n % cap)]) := by
  have hle := h.popped_le
  refine ⟨?_, ?_, ?_, h.inTurn.concat fun cell hcell => by cases hcell⟩
  · rw [pushedCells_push, List.length_append, List.length_singleton, List.range_succ,
      List.map_append, ← h.pushed, hn]
    rfl
  · rw [pushedCells_push, poppedCells_push, List.length_append]
    omega
  · rw [pushedCells_push, poppedCells_push, List.length_append, List.length_singleton]
    omega

/-- The next pop is of the oldest push: the pushes behind it are fewer than a round, so they are
into other cells. -/
theorem popsOldest (h : GoesRound cap uses) (hm : (poppedCells uses).length = m)
    (hne : m < (pushedCells uses).length) : PopsOldest uses (m % cap) := by
  have hcell : ∀ j, j < (pushedCells uses).length → (pushedCells uses)[j]? = some (j % cap) := by
    intro j hj
    rw [h.pushed, List.getElem?_map, List.getElem?_range hj]
    rfl
  refine ⟨by rw [hm]; exact hcell m hne, fun j hj hsame => ?_⟩
  have hlt : j < (pushedCells uses).length := (List.getElem?_eq_some_iff.1 hsame).1
  rw [hcell j hlt, Option.some.injEq] at hsame
  have hround := h.pushed_le
  -- `j` is `m` and a part of a round
  have hmod : (m + (j - m)) % cap = (m + 0) % cap := by
    rw [Nat.add_sub_cancel' (by omega), Nat.add_zero, hsame]
  have hzero : j - m = 0 := ring_index_inj (by omega) (by omega) hmod
  omega

theorem pop (h : GoesRound cap uses) (hm : (poppedCells uses).length = m)
    (hne : m < (pushedCells uses).length) : GoesRound cap (uses ++ [.pop (m % cap)]) := by
  have hround := h.pushed_le
  refine ⟨?_, ?_, ?_, h.inTurn.concat fun cell hcell => ?_⟩
  · rw [pushedCells_pop]
    exact h.pushed
  · rw [pushedCells_pop, poppedCells_pop, List.length_append, List.length_singleton]
    omega
  · rw [pushedCells_pop, poppedCells_pop, List.length_append]
    omega
  · cases hcell
    exact h.popsOldest hm hne

end GoesRound

end NowOS

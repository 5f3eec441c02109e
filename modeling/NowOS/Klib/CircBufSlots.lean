import NowOS.Klib.CircBuf

set_option autoImplicit false

/-! # The slots of the ring buffer (`klib/circ_buf.c`)

Which slots the calls use, whatever the entries are: with overlapping or misplaced slots the bytes
are wrong, and the indices are still those of a ring. The numbers of pushes and pops that succeeded,
`p` and `q`, say it all: `curr_index` is `q % size` and `curr_size` is `p - q`, so the next push is
into slot `p % size`. The sum `curr_index + curr_size` is one of 32 bits, and with at most `2^31`
slots it does not wrap. -/

namespace NowOS

namespace CircBuf

/-- `push_index`. -/
def pushIndex (c : CircBuf) : Nat := add32 c.currIndex c.currSize % c.size

theorem pushDst_eq_entryAddr (c : CircBuf) : c.pushDst = c.entryAddr c.pushIndex := rfl

/-- The slot that a call uses if it succeeds. -/
def slotOf (c : CircBuf) : Call → RingUse
  | .push _ => .push c.pushIndex
  | .pop => .pop c.currIndex

/-- The calls one after the other, with the slots that the successful ones use. -/
def slotRun : List Call → CircBuf → Option (CircBuf × List RingUse)
  | [], c => some (c, [])
  | call :: calls, c =>
      match c.exec call with
      | none => none
      | some (c', result) =>
          let uses := if result.ret = SUCCESS then [c.slotOf call] else []
          (slotRun calls c').map fun r => (r.1, uses ++ r.2)

/-- **The invariant**: the state of a buffer with these uses behind it. -/
structure SlotInv (size : Nat) (c : CircBuf) (uses : List RingUse) : Prop where
  size_eq : c.size = size
  currIndex_eq : c.currIndex = (poppedCells uses).length % size
  currSize_eq : c.currSize + (poppedCells uses).length = (pushedCells uses).length
  round : GoesRound size uses

theorem slotInv_init (size typeSize buf : Nat) (mem : Nat → UInt8) :
    SlotInv size (initCircBuf size typeSize buf mem) [] :=
  ⟨rfl, (Nat.zero_mod size).symm, rfl, goesRound_nil size⟩

namespace SlotInv

variable {size : Nat} {c : CircBuf} {uses : List RingUse}

theorem currIndex_lt (h : SlotInv size c uses) (hpos : 1 ≤ size) : c.currIndex < size := by
  rw [h.currIndex_eq]
  exact Nat.mod_lt _ hpos

theorem currSize_le (h : SlotInv size c uses) : c.currSize ≤ size := by
  have hround := h.round.pushed_le
  have hcurr := h.currSize_eq
  omega

/-- The sum of the indices does not wrap, and the next push is the next one round the ring. -/
theorem pushIndex_eq (h : SlotInv size c uses) (hpos : 1 ≤ size) (hmax : size ≤ 2147483648)
    (hroom : c.currSize < size) : c.pushIndex = (pushedCells uses).length % size := by
  have hindex := h.currIndex_lt hpos
  calc c.pushIndex
      = (c.currIndex + c.currSize) % size := by
        rw [pushIndex, h.size_eq, add32_of_lt (by unfold W32; omega)]
    _ = ((poppedCells uses).length + c.currSize) % size := by
        rw [h.currIndex_eq, Nat.mod_add_mod]
    _ = (pushedCells uses).length % size := by
        rw [Nat.add_comm, h.currSize_eq]

/-- A push into a buffer with room. -/
theorem push (h : SlotInv size c uses) (hpos : 1 ≤ size) (hmax : size ≤ 2147483648)
    (hroom : c.currSize < size) (src : Nat → UInt8) :
    SlotInv size (c.pushed src) (uses ++ [.push c.pushIndex]) := by
  have hcurr := h.currSize_eq
  refine ⟨h.size_eq, ?_, ?_, ?_⟩
  · rw [poppedCells_push]
    exact h.currIndex_eq
  · rw [poppedCells_push, pushedCells_push, List.length_append, List.length_singleton, ← hcurr]
    exact Nat.add_right_comm _ _ _
  · rw [h.pushIndex_eq hpos hmax hroom]
    exact h.round.push rfl (by omega)

/-- A pop from a buffer that is not empty. -/
theorem pop (h : SlotInv size c uses) (hpos : 1 ≤ size) (hmax : size ≤ 2147483648)
    (hne : 0 < c.currSize) : SlotInv size c.popCircBuf.1 (uses ++ [.pop c.currIndex]) := by
  have hcurr := h.currSize_eq
  have hindex := h.currIndex_lt hpos
  have hstate : c.popCircBuf.1 =
      { c with currIndex := (c.currIndex + 1) % size, currSize := c.currSize - 1 } := by
    rw [popCircBuf, if_neg hne.ne', add32_of_lt (by unfold W32; omega), sub32_of_le hne, h.size_eq]
  rw [hstate]
  refine ⟨h.size_eq, ?_, ?_, ?_⟩
  · rw [poppedCells_pop, List.length_append, List.length_singleton, h.currIndex_eq]
    exact Nat.mod_add_mod _ _ _
  · rw [poppedCells_pop, pushedCells_pop, List.length_append, List.length_singleton, ← hcurr]
    show c.currSize - 1 + _ = _
    omega
  · rw [h.currIndex_eq]
    exact h.round.pop rfl (by omega)

/-- **A step.** No call fails its assertion. -/
theorem exec (h : SlotInv size c uses) (hpos : 1 ≤ size) (hmax : size ≤ 2147483648) (call : Call) :
    ∃ c' result, c.exec call = some (c', result) ∧
      SlotInv size c' (uses ++ if result.ret = SUCCESS then [c.slotOf call] else []) := by
  cases call with
  | push src =>
      rcases Nat.lt_or_eq_of_le h.currSize_le with hroom | hfull
      · have hsize : c.size ≤ 2147483648 := by rwa [h.size_eq]
        exact ⟨_, _, (exec_push (by rwa [h.size_eq]) hsize src).1, h.push hpos hmax hroom src⟩
      · have hret : c.exec (.push src) = some (c, ⟨FAILURE, []⟩) := by
          rw [CircBuf.exec, pushCircBuf, if_pos (by rw [hfull, h.size_eq])]
          rfl
        exact ⟨c, _, hret, by rwa [if_neg (by decide), List.append_nil]⟩
  | pop =>
      refine ⟨_, _, rfl, ?_⟩
      rcases Nat.eq_zero_or_pos c.currSize with hempty | hne
      · have hret : c.popCircBuf = (c, FAILURE, []) := by rw [popCircBuf, if_pos hempty]
        rw [hret, if_neg (show FAILURE ≠ SUCCESS by decide), List.append_nil]
        exact h
      · have hret : c.popCircBuf.2.1 = SUCCESS := by rw [popCircBuf, if_neg hne.ne']
        rw [if_pos hret]
        exact h.pop hpos hmax hne

/-- **A run.** -/
theorem slotRun (h : SlotInv size c uses) (hpos : 1 ≤ size) (hmax : size ≤ 2147483648)
    (calls : List Call) :
    ∃ c' later, CircBuf.slotRun calls c = some (c', later) ∧ SlotInv size c' (uses ++ later) := by
  induction calls generalizing c uses with
  | nil => exact ⟨c, [], rfl, by rwa [List.append_nil]⟩
  | cons call calls ih =>
      obtain ⟨c1, result, hexec, h1⟩ := h.exec hpos hmax call
      obtain ⟨c', later, hrun, h'⟩ := ih h1
      refine ⟨c', (if result.ret = SUCCESS then [c.slotOf call] else []) ++ later, ?_, ?_⟩
      · simp only [CircBuf.slotRun, hexec, hrun]
        rfl
      · rwa [← List.append_assoc]

end SlotInv

/-- **The slots are used in turn.** After every sequence of calls the indices are in range, and each
pop that succeeds is of the slot that the push with the same number has filled, with no push into
that slot in between. -/
theorem circBuf_slots_in_turn {size : Nat} (hpos : 1 ≤ size) (hmax : size ≤ 2147483648)
    (typeSize buf : Nat) (mem : Nat → UInt8) (calls : List Call) :
    ∃ c uses, slotRun calls (initCircBuf size typeSize buf mem) = some (c, uses) ∧
      c.currIndex < size ∧ c.currSize ≤ size ∧ InTurn uses := by
  obtain ⟨c, uses, hrun, h⟩ := (slotInv_init size typeSize buf mem).slotRun hpos hmax calls
  exact ⟨c, uses, hrun, h.currIndex_lt hpos, h.currSize_le, h.round.inTurn⟩

/-- The largest buffer. -/
theorem circBuf_slots_largest : ∃ c uses,
    slotRun [.push fun _ => 1, .push fun _ => 2, .pop, .push fun _ => 3]
        (initCircBuf 2147483648 1 0xC0128010 fun _ => 0) = some (c, uses) ∧
      c.currIndex < 2147483648 ∧ c.currSize ≤ 2147483648 ∧ InTurn uses :=
  circBuf_slots_in_turn (by decide) (by decide) 1 0xC0128010 (fun _ => 0) _

-- a full buffer refuses a push, and the next one is into the slot of the first pop
example : (slotRun [.push fun _ => 1, .push fun _ => 2, .push fun _ => 3, .pop, .push fun _ => 3]
    (initCircBuf 2 1 0xC0128010 fun _ => 0)).map (·.2) =
      some [.push 0, .push 1, .pop 0, .push 0] := by decide

end CircBuf

end NowOS

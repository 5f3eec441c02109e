import Mathlib.Logic.Function.Basic

set_option autoImplicit false

/-! # Memory with store buffers

The memory of processors that keep their stores in order: a store goes to the end of the buffer of
its processor and reaches memory some time later, the oldest one first; a load sees the stores of
its own processor. A locked instruction waits until its buffer is empty. -/

namespace NowOS

variable {ι L V : Type} [DecidableEq L]

/-- The memory `m` after the stores `ws`, the first one first. -/
def drained (ws : List (L × V)) (m : L → V) : L → V :=
  ws.foldl (fun m w => Function.update m w.1 w.2) m

theorem drained_cons (w : L × V) (ws : List (L × V)) (m : L → V) :
    drained (w :: ws) m = drained ws (Function.update m w.1 w.2) := rfl

theorem drained_concat (ws : List (L × V)) (l : L) (v : V) (m : L → V) :
    drained (ws ++ [(l, v)]) m = Function.update (drained ws m) l v := by
  unfold drained
  rw [List.foldl_append]
  rfl

/-- What the stores leave at an address depends on what was there before them, and on nothing else
of the memory. -/
theorem drained_congr (ws : List (L × V)) {m m' : L → V} {l : L} (h : m l = m' l) :
    drained ws m l = drained ws m' l := by
  induction ws generalizing m m' with
  | nil => exact h
  | cons w ws ih =>
      rw [drained_cons, drained_cons]
      apply ih
      by_cases hl : l = w.1
      · rw [hl, Function.update_self, Function.update_self]
      · rw [Function.update_of_ne hl, Function.update_of_ne hl, h]

theorem drained_of_notMem {ws : List (L × V)} {l : L} (h : ∀ w ∈ ws, w.1 ≠ l) (m : L → V) :
    drained ws m l = m l := by
  induction ws generalizing m with
  | nil => rfl
  | cons w ws ih =>
      rw [drained_cons, ih fun w' hw' => h w' (List.mem_cons_of_mem _ hw')]
      exact Function.update_of_ne (h w List.mem_cons_self).symm _ _

/-- Memory and the store buffers, the oldest store first. -/
structure Tso (ι L V : Type) where
  mem : L → V
  buf : ι → List (L × V)

namespace Tso

/-- What a load of processor `i` from `l` returns. -/
def read (m : Tso ι L V) (i : ι) (l : L) : V := drained (m.buf i) m.mem l

/-- A locked exchange of processor `i`, with the value that was at `l`. -/
def exchange (m : Tso ι L V) (i : ι) (l : L) (v : V) : Option (V × Tso ι L V) :=
  match m.buf i with
  | [] => some (m.mem l, { m with mem := Function.update m.mem l v })
  | _ :: _ => none

theorem exchange_eq_some {m m' : Tso ι L V} {i : ι} {l : L} {v old : V}
    (h : m.exchange i l v = some (old, m')) :
    m.buf i = [] ∧ old = m.mem l ∧ m' = { m with mem := Function.update m.mem l v } := by
  unfold exchange at h
  split at h
  next hbuf =>
    obtain ⟨rfl, rfl⟩ := Prod.mk.inj (Option.some.inj h)
    exact ⟨hbuf, rfl, rfl⟩
  next => cases h

/-- A processor with an empty buffer sees memory. -/
theorem read_of_nil {m : Tso ι L V} {i : ι} (h : m.buf i = []) (l : L) : m.read i l = m.mem l := by
  unfold read
  rw [h]
  rfl

variable [DecidableEq ι]

/-- A store of processor `i`. -/
def write (m : Tso ι L V) (i : ι) (l : L) (v : V) : Tso ι L V :=
  { m with buf := Function.update m.buf i (m.buf i ++ [(l, v)]) }

/-- The oldest store of processor `i` reaches memory. -/
def flush (m : Tso ι L V) (i : ι) : Option (Tso ι L V) :=
  match m.buf i with
  | [] => none
  | w :: ws => some ⟨Function.update m.mem w.1 w.2, Function.update m.buf i ws⟩

theorem flush_eq_some {m m' : Tso ι L V} {i : ι} (h : m.flush i = some m') :
    ∃ w ws, m.buf i = w :: ws ∧
      m' = ⟨Function.update m.mem w.1 w.2, Function.update m.buf i ws⟩ := by
  unfold flush at h
  split at h
  next => cases h
  next w ws hbuf => exact ⟨w, ws, hbuf, (Option.some.inj h).symm⟩

/-- A processor sees its own stores. -/
theorem read_write_self (m : Tso ι L V) (i : ι) (l : L) (v : V) :
    (m.write i l v).read i = Function.update (m.read i) l v := by
  unfold read write
  simp only [Function.update_self]
  exact drained_concat _ l v _

theorem read_write_of_ne (m : Tso ι L V) {i j : ι} (h : j ≠ i) (l : L) (v : V) :
    (m.write i l v).read j = m.read j := by
  unfold read write
  simp only [Function.update_of_ne h]

omit [DecidableEq L] in
theorem buf_write_of_ne (m : Tso ι L V) {i j : ι} (h : j ≠ i) (l : L) (v : V) :
    (m.write i l v).buf j = m.buf j := Function.update_of_ne h _ _

omit [DecidableEq L] in
theorem mem_buf_write {m : Tso ι L V} {i j : ι} {l : L} {v : V} {w : L × V}
    (h : w ∈ (m.write i l v).buf j) : w ∈ m.buf j ∨ (j = i ∧ w = (l, v)) := by
  by_cases hj : j = i
  · subst hj
    simpa [write] using h
  · rw [buf_write_of_ne m hj] at h
    exact .inl h

/-! ## A store reaches memory -/

variable {m m' : Tso ι L V} {i : ι}

theorem mem_buf_flush {j : ι} {w : L × V} (h : m.flush i = some m') (hw : w ∈ m'.buf j) :
    w ∈ m.buf j := by
  obtain ⟨w', ws, hbuf, rfl⟩ := flush_eq_some h
  by_cases hj : j = i
  · subst hj
    simp only [Function.update_self] at hw
    rw [hbuf]
    exact List.mem_cons_of_mem _ hw
  · simpa [hj] using hw

/-- The processor whose store it is does not notice. -/
theorem read_flush_self (h : m.flush i = some m') : m'.read i = m.read i := by
  obtain ⟨w, ws, hbuf, rfl⟩ := flush_eq_some h
  unfold read
  rw [hbuf]
  simp only [Function.update_self]
  rfl

/-- Memory at an address that the processor has not stored to. -/
theorem mem_flush_of_notMem {l : L} (h : m.flush i = some m') (hl : ∀ w ∈ m.buf i, w.1 ≠ l) :
    m'.mem l = m.mem l := by
  obtain ⟨w, ws, hbuf, rfl⟩ := flush_eq_some h
  exact Function.update_of_ne (hl w (by simp [hbuf])).symm _ _

theorem read_flush_of_notMem {j : ι} {l : L} (h : m.flush i = some m') (hj : j ≠ i)
    (hl : ∀ w ∈ m.buf i, w.1 ≠ l) : m'.read j l = m.read j l := by
  have hmem := mem_flush_of_notMem h hl
  obtain ⟨w, ws, -, rfl⟩ := flush_eq_some h
  unfold read
  simp only [Function.update_of_ne hj]
  exact drained_congr _ hmem

end Tso

end NowOS

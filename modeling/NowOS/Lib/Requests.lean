import Mathlib.Data.Finset.Max
import Mathlib.Data.Finset.Sort

set_option autoImplicit false

/-! # An interrupt controller with priorities

A controller keeps the vectors that have been requested and those that are in service. It hands out
the highest request, if its class is above the classes of all vectors in service, and the end of an
interrupt takes the highest vector out of service. So the end of an interrupt undoes its acceptance,
and a vector that is never taken out of service holds back all that are not above its class. -/

namespace NowOS

structure Requests (ι : Type) where
  pending : Finset ι
  inService : Finset ι
  deriving DecidableEq

namespace Requests

variable {ι κ : Type} [LinearOrder ι] [LinearOrder κ]

/-- A request for `v`. One that is pending already is not counted again. -/
def request (v : ι) (r : Requests ι) : Requests ι := { r with pending := insert v r.pending }

/-- The vector that is handed to the processor, if there is one. -/
def accept (cls : ι → κ) (r : Requests ι) : Option (ι × Requests ι) :=
  if h : r.pending.Nonempty then
    let v := r.pending.max' h
    if ∀ w ∈ r.inService, cls w < cls v then
      some (v, { pending := r.pending.erase v, inService := insert v r.inService })
    else none
  else none

/-- The end of an interrupt. -/
def eoi (r : Requests ι) : Requests ι :=
  if h : r.inService.Nonempty then
    { r with inService := r.inService.erase (r.inService.max' h) }
  else r

variable {cls : ι → κ} {r r' : Requests ι} {v w : ι}

theorem accept_eq_some_iff :
    r.accept cls = some (v, r') ↔
      v ∈ r.pending ∧ (∀ w ∈ r.pending, w ≤ v) ∧ (∀ w ∈ r.inService, cls w < cls v) ∧
        r' = ⟨r.pending.erase v, insert v r.inService⟩ := by
  unfold accept
  constructor
  · intro h
    split at h
    next hne =>
      dsimp only at h
      split at h
      next hcls =>
        cases h
        exact ⟨r.pending.max'_mem hne, r.pending.le_max', hcls, rfl⟩
      next => cases h
    next => cases h
  · rintro ⟨hmem, hmax, hcls, rfl⟩
    have hne : r.pending.Nonempty := ⟨v, hmem⟩
    have hv : r.pending.max' hne = v :=
      le_antisymm (r.pending.max'_le hne v hmax) (r.pending.le_max' v hmem)
    rw [dif_pos hne]
    dsimp only
    rw [hv, if_pos hcls]

/-- With nothing in service no request is held back. -/
theorem accept_of_inService_empty (hne : r.pending.Nonempty) (hempty : r.inService = ∅) :
    r.accept cls = some (r.pending.max' hne, ⟨r.pending.erase (r.pending.max' hne),
      {r.pending.max' hne}⟩) := by
  refine accept_eq_some_iff.2 ⟨r.pending.max'_mem hne, r.pending.le_max', ?_, ?_⟩
  · rw [hempty]
    exact fun w hw => absurd hw (Finset.notMem_empty w)
  · rw [hempty]
    rfl

theorem eoi_eq_erase (hmem : v ∈ r.inService) (hmax : ∀ w ∈ r.inService, w ≤ v) :
    r.eoi = { r with inService := r.inService.erase v } := by
  have hne : r.inService.Nonempty := ⟨v, hmem⟩
  have hv : r.inService.max' hne = v :=
    le_antisymm (r.inService.max'_le hne v hmax) (r.inService.le_max' v hmem)
  rw [eoi, dif_pos hne, hv]

theorem eoi_subset : r.eoi.inService ⊆ r.inService := by
  unfold eoi
  split
  · exact Finset.erase_subset _ _
  · exact Finset.Subset.refl _

@[simp]
theorem pending_eoi : r.eoi.pending = r.pending := by
  unfold eoi
  split <;> rfl

/-- The vector that is accepted is above those in service. -/
theorem lt_of_accept (hmono : Monotone cls) (h : r.accept cls = some (v, r'))
    (hw : w ∈ r.inService) : w < v := by
  obtain ⟨_, _, hcls, _⟩ := accept_eq_some_iff.1 h
  by_contra hle
  exact absurd (hcls w hw) (not_lt.2 (hmono (not_lt.1 hle)))

/-- **The end of an interrupt undoes its acceptance.** -/
theorem eoi_of_accept (hmono : Monotone cls) (h : r.accept cls = some (v, r')) :
    r'.eoi = ⟨r.pending.erase v, r.inService⟩ := by
  have hlt := fun w (hw : w ∈ r.inService) => lt_of_accept hmono h hw
  obtain ⟨_, _, _, rfl⟩ := accept_eq_some_iff.1 h
  have hnew : v ∉ r.inService := fun hv => absurd (hlt v hv) (lt_irrefl v)
  have hmax : ∀ w ∈ insert v r.inService, w ≤ v := by
    intro w hw
    obtain rfl | hw := Finset.mem_insert.1 hw
    · exact le_refl w
    · exact (hlt w hw).le
  rw [eoi_eq_erase (v := v) (Finset.mem_insert_self v _) hmax]
  simp only [Finset.erase_insert hnew]

/-- The highest element comes first in the order of the priorities. -/
theorem sort_ge_eq_cons {s : Finset ι} (hne : s.Nonempty) :
    s.sort (· ≥ ·) = s.max' hne :: (s.erase (s.max' hne)).sort (· ≥ ·) := by
  have hmem := s.max'_mem hne
  calc s.sort (· ≥ ·)
      = (insert (s.max' hne) (s.erase (s.max' hne))).sort (· ≥ ·) := by
        rw [Finset.insert_erase hmem]
    _ = s.max' hne :: (s.erase (s.max' hne)).sort (· ≥ ·) :=
        Finset.sort_insert _ (fun b hb => s.le_max' b (Finset.mem_of_mem_erase hb))
          (Finset.notMem_erase _ _)

end Requests

end NowOS

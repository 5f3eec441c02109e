import Mathlib.Logic.Function.Basic

set_option autoImplicit false

/-! # One at a time

The invariant of a lock: at most one of the agents is inside, and the lock is busy exactly if one
is. A step of an agent takes the lock, releases it, or changes neither. -/

namespace NowOS

variable {ι : Type}

/-- At most one agent is inside, and `busy` holds exactly if one is. -/
structure Exclusive (busy : Prop) (inside : ι → Prop) : Prop where
  one : ∀ i j, inside i → inside j → i = j
  busy_iff : busy ↔ ∃ i, inside i

namespace Exclusive

variable {busy busy' : Prop} {inside inside' : ι → Prop} {c : ι}

theorem not_busy (h : Exclusive busy inside) (hfree : ¬ busy) (i : ι) : ¬ inside i :=
  fun hi => hfree (h.busy_iff.mpr ⟨i, hi⟩)

/-- A step of agent `c` that neither takes nor releases the lock. -/
theorem keep (h : Exclusive busy inside) (hbusy : busy' ↔ busy)
    (hother : ∀ i, i ≠ c → (inside' i ↔ inside i)) (hc : inside' c ↔ inside c) :
    Exclusive busy' inside' := by
  have hall : ∀ i, inside' i ↔ inside i := by
    intro i
    by_cases hi : i = c
    · rw [hi]
      exact hc
    · exact hother i hi
  refine ⟨fun i j hi hj => h.one i j ((hall i).mp hi) ((hall j).mp hj), ?_⟩
  rw [hbusy, h.busy_iff]
  exact exists_congr fun i => (hall i).symm

/-- Agent `c` takes the lock. -/
theorem acquire (h : Exclusive busy inside) (hfree : ¬ busy) (hbusy : busy')
    (hother : ∀ i, i ≠ c → (inside' i ↔ inside i)) (hc : inside' c) :
    Exclusive busy' inside' := by
  have honly : ∀ i, inside' i → i = c := by
    intro i hi
    by_contra hic
    exact h.not_busy hfree i ((hother i hic).mp hi)
  exact ⟨fun i j hi hj => (honly i hi).trans (honly j hj).symm, ⟨fun _ => ⟨c, hc⟩, fun _ => hbusy⟩⟩

/-- Agent `c` releases the lock. -/
theorem release (h : Exclusive busy inside) (hin : inside c) (hfree : ¬ busy')
    (hother : ∀ i, i ≠ c → (inside' i ↔ inside i)) (hc : ¬ inside' c) :
    Exclusive busy' inside' := by
  have hnone : ∀ i, ¬ inside' i := by
    intro i hi
    by_cases hic : i = c
    · exact hc (hic ▸ hi)
    · exact hic (h.one i c ((hother i hic).mp hi) hin)
  exact ⟨fun i _ hi => absurd hi (hnone i), ⟨fun hb => absurd hb hfree, fun ⟨i, hi⟩ =>
    absurd hi (hnone i)⟩⟩

end Exclusive

end NowOS

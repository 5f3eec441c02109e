import Mathlib.Data.List.Basic
import Mathlib.Data.List.Nodup

set_option autoImplicit false

/-! # Doubly linked lists

The nodes of a doubly linked list as a plain list, and what `next` and `prev` say about them
(`DLinked`). A routine that changes such a list cuts it into segments and joins segments again;
joining means a store to `next` of the last node of a segment (`DLinked.relast`) or to `prev` of its
first node (`DLinked.rehead`), and `dlinked_append` puts the segments together. -/

namespace NowOS

variable {α : Type}

/-- The nodes `ns` are linked in both directions; `p` is the node before them and `q` the one behind
them. -/
def DLinked (next prev : α → α) : α → List α → α → Prop
  | _, [], _ => True
  | p, a :: ns, q => prev a = p ∧ next a = ns.headD q ∧ DLinked next prev a ns q

variable {next prev next' prev' : α → α} {p q r : α} {xs ys : List α}

theorem headD_append (xs ys : List α) (q : α) : (xs ++ ys).headD q = xs.headD (ys.headD q) := by
  cases xs <;> rfl

theorem getLastD_append (xs ys : List α) (p : α) :
    (xs ++ ys).getLastD p = ys.getLastD (xs.getLastD p) := by
  induction xs generalizing p with
  | nil => rfl
  | cons a xs ih => rw [List.cons_append, List.getLastD_cons, List.getLastD_cons, ih]

theorem getLastD_reverse (xs : List α) (q : α) : xs.reverse.getLastD q = xs.headD q := by
  cases xs with
  | nil => rfl
  | cons a xs => rw [List.reverse_cons, List.getLastD_concat, List.headD_cons]

theorem headD_reverse (xs : List α) (p : α) : xs.reverse.headD p = xs.getLastD p := by
  rw [← getLastD_reverse, List.reverse_reverse]

theorem headD_mem (hne : xs ≠ []) (q : α) : xs.headD q ∈ xs := by
  cases xs with
  | nil => exact absurd rfl hne
  | cons a xs => exact List.mem_cons_self

theorem getLastD_mem (hne : xs ≠ []) (p : α) : xs.getLastD p ∈ xs := by
  cases xs with
  | nil => exact absurd rfl hne
  | cons a xs =>
      rw [List.getLastD_cons]
      exact List.getLastD_mem_cons

theorem headD_of_ne (hne : xs ≠ []) (q r : α) : xs.headD q = xs.headD r := by
  cases xs with
  | nil => exact absurd rfl hne
  | cons a xs => rfl

theorem getLastD_of_ne (hne : xs ≠ []) (p r : α) : xs.getLastD p = xs.getLastD r := by
  cases xs with
  | nil => exact absurd rfl hne
  | cons a xs => rw [List.getLastD_cons, List.getLastD_cons]

theorem headD_eq_iff (hq : q ∉ xs) : xs.headD q = q ↔ xs = [] := by
  constructor
  · intro heq
    by_contra hne
    exact hq (heq ▸ headD_mem hne q)
  · rintro rfl
    rfl

theorem getLastD_eq_iff (hp : p ∉ xs) : xs.getLastD p = p ↔ xs = [] := by
  constructor
  · intro heq
    by_contra hne
    exact hp (heq ▸ getLastD_mem hne p)
  · rintro rfl
    rfl

/-- Two segments, each linked to the end of the other. -/
theorem dlinked_append (xs ys : List α) :
    DLinked next prev p (xs ++ ys) q ↔
      DLinked next prev p xs (ys.headD q) ∧ DLinked next prev (xs.getLastD p) ys q := by
  induction xs generalizing p with
  | nil => exact ⟨fun h => ⟨trivial, h⟩, fun h => h.2⟩
  | cons a xs ih =>
      rw [List.cons_append, List.getLastD_cons]
      show prev a = p ∧ next a = _ ∧ _ ↔ (prev a = p ∧ next a = _ ∧ _) ∧ _
      rw [ih, headD_append, and_assoc, and_assoc]

/-- The same nodes from the other end. -/
theorem dlinked_reverse (xs : List α) :
    DLinked prev next q xs.reverse p ↔ DLinked next prev p xs q := by
  induction xs generalizing p with
  | nil => exact Iff.rfl
  | cons a xs ih =>
      rw [List.reverse_cons, dlinked_append, List.headD_cons, ih, getLastD_reverse]
      show _ ∧ (next a = _ ∧ prev a = p ∧ True) ↔ prev a = p ∧ next a = _ ∧ _
      tauto

/-- Only the links of the nodes themselves matter. -/
theorem DLinked.congr (h : DLinked next prev p xs q) (hnext : ∀ a ∈ xs, next' a = next a)
    (hprev : ∀ a ∈ xs, prev' a = prev a) : DLinked next' prev' p xs q := by
  induction xs generalizing p with
  | nil => trivial
  | cons a xs ih =>
      obtain ⟨hp, hn, h⟩ := h
      refine ⟨(hprev a (by simp)).trans hp, (hnext a (by simp)).trans hn, ih h ?_ ?_⟩
      · exact fun b hb => hnext b (List.mem_cons_of_mem a hb)
      · exact fun b hb => hprev b (List.mem_cons_of_mem a hb)

/-- **A store to `next` of the last node** puts another node behind the segment. -/
theorem DLinked.relast (h : DLinked next prev p xs q) (hnodup : xs.Nodup)
    (hprev : ∀ a ∈ xs, prev' a = prev a)
    (hnext : ∀ a ∈ xs, a ≠ xs.getLastD p → next' a = next a)
    (hlast : xs ≠ [] → next' (xs.getLastD p) = r) : DLinked next' prev' p xs r := by
  rcases List.eq_nil_or_concat xs with rfl | ⟨ys, z, rfl⟩
  · trivial
  · rw [List.concat_eq_append] at *
    rw [List.getLastD_concat] at hnext hlast
    obtain ⟨hys, hz, -, -⟩ := (dlinked_append ys [z]).1 h
    have hnotin : z ∉ ys := (List.nodup_concat ys z).1 (by rwa [List.concat_eq_append]) |>.1
    refine (dlinked_append ys [z]).2 ⟨hys.congr ?_ ?_, ?_, hlast (by simp), trivial⟩
    · intro a ha
      exact hnext a (by simp [ha]) fun haz => hnotin (haz ▸ ha)
    · exact fun a ha => hprev a (by simp [ha])
    · exact (hprev z (by simp)).trans hz

/-- **A store to `prev` of the first node** puts another node before the segment. -/
theorem DLinked.rehead (h : DLinked next prev p xs q) (hnodup : xs.Nodup)
    (hnext : ∀ a ∈ xs, next' a = next a)
    (hprev : ∀ a ∈ xs, a ≠ xs.headD q → prev' a = prev a)
    (hhead : xs ≠ [] → prev' (xs.headD q) = r) : DLinked next' prev' r xs q := by
  rw [← dlinked_reverse] at h ⊢
  apply h.relast (List.nodup_reverse.2 hnodup)
  · exact fun a ha => hnext a (List.mem_reverse.1 ha)
  · intro a ha
    rw [getLastD_reverse]
    exact hprev a (List.mem_reverse.1 ha)
  · intro hne
    rw [getLastD_reverse]
    exact hhead fun hnil => hne (by rw [hnil, List.reverse_nil])

/-! ## Following the links -/

/-- The nodes on the way from `a` to `null`; `none` if there are `fuel` of them or more. -/
def follow [DecidableEq α] (next : α → α) (null : α) : Nat → α → Option (List α)
  | 0, _ => none
  | fuel + 1, a => if a = null then some [] else (follow next null fuel (next a)).map (a :: ·)

variable [DecidableEq α] {null : α} {fuel : Nat}

theorem DLinked.follow_next (h : DLinked next prev p xs null) (hnull : null ∉ xs)
    (hfuel : xs.length < fuel) : follow next null fuel (xs.headD null) = some xs := by
  induction xs generalizing p fuel with
  | nil =>
      obtain ⟨fuel, rfl⟩ : ∃ m, fuel = m + 1 := ⟨fuel - 1, by omega⟩
      rw [List.headD_nil, follow, if_pos rfl]
  | cons a xs ih =>
      obtain ⟨fuel, rfl⟩ : ∃ m, fuel = m + 1 := ⟨fuel - 1, by omega⟩
      obtain ⟨hne, hnull⟩ := not_or.1 (mt List.mem_cons.2 hnull)
      obtain ⟨-, hn, h⟩ := h
      rw [List.headD_cons, follow, if_neg (Ne.symm hne), hn,
        ih h hnull (Nat.lt_of_succ_lt_succ hfuel), Option.map_some]

theorem DLinked.follow_prev (h : DLinked next prev null xs q) (hnull : null ∉ xs)
    (hfuel : xs.length < fuel) : follow prev null fuel (xs.getLastD null) = some xs.reverse := by
  rw [← headD_reverse]
  exact ((dlinked_reverse xs).2 h).follow_next (by simpa using hnull) (by simpa using hfuel)

/-- The links of the nodes on the way. -/
theorem follow_links {a : α} (h : follow next null fuel a = some xs) :
    a = xs.headD null ∧ ∀ us b vs, xs = us ++ b :: vs → next b = vs.headD null := by
  induction fuel generalizing a xs with
  | zero => cases h
  | succ fuel ih =>
      rw [follow] at h
      split_ifs at h with ha
      · cases h
        refine ⟨ha, fun us b vs heq => ?_⟩
        cases us <;> cases heq
      · obtain ⟨ys, hys, rfl⟩ := Option.map_eq_some_iff.1 h
        obtain ⟨hhead, hlinks⟩ := ih hys
        refine ⟨rfl, fun us b vs heq => ?_⟩
        cases us with
        | nil =>
            cases heq
            exact hhead
        | cons c us =>
            cases heq
            exact hlinks us b vs rfl

omit [DecidableEq α] in
theorem dlinked_of_links
    (h : ∀ us b vs, xs = us ++ b :: vs → next b = vs.headD q ∧ prev b = us.getLastD p) :
    DLinked next prev p xs q := by
  induction xs generalizing p with
  | nil => trivial
  | cons a xs ih =>
      obtain ⟨hnext, hprev⟩ := h [] a xs rfl
      refine ⟨hprev, hnext, ih fun us b vs heq => ?_⟩
      have hb := h (a :: us) b vs (by rw [heq, List.cons_append])
      rwa [List.getLastD_cons] at hb

/-- **Links that can be followed from both ends** are those of a doubly linked list. -/
theorem dlinked_of_follow {a b : α} {fuel' : Nat} (hnext : follow next null fuel a = some xs)
    (hprev : follow prev null fuel' b = some xs.reverse) :
    DLinked next prev null xs null ∧ a = xs.headD null ∧ b = xs.getLastD null := by
  obtain ⟨hhead, hn⟩ := follow_links hnext
  obtain ⟨hlast, hp⟩ := follow_links hprev
  refine ⟨dlinked_of_links fun us c vs heq => ⟨hn us c vs heq, ?_⟩, hhead, ?_⟩
  · rw [← headD_reverse]
    refine hp vs.reverse c us.reverse ?_
    rw [heq, List.reverse_append, List.reverse_cons, List.append_assoc, List.singleton_append]
  · rw [hlast, headD_reverse]

end NowOS

import NowOS.Kheap.Run
import NowOS.Lib.Simulation

set_option autoImplicit false

/-! # What the heap is for

Seen from its callers a heap is a collection of objects. An object has a size and contents; an
allocation makes a new one, and a store changes one word of one object. Nothing else happens to an
object as long as it lives. In this view there are no headers, no free list, and no addresses other
than the pointers that name the objects.

`heap_refines_objects` says that the code can be used like that: in all runs in which the heap is
only expanded as it should be, what `kmalloc`, `kfree` and the stores of the callers do is a run of
the collection. -/

namespace NowOS

/-- An object: its size, and the word at each offset. -/
structure Object where
  size : Nat
  word : Nat → Nat

/-- The objects, by the pointers that name them. -/
abbrev Objects : Type := Nat → Option Object

namespace Objects

open KHeap

/-- What a call does with the objects. The contents of a new object are not known. -/
inductive Step : Call → Objects → Objects → Prop
  | kmalloc {n p : Nat} {x : Object} {o : Objects} (hfresh : o p = none)
      (hsize : alignUp n 4 ≤ x.size) :
      Step (.kmalloc n) o (Function.update o p (some x))
  | kfree {p : Nat} {x : Object} {o : Objects} (hx : o p = some x) :
      Step (.kfree p) o (Function.update o p none)
  | store {p i v : Nat} {x : Object} {o : Objects} (hx : o p = some x) (hi : i < x.size) :
      Step (.store (p + i) v) o
        (Function.update o p (some { x with word := Function.update x.word i v }))

/-- No objects. -/
def Empty (o : Objects) : Prop := ∀ p, o p = none

end Objects

namespace KHeap

namespace Client

/-- The heap has the objects `o`: they are named by the live pointers, and their words are in the
regions of these. -/
structure Represents (s : Client) (o : Objects) : Prop where
  live : ∀ p, o p = none ↔ p ∉ s.live
  size : ∀ p x, o p = some x → x.size = s.heap.size (sub32 p HEADER_SIZE)
  word : ∀ p x, o p = some x → ∀ i, i < x.size → x.word i = s.heap.mem (p + i)

section

variable {L : Layout} {s s' : Client} {bs : List Block} {e : Nat} {o : Objects}

/-- The size of a block is in its header. -/
theorem size_of_block {h : KHeap} (hi : Inv L h bs e) {b : Block} (hb : b ∈ bs) :
    h.size (sub32 (b.addr + 16) HEADER_SIZE) = b.size := by
  rw [sub32_header]
  exact (hi.links.magic_size hb).2

theorem Represents.mem_live (hr : Represents s o) {p : Nat} {x : Object} (hx : o p = some x) :
    p ∈ s.live := by
  by_contra hnot
  rw [(hr.live p).2 hnot] at hx
  cases hx

/-- A pointer that names an object belongs to a block in use, which has the size of the object. -/
theorem Represents.block (hr : Represents s o) (ho : Owned L s bs e) {p : Nat} {x : Object}
    (hx : o p = some x) : ∃ b ∈ bs, b.used = true ∧ p = b.addr + 16 ∧ x.size = b.size := by
  obtain ⟨b, hb, hu, rfl⟩ := ho.owned p (hr.mem_live hx)
  exact ⟨b, hb, hu, rfl, (hr.size _ x hx).trans (size_of_block ho.inv hb)⟩

/-- An object stays as it is if its block is kept with its payload. -/
theorem Represents.kept (hr : Represents s o) {h' : KHeap} {bs' : List Block} {e' : Nat}
    (hi' : Inv L h' bs' e') {b : Block} {x : Object} (hx : o (b.addr + 16) = some x)
    (hsize : x.size = b.size) (hb : b ∈ bs') (hmem : ∀ a, InPayload b a → h'.mem a = s.heap.mem a) :
    x.size = h'.size (sub32 (b.addr + 16) HEADER_SIZE) ∧
      ∀ i, i < x.size → x.word i = h'.mem (b.addr + 16 + i) := by
  refine ⟨hsize.trans (size_of_block hi' hb).symm, fun i hi => ?_⟩
  have hin : InPayload b (b.addr + 16 + i) := ⟨by omega, by omega⟩
  rw [hmem _ hin]
  exact hr.word _ x hx i hi

/-! ## Each call -/

theorem Represents.kmalloc {h' : KHeap} {n p : Nat} (hr : Represents s o) (ho : Owned L s bs e)
    (hx : Expandable L (.kmalloc n) s) (hok : s.heap.kmalloc L n = .ok (h', p)) :
    ∃ o', Objects.Step (.kmalloc n) o o' ∧ Represents ⟨h', p :: s.live⟩ o' := by
  obtain ⟨bs', e', ha, -⟩ := kmalloc_spec ho.inv (hx.canExpand ho.inv) hok
  obtain ⟨b, hb, -, rfl, hle, hfresh⟩ := ha.block
  have hnew : o (b.addr + 16) = none := by
    refine (hr.live _).2 fun hmem => ?_
    obtain ⟨c, hc, hcu, hpc⟩ := ho.owned _ hmem
    exact hfresh c hc hcu (by omega)
  -- an object other than the new one has its block in both chains
  have hkept : ∀ q x, o q = some x → x.size = h'.size (sub32 q HEADER_SIZE) ∧
      ∀ i, i < x.size → x.word i = h'.mem (q + i) := by
    intro q x hq
    obtain ⟨c, hc, hcu, rfl, hsize⟩ := hr.block ho hq
    exact hr.kept ha.inv hq hsize (ha.used c hc hcu) (ha.payload c hc hcu)
  refine ⟨Function.update o (b.addr + 16) (some ⟨b.size, fun i => h'.mem (b.addr + 16 + i)⟩),
    .kmalloc hnew hle, ?_, ?_, ?_⟩
  · intro q
    by_cases hq : q = b.addr + 16
    · rw [hq, Function.update_self]
      simp
    · rw [Function.update_of_ne hq, hr.live q, List.mem_cons, not_or]
      exact ⟨fun h => ⟨hq, h⟩, fun h => h.2⟩
  · intro q x hx
    by_cases hq : q = b.addr + 16
    · rw [hq, Function.update_self] at hx
      cases hx
      rw [hq]
      exact (size_of_block ha.inv hb).symm
    · rw [Function.update_of_ne hq] at hx
      exact (hkept q x hx).1
  · intro q x hx i hi
    by_cases hq : q = b.addr + 16
    · rw [hq, Function.update_self] at hx
      cases hx
      rw [hq]
    · rw [Function.update_of_ne hq] at hx
      exact (hkept q x hx).2 i hi

theorem Represents.kfree {h' : KHeap} {p : Nat} (hr : Represents s o) (ho : Owned L s bs e)
    (hp : p ∈ s.live) (hok : s.heap.kfree p = .ok h') :
    ∃ o', Objects.Step (.kfree p) o o' ∧ Represents ⟨h', s.live.erase p⟩ o' := by
  obtain ⟨y, hy, hyu, rfl⟩ := ho.owned p hp
  obtain ⟨l, r, rfl⟩ := List.append_of_mem hy
  obtain ⟨h2, hok2, hi, hblocks, -⟩ := kfree_spec ho.inv hyu
  rw [hok] at hok2
  cases hok2
  obtain ⟨x, hx⟩ : ∃ x, o (y.addr + 16) = some x :=
    Option.ne_none_iff_exists'.1 fun hnone => (hr.live _).1 hnone hp
  have hother : ∀ q x, Function.update o (y.addr + 16) none q = some x →
      q ≠ y.addr + 16 ∧ o q = some x := by
    intro q x hq
    by_cases heq : q = y.addr + 16
    · rw [heq, Function.update_self] at hq
      cases hq
    · rw [Function.update_of_ne heq] at hq
      exact ⟨heq, hq⟩
  have hkept : ∀ q x, Function.update o (y.addr + 16) none q = some x →
      x.size = h'.size (sub32 q HEADER_SIZE) ∧ ∀ i, i < x.size → x.word i = h'.mem (q + i) := by
    intro q x hq
    obtain ⟨hne, hq⟩ := hother q x hq
    obtain ⟨c, hc, hcu, rfl, hsize⟩ := hr.block ho hq
    obtain ⟨hc', hmem⟩ := hblocks c hc hcu (by omega)
    exact hr.kept hi hq hsize hc' hmem
  refine ⟨_, .kfree hx, ?_, fun q x hq => (hkept q x hq).1, fun q x hq => (hkept q x hq).2⟩
  intro q
  by_cases hq : q = y.addr + 16
  · rw [hq, Function.update_self]
    exact iff_of_true rfl ho.nodup.not_mem_erase
  · rw [Function.update_of_ne hq, hr.live q]
    exact not_congr (List.mem_erase_of_ne hq).symm

/-- A store to the region of a live pointer is to one word of its object. -/
theorem Represents.store {a v : Nat} (hr : Represents s o) (ho : Owned L s bs e)
    (ha : ∃ p ∈ s.live, s.InRegion p a) :
    ∃ o', Objects.Step (.store a v) o o' ∧
      Represents { s with heap := { s.heap with mem := Function.update s.heap.mem a v } } o' := by
  obtain ⟨p, hp, hin⟩ := ha
  have ho' := ho.store v hp hin
  obtain ⟨x, hx⟩ : ∃ x, o p = some x :=
    Option.ne_none_iff_exists'.1 fun hnone => (hr.live p).1 hnone hp
  obtain ⟨b, hb, hbu, rfl, hsize⟩ := hr.block ho hx
  have hpay : InPayload b a := (inRegion_iff ho.inv hb a).1 hin
  obtain ⟨i, rfl⟩ : ∃ i, a = b.addr + 16 + i := ⟨a - (b.addr + 16), by have := hpay.1; omega⟩
  have hi : i < x.size := by
    have := hpay.2
    omega
  -- the payloads of other blocks do not hold the address
  have hother : ∀ c ∈ bs, c ≠ b → ∀ a, InPayload c a →
      Function.update s.heap.mem (b.addr + 16 + i) v a = s.heap.mem a := by
    rintro c hc hne a ⟨hle, hlt⟩
    refine Function.update_of_ne ?_ _ _
    have h1 := hpay.1
    have h2 := hpay.2
    rcases ho.inv.tiles.disjoint hc hb hne with hd | hd <;> omega
  have hkept : ∀ q y, q ≠ b.addr + 16 → o q = some y →
      y.size = { s.heap with mem := Function.update s.heap.mem (b.addr + 16 + i) v }.size
        (sub32 q HEADER_SIZE) ∧
      ∀ j, j < y.size → y.word j = Function.update s.heap.mem (b.addr + 16 + i) v (q + j) := by
    intro q y hne hq
    obtain ⟨c, hc, -, rfl, hcsize⟩ := hr.block ho hq
    have hcb : c ≠ b := fun h => hne (by rw [h])
    exact hr.kept ho'.inv hq hcsize hc (hother c hc hcb)
  refine ⟨_, .store hx hi, ?_, ?_, ?_⟩
  · intro q
    by_cases hq : q = b.addr + 16
    · rw [hq, Function.update_self]
      exact iff_of_false (by simp) (not_not.2 hp)
    · rw [Function.update_of_ne hq]
      exact hr.live q
  · intro q y hy
    by_cases hq : q = b.addr + 16
    · rw [hq, Function.update_self] at hy
      cases hy
      rw [hq]
      exact hsize.trans (size_of_block ho'.inv hb).symm
    · rw [Function.update_of_ne hq] at hy
      exact (hkept q y hq hy).1
  · intro q y hy j hj
    by_cases hq : q = b.addr + 16
    · rw [hq, Function.update_self] at hy
      cases hy
      rw [hq]
      -- the word that was stored, or one that was there
      by_cases hji : j = i
      · rw [hji]
        simp only [Function.update_self]
      · have hne : b.addr + 16 + j ≠ b.addr + 16 + i := by omega
        simp only [Function.update_of_ne hji, Function.update_of_ne hne]
        exact hr.word _ x hx j hj
    · rw [Function.update_of_ne hq] at hy
      exact (hkept q y hq hy).2 j hj

/-! ## Whole runs -/

/-- **The heap refines a collection of objects.** In every run in which the heap is only expanded as
it should be, the calls are a run of the collection, and in the end the heap has its objects: what
an owner reads from its region is what it has stored there, whatever the other owners have done. -/
theorem heap_refines_objects {cs : List Call}
    (hr : Trace (Init L) (Guarded (Expandable L) (Step L)) cs s) :
    ∃ o, Trace Objects.Empty Objects.Step cs o ∧ Represents s o := by
  have hsim : ∃ o, Trace Objects.Empty Objects.Step cs o ∧ (∃ bs e, Owned L s bs e) ∧
      Represents s o := by
    refine hr.simulate (fun s o => (∃ bs e, Owned L s bs e) ∧ Represents s o) ?_ ?_
    · intro s hs
      refine ⟨fun _ => none, fun _ => rfl, ⟨_, _, owned_init hs⟩, ?_⟩
      obtain ⟨_, _, _, _, rfl⟩ := hs
      exact ⟨fun p => by simp, by simp, by simp⟩
    · rintro c s s' o ⟨⟨bs, e, ho⟩, hrep⟩ ⟨hx, hstep⟩
      obtain ⟨bs', e', ho', -⟩ := ho.step hx hstep
      obtain ⟨hvalid, hexec⟩ := hstep
      have hcall : ∃ o', Objects.Step c o o' ∧ Represents s' o' := by
        cases c with
        | kmalloc n =>
            simp only [exec] at hexec
            split at hexec
            next h' p hok =>
              cases hexec
              exact hrep.kmalloc ho hx hok
            next => cases hexec
        | kfree p =>
            simp only [exec] at hexec
            split at hexec
            next h' hok =>
              cases hexec
              exact hrep.kfree ho hvalid hok
            next => cases hexec
        | store a v =>
            cases hexec
            exact hrep.store ho hvalid
      obtain ⟨o', hstep', hrep'⟩ := hcall
      exact ⟨o', hstep', ⟨bs', e', ho'⟩, hrep'⟩
  obtain ⟨o, ht, -, hrep⟩ := hsim
  exact ⟨o, ht, hrep⟩

/-- An allocation after boot and a store to it. -/
theorem heap_refines_objects_store :
    ∃ s o, runList (call bootLayout) [.kmalloc 100, .store 0xC0128014 7] bootClient = some s ∧
      Trace Objects.Empty Objects.Step [.store 0xC0128014 7, .kmalloc 100] o ∧ Represents s o := by
  obtain ⟨s, hs⟩ := Option.isSome_iff_exists.1 (show
    (runList (call bootLayout) [.kmalloc 100, .store 0xC0128014 7] bootClient).isSome = true by
      decide +kernel)
  have hrun := hs
  unfold runList at hrun
  split at hrun
  next s1 h1 =>
    unfold runList at hrun
    split at hrun
    next s2 h2 =>
      cases hrun
      have hfits : Expandable bootLayout (.kmalloc 100) bootClient := by
        intro n hn hnone
        cases hn
        exact absurd hnone (by decide +kernel)
      have hstore : Expandable bootLayout (.store 0xC0128014 7) s1 := by
        intro n hn
        cases hn
      have ht1 : Trace (Init bootLayout) (Guarded (Expandable bootLayout) (Step bootLayout))
          [.kmalloc 100] s1 := (Trace.start init_bootClient).next _ ⟨hfits, step_of_call h1⟩
      obtain ⟨o, ht, hrep⟩ := heap_refines_objects
        (ht1.next (.store 0xC0128014 7) ⟨hstore, step_of_call h2⟩)
      exact ⟨s, o, hs, ht, hrep⟩
    next => cases hrun
  next => cases hrun

end

end Client

end KHeap

end NowOS

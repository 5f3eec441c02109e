import NowOS.Lib.Runs
import NowOS.Kheap.Kmalloc

set_option autoImplicit false

/-! # Runs of the heap

A run starts from the state that `init_kheap` leaves and makes calls of `kmalloc` and `kfree` that
return; between them the owners of the allocations store to their payloads. The ghost list `live`
holds the pointers that were returned and not yet freed. -/

namespace NowOS

namespace KHeap

open SortedArrayList

/-! ## Calls -/

/-- The heap, and the pointers that its callers own. -/
structure Client where
  heap : KHeap
  live : List Nat

/-- What a caller of the heap can do. -/
inductive Call
  | kmalloc (n : Nat)
  | kfree (p : Nat)
  | store (a v : Nat)
  deriving DecidableEq, Repr

namespace Client

/-- The address `a` lies in `[p, p + size)`, with the size recorded in the header of `p`. -/
def InRegion (s : Client) (p a : Nat) : Prop :=
  p ≤ a ∧ a < p + s.heap.size (sub32 p HEADER_SIZE)

instance (s : Client) (p a : Nat) : Decidable (s.InRegion p a) :=
  inferInstanceAs (Decidable (_ ∧ _))

/-- The calls that callers may make: sizes are `size_t` values, only a live pointer is freed, and
stores go to the regions of live pointers. -/
def Valid (s : Client) : Call → Prop
  | .kmalloc n => n < W32
  | .kfree p => p ∈ s.live
  | .store a _ => ∃ p ∈ s.live, s.InRegion p a

instance (s : Client) : (c : Call) → Decidable (s.Valid c)
  | .kmalloc n => inferInstanceAs (Decidable (n < W32))
  | .kfree p => inferInstanceAs (Decidable (p ∈ s.live))
  | .store a _ => inferInstanceAs (Decidable (∃ p ∈ s.live, s.InRegion p a))

/-- A call that returns. -/
def exec (L : Layout) (s : Client) : Call → Except Stop Client
  | .kmalloc n =>
      match s.heap.kmalloc L n with
      | .ok (h, p) => .ok ⟨h, p :: s.live⟩
      | .error stop => .error stop
  | .kfree p =>
      match s.heap.kfree p with
      | .ok h => .ok ⟨h, s.live.erase p⟩
      | .error stop => .error stop
  | .store a v => .ok { s with heap := { s.heap with mem := Function.update s.heap.mem a v } }

/-- A step of a run. -/
def Step (L : Layout) (c : Call) (s s' : Client) : Prop := s.Valid c ∧ s.exec L c = .ok s'

/-- The states that `init_kheap` can leave. The array of the free list is in memory that is zero
when the kernel starts, so that no cell of it holds a heap address. -/
def Init (L : Layout) (s : Client) : Prop :=
  ∃ mem arrPtr earlyHeapPtr, (∀ i, i < sub32 L.earlyHeapTop earlyHeapPtr / 4 →
    arrPtr i < L.heapBottom) ∧ s = ⟨initKheap L mem arrPtr earlyHeapPtr, []⟩

/-! ## Safety -/

/-- The nodes reached from `heap_bottom` by `next_ptr`. -/
inductive Node (L : Layout) (h : KHeap) : Nat → Prop
  | bottom : Node L h L.heapBottom
  | next {a : Nat} (ha : Node L h a) (hne : h.nextPtr a ≠ 0) : Node L h (h.nextPtr a)

/-- **Heap safety.** The regions of live pointers are disjoint, and no region overlaps the header
of a node of the chain or of the free list. -/
structure Safe (L : Layout) (s : Client) : Prop where
  regions : s.live.Pairwise (fun p q => ∀ a, ¬ (s.InRegion p a ∧ s.InRegion q a))
  headers : ∀ p ∈ s.live, ∀ node, Node L s.heap node ∨ node ∈ s.heap.freeNodeList.live →
    ∀ a, s.InRegion p a → a < node ∨ node + 16 ≤ a

/-- The calls whose expansion of the heap, if they need one, is in order: `heap_list_end_ptr` is
the last node of the chain, and `top_heap_ptr` does not wrap around. -/
def Expandable (L : Layout) (c : Call) (s : Client) : Prop :=
  ∀ n, c = .kmalloc n → s.heap.heapFindFreeNode (alignUp n 4) = .ok 0 →
    (Node L s.heap s.heap.heapListEndPtr ∧ s.heap.nextPtr s.heap.heapListEndPtr = 0) ∧
      ∀ count, expandCountOf (alignUp n 4) = some count → s.heap.topHeapPtr + count < W32

/-- The calls that expand the heap: no listed node is large enough for the request. -/
def Expands (c : Call) (s : Client) : Prop :=
  ∃ n, c = .kmalloc n ∧ s.heap.heapFindFreeNode (alignUp n 4) = .ok 0

/-! ## The chain of an invariant state -/

section

variable {L : Layout} {h : KHeap} {bs : List Block} {e : Nat} {s s' : Client}

theorem Node.mem (hc : Chain L h bs e) {a : Nat} (hn : Node L h a) : ∃ b ∈ bs, b.addr = a := by
  induction hn with
  | bottom =>
      cases bs with
      | nil => exact absurd rfl hc.ne
      | cons b bs => exact ⟨b, by simp, hc.tiles.1⟩
  | next _ hne ih =>
      obtain ⟨b, hb, rfl⟩ := ih
      obtain ⟨l, r, rfl⟩ := List.append_of_mem hb
      have hnext : h.nextPtr b.addr = headAddr r 0 := hc.links.header.2.1
      rw [hnext] at hne ⊢
      cases r with
      | nil => exact absurd rfl hne
      | cons c r => exact ⟨c, by simp, rfl⟩

/-- The node without a successor is the last block. -/
theorem Node.eq_last (hc : Chain L h bs e) {a : Nat} (hn : Node L h a) (h0 : h.nextPtr a = 0) :
    a = lastAddr 0 bs := by
  obtain ⟨b, hb, rfl⟩ := hn.mem hc
  obtain ⟨l, r, rfl⟩ := List.append_of_mem hb
  have hnext : h.nextPtr b.addr = headAddr r 0 := hc.links.header.2.1
  cases r with
  | nil =>
      rw [lastAddr_append]
      rfl
  | cons c r =>
      have hpos := hc.addr_pos (x := c) (by simp)
      rw [hnext, headAddr_cons] at h0
      omega

theorem Expandable.canExpand {n : Nat} (hi : Inv L s.heap bs e)
    (hx : Expandable L (.kmalloc n) s) : CanExpand s.heap bs n := by
  intro hfind
  obtain ⟨⟨hnode, hlast⟩, htop⟩ := hx n rfl hfind
  exact ⟨hnode.eq_last hi.chain hlast, htop⟩

/-! ## The invariant of a run -/

/-- **The invariant of a run**: every live pointer is the payload of a block in use. -/
structure Owned (L : Layout) (s : Client) (bs : List Block) (e : Nat) : Prop where
  inv : Inv L s.heap bs e
  nodup : s.live.Nodup
  owned : ∀ p ∈ s.live, ∃ b ∈ bs, b.used = true ∧ p = b.addr + 16

/-- The region of a live pointer is the payload of its block. -/
theorem inRegion_iff (hi : Inv L s.heap bs e) {b : Block} (hb : b ∈ bs) (a : Nat) :
    s.InRegion (b.addr + 16) a ↔ InPayload b a := by
  have hsub : sub32 (b.addr + 16) HEADER_SIZE = b.addr := sub32_header b.addr
  have hsize : s.heap.size b.addr = b.size := (hi.links.magic_size hb).2
  unfold InRegion InPayload
  rw [hsub, hsize]

theorem Owned.safe (ho : Owned L s bs e) : Safe L s where
  regions := by
    refine ho.nodup.imp_of_mem ?_
    intro p q hp hq hne a
    obtain ⟨b, hb, -, rfl⟩ := ho.owned p hp
    obtain ⟨c, hc, -, rfl⟩ := ho.owned q hq
    rw [inRegion_iff ho.inv hb, inRegion_iff ho.inv hc]
    rintro ⟨⟨hb1, hb2⟩, hc1, hc2⟩
    have hbc : b ≠ c := fun h => hne (by rw [h])
    rcases ho.inv.tiles.disjoint hb hc hbc with hd | hd <;> omega
  headers := by
    intro p hp node hnode a ha
    obtain ⟨b, hb, -, rfl⟩ := ho.owned p hp
    rw [inRegion_iff ho.inv hb] at ha
    obtain ⟨c, hc, rfl⟩ : ∃ c ∈ bs, c.addr = node := by
      rcases hnode with hnode | hnode
      · exact hnode.mem ho.inv.chain
      · obtain ⟨c, hc, -, hca⟩ := (mem_freeAddrs bs node).1 (ho.inv.listed node hnode)
        exact ⟨c, hc, hca⟩
    exact not_header_of_payload ho.inv.tiles hb hc ha

/-! ## Each call keeps the invariant -/

theorem Owned.kmalloc {h' : KHeap} {n p : Nat} (ho : Owned L s bs e)
    (hx : Expandable L (.kmalloc n) s) (hok : s.heap.kmalloc L n = .ok (h', p)) :
    ∃ bs' e', Owned L ⟨h', p :: s.live⟩ bs' e' ∧ EndAfter s.heap h' e e' n := by
  obtain ⟨bs', e', ha, hends, -⟩ := kmalloc_spec ho.inv (hx.canExpand ho.inv) hok
  obtain ⟨b, hb, hbu, rfl, -, hfresh⟩ := ha.block
  refine ⟨bs', e', ⟨ha.inv, List.nodup_cons.2 ⟨?_, ho.nodup⟩, ?_⟩, hends⟩
  · intro hmem
    obtain ⟨c, hc, hcu, hpc⟩ := ho.owned _ hmem
    exact hfresh c hc hcu (by omega)
  · intro q hq
    rcases List.mem_cons.mp hq with rfl | hq
    · exact ⟨b, hb, hbu, rfl⟩
    · obtain ⟨c, hc, hcu, hqc⟩ := ho.owned q hq
      exact ⟨c, ha.used c hc hcu, hcu, hqc⟩

theorem Owned.kfree {h' : KHeap} {p : Nat} (ho : Owned L s bs e) (hp : p ∈ s.live)
    (hok : s.heap.kfree p = .ok h') :
    ∃ bs', Owned L ⟨h', s.live.erase p⟩ bs' e ∧ h'.topHeapPtr = s.heap.topHeapPtr := by
  obtain ⟨x, hx, hxu, rfl⟩ := ho.owned p hp
  obtain ⟨l, r, rfl⟩ := List.append_of_mem hx
  obtain ⟨h2, hok2, hi, hkept, htop, -⟩ := kfree_spec ho.inv hxu
  rw [hok] at hok2
  cases hok2
  refine ⟨_, ⟨hi, ho.nodup.erase _, ?_⟩, htop⟩
  intro q hq
  obtain ⟨hne, hq⟩ := (ho.nodup.mem_erase_iff).1 hq
  obtain ⟨c, hc, hcu, hqc⟩ := ho.owned q hq
  exact ⟨c, (hkept c hc hcu (by omega)).1, hcu, hqc⟩

theorem Owned.store {p a : Nat} (v : Nat) (ho : Owned L s bs e) (hp : p ∈ s.live)
    (ha : s.InRegion p a) :
    Owned L { s with heap := { s.heap with mem := Function.update s.heap.mem a v } } bs e := by
  obtain ⟨b, hb, -, rfl⟩ := ho.owned p hp
  rw [inRegion_iff ho.inv hb] at ha
  have hi := ho.inv
  refine ⟨⟨hi.ne, hi.tiles, hi.links.congr ?_, hi.sizes, hi.coalesced, hi.fits, hi.list, hi.listed,
    hi.top_aligned, hi.top_le, hi.le_top⟩, ho.nodup, ho.owned⟩
  intro c hc x hx hx'
  have := not_header_of_payload hi.tiles hb hc ha
  exact Function.update_of_ne (by omega) _ _

/-- The state that `init_kheap` leaves: one free block, and the free list with it. -/
theorem initKheap_eq (L : Layout) (mem arrPtr : Nat → Nat) (earlyHeapPtr : Nat) :
    initKheap L mem arrPtr earlyHeapPtr =
      ⟨putHeader (fun a => if L.heapBottom ≤ a ∧ a < L.heapTop then 0 else mem a) L.heapBottom false
          0 0 4080,
        (insertList L.heapBottom
          (initSortedList arrPtr (sub32 L.earlyHeapTop earlyHeapPtr / 4))).2,
        L.heapBottom + 4096, L.heapBottom⟩ := by
  have hal := L.heapBottom_aligned
  have hlt := L.heapTop_lt
  have htop := L.heapTop_eq
  have h1 : alignUp L.heapBottom 4 = L.heapBottom := alignUp_of_aligned (by omega)
  have h2 : add32 L.heapBottom HEAP_EXPAND_SIZE = L.heapBottom + 4096 :=
    add32_of_lt (by unfold W32 HEAP_EXPAND_SIZE KB; omega)
  have h3 : add32 L.heapBottom HEADER_SIZE = L.heapBottom + 16 :=
    add32_of_lt (by unfold W32 HEADER_SIZE; omega)
  have h4 : sub32 (L.heapBottom + 4096) (L.heapBottom + 16) = 4080 := by
    rw [sub32_of_le (by omega)]
    omega
  unfold initKheap
  simp only [h1, h2, h3, h4, heapSetHeader, insertFree]

theorem owned_init (hs : Init L s) :
    Owned L s [⟨L.heapBottom, 4080, false⟩] (L.heapBottom + 4096) := by
  obtain ⟨mem, arrPtr, earlyHeapPtr, harr, rfl⟩ := hs
  have hal := L.heapBottom_aligned
  have hlt := L.heapTop_lt
  have htop := L.heapTop_eq
  have hP : HeapAddr L L.heapBottom := Nat.le_refl _
  have hearly : L.earlyHeapTop < W32 := by
    have := L.fits
    unfold Layout.earlyHeapTop
    omega
  have hsize : sub32 L.earlyHeapTop earlyHeapPtr / 4 < W32 :=
    Nat.lt_of_le_of_lt (Nat.div_le_self _ _) (sub32_lt _ hearly)
  have hok : (initSortedList arrPtr (sub32 L.earlyHeapTop earlyHeapPtr / 4)).Ok (HeapAddr L) :=
    ok_initSortedList hsize fun i hi => Nat.not_le.2 (harr i hi)
  rw [initKheap_eq]
  refine ⟨⟨by simp, ⟨rfl, rfl⟩, ⟨header_putHeader _ ⟨L.heapBottom, 4080, false⟩ 0 0, trivial⟩, ?_,
    List.isChain_singleton _, ?_, ok_insertList hok hP, ?_, ?_, Nat.le_refl _,
    Nat.le_add_right _ 16⟩, List.nodup_nil, by simp⟩
  · intro b hb
    rw [List.mem_singleton.mp hb]
    show 4080 % 4 = 0
    decide
  · unfold W32
    omega
  · intro a ha
    rcases mem_live_insertList_imp hok hP ha with rfl | ha
    · simp [freeAddrs]
    · rw [live_initSortedList] at ha
      cases ha
  · show (L.heapBottom + 4096) % 4 = 0
    omega

/-- **A step keeps the invariant.** The end of the chain moves only when the heap is expanded; it is
one header behind `top_heap_ptr` then. -/
theorem Owned.step {c : Call} (ho : Owned L s bs e) (hx : Expandable L c s)
    (hs : Step L c s s') :
    ∃ bs' e', Owned L s' bs' e' ∧
      (¬ Expands c s → e' = e ∧ s'.heap.topHeapPtr = s.heap.topHeapPtr) ∧
      (Expands c s → e' = s'.heap.topHeapPtr + 16) := by
  obtain ⟨hvalid, hexec⟩ := hs
  cases c with
  | kmalloc n =>
      simp only [exec] at hexec
      split at hexec
      next h' p hok =>
        cases hexec
        obtain ⟨bs', e', ho', hends⟩ := ho.kmalloc hx hok
        refine ⟨bs', e', ho', fun hno => hends.kept fun hnone => hno ⟨n, rfl, hnone⟩, ?_⟩
        rintro ⟨m, hm, hnone⟩
        cases hm
        exact hends.expanded hnone
      next => cases hexec
  | kfree p =>
      simp only [exec] at hexec
      split at hexec
      next h' hok =>
        cases hexec
        obtain ⟨bs', ho', htop⟩ := ho.kfree hvalid hok
        refine ⟨bs', e, ho', fun _ => ⟨rfl, htop⟩, ?_⟩
        rintro ⟨m, hm, -⟩
        cases hm
      next => cases hexec
  | store a v =>
      obtain ⟨p, hp, ha⟩ := hvalid
      cases hexec
      refine ⟨bs, e, ho.store v hp ha, fun _ => ⟨rfl, rfl⟩, ?_⟩
      rintro ⟨m, hm, -⟩
      cases hm

/-! ## Whole runs -/

/-- Make a call, if it is valid and returns. -/
def call (L : Layout) (c : Call) (s : Client) : Option Client :=
  if s.Valid c then (s.exec L c).toOption else none

theorem step_of_call {c : Call} (h : call L c s = some s') : Step L c s s' := by
  unfold call at h
  split_ifs at h with hv
  refine ⟨hv, ?_⟩
  cases he : s.exec L c with
  | error stop =>
      rw [he] at h
      cases h
  | ok s1 =>
      rw [he] at h
      cases h
      rfl

/-- A layout with the heaps at `0xC0110000`. -/
def bootLayout : Layout := ⟨0xC0110000, by decide, by decide, by decide⟩

/-- The heap right after boot, with `early_heap_ptr` in the middle of the early heap. -/
def bootClient : Client :=
  ⟨initKheap bootLayout (fun _ => 0) (fun _ => 0) (bootLayout.earlyHeapBottom + 16384), []⟩

/-- Along such a run the chain ends at `top_heap_ptr`, or one header behind it once the heap has
been expanded. -/
theorem owned_ends (hr : Reach (Init L) (Guarded (Expandable L) (Step L)) s) :
    ∃ bs e, Owned L s bs e ∧ (e = s.heap.topHeapPtr ∨ e = s.heap.topHeapPtr + 16) := by
  refine hr.invariant (I := fun s => ∃ bs e, Owned L s bs e ∧
    (e = s.heap.topHeapPtr ∨ e = s.heap.topHeapPtr + 16)) ?_ ?_
  · intro s hs
    refine ⟨_, _, owned_init hs, Or.inl ?_⟩
    obtain ⟨mem, arrPtr, earlyHeapPtr, -, rfl⟩ := hs
    rw [initKheap_eq]
  · rintro c s s' ⟨bs, e, ho, hends⟩ ⟨hx, hstep⟩
    obtain ⟨bs', e', ho', hkept, hexpanded⟩ := ho.step hx hstep
    refine ⟨bs', e', ho', ?_⟩
    by_cases hex : Expands c s
    · exact Or.inr (hexpanded hex)
    · obtain ⟨rfl, htop⟩ := hkept hex
      rw [htop]
      exact hends

theorem owned_of_expandable (hr : Reach (Init L) (Guarded (Expandable L) (Step L)) s) :
    ∃ bs e, Owned L s bs e := by
  obtain ⟨bs, e, ho, -⟩ := owned_ends hr
  exact ⟨bs, e, ho⟩

/-- **Heap safety over whole runs.** As long as the heap is only expanded when `heap_list_end_ptr`
is the last node and `top_heap_ptr` does not wrap around, every state of a run is safe. -/
theorem heap_safe (hr : Reach (Init L) (Guarded (Expandable L) (Step L)) s) : Safe L s := by
  obtain ⟨bs, e, ho⟩ := owned_of_expandable hr
  exact ho.safe

theorem init_bootClient : Init bootLayout bootClient := by
  refine ⟨fun _ => 0, fun _ => 0, bootLayout.earlyHeapBottom + 16384, ?_, rfl⟩
  intro i _
  exact zero_lt_heapBottom bootLayout

/-- The heap after boot when eight bytes of the early heap are left. -/
def tightClient : Client :=
  ⟨initKheap bootLayout (fun _ => 0) (fun _ => 0) (bootLayout.earlyHeapTop - 8), []⟩

theorem init_tightClient : Init bootLayout tightClient := by
  refine ⟨fun _ => 0, fun _ => 0, bootLayout.earlyHeapTop - 8, ?_, rfl⟩
  intro i _
  exact zero_lt_heapBottom bootLayout

/-- The first allocation after boot may be one that expands the heap. -/
theorem heap_safe_expand :
    ∃ s, call bootLayout (.kmalloc 5000) bootClient = some s ∧ Safe bootLayout s := by
  obtain ⟨s, hs⟩ := Option.isSome_iff_exists.1 (show
    (call bootLayout (.kmalloc 5000) bootClient).isSome = true by decide +kernel)
  refine ⟨s, hs,
    heap_safe (.next (.kmalloc 5000) (.start init_bootClient) ⟨?_, step_of_call hs⟩)⟩
  intro n hn _
  cases hn
  have hend : bootClient.heap.heapListEndPtr = bootLayout.heapBottom := by
    unfold bootClient
    rw [initKheap_eq]
  refine ⟨⟨?_, by decide +kernel⟩, ?_⟩
  · rw [hend]
    exact .bottom
  · intro count hcount
    have h8192 : expandCountOf (alignUp 5000 4) = some 8192 := by decide +kernel
    rw [h8192] at hcount
    cases hcount
    decide +kernel

/-- **The heap is not safe in every run.** The freed node is merged into the node before it, but
`heap_list_end_ptr` still points into it when the heap is expanded next. Two live regions overlap
in the end. -/
theorem heap_unsafe_after_expand :
    ∃ s, runList (call bootLayout)
        [.kmalloc 100, .kfree 0xC0128010, .kmalloc 5000, .kmalloc 4000] bootClient = some s ∧
      Reach (Init bootLayout) (Step bootLayout) s ∧ ¬ Safe bootLayout s := by
  have hrun : (runList (call bootLayout)
      [.kmalloc 100, .kfree 0xC0128010, .kmalloc 5000, .kmalloc 4000] bootClient).any (fun s =>
        s.live == [0xC0128010, 0xC0128084] && decide (s.InRegion 0xC0128010 0xC0128084) &&
          decide (s.InRegion 0xC0128084 0xC0128084)) = true := by decide +kernel
  obtain ⟨s, hs, hover⟩ := (Option.any_eq_true _ _).1 hrun
  simp only [Bool.and_eq_true, beq_iff_eq, decide_eq_true_eq] at hover
  obtain ⟨⟨hlive, hp⟩, hq⟩ := hover
  refine ⟨s, hs, reach_runList (fun _ _ _ => step_of_call) (.start init_bootClient) hs,
    fun hsafe => ?_⟩
  have hdis := hsafe.regions
  rw [hlive, List.pairwise_cons] at hdis
  exact hdis.1 0xC0128084 (by simp) 0xC0128084 ⟨hp, hq⟩

end

end Client

end KHeap

end NowOS

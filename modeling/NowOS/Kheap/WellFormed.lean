import NowOS.Kheap.Termination

set_option autoImplicit false

/-! # One step from a well-formed heap

The representation invariant of the heap clause by clause, and that each call of `kmalloc` and
`kfree` keeps it. A request is rounded up to a multiple of four before anything looks at it; the
last three 32-bit sizes are rounded up to `0`, and `kmalloc` returns a node that is too small. -/

namespace NowOS

namespace KHeap

open SortedArrayList

/-- **A well-formed heap**, with the blocks `bs` of its chain and the address `e` behind the last
one. -/
structure WellFormed (L : Layout) (h : KHeap) (bs : List Block) (e : Nat) : Prop where
  /-- There is a node at `heap_bottom`, and each node begins where the one before it ends. -/
  ne : bs ≠ []
  tiles : Tiles 16 L.heapBottom bs e
  fits : e < W32
  /-- The headers hold `USED` or `FREE`, `next_ptr`, its inverse `prev_ptr`, and the sizes. -/
  links : Links h.mem 0 bs 0
  aligned : ∀ b ∈ bs, b.addr % 4 = 0 ∧ b.size % 4 = 0
  coalesced : NoAdjacentFree bs
  /-- The free list is the list of free nodes, in an array whose unused cells hold no heap
  address. -/
  array : h.freeNodeList.Ok (HeapAddr L)
  free_list : h.freeNodeList.live = freeAddrs bs
  top_aligned : h.topHeapPtr % 4 = 0
  top_le : h.topHeapPtr ≤ e
  le_top : e ≤ h.topHeapPtr + 16

section

variable {L : Layout} {h h' : KHeap} {bs bs' : List Block} {e : Nat}

theorem WellFormed.inv (hw : WellFormed L h bs e) : Inv L h bs e where
  ne := hw.ne
  tiles := hw.tiles
  links := hw.links
  sizes := fun b hb => (hw.aligned b hb).2
  coalesced := hw.coalesced
  fits := hw.fits
  list := hw.array
  listed := fun _ ha => hw.free_list ▸ ha
  top_aligned := hw.top_aligned
  top_le := hw.top_le
  le_top := hw.le_top

theorem WellFormed.complete (hw : WellFormed L h bs e) : Complete h bs :=
  fun _ ha => hw.free_list.symm ▸ ha

/-- The clauses follow from the invariant that the calls keep, if every free block is listed: two
increasing lists with the same elements are equal. -/
theorem Inv.wellFormed (hi : Inv L h bs e) (hc : Complete h bs) : WellFormed L h bs e where
  ne := hi.ne
  tiles := hi.tiles
  fits := hi.fits
  links := hi.links
  aligned := by
    have hbottom := L.heapBottom_aligned
    have haddr := (addr_aligned hi.tiles (by omega) hi.sizes).1
    exact fun b hb => ⟨haddr b hb, hi.sizes b hb⟩
  coalesced := hi.coalesced
  array := hi.list
  free_list := by
    refine List.Pairwise.eq_of_mem_iff hi.list.sorted (freeAddrs_sorted hi.tiles (by decide)) ?_
    intro a
    exact ⟨hi.listed a, hc a⟩
  top_aligned := hi.top_aligned
  top_le := hi.top_le
  le_top := hi.le_top

/-- The blocks in use other than the one at address `node` are kept, with their payloads. -/
def KeepsUsed (h h' : KHeap) (bs bs' : List Block) (node : Nat) : Prop :=
  ∀ b ∈ bs, b.used = true → b.addr ≠ node → b ∈ bs' ∧ ∀ a, InPayload b a → h'.mem a = h.mem a

/-- What a call `kmalloc(n)` that returned `p` is to have done. -/
def MallocPost (L : Layout) (h h' : KHeap) (bs : List Block) (n p : Nat) : Prop :=
  ∃ bs' e', WellFormed L h' bs' e' ∧
    (∃ b ∈ bs', b.used = true ∧ p = b.addr + 16 ∧ n ≤ b.size ∧
      ∀ c ∈ bs, c.used = true → c.addr ≠ b.addr) ∧
    KeepsUsed h h' bs bs' (p - 16)

/-- A request that expands the heap wraps around neither in the aligned size nor in
`top_heap_ptr`. -/
def NoWrap (h : KHeap) (n : Nat) : Prop :=
  h.heapFindFreeNode (alignUp n 4) = .ok 0 →
    n ≤ 0xFFFFFFFC ∧
      ∀ count, expandCountOf (alignUp n 4) = some count → h.topHeapPtr + count < W32

theorem kfree_post (hw : WellFormed L h bs e)
    (hroom : h.freeNodeList.currSize < h.freeNodeList.arrSize) {x : Block} (hx : x ∈ bs)
    (hu : x.used = true) :
    ∃ h' bs' e', h.kfree (x.addr + 16) = .ok h' ∧ WellFormed L h' bs' e' ∧
      KeepsUsed h h' bs bs' x.addr := by
  obtain ⟨l, r, rfl⟩ := List.append_of_mem hx
  obtain ⟨h', hok, hi, hkept, -, -, -, hcompl⟩ := kfree_spec hw.inv hu
  exact ⟨h', _, e, hok, hi.wellFormed (hcompl hroom hw.complete), hkept⟩

/-- A request that is not rounded up past the last word is served as it should be. -/
theorem mallocPost_of_le {n p : Nat} (hw : WellFormed L h bs e)
    (hend : h.heapListEndPtr = lastAddr 0 bs)
    (hroom : h.freeNodeList.currSize < h.freeNodeList.arrSize)
    (hok : h.kmalloc L n = .ok (h', p)) (hwrap : NoWrap h n) (hn : n ≤ 0xFFFFFFFC) :
    MallocPost L h h' bs n p := by
  have hcan : CanExpand h bs n := fun hfind => ⟨hend, (hwrap hfind).2⟩
  obtain ⟨bs', e', ha, -, hcompl⟩ := kmalloc_spec hw.inv hcan hok
  obtain ⟨b, hb, hbu, hbp, hbn, hfresh⟩ := ha.block
  have hle := (alignUp_four hn).1
  refine ⟨bs', e', ha.inv.wellFormed (hcompl hroom hw.complete),
    ⟨b, hb, hbu, hbp, by omega, hfresh⟩, ?_⟩
  intro c hc hcu _
  exact ⟨ha.used c hc hcu, ha.payload c hc hcu⟩

/-- No node is large enough for one of the last three sizes. -/
theorem MallocPost.le {n p : Nat} (hp : MallocPost L h h' bs n p) : n ≤ 0xFFFFFFFC := by
  obtain ⟨bs', e', hw, ⟨b, hb, -, -, hbn, -⟩, -⟩ := hp
  have hbounds := hw.tiles.bounds hb
  have hfits := hw.fits
  have hbottom := L.heapBottom_pos
  unfold W32 at hfits
  omega

/-- The sizes for which `kmalloc` does not spin, if it does not panic. -/
theorem kmalloc_ok_iff {n : Nat} (hi : Inv L h bs e) (hn : n < W32)
    (hpanic : ¬ ∃ msg, h.kmalloc L n = .error (.panic msg)) :
    (∃ h' p, h.kmalloc L n = .ok (h', p)) ↔
      (∃ a ∈ h.freeNodeList.live, alignUp n 4 ≤ h.size a) ∨ ¬ OnLastPage n := by
  obtain ⟨node, hnode, hfit, hnone⟩ := heapFindFreeNode_spec hi (alignUp n 4)
  have hspin : h.kmalloc L n = .error .spin ↔ node = 0 ∧ OnLastPage n := by
    rw [← expandCountOf_eq_none_iff hn]
    constructor
    · intro hs
      obtain ⟨hfind, hcount⟩ := kmalloc_spin hs
      rw [hnode] at hfind
      exact ⟨Except.ok.inj hfind, hcount⟩
    · rintro ⟨rfl, hcount⟩
      exact kmalloc_of_spin hnode hcount
  have hlisted : (∃ a ∈ h.freeNodeList.live, alignUp n 4 ≤ h.size a) ↔ node ≠ 0 := by
    constructor
    · rintro ⟨a, ha, hle⟩ h0
      have := hnone h0 a ha
      omega
    · intro h0
      obtain ⟨hlive, l, x, r, rfl, -, rfl, hxn⟩ := hfit h0
      have hsize : h.size x.addr = x.size := (hi.links.magic_size (by simp)).2
      exact ⟨_, hlive, by omega⟩
  rw [hlisted, ← not_and_or, ← hspin]
  cases hk : h.kmalloc L n with
  | ok r =>
      refine ⟨fun _ hs => ?_, fun _ => ⟨r.1, r.2, rfl⟩⟩
      cases hs
  | error stop =>
      cases stop with
      | panic msg => exact absurd ⟨msg, hk⟩ hpanic
      | spin =>
          refine ⟨?_, fun hne => absurd rfl hne⟩
          rintro ⟨h', p, hok⟩
          cases hok

/-- **One-step preservation.** From a well-formed heap with `heap_list_end_ptr` at the last node and
room on the free list, `kfree` of any node in use keeps the heap well formed. A `kmalloc` that does
not panic, and on its expanding path does not wrap around, returns a node with as many bytes as were
asked for, and keeps the heap well formed, exactly if the size is at most `0xFFFFFFFC` and, when no
listed node is large enough, at most `0xFFFFEFFC`. -/
theorem kheap_step_wellFormed (hw : WellFormed L h bs e) (hend : h.heapListEndPtr = lastAddr 0 bs)
    (hroom : h.freeNodeList.currSize < h.freeNodeList.arrSize) :
    (∀ x ∈ bs, x.used = true → ∃ h' bs' e', h.kfree (x.addr + 16) = .ok h' ∧
      WellFormed L h' bs' e' ∧ KeepsUsed h h' bs bs' x.addr) ∧
    (∀ n, n < W32 → NoWrap h n → (¬ ∃ msg, h.kmalloc L n = .error (.panic msg)) →
      ((∃ h' p, h.kmalloc L n = .ok (h', p) ∧ MallocPost L h h' bs n p) ↔
        n ≤ 0xFFFFFFFC ∧
          ((∃ a ∈ h.freeNodeList.live, alignUp n 4 ≤ h.size a) ∨ n ≤ 0xFFFFEFFC))) := by
  constructor
  · intro x hx hu
    exact kfree_post hw hroom hx hu
  · intro n hn hwrap hpanic
    have hreturns := kmalloc_ok_iff hw.inv hn hpanic
    unfold OnLastPage at hreturns
    constructor
    · rintro ⟨h', p, hok, hp⟩
      refine ⟨hp.le, (hreturns.1 ⟨h', p, hok⟩).imp_right fun hno => ?_⟩
      have := hp.le
      omega
    · rintro ⟨hle, hserved⟩
      obtain ⟨h', p, hok⟩ := hreturns.2 (hserved.imp_right fun hsmall => by omega)
      exact ⟨h', p, hok, mallocPost_of_le hw hend hroom hok hwrap hle⟩

/-! ## The heap after boot -/

open Client

/-- The block that `init_kheap` makes. -/
def bootBlock : Block := ⟨bootLayout.heapBottom, 4080, false⟩

theorem wellFormed_boot :
    WellFormed bootLayout bootClient.heap [bootBlock] (bootLayout.heapBottom + 4096) := by
  refine (owned_init init_bootClient).inv.wellFormed ?_
  have hlive : bootLayout.heapBottom ∈ bootClient.heap.freeNodeList.live := by decide +kernel
  intro a ha
  obtain ⟨b, hb, -, rfl⟩ := (mem_freeAddrs _ a).1 ha
  rw [List.mem_singleton.mp hb]
  exact hlive

theorem bootClient_endPtr : bootClient.heap.heapListEndPtr = lastAddr 0 [bootBlock] := by
  unfold bootClient
  rw [initKheap_eq]
  rfl

/-- Right after boot, every request of at most `4080` bytes is served without an expansion. -/
theorem noWrap_boot {n : Nat} (hn : alignUp n 4 ≤ 4080) : NoWrap bootClient.heap n := by
  intro hfind
  obtain ⟨node, hnode, -, hzero⟩ := heapFindFreeNode_spec wellFormed_boot.inv (alignUp n 4)
  rw [hfind] at hnode
  cases hnode
  have hlive : bootLayout.heapBottom ∈ bootClient.heap.freeNodeList.live := by decide +kernel
  have hsize : bootClient.heap.size bootLayout.heapBottom = 4080 := by decide +kernel
  have := hzero rfl _ hlive
  omega

/-- A request that fits the first node, and one that expands the heap. -/
theorem kheap_step_wellFormed_boot :
    (∃ h' p, bootClient.heap.kmalloc bootLayout 100 = .ok (h', p) ∧
      MallocPost bootLayout bootClient.heap h' [bootBlock] 100 p) ∧
    ∃ h' p, bootClient.heap.kmalloc bootLayout 5000 = .ok (h', p) ∧
      MallocPost bootLayout bootClient.heap h' [bootBlock] 5000 p := by
  have hstep := kheap_step_wellFormed wellFormed_boot bootClient_endPtr (by decide +kernel)
  have hpanic : ∀ n, (bootClient.heap.kmalloc bootLayout n).toBool = true →
      ¬ ∃ msg, bootClient.heap.kmalloc bootLayout n = .error (.panic msg) := by
    rintro n hok ⟨msg, hk⟩
    rw [hk] at hok
    cases hok
  constructor
  · exact (hstep.2 100 (by decide) (noWrap_boot (by decide))
      (hpanic 100 (by decide +kernel))).2 ⟨by decide, Or.inr (by decide)⟩
  · refine (hstep.2 5000 (by decide) ?_ (hpanic 5000 (by decide +kernel))).2
      ⟨by decide, Or.inr (by decide)⟩
    refine fun _ => ⟨by decide, fun count hcount => ?_⟩
    rw [expandCountOf_eq (by decide)] at hcount
    cases hcount
    decide +kernel

/-- **`kmalloc(0xFFFFFFFF)` succeeds.** Right after boot, it returns a node of size `0`. -/
theorem kmalloc_max_too_small :
    WellFormed bootLayout bootClient.heap [bootBlock] (bootLayout.heapBottom + 4096) ∧
      bootClient.heap.heapListEndPtr = lastAddr 0 [bootBlock] ∧
      bootClient.heap.freeNodeList.currSize < bootClient.heap.freeNodeList.arrSize ∧
      NoWrap bootClient.heap 0xFFFFFFFF ∧
      ∃ h' p, bootClient.heap.kmalloc bootLayout 0xFFFFFFFF = .ok (h', p) ∧
        h'.size (p - 16) = 0 ∧
        ¬ MallocPost bootLayout bootClient.heap h' [bootBlock] 0xFFFFFFFF p := by
  refine ⟨wellFormed_boot, bootClient_endPtr, by decide +kernel, noWrap_boot (by decide), ?_⟩
  have hok : (bootClient.heap.kmalloc bootLayout 0xFFFFFFFF).toOption.any
      (fun r => r.1.size (r.2 - 16) == 0) = true := by decide +kernel
  cases hk : bootClient.heap.kmalloc bootLayout 0xFFFFFFFF with
  | error stop =>
      rw [hk] at hok
      cases hok
  | ok r =>
      rw [hk] at hok
      refine ⟨r.1, r.2, rfl, beq_iff_eq.1 hok, fun hpost => ?_⟩
      have := hpost.le
      omega

-- The clause on the unused cells is needed: with the address of the rest in a stale cell,
-- `insert_list` takes the rest for a listed node, and the free list is empty afterwards.
example :
    ((initKheap bootLayout (fun _ => 0) (fun _ => bootLayout.heapBottom + 116)
      bootLayout.earlyHeapBottom).kmalloc bootLayout 100).toOption.any (fun r =>
        r.1.freeNodeList.live == [] &&
          r.1.magic (bootLayout.heapBottom + 116) == MAGIC_FREE) = true := by
  decide +kernel

end

end KHeap

end NowOS

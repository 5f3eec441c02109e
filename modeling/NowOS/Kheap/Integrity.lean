import NowOS.Kheap.Run

set_option autoImplicit false

/-! # The integrity check of the heap

`check_kheap_integrity` walks the chain from `heap_bottom`, adds up the sizes of the nodes with
their headers, and compares the sum with `top_heap_ptr - heap_bottom`. The nodes tile the range from
`heap_bottom` to the end of the chain, so the sum is the length of that range.

`init_kheap` takes the header off the size of the first node and the chain ends at `top_heap_ptr`.
`expand_heap` does not take it off the size of the node that it adds: from the first expansion on
the chain ends one header behind `top_heap_ptr`. -/

namespace NowOS

namespace KHeap

/-- The numbers in the message that `check_kheap_integrity` prints,
`Kheap integrity compromised: heap_count: %d, heap_size: %d`. -/
structure IntegrityError where
  heapCount : Nat
  heapSize : Nat
  deriving DecidableEq, Repr

/-- The loop of `check_kheap_integrity`, for a chain of less than `fuel` nodes. -/
def heapCountLoop (h : KHeap) : Nat → Nat → Nat → Except Stop Nat
  | 0, _, _ => .error .spin
  | fuel + 1, node, heapCount =>
      if node = 0 then .ok heapCount
      else h.heapCountLoop fuel (h.nextPtr node) (add32 heapCount (add32 (h.size node) HEADER_SIZE))

/-- `check_kheap_integrity`: what it prints. -/
def checkKheapIntegrity (L : Layout) (fuel : Nat) (h : KHeap) :
    Except Stop (Option IntegrityError) :=
  let heapSize := sub32 h.topHeapPtr L.heapBottom
  let node := L.heapBottom
  if h.checkHeader node then
    match h.heapCountLoop fuel node 0 with
    | .ok heapCount => .ok (if heapCount ≠ heapSize then some ⟨heapCount, heapSize⟩ else none)
    | .error stop => .error stop
  else .error badMagic

section

variable {L : Layout} {h : KHeap} {bs : List Block} {e : Nat}

/-! ## The sum over the chain -/

/-- **The sum.** The loop adds the length of the range that the blocks tile. -/
theorem heapCountLoop_links {prev a count fuel : Nat} (ht : Tiles 16 a bs e)
    (hl : Links h.mem prev bs 0) (ha : 0 < a) (hfits : count + (e - a) < W32)
    (hfuel : bs.length < fuel) :
    h.heapCountLoop fuel (headAddr bs 0) count = .ok (count + (e - a)) := by
  induction bs generalizing prev a count fuel with
  | nil =>
      obtain ⟨fuel, rfl⟩ : ∃ m, fuel = m + 1 := ⟨fuel - 1, by omega⟩
      rw [tiles_nil] at ht
      simp [heapCountLoop, ht]
  | cons b bs ih =>
      obtain ⟨fuel, rfl⟩ : ∃ m, fuel = m + 1 := ⟨fuel - 1, by omega⟩
      obtain ⟨rfl, ht⟩ := ht
      obtain ⟨⟨-, hnext, -, hsize⟩, hl⟩ := hl
      have hle := ht.le
      have hadd : add32 count (add32 (h.size b.addr) HEADER_SIZE) = count + (b.size + 16) := by
        have hb : h.size b.addr = b.size := hsize
        unfold HEADER_SIZE
        rw [hb, add32_of_lt (a := b.size) (by omega), add32_of_lt (by omega)]
      have hloop : h.heapCountLoop fuel (headAddr bs 0) (count + (b.size + 16)) =
          .ok (count + (b.size + 16) + (e - (b.addr + 16 + b.size))) :=
        ih ht hl (by omega) (by omega) (Nat.lt_of_succ_lt_succ hfuel)
      calc h.heapCountLoop (fuel + 1) b.addr count
          = h.heapCountLoop fuel (h.nextPtr b.addr)
              (add32 count (add32 (h.size b.addr) HEADER_SIZE)) := by
            rw [heapCountLoop, if_neg (Nat.ne_of_gt ha)]
        _ = h.heapCountLoop fuel (headAddr bs 0) (count + (b.size + 16)) := by
            rw [hadd, nextPtr, hnext]
        _ = .ok (count + (b.size + 16) + (e - (b.addr + 16 + b.size))) := hloop
        _ = .ok (count + (e - b.addr)) := by
            congr 1
            omega

/-- `top_heap_ptr` is not below the first node. -/
theorem Inv.heapBottom_le_top (hi : Inv L h bs e) : L.heapBottom ≤ h.topHeapPtr := by
  obtain ⟨z, hz, -, hze⟩ := hi.last
  have hza := (hi.tiles.bounds hz).1
  have htop := hi.le_top
  omega

/-- **What the check prints**: nothing if the chain ends at `top_heap_ptr`, and otherwise the two
lengths. -/
theorem Inv.checkKheapIntegrity (hi : Inv L h bs e) :
    h.checkKheapIntegrity L (bs.length + 1) =
      .ok (if e ≠ h.topHeapPtr then some ⟨e - L.heapBottom, h.topHeapPtr - L.heapBottom⟩
        else none) := by
  have hbottom := hi.heapBottom_le_top
  have htop := hi.top_le
  have hfits := hi.fits
  have hhead : headAddr bs 0 = L.heapBottom := by
    cases bs with
    | nil => exact absurd rfl hi.ne
    | cons b bs => exact hi.tiles.1
  have hcheck : h.checkHeader L.heapBottom = true := by
    cases bs with
    | nil => exact absurd rfl hi.ne
    | cons b bs =>
        rw [← hi.tiles.1]
        exact hi.chain.checkHeader (by simp)
  have hsum : h.heapCountLoop (bs.length + 1) (headAddr bs 0) 0 = .ok (0 + (e - L.heapBottom)) :=
    heapCountLoop_links hi.tiles hi.links (zero_lt_heapBottom L) (by omega)
      (Nat.lt_succ_self bs.length)
  rw [hhead, Nat.zero_add] at hsum
  have hne : (e - L.heapBottom ≠ h.topHeapPtr - L.heapBottom) ↔ e ≠ h.topHeapPtr := by omega
  unfold KHeap.checkKheapIntegrity
  simp only [hcheck, if_true, hsum, sub32_of_le hbottom, hne]

end

/-! ## Runs -/

namespace Client

variable {L : Layout} {s s' : Client} {bs : List Block} {e : Nat}

/-- The calls that the heap can serve as it is: for a `kmalloc` some listed node is large enough. -/
def Fitting (c : Call) (s : Client) : Prop :=
  ∀ n, c = .kmalloc n → ∃ node ∈ s.heap.freeNodeList.live, alignUp n 4 ≤ s.heap.size node

/-- The other calls are those that expand the heap. -/
theorem not_expands_iff {c : Call} (hi : Inv L s.heap bs e) : ¬ Expands c s ↔ Fitting c s := by
  constructor
  · rintro hno n rfl
    obtain ⟨node, hfind, hfit, -⟩ := heapFindFreeNode_spec hi (alignUp n 4)
    have hne : node ≠ 0 := by
      rintro rfl
      exact hno ⟨n, rfl, hfind⟩
    obtain ⟨hlive, l, x, r, rfl, -, rfl, hsize⟩ := hfit hne
    have hx : s.heap.size x.addr = x.size := (hi.links.magic_size (b := x) (by simp)).2
    exact ⟨x.addr, hlive, by omega⟩
  · rintro hfit ⟨n, rfl, hnone⟩
    obtain ⟨node, hlive, hsize⟩ := hfit n rfl
    obtain ⟨node', hfind, -, hsmall⟩ := heapFindFreeNode_spec hi (alignUp n 4)
    rw [hnone] at hfind
    cases hfind
    have := hsmall rfl node hlive
    omega

/-- Without an expansion there is nothing to ask about the end of the heap. -/
theorem expandable_of_not_expands {c : Call} (hno : ¬ Expands c s) : Expandable L c s :=
  fun n hn hnone => absurd ⟨n, hn, hnone⟩ hno

/-- As long as the heap is not expanded, the chain ends at `top_heap_ptr`. -/
theorem owned_of_fitting (hr : Reach (Init L) (Guarded Fitting (Step L)) s) :
    ∃ bs, Owned L s bs s.heap.topHeapPtr := by
  refine hr.invariant (I := fun s => ∃ bs, Owned L s bs s.heap.topHeapPtr) ?_ ?_
  · intro s hs
    obtain ⟨mem, arrPtr, earlyHeapPtr, -, rfl⟩ := id hs
    have ho := owned_init hs
    have htop : (initKheap L mem arrPtr earlyHeapPtr).topHeapPtr = L.heapBottom + 4096 := by
      rw [initKheap_eq]
    rw [← htop] at ho
    exact ⟨_, ho⟩
  · rintro c s s' ⟨bs, ho⟩ ⟨hfit, hstep⟩
    have hno := (not_expands_iff ho.inv).2 hfit
    obtain ⟨bs', e', ho', hkept, -⟩ := ho.step (expandable_of_not_expands hno) hstep
    obtain ⟨rfl, htop⟩ := hkept hno
    rw [← htop] at ho'
    exact ⟨bs', ho'⟩

/-- Payloads end where the chain ends. -/
theorem Owned.inRegion_lt (ho : Owned L s bs e) {p a : Nat} (hp : p ∈ s.live)
    (ha : s.InRegion p a) : a < e := by
  obtain ⟨b, hb, -, rfl⟩ := ho.owned p hp
  rw [inRegion_iff ho.inv hb] at ha
  have hbe := (ho.inv.tiles.bounds hb).2
  obtain ⟨-, ha⟩ := ha
  omega

/-- **The integrity check over whole runs.** As long as some listed node is large enough for every
request, the check prints nothing in any state of a run, and no payload extends past `top_heap_ptr`.
A call that expands the heap from such a state makes it print a sum that is one header too large,
even where the expansion is in order. -/
theorem kheap_integrity (hr : Reach (Init L) (Guarded Fitting (Step L)) s) :
    (∃ fuel, s.heap.checkKheapIntegrity L fuel = .ok none) ∧
      (∀ p ∈ s.live, ∀ a, s.InRegion p a → a < s.heap.topHeapPtr) ∧
      ∀ c s', ¬ Fitting c s → Expandable L c s → Step L c s s' →
        ∃ fuel err, s'.heap.checkKheapIntegrity L fuel = .ok (some err) ∧
          err.heapCount = err.heapSize + 16 := by
  obtain ⟨bs, ho⟩ := owned_of_fitting hr
  refine ⟨⟨bs.length + 1, ?_⟩, fun p hp a ha => ho.inRegion_lt hp ha, ?_⟩
  · rw [ho.inv.checkKheapIntegrity, if_neg (not_not_intro rfl)]
  · intro c s' hbig hx hstep
    have hexpands : Expands c s := by
      by_contra hno
      exact hbig ((not_expands_iff ho.inv).1 hno)
    obtain ⟨bs', e', ho', -, hend⟩ := ho.step hx hstep
    have hbottom := ho'.inv.heapBottom_le_top
    have he := hend hexpands
    refine ⟨bs'.length + 1, ⟨e' - L.heapBottom, s'.heap.topHeapPtr - L.heapBottom⟩, ?_, ?_⟩
    · rw [ho'.inv.checkKheapIntegrity, if_pos (by omega)]
    · show e' - L.heapBottom = s'.heap.topHeapPtr - L.heapBottom + 16
      omega

/-- An allocation that the first node can serve. -/
theorem kheap_integrity_small :
    ∃ s, call bootLayout (.kmalloc 100) bootClient = some s ∧
      ∃ fuel, s.heap.checkKheapIntegrity bootLayout fuel = .ok none := by
  obtain ⟨s, hs⟩ := Option.isSome_iff_exists.1 (show
    (call bootLayout (.kmalloc 100) bootClient).isSome = true by decide +kernel)
  refine ⟨s, hs,
    (kheap_integrity (.next (.kmalloc 100) (.start init_bootClient) ⟨?_, step_of_call hs⟩)).1⟩
  intro n hn
  cases hn
  exact ⟨bootLayout.heapBottom, by decide +kernel, by decide +kernel⟩

/-- **The check fires after the first expansion.** The first allocation after boot needs more than
the 4 KiB that `init_kheap` sets up; the heap grows to 12288 bytes, and the sizes of its nodes add
up to 12304. -/
theorem kheap_integrity_compromised :
    ∃ s, call bootLayout (.kmalloc 5000) bootClient = some s ∧
      Reach (Init bootLayout) (Step bootLayout) s ∧
      s.heap.checkKheapIntegrity bootLayout 3 = .ok (some ⟨12304, 12288⟩) := by
  have hrun : (call bootLayout (.kmalloc 5000) bootClient).any (fun s =>
      (s.heap.checkKheapIntegrity bootLayout 3).toOption == some (some ⟨12304, 12288⟩)) = true := by
    decide +kernel
  obtain ⟨s, hs, hcheck⟩ := (Option.any_eq_true _ _).1 hrun
  refine ⟨s, hs, .next _ (.start init_bootClient) (step_of_call hs), ?_⟩
  cases hc : s.heap.checkKheapIntegrity bootLayout 3 with
  | error stop =>
      rw [hc] at hcheck
      cases hcheck
  | ok r =>
      rw [hc] at hcheck
      exact congrArg _ (Option.some.inj (beq_iff_eq.mp hcheck))

end Client

end KHeap

end NowOS

import NowOS.Arch.Preemption
import NowOS.Klib.PoolSequence
import NowOS.Kheap.Page

set_option autoImplicit false

/-! # New threads (`kernel/thread.c`)

`thread_create_thread` takes a thread information block from `thread_pool` and a stack from the page
heap, and it writes the registers with which the thread is to begin. Nothing else uses the page
heap, and nobody gives a block or a page back, so that the threads are numbered in the order of
their creation and so are their stacks. The first switch to a thread, by either routine, finds these
registers and begins with them. -/

namespace NowOS

/-! ## The function of the source -/

/-- `sizeof(tib_t)`. -/
def SIZEOF_TIB : Nat := 156

def TASK_NAME_LEN : Nat := 64
def MAX_THREAD_COUNT : Nat := 128

@[simp] def tibTid : BitVec 32 := 56#32
@[simp] def tibEnter : BitVec 32 := 88#32
@[simp] def tibName : BitVec 32 := 92#32

/-- What `thread_create_thread` is called with, and the registers of the processor that calls it. -/
structure Creation where
  cpu : Machine
  enter : BitVec 32
  stackAddr : BitVec 32
  name : BitVec 32

/-- What `thread_create_thread` works on: `thread_pool.free_list`, the page heap and the memory. -/
structure ThreadMem where
  freeList : Nat → BitVec 32
  pages : PageHeap
  mem : ByteMem

open Machine in
/-- The words that `thread_create_thread` writes into the thread information block. -/
def initTibWords (c : Creation) (thread stackAddr tid : BitVec 32) (m : ByteMem) : ByteMem :=
  let m := m.memset 0#8 SIZEOF_TIB thread
  let m := m.store (thread + tibTid) tid
  let m := m.store (thread + cpuCr3) c.cpu.cr3
  let m := m.store (thread + cpuCr2) c.cpu.cr2
  let m := m.store (thread + cpuCr0) c.cpu.cr0
  let m := m.store (thread + cpuEflags) c.cpu.eflags
  let m := m.store (thread + cpuEip) c.enter
  let m := m.store (thread + cpuEsp) stackAddr
  m.store (thread + tibEnter) c.enter

/-- What `thread_create_thread` writes. -/
def initTib (c : Creation) (thread stackAddr tid : BitVec 32) (m : ByteMem) : ByteMem :=
  (initTibWords c thread stackAddr tid m).memcpy TASK_NAME_LEN (thread + tibName) c.name

/-- The stack of a new thread: a page of its own if the caller gives none. -/
def newStack (stackAddr : BitVec 32) (pages : PageHeap) : Except String (BitVec 32 × PageHeap) :=
  if stackAddr = 0#32 then
    match pages.kmallocPage with
    | .error e => .error e
    | .ok (page, pages) => .ok (BitVec.ofNat 32 (add32 page PAGE_SIZE), pages)
  else .ok (stackAddr, pages)

/-- `thread_create_thread`. -/
def threadCreateThread (threadPool : SharedPool) (c : Creation) (s : ThreadMem) :
    Except String (Nat × ThreadMem) :=
  match threadPool.sharedPoolGetNext s.freeList with
  | none => .error "next_index < pool->max_obj_num"
  | some (thread, freeList) =>
      if thread = 0 then .error "Could not allocate thread from shared pool\n"
      else do
        let tid ← threadPool.sharedPoolGetIndex thread
        let (stackAddr, pages) ← newStack c.stackAddr s.pages
        if stackAddr = 0#32 then .error "stack_addr != 0"
        else
          .ok (thread, ⟨freeList, pages,
            initTib c (BitVec.ofNat 32 thread) stackAddr (BitVec.ofNat 32 tid) s.mem⟩)

/-- Threads are created one after the other; the blocks that are returned. -/
def createAll (threadPool : SharedPool) : List Creation → ThreadMem →
    Except String (List Nat × ThreadMem)
  | [], s => .ok ([], s)
  | c :: cs, s => do
      let (thread, s) ← threadCreateThread threadPool c s
      let (threads, s) ← createAll threadPool cs s
      .ok (thread :: threads, s)

/-- After `init_threading` and `init_page_heap`. -/
def ThreadMem.start (L : Layout) (threadPool : SharedPool) (freeList : Nat → BitVec 32)
    (mem : ByteMem) : ThreadMem :=
  ⟨threadPool.sharedPoolInit freeList, PageHeap.initPageHeap L, mem⟩

/-! ## What a new block holds -/

open Machine ByteMem

/-- The registers with which a thread begins are in its block. -/
structure Prepared (m : ByteMem) (thread : BitVec 32) (c : Creation) (stackAddr tid : BitVec 32) :
    Prop where
  cr0 : m.load (thread + cpuCr0) = c.cpu.cr0
  cr2 : m.load (thread + cpuCr2) = c.cpu.cr2
  cr3 : m.load (thread + cpuCr3) = c.cpu.cr3
  eflags : m.load (thread + cpuEflags) = c.cpu.eflags
  eip : m.load (thread + cpuEip) = c.enter
  esp : m.load (thread + cpuEsp) = stackAddr
  general : ∀ i, 24 ≤ i → i ≤ 48 → i % 4 = 0 → m.load (thread + BitVec.ofNat 32 i) = 0#32
  tid : m.load (thread + tibTid) = tid

/-- The name is behind everything else. -/
theorem load_initTib (c : Creation) (thread stackAddr tid : BitVec 32) (m : ByteMem) {i : Nat}
    (hi : i + 4 ≤ 92) :
    (initTib c thread stackAddr tid m).load (thread + BitVec.ofNat 32 i) =
      (initTibWords c thread stackAddr tid m).load (thread + BitVec.ofNat 32 i) := by
  have hname : Apart (thread + 92#32) 64 thread 92 := by
    unfold Apart
    refine ⟨?_, ?_⟩
    · bv_omega
    · bv_omega
  exact sameOn_memcpy hname (by decide) i hi

theorem prepared_initTib (c : Creation) (thread stackAddr tid : BitVec 32) (m : ByteMem) :
    Prepared (initTib c thread stackAddr tid m) thread c stackAddr tid := by
  constructor
  case general =>
    intro i hlow hhigh _
    rw [load_initTib c thread stackAddr tid m (by omega), initTibWords]
    simp (disch := omega) only [load_store_within, tibTid, tibEnter, cpuCr3, cpuCr2, cpuCr0,
      cpuEflags, cpuEip, cpuEsp]
    exact load_memset_zero (by unfold SIZEOF_TIB; omega) (by decide)
  all_goals
    refine (load_initTib c thread stackAddr tid m (by decide)).trans ?_
    simp (disch := decide) only [initTibWords, load_store_within, load_store_self, tibTid, tibEnter,
      cpuCr3, cpuCr2, cpuCr0, cpuEflags, cpuEip, cpuEsp]

theorem Prepared.congr {m m' : ByteMem} {thread stackAddr tid : BitVec 32} {c : Creation}
    (h : Prepared m thread c stackAddr tid) (hs : SameOn thread SIZEOF_TIB m m') :
    Prepared m' thread c stackAddr tid where
  cr0 := (hs 0 (by decide)).trans h.cr0
  cr2 := (hs 4 (by decide)).trans h.cr2
  cr3 := (hs 8 (by decide)).trans h.cr3
  eflags := (hs 12 (by decide)).trans h.eflags
  eip := (hs 16 (by decide)).trans h.eip
  esp := (hs 20 (by decide)).trans h.esp
  general i hlow hhigh hmod :=
    (hs i (by unfold SIZEOF_TIB; omega)).trans (h.general i hlow hhigh hmod)
  tid := (hs 56 (by decide)).trans h.tid

/-- Only the block is written. -/
theorem sameOn_initTib {c : Creation} {thread stackAddr tid b : BitVec 32} {m : ByteMem} {k : Nat}
    (h : Apart thread SIZEOF_TIB b k) : SameOn b k m (initTib c thread stackAddr tid m) := by
  have hclear : SameOn b k m (m.memset 0#8 SIZEOF_TIB thread) := sameOn_memset h (by decide)
  have hstore : ∀ (m' : ByteMem) (i : Nat) (w : BitVec 32), i + 4 ≤ SIZEOF_TIB →
      SameOn b k m' (m'.store (thread + BitVec.ofNat 32 i) w) :=
    fun m' i w hi => SameOn.store m' w h hi
  have hwords : SameOn b k m (initTibWords c thread stackAddr tid m) :=
    (((((((hclear.trans (hstore _ 56 _ (by decide))).trans (hstore _ 8 _ (by decide))).trans
      (hstore _ 4 _ (by decide))).trans (hstore _ 0 _ (by decide))).trans
      (hstore _ 12 _ (by decide))).trans (hstore _ 16 _ (by decide))).trans
      (hstore _ 20 _ (by decide))).trans (hstore _ 88 _ (by decide))
  refine hwords.trans (sameOn_of_bytes fun j hj => memcpy_outside ?_)
  have hname := h.part 92 64 j 1 (by decide) (by omega) (by decide) (by decide)
  exact hname.1

/-! ## The page heap while nobody gives a page back -/

section Pages

open PageClient ByteIndexList

variable {L : Layout} {h : PageHeap} {j : Nat}

/-- The first `j` pages are in use. -/
structure PagesUsed (L : Layout) (h : PageHeap) (j : Nat) : Prop where
  list : ByteIndexList.Inv h.pageList
  size : h.pageList.size = 15
  ptr : h.pagePtr = firstPage L
  bits : ∀ i, i < 120 → (h.pageList.bit i = true ↔ i < j)
  le : j ≤ 120

theorem pagesUsed_init (L : Layout) : PagesUsed L (PageHeap.initPageHeap L) 0 := by
  have hinv := inv_start (L := L)
  refine ⟨hinv.list, hinv.size, hinv.ptr, fun i hi => ?_, by decide⟩
  have hbit := hinv.mem_live hi
  rw [show (start L).live = [] from rfl] at hbit
  simp only [List.not_mem_nil, false_iff] at hbit
  simpa [start] using hbit

/-- The next page is handed out. -/
theorem PagesUsed.next (hp : PagesUsed L h j) (hj : j < 120) :
    ∃ h', h.kmallocPage = .ok (pageAddr L j, h') ∧ PagesUsed L h' (j + 1) := by
  have hsize := hp.size
  rcases byteIndexGetFreeSlot_spec hp.list (by omega) with ⟨i, hok, hi, hclear, hmin⟩ | ⟨e, -, hall⟩
  · have hij : i = j := by
      have hnot : ¬ i < j := fun hlt => by
        rw [(hp.bits i (by omega)).mpr hlt] at hclear
        cases hclear
      have hle : ¬ j < i := fun hlt => absurd ((hp.bits j hj).mp (hmin j hlt)) (Nat.lt_irrefl j)
      omega
    subst hij
    refine ⟨{ h with pageList := h.pageList.allocated i }, ?_,
      inv_allocated hi hmin, hp.size, hp.ptr, fun k hk => ?_, hj⟩
    · simp only [PageHeap.kmallocPage, hok]
      rw [if_neg (by omega), pageAddr, hp.ptr]
    · rw [bit_allocated, Bool.or_eq_true, decide_eq_true_eq, hp.bits k hk]
      omega
  · exact absurd ((hp.bits j hj).mp (hall j (by omega))) (Nat.lt_irrefl j)

/-- When all are in use, the kernel panics. -/
theorem PagesUsed.full (hp : PagesUsed L h 120) : ∃ e, h.kmallocPage = .error e := by
  have hsize := hp.size
  rcases byteIndexGetFreeSlot_spec hp.list (by omega) with ⟨i, -, hi, hclear, -⟩ | ⟨e, he, -⟩
  · rw [(hp.bits i (by omega)).mpr (by omega)] at hclear
    cases hclear
  · exact ⟨e, by simp only [PageHeap.kmallocPage, he]⟩

end Pages

/-! ## One thread -/

/-- `thread_pool` after `init_threading`. -/
structure IsThreadPool (pool : SharedPool) : Prop where
  size : pool.typeSize = SIZEOF_TIB
  max : pool.maxObjNum = MAX_THREAD_COUNT

/-- The block of the thread with the number `k`. -/
def tibAddr (pool : SharedPool) (k : Nat) : BitVec 32 := BitVec.ofNat 32 (pool.entryAddr k)

/-- The stack of a thread if `j` pages are in use. -/
def stackOf (L : Layout) (c : Creation) (j : Nat) : BitVec 32 :=
  if c.stackAddr = 0#32 then BitVec.ofNat 32 (add32 (PageClient.pageAddr L j) PAGE_SIZE)
  else c.stackAddr

/-- How many threads take a page of their own. -/
def ownPages (cs : List Creation) : Nat := cs.countP fun c => c.stackAddr = 0#32

/-- The page heap does not reach the end of the address space, whatever it hands out. -/
def PagesFit (L : Layout) : Prop := PageClient.firstPage L + 491520 < W32

section Create

variable {L : Layout} {pool : SharedPool} {s : ThreadMem} {j k : Nat} {c : Creation}

theorem IsThreadPool.entryAddr_eq (hp : IsThreadPool pool) (hk : k < MAX_THREAD_COUNT) :
    pool.entryAddr k = pool.buf + k * 156 := by
  rw [SharedPool.entryAddr_eq (by rw [hp.max]; exact hk), hp.size, SIZEOF_TIB]

theorem IsThreadPool.fits (hp : IsThreadPool pool) : pool.buf + 128 * 156 ≤ W32 := by
  have hfits := pool.fits
  rwa [hp.max, hp.size] at hfits

/-- The blocks do not overlap. -/
theorem IsThreadPool.tibs_apart (hp : IsThreadPool pool) {i : Nat} (hi : i < MAX_THREAD_COUNT)
    (hk : k < MAX_THREAD_COUNT) (hne : i ≠ k) :
    Apart (tibAddr pool i) SIZEOF_TIB (tibAddr pool k) SIZEOF_TIB := by
  have hnat : ∀ n, n < MAX_THREAD_COUNT → (tibAddr pool n).toNat = pool.buf + n * 156 := by
    intro n hn
    have hfits := hp.fits
    rw [tibAddr, BitVec.toNat_ofNat, hp.entryAddr_eq hn]
    apply Nat.mod_eq_of_lt
    unfold MAX_THREAD_COUNT W32 at *
    omega
  have hfits := hp.fits
  unfold MAX_THREAD_COUNT at hi hk
  rcases Nat.lt_or_gt_of_ne hne with hlt | hlt
  · apply apart_of_add_le (by decide)
    · rw [hnat i hi, hnat k hk, SIZEOF_TIB]
      omega
    · rw [hnat k hk, SIZEOF_TIB]
      unfold W32 at hfits
      omega
  · apply Apart.symm
    apply apart_of_add_le (by decide)
    · rw [hnat i hi, hnat k hk, SIZEOF_TIB]
      omega
    · rw [hnat i hi, SIZEOF_TIB]
      unfold W32 at hfits
      omega

theorem toNat_stackOf (hL : PagesFit L) (hc : c.stackAddr = 0#32) (hj : j < 120) :
    (stackOf L c j).toNat = PageClient.firstPage L + 4096 * (j + 1) := by
  have hmul : mul32 j PAGE_SIZE = 4096 * j := by
    rw [mul32_of_lt (by unfold PAGE_SIZE W32; omega), PAGE_SIZE, Nat.mul_comm]
  have hpage : PageClient.pageAddr L j = PageClient.firstPage L + 4096 * j := by
    rw [PageClient.pageAddr, hmul, add32_of_lt (by unfold PagesFit at hL; omega)]
  rw [stackOf, if_pos hc, hpage, add32_of_lt (by unfold PagesFit at hL; unfold PAGE_SIZE; omega),
    PAGE_SIZE, BitVec.toNat_ofNat, Nat.mod_eq_of_lt]
  · omega
  · unfold PagesFit W32 at hL
    omega

theorem stackOf_ne_zero (hL : PagesFit L) (hj : c.stackAddr = 0#32 → j < 120) :
    stackOf L c j ≠ 0#32 := by
  by_cases hc : c.stackAddr = 0#32
  · intro heq
    have hnat := toNat_stackOf hL hc (hj hc)
    rw [heq, BitVec.toNat_ofNat, Nat.zero_mod] at hnat
    omega
  · rw [stackOf, if_neg hc]
    exact hc

/-- The stack of a new thread. -/
theorem newStack_eq (hu : PagesUsed L s.pages j) (hj : c.stackAddr = 0#32 → j < 120) :
    ∃ pages, newStack c.stackAddr s.pages = .ok (stackOf L c j, pages) ∧
      PagesUsed L pages (j + ownPages [c]) := by
  unfold newStack stackOf ownPages
  by_cases hzero : c.stackAddr = 0#32
  · obtain ⟨pages, hok, hu'⟩ := hu.next (hj hzero)
    rw [if_pos hzero, if_pos hzero, hok, List.countP_singleton, decide_eq_true hzero]
    exact ⟨pages, rfl, hu'⟩
  · rw [if_neg hzero, if_neg hzero, List.countP_singleton, decide_eq_false hzero]
    exact ⟨s.pages, rfl, hu⟩

open SharedPool in
/-- The next block. -/
theorem getNext_eq (hp : IsThreadPool pool) (hm : Marks pool s.freeList (Finset.range k))
    (hk : k < MAX_THREAD_COUNT) :
    pool.sharedPoolGetNext s.freeList = some (pool.entryAddr k, BitTable.set s.freeList k) ∧
      pool.entryAddr k ≠ 0 ∧ pool.sharedPoolGetIndex (pool.entryAddr k) = .ok k := by
  have hkmax : k < pool.maxObjNum := by rw [hp.max]; exact hk
  have hbit : ∀ i, i < pool.maxObjNum → (bit s.freeList i = true ↔ i < k) := by
    intro i hi
    rw [hm.bits i hi, Finset.mem_range]
  refine ⟨sharedPoolGetNext_eq hkmax ?_ ?_, ?_, sharedPoolGetIndex_entryAddr hkmax⟩
  · rw [← Bool.not_eq_true, hbit k hkmax]
    exact Nat.lt_irrefl k
  · intro i hi
    exact (hbit i (hi.trans hkmax)).mpr hi
  · rw [hp.entryAddr_eq hk]
    have := pool.buf_ne_null
    omega

open SharedPool in
/-- **The creation of a thread**: it gets the next block and, if it needs one, the next page. -/
theorem threadCreateThread_eq (hL : PagesFit L) (hp : IsThreadPool pool)
    (hm : Marks pool s.freeList (Finset.range k)) (hu : PagesUsed L s.pages j)
    (hk : k < MAX_THREAD_COUNT) (hj : c.stackAddr = 0#32 → j < 120) :
    ∃ s', threadCreateThread pool c s = .ok (pool.entryAddr k, s') ∧
      Marks pool s'.freeList (Finset.range (k + 1)) ∧ PagesUsed L s'.pages (j + ownPages [c]) ∧
      s'.mem = initTib c (tibAddr pool k) (stackOf L c j) (BitVec.ofNat 32 k) s.mem := by
  obtain ⟨hget, hne, hindex⟩ := getNext_eq hp hm hk
  obtain ⟨pages, hstack, hu'⟩ := newStack_eq (c := c) hu hj
  refine ⟨⟨BitTable.set s.freeList k, pages,
    initTib c (tibAddr pool k) (stackOf L c j) (BitVec.ofNat 32 k) s.mem⟩, ?_, ?_, hu', rfl⟩
  · rw [threadCreateThread, hget]
    dsimp only
    rw [if_neg hne, hindex, hstack]
    exact if_neg (stackOf_ne_zero hL hj)
  · rw [Finset.range_add_one]
    exact hm.set (by rw [hp.max]; exact hk)

open SharedPool in
/-- There is no block for another thread. -/
theorem threadCreateThread_full (hp : IsThreadPool pool)
    (hm : Marks pool s.freeList (Finset.range MAX_THREAD_COUNT)) :
    threadCreateThread pool c s = .error "Could not allocate thread from shared pool\n" := by
  have hget : pool.sharedPoolGetNext s.freeList = some (0, s.freeList) := by
    apply sharedPoolGetNext_full
    intro i hi
    rw [hm.bits i hi, Finset.mem_range, ← hp.max]
    exact hi
  rw [threadCreateThread, hget]
  rfl

open SharedPool in
/-- There is no page for another stack. -/
theorem threadCreateThread_noPage (hp : IsThreadPool pool)
    (hm : Marks pool s.freeList (Finset.range k)) (hu : PagesUsed L s.pages 120)
    (hk : k < MAX_THREAD_COUNT) (hc : c.stackAddr = 0#32) :
    ∃ e, threadCreateThread pool c s = .error e := by
  obtain ⟨hget, hne, hindex⟩ := getNext_eq hp hm hk
  obtain ⟨e, he⟩ := hu.full
  refine ⟨e, ?_⟩
  rw [threadCreateThread, hget]
  dsimp only
  rw [if_neg hne, hindex, newStack, if_pos hc, he]
  rfl

/-! ## All threads -/

theorem ownPages_cons (c : Creation) (cs : List Creation) :
    ownPages (c :: cs) = ownPages [c] + ownPages cs := by
  rw [← List.singleton_append, ownPages, List.countP_append]
  rfl

theorem ownPages_of_zero (hc : c.stackAddr = 0#32) : ownPages [c] = 1 := by
  rw [ownPages, List.countP_singleton, decide_eq_true hc]
  rfl

/-- The pages before a thread that takes one. -/
theorem ownPages_take_lt {cs : List Creation} {k : Nat} (hk : k < cs.length)
    (hc : cs[k].stackAddr = 0#32) : ownPages (cs.take k) < ownPages cs := by
  have hnext : ownPages (cs.take (k + 1)) = ownPages (cs.take k) + 1 := by
    rw [← List.take_append_getElem hk, ownPages, List.countP_append]
    exact congrArg (ownPages (cs.take k) + ·) (ownPages_of_zero hc)
  have hle : ownPages (cs.take (k + 1)) ≤ ownPages cs := (List.take_sublist _ _).countP_le
  omega

/-- What is left of each thread after all have been created: its block, which the creation of the
others does not touch. -/
theorem createAll_eq (hL : PagesFit L) (hp : IsThreadPool pool) {cs : List Creation}
    (hm : SharedPool.Marks pool s.freeList (Finset.range k)) (hu : PagesUsed L s.pages j)
    (hk : k + cs.length ≤ MAX_THREAD_COUNT) (hj : j + ownPages cs ≤ 120) :
    ∃ s', createAll pool cs s = .ok ((List.range' k cs.length).map pool.entryAddr, s') ∧
      (∀ i (hi : i < cs.length), Prepared s'.mem (tibAddr pool (k + i)) cs[i]
        (stackOf L cs[i] (j + ownPages (cs.take i))) (BitVec.ofNat 32 (k + i))) ∧
      ∀ i, i < k → SameOn (tibAddr pool i) SIZEOF_TIB s.mem s'.mem := by
  induction cs generalizing s k j with
  | nil => exact ⟨s, rfl, fun i hi => absurd hi (Nat.not_lt_zero i), fun _ _ _ _ => rfl⟩
  | cons c cs ih =>
      rw [List.length_cons] at hk
      rw [ownPages_cons] at hj
      have hpage : c.stackAddr = 0#32 → j < 120 := by
        intro hc
        rw [ownPages_of_zero hc] at hj
        omega
      obtain ⟨s1, hrun1, hm1, hu1, hmem1⟩ := threadCreateThread_eq hL hp hm hu (by omega) hpage
      obtain ⟨s', hrun, hprep, hkeep⟩ := ih hm1 hu1 (by omega) (by omega)
      refine ⟨s', ?_, ?_, ?_⟩
      · rw [createAll, hrun1]
        dsimp only [bind, Except.bind]
        rw [hrun]
        rfl
      · intro i hi
        cases i with
        | zero =>
            have hfirst := prepared_initTib c (tibAddr pool k) (stackOf L c j)
              (BitVec.ofNat 32 k) s.mem
            rw [← hmem1] at hfirst
            have hlast := hfirst.congr (hkeep k (Nat.lt_succ_self k))
            rw [Nat.add_zero, List.take_zero, List.getElem_cons_zero, show ownPages [] = 0 from rfl,
              Nat.add_zero]
            exact hlast
        | succ i =>
            have hrest := hprep i (Nat.lt_of_succ_lt_succ hi)
            have hnext : k + (i + 1) = k + 1 + i := by omega
            have hpages : j + ownPages ((c :: cs).take (i + 1)) =
                j + ownPages [c] + ownPages (cs.take i) := by
              rw [List.take_succ_cons, ownPages_cons, Nat.add_assoc]
            rw [hnext, hpages, List.getElem_cons_succ]
            exact hrest
      · intro i hi
        refine SameOn.trans ?_ (hkeep i (by omega))
        rw [hmem1]
        exact sameOn_initTib (hp.tibs_apart (by omega) (by omega) (by omega))

/-- Too many threads. -/
theorem createAll_error (hL : PagesFit L) (hp : IsThreadPool pool) {cs : List Creation}
    (hm : SharedPool.Marks pool s.freeList (Finset.range k)) (hu : PagesUsed L s.pages j)
    (hk : k ≤ MAX_THREAD_COUNT) (hmany : MAX_THREAD_COUNT < k + cs.length ∨ 120 < j + ownPages cs) :
    ∃ e, createAll pool cs s = .error e := by
  induction cs generalizing s k j with
  | nil =>
      have hj := hu.le
      rw [List.length_nil, show ownPages [] = 0 from rfl] at hmany
      omega
  | cons c cs ih =>
      -- the block first, then the page
      by_cases hblock : k = MAX_THREAD_COUNT
      · subst hblock
        exact ⟨_, by rw [createAll, threadCreateThread_full hp hm]; rfl⟩
      · by_cases hpage : c.stackAddr = 0#32 ∧ j = 120
        · obtain ⟨hc, rfl⟩ := hpage
          obtain ⟨e, he⟩ := threadCreateThread_noPage hp hm hu (by omega) hc
          exact ⟨e, by rw [createAll, he]; rfl⟩
        · have hj := hu.le
          obtain ⟨s1, hrun1, hm1, hu1, -⟩ := threadCreateThread_eq (c := c) hL hp hm hu (by omega)
            (fun hc => by
              have : j ≠ 120 := fun h => hpage ⟨hc, h⟩
              omega)
          rw [List.length_cons, ownPages_cons] at hmany
          obtain ⟨e, he⟩ := ih hm1 hu1 (by omega) (by omega)
          refine ⟨e, ?_⟩
          rw [createAll, hrun1]
          dsimp only [bind, Except.bind]
          rw [he]

/-- The pool of the threads at 0xC0200000. -/
def somePool : SharedPool where
  buf := 0xC0200000
  maxObjNum := MAX_THREAD_COUNT
  typeSize := SIZEOF_TIB
  typeSize_pos := by decide
  buf_ne_null := by decide
  fits := by decide

theorem isThreadPool_somePool : IsThreadPool somePool := ⟨rfl, rfl⟩

theorem pagesFit_bootLayout : PagesFit KHeap.Client.bootLayout := by
  unfold PagesFit
  decide

/-- A thread with a stack that its creator has given it. -/
def someCreation : Creation := ⟨running 5#32 0x246#32, 0xC0101000#32, 0xC0301000#32, 0xC0105000#32⟩

section Start

variable (hL : PagesFit L) (hp : IsThreadPool pool) (freeList : Nat → BitVec 32) (mem : ByteMem)
  (cs : List Creation)

include hL hp

theorem createAll_start_ok_iff :
    (∃ r, createAll pool cs (.start L pool freeList mem) = .ok r) ↔
      cs.length ≤ MAX_THREAD_COUNT ∧ ownPages cs ≤ 120 := by
  have hm : SharedPool.Marks pool (pool.sharedPoolInit freeList) (Finset.range 0) :=
    SharedPool.marks_sharedPoolInit freeList
  have hu := pagesUsed_init L
  constructor
  · rintro ⟨r, hr⟩
    by_contra hnot
    have hmany : MAX_THREAD_COUNT < 0 + cs.length ∨ 120 < 0 + ownPages cs := by omega
    obtain ⟨e, he⟩ := createAll_error (s := .start L pool freeList mem) hL hp hm hu (Nat.zero_le _)
      hmany
    rw [he] at hr
    cases hr
  · rintro ⟨hlen, hown⟩
    obtain ⟨s', hs', -⟩ := createAll_eq (s := .start L pool freeList mem) hL hp hm hu
      (by rw [Nat.zero_add]; exact hlen) (by rw [Nat.zero_add]; exact hown)
    exact ⟨_, hs'⟩

theorem createAll_start_ok {threads : List Nat}
    (hs : createAll pool cs (.start L pool freeList mem) = .ok (threads, s)) :
    threads = (List.range cs.length).map pool.entryAddr ∧ ∀ k (hk : k < cs.length),
      Prepared s.mem (tibAddr pool k) cs[k] (stackOf L cs[k] (ownPages (cs.take k)))
        (BitVec.ofNat 32 k) := by
  have hm : SharedPool.Marks pool (pool.sharedPoolInit freeList) (Finset.range 0) :=
    SharedPool.marks_sharedPoolInit freeList
  obtain ⟨hlen, hown⟩ := (createAll_start_ok_iff hL hp freeList mem cs).mp ⟨_, hs⟩
  obtain ⟨s', hs', hprep, -⟩ := createAll_eq (s := .start L pool freeList mem) hL hp hm
    (pagesUsed_init L) (by rw [Nat.zero_add]; exact hlen) (by rw [Nat.zero_add]; exact hown)
  rw [hs'] at hs
  cases hs
  refine ⟨by rw [List.range_eq_range'], fun k hk => ?_⟩
  have hk' := hprep k hk
  rwa [Nat.zero_add, Nat.zero_add] at hk'

/-- **How many threads there can be.** Threads are created without a panic exactly if there are at
most 128 of them and at most 120 of them take a page for their stack. They get the blocks of the
pool in order, and the block of each holds the registers with which it is to begin, its number and
its stack; but the stack is in the page heap for the first 15 pages only. -/
theorem threads_created_iff :
    ((∃ r, createAll pool cs (.start L pool freeList mem) = .ok r) ↔
      cs.length ≤ MAX_THREAD_COUNT ∧ ownPages cs ≤ 120) ∧
    ∀ threads s, createAll pool cs (.start L pool freeList mem) = .ok (threads, s) →
      threads = (List.range cs.length).map pool.entryAddr ∧
      ∀ k (hk : k < cs.length),
        Prepared s.mem (tibAddr pool k) cs[k] (stackOf L cs[k] (ownPages (cs.take k)))
          (BitVec.ofNat 32 k) ∧
        (cs[k].stackAddr = 0#32 →
          (PageClient.firstPage L + 4096 ≤ (stackOf L cs[k] (ownPages (cs.take k))).toNat ∧
            (stackOf L cs[k] (ownPages (cs.take k))).toNat ≤ L.pageHeapTop ↔
              ownPages (cs.take k) < 15)) := by
  have hiff := createAll_start_ok_iff hL hp freeList mem cs
  refine ⟨hiff, fun threads s hs => ?_⟩
  obtain ⟨hthreads, hprep⟩ := createAll_start_ok hL hp freeList mem cs hs
  refine ⟨hthreads, fun k hk => ⟨hprep k hk, fun hzero => ?_⟩⟩
  have hown := (hiff.mp ⟨_, hs⟩).2
  have hlt := ownPages_take_lt hk hzero
  obtain ⟨-, htop, -⟩ := PageClient.firstPage_spec L
  rw [toNat_stackOf hL hzero (by omega)]
  omega

end Start

/-- Threads that take a page each: 120 of them, but not 121. -/
theorem threads_created_pages :
    (∃ r, createAll somePool (List.replicate 120 { someCreation with stackAddr := 0#32 })
      (.start KHeap.Client.bootLayout somePool (fun _ => 0#32) fun _ => 0#8) = .ok r) ∧
    ¬ ∃ r, createAll somePool (List.replicate 121 { someCreation with stackAddr := 0#32 })
      (.start KHeap.Client.bootLayout somePool (fun _ => 0#32) fun _ => 0#8) = .ok r := by
  have hown : ∀ n, ownPages (List.replicate n { someCreation with stackAddr := 0#32 }) = n := by
    intro n
    simp [ownPages, List.countP_replicate]
  have hiff := fun n =>
    (threads_created_iff pagesFit_bootLayout isThreadPool_somePool (fun _ => 0#32)
    (fun _ => 0#8) (List.replicate n { someCreation with stackAddr := 0#32 })).1
  simp only [List.length_replicate, hown] at hiff
  exact ⟨(hiff 120).mpr (by decide), fun h => absurd ((hiff 121).mp h) (by decide)⟩

/-- The registers of a thread that begins: everything is clear but the stack pointer, the entry and
the control registers of its creator, and `esi` after `thread_switch_async`. -/
def started (c : Creation) (stackAddr : BitVec 32) (via : Via) (eflags cs : BitVec 32)
    (m : ByteMem) : Machine where
  eax := 0#32
  ebx := 0#32
  ecx := 0#32
  edx := 0#32
  esi := match via with
    | .sync => 0#32
    | .async => c.cpu.cr2
  edi := 0#32
  ebp := 0#32
  esp := stackAddr
  eip := c.enter
  cs := cs
  eflags := eflags
  cr0 := c.cpu.cr0
  cr2 := c.cpu.cr2
  cr3 := c.cpu.cr3
  mem := m

/-- The first switch to a thread. -/
theorem Prepared.starts {m : ByteMem} {t f stackAddr tid : BitVec 32} {callee : Machine → Machine}
    {via : Via} {r : Machine} (h : Prepared m t c stackAddr tid) (hs : SameOn t 52 m r.mem)
    (hsw : Switch callee via r f t) :
    ∃ fl cs m', fl &&& USER_FLAGS = via.flags r t ∧
      run callee via.routine r = started c stackAddr via fl cs m' := by
  obtain ⟨fl, cs, m', hfl, hrun⟩ := hsw.resumes
  have hgeneral : ∀ i, 24 ≤ i → i ≤ 48 → i % 4 = 0 → r.mem.load (t + BitVec.ofNat 32 i) = 0#32 :=
    fun i hlow hhigh hmod => (hs i (by omega)).trans (h.general i hlow hhigh hmod)
  have hcr2 : r.mem.load (t + cpuCr2) = c.cpu.cr2 := (hs 4 (by decide)).trans h.cr2
  have hesi : via.esi r.mem t = (started c stackAddr via fl cs m').esi := by
    cases via with
    | sync => exact hgeneral 32 (by decide) (by decide) (by decide)
    | async => exact hcr2
  refine ⟨fl, cs, m', hfl, ?_⟩
  rw [hrun, hesi, resumed, hcr2,
    show r.mem.load (t + cpuCr0) = _ from (hs 0 (by decide)).trans h.cr0,
    show r.mem.load (t + cpuCr3) = _ from (hs 8 (by decide)).trans h.cr3,
    show r.mem.load (t + cpuEip) = _ from (hs 16 (by decide)).trans h.eip,
    show r.mem.load (t + cpuEsp) = _ from (hs 20 (by decide)).trans h.esp,
    show r.mem.load (t + cpuEbp) = _ from hgeneral 24 (by decide) (by decide) (by decide),
    show r.mem.load (t + cpuEdi) = _ from hgeneral 28 (by decide) (by decide) (by decide),
    show r.mem.load (t + cpuEdx) = _ from hgeneral 36 (by decide) (by decide) (by decide),
    show r.mem.load (t + cpuEcx) = _ from hgeneral 40 (by decide) (by decide) (by decide),
    show r.mem.load (t + cpuEbx) = _ from hgeneral 44 (by decide) (by decide) (by decide),
    show r.mem.load (t + cpuEax) = _ from hgeneral 48 (by decide) (by decide) (by decide)]
  rfl

end Create

/-- **A new thread begins where its creator said.** After any number of threads have been created,
the first switch to each of them, by either routine, and as long as its block has been left alone
since, starts it at `enter` with an empty stack, its own, in the address space of its creator, and
with all other general registers clear, up to `esi` after `thread_switch_async`. -/
theorem created_thread_starts {L : Layout} (hL : PagesFit L) {pool : SharedPool}
    (hp : IsThreadPool pool) {freeList : Nat → BitVec 32} {mem : ByteMem} {cs : List Creation}
    {threads : List Nat} {s : ThreadMem}
    (hs : createAll pool cs (.start L pool freeList mem) = .ok (threads, s)) {k : Nat}
    (hk : k < cs.length) {callee : Machine → Machine} {via : Via} {r : Machine} {f : BitVec 32}
    (hmem : SameOn (tibAddr pool k) 52 s.mem r.mem) (hsw : Switch callee via r f (tibAddr pool k)) :
    ∃ fl seg m', fl &&& USER_FLAGS = via.flags r (tibAddr pool k) ∧
      run callee via.routine r =
        started cs[k] (stackOf L cs[k] (ownPages (cs.take k))) via fl seg m' := by
  obtain ⟨-, hprep⟩ := createAll_start_ok hL hp freeList mem cs hs
  exact (hprep k hk).starts hmem hsw

/-- The pool in which `tibT` is the third block. -/
def thirdPool : SharedPool where
  buf := 0xC01FFEC8
  maxObjNum := MAX_THREAD_COUNT
  typeSize := SIZEOF_TIB
  typeSize_pos := by decide
  buf_ne_null := by decide
  fits := by decide

/-- Two threads with a page of the heap each, and one that brings its stack. -/
def threeCreations : List Creation :=
  [{ someCreation with stackAddr := 0#32 }, { someCreation with stackAddr := 0#32 }, someCreation]

/-- Three threads are created, and the third is switched to. -/
theorem created_thread_starts_sync :
    ∃ threads s, createAll thirdPool threeCreations
        (.start KHeap.Client.bootLayout thirdPool (fun _ => 0#32) fun _ => 0#8) = .ok (threads, s) ∧
      ∃ fl seg m', run unlock Via.sync.routine (switching s.mem) =
        started someCreation 0xC0301000#32 .sync fl seg m' := by
  have hpool : IsThreadPool thirdPool := ⟨rfl, rfl⟩
  obtain ⟨⟨threads, s⟩, hs⟩ := (createAll_start_ok_iff pagesFit_bootLayout hpool
    (fun _ => 0#32) (fun _ => 0#8) threeCreations).mpr ⟨by decide, by decide⟩
  have htib : tibAddr thirdPool 2 = tibT := by decide +kernel
  have hthird : threeCreations[2] = someCreation := rfl
  have hstack : ∀ j, stackOf KHeap.Client.bootLayout someCreation j = 0xC0301000#32 :=
    fun j => if_neg (by decide)
  have hesp := ((createAll_start_ok pagesFit_bootLayout hpool _ _ _ hs).2 2 (by decide)).esp
  rw [hthird, hstack, htib] at hesp
  have hmem : SameOn (tibAddr thirdPool 2) 52 s.mem (switching s.mem).mem := by
    rw [htib]
    exact withArgs_sameOn s.mem
  have hsw : Switch unlock .sync (switching s.mem) tibF (tibAddr thirdPool 2) := by
    rw [htib]
    exact switch_switching .sync hesp
  obtain ⟨fl, seg, m', -, hrun⟩ := created_thread_starts pagesFit_bootLayout hpool hs
    (by decide) hmem hsw
  rw [hthird, hstack] at hrun
  exact ⟨threads, s, hs, fl, seg, m', hrun⟩

end NowOS

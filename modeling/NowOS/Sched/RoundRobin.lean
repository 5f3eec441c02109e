import NowOS.Sched.Conservation
import NowOS.Klib.LinkedListRun

set_option autoImplicit false

/-! # The order in which threads run (`kernel/scheduler.c`, `klib/linked_list.c`)

`Sched/Scheduler.lean` takes `ready_list` for a queue. Here it is the linked list of
`klib/linked_list.c`, whose data are the addresses of the threads, and the state keeps a history:
which threads were passed to `scheduler_push_ready_thread` and which ones
`pull_next_runnable_thread` returned. The scheduler with the linked list simulates the one with the
queue, and the threads that were pulled followed by the threads on `ready_list` are the threads that
were pushed. -/

namespace NowOS

/-- The addresses of the `tib_t` of the threads. None of them is `NULL`, and they are different. -/
structure ThreadAddrs where
  addr : Nat → Nat
  thread : Nat → Option Nat
  thread_null : thread 0 = none
  thread_addr : ∀ t, thread (addr t) = some t

namespace ThreadAddrs

variable (A : ThreadAddrs)

theorem addr_ne_zero (t : Nat) : A.addr t ≠ 0 := by
  intro h0
  have h := A.thread_addr t
  rw [h0, A.thread_null] at h
  cases h

theorem addr_injective : Function.Injective A.addr := by
  intro t u h
  have := A.thread_addr t
  rw [h, A.thread_addr u] at this
  exact (Option.some.inj this).symm

end ThreadAddrs

/-- The scheduler's data as in `Sched`, with the linked list `ready_list`, and the history of it. -/
structure History (n : Nat) where
  tib : Nat → Tib
  proc : Fin n → Processor
  readyList : LinkedList
  threads : Nat
  place : Fin n → Place
  pushed : List Nat
  pulled : List Nat

namespace History

open ThreadState

/-- Why a step is not made: a function of the list does not return, or an assertion fails. -/
inductive Failure
  | list (fault : LinkedList.Fault)
  | assert (cond : String)
  deriving DecidableEq, Repr

variable {n : Nat} (B : NodeBuf) (A : ThreadAddrs)

/-- The data without the linked list, as those of a scheduler with the queue `xs`. -/
def view (h : History n) (xs : List Nat) : Sched n := ⟨h.tib, h.proc, xs, h.threads, h.place⟩

/-- The history goes on with other data, and the same list. -/
def put (h : History n) (s : Sched n) : History n :=
  { h with tib := s.tib, proc := s.proc, threads := s.threads, place := s.place }

/-! ## The functions that use `ready_list` -/

/-- `linked_list_pop(&ready_list)`. For an empty list `linked_list_get` reads the `data` of the node
at `NULL`, which is mapped, and returns `NULL` without using it. -/
def popReadyList (l : LinkedList) : Except LinkedList.Fault (LinkedList × Nat) :=
  if l.startPtr = 0 then .ok (l, 0) else l.linkedListPop B

/-- `pull_next_runnable_thread`. -/
def pullNextRunnableThread (h : History n) : Except Failure (Option Nat × History n) :=
  match popReadyList B h.readyList with
  | .error fault => .error (.list fault)
  | .ok (readyList, ptr) =>
      match A.thread ptr with
      | none => .ok (none, { h with readyList := readyList })
      | some thread =>
          if (h.tib thread).state ≠ THREAD_READY then
            .error (.assert "thread->state == THREAD_READY")
          else if (h.tib thread).isActive then .error (.assert "!thread->is_active")
          else .ok (some thread,
            { h with
              readyList := readyList
              tib := Function.update h.tib thread ⟨THREAD_RUNNING, true⟩
              pulled := h.pulled ++ [thread] })

/-- `scheduler_push_ready_thread`. -/
def schedulerPushReadyThread (thread : Nat) (h : History n) : Except Failure (History n) :=
  match h.readyList.linkedListEnqueue B (A.addr thread) with
  | .error fault => .error (.list fault)
  | .ok (readyList, _) =>
      .ok { h with
        tib := Function.update h.tib thread ⟨THREAD_READY, false⟩
        readyList := readyList
        pushed := h.pushed ++ [thread] }

/-- `scheduler_leave` and `scheduler_async_leave`. -/
def schedulerLeave (c : Fin n) (h : History n) : History n := h.put ((h.view []).schedulerLeave c)

/-- `scheduler_leave_and_queue`. -/
def schedulerLeaveAndQueue (c : Fin n) (fromThread : Nat) (h : History n) :
    Except Failure (History n) :=
  let h := h.put ((h.view []).setInScheduler c false)
  if ¬ (h.tib fromThread).isActive then .error (.assert "from_thread->is_active")
  else if (h.tib fromThread).state ≠ THREAD_RUNNING then
    .error (.assert "from_thread->state == THREAD_RUNNING")
  else
    match h.schedulerPushReadyThread B A fromThread with
    | .error e => .error e
    | .ok h => .ok (h.put ((h.view []).goto c .thread))

/-- The critical section of `scheduler_yield`. -/
def schedulerYield (c : Fin n) (fromThread : Nat) (h : History n) : Except Failure (History n) :=
  match h.pullNextRunnableThread B A with
  | .error e => .error e
  | .ok (none, h) => .ok (h.schedulerLeave c)
  | .ok (some toThread, h) =>
      let h := h.put ((h.view []).setCurrentThread c toThread)
      if toThread = fromThread then .error (.assert "to_thread != from_thread")
      else h.schedulerLeaveAndQueue B A c fromThread

/-- The critical section of `scheduler_async_enter`. -/
def schedulerAsync (c : Fin n) (h : History n) : Except Failure (History n) :=
  match h.pullNextRunnableThread B A with
  | .error e => .error e
  | .ok (none, h) => .ok (h.schedulerLeave c)
  | .ok (some toThread, h) =>
      match (h.proc c).currentThread with
      | none => .error (.assert "from_thread is NULL")
      | some fromThread =>
          let h := h.put ((h.view []).setCurrentThread c toThread)
          match h.schedulerPushReadyThread B A fromThread with
          | .error e => .error e
          | .ok h =>
              if fromThread = toThread then .error (.assert "from_thread != to_thread")
              else .ok (h.schedulerLeave c)

/-- `thread_create_thread` and `scheduler_push_ready_thread`, as in `scheduler_init` on the boot
processor. -/
def createThread (h : History n) : Except Failure (History n) :=
  schedulerPushReadyThread B A h.threads { h with threads := h.threads + 1 }

/-! ## Steps -/

/-- A step that does not use `ready_list`. -/
def execLocal (a : Sched.Action) (c : Fin n) (h : History n) : Except Failure (History n) :=
  match (h.view []).exec a c with
  | .error e => .error (.assert e)
  | .ok s => .ok (h.put s)

/-- A step of processor `c`. -/
def exec (a : Sched.Action) (c : Fin n) (h : History n) : Except Failure (History n) :=
  match a with
  | .init => h.execLocal .init c
  | .yieldEnter => h.execLocal .yieldEnter c
  | .yieldSection =>
      match h.place c with
      | .yield fromThread => h.schedulerYield B A c fromThread
      | _ => .ok h
  | .asyncEnter => h.execLocal .asyncEnter c
  | .asyncSection => h.schedulerAsync B A c

/-- What happens next: a thread is created and pushed, or a processor makes a step. -/
inductive Event (n : Nat)
  | create
  | step (a : Sched.Action) (c : Fin n)

/-- The step relation: any processor may make the next step, and threads may be created as long as
the pool of `ready_list` has a node for them. -/
def Step : Event n → History n → History n → Prop
  | .create, h, h' => h.readyList.size < NODE_POOL_SIZE ∧ h.createThread B A = .ok h'
  | .step a c, h, h' => Sched.Enabled a c (h.view []) ∧ h.exec B A a c = .ok h'

/-- The state in which the boot processor has initialised `ready_list`. -/
def start (nodes : Nat → ListNode) (freeList : Nat → BitVec 32) : History n where
  tib _ := ⟨THREAD_READY, false⟩
  proc _ := ⟨none, false⟩
  readyList := LinkedList.linkedListInit B nodes freeList
  threads := 0
  place _ := .boot
  pushed := []
  pulled := []

def Started (h : History n) : Prop := ∃ nodes freeList, h = start B nodes freeList

/-- The states that the scheduler reaches. -/
abbrev Reachable (h : History n) : Prop := Reach (Started B) (Step B A) h

/-! ## The scheduler with a queue -/

section Simulation

variable {B A} {h h' : History n} {s s' : Sched n} {c : Fin n}

/-- **The history simulates the scheduler with the queue**: all data are the same, the linked list
holds the addresses of the threads in the queue, and what was pushed is what was pulled and what is
in the queue. -/
structure Simulates (B : NodeBuf) (A : ThreadAddrs) (h : History n) (s : Sched n) : Prop where
  view : h.view s.readyList = s
  list : ∃ ns, LinkedList.Inv B h.readyList ns (s.readyList.map A.addr)
  fifo : h.pushed = h.pulled ++ s.readyList

/-- Data that are not in the list may change on both sides. -/
theorem Simulates.put (hs : Simulates B A h s) (hlist : s'.readyList = s.readyList) :
    Simulates B A (h.put s') s' := by
  refine ⟨rfl, ?_, ?_⟩
  · rw [hlist]
    exact hs.list
  · rw [hlist]
    exact hs.fifo

/-- A function that does not use the queue does the same on both sides. -/
theorem Simulates.change (hs : Simulates B A h s) {f : Sched n → Sched n}
    (hf : ∀ s xs, f { s with readyList := xs } = { f s with readyList := xs }) :
    Simulates B A (h.put (f (h.view []))) (f s) := by
  have hview : h.view [] = { s with readyList := [] } := by
    rw [← hs.view]
    rfl
  have hlist : (f s).readyList = s.readyList := (congrArg Sched.readyList (hf s s.readyList) :)
  -- `put` does not read the queue of its argument, so that it may as well be that of `f s`
  rw [hview, hf]
  exact hs.put hlist

/-- The list is not longer than its pool. -/
theorem Simulates.length_le (hs : Simulates B A h s) : s.readyList.length ≤ NODE_POOL_SIZE := by
  obtain ⟨ns, hinv⟩ := hs.list
  have := hinv.length_le
  rwa [← hinv.length_eq, List.length_map] at this

/-- The logs only grow. -/
def Extends (h h' : History n) : Prop := h.pushed <+: h'.pushed ∧ h.pulled <+: h'.pulled

theorem Extends.refl (h : History n) : Extends h h := ⟨List.prefix_rfl, List.prefix_rfl⟩

theorem Extends.trans {h₁ h₂ h₃ : History n} (h₁₂ : Extends h₁ h₂) (h₂₃ : Extends h₂ h₃) :
    Extends h₁ h₃ :=
  ⟨h₁₂.1.trans h₂₃.1, h₁₂.2.trans h₂₃.2⟩

/-- A pull from the queue is a pull from the linked list. A thread that is taken leaves a node for
another one. -/
theorem Simulates.pull (hs : Simulates B A h s) {r : Option Nat}
    (hpull : s.pullNextRunnableThread = .ok (r, s')) :
    ∃ h', h.pullNextRunnableThread B A = .ok (r, h') ∧ Simulates B A h' s' ∧ Extends h h' ∧
      (r ≠ none → s'.readyList.length < NODE_POOL_SIZE) := by
  obtain ⟨ns, hinv⟩ := hs.list
  have htib : h.tib = s.tib := congrArg Sched.tib hs.view
  have hfifo := hs.fifo
  have hlen := hs.length_le
  unfold Sched.pullNextRunnableThread at hpull
  unfold pullNextRunnableThread popReadyList
  cases hq : s.readyList with
  | nil =>
      rw [hq] at hpull hinv
      cases hpull
      have hstart : h.readyList.startPtr = 0 := by
        rw [hinv.start, List.map_eq_nil_iff.1 hinv.data]
        rfl
      rw [if_pos hstart]
      simp only [A.thread_null]
      exact ⟨_, rfl, ⟨hs.view, hs.list, hs.fifo⟩, Extends.refl h, fun hr => absurd rfl hr⟩
  | cons t rest =>
      rw [hq] at hpull hinv hfifo hlen
      simp only at hpull
      split at hpull
      · cases hpull
      · next hready =>
        split at hpull
        · cases hpull
        · next hactive =>
          cases hpull
          have hne : ns ≠ [] := by
            rintro rfl
            have := hinv.data
            simp at this
          -- both assertions hold of the thread, since the queue passed them with the same data
          obtain ⟨l', ns', hpop, hinv'⟩ := LinkedList.Inv.pop hinv
          rw [if_neg (hinv.start_ne_zero hne), hpop]
          simp only [A.thread_addr]
          rw [if_neg (by rw [htib]; exact hready), if_neg (by rw [htib]; exact hactive)]
          refine ⟨_, rfl, ⟨?_, ⟨ns', hinv'⟩, ?_⟩, ⟨List.prefix_rfl, [t], rfl⟩, fun _ => hlen⟩
          · rw [← hs.view]
            rfl
          · show h.pushed = h.pulled ++ [t] ++ rest
            rw [hfifo, List.append_assoc]
            rfl

/-- A push to the queue is a push to the linked list, if the pool has a node left. -/
theorem Simulates.push (hs : Simulates B A h s) (t : Nat)
    (hlt : s.readyList.length < NODE_POOL_SIZE) :
    ∃ h', h.schedulerPushReadyThread B A t = .ok h' ∧
      Simulates B A h' (s.schedulerPushReadyThread t) ∧ Extends h h' := by
  obtain ⟨ns, hinv⟩ := hs.list
  obtain ⟨l', a, hok, hinv'⟩ := hinv.enqueue (A.addr_ne_zero t) (by rwa [List.length_map])
  unfold schedulerPushReadyThread
  rw [hok]
  refine ⟨_, rfl, ⟨?_, ⟨ns ++ [a], ?_⟩, ?_⟩, ⟨[t], rfl⟩, List.prefix_rfl⟩
  · rw [← hs.view]
    rfl
  · show LinkedList.Inv B l' _ ((s.readyList ++ [t]).map A.addr)
    rw [List.map_append]
    exact hinv'
  · show h.pushed ++ [t] = h.pulled ++ (s.readyList ++ [t])
    rw [hs.fifo, List.append_assoc]

theorem Simulates.leave (hs : Simulates B A h s) (c : Fin n) :
    Simulates B A (h.schedulerLeave c) (s.schedulerLeave c) :=
  hs.change fun _ _ => rfl

theorem Simulates.setCurrentThread (hs : Simulates B A h s) (c : Fin n) (t : Nat) :
    Simulates B A (h.put ((h.view []).setCurrentThread c t)) (s.setCurrentThread c t) :=
  hs.change fun _ _ => rfl

theorem Simulates.leaveAndQueue (hs : Simulates B A h s) {f : Nat}
    (hlt : s.readyList.length < NODE_POOL_SIZE)
    (hexec : s.schedulerLeaveAndQueue c f = .ok s') :
    ∃ h', h.schedulerLeaveAndQueue B A c f = .ok h' ∧ Simulates B A h' s' ∧ Extends h h' := by
  have hs1 : Simulates B A (h.put ((h.view []).setInScheduler c false))
      (s.setInScheduler c false) :=
    hs.change fun _ _ => rfl
  have htib : (h.put ((h.view []).setInScheduler c false)).tib = (s.setInScheduler c false).tib :=
    (congrArg Sched.tib hs1.view :)
  obtain ⟨h2, hpush, hs2, hext⟩ := hs1.push f hlt
  unfold Sched.schedulerLeaveAndQueue at hexec
  unfold schedulerLeaveAndQueue
  simp only [hpush, htib] at hexec ⊢
  split_ifs at hexec ⊢ with hactive hstate
  cases hexec
  exact ⟨_, rfl, hs2.change fun _ _ => rfl, hext⟩

/-- A critical section pulls a thread, leaves the scheduler if there is none, and goes on with it
otherwise. -/
theorem Simulates.pulled (hs : Simulates B A h s) {next : Nat → Sched n → Except String (Sched n)}
    {next' : Nat → History n → Except Failure (History n)}
    (hnext : ∀ t s1 h1, Simulates B A h1 s1 → s1.readyList.length < NODE_POOL_SIZE →
      next t s1 = .ok s' → ∃ h', next' t h1 = .ok h' ∧ Simulates B A h' s' ∧ Extends h1 h')
    (hexec : (match s.pullNextRunnableThread with
      | .error e => Except.error e
      | .ok (none, s1) => Except.ok (s1.schedulerLeave c)
      | .ok (some t, s1) => next t s1) = .ok s') :
    ∃ h', (match h.pullNextRunnableThread B A with
      | .error e => Except.error e
      | .ok (none, h1) => Except.ok (h1.schedulerLeave c)
      | .ok (some t, h1) => next' t h1) = .ok h' ∧ Simulates B A h' s' ∧ Extends h h' := by
  cases hp : s.pullNextRunnableThread with
  | error e =>
      rw [hp] at hexec
      cases hexec
  | ok p =>
      obtain ⟨r, s1⟩ := p
      obtain ⟨h1, hpull, hs1, hext1, hroom⟩ := hs.pull hp
      rw [hp] at hexec
      rw [hpull]
      cases r with
      | none =>
          cases hexec
          exact ⟨_, rfl, hs1.leave c, hext1⟩
      | some t =>
          obtain ⟨h2, hok, hs2, hext2⟩ := hnext t s1 h1 hs1 (hroom (by simp)) hexec
          exact ⟨h2, hok, hs2, hext1.trans hext2⟩

/-- **The critical section of `scheduler_yield`.** -/
theorem Simulates.yield (hs : Simulates B A h s) {f : Nat}
    (hexec : s.schedulerYield c f = .ok s') :
    ∃ h', h.schedulerYield B A c f = .ok h' ∧ Simulates B A h' s' ∧ Extends h h' := by
  refine hs.pulled (fun t s1 h1 hs1 hroom hrest => ?_) hexec
  have hs2 := hs1.setCurrentThread c t
  simp only at hrest ⊢
  split_ifs at hrest ⊢
  exact hs2.leaveAndQueue hroom hrest

/-- **The critical section of `scheduler_async_enter`.** -/
theorem Simulates.async (hs : Simulates B A h s) (hexec : s.schedulerAsync c = .ok s') :
    ∃ h', h.schedulerAsync B A c = .ok h' ∧ Simulates B A h' s' ∧ Extends h h' := by
  refine hs.pulled (fun t s1 h1 hs1 hroom hrest => ?_) hexec
  have hproc : h1.proc = s1.proc := congrArg Sched.proc hs1.view
  have hs2 := hs1.setCurrentThread c t
  simp only [hproc] at hrest ⊢
  cases hf : (s1.proc c).currentThread with
  | none =>
      rw [hf] at hrest
      cases hrest
  | some f =>
      rw [hf] at hrest
      obtain ⟨h2, hpush, hs3, hext⟩ := hs2.push f hroom
      simp only [hpush] at hrest ⊢
      split_ifs at hrest ⊢
      cases hrest
      exact ⟨_, rfl, hs3.leave c, hext⟩

/-- The other steps do not use the queue. -/
theorem exec_queue {a : Sched.Action} (hy : a ≠ .yieldSection) (ha : a ≠ .asyncSection)
    (hexec : s.exec a c = .ok s') (xs : List Nat) :
    s'.readyList = s.readyList ∧
      Sched.exec a c { s with readyList := xs } = .ok { s' with readyList := xs } := by
  cases a with
  | init =>
      cases hexec
      exact ⟨rfl, rfl⟩
  | yieldEnter =>
      simp only [Sched.exec, Sched.schedulerYieldEnter] at hexec ⊢
      cases hf : (s.proc c).currentThread with
      | none =>
          rw [hf] at hexec
          cases hexec
      | some f =>
          rw [hf] at hexec
          cases hexec
          exact ⟨rfl, rfl⟩
  | yieldSection => exact absurd rfl hy
  | asyncEnter =>
      simp only [Sched.exec, Sched.schedulerAsyncEnter] at hexec ⊢
      split_ifs at hexec ⊢
      · cases hexec
        exact ⟨rfl, rfl⟩
      · cases hexec
        exact ⟨rfl, rfl⟩
  | asyncSection => exact absurd rfl ha

theorem Simulates.execLocal (hs : Simulates B A h s) {a : Sched.Action} (hy : a ≠ .yieldSection)
    (ha : a ≠ .asyncSection) (hexec : s.exec a c = .ok s') :
    ∃ h', h.execLocal a c = .ok h' ∧ Simulates B A h' s' ∧ Extends h h' := by
  obtain ⟨hlist, hnil⟩ := exec_queue hy ha hexec []
  have hview : h.view [] = { s with readyList := [] } := by
    rw [← hs.view]
    rfl
  unfold History.execLocal
  rw [hview, hnil]
  exact ⟨_, rfl, hs.put hlist, Extends.refl h⟩

/-- **A step of the scheduler with the queue is a step of the scheduler with the linked list.** -/
theorem Simulates.exec (hs : Simulates B A h s) {a : Sched.Action} (hexec : s.exec a c = .ok s') :
    ∃ h', h.exec B A a c = .ok h' ∧ Simulates B A h' s' ∧ Extends h h' := by
  cases a with
  | init => exact hs.execLocal (by decide) (by decide) hexec
  | yieldEnter => exact hs.execLocal (by decide) (by decide) hexec
  | yieldSection =>
      have hplace : h.place c = s.place c := congrArg (fun s => s.place c) hs.view
      simp only [Sched.exec] at hexec
      simp only [History.exec, hplace]
      cases hpc : s.place c with
      | yield f =>
          rw [hpc] at hexec
          exact hs.yield hexec
      | boot | thread | interrupt =>
          rw [hpc] at hexec
          cases hexec
          exact ⟨h, rfl, hs, Extends.refl h⟩
  | asyncEnter => exact hs.execLocal (by decide) (by decide) hexec
  | asyncSection => exact hs.async hexec

end Simulation

end History

/-! ## New threads -/

namespace Sched

open ThreadState

variable {n : Nat} {s : Sched n}

/-- A thread is created and goes to the end of the queue. -/
def createThread (s : Sched n) : Sched n :=
  schedulerPushReadyThread s.threads { s with threads := s.threads + 1 }

/-- A new thread is on no processor, and not yet in the queue. -/
theorem Inv.create (hi : Inv s) : Inv s.createThread where
  boot := hi.boot
  yield := hi.yield
  running := by
    intro c t hc
    obtain ⟨hlt, hrun⟩ := hi.running c t hc
    refine ⟨Nat.lt_succ_of_lt hlt, ?_⟩
    show Function.update s.tib s.threads _ t = _
    rw [Function.update_of_ne (Nat.ne_of_lt hlt), hrun]
  inj := hi.inj
  ready := by
    intro t ht
    show t < s.threads + 1 ∧ Function.update s.tib s.threads _ t = _
    rcases List.mem_append.1 ht with ht | ht
    · obtain ⟨hlt, hready⟩ := hi.ready t ht
      rw [Function.update_of_ne (Nat.ne_of_lt hlt)]
      exact ⟨Nat.lt_succ_of_lt hlt, hready⟩
    · rw [List.mem_singleton.1 ht, Function.update_self]
      exact ⟨Nat.lt_succ_self _, rfl⟩
  nodup := by
    refine List.nodup_append.2 ⟨hi.nodup, List.nodup_singleton _, ?_⟩
    intro t ht u hu heq
    have hlt := (hi.ready t ht).1
    rw [heq, List.mem_singleton.1 hu] at hlt
    exact Nat.lt_irrefl _ hlt
  cover := by
    intro t ht
    rcases Nat.lt_succ_iff_lt_or_eq.1 ht with hlt | rfl
    · rcases hi.cover t hlt with hready | hcur
      · exact Or.inl (List.mem_append_left _ hready)
      · exact Or.inr hcur
    · exact Or.inl (List.mem_append_right _ (List.mem_singleton_self _))

end Sched

/-! ## Runs -/

namespace History

variable {n : Nat} {B : NodeBuf} {A : ThreadAddrs} {h h' h₁ h₂ : History n} {e : Event n}

/-- **The invariant**: the history simulates a scheduler with a queue that keeps its threads. -/
def Inv (B : NodeBuf) (A : ThreadAddrs) (h : History n) : Prop :=
  ∃ s, Simulates B A h s ∧ s.Inv

theorem inv_start (nodes : Nat → ListNode) (freeList : Nat → BitVec 32) :
    Inv B A (start B nodes freeList : History n) := by
  refine ⟨(start B nodes freeList).view [], ⟨rfl, ⟨[], LinkedList.inv_init _ _⟩, rfl⟩, ?_⟩
  refine ⟨fun c => ⟨fun _ => rfl, fun _ => rfl⟩, ?_, ?_, ?_, ?_, List.nodup_nil, ?_⟩
  · intro c t hc
    cases hc
  · intro c t hc
    cases hc
  · intro c d t hc
    cases hc
  · intro t ht
    cases ht
  · intro t ht
    cases ht

/-- What a processor can do next does not depend on the queue. -/
theorem enabled_view {a : Sched.Action} {c : Fin n} {xs : List Nat}
    (ha : Sched.Enabled a c (h.view [])) : Sched.Enabled a c (h.view xs) := by
  cases a <;> exact ha

/-- **No step of a processor fails**: no assertion does, and no function of the list. -/
theorem Inv.exec (hi : Inv B A h) {a : Sched.Action} {c : Fin n}
    (ha : Sched.Enabled a c (h.view [])) :
    ∃ h', h.exec B A a c = .ok h' ∧ Inv B A h' ∧ Extends h h' := by
  obtain ⟨s, hs, hsinv⟩ := hi
  have ha : Sched.Enabled a c s := by
    rw [← hs.view]
    exact enabled_view ha
  obtain ⟨s', hexec, hsinv'⟩ := hsinv.exec ha
  obtain ⟨h', hok, hs', hext⟩ := hs.exec hexec
  exact ⟨h', hok, ⟨s', hs', hsinv'⟩, hext⟩

theorem Inv.create (hi : Inv B A h) (hsize : h.readyList.size < NODE_POOL_SIZE) :
    ∃ h', h.createThread B A = .ok h' ∧ Inv B A h' ∧ Extends h h' := by
  obtain ⟨s, hs, hsinv⟩ := hi
  obtain ⟨ns, hlist⟩ := hs.list
  have hlt : s.readyList.length < NODE_POOL_SIZE := by
    rwa [hlist.size, ← hlist.length_eq, List.length_map] at hsize
  have hs1 : Simulates B A { h with threads := h.threads + 1 }
      { s with threads := h.threads + 1 } := by
    refine ⟨?_, ⟨ns, hlist⟩, hs.fifo⟩
    rw [← hs.view]
    rfl
  have hthreads : h.threads = s.threads := congrArg Sched.threads hs.view
  obtain ⟨h', hok, hs', hext⟩ := hs1.push h.threads hlt
  refine ⟨h', hok, ⟨s.createThread, ?_, hsinv.create⟩, hext⟩
  rwa [hthreads] at hs'

/-- **A step keeps the invariant**, and adds to the logs. -/
theorem Inv.step (hi : Inv B A h) (hstep : Step B A e h h') : Inv B A h' ∧ Extends h h' := by
  cases e with
  | create =>
      obtain ⟨hsize, hok⟩ := hstep
      obtain ⟨h₁, hok₁, hinv, hext⟩ := hi.create hsize
      rw [hok₁] at hok
      cases hok
      exact ⟨hinv, hext⟩
  | step a c =>
      obtain ⟨ha, hok⟩ := hstep
      obtain ⟨h₁, hok₁, hinv, hext⟩ := hi.exec ha
      rw [hok₁] at hok
      cases hok
      exact ⟨hinv, hext⟩

theorem inv_reachable (hr : Reachable B A h) : Inv B A h := by
  refine hr.invariant (I := Inv B A) ?_ ?_
  · rintro h ⟨nodes, freeList, rfl⟩
    exact inv_start nodes freeList
  · intro e h h' hi hstep
    exact (hi.step hstep).1

/-- A run from a state on adds to the logs of that state. -/
theorem Inv.run (hi : Inv B A h) (hrun : Reach (fun g => g = h) (Step B A) h') :
    Inv B A h' ∧ Extends h h' := by
  refine hrun.invariant (I := fun g => Inv B A g ∧ Extends h g) ?_ ?_
  · rintro g rfl
    exact ⟨hi, Extends.refl g⟩
  · rintro e g g' ⟨hg, hext⟩ hstep
    obtain ⟨hg', hext'⟩ := hg.step hstep
    exact ⟨hg', hext.trans hext'⟩

/-- If the elements that come out of a queue are `mid` and then `t`, and `t` was not in the queue,
then everything that was in the queue is in `mid`. -/
theorem subset_of_fifo {rest more mid later : List Nat} {t : Nat} (ht : t ∉ rest)
    (heq : rest ++ more = mid ++ t :: later) : rest <+: mid := by
  rcases List.append_eq_append_iff.1 heq with ⟨as, hmid, -⟩ | ⟨bs, hrest, hlater⟩
  · exact ⟨as, hmid.symm⟩
  · cases bs with
    | nil =>
        rw [List.append_nil] at hrest
        exact hrest ▸ List.prefix_rfl
    | cons b bs =>
        injection hlater with hb _
        exact absurd (by simp [hrest, hb]) ht

/-- The threads that the linked list shows are those of the queue. -/
theorem Simulates.shown {s : Sched n} {ns xs : List Nat} (hs : Simulates B A h s)
    (hshow : LinkedList.Shows B h.readyList ns (xs.map A.addr)) : xs = s.readyList := by
  obtain ⟨ns', hinv⟩ := hs.list
  have hns : ns = ns' := Option.some.inj (hshow.forward.symm.trans hinv.shows.forward)
  refine List.map_injective_iff.2 A.addr_injective ?_
  rw [← hshow.data, ← hinv.data, hns]

/-- **Round robin.** For any number of processors and any interleaving of their critical sections
the threads that `pull_next_runnable_thread` returned are a prefix of the threads that were passed
to `scheduler_push_ready_thread`. Hence if a thread `t` is dispatched in a step from `h`, and again
after the threads `mid` have been dispatched, then every thread that was on `ready_list` is `t` or
in `mid`: none is overtaken twice. -/
theorem pulled_prefix_pushed (hr : Reachable B A h) :
    h.pulled <+: h.pushed ∧
      ∀ (e : Event n) (h₁ h₂ : History n) (t : Nat) (mid : List Nat),
        Step B A e h h₁ → h₁.pulled = h.pulled ++ [t] →
        Reach (fun g => g = h₁) (Step B A) h₂ → h₂.pulled = h₁.pulled ++ mid ++ [t] →
        ∀ ns xs : List Nat, LinkedList.Shows B h.readyList ns (xs.map A.addr) →
          ∀ u ∈ xs, u = t ∨ u ∈ mid := by
  have hi := inv_reachable hr
  obtain ⟨s, hs, hsinv⟩ := id hi
  refine ⟨⟨_, hs.fifo.symm⟩, ?_⟩
  intro e h₁ h₂ t mid hstep hfirst hrun hsecond ns xs hshow u hu
  rw [hs.shown hshow] at hu
  obtain ⟨hi₁, hext₁⟩ := hi.step hstep
  obtain ⟨⟨s₂, hs₂, -⟩, hext₂⟩ := hi₁.run hrun
  -- Everything that was pushed by now: what was dispatched and waits, and what was pushed later.
  obtain ⟨more, hmore⟩ := hext₁.1.trans hext₂.1
  have hlog : s.readyList ++ more = t :: (mid ++ t :: s₂.readyList) := by
    have hall := hmore.trans hs₂.fifo
    rw [hs.fifo, hsecond, hfirst] at hall
    simpa using hall
  cases hq : s.readyList with
  | nil =>
      rw [hq] at hu
      cases hu
  | cons t' rest =>
      rw [hq] at hlog hu
      injection hlog with ht hrest
      have hnodup := hsinv.nodup
      rw [hq, List.nodup_cons, ht] at hnodup
      rcases List.mem_cons.1 hu with hu | hu
      · exact Or.inl (hu.trans ht)
      · exact Or.inr ((subset_of_fifo hnodup.1 hrest).subset hu)

/-! ## Executing a run -/

instance (a : Sched.Action) (c : Fin n) (s : Sched n) : Decidable (Sched.Enabled a c s) :=
  match a with
  | .init => inferInstanceAs (Decidable (s.place c = .boot))
  | .yieldEnter => inferInstanceAs (Decidable (s.place c = .thread))
  | .yieldSection =>
      match hplace : s.place c with
      | .yield f => .isTrue ⟨f, hplace⟩
      | .boot => .isFalse fun ⟨f, hf⟩ => by rw [hplace] at hf; cases hf
      | .thread => .isFalse fun ⟨f, hf⟩ => by rw [hplace] at hf; cases hf
      | .interrupt => .isFalse fun ⟨f, hf⟩ => by rw [hplace] at hf; cases hf
  | .asyncEnter => inferInstanceAs (Decidable (s.place c = .thread))
  | .asyncSection => inferInstanceAs (Decidable (s.place c = .interrupt))

/-- The state after an event, if it can happen. -/
def happen (B : NodeBuf) (A : ThreadAddrs) : Event n → History n → Option (History n)
  | .create, h =>
      if h.readyList.size < NODE_POOL_SIZE then (h.createThread B A).toOption else none
  | .step a c, h =>
      if Sched.Enabled a c (h.view []) then (h.exec B A a c).toOption else none

theorem step_of_happen (e : Event n) (h h' : History n) (hh : happen B A e h = some h') :
    Step B A e h h' := by
  cases e with
  | create =>
      simp only [happen] at hh
      split_ifs at hh with hsize
      exact ⟨hsize, eq_ok_of_toOption hh⟩
  | step a c =>
      simp only [happen] at hh
      split_ifs at hh with ha
      exact ⟨ha, eq_ok_of_toOption hh⟩

/-- Addresses of threads. -/
def someAddrs : ThreadAddrs where
  addr t := t + 1
  thread := fun
    | 0 => none
    | t + 1 => some t
  thread_null := rfl
  thread_addr _ := rfl

/-- Three threads are created, one processor enters its idle thread `3`, and a timer interrupt
comes. -/
def firstTurn : List (Event 1) :=
  [.create, .create, .create, .step .init 0, .step .asyncEnter 0]

/-- The threads yield, one after the other. -/
def otherTurns : List (Event 1) :=
  (List.replicate 4 [.step .yieldEnter 0, .step .yieldSection 0]).flatten

/-- Thread `0` is dispatched, then every other thread, then thread `0` again. -/
theorem pulled_prefix_pushed_turns :
    ∃ h h₁ h₂ : History 1, Reachable LinkedList.someBuf someAddrs h ∧
      Step LinkedList.someBuf someAddrs (.step .asyncSection 0) h h₁ ∧
      h₁.pulled = h.pulled ++ [0] ∧ h₂.pulled = h₁.pulled ++ [1, 2, 3] ++ [0] ∧
      h.pulled <+: h.pushed ∧
      ∀ ns xs : List Nat,
        LinkedList.Shows LinkedList.someBuf h.readyList ns (xs.map someAddrs.addr) →
        ∀ u ∈ xs, u = 0 ∨ u ∈ [1, 2, 3] := by
  have hrun : (runList (happen LinkedList.someBuf someAddrs) firstTurn
      (start LinkedList.someBuf (fun _ => ⟨0, 0, 0⟩) fun _ => 0#32)).any (fun h =>
        (happen LinkedList.someBuf someAddrs (.step .asyncSection 0) h).any fun h₁ =>
          h₁.pulled == h.pulled ++ [0] &&
            (runList (happen LinkedList.someBuf someAddrs) otherTurns h₁).any fun h₂ =>
              h₂.pulled == h₁.pulled ++ [1, 2, 3] ++ [0]) = true := by
    decide +kernel
  obtain ⟨h, hh, hrun₁⟩ := (Option.any_eq_true _ _).1 hrun
  obtain ⟨h₁, hh₁, hrun₂⟩ := (Option.any_eq_true _ _).1 hrun₁
  obtain ⟨hfirst, hrun₃⟩ := Bool.and_eq_true_iff.1 hrun₂
  obtain ⟨h₂, hh₂, hsecond⟩ := (Option.any_eq_true _ _).1 hrun₃
  have hr : Reachable LinkedList.someBuf someAddrs h :=
    reach_runList step_of_happen (.start ⟨_, _, rfl⟩) hh
  have hstep := step_of_happen _ _ _ hh₁
  have hlater : Reach (fun g => g = h₁) (Step LinkedList.someBuf someAddrs) h₂ :=
    reach_runList step_of_happen (.start rfl) hh₂
  obtain ⟨hfifo, hturn⟩ := pulled_prefix_pushed hr
  exact ⟨h, h₁, h₂, hr, hstep, eq_of_beq hfirst, eq_of_beq hsecond, hfifo,
    hturn _ h₁ h₂ 0 _ hstep (eq_of_beq hfirst) hlater (eq_of_beq hsecond)⟩

end History

end NowOS

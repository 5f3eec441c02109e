import NowOS.Lib.Mutex
import NowOS.Sched.Conservation
import NowOS.Sched.SpinLock

set_option autoImplicit false

/-! # The scheduler one access at a time (`kernel/scheduler.c`, `kernel/lock.c`)

The processors go through `scheduler_yield`, `scheduler_async_enter` and `scheduler_init` one store
at a time and in any order, with the word of `sched_lock` in between. `FineSched.next` is the next
access of a processor; the data is the one of `Sched`, whose `place` says which function a processor
is in.

At every moment each thread is the current thread of one processor, or once on `ready_list`, or in
motion: taken from the one place and not yet put to the other by the processor that has the lock
(`Placed`). Because of that no assertion fails, and an access of a processor outside the lock
touches nothing that the processor inside it works on. The timer interrupt is one that comes in the
code of threads (`FineSched.Enabled`). -/

namespace NowOS

/-- The callers of `pull_next_runnable_thread`, with the local variable `from_thread` of
`scheduler_yield`. -/
inductive SchedCaller
  | yield (fromThread : Nat)
  | async
  deriving DecidableEq, Repr

/-- The access that a processor makes next. -/
inductive SchedPoint
  -- the code of a thread
  | thread
  -- `scheduler_yield` before `spin_lock`
  | yieldState (fromThread : Nat)
  | yieldFlag (fromThread : Nat)
  -- `spin_lock`: the exchange, and the inner loop
  | lock (k : SchedCaller)
  | watch (k : SchedCaller)
  -- `pull_next_runnable_thread`
  | pop (k : SchedCaller)
  | pullState (k : SchedCaller) (thread : Nat)
  | pullActive (k : SchedCaller) (thread : Nat)
  -- `proc->current_thread = to_thread`
  | current (k : SchedCaller) (toThread : Nat)
  -- `scheduler_leave_and_queue`
  | queueFlag (fromThread toThread : Nat)
  -- `scheduler_push_ready_thread`
  | pushActive (k : SchedCaller) (fromThread toThread : Nat)
  | pushState (k : SchedCaller) (fromThread toThread : Nat)
  | enqueue (k : SchedCaller) (fromThread toThread : Nat)
  -- `scheduler_init` and `thread_enter`
  | initLock
  | initWatch
  | create
  | initState (idleThread : Nat)
  | initActive (idleThread : Nat)
  | initCurrent (idleThread : Nat)
  | enterState (idleThread : Nat)
  -- `scheduler_leave` and `scheduler_async_leave`
  | leaveFlag
  | unlock
  deriving DecidableEq, Repr

/-- The processors at their points, the word of `sched_lock`, and the data. -/
structure FineSched (n : Nat) where
  data : Sched n
  word : UInt32
  pc : Fin n → SchedPoint

namespace FineSched

open ThreadState

variable {n : Nat}

/-! ## Accesses -/

/-- `thread->state = v`. -/
def setState (t : Nat) (v : ThreadState) (s : Sched n) : Sched n :=
  { s with tib := Function.update s.tib t { s.tib t with state := v } }

/-- `thread->is_active = v`. -/
def setActive (t : Nat) (v : Bool) (s : Sched n) : Sched n :=
  { s with tib := Function.update s.tib t { s.tib t with isActive := v } }

/-- Processor `c` goes on at `p`, and the data becomes `s`. -/
def go (f : FineSched n) (c : Fin n) (p : SchedPoint) (s : Sched n) : FineSched n :=
  { f with data := s, pc := Function.update f.pc c p }

/-- The exchange of `spin_lock`, after which the processor goes on at `p` or in the inner loop
`w`. -/
def spinExchange (c : Fin n) (p w : SchedPoint) (f : FineSched n) : FineSched n :=
  { f.go c (if f.word = LOCK_FREE then p else w) f.data with word := LOCK_BUSY }

/-- A turn of the inner loop of `spin_lock`. -/
def spinWatch (c : Fin n) (p : SchedPoint) (f : FineSched n) : FineSched n :=
  if f.word = LOCK_BUSY then f else f.go c p f.data

/-- The next access of processor `c`; a failed `ASSERT` is an error with the text of its
condition. -/
def next (c : Fin n) (f : FineSched n) : Except String (FineSched n) :=
  let s := f.data
  match f.pc c with
  | .thread => .ok f
  | .yieldState t => .ok (f.go c (.yieldFlag t) (setState t THREAD_RUNNING s))
  | .yieldFlag t => .ok (f.go c (.lock (.yield t)) ((s.setInScheduler c true).goto c (.yield t)))
  | .lock k => .ok (f.spinExchange c (.pop k) (.watch k))
  | .watch k => .ok (f.spinWatch c (.lock k))
  | .pop k =>
      match s.readyList with
      | [] => .ok (f.go c .leaveFlag s)
      | t :: rest => .ok (f.go c (.pullState k t) { s with readyList := rest })
  | .pullState k t =>
      if (s.tib t).state ≠ THREAD_READY then .error "thread->state == THREAD_READY"
      else if (s.tib t).isActive then .error "!thread->is_active"
      else .ok (f.go c (.pullActive k t) (setState t THREAD_RUNNING s))
  | .pullActive k t => .ok (f.go c (.current k t) (setActive t true s))
  | .current (.yield fromThread) t =>
      if t = fromThread then .error "to_thread != from_thread"
      else .ok (f.go c (.queueFlag fromThread t) (s.setCurrentThread c t))
  | .current .async t =>
      match (s.proc c).currentThread with
      | none => .error "from_thread is NULL"
      | some fromThread => .ok (f.go c (.pushActive .async fromThread t) (s.setCurrentThread c t))
  | .queueFlag fromThread t =>
      .ok (f.go c (.pushActive (.yield fromThread) fromThread t) (s.setInScheduler c false))
  | .pushActive (.yield y) fromThread t =>
      if ¬ (s.tib fromThread).isActive then .error "from_thread->is_active"
      else if (s.tib fromThread).state ≠ THREAD_RUNNING then
        .error "from_thread->state == THREAD_RUNNING"
      else .ok (f.go c (.pushState (.yield y) fromThread t) (setActive fromThread false s))
  | .pushActive .async fromThread t =>
      .ok (f.go c (.pushState .async fromThread t) (setActive fromThread false s))
  | .pushState k fromThread t =>
      .ok (f.go c (.enqueue k fromThread t) (setState fromThread THREAD_READY s))
  | .enqueue (.yield _) fromThread _ =>
      .ok (f.go c .unlock { s with readyList := s.readyList ++ [fromThread] })
  | .enqueue .async fromThread t =>
      if fromThread = t then .error "from_thread != to_thread"
      else .ok (f.go c .leaveFlag { s with readyList := s.readyList ++ [fromThread] })
  | .initLock => .ok (f.spinExchange c .create .initWatch)
  | .initWatch => .ok (f.spinWatch c .initLock)
  | .create =>
      -- `thread_create_thread` clears the thread it gets
      .ok (f.go c (.initState s.threads)
        { s with
          threads := s.threads + 1
          tib := Function.update s.tib s.threads ⟨THREAD_READY, false⟩ })
  | .initState t => .ok (f.go c (.initActive t) (setState t THREAD_RUNNING s))
  | .initActive t => .ok (f.go c (.initCurrent t) (setActive t true s))
  | .initCurrent t => .ok (f.go c (.enterState t) (s.setCurrentThread c t))
  | .enterState t => .ok (f.go c .leaveFlag (setState t THREAD_RUNNING s))
  | .leaveFlag => .ok (f.go c .unlock (s.setInScheduler c false))
  | .unlock => .ok { f.go c .thread (s.goto c .thread) with word := LOCK_FREE }

/-- What can happen on a processor: its next access, the call of `scheduler_yield` by the thread
that runs, and a timer interrupt. -/
inductive Event
  | next
  | yield
  | tick
  deriving DecidableEq, Repr

/-- `scheduler_yield` reads `proc->current_thread`. -/
def yieldCall (c : Fin n) (f : FineSched n) : Except String (FineSched n) :=
  match (f.data.proc c).currentThread with
  | none => .error "from_thread is NULL"
  | some t => .ok (f.go c (.yieldState t) f.data)

/-- `scheduler_async_enter` reads `proc->in_scheduler`. -/
def tick (c : Fin n) (f : FineSched n) : FineSched n :=
  if (f.data.proc c).inScheduler then f else f.go c (.lock .async) (f.data.goto c .interrupt)

/-- A timer interrupt comes in the code of threads only. This takes every processor to enter
`scheduler_init` with interrupts disabled (then `Cores.Inv.off`), as the boot processor does.
`init_ap` enables them before: what an application processor can run into there is in
`Sched/Deadlock.lean`. -/
def Enabled (e : Fin n × Event) (f : FineSched n) : Prop :=
  match e.2 with
  | .next => True
  | .yield | .tick => f.pc e.1 = .thread

def exec (e : Fin n × Event) (f : FineSched n) : Except String (FineSched n) :=
  match e.2 with
  | .next => f.next e.1
  | .yield => f.yieldCall e.1
  | .tick => .ok (f.tick e.1)

def Step (e : Fin n × Event) (f f' : FineSched n) : Prop := Enabled e f ∧ exec e f = .ok f'

/-- All processors are at `spin_lock` of `scheduler_init`. -/
def start (n : Nat) : FineSched n := ⟨Sched.boot n, LOCK_FREE, fun _ => .initLock⟩

abbrev Reachable (f : FineSched n) : Prop := Reach (· = start n) Step f

end FineSched

/-! ## Where the threads are -/

open ThreadState in
/-- Every thread has one place: it is the current thread `cur c` of a processor, or on `list`, or it
is the thread in motion, with the thread block that `motion` says. -/
structure Placed {n : Nat} (tib : Nat → Tib) (cur : Fin n → Option Nat) (list : List Nat)
    (threads : Nat) (motion : Option (Nat × Tib)) : Prop where
  running : ∀ c t, cur c = some t → t < threads ∧ tib t = ⟨THREAD_RUNNING, true⟩
  inj : ∀ c d t, cur c = some t → cur d = some t → c = d
  ready : ∀ t ∈ list, t < threads ∧ tib t = ⟨THREAD_READY, false⟩
  nodup : list.Nodup
  moving : ∀ t v, motion = some (t, v) →
    t < threads ∧ tib t = v ∧ t ∉ list ∧ ∀ c, cur c ≠ some t
  cover : ∀ t, t < threads → t ∈ list ∨ (∃ c, cur c = some t) ∨ ∃ v, motion = some (t, v)

namespace Placed

open ThreadState

variable {n : Nat} {tib : Nat → Tib} {cur : Fin n → Option Nat} {list : List Nat} {threads : Nat}
  {motion : Option (Nat × Tib)} {t f : Nat} {v w : Tib} {c : Fin n}

theorem ne_of_ready (h : Placed tib cur list threads motion) (ht : t ∈ list)
    (hc : cur c = some f) : t ≠ f := by
  rintro rfl
  have h1 := (h.ready t ht).2
  rw [(h.running c t hc).2] at h1
  cases h1

/-- The thread block of the thread in motion changes. -/
theorem retag (h : Placed tib cur list threads (some (t, v))) (w : Tib) :
    Placed (Function.update tib t w) cur list threads (some (t, w)) := by
  obtain ⟨hlt, -, hlist, hcur⟩ := h.moving t v rfl
  refine ⟨?_, h.inj, ?_, h.nodup, ?_, ?_⟩
  · intro c u hu
    have hut : u ≠ t := by
      rintro rfl
      exact hcur c hu
    rw [Function.update_of_ne hut]
    exact h.running c u hu
  · intro u hu
    have hut : u ≠ t := by
      rintro rfl
      exact hlist hu
    rw [Function.update_of_ne hut]
    exact h.ready u hu
  · rintro u x hux
    obtain ⟨rfl, rfl⟩ := Prod.mk.inj (Option.some.inj hux)
    exact ⟨hlt, Function.update_self _ _ _, hlist, hcur⟩
  · intro u hu
    rcases h.cover u hu with hr | hc | ⟨x, hx⟩
    · exact .inl hr
    · exact .inr (.inl hc)
    · obtain ⟨rfl, rfl⟩ := Prod.mk.inj (Option.some.inj hx)
      exact .inr (.inr ⟨w, rfl⟩)

/-- The first thread of the list is taken off it. -/
theorem pop {rest : List Nat} (h : Placed tib cur (t :: rest) threads none) :
    Placed tib cur rest threads (some (t, ⟨THREAD_READY, false⟩)) := by
  have hmem : t ∈ t :: rest := List.mem_cons_self
  refine ⟨h.running, h.inj, fun u hu => h.ready u (List.mem_cons_of_mem _ hu), h.nodup.of_cons, ?_,
    ?_⟩
  · rintro u x hux
    obtain ⟨rfl, rfl⟩ := Prod.mk.inj (Option.some.inj hux)
    obtain ⟨hlt, htib⟩ := h.ready t hmem
    exact ⟨hlt, htib, (List.nodup_cons.mp h.nodup).1, fun c hc => h.ne_of_ready hmem hc rfl⟩
  · intro u hu
    rcases h.cover u hu with hr | hc | ⟨x, hx⟩
    · rcases List.mem_cons.mp hr with rfl | hr
      · exact .inr (.inr ⟨_, rfl⟩)
      · exact .inl hr
    · exact .inr (.inl hc)
    · cases hx

/-- The thread in motion goes to the end of the list. -/
theorem enqueue (h : Placed tib cur list threads (some (f, ⟨THREAD_READY, false⟩))) :
    Placed tib cur (list ++ [f]) threads none := by
  obtain ⟨hlt, htib, hlist, -⟩ := h.moving f _ rfl
  refine ⟨h.running, h.inj, ?_, ?_, (by simp), ?_⟩
  · intro u hu
    rcases List.mem_append.mp hu with hu | hu
    · exact h.ready u hu
    · obtain rfl := List.mem_singleton.mp hu
      exact ⟨hlt, htib⟩
  · rw [List.nodup_append_comm]
    exact List.nodup_cons.mpr ⟨hlist, h.nodup⟩
  · intro u hu
    rcases h.cover u hu with hr | hc | ⟨x, hx⟩
    · exact .inl (List.mem_append_left _ hr)
    · exact .inr (.inl hc)
    · obtain ⟨rfl, -⟩ := Prod.mk.inj (Option.some.inj hx)
      exact .inl (by simp)

/-- What the processors run after processor `c` has gone on with the thread in motion. -/
theorem cur_update (h : Placed tib cur list threads (some (t, v))) :
    ∀ d e u, Function.update cur c (some t) d = some u → Function.update cur c (some t) e = some u →
      d = e := by
  have hcur := (h.moving t v rfl).2.2.2
  intro d e u hd he
  by_cases hdc : d = c
  · subst hdc
    rw [Function.update_self] at hd
    cases hd
    by_contra hed
    rw [Function.update_of_ne (Ne.symm hed)] at he
    exact hcur e he
  · rw [Function.update_of_ne hdc] at hd
    by_cases hec : e = c
    · subst hec
      rw [Function.update_self] at he
      cases he
      exact absurd hd (hcur d)
    · rw [Function.update_of_ne hec] at he
      exact h.inj d e u hd he

theorem running_update (h : Placed tib cur list threads (some (t, ⟨THREAD_RUNNING, true⟩))) :
    ∀ d u, Function.update cur c (some t) d = some u →
      u < threads ∧ tib u = ⟨THREAD_RUNNING, true⟩ := by
  obtain ⟨hlt, htib, -, -⟩ := h.moving t _ rfl
  intro d u hd
  by_cases hdc : d = c
  · subst hdc
    rw [Function.update_self] at hd
    cases hd
    exact ⟨hlt, htib⟩
  · rw [Function.update_of_ne hdc] at hd
    exact h.running d u hd

/-- Processor `c` goes on with the thread in motion, and the thread it had is in motion then. -/
theorem switch (h : Placed tib cur list threads (some (t, ⟨THREAD_RUNNING, true⟩)))
    (hc : cur c = some f) :
    Placed tib (Function.update cur c (some t)) list threads
      (some (f, ⟨THREAD_RUNNING, true⟩)) := by
  obtain ⟨hlt, htib, hlist, hcur⟩ := h.moving t _ rfl
  have hft : f ≠ t := by
    rintro rfl
    exact hcur c hc
  refine ⟨h.running_update, h.cur_update, h.ready, h.nodup, ?_, ?_⟩
  · rintro u x hux
    obtain ⟨rfl, rfl⟩ := Prod.mk.inj (Option.some.inj hux)
    obtain ⟨hflt, hftib⟩ := h.running c f hc
    refine ⟨hflt, hftib, fun hf => h.ne_of_ready hf hc rfl, fun d hd => ?_⟩
    by_cases hdc : d = c
    · subst hdc
      rw [Function.update_self] at hd
      exact hft (Option.some.inj hd).symm
    · rw [Function.update_of_ne hdc] at hd
      exact hdc (h.inj d c f hd hc)
  · intro u hu
    rcases h.cover u hu with hr | ⟨d, hd⟩ | ⟨x, hx⟩
    · exact .inl hr
    · by_cases hdc : d = c
      · subst hdc
        rw [hc] at hd
        cases hd
        exact .inr (.inr ⟨_, rfl⟩)
      · exact .inr (.inl ⟨d, by rw [Function.update_of_ne hdc, hd]⟩)
    · obtain ⟨rfl, -⟩ := Prod.mk.inj (Option.some.inj hx)
      exact .inr (.inl ⟨c, Function.update_self _ _ _⟩)

/-- A processor without a thread gets the one in motion. -/
theorem enter (h : Placed tib cur list threads (some (t, ⟨THREAD_RUNNING, true⟩)))
    (hc : cur c = none) : Placed tib (Function.update cur c (some t)) list threads none := by
  refine ⟨h.running_update, h.cur_update, h.ready, h.nodup, (by simp), ?_⟩
  intro u hu
  rcases h.cover u hu with hr | ⟨d, hd⟩ | ⟨x, hx⟩
  · exact .inl hr
  · have hdc : d ≠ c := by
      rintro rfl
      rw [hc] at hd
      cases hd
    exact .inr (.inl ⟨d, by rw [Function.update_of_ne hdc, hd]⟩)
  · obtain ⟨rfl, -⟩ := Prod.mk.inj (Option.some.inj hx)
    exact .inr (.inl ⟨c, Function.update_self _ _ _⟩)

/-- A thread is created, and it is in motion. -/
theorem create (h : Placed tib cur list threads none) :
    Placed (Function.update tib threads ⟨THREAD_READY, false⟩) cur list (threads + 1)
      (some (threads, ⟨THREAD_READY, false⟩)) := by
  have hold : ∀ u, u < threads →
      Function.update tib threads ⟨THREAD_READY, false⟩ u = tib u := by
    intro u hu
    exact Function.update_of_ne (Nat.ne_of_lt hu) _ _
  refine ⟨?_, h.inj, ?_, h.nodup, ?_, ?_⟩
  · intro d u hd
    obtain ⟨hlt, htib⟩ := h.running d u hd
    exact ⟨Nat.lt_succ_of_lt hlt, by rw [hold u hlt, htib]⟩
  · intro u hu
    obtain ⟨hlt, htib⟩ := h.ready u hu
    exact ⟨Nat.lt_succ_of_lt hlt, by rw [hold u hlt, htib]⟩
  · rintro u x hux
    obtain ⟨rfl, rfl⟩ := Prod.mk.inj (Option.some.inj hux)
    refine ⟨Nat.lt_succ_self _, Function.update_self _ _ _, ?_, ?_⟩
    · exact fun hu => Nat.lt_irrefl _ (h.ready _ hu).1
    · exact fun d hd => Nat.lt_irrefl _ (h.running d _ hd).1
  · intro u hu
    rcases Nat.lt_succ_iff_lt_or_eq.mp hu with hlt | rfl
    · rcases h.cover u hlt with hr | hc | ⟨x, hx⟩
      · exact .inl hr
      · exact .inr (.inl hc)
      · cases hx
    · exact .inr (.inr ⟨_, rfl⟩)

end Placed

/-! ## The invariant -/

namespace SchedPoint

open ThreadState

/-- The points between `spin_lock` and `spin_unlock`. -/
def inside : SchedPoint → Bool
  | .thread | .yieldState _ | .yieldFlag _ | .lock _ | .watch _ | .initLock | .initWatch => false
  | _ => true

/-- The points before the processor has its first thread. -/
def booting : SchedPoint → Bool
  | .initLock | .initWatch | .create | .initState _ | .initActive _ | .initCurrent _ => true
  | _ => false

/-- The thread in motion, and what its thread block says. -/
def motion : SchedPoint → Option (Nat × Tib)
  | .pullState _ t | .enqueue _ t _ | .initState t => some (t, ⟨THREAD_READY, false⟩)
  | .pullActive _ t | .pushState _ t _ | .initActive t => some (t, ⟨THREAD_RUNNING, false⟩)
  | .current _ t | .queueFlag t _ | .pushActive _ t _ | .initCurrent t =>
      some (t, ⟨THREAD_RUNNING, true⟩)
  | _ => none

/-- The local variable that holds `proc->current_thread`. -/
def known : SchedPoint → Option Nat
  | .yieldState t | .yieldFlag t | .lock (.yield t) | .watch (.yield t) | .pop (.yield t)
  | .pullState (.yield t) _ | .pullActive (.yield t) _ | .current (.yield t) _ | .queueFlag _ t
  | .pushActive _ _ t | .pushState _ _ t | .enqueue _ _ t | .enterState t => some t
  | _ => none

end SchedPoint

namespace FineSched

open ThreadState

variable {n : Nat} {f : FineSched n} {s : Sched n} {c : Fin n} {p : SchedPoint} {t : Nat}

/-- The current threads of the processors. -/
def cur (s : Sched n) (c : Fin n) : Option Nat := (s.proc c).currentThread

@[simp] theorem cur_setState (v : ThreadState) : cur (setState t v s) = cur s := rfl

@[simp] theorem cur_setActive (v : Bool) : cur (setActive t v s) = cur s := rfl

@[simp] theorem cur_goto (q : Place) : cur (s.goto c q) = cur s := rfl

@[simp] theorem cur_setInScheduler (v : Bool) : cur (s.setInScheduler c v) = cur s := by
  funext d
  by_cases hd : d = c
  · subst hd
    simp [cur, Sched.setInScheduler]
  · simp [cur, Sched.setInScheduler, hd]

@[simp] theorem cur_setCurrentThread :
    cur (s.setCurrentThread c t) = Function.update (cur s) c (some t) := by
  funext d
  by_cases hd : d = c
  · subst hd
    simp [cur, Sched.setCurrentThread]
  · simp [cur, Sched.setCurrentThread, hd]

/-- The threads of `s` are placed, with `m` in motion. -/
abbrev PlacedIn (s : Sched n) (m : Option (Nat × Tib)) : Prop :=
  Placed s.tib (cur s) s.readyList s.threads m

/-- The invariant: the lock is held by the one processor that is inside, the local variables say
what the current thread is, and the threads are placed. -/
structure FineInv (f : FineSched n) : Prop where
  word : f.word = LOCK_FREE ∨ f.word = LOCK_BUSY
  lock : Exclusive (f.word ≠ LOCK_FREE) fun c => (f.pc c).inside = true
  boot : ∀ c, cur f.data c = none ↔ (f.pc c).booting = true
  known : ∀ c t, (f.pc c).known = some t → cur f.data c = some t
  free : (∀ c, (f.pc c).inside = false) → PlacedIn f.data none
  held : ∀ c, (f.pc c).inside = true → PlacedIn f.data (f.pc c).motion

theorem fineInv_start : FineInv (start n) where
  word := .inl rfl
  lock := by
    refine ⟨fun _ _ h => absurd h Bool.false_ne_true, ⟨fun h => absurd rfl h, ?_⟩⟩
    rintro ⟨_, h⟩
    cases h
  boot _ := ⟨fun _ => rfl, fun _ => rfl⟩
  known _ _ h := by cases h
  free _ := by
    have hi := Sched.inv_boot (n := n)
    refine ⟨hi.running, hi.inj, hi.ready, hi.nodup, by simp, fun t ht => ?_⟩
    rcases hi.cover t ht with hr | hc
    · exact .inl hr
    · exact .inr (.inl hc)
  held _ h := by cases h

theorem FineInv.placed_of_word (h : FineInv f) (hword : f.word = LOCK_FREE) :
    PlacedIn f.data none :=
  h.free fun c => Bool.eq_false_iff.mpr (h.lock.not_busy (fun hne => hne hword) c)

theorem pc_go_of_ne {d : Fin n} (hd : d ≠ c) : (f.go c p s).pc d = f.pc d :=
  Function.update_of_ne hd _ _

theorem pc_go_self : (f.go c p s).pc c = p := Function.update_self _ _ _

/-- What is common to all steps of processor `c`: the others stay where they are. -/
theorem FineInv.step {w : UInt32} (h : FineInv f) (hw : w = LOCK_FREE ∨ w = LOCK_BUSY)
    (hlock : Exclusive (w ≠ LOCK_FREE) fun d => ((f.go c p s).pc d).inside = true)
    (hother : ∀ d, d ≠ c → cur s d = cur f.data d)
    (hboot : cur s c = none ↔ p.booting = true) (hknown : ∀ t, p.known = some t → cur s c = some t)
    (hfree : (∀ d, ((f.go c p s).pc d).inside = false) → PlacedIn s none)
    (hheld : ∀ d, ((f.go c p s).pc d).inside = true → PlacedIn s ((f.go c p s).pc d).motion) :
    FineInv { f.go c p s with word := w } where
  word := hw
  lock := hlock
  boot := by
    intro d
    show cur s d = none ↔ ((f.go c p s).pc d).booting = true
    by_cases hd : d = c
    · rw [hd, pc_go_self]
      exact hboot
    · rw [pc_go_of_ne hd, hother d hd]
      exact h.boot d
  known := by
    intro d t ht
    by_cases hd : d = c
    · subst hd
      simp only [pc_go_self] at ht
      exact hknown t ht
    · simp only [pc_go_of_ne hd] at ht
      exact (hother d hd).trans (h.known d t ht)
  free := hfree
  held := hheld

/-- A step of the processor that has the lock. -/
theorem FineInv.inner (h : FineInv f) (hin : (f.pc c).inside = true) (hp : p.inside = true)
    (hplaced : PlacedIn s p.motion) (hother : ∀ d, d ≠ c → cur s d = cur f.data d)
    (hboot : cur s c = none ↔ p.booting = true)
    (hknown : ∀ t, p.known = some t → cur s c = some t) : FineInv (f.go c p s) := by
  have hlock : Exclusive (f.word ≠ LOCK_FREE) fun d => ((f.go c p s).pc d).inside = true := by
    refine h.lock.keep (c := c) Iff.rfl (fun d hd => by rw [pc_go_of_ne hd]) ?_
    rw [pc_go_self]
    exact iff_of_true hp hin
  refine h.step h.word hlock hother hboot hknown ?_ ?_
  · intro hall
    have := hall c
    rw [pc_go_self, hp] at this
    cases this
  · intro d hd
    have hself : ((f.go c p s).pc c).inside = true := by rw [pc_go_self, hp]
    rw [hlock.one d c hd hself, pc_go_self]
    exact hplaced

/-- A step of a processor outside the lock: it changes nothing but its own place and flag. -/
theorem FineInv.outer (h : FineInv f) (hout : (f.pc c).inside = false)
    (hp : p.inside = false) (htib : s.tib = f.data.tib)
    (hcur : cur s = cur f.data) (hlist : s.readyList = f.data.readyList)
    (hthreads : s.threads = f.data.threads) (hboot : p.booting = (f.pc c).booting)
    (hknown : ∀ t, p.known = some t → cur f.data c = some t) : FineInv (f.go c p s) := by
  have hinside : ∀ d, ((f.go c p s).pc d).inside = (f.pc d).inside := by
    intro d
    by_cases hd : d = c
    · subst hd
      rw [pc_go_self, hp, hout]
    · rw [pc_go_of_ne hd]
  have hplaced : ∀ m, PlacedIn f.data m → PlacedIn s m := by
    intro m hm
    unfold PlacedIn
    rw [htib, hcur, hlist, hthreads]
    exact hm
  refine h.step h.word ?_ (fun d _ => by rw [hcur]) (by rw [hcur, hboot]; exact h.boot c)
    (fun t ht => by rw [hcur]; exact hknown t ht) ?_ ?_
  · exact h.lock.keep (c := c) Iff.rfl (fun d _ => by rw [hinside]) (by rw [hinside])
  · intro hall
    exact hplaced _ (h.free fun d => (hinside d).symm.trans (hall d))
  · intro d hd
    rw [hinside] at hd
    have hdc : d ≠ c := by
      rintro rfl
      rw [hout] at hd
      cases hd
    rw [pc_go_of_ne hdc]
    exact hplaced _ (h.held d hd)

/-- The exchange of `spin_lock`. -/
theorem FineInv.spinExchange {q : SchedPoint} (h : FineInv f) (hout : (f.pc c).inside = false)
    (hp : p.inside = true) (hq : q.inside = false) (hmotion : p.motion = none)
    (hboot : p.booting = (f.pc c).booting ∧ q.booting = (f.pc c).booting)
    (hknown : p.known = (f.pc c).known ∧ q.known = (f.pc c).known) :
    FineInv (f.spinExchange c p q) := by
  have hbusy : LOCK_BUSY ≠ LOCK_FREE := by decide
  unfold FineSched.spinExchange
  by_cases hword : f.word = LOCK_FREE
  · rw [if_pos hword]
    have hfree := h.placed_of_word hword
    have hlock : Exclusive (LOCK_BUSY ≠ LOCK_FREE) fun d =>
        ((f.go c p f.data).pc d).inside = true := by
      refine h.lock.acquire (c := c) (fun hne => hne hword) hbusy
        (fun d hd => by rw [pc_go_of_ne hd]) ?_
      rw [pc_go_self, hp]
    refine h.step (.inr rfl) hlock (fun _ _ => rfl) (by rw [hboot.1]; exact h.boot c)
      (fun t ht => h.known c t (hknown.1 ▸ ht)) (fun _ => hfree) ?_
    intro d hd
    have hself : ((f.go c p f.data).pc c).inside = true := by rw [pc_go_self, hp]
    rw [hlock.one d c hd hself, pc_go_self, hmotion]
    exact hfree
  · rw [if_neg hword, ← h.word.resolve_left hword]
    exact h.outer hout hq rfl rfl rfl rfl hboot.2 fun t ht => h.known c t (hknown.2 ▸ ht)

theorem FineInv.spinWatch (h : FineInv f) (hout : (f.pc c).inside = false)
    (hp : p.inside = false) (hboot : p.booting = (f.pc c).booting)
    (hknown : p.known = (f.pc c).known) : FineInv (f.spinWatch c p) := by
  unfold FineSched.spinWatch
  split
  · exact h
  · exact h.outer hout hp rfl rfl rfl rfl hboot fun t ht => h.known c t (hknown ▸ ht)

theorem FineInv.unlock (h : FineInv f) (hpc : f.pc c = .unlock) :
    FineInv { f.go c .thread (f.data.goto c .thread) with word := LOCK_FREE } := by
  have hin : (f.pc c).inside = true := by rw [hpc]; rfl
  have hplaced := h.held c hin
  rw [hpc] at hplaced
  have hnone : ∀ d, ((f.go c .thread (f.data.goto c .thread)).pc d).inside = false := by
    intro d
    by_cases hd : d = c
    · subst hd
      rw [pc_go_self]
      rfl
    · rw [pc_go_of_ne hd, Bool.eq_false_iff]
      exact fun hin' => hd (h.lock.one d c hin' hin)
  refine h.step (.inl rfl) ?_ (fun _ _ => rfl) ?_ (fun t ht => by cases ht) (fun _ => hplaced) ?_
  · exact h.lock.release (c := c) hin (by simp) (fun d hd => by rw [pc_go_of_ne hd])
      (by rw [hnone c]; decide)
  · have hboot := h.boot c
    rw [hpc] at hboot
    exact hboot
  · intro d hd
    rw [hnone d] at hd
    cases hd

/-- A store to the thread block of the thread in motion. -/
theorem FineInv.store {v : Tib} (h : FineInv f) (hin : (f.pc c).inside = true)
    (hp : p.inside = true) (hmotion : (f.pc c).motion = some (t, v)) {w : Tib}
    (hmotion' : p.motion = some (t, w))
    (hs : s = { f.data with tib := Function.update f.data.tib t w })
    (hboot : p.booting = (f.pc c).booting) (hknown : p.known = (f.pc c).known) :
    FineInv (f.go c p s) := by
  subst hs
  have hplaced := h.held c hin
  rw [hmotion] at hplaced
  refine h.inner hin hp ?_ (fun _ _ => rfl) (by rw [hboot]; exact h.boot c)
    fun u hu => h.known c u (hknown ▸ hu)
  rw [hmotion']
  exact hplaced.retag w

/-- A store that finds the value it stores. -/
theorem setState_eq_self {v : ThreadState} {b : Bool} (h : s.tib t = ⟨v, b⟩) :
    setState t v s = s := by
  unfold setState
  have htib : { s.tib t with state := v } = s.tib t := by rw [h]
  rw [htib, Function.update_eq_self]

theorem FineInv.exists_placed (h : FineInv f) : ∃ m, PlacedIn f.data m := by
  by_cases hin : ∃ d, (f.pc d).inside = true
  · obtain ⟨d, hd⟩ := hin
    exact ⟨_, h.held d hd⟩
  · refine ⟨none, h.free fun d => ?_⟩
    rw [Bool.eq_false_iff]
    exact fun hd => hin ⟨d, hd⟩

theorem FineInv.running (h : FineInv f) (hc : cur f.data c = some t) :
    f.data.tib t = ⟨THREAD_RUNNING, true⟩ := by
  obtain ⟨m, hm⟩ := h.exists_placed
  exact (hm.running c t hc).2

/-- The accesses before the lock is taken, and the one that releases it. -/
theorem FineInv.next_outside (h : FineInv f) (hout : (f.pc c).inside = false) :
    ∃ f', f.next c = .ok f' ∧ FineInv f' := by
  have hknown := h.known c
  unfold FineSched.next
  cases hpc : f.pc c with
  | thread => exact ⟨f, rfl, h⟩
  | yieldState t =>
      rw [hpc] at hknown
      -- the assertion of `scheduler_yield` assigns, but a current thread is running
      have hsame := setState_eq_self (h.running (hknown t rfl))
      refine ⟨_, rfl, h.outer (s := setState t THREAD_RUNNING f.data) hout rfl ?_ rfl rfl rfl
        (by rw [hpc]; rfl) hknown⟩
      rw [hsame]
  | yieldFlag t =>
      rw [hpc] at hknown
      refine ⟨_, rfl, h.outer (s := (f.data.setInScheduler c true).goto c (.yield t)) hout rfl
        rfl ?_ rfl rfl (by rw [hpc]; rfl) hknown⟩
      simp
  | lock k =>
      refine ⟨_, rfl, h.spinExchange hout rfl rfl rfl ?_ ?_⟩
      · rw [hpc]
        exact ⟨rfl, rfl⟩
      · rw [hpc]
        cases k <;> exact ⟨rfl, rfl⟩
  | watch k =>
      refine ⟨_, rfl, h.spinWatch hout rfl (by rw [hpc]; rfl) ?_⟩
      rw [hpc]
      cases k <;> rfl
  | initLock =>
      refine ⟨_, rfl, h.spinExchange hout rfl rfl rfl ?_ ?_⟩
      · rw [hpc]
        exact ⟨rfl, rfl⟩
      · rw [hpc]
        exact ⟨rfl, rfl⟩
  | initWatch => exact ⟨_, rfl, h.spinWatch hout rfl (by rw [hpc]; rfl) (by rw [hpc]; rfl)⟩
  | _ => simp [hpc, SchedPoint.inside] at hout

/-- The accesses of the processor that has the lock. -/
theorem FineInv.next_inside (h : FineInv f) (hin : (f.pc c).inside = true) :
    ∃ f', f.next c = .ok f' ∧ FineInv f' := by
  have hheld := h.held c hin
  have hknown := h.known c
  have hboot := h.boot c
  unfold FineSched.next
  cases hpc : f.pc c with
  | thread | yieldState t | yieldFlag t | lock k | watch k | initLock | initWatch =>
      rw [hpc] at hin
      cases hin
  | pop k =>
      rw [hpc] at hheld hknown hboot
      dsimp only
      split
      next hl =>
        refine ⟨_, rfl, h.inner hin rfl hheld (fun _ _ => rfl) hboot ?_⟩
        intro t ht
        cases ht
      next t rest hl =>
        unfold PlacedIn at hheld
        rw [hl] at hheld
        refine ⟨_, rfl, h.inner hin rfl hheld.pop (fun _ _ => rfl) hboot ?_⟩
        cases k <;> exact hknown
  | pullState k t =>
      have htib := (hheld.moving t ⟨THREAD_READY, false⟩ (by rw [hpc]; rfl)).2.1
      dsimp only
      rw [htib, if_neg (by simp), if_neg (by simp)]
      refine ⟨_, rfl, h.store hin rfl (by rw [hpc]; rfl) rfl ?_ (by rw [hpc]; rfl) ?_⟩
      · rw [setState, htib]
      · rw [hpc]
        cases k <;> rfl
  | pullActive k t =>
      have htib := (hheld.moving t ⟨THREAD_RUNNING, false⟩ (by rw [hpc]; rfl)).2.1
      refine ⟨_, rfl, h.store hin rfl (by rw [hpc]; rfl) rfl ?_ (by rw [hpc]; rfl) ?_⟩
      · rw [setActive, htib]
      · rw [hpc]
        cases k <;> rfl
  | current k t =>
      rw [hpc] at hheld hknown hboot
      have hother : ∀ d, d ≠ c → cur (f.data.setCurrentThread c t) d = cur f.data d := by
        intro d hd
        rw [cur_setCurrentThread, Function.update_of_ne hd]
      have hself : cur (f.data.setCurrentThread c t) c = some t := by
        rw [cur_setCurrentThread, Function.update_self]
      have hswitch : ∀ y, cur f.data c = some y →
          PlacedIn (f.data.setCurrentThread c t) (some (y, ⟨THREAD_RUNNING, true⟩)) := by
        intro y hy
        unfold PlacedIn
        rw [cur_setCurrentThread]
        exact hheld.switch hy
      cases k with
      | yield y =>
          have hy : cur f.data c = some y := hknown y rfl
          have hne : t ≠ y := by
            rintro rfl
            exact (hheld.moving t _ rfl).2.2.2 c hy
          dsimp only
          rw [if_neg hne]
          refine ⟨_, rfl, h.inner hin rfl (hswitch y hy) hother ?_ ?_⟩
          · exact iff_of_false (by simp [hself]) Bool.false_ne_true
          · rintro u ⟨rfl⟩
            exact hself
      | async =>
          dsimp only
          split
          next hnone => exact absurd (hboot.mp hnone) Bool.false_ne_true
          next y hy =>
            refine ⟨_, rfl, h.inner hin rfl (hswitch y hy) hother ?_ ?_⟩
            · exact iff_of_false (by simp [hself]) Bool.false_ne_true
            · rintro u ⟨rfl⟩
              exact hself
  | queueFlag y t =>
      rw [hpc] at hheld hknown hboot
      refine ⟨_, rfl, h.inner hin rfl ?_ ?_ ?_ ?_⟩
      · unfold PlacedIn
        rw [cur_setInScheduler]
        exact hheld
      · intro d _
        rw [cur_setInScheduler]
      · rw [cur_setInScheduler]
        exact hboot
      · rw [cur_setInScheduler]
        exact hknown
  | pushActive k y t =>
      have htib := (hheld.moving y ⟨THREAD_RUNNING, true⟩ (by rw [hpc]; rfl)).2.1
      have hstore : ∀ k', FineInv (f.go c (.pushState k' y t) (setActive y false f.data)) := by
        intro k'
        refine h.store (w := ⟨THREAD_RUNNING, false⟩) hin rfl (by rw [hpc]; rfl) rfl ?_
          (by rw [hpc]; rfl) (by rw [hpc]; rfl)
        rw [setActive, htib]
      cases k with
      | yield y' =>
          dsimp only
          rw [htib, if_neg (by simp), if_neg (by simp)]
          exact ⟨_, rfl, hstore _⟩
      | async => exact ⟨_, rfl, hstore _⟩
  | pushState k y t =>
      have htib := (hheld.moving y ⟨THREAD_RUNNING, false⟩ (by rw [hpc]; rfl)).2.1
      refine ⟨_, rfl, h.store (w := ⟨THREAD_READY, false⟩) hin rfl (by rw [hpc]; rfl) rfl ?_
        (by rw [hpc]; rfl) (by rw [hpc]; rfl)⟩
      rw [setState, htib]
  | enqueue k y t =>
      rw [hpc] at hheld hknown hboot
      cases k with
      | yield y' =>
          exact ⟨_, rfl,
            h.inner hin rfl hheld.enqueue (fun _ _ => rfl) hboot fun u hu => by cases hu⟩
      | async =>
          have hne : y ≠ t := by
            rintro rfl
            exact (hheld.moving y _ rfl).2.2.2 c (hknown y rfl)
          dsimp only
          rw [if_neg hne]
          exact ⟨_, rfl,
            h.inner hin rfl hheld.enqueue (fun _ _ => rfl) hboot fun u hu => by cases hu⟩
  | create =>
      rw [hpc] at hheld hboot
      exact ⟨_, rfl, h.inner hin rfl hheld.create (fun _ _ => rfl) hboot fun u hu => by cases hu⟩
  | initState t =>
      have htib := (hheld.moving t ⟨THREAD_READY, false⟩ (by rw [hpc]; rfl)).2.1
      refine ⟨_, rfl, h.store (w := ⟨THREAD_RUNNING, false⟩) hin rfl (by rw [hpc]; rfl) rfl ?_
        (by rw [hpc]; rfl) (by rw [hpc]; rfl)⟩
      rw [setState, htib]
  | initActive t =>
      have htib := (hheld.moving t ⟨THREAD_RUNNING, false⟩ (by rw [hpc]; rfl)).2.1
      refine ⟨_, rfl, h.store (w := ⟨THREAD_RUNNING, true⟩) hin rfl (by rw [hpc]; rfl) rfl ?_
        (by rw [hpc]; rfl) (by rw [hpc]; rfl)⟩
      rw [setActive, htib]
  | initCurrent t =>
      rw [hpc] at hheld hboot
      have hself : cur (f.data.setCurrentThread c t) c = some t := by
        rw [cur_setCurrentThread, Function.update_self]
      refine ⟨_, rfl, h.inner hin rfl ?_ ?_ ?_ ?_⟩
      · unfold PlacedIn
        rw [cur_setCurrentThread]
        exact hheld.enter (hboot.mpr rfl)
      · intro d hd
        rw [cur_setCurrentThread, Function.update_of_ne hd]
      · exact iff_of_false (by simp [hself]) Bool.false_ne_true
      · rintro u ⟨rfl⟩
        exact hself
  | enterState t =>
      rw [hpc] at hheld hknown hboot
      dsimp only
      rw [setState_eq_self (h.running (hknown t rfl))]
      exact ⟨_, rfl, h.inner hin rfl hheld (fun _ _ => rfl) hboot fun u hu => by cases hu⟩
  | leaveFlag =>
      rw [hpc] at hheld hboot
      refine ⟨_, rfl, h.inner hin rfl ?_ ?_ ?_ fun u hu => by cases hu⟩
      · unfold PlacedIn
        rw [cur_setInScheduler]
        exact hheld
      · intro d _
        rw [cur_setInScheduler]
      · rw [cur_setInScheduler]
        exact hboot
  | unlock => exact ⟨_, rfl, h.unlock hpc⟩

/-- **Every step keeps the invariant, and none of its assertions fails.** -/
theorem FineInv.exec {e : Fin n × Event} (h : FineInv f) (he : Enabled e f) :
    ∃ f', f.exec e = .ok f' ∧ FineInv f' := by
  obtain ⟨c, e⟩ := e
  cases e with
  | next =>
      cases hin : (f.pc c).inside with
      | false => exact h.next_outside hin
      | true => exact h.next_inside hin
  | yield =>
      have hpc : f.pc c = .thread := he
      cases hcur : (f.data.proc c).currentThread with
      | none =>
          have hboot := (h.boot c).mp hcur
          rw [hpc] at hboot
          cases hboot
      | some t =>
          refine ⟨f.go c (.yieldState t) f.data, ?_, ?_⟩
          · simp only [FineSched.exec, yieldCall, hcur]
          · refine h.outer (by rw [hpc]; rfl) rfl rfl rfl rfl rfl (by rw [hpc]; rfl) ?_
            rintro u ⟨rfl⟩
            exact hcur
  | tick =>
      have hpc : f.pc c = .thread := he
      refine ⟨_, rfl, ?_⟩
      unfold tick
      split
      · exact h
      · exact h.outer (by rw [hpc]; rfl) rfl rfl rfl rfl rfl (by rw [hpc]; rfl)
          fun u hu => by cases hu

theorem fineInv_reachable (hr : Reachable f) : FineInv f := by
  refine hr.invariant (I := FineInv) ?_ ?_
  · rintro f rfl
    exact fineInv_start
  · rintro e f f' h ⟨he, hexec⟩
    obtain ⟨f1, hok, h1⟩ := h.exec he
    rw [hok] at hexec
    cases hexec
    exact h1

/-- Where thread `t` is at a moment between two accesses: it is the current thread of exactly one
processor, running and active; or it is once on `ready_list`, ready and not active; or the processor
that has the lock moves it from the one to the other. It is only one of them. -/
def Conserved (f : FineSched n) (t : Nat) : Prop :=
  let moved := ∃ c v, (f.pc c).inside = true ∧ (f.pc c).motion = some (t, v)
  ((∃! c, cur f.data c = some t) ∧ f.data.tib t = ⟨THREAD_RUNNING, true⟩ ∧
    f.data.readyList.count t = 0 ∧ ¬ moved) ∨
  ((∀ c, cur f.data c ≠ some t) ∧ f.data.tib t = ⟨THREAD_READY, false⟩ ∧
    f.data.readyList.count t = 1 ∧ ¬ moved) ∨
  ((∀ c, cur f.data c ≠ some t) ∧ f.data.readyList.count t = 0 ∧ moved)

theorem FineInv.conserved (h : FineInv f) (ht : t < f.data.threads) : Conserved f t := by
  have hplaced : ∃ m, PlacedIn f.data m ∧
      ∀ v, m = some (t, v) ↔ ∃ c, (f.pc c).inside = true ∧ (f.pc c).motion = some (t, v) := by
    by_cases hin : ∃ d, (f.pc d).inside = true
    · obtain ⟨d, hd⟩ := hin
      refine ⟨_, h.held d hd, fun v => ⟨fun hv => ⟨d, hd, hv⟩, ?_⟩⟩
      rintro ⟨c, hc, hv⟩
      rwa [h.lock.one d c hd hc]
    · refine ⟨none, h.free fun d => ?_, fun v => ⟨fun hv => absurd hv (by simp), ?_⟩⟩
      · rw [Bool.eq_false_iff]
        exact fun hd => hin ⟨d, hd⟩
      · rintro ⟨c, hc, -⟩
        exact absurd ⟨c, hc⟩ hin
  obtain ⟨m, hm, hmoved⟩ := hplaced
  have hnot : ∀ {P : Prop}, (∀ v, m = some (t, v) → P) →
      (∃ c v, (f.pc c).inside = true ∧ (f.pc c).motion = some (t, v)) → P := by
    rintro P hP ⟨c, v, hc, hv⟩
    exact hP v ((hmoved v).mpr ⟨c, hc, hv⟩)
  rcases hm.cover t ht with hr | ⟨c, hc⟩ | ⟨v, hv⟩
  · refine .inr (.inl ⟨fun c hc => hm.ne_of_ready hr hc rfl, (hm.ready t hr).2,
      List.count_eq_one_of_mem hm.nodup hr, hnot fun v hv => ?_⟩)
    exact (hm.moving t v hv).2.2.1 hr
  · refine .inl ⟨⟨c, hc, fun d hd => hm.inj d c t hd hc⟩, (hm.running c t hc).2, ?_,
      hnot fun v hv => ?_⟩
    · exact List.count_eq_zero_of_not_mem fun hr => hm.ne_of_ready hr hc rfl
    · exact (hm.moving t v hv).2.2.2 c hc
  · obtain ⟨-, -, hlist, hcur⟩ := hm.moving t v hv
    obtain ⟨c, hc, hcv⟩ := (hmoved v).mp hv
    exact .inr (.inr ⟨hcur, List.count_eq_zero_of_not_mem hlist, c, v, hc, hcv⟩)

/-- **Conservation at every access.** However the accesses of the processors to the scheduler's data
interleave: at most one processor is in a critical section, every thread that was created has
exactly one place, and no assertion fails at the next access of any processor. -/
theorem threads_conserved_always (hr : Reachable f) :
    (∀ c d, (f.pc c).inside = true → (f.pc d).inside = true → c = d) ∧
      (∀ t, t < f.data.threads → Conserved f t) ∧
      ∀ e, Enabled e f → ∃ f', f.exec e = .ok f' := by
  have h := fineInv_reachable hr
  refine ⟨h.lock.one, fun t ht => h.conserved ht, fun e he => ?_⟩
  obtain ⟨f', hok, -⟩ := h.exec he
  exact ⟨f', hok⟩

/-- Two processors have entered their idle threads 1 and 2. On the first one a timer interrupt has
given the processor the test thread 0, and its idle thread is on the way to `ready_list`, while the
second one spins in `scheduler_yield`. -/
theorem reachable_switching :
    ∃ f : FineSched 2, Reachable f ∧ f.pc 0 = .enqueue .async 1 0 ∧ f.pc 1 = .watch (.yield 2) ∧
      f.data.readyList = [] ∧ f.data.threads = 3 := by
  let step := fun (e : Fin 2 × Event) (f : FineSched 2) =>
    if e.2 = .next ∨ f.pc e.1 = .thread then (f.exec e).toOption else none
  have hstep : ∀ e f f', step e f = some f' → Step e f f' := by
    intro e f f' h
    obtain ⟨hen, hexec⟩ := Option.ite_none_right_eq_some.mp h
    refine ⟨?_, eq_ok_of_toOption hexec⟩
    obtain ⟨c, e⟩ := e
    cases e with
    | next => trivial
    | yield => exact hen.resolve_left (by simp)
    | tick => exact hen.resolve_left (by simp)
  have hrun : ∃ f, runList step (List.replicate 8 (0, .next) ++ List.replicate 8 (1, .next) ++
      [(0, .tick), (0, .next), (1, .yield), (0, .next), (1, .next), (0, .next), (1, .next),
        (0, .next), (1, .next), (0, .next), (0, .next), (0, .next)]) (start 2) = some f ∧
      f.pc 0 = .enqueue .async 1 0 ∧ f.pc 1 = .watch (.yield 2) ∧ f.data.readyList = [] ∧
      f.data.threads = 3 := ⟨_, rfl, by decide, by decide, by decide, by decide⟩
  obtain ⟨f, hrun, hf⟩ := hrun
  exact ⟨f, reach_runList hstep (.start rfl) hrun, hf⟩

theorem threads_conserved_always_two :
    ∃ f : FineSched 2, Reachable f ∧ f.pc 0 = .enqueue .async 1 0 ∧ f.pc 1 = .watch (.yield 2) ∧
      ∀ t, t < 3 → Conserved f t := by
  obtain ⟨f, hr, h0, h1, -, hthreads⟩ := reachable_switching
  refine ⟨f, hr, h0, h1, fun t ht => (threads_conserved_always hr).2.1 t ?_⟩
  rw [hthreads]
  exact ht

end FineSched

end NowOS

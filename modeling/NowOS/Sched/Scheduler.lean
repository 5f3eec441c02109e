import Mathlib.Tactic
import NowOS.Kdef
import NowOS.Lib.Runs

set_option autoImplicit false

/-! # The scheduler (`kernel/scheduler.c`)

Threads move between the processors and `ready_list` in `scheduler_yield` and in the timer
handler `scheduler_async_enter`. Everything they do to shared data they do while they hold
`sched_lock`, so a critical section is one step; what comes before `spin_lock` is a step of its
own. `ready_list` is a first-in first-out queue. Threads are numbered in the order in which they
are created, `0` is the test thread that the boot processor makes. -/

namespace NowOS

/-- `thread_state_t`. -/
inductive ThreadState
  | THREAD_READY
  | THREAD_RUNNING
  | THREAD_SLEEPING
  | THREAD_PAUSED
  | THREAD_IDLE
  deriving DecidableEq, Repr

/-- The fields of `tib_t` that the scheduler uses to keep track of a thread. -/
structure Tib where
  state : ThreadState
  isActive : Bool
  deriving DecidableEq, Repr

/-- The fields of `processor_t` that the scheduler uses; `none` is `NULL`. -/
structure Processor where
  currentThread : Option Nat
  inScheduler : Bool
  deriving DecidableEq, Repr

/-- Where a processor is: before its critical section of `scheduler_init`, in the code of a thread,
in `scheduler_yield` at `spin_lock` with its local variable `from_thread`, or in
`scheduler_async_enter` at `spin_lock`. -/
inductive Place
  | boot
  | thread
  | yield (fromThread : Nat)
  | interrupt
  deriving DecidableEq, Repr

/-- The scheduler's data with `n` processors; `threads` is the number of threads created. -/
structure Sched (n : Nat) where
  tib : Nat → Tib
  proc : Fin n → Processor
  readyList : List Nat
  threads : Nat
  place : Fin n → Place

namespace Sched

open ThreadState

variable {n : Nat}

/-! ## The functions of the source

A failed `ASSERT` is an error with the text of its condition. -/

/-- `pull_next_runnable_thread`. -/
def pullNextRunnableThread (s : Sched n) : Except String (Option Nat × Sched n) :=
  match s.readyList with
  | [] => .ok (none, s)
  | thread :: rest =>
      if (s.tib thread).state ≠ THREAD_READY then .error "thread->state == THREAD_READY"
      else if (s.tib thread).isActive then .error "!thread->is_active"
      else .ok (some thread,
        { s with readyList := rest, tib := Function.update s.tib thread ⟨THREAD_RUNNING, true⟩ })

/-- `scheduler_push_ready_thread`. -/
def schedulerPushReadyThread (thread : Nat) (s : Sched n) : Sched n :=
  { s with
    tib := Function.update s.tib thread ⟨THREAD_READY, false⟩
    readyList := s.readyList ++ [thread] }

/-- `proc->in_scheduler = v`. -/
def setInScheduler (c : Fin n) (v : Bool) (s : Sched n) : Sched n :=
  { s with proc := Function.update s.proc c { s.proc c with inScheduler := v } }

/-- `proc->current_thread = thread`. -/
def setCurrentThread (c : Fin n) (thread : Nat) (s : Sched n) : Sched n :=
  { s with proc := Function.update s.proc c { s.proc c with currentThread := some thread } }

/-- Processor `c` goes on at `p`. -/
def goto (c : Fin n) (p : Place) (s : Sched n) : Sched n :=
  { s with place := Function.update s.place c p }

/-- `scheduler_leave` and `scheduler_async_leave`, which differ in `enable_int` only. -/
def schedulerLeave (c : Fin n) (s : Sched n) : Sched n := (s.setInScheduler c false).goto c .thread

/-- `scheduler_leave_and_queue`, at the end of which `thread_switch_sync` changes to the stack of
the other thread. -/
def schedulerLeaveAndQueue (c : Fin n) (fromThread : Nat) (s : Sched n) :
    Except String (Sched n) :=
  let s := s.setInScheduler c false
  if ¬ (s.tib fromThread).isActive then .error "from_thread->is_active"
  else if (s.tib fromThread).state ≠ THREAD_RUNNING then
    .error "from_thread->state == THREAD_RUNNING"
  else .ok ((s.schedulerPushReadyThread fromThread).goto c .thread)

/-- `scheduler_yield` up to `spin_lock`. Interrupts are off from here on. Its assertion
`from_thread->state = THREAD_RUNNING` is an assignment. -/
def schedulerYieldEnter (c : Fin n) (s : Sched n) : Except String (Sched n) :=
  match (s.proc c).currentThread with
  | none => .error "from_thread is NULL"
  | some fromThread =>
      let tib := Function.update s.tib fromThread
        { s.tib fromThread with state := THREAD_RUNNING }
      .ok ((setInScheduler c true { s with tib := tib }).goto c (.yield fromThread))

/-- The critical section of `scheduler_yield`, which ends in `scheduler_leave` or in
`scheduler_leave_and_queue`. -/
def schedulerYield (c : Fin n) (fromThread : Nat) (s : Sched n) : Except String (Sched n) :=
  match s.pullNextRunnableThread with
  | .error e => .error e
  | .ok (none, s) => .ok (s.schedulerLeave c)
  | .ok (some toThread, s) =>
      let s := s.setCurrentThread c toThread
      if toThread = fromThread then .error "to_thread != from_thread"
      else s.schedulerLeaveAndQueue c fromThread

/-- `scheduler_async_enter` up to `spin_lock`. -/
def schedulerAsyncEnter (c : Fin n) (s : Sched n) : Except String (Sched n) :=
  if (s.proc c).inScheduler then .ok s else .ok (s.goto c .interrupt)

/-- The critical section of `scheduler_async_enter`, which ends in `scheduler_async_leave`. -/
def schedulerAsync (c : Fin n) (s : Sched n) : Except String (Sched n) :=
  match s.pullNextRunnableThread with
  | .error e => .error e
  | .ok (none, s) => .ok (s.schedulerLeave c)
  | .ok (some toThread, s) =>
      match (s.proc c).currentThread with
      | none => .error "from_thread is NULL"
      | some fromThread =>
          let s := (s.setCurrentThread c toThread).schedulerPushReadyThread fromThread
          if fromThread = toThread then .error "from_thread != to_thread"
          else .ok (s.schedulerLeave c)

/-- The critical section of `scheduler_init`, which ends with the `scheduler_leave` of
`thread_enter`: the processor creates its idle thread and enters it. -/
def schedulerInit (c : Fin n) (s : Sched n) : Except String (Sched n) :=
  let idleThread := s.threads
  let s := { s with
    threads := idleThread + 1
    tib := Function.update s.tib idleThread ⟨THREAD_RUNNING, true⟩ }
  .ok ((s.setCurrentThread c idleThread).schedulerLeave c)

/-! ## Steps -/

/-- The steps of a processor. -/
inductive Action
  | init
  | yieldEnter
  | yieldSection
  | asyncEnter
  | asyncSection
  deriving DecidableEq, Repr

/-- When processor `c` can make a step. Interrupts are off in `scheduler_yield` and in the handler,
and the timer is off before the critical section of `scheduler_init`. -/
def Enabled (a : Action) (c : Fin n) (s : Sched n) : Prop :=
  match a with
  | .init => s.place c = .boot
  | .yieldEnter => s.place c = .thread
  | .yieldSection => ∃ fromThread, s.place c = .yield fromThread
  | .asyncEnter => s.place c = .thread
  | .asyncSection => s.place c = .interrupt

/-- A step of processor `c`. -/
def exec (a : Action) (c : Fin n) (s : Sched n) : Except String (Sched n) :=
  match a with
  | .init => s.schedulerInit c
  | .yieldEnter => s.schedulerYieldEnter c
  | .yieldSection =>
      match s.place c with
      | .yield fromThread => s.schedulerYield c fromThread
      | _ => .ok s
  | .asyncEnter => s.schedulerAsyncEnter c
  | .asyncSection => s.schedulerAsync c

/-- The step relation: any processor may make the next step. -/
def Step (a : Action × Fin n) (s s' : Sched n) : Prop :=
  Enabled a.1 a.2 s ∧ s.exec a.1 a.2 = .ok s'

/-- The state in which the boot processor sets `scheduler_ready`: the test thread is on
`ready_list`, and no processor has entered a thread. -/
def boot (n : Nat) : Sched n :=
  schedulerPushReadyThread 0
    ⟨fun _ => ⟨THREAD_READY, false⟩, fun _ => ⟨none, false⟩, [], 1, fun _ => .boot⟩

/-- The states that the scheduler reaches. -/
abbrev Reachable (s : Sched n) : Prop := Reach (fun s => s = boot n) Step s

end Sched

end NowOS

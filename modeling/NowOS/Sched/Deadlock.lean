import Mathlib.Tactic
import NowOS.Lib.Runs

set_option autoImplicit false

/-! # Timer interrupts and `sched_lock` (`kernel/scheduler.c`, `kernel/thread.c`)

`sched_lock` is taken by thread code, in `scheduler_yield`, and by the timer interrupt, in
`scheduler_async_enter`. A processor that takes an interrupt while it holds the lock spins on it
forever, so the interrupt has to be kept away: by `cli`, by the mask bit of the timer, or by
`in_scheduler`. Here every processor has these three and goes through the functions of the source
one access at a time; a timer interrupt comes in at any point where interrupts are enabled and the
timer is not masked. -/

namespace NowOS

/-- Where a processor is: the action that it makes next. `dst` and `ret` are the points at which
another thread or the interrupted code goes on. -/
inductive Point
  -- `scheduler_init` and `thread_enter`
  | init
  | waitReady
  | setupTimer
  | initLock
  | createIdle
  | timerStart
  -- `scheduler_leave`
  | leaveFlag
  | leaveUnlock
  | leaveEnable
  -- the code of a thread
  | thread
  -- `scheduler_yield` after `disable_int`
  | yieldFlag
  | yieldLock
  | yieldPull
  -- `thread_switch_sync` with `scheduler_leave_and_queue`
  | switchCli (dst : Point)
  | queueFlag (dst : Point)
  | queuePush (dst : Point)
  | queueUnlock (dst : Point)
  | switchSti (dst : Point)
  -- `scheduler_async_enter` with `thread_switch_async` and `scheduler_async_leave`
  | asyncEnter (ret : Point)
  | asyncLock (ret : Point)
  | asyncPull (ret : Point)
  | asyncPush (ret dst : Point)
  | asyncFlag (dst : Point)
  | asyncUnlock (dst : Point)
  | iret (dst : Point)
  deriving DecidableEq, Repr

/-- A processor: its interrupt flag, the mask bit of its timer, `proc->in_scheduler` and where it
is. -/
structure Core where
  intEnabled : Bool
  masked : Bool
  inScheduler : Bool
  pc : Point
  deriving DecidableEq, Repr

/-- The processors with the holder of `sched_lock`, the points at which the threads of `ready_list`
go on, and `scheduler_ready`. -/
structure Cores (n : Nat) where
  core : Fin n → Core
  lock : Option (Fin n)
  readyList : List Point
  schedulerReady : Bool

namespace Cores

variable {n : Nat}

/-! ## Steps -/

/-- Processor `c` gets the state `x`. -/
def put (c : Fin n) (x : Core) (s : Cores n) : Cores n :=
  { s with core := Function.update s.core c x }

/-- Processor `c` goes on at `p`. -/
def goto (c : Fin n) (p : Point) (s : Cores n) : Cores n := s.put c { s.core c with pc := p }

/-- `spin_lock(&sched_lock)`: it goes on at `p` with the lock, or it keeps spinning. -/
def spinLock (c : Fin n) (p : Point) (s : Cores n) : Cores n :=
  match s.lock with
  | none => { s.goto c p with lock := some c }
  | some _ => s

/-- `spin_unlock(&sched_lock)`. -/
def spinUnlock (c : Fin n) (p : Point) (s : Cores n) : Cores n := { s.goto c p with lock := none }

/-- `proc->in_scheduler = v`. -/
def setInScheduler (c : Fin n) (v : Bool) (p : Point) (s : Cores n) : Cores n :=
  s.put c { s.core c with inScheduler := v, pc := p }

/-- `cli` and `sti`. -/
def setInt (c : Fin n) (v : Bool) (p : Point) (s : Cores n) : Cores n :=
  s.put c { s.core c with intEnabled := v, pc := p }

/-- The mask bit of the timer. -/
def setMask (c : Fin n) (v : Bool) (p : Point) (s : Cores n) : Cores n :=
  s.put c { s.core c with masked := v, pc := p }

/-- The next action of processor `c`. -/
def next (c : Fin n) (s : Cores n) : Cores n :=
  match (s.core c).pc with
  | .init =>
      -- the boot processor makes the test thread and sets `scheduler_ready`
      if c.val = 0 then
        { s.goto c .waitReady with readyList := [.thread], schedulerReady := true }
      else s.goto c .waitReady
  | .waitReady => if s.schedulerReady then s.goto c .setupTimer else s
  | .setupTimer => s.setMask c true .initLock
  | .initLock => s.spinLock c .createIdle
  | .createIdle => s.goto c .timerStart
  | .timerStart => s.setMask c false .leaveFlag
  | .leaveFlag => s.setInScheduler c false .leaveUnlock
  | .leaveUnlock => s.spinUnlock c .leaveEnable
  | .leaveEnable => s.setInt c true .thread
  | .thread => s
  | .yieldFlag => s.setInScheduler c true .yieldLock
  | .yieldLock => s.spinLock c .yieldPull
  | .yieldPull =>
      match s.readyList with
      | [] => s.goto c .leaveFlag
      | dst :: rest => { s.goto c (.switchCli dst) with readyList := rest }
  | .switchCli dst => s.setInt c false (.queueFlag dst)
  | .queueFlag dst => s.setInScheduler c false (.queuePush dst)
  | .queuePush dst =>
      -- the thread goes on behind its call of `thread_switch_sync`
      { s.goto c (.queueUnlock dst) with readyList := s.readyList ++ [.thread] }
  | .queueUnlock dst => s.spinUnlock c (.switchSti dst)
  | .switchSti dst => s.setInt c true dst
  | .asyncEnter ret =>
      if (s.core c).inScheduler then s.goto c (.iret ret) else s.goto c (.asyncLock ret)
  | .asyncLock ret => s.spinLock c (.asyncPull ret)
  | .asyncPull ret =>
      match s.readyList with
      | [] => s.goto c (.asyncFlag ret)
      | dst :: rest => { s.goto c (.asyncPush ret dst) with readyList := rest }
  | .asyncPush ret dst =>
      { s.goto c (.asyncFlag dst) with readyList := s.readyList ++ [ret] }
  | .asyncFlag dst => s.setInScheduler c false (.asyncUnlock dst)
  | .asyncUnlock dst => s.spinUnlock c (.iret dst)
  | .iret dst =>
      -- the flags of the interrupt frame, in which interrupts are enabled
      s.setInt c true dst

/-- What can happen on a processor: its next action, the call of `scheduler_yield` by the thread
that runs, which begins with `disable_int`, and a timer interrupt, which turns interrupts off. -/
inductive Event
  | next
  | yield
  | tick
  deriving DecidableEq, Repr

def exec : Fin n × Event → Cores n → Option (Cores n)
  | (c, .next), s => some (s.next c)
  | (c, .yield), s =>
      if (s.core c).pc = .thread then some (s.setInt c false .yieldFlag) else none
  | (c, .tick), s =>
      if (s.core c).intEnabled ∧ ¬ (s.core c).masked then
        some (s.setInt c false (.asyncEnter (s.core c).pc))
      else none

def Step (e : Fin n × Event) (s s' : Cores n) : Prop := exec e s = some s'

/-- The processors at the beginning of `scheduler_init`; `enabled` says on which of them interrupts
are enabled. Their timers have been masked by `lapic_cpu_init`. -/
def start (enabled : Fin n → Bool) : Cores n where
  core c := ⟨enabled c, true, false, .init⟩
  lock := none
  readyList := []
  schedulerReady := false

end Cores

/-! ## The property -/

/-- The next action is `spin_lock(&sched_lock)`. -/
def Point.AtSpinLock : Point → Prop
  | .initLock | .yieldLock | .asyncLock _ => True
  | _ => False

/-- The points between `spin_lock` and `spin_unlock`. -/
def Point.Holding : Point → Prop
  | .createIdle | .timerStart | .leaveFlag | .leaveUnlock | .yieldPull | .switchCli _
  | .queueFlag _ | .queuePush _ | .queueUnlock _ | .asyncPull _ | .asyncPush _ _ | .asyncFlag _
  | .asyncUnlock _ => True
  | _ => False

/-- Whatever goes on later goes on in the code of a thread. -/
def Point.ToThread : Point → Prop
  | .switchCli p | .queueFlag p | .queuePush p | .queueUnlock p | .switchSti p | .asyncEnter p
  | .asyncLock p | .asyncPull p | .asyncFlag p | .asyncUnlock p | .iret p => p = .thread
  | .asyncPush p q => p = .thread ∧ q = .thread
  | _ => True

namespace Cores

variable {n : Nat}

/-- No processor is at `spin_lock(&sched_lock)` while it holds the lock. -/
def Safe (s : Cores n) : Prop := ∀ c, (s.core c).pc.AtSpinLock → s.lock ≠ some c

/-! ## Interrupts disabled in `scheduler_init` -/

/-- What holds as long as every processor enters `scheduler_init` with interrupts disabled: they are
enabled in the code of threads only, where the lock is not held. -/
structure Inv (s : Cores n) : Prop where
  off : ∀ c, (s.core c).intEnabled = true → (s.core c).pc = .thread
  held : ∀ c, s.lock = some c ↔ (s.core c).pc.Holding
  cont : ∀ c, (s.core c).pc.ToThread
  ready : ∀ p ∈ s.readyList, p = .thread

theorem Inv.safe {s : Cores n} (h : Inv s) : s.Safe := by
  intro c hat hlock
  have hhold := (h.held c).mp hlock
  generalize (s.core c).pc = p at hat hhold
  cases p <;> simp only [Point.AtSpinLock, Point.Holding] at hat hhold

/-- **The step lemma.** One processor changes, and the lock and the ready list with it; who else
holds the lock stays as it is. -/
theorem Inv.put {s s' : Cores n} {c : Fin n} {x : Core} (h : Inv s)
    (hcore : s'.core = Function.update s.core c x)
    (hoff : x.intEnabled = true → x.pc = .thread)
    (hheld : s'.lock = some c ↔ x.pc.Holding)
    (hother : ∀ d, d ≠ c → (s'.lock = some d ↔ s.lock = some d))
    (hcont : x.pc.ToThread) (hready : ∀ p ∈ s'.readyList, p = .thread) : Inv s' := by
  refine ⟨?_, ?_, ?_, hready⟩ <;> rw [hcore]
  · exact (Function.forall_update_iff s.core fun _ y => y.intEnabled = true → y.pc = .thread).2
      ⟨hoff, fun d _ => h.off d⟩
  · refine (Function.forall_update_iff s.core fun d y => s'.lock = some d ↔ y.pc.Holding).2
      ⟨hheld, fun d hd => ?_⟩
    exact (hother d hd).trans (h.held d)
  · exact (Function.forall_update_iff s.core fun _ y => y.pc.ToThread).2
      ⟨hcont, fun d _ => h.cont d⟩

/-- The step lemma for a step outside the code of threads that does not touch the lock and does not
enable interrupts. -/
theorem Inv.step {s s' : Cores n} {c : Fin n} {x : Core} {p : Point} (h : Inv s)
    (hpc : (s.core c).pc = p) (hcore : s'.core = Function.update s.core c x)
    (hlock : s'.lock = s.lock) (hready : ∀ q ∈ s'.readyList, q = .thread)
    (hint : x.intEnabled = true → (s.core c).intEnabled = true) (hp : p ≠ .thread)
    (hheld : x.pc.Holding ↔ p.Holding) (hcont : x.pc.ToThread) : Inv s' := by
  refine h.put hcore ?_ ?_ ?_ hcont hready
  · intro hon
    exact absurd ((hpc.symm.trans (h.off c (hint hon)))) hp
  · rw [hlock, hheld, ← hpc]
    exact h.held c
  · intro d _
    rw [hlock]

/-- Such a step that leaves the ready list as it is, too. -/
theorem Inv.move {s : Cores n} {c : Fin n} {x : Core} {p : Point} (h : Inv s)
    (hpc : (s.core c).pc = p) (hint : x.intEnabled = true → (s.core c).intEnabled = true)
    (hp : p ≠ .thread) (hheld : x.pc.Holding ↔ p.Holding) (hcont : x.pc.ToThread) :
    Inv (s.put c x) :=
  h.step hpc rfl rfl h.ready hint hp hheld hcont

/-- The step lemma for `sti` and `iret`: the processor goes on in the code of a thread. -/
theorem Inv.enable {s : Cores n} {c : Fin n} {p q : Point} (h : Inv s)
    (hpc : (s.core c).pc = p) (hheld : ¬ p.Holding) (hq : q = .thread) :
    Inv (s.setInt c true q) := by
  subst hq
  refine h.put (x := { s.core c with intEnabled := true, pc := .thread }) rfl (fun _ => rfl) ?_ ?_
    trivial h.ready
  · have hlock := h.held c
    rw [hpc] at hlock
    exact hlock.trans (iff_of_false hheld id)
  · intro d _
    exact Iff.rfl

theorem Inv.spinLock {s : Cores n} {c : Fin n} {p q : Point} (h : Inv s)
    (hpc : (s.core c).pc = q) (hq : q ≠ .thread) (hhold : p.Holding) (hcont : p.ToThread) :
    Inv (s.spinLock c p) := by
  unfold Cores.spinLock
  split
  case h_1 hlock =>
    refine h.put (x := { s.core c with pc := p }) rfl ?_ ?_ ?_ hcont h.ready
    · intro hon
      exact absurd (hpc.symm.trans (h.off c hon)) hq
    · exact ⟨fun _ => hhold, fun _ => rfl⟩
    · intro d hd
      -- nobody held the lock before, and now it is `c`
      rw [hlock]
      simp [Ne.symm hd]
  case h_2 => exact h

theorem Inv.spinUnlock {s : Cores n} {c : Fin n} {p q : Point} (h : Inv s)
    (hpc : (s.core c).pc = q) (hq : q.Holding) (hhold : ¬ p.Holding) (hcont : p.ToThread) :
    Inv (s.spinUnlock c p) := by
  have hlock : s.lock = some c := (h.held c).mpr (hpc ▸ hq)
  refine h.put (x := { s.core c with pc := p }) rfl ?_ ?_ ?_ hcont h.ready
  · intro hon
    -- the lock is not held in the code of a thread
    have hthread := hpc.symm.trans (h.off c hon)
    subst hthread
    exact hq.elim
  · simp [Cores.spinUnlock, hhold]
  · intro d hd
    rw [hlock]
    simp [Cores.spinUnlock, Ne.symm hd]

theorem Inv.next {s : Cores n} (h : Inv s) (c : Fin n) : Inv (s.next c) := by
  have hcont := h.cont c
  have hready := h.ready
  unfold Cores.next
  cases hpc : (s.core c).pc with
  | init =>
      dsimp only
      split
      · refine h.step hpc rfl rfl ?_ id (by simp) Iff.rfl trivial
        intro q hq
        exact List.mem_singleton.mp hq
      · exact h.move hpc id (by simp) Iff.rfl trivial
  | waitReady =>
      dsimp only
      split
      · exact h.move hpc id (by simp) Iff.rfl trivial
      · exact h
  | setupTimer | createIdle | timerStart | leaveFlag | yieldFlag =>
      exact h.move hpc id (by simp) Iff.rfl trivial
  | initLock | yieldLock => exact h.spinLock hpc (by simp) trivial trivial
  | leaveUnlock => exact h.spinUnlock hpc trivial id trivial
  | leaveEnable => exact h.enable hpc id rfl
  | thread => exact h
  | yieldPull =>
      dsimp only
      split
      · exact h.move hpc id (by simp) Iff.rfl trivial
      next dst rest hlist =>
        rw [hlist] at hready
        have hdst := hready dst List.mem_cons_self
        exact h.step hpc rfl rfl (fun q hq => hready q (List.mem_cons_of_mem _ hq)) id (by simp)
          Iff.rfl hdst
  | switchCli dst =>
      rw [hpc] at hcont
      exact h.move hpc (by simp) (by simp) Iff.rfl hcont
  | queuePush dst =>
      rw [hpc] at hcont
      exact h.step hpc rfl rfl (List.forall_mem_append.mpr ⟨hready, by simp⟩) id (by simp) Iff.rfl
        hcont
  | queueFlag dst | asyncFlag dst =>
      rw [hpc] at hcont
      exact h.move hpc id (by simp) Iff.rfl hcont
  | queueUnlock dst | asyncUnlock dst =>
      rw [hpc] at hcont
      exact h.spinUnlock hpc trivial id hcont
  | switchSti dst | iret dst =>
      rw [hpc] at hcont
      exact h.enable hpc id hcont
  | asyncEnter ret =>
      rw [hpc] at hcont
      dsimp only
      split
      · exact h.move hpc id (by simp) Iff.rfl hcont
      · exact h.move hpc id (by simp) Iff.rfl hcont
  | asyncLock ret =>
      rw [hpc] at hcont
      exact h.spinLock hpc (by simp) trivial hcont
  | asyncPull ret =>
      rw [hpc] at hcont
      dsimp only
      split
      · exact h.move hpc id (by simp) Iff.rfl hcont
      next dst rest hlist =>
        rw [hlist] at hready
        have hdst := hready dst List.mem_cons_self
        exact h.step hpc rfl rfl (fun q hq => hready q (List.mem_cons_of_mem _ hq)) id (by simp)
          Iff.rfl ⟨hcont, hdst⟩
  | asyncPush ret dst =>
      rw [hpc] at hcont
      refine h.step hpc rfl rfl (List.forall_mem_append.mpr ⟨hready, ?_⟩) id (by simp) Iff.rfl
        hcont.2
      intro q hq
      exact (List.mem_singleton.mp hq).trans hcont.1

/-- Interrupts come in the code of threads only, and `scheduler_yield` is called there. -/
theorem Inv.exec {e : Fin n × Event} {s s' : Cores n} (h : Inv s) (hs : exec e s = some s') :
    Inv s' := by
  have hquiet : ∀ (c : Fin n) (p : Point), (s.core c).pc = .thread → ¬ p.Holding → p.ToThread →
      Inv (s.setInt c false p) := by
    intro c p hpc hhold hcont
    refine h.put (x := { s.core c with intEnabled := false, pc := p }) rfl (by simp) ?_ ?_ hcont
      h.ready
    · have hlock := h.held c
      rw [hpc] at hlock
      exact hlock.trans (iff_of_false id hhold)
    · intro d _
      exact Iff.rfl
  obtain ⟨c, e⟩ := e
  cases e with
  | next =>
      cases hs
      exact h.next c
  | yield =>
      simp only [Cores.exec] at hs
      split at hs
      next hpc =>
        cases hs
        exact hquiet c _ hpc id trivial
      next => cases hs
  | tick =>
      simp only [Cores.exec] at hs
      split at hs
      next hon =>
        cases hs
        have hpc := h.off c hon.1
        exact hquiet c _ hpc id hpc
      next => cases hs

theorem inv_start {enabled : Fin n → Bool} (h : ∀ c, enabled c = false) : Inv (start enabled) where
  off c hon := absurd ((h c).symm.trans hon) (by decide)
  held c := by simp [start, Point.Holding]
  cont _ := trivial
  ready _ hp := by cases hp

/-! ## Interrupts enabled in `scheduler_init` -/

/-- A processor that waits for `scheduler_ready` with interrupts enabled, while the lock is free. It
takes the lock, starts the timer, and the timer interrupt comes before `scheduler_leave` has
released the lock. -/
def selfDeadlock (c : Fin n) : List (Fin n × Event) :=
  [(c, .next), (c, .next), (c, .next), (c, .next), (c, .next), (c, .tick), (c, .next)]

theorem selfDeadlock_unsafe {s : Cores n} {c : Fin n}
    (hcore : s.core c = ⟨true, true, false, .waitReady⟩) (hlock : s.lock = none)
    (hready : s.schedulerReady = true) :
    ∃ s', runList exec (selfDeadlock c) s = some s' ∧ ¬ s'.Safe := by
  refine ⟨{ s.put c ⟨false, false, false, .asyncLock .leaveFlag⟩ with lock := some c }, ?_, ?_⟩
  · simp [selfDeadlock, runList, exec, next, hcore, hlock, hready, goto, put, setMask, spinLock,
      setInt]
  · intro hsafe
    have h := hsafe c
    simp [put, Point.AtSpinLock] at h

/-- Every processor can get to the point where it waits for `scheduler_ready` while the lock is free
and `scheduler_ready` is set. -/
theorem reach_waitReady (enabled : Fin n → Bool) (c : Fin n) :
    ∃ s, Reach (· = start enabled) Step s ∧ s.core c = ⟨enabled c, true, false, .waitReady⟩ ∧
      s.lock = none ∧ s.schedulerReady = true := by
  have hnext : ∀ (d : Fin n) s, Reach (· = start enabled) Step s →
      Reach (· = start enabled) Step (s.next d) := fun d s hr => hr.next (d, .next) rfl
  have hstart : Reach (· = start enabled) Step (start enabled) := .start rfl
  by_cases hc : c.val = 0
  · refine ⟨(start enabled).next c, hnext c _ hstart, ?_, ?_, ?_⟩ <;>
    simp [next, start, hc, goto, put]
  · -- the boot processor sets `scheduler_ready` first
    have hne : c ≠ ⟨0, c.pos⟩ := by
      rintro h
      exact hc (congrArg Fin.val h)
    refine ⟨((start enabled).next ⟨0, c.pos⟩).next c,
      hnext c _ (hnext _ _ hstart), ?_, ?_, ?_⟩ <;>
    simp [next, start, hc, goto, put, hne]

/-- **Interrupts and `sched_lock`.** No processor ever spins on `sched_lock` while it holds it, in
no run from `scheduler_init` on, exactly if every processor enters `scheduler_init` with interrupts
disabled. -/
theorem no_self_deadlock (enabled : Fin n → Bool) :
    (∀ s, Reach (· = start enabled) Step s → s.Safe) ↔ ∀ c, enabled c = false := by
  constructor
  · intro hall c
    by_contra hon
    rw [Bool.not_eq_false] at hon
    obtain ⟨s, hr, hcore, hlock, hready⟩ := reach_waitReady enabled c
    rw [hon] at hcore
    obtain ⟨s', hrun, hbad⟩ := selfDeadlock_unsafe hcore hlock hready
    exact hbad (hall s' (reach_runList (fun _ _ _ h => h) hr hrun))
  · intro hoff s hr
    have hinv : Inv s := by
      apply hr.invariant (I := Inv)
      · rintro s rfl
        exact inv_start hoff
      · intro e s s' h hs
        exact h.exec hs
    exact hinv.safe

/-- Two processors as they are started: `kmain` has disabled interrupts on the boot processor, and
`init_ap` has enabled them on the other one. -/
def booted : Cores 2 := start fun c => c.val != 0

/-- The second processor waits in a timer interrupt for the lock that it holds itself. -/
theorem self_deadlock_two :
    ∃ s, Reach (· = booted) Step s ∧ (s.core 1).pc = .asyncLock .leaveFlag ∧ s.lock = some 1 ∧
      ¬ s.Safe := by
  have hrun : ∃ s, runList exec ((0, .next) :: (1, .next) :: selfDeadlock 1) booted = some s ∧
      (s.core 1).pc = .asyncLock .leaveFlag ∧ s.lock = some 1 := ⟨_, rfl, by decide, by decide⟩
  obtain ⟨s, hrun, hpc, hlock⟩ := hrun
  refine ⟨s, reach_runList (fun _ _ _ h => h) (.start rfl) hrun, hpc, hlock, ?_⟩
  intro hsafe
  apply hsafe 1 _ hlock
  rw [hpc]
  trivial

end Cores

end NowOS

import Mathlib.Tactic
import NowOS.Lib.Runs

set_option autoImplicit false

/-! # Who runs on which stack (`kernel/scheduler.c`, `arch/thread_switch.s`)

A switch from one thread to another is not one step. `scheduler_yield` with `thread_switch_sync`
and `scheduler_async_enter` with `thread_switch_async` go through the same steps: they take
`sched_lock`, pop `to_thread`, save `from_thread`, put `from_thread` on `ready_list` and release
the lock, read `to_thread` again from their arguments on the stack of `from_thread`, and load
`esp`. The processor is on the stack of `from_thread` up to the last of these steps, but after the
release another processor may pop `from_thread` and run it. -/

namespace NowOS

/-- Where a processor is in a switch. -/
inductive Phase
  | boot
  | thread
  | entering
  | locked
  | popped (fromThread toThread : Nat)
  | saved (fromThread toThread : Nat)
  | released
  | reread (toThread : Nat)
  deriving DecidableEq, Repr

/-- A processor: `proc->current_thread`, the thread on whose stack `esp` is, and where it is. -/
structure Cpu where
  current : Option Nat
  stack : Option Nat
  phase : Phase
  deriving DecidableEq, Repr

/-- The processors, the ready queue, the holder of `sched_lock` and the number of threads created.
For each thread, `arg` is the word on its stack where the switch routine has its argument
`to_thread`. -/
structure Stacks (n : Nat) where
  cpu : Fin n → Cpu
  readyList : List Nat
  lock : Option (Fin n)
  threads : Nat
  arg : Nat → Nat

namespace Stacks

variable {n : Nat}

/-! ## Steps -/

/-- The steps of a processor. -/
inductive Action
  | init
  | enter
  | lock
  | pop
  | save
  | release
  | reread
  | load
  | store (v : Nat)
  deriving DecidableEq, Repr

def setCpu (c : Fin n) (x : Cpu) (s : Stacks n) : Stacks n :=
  { s with cpu := Function.update s.cpu c x }

/-- `scheduler_init`: the processor creates its idle thread and goes to the stack of it. -/
def init (c : Fin n) (s : Stacks n) : Option (Stacks n) :=
  match (s.cpu c).phase, s.lock with
  | .boot, none =>
      some { s.setCpu c ⟨some s.threads, some s.threads, .thread⟩ with threads := s.threads + 1 }
  | _, _ => none

/-- The thread calls `scheduler_yield`, or a timer interrupt calls `scheduler_async_enter`. -/
def enter (c : Fin n) (s : Stacks n) : Option (Stacks n) :=
  match (s.cpu c).phase with
  | .thread => some (s.setCpu c { s.cpu c with phase := .entering })
  | _ => none

/-- `spin_lock(&sched_lock)`. -/
def takeLock (c : Fin n) (s : Stacks n) : Option (Stacks n) :=
  match (s.cpu c).phase, s.lock with
  | .entering, none => some { s.setCpu c { s.cpu c with phase := .locked } with lock := some c }
  | _, _ => none

/-- `pull_next_runnable_thread`; without a ready thread the scheduler is left again. The thread
that is left is `proc->current_thread`. -/
def pop (c : Fin n) (s : Stacks n) : Option (Stacks n) :=
  match (s.cpu c).phase, s.readyList, (s.cpu c).current with
  | .locked, [], _ => some { s.setCpu c { s.cpu c with phase := .thread } with lock := none }
  | .locked, toThread :: rest, some fromThread =>
      some { s.setCpu c { s.cpu c with phase := .popped fromThread toThread } with
        readyList := rest }
  | _, _, _ => none

/-- The processor gets `to_thread` as its current thread, the context of `from_thread` is saved,
and the arguments of the switch routine are on the stack that the processor is on. -/
def save (c : Fin n) (s : Stacks n) : Option (Stacks n) :=
  match (s.cpu c).phase, (s.cpu c).stack with
  | .popped fromThread toThread, some f =>
      some { s.setCpu c ⟨some toThread, some f, .saved fromThread toThread⟩ with
        arg := Function.update s.arg f toThread }
  | _, _ => none

/-- `scheduler_push_ready_thread(from_thread)` and the release of `sched_lock`. -/
def release (c : Fin n) (s : Stacks n) : Option (Stacks n) :=
  match (s.cpu c).phase with
  | .saved fromThread _ =>
      some { s.setCpu c { s.cpu c with phase := .released } with
        readyList := s.readyList ++ [fromThread]
        lock := none }
  | _ => none

/-- `mov ebx, [esp + 8]` after the release. -/
def reread (c : Fin n) (s : Stacks n) : Option (Stacks n) :=
  match (s.cpu c).phase, (s.cpu c).stack with
  | .released, some f => some (s.setCpu c { s.cpu c with phase := .reread (s.arg f) })
  | _, _ => none

/-- `esp` is loaded from `to_thread`. -/
def load (c : Fin n) (s : Stacks n) : Option (Stacks n) :=
  match (s.cpu c).phase with
  | .reread toThread => some (s.setCpu c { s.cpu c with stack := some toThread, phase := .thread })
  | _ => none

/-- The code of a thread writes to its stack, also where the arguments of a switch have been. -/
def store (c : Fin n) (v : Nat) (s : Stacks n) : Option (Stacks n) :=
  match (s.cpu c).phase, (s.cpu c).stack with
  | .thread, some f => some { s with arg := Function.update s.arg f v }
  | _, _ => none

/-- A step of processor `c`, if it can make it. -/
def exec (c : Fin n) : Action → Stacks n → Option (Stacks n)
  | .init => init c
  | .enter => enter c
  | .lock => takeLock c
  | .pop => pop c
  | .save => save c
  | .release => release c
  | .reread => reread c
  | .load => load c
  | .store v => store c v

/-- The step relation: any processor may make the next step. -/
def Step (a : Action × Fin n) (s s' : Stacks n) : Prop := s.exec a.2 a.1 = some s'

/-- The state in which the boot processor sets `scheduler_ready`. -/
def boot (n : Nat) : Stacks n := ⟨fun _ => ⟨none, none, .boot⟩, [0], none, 1, fun _ => 0⟩

/-- **No two processors are on the stack of one thread.** -/
def Exclusive (s : Stacks n) : Prop :=
  ∀ c d t, (s.cpu c).stack = some t → (s.cpu d).stack = some t → c = d

/-- The processor has put the thread it was running on `ready_list` and released `sched_lock`, but
it has not loaded `esp` yet. -/
def Leaving (x : Cpu) : Bool :=
  match x.phase with
  | .released => true
  | .reread _ => true
  | _ => false

/-- The thread from which a step loads `esp`. -/
def loadsFrom (a : Action) (x : Cpu) : Option Nat :=
  match a, x.phase with
  | .load, .reread t => some t
  | _, _ => none

/-- When a processor loads `esp` from a thread, no other processor is still leaving that thread. -/
def Vacated (a : Action × Fin n) (s : Stacks n) : Prop :=
  ∀ t ∈ loadsFrom a.1 (s.cpu a.2), ∀ d, d ≠ a.2 → Leaving (s.cpu d) = true →
    (s.cpu d).stack ≠ some t

instance (a : Action × Fin n) (s : Stacks n) : Decidable (Vacated a s) :=
  inferInstanceAs (Decidable (∀ t ∈ loadsFrom a.1 (s.cpu a.2), ∀ d, d ≠ a.2 →
    Leaving (s.cpu d) = true → (s.cpu d).stack ≠ some t))

/-! ## The invariant -/

/-- The threads a processor has, which nobody else may run. -/
def Holds (x : Cpu) (t : Nat) : Prop :=
  match x.phase with
  | .boot => False
  | .popped fromThread toThread => t = fromThread ∨ t = toThread
  | .saved fromThread toThread => t = fromThread ∨ t = toThread
  | _ => x.current = some t

/-- What is known of a processor in each phase. -/
def CpuOk (arg : Nat → Nat) (x : Cpu) : Prop :=
  match x.phase with
  | .boot => x.stack = none
  | .popped fromThread toThread =>
      x.current = some fromThread ∧ x.stack = some fromThread ∧ fromThread ≠ toThread
  | .saved fromThread toThread =>
      x.current = some toThread ∧ x.stack = some fromThread ∧ fromThread ≠ toThread ∧
        arg fromThread = toThread
  | .released => ∃ f, x.stack = some f ∧ x.current = some (arg f)
  | .reread toThread => x.current = some toThread
  | _ => ∃ t, x.current = some t ∧ x.stack = some t

/-- **The invariant.** -/
structure Inv (s : Stacks n) : Prop where
  ok : ∀ c, CpuOk s.arg (s.cpu c)
  held : ∀ c d t, Holds (s.cpu c) t → Holds (s.cpu d) t → c = d
  held_lt : ∀ c t, Holds (s.cpu c) t → t < s.threads
  ready : ∀ t ∈ s.readyList, t < s.threads ∧ ∀ c, ¬ Holds (s.cpu c) t
  nodup : s.readyList.Nodup
  exclusive : Exclusive s
  stack_lt : ∀ c t, (s.cpu c).stack = some t → t < s.threads

section

variable {s s' : Stacks n} {c : Fin n}

/-- A processor that has a stack and is not leaving it holds the thread of that stack. -/
theorem holds_of_stack {arg : Nat → Nat} {x : Cpu} {t : Nat} (hok : CpuOk arg x)
    (ht : x.stack = some t) (hl : Leaving x = false) : Holds x t := by
  unfold CpuOk at hok
  unfold Leaving at hl
  unfold Holds
  cases hp : x.phase with
  | boot =>
      rw [hp] at hok
      rw [show x.stack = none from hok] at ht
      cases ht
  | popped f u =>
      rw [hp] at hok
      obtain ⟨-, hf, -⟩ := hok
      rw [hf] at ht
      cases ht
      exact Or.inl rfl
  | saved f u =>
      rw [hp] at hok
      obtain ⟨-, hf, -⟩ := hok
      rw [hf] at ht
      cases ht
      exact Or.inl rfl
  | released | reread =>
      rw [hp] at hl
      cases hl
  | thread | entering | locked =>
      rw [hp] at hok
      obtain ⟨u, hu, hu'⟩ := hok
      rw [hu'] at ht
      cases ht
      exact hu

/-- What is known of a processor depends on the word on its own stack only. -/
theorem CpuOk.congr {arg arg' : Nat → Nat} {x : Cpu} (hok : CpuOk arg x)
    (heq : ∀ f, x.stack = some f → arg' f = arg f) : CpuOk arg' x := by
  unfold CpuOk at hok ⊢
  cases hp : x.phase with
  | saved f t =>
      rw [hp] at hok
      obtain ⟨h1, h2, h3, h4⟩ := hok
      exact ⟨h1, h2, h3, by rw [heq f h2, h4]⟩
  | released =>
      rw [hp] at hok
      obtain ⟨f, h1, h2⟩ := hok
      exact ⟨f, h1, by rw [heq f h1, h2]⟩
  | boot | popped | reread | thread | entering | locked =>
      rw [hp] at hok
      exact hok

/-- **The step rule.** A step of processor `c` may take threads from the queue or create one, give
threads it has to the queue, and go to a stack nobody is on. -/
theorem Inv.step {x : Cpu} (hi : Inv s)
    (hcpu : s'.cpu = Function.update s.cpu c x) (hthreads : s.threads ≤ s'.threads)
    (hok : CpuOk s'.arg x) (harg : ∀ d, d ≠ c → ∀ f, (s.cpu d).stack = some f → s'.arg f = s.arg f)
    (hholds : ∀ t, Holds x t →
      t < s'.threads ∧ (Holds (s.cpu c) t ∨ t ∈ s.readyList ∨ s.threads ≤ t))
    (hlist : ∀ t ∈ s'.readyList, ¬ Holds x t ∧ (t ∈ s.readyList ∨ Holds (s.cpu c) t))
    (hnodup : s'.readyList.Nodup)
    (hstack : ∀ t, x.stack = some t → t < s'.threads ∧ ∀ d, d ≠ c → (s.cpu d).stack ≠ some t) :
    Inv s' := by
  have hself : s'.cpu c = x := by rw [hcpu, Function.update_self]
  have hother : ∀ d, d ≠ c → s'.cpu d = s.cpu d := by
    intro d hd
    rw [hcpu, Function.update_of_ne hd]
  -- a thread that `c` has after the step is nobody else's
  have hnew : ∀ d, d ≠ c → ∀ t, Holds (s.cpu d) t → ¬ Holds (s'.cpu c) t := by
    intro d hd t hdt hx
    rw [hself] at hx
    rcases (hholds t hx).2 with hc | hready | hfresh
    · exact hd (hi.held d c t hdt hc)
    · exact (hi.ready t hready).2 d hdt
    · exact absurd (hi.held_lt d t hdt) (by omega)
  -- a fact about all processors: `c` has the new state, the others have their old one
  have hall : ∀ P : Cpu → Prop, P x → (∀ d, d ≠ c → P (s.cpu d)) → ∀ d, P (s'.cpu d) := by
    intro P hx hothers
    rw [hcpu]
    exact (Function.forall_update_iff s.cpu fun _ => P).2 ⟨hx, hothers⟩
  refine ⟨?_, ?_, ?_, ?_, hnodup, ?_, ?_⟩
  · exact hall (CpuOk s'.arg) hok fun d hd => (hi.ok d).congr (harg d hd)
  · refine one_owner_of_change hi.held (fun d hd t hdt => ?_) hnew
    rw [hother d hd] at hdt
    exact hdt
  · refine hall (fun y => ∀ t, Holds y t → t < s'.threads) (fun t hx => (hholds t hx).1) ?_
    intro d _ t hdt
    exact Nat.lt_of_lt_of_le (hi.held_lt d t hdt) hthreads
  · intro t ht
    obtain ⟨hx, hwhere⟩ := hlist t ht
    have hlt : t < s.threads := by
      rcases hwhere with hready | hc
      · exact (hi.ready t hready).1
      · exact hi.held_lt c t hc
    refine ⟨Nat.lt_of_lt_of_le hlt hthreads, hall (fun y => ¬ Holds y t) hx fun d hd hdt => ?_⟩
    rcases hwhere with hready | hc
    · exact (hi.ready t hready).2 d hdt
    · exact hd (hi.held d c t hdt hc)
  · refine one_owner_of_change (c := c) hi.exclusive ?_ ?_
    · intro d hd t hdt
      rw [hother d hd] at hdt
      exact hdt
    · intro d hd t hdt hx
      rw [hself] at hx
      exact (hstack t hx).2 d hd hdt
  · refine hall (fun y => ∀ t, y.stack = some t → t < s'.threads) (fun t hx => (hstack t hx).1) ?_
    intro d _ t hdt
    exact Nat.lt_of_lt_of_le (hi.stack_lt d t hdt) hthreads

theorem Inv.stack_own (hi : Inv s) {t : Nat} (ht : (s.cpu c).stack = some t) :
    t < s.threads ∧ ∀ d, d ≠ c → (s.cpu d).stack ≠ some t :=
  ⟨hi.stack_lt c t ht, fun d hd hdt => hd (hi.exclusive d c t hdt ht)⟩

/-! ## Each step -/

theorem cpu_eq {x : Cpu} {p : Phase} (hp : x.phase = p) : x = ⟨x.current, x.stack, p⟩ := by
  rw [← hp]

/-- A step that only changes where the processor is, from `p` to `q`. -/
theorem Inv.move {p q : Phase} (hi : Inv s) (hp : (s.cpu c).phase = p)
    (hcpu : s'.cpu = Function.update s.cpu c { s.cpu c with phase := q })
    (hthreads : s'.threads = s.threads) (harg : s'.arg = s.arg)
    (hlist : s'.readyList = s.readyList)
    (hok : CpuOk s.arg { s.cpu c with phase := p } → CpuOk s.arg { s.cpu c with phase := q })
    (hholds : ∀ t, Holds { s.cpu c with phase := q } t → Holds { s.cpu c with phase := p } t) :
    Inv s' := by
  have hsame : { s.cpu c with phase := p } = s.cpu c := (cpu_eq hp).symm
  rw [hsame] at hok hholds
  refine hi.step hcpu (Nat.le_of_eq hthreads.symm) (harg ▸ hok (hi.ok c))
    (fun d _ f _ => by rw [harg]) ?_ ?_ (hlist ▸ hi.nodup) ?_
  · intro t ht
    rw [hthreads]
    exact ⟨hi.held_lt c t (hholds t ht), Or.inl (hholds t ht)⟩
  · intro t ht
    rw [hlist] at ht
    exact ⟨fun h => (hi.ready t ht).2 c (hholds t h), Or.inl ht⟩
  · intro t ht
    rw [hthreads]
    exact hi.stack_own ht

theorem Inv.init (hi : Inv s) (h : init c s = some s') : Inv s' := by
  unfold Stacks.init at h
  split at h
  next hp hlock =>
    cases h
    refine hi.step (x := ⟨some s.threads, some s.threads, .thread⟩) rfl (Nat.le_succ _)
      ⟨s.threads, rfl, rfl⟩ (fun _ _ _ _ => rfl) ?_ ?_ hi.nodup ?_
    · intro t ht
      cases ht
      exact ⟨Nat.lt_succ_self _, Or.inr (Or.inr (Nat.le_refl _))⟩
    · intro t ht
      refine ⟨fun h => ?_, Or.inl ht⟩
      cases h
      exact absurd (hi.ready _ ht).1 (Nat.lt_irrefl _)
    · intro t ht
      cases ht
      refine ⟨Nat.lt_succ_self _, fun d _ hd => ?_⟩
      exact absurd (hi.stack_lt d _ hd) (Nat.lt_irrefl _)
  next => cases h

theorem Inv.enter (hi : Inv s) (h : enter c s = some s') : Inv s' := by
  unfold Stacks.enter at h
  split at h
  next hp =>
    cases h
    exact hi.move hp rfl rfl rfl rfl id (fun _ ht => ht)
  next => cases h

theorem Inv.takeLock (hi : Inv s) (h : takeLock c s = some s') : Inv s' := by
  unfold Stacks.takeLock at h
  split at h
  next hp hlock =>
    cases h
    exact hi.move hp rfl rfl rfl rfl id (fun _ ht => ht)
  next => cases h

theorem Inv.pop (hi : Inv s) (h : pop c s = some s') : Inv s' := by
  unfold Stacks.pop at h
  split at h
  next cur hp hl =>
    cases h
    exact hi.move hp rfl rfl rfl rfl id (fun _ ht => ht)
  next u rest f hp hl hcur =>
    cases h
    have hok := hi.ok c
    rw [cpu_eq hp] at hok
    obtain ⟨v, hv, hstack⟩ := hok
    have hf : (s.cpu c).stack = some f := by
      rw [hcur] at hv
      cases hv
      exact hstack
    have hheld : Holds (s.cpu c) f := by
      rw [cpu_eq hp]
      exact hcur
    have hu : u ∈ s.readyList := by simp [hl]
    have hnodup := hi.nodup
    rw [hl, List.nodup_cons] at hnodup
    have hne : f ≠ u := by
      rintro rfl
      exact (hi.ready f hu).2 c hheld
    refine hi.step (x := { s.cpu c with phase := .popped f u }) rfl (Nat.le_refl _)
      ⟨hcur, hf, hne⟩ (fun _ _ _ _ => rfl) ?_ ?_ hnodup.2 ?_
    · rintro t (rfl | rfl)
      · exact ⟨hi.held_lt c t hheld, Or.inl hheld⟩
      · exact ⟨(hi.ready t hu).1, Or.inr (Or.inl hu)⟩
    · intro t ht
      have ht : t ∈ rest := ht
      have hmem : t ∈ s.readyList := by simp [hl, ht]
      refine ⟨?_, Or.inl hmem⟩
      rintro (rfl | rfl)
      · exact (hi.ready t hmem).2 c hheld
      · exact hnodup.1 ht
    · intro t ht
      exact hi.stack_own ht
  next => cases h

theorem Inv.save (hi : Inv s) (h : save c s = some s') : Inv s' := by
  unfold Stacks.save at h
  split at h
  next f u f' hp hstack =>
    cases h
    have hok := hi.ok c
    rw [cpu_eq hp] at hok
    obtain ⟨-, hf, hne⟩ := hok
    have hff : f = f' := by
      rw [show (s.cpu c).stack = some f from hf] at hstack
      cases hstack
      rfl
    subst hff
    refine hi.step (x := ⟨some u, some f, .saved f u⟩) rfl (Nat.le_refl _)
      ⟨rfl, rfl, hne, Function.update_self _ _ _⟩ ?_ ?_ ?_ hi.nodup ?_
    · -- the word is on the stack of `f`, where nobody else is
      intro d hd g hg
      refine Function.update_of_ne ?_ _ _
      rintro rfl
      exact hd (hi.exclusive d c g hg hstack)
    · intro t ht
      have ht' : Holds (s.cpu c) t := by
        rw [cpu_eq hp]
        exact ht
      exact ⟨hi.held_lt c t ht', Or.inl ht'⟩
    · intro t ht
      refine ⟨fun h => (hi.ready t ht).2 c ?_, Or.inl ht⟩
      rw [cpu_eq hp]
      exact h
    · intro t ht
      cases ht
      exact hi.stack_own hstack
  next => cases h

theorem Inv.release (hi : Inv s) (h : release c s = some s') : Inv s' := by
  unfold Stacks.release at h
  split at h
  next f u hp =>
    cases h
    have hok := hi.ok c
    rw [cpu_eq hp] at hok
    obtain ⟨hcur, hf, hne, harg⟩ := hok
    have hheld : Holds (s.cpu c) f := by
      rw [cpu_eq hp]
      exact Or.inl rfl
    have hfresh : f ∉ s.readyList := fun h => (hi.ready f h).2 c hheld
    have hcurrent : (s.cpu c).current = some u := hcur
    have hsaved : (s.cpu c).current = some (s.arg f) := by
      rw [harg]
      exact hcur
    refine hi.step (x := { s.cpu c with phase := .released }) rfl (Nat.le_refl _)
      ⟨f, hf, hsaved⟩ (fun _ _ _ _ => rfl) ?_ ?_ ?_ ?_
    · intro t ht
      have ht : (s.cpu c).current = some t := ht
      have ht' : Holds (s.cpu c) t := by
        rw [hcurrent] at ht
        cases ht
        rw [cpu_eq hp]
        exact Or.inr rfl
      exact ⟨hi.held_lt c t ht', Or.inl ht'⟩
    · intro t ht
      rcases List.mem_append.mp ht with ht | ht
      · refine ⟨fun h => (hi.ready t ht).2 c ?_, Or.inl ht⟩
        have h : (s.cpu c).current = some t := h
        rw [hcurrent] at h
        cases h
        rw [cpu_eq hp]
        exact Or.inr rfl
      · rw [List.mem_singleton.mp ht]
        refine ⟨fun h => ?_, Or.inr hheld⟩
        have h : (s.cpu c).current = some f := h
        rw [hcurrent] at h
        cases h
        exact hne rfl
    · refine List.nodup_append.2 ⟨hi.nodup, List.nodup_singleton f, ?_⟩
      intro t ht v hv htv
      rw [htv, List.mem_singleton.mp hv] at ht
      exact hfresh ht
    · intro t ht
      exact hi.stack_own ht
  next => cases h

theorem Inv.reread (hi : Inv s) (h : reread c s = some s') : Inv s' := by
  unfold Stacks.reread at h
  split at h
  next f hp hstack =>
    cases h
    refine hi.move hp rfl rfl rfl rfl ?_ (fun _ ht => ht)
    rintro ⟨f', hf', hcur⟩
    rw [show (s.cpu c).stack = some f' from hf'] at hstack
    cases hstack
    exact hcur
  next => cases h

/-- Loading `esp` is the one step that needs the condition. -/
theorem Inv.load (hi : Inv s) (hv : Vacated (.load, c) s) (h : load c s = some s') : Inv s' := by
  unfold Stacks.load at h
  split at h
  next u hp =>
    cases h
    have hok := hi.ok c
    rw [cpu_eq hp] at hok
    have hcur : (s.cpu c).current = some u := hok
    have hheld : Holds (s.cpu c) u := by
      rw [cpu_eq hp]
      exact hcur
    have hsame : ∀ t, (s.cpu c).current = some t → Holds (s.cpu c) t := by
      intro t ht
      rw [cpu_eq hp]
      exact ht
    refine hi.step (x := { s.cpu c with stack := some u, phase := .thread }) rfl (Nat.le_refl _)
      ⟨u, hcur, rfl⟩ (fun _ _ _ _ => rfl) ?_ ?_ hi.nodup ?_
    · intro t ht
      exact ⟨hi.held_lt c t (hsame t ht), Or.inl (hsame t ht)⟩
    · intro t ht
      exact ⟨fun h => (hi.ready t ht).2 c (hsame t h), Or.inl ht⟩
    · intro t ht
      cases ht
      refine ⟨hi.held_lt c u hheld, fun d hd hdu => ?_⟩
      -- a processor on that stack is leaving it, or has the thread itself
      cases hl : Leaving (s.cpu d) with
      | true => exact hv u (by simp [loadsFrom, hp]) d hd hl hdu
      | false => exact hd (hi.held d c u (holds_of_stack (hi.ok d) hdu hl) hheld)
  next => cases h

theorem Inv.store {v : Nat} (hi : Inv s) (h : store c v s = some s') : Inv s' := by
  unfold Stacks.store at h
  split at h
  next f hp hstack =>
    cases h
    have hok := hi.ok c
    refine hi.step (x := s.cpu c) (Function.update_eq_self c s.cpu).symm (Nat.le_refl _) ?_ ?_ ?_ ?_
      hi.nodup ?_
    · rw [cpu_eq hp] at hok ⊢
      exact hok
    · intro d hd g hg
      refine Function.update_of_ne ?_ _ _
      rintro rfl
      exact hd (hi.exclusive d c g hg hstack)
    · intro t ht
      exact ⟨hi.held_lt c t ht, Or.inl ht⟩
    · intro t ht
      exact ⟨(hi.ready t ht).2 c, Or.inl ht⟩
    · intro t ht
      exact hi.stack_own ht
  next => cases h

theorem inv_boot : Inv (boot n) where
  ok := fun _ => rfl
  held := fun _ _ _ h => h.elim
  held_lt := fun _ _ h => h.elim
  ready := by
    intro t ht
    rw [List.mem_singleton.mp ht]
    exact ⟨Nat.one_pos, fun _ h => h⟩
  nodup := List.nodup_singleton 0
  exclusive := by
    intro c d t h
    cases h
  stack_lt := by
    intro c t h
    cases h

theorem Inv.exec {a : Action} (hi : Inv s) (hv : Vacated (a, c) s) (h : s.exec c a = some s') :
    Inv s' := by
  cases a with
  | init => exact hi.init h
  | enter => exact hi.enter h
  | lock => exact hi.takeLock h
  | pop => exact hi.pop h
  | save => exact hi.save h
  | release => exact hi.release h
  | reread => exact hi.reread h
  | load => exact hi.load hv h
  | store v => exact hi.store h

/-- **One processor on a stack.** In every run of any number of processors in which each load of
`esp` goes to a thread that no other processor is still leaving, no two processors are ever on the
stack of one thread. -/
theorem stack_exclusive (hr : Reach (fun s => s = boot n) (Guarded Vacated Step) s) :
    Exclusive s := by
  have hi : Inv s := by
    refine hr.invariant (I := Inv) ?_ ?_
    · rintro s rfl
      exact inv_boot
    · rintro ⟨a, c⟩ s s' hi ⟨hv, hstep⟩
      exact hi.exec hv hstep
  exact hi.exclusive

/-! ## Runs on two processors -/

/-- Both processors enter their idle threads `1` and `2`, and the first one switches to thread `0`
up to the release of the lock. -/
def releaseRun : List (Action × Fin 2) :=
  [(.init, 0), (.init, 1), (.enter, 0), (.lock, 0), (.pop, 0), (.save, 0), (.release, 0)]

/-- The second processor switches to the thread that the first one has released. -/
def takeoverRun : List (Action × Fin 2) :=
  [(.enter, 1), (.lock, 1), (.pop, 1), (.save, 1), (.release, 1), (.reread, 1), (.load, 1)]

/-- If the first processor goes on to the stack of thread `0` first, the second one may take over
the idle thread. -/
theorem stack_exclusive_takeover :
    ∃ s, runList (fun a s => if Vacated a s then s.exec a.2 a.1 else none)
        (releaseRun ++ [(.reread, 0), (.load, 0)] ++ takeoverRun) (boot 2) = some s ∧
      (s.cpu 1).stack = some 1 ∧ Exclusive s := by
  have hrun : (runList (fun a s => if Vacated a s then s.exec a.2 a.1 else none)
      (releaseRun ++ [(.reread, 0), (.load, 0)] ++ takeoverRun) (boot 2)).any (fun s =>
        (s.cpu 1).stack == some 1) = true := by decide
  obtain ⟨s, hs, hstack⟩ := (Option.any_eq_true _ _).1 hrun
  refine ⟨s, hs, beq_iff_eq.1 hstack, stack_exclusive (reach_runList ?_ (.start rfl) hs)⟩
  intro a s s' h
  split_ifs at h with hv
  exact ⟨hv, h⟩

/-- **Two processors on one stack.** The first processor is still on the stack of its idle thread
when the second one takes that thread from the queue and loads its `esp`. -/
theorem stack_shared :
    ∃ s, runList (fun a s => s.exec a.2 a.1) (releaseRun ++ takeoverRun) (boot 2) = some s ∧
      Reach (fun s => s = boot 2) Step s ∧ ¬ Exclusive s := by
  have hrun : (runList (fun a s => s.exec a.2 a.1) (releaseRun ++ takeoverRun) (boot 2)).any
      (fun s => (s.cpu 0).stack == some 1 && (s.cpu 1).stack == some 1) = true := by decide
  obtain ⟨s, hs, hboth⟩ := (Option.any_eq_true _ _).1 hrun
  simp only [Bool.and_eq_true, beq_iff_eq] at hboth
  refine ⟨s, hs, reach_runList (fun _ _ _ h => h) (.start rfl) hs, fun hx => ?_⟩
  exact absurd (hx 0 1 1 hboth.1 hboth.2) (by decide)

end

end Stacks

end NowOS

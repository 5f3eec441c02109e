import NowOS.Sched.Scheduler

set_option autoImplicit false

/-! # No thread is lost or doubled

Between critical sections every thread is the current thread of one processor, or it is once on
`ready_list`. Both ways into the scheduler end in the same change (`switched`): the first ready
thread becomes the current thread of the processor and the thread it had goes to the end of the
queue. No assertion fails on the way. -/

namespace NowOS

namespace Sched

open ThreadState

variable {n : Nat} {s : Sched n} {c : Fin n}

/-- **Conservation.** Thread `t` is the current thread of exactly one processor, running and
active, and not ready; or it is no processor's current thread, exactly once on `ready_list`, ready
and not active. -/
def Conserved (s : Sched n) (t : Nat) : Prop :=
  ((∃! c, (s.proc c).currentThread = some t) ∧ s.tib t = ⟨THREAD_RUNNING, true⟩ ∧
    s.readyList.count t = 0) ∨
  ((∀ c, (s.proc c).currentThread ≠ some t) ∧ s.tib t = ⟨THREAD_READY, false⟩ ∧
    s.readyList.count t = 1)

/-- The invariant of the scheduler. -/
structure Inv (s : Sched n) : Prop where
  boot : ∀ c, (s.proc c).currentThread = none ↔ s.place c = .boot
  yield : ∀ c t, s.place c = .yield t → (s.proc c).currentThread = some t
  running : ∀ c t, (s.proc c).currentThread = some t →
    t < s.threads ∧ s.tib t = ⟨THREAD_RUNNING, true⟩
  inj : ∀ c d t, (s.proc c).currentThread = some t → (s.proc d).currentThread = some t → c = d
  ready : ∀ t ∈ s.readyList, t < s.threads ∧ s.tib t = ⟨THREAD_READY, false⟩
  nodup : s.readyList.Nodup
  cover : ∀ t, t < s.threads → t ∈ s.readyList ∨ ∃ c, (s.proc c).currentThread = some t

/-- A ready thread is not the current thread of a processor. -/
theorem Inv.ne_current (hi : Inv s) {t u : Nat} (ht : t ∈ s.readyList)
    (hu : (s.proc c).currentThread = some u) : t ≠ u := by
  rintro rfl
  have h1 := (hi.ready t ht).2
  have h2 := (hi.running c t hu).2
  rw [h1] at h2
  cases h2

theorem Inv.conserved (hi : Inv s) {t : Nat} (ht : t < s.threads) : Conserved s t := by
  rcases hi.cover t ht with hready | ⟨c, hc⟩
  · right
    refine ⟨fun c hc => hi.ne_current hready hc rfl, (hi.ready t hready).2, ?_⟩
    exact List.count_eq_one_of_mem hi.nodup hready
  · left
    refine ⟨⟨c, hc, fun d hd => hi.inj d c t hd hc⟩, (hi.running c t hc).2, ?_⟩
    exact List.count_eq_zero_of_not_mem fun hready => hi.ne_current hready hc rfl

theorem Inv.exists_current (hi : Inv s) (hc : s.place c ≠ .boot) :
    ∃ t, (s.proc c).currentThread = some t := by
  cases h : (s.proc c).currentThread with
  | none => exact absurd ((hi.boot c).1 h) hc
  | some t => exact ⟨t, rfl⟩

/-! ## What the critical sections do -/

/-- The state after a switch of processor `c` from one thread to another. -/
def switched (c : Fin n) (fromThread toThread : Nat) (rest : List Nat) (s : Sched n) : Sched n :=
  { s with
    tib := Function.update (Function.update s.tib toThread ⟨THREAD_RUNNING, true⟩) fromThread
      ⟨THREAD_READY, false⟩
    proc := Function.update s.proc c ⟨some toThread, false⟩
    readyList := rest ++ [fromThread]
    place := Function.update s.place c .thread }

theorem pull_nil (hl : s.readyList = []) : s.pullNextRunnableThread = .ok (none, s) := by
  unfold pullNextRunnableThread
  rw [hl]

theorem pull_cons {t : Nat} {rest : List Nat} (hl : s.readyList = t :: rest)
    (ht : s.tib t = ⟨THREAD_READY, false⟩) :
    s.pullNextRunnableThread = .ok (some t,
      { s with
        readyList := rest
        tib := Function.update s.tib t ⟨THREAD_RUNNING, true⟩ }) := by
  unfold pullNextRunnableThread
  rw [hl]
  simp [ht]

theorem schedulerYield_nil (fromThread : Nat) (hl : s.readyList = []) :
    s.schedulerYield c fromThread = .ok (s.schedulerLeave c) := by
  unfold schedulerYield
  rw [pull_nil hl]

theorem schedulerYield_cons {f t : Nat} {rest : List Nat} (hi : Inv s)
    (hl : s.readyList = t :: rest) (hf : (s.proc c).currentThread = some f) :
    s.schedulerYield c f = .ok (switched c f t rest s) := by
  have hne : t ≠ f := hi.ne_current (by simp [hl]) hf
  have hrun := (hi.running c f hf).2
  unfold schedulerYield
  rw [pull_cons hl (hi.ready t (by simp [hl])).2]
  simp only
  rw [if_neg hne]
  simp only [schedulerLeaveAndQueue, setInScheduler, setCurrentThread, schedulerPushReadyThread,
    goto, switched, Function.update_self, Function.update_idem,
    Function.update_of_ne (Ne.symm hne), hrun]
  simp

theorem schedulerAsync_nil (hl : s.readyList = []) :
    s.schedulerAsync c = .ok (s.schedulerLeave c) := by
  unfold schedulerAsync
  rw [pull_nil hl]

theorem schedulerAsync_cons {f t : Nat} {rest : List Nat} (hi : Inv s)
    (hl : s.readyList = t :: rest) (hf : (s.proc c).currentThread = some f) :
    s.schedulerAsync c = .ok (switched c f t rest s) := by
  have hne : t ≠ f := hi.ne_current (by simp [hl]) hf
  unfold schedulerAsync
  rw [pull_cons hl (hi.ready t (by simp [hl])).2]
  simp only [hf]
  rw [if_neg (Ne.symm hne)]
  simp only [schedulerLeave, setInScheduler, setCurrentThread, schedulerPushReadyThread, goto,
    switched, Function.update_self, Function.update_idem]

/-! ## Each step keeps the invariant -/

theorem inv_boot : Inv (boot n) where
  boot := fun c => ⟨fun _ => rfl, fun _ => rfl⟩
  yield := fun c t h => by cases h
  running := fun c t h => by cases h
  inj := fun c d t h => by cases h
  ready := by
    intro t ht
    have ht : t = 0 := by simpa [boot, schedulerPushReadyThread] using ht
    subst ht
    exact ⟨Nat.one_pos, rfl⟩
  nodup := List.nodup_singleton 0
  cover := by
    intro t ht
    have ht : t = 0 := Nat.lt_one_iff.1 ht
    subst ht
    exact Or.inl (List.mem_singleton_self 0)

/-- A step that only moves processor `c`, which has entered a thread, to another place. -/
theorem Inv.move {s' : Sched n} (hi : Inv s) (htib : s'.tib = s.tib)
    (hlist : s'.readyList = s.readyList) (hthreads : s'.threads = s.threads)
    (hcur : ∀ d, (s'.proc d).currentThread = (s.proc d).currentThread)
    (hplace : ∀ d, d ≠ c → s'.place d = s.place d) (hc : s.place c ≠ .boot)
    (hc' : s'.place c ≠ .boot)
    (hy : ∀ t, s'.place c = .yield t → (s.proc c).currentThread = some t) : Inv s' where
  boot := by
    intro d
    rw [hcur, hi.boot]
    by_cases hd : d = c
    · subst hd
      exact ⟨fun h => absurd h hc, fun h => absurd h hc'⟩
    · rw [hplace d hd]
  yield := by
    intro d t ht
    rw [hcur]
    by_cases hd : d = c
    · subst hd
      exact hy t ht
    · exact hi.yield d t (hplace d hd ▸ ht)
  running := by
    intro d t
    rw [hcur, htib, hthreads]
    exact hi.running d t
  inj := by
    intro d d' t
    rw [hcur, hcur]
    exact hi.inj d d' t
  ready := by
    rw [hlist, htib, hthreads]
    exact hi.ready
  nodup := hlist ▸ hi.nodup
  cover := by
    intro t ht
    rw [hthreads] at ht
    rw [hlist]
    simp only [hcur]
    exact hi.cover t ht

theorem Inv.leave (hi : Inv s) (hc : s.place c ≠ .boot) : Inv (s.schedulerLeave c) := by
  refine hi.move (c := c) rfl rfl rfl ?_ ?_ hc ?_ ?_
  · intro d
    by_cases hd : d = c
    · subst hd
      simp [schedulerLeave, setInScheduler, goto]
    · simp [schedulerLeave, setInScheduler, goto, hd]
  · intro d hd
    simp [schedulerLeave, setInScheduler, goto, hd]
  · simp [schedulerLeave, setInScheduler, goto]
  · intro t ht
    simp [schedulerLeave, setInScheduler, goto] at ht

/-- Processor `c` goes on with the thread `t`; the other processors stay where they are. -/
structure GoesOn (c : Fin n) (t : Nat) (s s' : Sched n) : Prop where
  self : (s'.proc c).currentThread = some t
  other : ∀ d, d ≠ c → (s'.proc d).currentThread = (s.proc d).currentThread
  place : s'.place = Function.update s.place c .thread

section GoesOn

variable {s' : Sched n} {t : Nat}

theorem GoesOn.boot (h : GoesOn c t s s') (hi : Inv s) (d : Fin n) :
    (s'.proc d).currentThread = none ↔ s'.place d = .boot := by
  rw [h.place]
  by_cases hd : d = c
  · subst hd
    rw [h.self]
    simp
  · rw [h.other d hd, Function.update_of_ne hd]
    exact hi.boot d

theorem GoesOn.yield (h : GoesOn c t s s') (hi : Inv s) (d : Fin n) (u : Nat)
    (hu : s'.place d = .yield u) : (s'.proc d).currentThread = some u := by
  rw [h.place] at hu
  by_cases hd : d = c
  · subst hd
    simp at hu
  · rw [Function.update_of_ne hd] at hu
    rw [h.other d hd]
    exact hi.yield d u hu

/-- What holds of `t`, and of the threads that were current before, holds of the threads that are
current now. -/
theorem GoesOn.forall_current (h : GoesOn c t s s') {P : Nat → Prop} (hself : P t)
    (hother : ∀ d u, d ≠ c → (s.proc d).currentThread = some u → P u) (d : Fin n) (u : Nat)
    (hu : (s'.proc d).currentThread = some u) : P u := by
  by_cases hd : d = c
  · subst hd
    rw [h.self] at hu
    cases hu
    exact hself
  · rw [h.other d hd] at hu
    exact hother d u hd hu

/-- If `t` is current on no other processor, then still no thread is current on two. -/
theorem GoesOn.inj (h : GoesOn c t s s') (hi : Inv s)
    (hfresh : ∀ d, d ≠ c → (s.proc d).currentThread ≠ some t) :
    ∀ d d' u, (s'.proc d).currentThread = some u → (s'.proc d').currentThread = some u →
      d = d' := by
  refine one_owner_of_change (c := c) hi.inj ?_ ?_
  · intro d hd u hdu
    rw [h.other d hd] at hdu
    exact hdu
  · intro d hd u hdu hcu
    rw [h.self] at hcu
    cases hcu
    exact hfresh d hd hdu

end GoesOn

theorem goesOn_switched (f t : Nat) (rest : List Nat) : GoesOn c t s (switched c f t rest s) :=
  ⟨by simp [switched], fun d hd => by simp [switched, hd], rfl⟩

theorem switched_tib_from (f t : Nat) (rest : List Nat) :
    (switched c f t rest s).tib f = ⟨THREAD_READY, false⟩ :=
  Function.update_self f _ _

theorem switched_tib_to {f t : Nat} (rest : List Nat) (hne : t ≠ f) :
    (switched c f t rest s).tib t = ⟨THREAD_RUNNING, true⟩ := by
  show Function.update (Function.update s.tib t _) f _ t = _
  rw [Function.update_of_ne hne, Function.update_self]

theorem switched_tib_of_ne {f t u : Nat} (rest : List Nat) (ht : u ≠ t) (hf : u ≠ f) :
    (switched c f t rest s).tib u = s.tib u := by
  show Function.update (Function.update s.tib t _) f _ u = _
  rw [Function.update_of_ne hf, Function.update_of_ne ht]

/-- **A switch keeps the invariant**: the thread that was first on the queue and the current thread
change places. -/
theorem Inv.switch {f t : Nat} {rest : List Nat} (hi : Inv s) (hl : s.readyList = t :: rest)
    (hf : (s.proc c).currentThread = some f) : Inv (switched c f t rest s) := by
  have htmem : t ∈ s.readyList := by simp [hl]
  have hne : t ≠ f := hi.ne_current htmem hf
  have hnodup := hi.nodup
  rw [hl, List.nodup_cons] at hnodup
  have hfrest : f ∉ rest := fun h => hi.ne_current (by simp [hl, h]) hf rfl
  have hother : ∀ d u, d ≠ c → (s.proc d).currentThread = some u → u ≠ t ∧ u ≠ f := by
    intro d u hd hu
    refine ⟨(hi.ne_current htmem hu).symm, ?_⟩
    rintro rfl
    exact hd (hi.inj d c u hu hf)
  have hgoes := goesOn_switched (c := c) (s := s) f t rest
  refine ⟨hgoes.boot hi, hgoes.yield hi, ?_, ?_, ?_, ?_, ?_⟩
  · refine hgoes.forall_current ⟨(hi.ready t htmem).1, switched_tib_to rest hne⟩ fun d u hd hu => ?_
    obtain ⟨hut, huf⟩ := hother d u hd hu
    rw [switched_tib_of_ne rest hut huf]
    exact hi.running d u hu
  · exact hgoes.inj hi fun d hd hu => (hother d t hd hu).1 rfl
  · intro u hu
    rcases List.mem_append.mp hu with hu | hu
    · have hut : u ≠ t := fun h => hnodup.1 (h ▸ hu)
      have huf : u ≠ f := fun h => hfrest (h ▸ hu)
      rw [switched_tib_of_ne rest hut huf]
      exact hi.ready u (by simp [hl, hu])
    · rw [List.mem_singleton.mp hu]
      exact ⟨(hi.running c f hf).1, switched_tib_from f t rest⟩
  · refine List.nodup_append.2 ⟨hnodup.2, List.nodup_singleton f, ?_⟩
    intro u hu v hv huv
    rw [huv, List.mem_singleton.mp hv] at hu
    exact hfrest hu
  · intro u hu
    rcases hi.cover u hu with hready | ⟨d, hd⟩
    · rw [hl] at hready
      rcases List.mem_cons.mp hready with rfl | hrest
      · exact Or.inr ⟨c, hgoes.self⟩
      · exact Or.inl (List.mem_append_left _ hrest)
    · by_cases hdc : d = c
      · subst hdc
        rw [hf] at hd
        cases hd
        exact Or.inl (List.mem_append_right _ (List.mem_singleton_self f))
      · exact Or.inr ⟨d, (hgoes.other d hdc).trans hd⟩

/-- The state after the critical section of `scheduler_init` on processor `c`. -/
def entered (c : Fin n) (s : Sched n) : Sched n :=
  { s with
    tib := Function.update s.tib s.threads ⟨THREAD_RUNNING, true⟩
    proc := Function.update s.proc c ⟨some s.threads, false⟩
    threads := s.threads + 1
    place := Function.update s.place c .thread }

theorem schedulerInit_eq : s.schedulerInit c = .ok (entered c s) := by
  simp only [schedulerInit, setCurrentThread, schedulerLeave, setInScheduler, goto, entered,
    Function.update_self, Function.update_idem]

theorem goesOn_entered : GoesOn c s.threads s (entered c s) :=
  ⟨by simp [entered], fun d hd => by simp [entered, hd], rfl⟩

theorem Inv.enter (hi : Inv s) (hc : s.place c = .boot) : Inv (entered c s) := by
  have hnone := (hi.boot c).2 hc
  have hgoes := goesOn_entered (c := c) (s := s)
  have htib : ∀ u, u < s.threads → (entered c s).tib u = s.tib u := by
    intro u hu
    exact Function.update_of_ne (by omega) _ _
  refine ⟨hgoes.boot hi, hgoes.yield hi, ?_, ?_, ?_, hi.nodup, ?_⟩
  · refine hgoes.forall_current ⟨Nat.lt_succ_self _, Function.update_self _ _ _⟩ fun d u _ hu => ?_
    obtain ⟨hlt, hrun⟩ := hi.running d u hu
    exact ⟨Nat.lt_succ_of_lt hlt, by rw [htib u hlt, hrun]⟩
  · -- the new thread was not there before
    exact hgoes.inj hi fun d _ hu => absurd (hi.running d _ hu).1 (Nat.lt_irrefl _)
  · intro u hu
    obtain ⟨hlt, hready⟩ := hi.ready u hu
    exact ⟨Nat.lt_succ_of_lt hlt, by rw [htib u hlt, hready]⟩
  · intro u hu
    rcases Nat.lt_succ_iff_lt_or_eq.1 hu with hlt | rfl
    · rcases hi.cover u hlt with hready | ⟨d, hd⟩
      · exact Or.inl hready
      · have hdc : d ≠ c := by
          rintro rfl
          rw [hnone] at hd
          cases hd
        exact Or.inr ⟨d, (hgoes.other d hdc).trans hd⟩
    · exact Or.inr ⟨c, hgoes.self⟩

theorem Inv.yieldEnter (hi : Inv s) (hc : s.place c = .thread) :
    ∃ s', s.schedulerYieldEnter c = .ok s' ∧ Inv s' := by
  obtain ⟨f, hf⟩ := hi.exists_current (c := c) (by simp [hc])
  have hrun := (hi.running c f hf).2
  unfold schedulerYieldEnter
  rw [hf]
  refine ⟨_, rfl, hi.move (c := c) ?_ rfl rfl ?_ ?_ (by simp [hc]) ?_ ?_⟩
  · -- the assignment in the assertion stores the value that is there
    show Function.update s.tib f _ = s.tib
    rw [hrun, ← hrun, Function.update_eq_self]
  · intro d
    by_cases hd : d = c
    · subst hd
      simp [setInScheduler, goto]
    · simp [setInScheduler, goto, hd]
  · intro d hd
    simp [setInScheduler, goto, hd]
  · simp [setInScheduler, goto]
  · intro t ht
    have ht : f = t := by simpa [setInScheduler, goto] using ht
    rw [← ht]
    exact hf

theorem Inv.asyncEnter (hi : Inv s) (hc : s.place c = .thread) :
    ∃ s', s.schedulerAsyncEnter c = .ok s' ∧ Inv s' := by
  unfold schedulerAsyncEnter
  split_ifs
  · exact ⟨s, rfl, hi⟩
  · refine ⟨_, rfl, hi.move (c := c) rfl rfl rfl (fun _ => rfl) ?_ (by simp [hc]) ?_ ?_⟩
    · intro d hd
      simp [goto, hd]
    · simp [goto]
    · intro t ht
      simp [goto] at ht

/-- **Every step keeps the invariant, and none of its assertions fails.** -/
theorem Inv.exec (hi : Inv s) {a : Action} (ha : Enabled a c s) :
    ∃ s', s.exec a c = .ok s' ∧ Inv s' := by
  cases a with
  | init => exact ⟨_, schedulerInit_eq, hi.enter ha⟩
  | yieldEnter => exact hi.yieldEnter ha
  | yieldSection =>
      obtain ⟨f, hplace⟩ := ha
      have hf := hi.yield c f hplace
      simp only [Sched.exec, hplace]
      cases hl : s.readyList with
      | nil => exact ⟨_, schedulerYield_nil f hl, hi.leave (by simp [hplace])⟩
      | cons t rest => exact ⟨_, schedulerYield_cons hi hl hf, hi.switch hl hf⟩
  | asyncEnter => exact hi.asyncEnter ha
  | asyncSection =>
      have hplace : s.place c = .interrupt := ha
      obtain ⟨f, hf⟩ := hi.exists_current (c := c) (by simp [hplace])
      cases hl : s.readyList with
      | nil => exact ⟨_, schedulerAsync_nil hl, hi.leave (by simp [hplace])⟩
      | cons t rest => exact ⟨_, schedulerAsync_cons hi hl hf, hi.switch hl hf⟩

theorem inv_reachable (hr : Reachable s) : Inv s := by
  refine hr.invariant (I := Inv) ?_ ?_
  · rintro s rfl
    exact inv_boot
  · rintro a s s' hi ⟨ha, hexec⟩
    obtain ⟨s1, hok, hi1⟩ := hi.exec ha
    rw [hok] at hexec
    cases hexec
    exact hi1

/-- **Thread conservation.** In every state that any number of processors reach by any interleaving
of their critical sections, every thread that was created is conserved, and no assertion fails in a
step that a processor makes next. -/
theorem threads_conserved (hr : Reachable s) :
    (∀ t, t < s.threads → Conserved s t) ∧
      ∀ a c, Enabled a c s → ∃ s', s.exec a c = .ok s' := by
  have hi := inv_reachable hr
  refine ⟨fun t ht => hi.conserved ht, fun a c ha => ?_⟩
  obtain ⟨s', hok, -⟩ := hi.exec ha
  exact ⟨s', hok⟩

/-- Two processors enter their idle threads, and a timer interrupt on the first one gives it the
test thread. -/
theorem threads_conserved_two :
    ∃ s : Sched 2, Reachable s ∧ s.readyList = [1] ∧ (s.proc 0).currentThread = some 0 ∧
      ∀ t, t < 3 → Conserved s t := by
  have h1 : Reachable (entered 0 (boot 2)) := .next (.init, 0) (.start rfl) ⟨rfl, schedulerInit_eq⟩
  have h2 : Reachable (entered 1 (entered 0 (boot 2))) :=
    .next (.init, 1) h1 ⟨rfl, schedulerInit_eq⟩
  have h3 : Reachable ((entered 1 (entered 0 (boot 2))).goto 0 .interrupt) :=
    .next (.asyncEnter, 0) h2 ⟨rfl, rfl⟩
  have h4 : Reachable
      (switched 0 1 0 [] ((entered 1 (entered 0 (boot 2))).goto 0 .interrupt)) := by
    refine .next (.asyncSection, 0) h3 ⟨rfl, ?_⟩
    exact schedulerAsync_cons (c := 0) (f := 1) (t := 0) (inv_reachable h3) rfl rfl
  exact ⟨_, h4, rfl, rfl, (threads_conserved h4).1⟩

end Sched

end NowOS

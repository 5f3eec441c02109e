import NowOS.Sched.Interleaving

set_option autoImplicit false

/-! # Critical sections are atomic

`Sched` takes a whole critical section as one step. Here it is shown that this is right: in every
state that the processors reach by single accesses, the processor that has `sched_lock`, if there is
one, gets to its `spin_unlock` on its own, and the data is then in a state that `Sched` reaches.

The section counts as made when the lock is taken, and what a processor does outside the lock
commutes with the rest of the section of another one, since it only touches its own `processor_t`
and its own place (`next_atPlace`). -/

namespace NowOS

namespace FineSched

open ThreadState

variable {n : Nat} {f g : FineSched n} {c d : Fin n} {pr : Processor} {pl : Place}
  {p : SchedPoint}

/-! ## Processors that do not touch what another one works on -/

/-- The data with another `processor_t` and another place of processor `c`. -/
def elsewhere (c : Fin n) (pr : Processor) (pl : Place) (s : Sched n) : Sched n :=
  { s with
    proc := Function.update s.proc c pr
    place := Function.update s.place c pl }

/-- Processor `c` is at another point, with such data. -/
def atPlace (f : FineSched n) (c : Fin n) (pr : Processor) (pl : Place) (p : SchedPoint) :
    FineSched n :=
  { f with data := elsewhere c pr pl f.data, pc := Function.update f.pc c p }

theorem go_eq_atPlace (f : FineSched n) (c : Fin n) (p : SchedPoint) :
    f.go c p f.data = f.atPlace c (f.data.proc c) (f.data.place c) p := by
  simp [go, atPlace, elsewhere]

theorem atPlace_self (f : FineSched n) (c : Fin n) :
    f.atPlace c (f.data.proc c) (f.data.place c) (f.pc c) = f := by
  simp [atPlace, elsewhere]

section Elsewhere

variable (hd : d ≠ c) (s : Sched n)

include hd

theorem proc_elsewhere : (elsewhere c pr pl s).proc d = s.proc d := Function.update_of_ne hd _ _

theorem setInScheduler_elsewhere (v : Bool) :
    (elsewhere c pr pl s).setInScheduler d v = elsewhere c pr pl (s.setInScheduler d v) := by
  unfold Sched.setInScheduler
  rw [proc_elsewhere hd]
  simp only [elsewhere]
  rw [Function.update_comm hd]

theorem setCurrentThread_elsewhere (t : Nat) :
    (elsewhere c pr pl s).setCurrentThread d t = elsewhere c pr pl (s.setCurrentThread d t) := by
  unfold Sched.setCurrentThread
  rw [proc_elsewhere hd]
  simp only [elsewhere]
  rw [Function.update_comm hd]

theorem goto_elsewhere (q : Place) :
    (elsewhere c pr pl s).goto d q = elsewhere c pr pl (s.goto d q) := by
  simp only [elsewhere, Sched.goto]
  rw [Function.update_comm hd]

theorem go_atPlace (q : SchedPoint) :
    (f.atPlace c pr pl p).go d q (elsewhere c pr pl s) = (f.go d q s).atPlace c pr pl p := by
  simp only [go, atPlace]
  rw [Function.update_comm hd]

end Elsewhere

/-- What processor `d` does next does not depend on where another processor is, and leaves it
there. -/
theorem next_atPlace (hd : d ≠ c) :
    (f.atPlace c pr pl p).next d = (f.next d).map fun g => g.atPlace c pr pl p := by
  have hpc : (f.atPlace c pr pl p).pc d = f.pc d := Function.update_of_ne hd _ _
  have hproc : (f.atPlace c pr pl p).data.proc d = f.data.proc d := proc_elsewhere hd f.data
  have hgo : ∀ q s, Except.ok (ε := String) ((f.atPlace c pr pl p).go d q (elsewhere c pr pl s)) =
      (Except.ok (f.go d q s)).map fun g => g.atPlace c pr pl p :=
    fun q s => congrArg Except.ok (go_atPlace hd s q)
  have hspin : ∀ q r, Except.ok (ε := String) ((f.atPlace c pr pl p).spinExchange d q r) =
      (Except.ok (f.spinExchange d q r)).map fun g => g.atPlace c pr pl p := by
    intro q r
    have hgo' : ∀ u, (f.atPlace c pr pl p).go d u (elsewhere c pr pl f.data) =
        (f.go d u f.data).atPlace c pr pl p := go_atPlace hd f.data
    exact congrArg (fun g : FineSched n => Except.ok { g with word := LOCK_BUSY }) (hgo' _)
  have hwatch : ∀ q, Except.ok (ε := String) ((f.atPlace c pr pl p).spinWatch d q) =
      (Except.ok (f.spinWatch d q)).map fun g => g.atPlace c pr pl p := by
    intro q
    unfold spinWatch
    by_cases hword : f.word = LOCK_BUSY
    · rw [if_pos hword, if_pos (show (f.atPlace c pr pl p).word = LOCK_BUSY from hword)]
      rfl
    · rw [if_neg hword, if_neg (show (f.atPlace c pr pl p).word ≠ LOCK_BUSY from hword)]
      exact hgo q f.data
  unfold next
  rw [hpc]
  cases f.pc d with
  | thread => rfl
  | yieldState t => exact hgo (.yieldFlag t) (setState t THREAD_RUNNING f.data)
  | yieldFlag t =>
      have h := hgo (.lock (.yield t)) ((f.data.setInScheduler d true).goto d (.yield t))
      rw [← goto_elsewhere hd, ← setInScheduler_elsewhere hd] at h
      exact h
  | lock k => exact hspin _ _
  | watch k => exact hwatch _
  | initLock => exact hspin _ _
  | initWatch => exact hwatch _
  | pop k =>
      have hlist : (f.atPlace c pr pl p).data.readyList = f.data.readyList := rfl
      dsimp only
      rw [hlist]
      cases f.data.readyList with
      | nil => exact hgo .leaveFlag f.data
      | cons t rest => exact hgo (.pullState k t) { f.data with readyList := rest }
  | pullState k t =>
      have htib : (f.atPlace c pr pl p).data.tib t = f.data.tib t := rfl
      dsimp only
      rw [htib]
      split_ifs
      · rfl
      · rfl
      · exact hgo (.pullActive k t) (setState t THREAD_RUNNING f.data)
  | pullActive k t => exact hgo (.current k t) (setActive t true f.data)
  | current k t =>
      have hset : ∀ q, Except.ok (ε := String)
          ((f.atPlace c pr pl p).go d q ((f.atPlace c pr pl p).data.setCurrentThread d t)) =
          (Except.ok (f.go d q (f.data.setCurrentThread d t))).map fun g =>
            g.atPlace c pr pl p := by
        intro q
        rw [← hgo, ← setCurrentThread_elsewhere hd]
        rfl
      cases k with
      | yield y =>
          dsimp only
          split_ifs
          · rfl
          · exact hset _
      | async =>
          dsimp only
          rw [hproc]
          cases (f.data.proc d).currentThread with
          | none => rfl
          | some y => exact hset _
  | queueFlag y t =>
      have h := hgo (.pushActive (.yield y) y t) (f.data.setInScheduler d false)
      rw [← setInScheduler_elsewhere hd] at h
      exact h
  | pushActive k y t =>
      have htib : (f.atPlace c pr pl p).data.tib y = f.data.tib y := rfl
      cases k with
      | yield y' =>
          dsimp only
          rw [htib]
          split_ifs
          · rfl
          · exact hgo (.pushState (.yield y') y t) (setActive y false f.data)
          · rfl
      | async => exact hgo (.pushState .async y t) (setActive y false f.data)
  | pushState k y t => exact hgo (.enqueue k y t) (setState y THREAD_READY f.data)
  | enqueue k y t =>
      cases k with
      | yield y' => exact hgo .unlock { f.data with readyList := f.data.readyList ++ [y] }
      | async =>
          dsimp only
          split_ifs
          · rfl
          · exact hgo .leaveFlag { f.data with readyList := f.data.readyList ++ [y] }
  | create =>
      exact hgo (.initState f.data.threads)
        { f.data with
          threads := f.data.threads + 1
          tib := Function.update f.data.tib f.data.threads ⟨THREAD_READY, false⟩ }
  | initState t => exact hgo (.initActive t) (setState t THREAD_RUNNING f.data)
  | initActive t => exact hgo (.initCurrent t) (setActive t true f.data)
  | initCurrent t =>
      have h := hgo (.enterState t) (f.data.setCurrentThread d t)
      rw [← setCurrentThread_elsewhere hd] at h
      exact h
  | enterState t => exact hgo .leaveFlag (setState t THREAD_RUNNING f.data)
  | leaveFlag =>
      have h := hgo .unlock (f.data.setInScheduler d false)
      rw [← setInScheduler_elsewhere hd] at h
      exact h
  | unlock =>
      have h : (f.atPlace c pr pl p).go d .thread (elsewhere c pr pl (f.data.goto d .thread)) =
          (f.go d .thread (f.data.goto d .thread)).atPlace c pr pl p := go_atPlace hd _ .thread
      rw [← goto_elsewhere hd] at h
      exact congrArg (fun g : FineSched n => Except.ok { g with word := LOCK_FREE }) h

/-! ## A processor on its own -/

/-- Processor `c` makes its next `k` accesses, and no other processor makes one. -/
def solo (c : Fin n) : Nat → FineSched n → Except String (FineSched n)
  | 0, f => .ok f
  | k + 1, f => (f.next c).bind (solo c k)

theorem solo_atPlace (hd : d ≠ c) {k : Nat} (h : f.solo d k = .ok g) :
    (f.atPlace c pr pl p).solo d k = .ok (g.atPlace c pr pl p) := by
  induction k generalizing f with
  | zero =>
      cases h
      rfl
  | succ k ih =>
      unfold solo at h ⊢
      rw [next_atPlace hd]
      cases hnext : f.next d with
      | error e =>
          rw [hnext] at h
          cases h
      | ok f1 =>
          rw [hnext] at h
          exact ih h

/-- The frame of a run of processor `d`: another one stays as it is. -/
theorem solo_other (hd : d ≠ c) {k : Nat} (h : f.solo d k = .ok g) :
    g.pc c = f.pc c ∧ g.data.proc c = f.data.proc c ∧ g.data.place c = f.data.place c := by
  -- putting the other processor where it is already changes nothing at the end of the run either
  have hself : (f.atPlace c (f.data.proc c) (f.data.place c) (f.pc c)).solo d k =
      .ok (g.atPlace c (f.data.proc c) (f.data.place c) (f.pc c)) := solo_atPlace hd h
  rw [atPlace_self, h] at hself
  have hg := Except.ok.inj hself
  rw [hg]
  simp [atPlace, elsewhere]

/-- A processor that has left its critical section stays where it is on its own. -/
theorem solo_thread (hpc : f.pc c = .thread) (k : Nat) : f.solo c k = .ok f := by
  have hnext : f.next c = .ok f := by
    unfold next
    rw [hpc]
  induction k with
  | zero => rfl
  | succ k ih =>
      unfold solo
      rw [hnext]
      exact ih

/-- The processor that has the lock keeps it until it goes on with the code of its thread. -/
theorem inside_or_thread (hin : (f.pc c).inside = true) (hnext : f.next c = .ok g) :
    (g.pc c).inside = true ∨ g.pc c = .thread := by
  have hgo : ∀ {p : SchedPoint} {s : Sched n}, p.inside = true →
      Except.ok (ε := String) (f.go c p s) = .ok g →
      (g.pc c).inside = true := by
    rintro p s hp ⟨rfl⟩
    rw [pc_go_self, hp]
  unfold next at hnext
  cases hpc : f.pc c with
  | thread | yieldState t | yieldFlag t | lock k | watch k | initLock | initWatch =>
      rw [hpc] at hin
      cases hin
  | pop k =>
      rw [hpc] at hnext
      dsimp only at hnext
      split at hnext
      · exact .inl (hgo rfl hnext)
      · exact .inl (hgo rfl hnext)
  | pullState k t =>
      rw [hpc] at hnext
      dsimp only at hnext
      split_ifs at hnext
      exact .inl (hgo rfl hnext)
  | current k t =>
      rw [hpc] at hnext
      cases k with
      | yield y =>
          dsimp only at hnext
          split_ifs at hnext
          exact .inl (hgo rfl hnext)
      | async =>
          dsimp only at hnext
          split at hnext
          · cases hnext
          · exact .inl (hgo rfl hnext)
  | pushActive k y t =>
      rw [hpc] at hnext
      cases k with
      | yield y' =>
          dsimp only at hnext
          split_ifs at hnext
          exact .inl (hgo rfl hnext)
      | async => exact .inl (hgo rfl hnext)
  | enqueue k y t =>
      rw [hpc] at hnext
      cases k with
      | yield y' => exact .inl (hgo rfl hnext)
      | async =>
          dsimp only at hnext
          split_ifs at hnext
          exact .inl (hgo rfl hnext)
  | pullActive k t | queueFlag y t | pushState k y t | create | initState t | initActive t
  | initCurrent t | enterState t | leaveFlag =>
      rw [hpc] at hnext
      exact .inl (hgo rfl hnext)
  | unlock =>
      rw [hpc] at hnext
      cases hnext
      exact .inr (Function.update_self _ _ _)

/-! ## The critical sections -/

/-- Processor `c` after its critical section. -/
def done (f : FineSched n) (c : Fin n) (s : Sched n) : FineSched n :=
  { f.go c .thread s with word := LOCK_FREE }

theorem solo_pop_nil {k : SchedCaller} (hpc : f.pc c = .pop k) (hl : f.data.readyList = []) :
    f.solo c 3 = .ok (f.done c (f.data.schedulerLeave c)) := by
  simp [solo, next, Except.bind, hpc, hl, go, done, Sched.schedulerLeave]

theorem solo_yield_cons {y t : Nat} {rest : List Nat} (hi : Sched.Inv f.data)
    (hpc : f.pc c = .pop (.yield y)) (hl : f.data.readyList = t :: rest)
    (hy : (f.data.proc c).currentThread = some y) :
    f.solo c 9 = .ok (f.done c (Sched.switched c y t rest f.data)) := by
  have hne : t ≠ y := hi.ne_current (by simp [hl]) hy
  have ht := (hi.ready t (by simp [hl])).2
  have hrun := (hi.running c y hy).2
  simp [solo, next, Except.bind, hpc, hl, go, done, setState, setActive, ht, hrun, hne, Ne.symm hne,
    Sched.switched, Sched.setCurrentThread, Sched.setInScheduler, Sched.goto]

theorem solo_async_cons {y t : Nat} {rest : List Nat} (hi : Sched.Inv f.data)
    (hpc : f.pc c = .pop .async) (hl : f.data.readyList = t :: rest)
    (hy : (f.data.proc c).currentThread = some y) :
    f.solo c 9 = .ok (f.done c (Sched.switched c y t rest f.data)) := by
  have hne : t ≠ y := hi.ne_current (by simp [hl]) hy
  have ht := (hi.ready t (by simp [hl])).2
  have hrun := (hi.running c y hy).2
  simp [solo, next, Except.bind, hpc, hl, go, done, setState, setActive, ht, hrun, hy, Ne.symm hne,
    Sched.switched, Sched.setCurrentThread, Sched.setInScheduler, Sched.goto]

theorem solo_create (hpc : f.pc c = .create) :
    f.solo c 7 = .ok (f.done c (Sched.entered c f.data)) := by
  simp [solo, next, Except.bind, hpc, go, done, setState, setActive, Sched.entered,
    Sched.setCurrentThread, Sched.setInScheduler, Sched.goto]

/-! ## Between critical sections -/

/-- Which place of `Sched` a point outside the lock is. -/
def outsidePlace : SchedPoint → Option Place
  | .thread | .yieldState _ | .yieldFlag _ => some .thread
  | .lock (.yield y) | .watch (.yield y) => some (.yield y)
  | .lock .async | .watch .async => some .interrupt
  | .initLock | .initWatch => some .boot
  | _ => none

/-- The section that a processor at `spin_lock` is about to make, and its first access. -/
def Entry (p q : SchedPoint) (a : Sched.Action) : Prop :=
  (∃ y, p = .lock (.yield y) ∧ q = .pop (.yield y) ∧ a = .yieldSection) ∨
    (p = .lock .async ∧ q = .pop .async ∧ a = .asyncSection) ∨
    (p = .initLock ∧ q = .create ∧ a = .init)

/-- The lock is free, and the data is in a state that whole critical sections lead to. -/
structure Settled (f : FineSched n) : Prop where
  word : f.word = LOCK_FREE
  reachable : Sched.Reachable f.data
  place : ∀ c, outsidePlace (f.pc c) = some (f.data.place c)

theorem settled_start : Settled (start n) := ⟨rfl, .start rfl, fun _ => rfl⟩

theorem Settled.inside_eq_false (h : Settled f) (c : Fin n) : (f.pc c).inside = false := by
  have hplace := h.place c
  cases hpc : f.pc c <;> rw [hpc] at hplace <;> first | rfl | cases hplace

/-- A whole critical section of processor `c`. -/
theorem Settled.done {a : Sched.Action} {s : Sched n} (h : Settled f)
    (hstep : Sched.Step (a, c) f.data s) (hs : s.place = Function.update f.data.place c .thread) :
    Settled (f.done c s) where
  word := rfl
  reachable := h.reachable.next (a, c) hstep
  place := by
    intro d
    show outsidePlace (Function.update f.pc c .thread d) = some (s.place d)
    rw [hs]
    by_cases hd : d = c
    · subst hd
      rw [Function.update_self, Function.update_self]
      rfl
    · rw [Function.update_of_ne hd, Function.update_of_ne hd]
      exact h.place d

/-- A processor that has just taken the lock gets to its `spin_unlock` on its own, and what it does
is the step of `Sched`. -/
theorem Settled.section {p q : SchedPoint} {a : Sched.Action} (h : Settled f) (hpc : f.pc c = p)
    (hentry : Entry p q a) :
    ∃ k g, ({ f.go c q f.data with word := LOCK_BUSY } : FineSched n).solo c k = .ok g ∧
      Settled g := by
  have hi := Sched.inv_reachable h.reachable
  have hplace := h.place c
  rw [hpc] at hplace
  set f1 : FineSched n := { f.go c q f.data with word := LOCK_BUSY } with hf1
  have hpc1 : f1.pc c = q := pc_go_self (s := f.data)
  have hdone : ∀ s, f1.done c s = f.done c s := by
    intro s
    simp [hf1, FineSched.done, go]
  have hend : ∀ {k s}, f1.solo c k = .ok (f1.done c s) → Sched.Step (a, c) f.data s →
      s.place = Function.update f.data.place c .thread →
      ∃ k g, f1.solo c k = .ok g ∧ Settled g := by
    intro k s hsolo hstep hs
    exact ⟨k, _, hsolo, hdone s ▸ h.done hstep hs⟩
  rcases hentry with ⟨y, rfl, rfl, rfl⟩ | ⟨rfl, rfl, rfl⟩ | ⟨rfl, rfl, rfl⟩
  · have hplace : f.data.place c = .yield y := (Option.some.inj hplace).symm
    have hy := hi.yield c y hplace
    have hexec : ∀ s, f.data.schedulerYield c y = .ok s →
        Sched.Step (.yieldSection, c) f.data s := by
      intro s hs
      refine ⟨⟨y, hplace⟩, ?_⟩
      simp only [Sched.exec, hplace]
      exact hs
    cases hl : f.data.readyList with
    | nil => exact hend (solo_pop_nil hpc1 hl) (hexec _ (Sched.schedulerYield_nil y hl)) rfl
    | cons t rest =>
        exact hend (solo_yield_cons hi hpc1 hl hy)
          (hexec _ (Sched.schedulerYield_cons hi hl hy)) rfl
  · have hplace : f.data.place c = .interrupt := (Option.some.inj hplace).symm
    obtain ⟨y, hy⟩ := hi.exists_current (c := c) (by simp [hplace])
    cases hl : f.data.readyList with
    | nil => exact hend (solo_pop_nil hpc1 hl) ⟨hplace, Sched.schedulerAsync_nil hl⟩ rfl
    | cons t rest =>
        exact hend (solo_async_cons hi hpc1 hl hy) ⟨hplace, Sched.schedulerAsync_cons hi hl hy⟩ rfl
  · have hplace : f.data.place c = .boot := (Option.some.inj hplace).symm
    exact hend (solo_create hpc1) ⟨hplace, Sched.schedulerInit_eq⟩ rfl

/-- What a processor does outside the lock: to its point, its `processor_t` and its place. -/
inductive OuterMove : SchedPoint → Processor → Place → SchedPoint → Processor → Place → Prop
  | stay (p : SchedPoint) (pr : Processor) (pl : Place) : OuterMove p pr pl p pr pl
  | yieldCall {pr : Processor} {t : Nat} (pl : Place) (h : pr.currentThread = some t) :
      OuterMove .thread pr pl (.yieldState t) pr pl
  | yieldState (t : Nat) (pr : Processor) (pl : Place) :
      OuterMove (.yieldState t) pr pl (.yieldFlag t) pr pl
  | yieldFlag (t : Nat) (pr : Processor) (pl : Place) :
      OuterMove (.yieldFlag t) pr pl (.lock (.yield t)) { pr with inScheduler := true } (.yield t)
  | tick {pr : Processor} (pl : Place) (h : pr.inScheduler = false) :
      OuterMove .thread pr pl (.lock .async) pr .interrupt
  | spin (k : SchedCaller) (pr : Processor) (pl : Place) :
      OuterMove (.lock k) pr pl (.watch k) pr pl
  | retry (k : SchedCaller) (pr : Processor) (pl : Place) :
      OuterMove (.watch k) pr pl (.lock k) pr pl
  | initSpin (pr : Processor) (pl : Place) : OuterMove .initLock pr pl .initWatch pr pl
  | initRetry (pr : Processor) (pl : Place) : OuterMove .initWatch pr pl .initLock pr pl

/-- A step outside the lock between two critical sections. -/
theorem Settled.outer (h : Settled g)
    (hmove : OuterMove (g.pc c) (g.data.proc c) (g.data.place c) p pr pl)
    (hknown : ∀ t, (g.pc c).known = some t → (g.data.proc c).currentThread = some t) :
    Settled (g.atPlace c pr pl p) := by
  have hplace := h.place c
  have hmk : ∀ {p : SchedPoint} {pr : Processor} {pl : Place},
      Sched.Reachable (elsewhere c pr pl g.data) → outsidePlace p = some pl →
      Settled (g.atPlace c pr pl p) := by
    intro p pr pl hr hp
    refine ⟨h.word, hr, fun d => ?_⟩
    simp only [atPlace, elsewhere]
    by_cases hd : d = c
    · subst hd
      rw [Function.update_self, Function.update_self]
      exact hp
    · rw [Function.update_of_ne hd, Function.update_of_ne hd]
      exact h.place d
  have hsame : Sched.Reachable (elsewhere c (g.data.proc c) (g.data.place c) g.data) := by
    simpa [elsewhere] using h.reachable
  generalize hp0 : g.pc c = p0 at hmove hplace hknown
  generalize hpr0 : g.data.proc c = pr0 at hmove hknown hsame
  generalize hpl0 : g.data.place c = pl0 at hmove hplace hsame
  cases hmove with
  | stay => exact hmk hsame hplace
  | yieldCall => exact hmk hsame hplace
  | yieldState t => exact hmk hsame hplace
  | spin k =>
      cases k <;> exact hmk hsame hplace
  | retry k =>
      cases k <;> exact hmk hsame hplace
  | initSpin => exact hmk hsame hplace
  | initRetry => exact hmk hsame hplace
  | yieldFlag t =>
      refine hmk (h.reachable.next (.yieldEnter, c) ⟨?_, ?_⟩) rfl
      · exact hpl0.trans (Option.some.inj hplace).symm
      · have hcur : (g.data.proc c).currentThread = some t := hpr0 ▸ hknown t rfl
        have hrun := ((Sched.inv_reachable h.reachable).running c t hcur).2
        have htib : Function.update g.data.tib t { g.data.tib t with state := THREAD_RUNNING } =
            g.data.tib := by
          rw [hrun, ← hrun, Function.update_eq_self]
        simp only [Sched.exec, Sched.schedulerYieldEnter, hcur]
        rw [htib, ← hpr0]
        rfl
  | tick pl hflag =>
      refine hmk (h.reachable.next (.asyncEnter, c) ⟨?_, ?_⟩) rfl
      · exact hpl0.trans (Option.some.inj hplace).symm
      · rw [← hpr0] at hflag
        simp only [Sched.exec, Sched.schedulerAsyncEnter, hflag]
        simp [elsewhere, Sched.goto, ← hpr0]

/-- Processor `c` makes a move outside the lock. -/
def Moves (c : Fin n) (f f' : FineSched n) : Prop :=
  ∃ p pr pl, OuterMove (f.pc c) (f.data.proc c) (f.data.place c) p pr pl ∧
    f' = f.atPlace c pr pl p

/-- Processor `c` takes the lock. -/
def Takes (c : Fin n) (f f' : FineSched n) : Prop :=
  f.word = LOCK_FREE ∧
    ∃ q a, Entry (f.pc c) q a ∧ f' = { f.go c q f.data with word := LOCK_BUSY }

theorem moves_self : Moves c f f := ⟨_, _, _, .stay _ _ _, (atPlace_self f c).symm⟩

theorem moves_go
    (h : OuterMove (f.pc c) (f.data.proc c) (f.data.place c) p (f.data.proc c) (f.data.place c)) :
    Moves c f (f.go c p f.data) :=
  ⟨p, _, _, h, go_eq_atPlace f c p⟩

theorem moves_spinWatch
    (h : OuterMove (f.pc c) (f.data.proc c) (f.data.place c) p (f.data.proc c) (f.data.place c)) :
    Moves c f (f.spinWatch c p) := by
  unfold spinWatch
  split
  · exact moves_self
  · exact moves_go h

/-- An attempt to take the lock. -/
theorem moves_or_takes {q : SchedPoint} {a : Sched.Action} (hi : FineInv f)
    (hentry : Entry (f.pc c) q a)
    (h : OuterMove (f.pc c) (f.data.proc c) (f.data.place c) p (f.data.proc c) (f.data.place c)) :
    Moves c f (f.spinExchange c q p) ∨ Takes c f (f.spinExchange c q p) := by
  unfold spinExchange
  by_cases hword : f.word = LOCK_FREE
  · rw [if_pos hword]
    exact .inr ⟨hword, q, a, hentry, rfl⟩
  · rw [if_neg hword, ← hi.word.resolve_left hword]
    exact .inl (moves_go h)

/-- What a step of a processor outside the lock is. -/
theorem step_outside {e : Event} {f' : FineSched n} (h : FineInv f) (hs : Step (c, e) f f')
    (hout : (f.pc c).inside = false) : Moves c f f' ∨ Takes c f f' := by
  obtain ⟨hen, hexec⟩ := hs
  have hknown := h.known c
  cases e with
  | yield =>
      have hpc : f.pc c = .thread := hen
      simp only [exec, yieldCall] at hexec
      split at hexec
      next => cases hexec
      next t ht =>
        cases hexec
        refine .inl (moves_go ?_)
        rw [hpc]
        exact .yieldCall _ ht
  | tick =>
      have hpc : f.pc c = .thread := hen
      simp only [exec, tick] at hexec
      split at hexec
      next =>
        cases hexec
        exact .inl moves_self
      next hflag =>
        cases hexec
        refine .inl ⟨.lock .async, f.data.proc c, .interrupt, ?_, ?_⟩
        · rw [hpc]
          exact .tick _ (Bool.eq_false_iff.mpr hflag)
        · simp [go, atPlace, elsewhere, Sched.goto]
  | next =>
      have hexec : f.next c = .ok f' := hexec
      unfold next at hexec
      cases hpc : f.pc c with
      | thread =>
          rw [hpc] at hexec
          cases hexec
          exact .inl moves_self
      | yieldState t =>
          rw [hpc] at hexec hknown
          dsimp only at hexec
          rw [setState_eq_self (h.running (hknown t rfl))] at hexec
          cases hexec
          refine .inl (moves_go ?_)
          rw [hpc]
          exact .yieldState t _ _
      | yieldFlag t =>
          rw [hpc] at hexec
          cases hexec
          refine .inl ⟨_, _, _, ?_, rfl⟩
          rw [hpc]
          exact .yieldFlag t _ _
      | lock k =>
          rw [hpc] at hexec
          cases hexec
          cases k with
          | yield y =>
              refine moves_or_takes h (.inl ⟨y, hpc, rfl, rfl⟩) ?_
              rw [hpc]
              exact .spin _ _ _
          | async =>
              refine moves_or_takes h (.inr (.inl ⟨hpc, rfl, rfl⟩)) ?_
              rw [hpc]
              exact .spin _ _ _
      | watch k =>
          rw [hpc] at hexec
          cases hexec
          refine .inl (moves_spinWatch ?_)
          rw [hpc]
          exact .retry _ _ _
      | initLock =>
          rw [hpc] at hexec
          cases hexec
          refine moves_or_takes h (.inr (.inr ⟨hpc, rfl, rfl⟩)) ?_
          rw [hpc]
          exact .initSpin _ _
      | initWatch =>
          rw [hpc] at hexec
          cases hexec
          refine .inl (moves_spinWatch ?_)
          rw [hpc]
          exact .initRetry _ _
      | _ => simp [hpc, SchedPoint.inside] at hout

/-! ## The refinement -/

/-- The lock is free and the data is in a state of `Sched`; or one processor has the lock, and such
a state is where it gets on its own. -/
def Atomic (f : FineSched n) : Prop :=
  Settled f ∨ ∃ d k g, (f.pc d).inside = true ∧ f.solo d k = .ok g ∧ Settled g

/-- A step of the processor that has the lock. -/
theorem atomic_inner {f' : FineSched n} {k : Nat} (hin : (f.pc d).inside = true)
    (hsolo : f.solo d k = .ok g) (hg : Settled g) (hnext : f.next d = .ok f') : Atomic f' := by
  cases k with
  | zero =>
      cases hsolo
      rw [hg.inside_eq_false d] at hin
      cases hin
  | succ k =>
      have hsolo : f'.solo d k = .ok g := by
        unfold solo at hsolo
        rw [hnext] at hsolo
        exact hsolo
      rcases inside_or_thread hin hnext with hin' | hthread
      · exact .inr ⟨d, k, g, hin', hsolo, hg⟩
      · rw [solo_thread hthread k] at hsolo
        exact .inl (Except.ok.inj hsolo ▸ hg)

theorem Atomic.step {e : Fin n × Event} {f' : FineSched n} (h : FineInv f) (ha : Atomic f)
    (hs : Step e f f') : Atomic f' := by
  obtain ⟨c, e⟩ := e
  rcases ha with hset | ⟨d, k, g, hin, hsolo, hg⟩
  · rcases step_outside h hs (hset.inside_eq_false c) with
      ⟨p, pr, pl, hmove, rfl⟩ | ⟨hword, q, a, hentry, rfl⟩
    · exact .inl (hset.outer hmove (h.known c))
    · obtain ⟨k, g, hsolo, hg⟩ := hset.section rfl hentry
      refine .inr ⟨c, k, g, ?_, hsolo, hg⟩
      have hq : q.inside = true := by
        rcases hentry with ⟨y, -, rfl, -⟩ | ⟨-, rfl, -⟩ | ⟨-, rfl, -⟩ <;> rfl
      show ((f.go c q f.data).pc c).inside = true
      rw [pc_go_self, hq]
  · by_cases hdc : d = c
    · subst hdc
      -- interrupts are off, and the code of threads is outside the lock
      cases e with
      | next => exact atomic_inner hin hsolo hg hs.2
      | yield | tick =>
          have hpc : f.pc d = .thread := hs.1
          rw [hpc] at hin
          cases hin
    · have hout : (f.pc c).inside = false := by
        rw [Bool.eq_false_iff]
        exact fun hc => hdc (h.lock.one d c hin hc)
      obtain ⟨hpc, hproc, hplace⟩ := solo_other hdc hsolo
      rcases step_outside h hs hout with ⟨p, pr, pl, hmove, rfl⟩ | ⟨hword, -⟩
      · refine .inr ⟨d, k, g.atPlace c pr pl p, ?_, solo_atPlace hdc hsolo, ?_⟩
        · show (Function.update f.pc c p d).inside = true
          rw [Function.update_of_ne hdc, hin]
        · refine hg.outer ?_ ?_
          · rw [hpc, hproc, hplace]
            exact hmove
          · rw [hpc, hproc]
            exact h.known c
      · exact absurd hin (h.lock.not_busy (fun hne => hne hword) d)

theorem atomic_reachable (hr : Reachable f) : FineInv f ∧ Atomic f := by
  refine hr.invariant (I := fun f => FineInv f ∧ Atomic f) ?_ ?_
  · rintro f rfl
    exact ⟨fineInv_start, .inl settled_start⟩
  · rintro e f f' ⟨h, ha⟩ hs
    refine ⟨?_, ha.step h hs⟩
    obtain ⟨f1, hok, h1⟩ := h.exec hs.1
    obtain rfl : f1 = f' := Except.ok.inj (hok.symm.trans hs.2)
    exact h1

/-- **Critical sections are atomic.** However the accesses of the processors interleave: as long as
no processor has `sched_lock`, the data is in a state that `Sched` reaches, in which every critical
section is one step; and a processor that has the lock gets to such a state on its own, without a
failed assertion. -/
theorem sections_atomic (hr : Reachable f) :
    ((∀ c, (f.pc c).inside = false) → Sched.Reachable f.data) ∧
      ∀ c, (f.pc c).inside = true → ∃ k g, f.solo c k = .ok g ∧ (∀ d, (g.pc d).inside = false) ∧
        Sched.Reachable g.data := by
  obtain ⟨h, ha⟩ := atomic_reachable hr
  rcases ha with hset | ⟨d, k, g, hin, hsolo, hg⟩
  · refine ⟨fun _ => hset.reachable, fun c hc => ?_⟩
    rw [hset.inside_eq_false c] at hc
    cases hc
  · refine ⟨fun hall => ?_, fun c hc => ?_⟩
    · rw [hall d] at hin
      cases hin
    · rw [h.lock.one c d hc hin]
      exact ⟨k, g, hsolo, hg.inside_eq_false, hg.reachable⟩

/-- In the middle of a switch of the first of two processors, whose idle thread is neither on
`ready_list` nor a current thread. -/
theorem sections_atomic_two :
    ∃ f : FineSched 2, Reachable f ∧ f.pc 0 = .enqueue .async 1 0 ∧ f.data.readyList = [] ∧
      ∃ k g, f.solo 0 k = .ok g ∧ (∀ d, (g.pc d).inside = false) ∧ Sched.Reachable g.data := by
  obtain ⟨f, hr, h0, -, hlist, -⟩ := reachable_switching
  exact ⟨f, hr, h0, hlist, (sections_atomic hr).2 0 (by rw [h0]; rfl)⟩

end FineSched

end NowOS

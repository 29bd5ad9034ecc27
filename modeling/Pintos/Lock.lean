import Pintos.Monitor

/-! # Mutual exclusion: `lock_acquire`, `lock_try_acquire`, `lock_release`

`lock->holder` and the semaphore of the lock change in two separate steps on both sides, so a
thread owns the lock (`owns`) for longer than it is its holder (`holds`).

* `Lock.Change`: what an event can do to the lock.
* `Lock.Inv`: the unit of the semaphore is there, or exactly one thread owns the lock.
* `lock_exclusion`: **mutual exclusion** in every run. -/

namespace Pintos.Monitor

open Function

variable {ι : Type} [DecidableEq ι] {st st' : State ι} {t : ι} {p : Pc ι}

/-- The thread has the unit of the lock's semaphore. -/
def owns : Pc ι → Bool
  | .out | .acquireDown _ | .tryDown | .waitDown | .waitAcquire => false
  | _ => true

/-- The thread is the one in `lock->holder`. -/
def holds : Pc ι → Bool
  | .setHolder _ | .releaseUp _ => false
  | p => owns p

omit [DecidableEq ι] in
theorem owns_of_holds (h : holds p = true) : owns p = true := by
  cases p <;> first | rfl | exact h

omit [DecidableEq ι] in
theorem not_holds (h : owns p = false) : holds p = false := by
  cases p <;> first | rfl | exact h

/-- `value` of the lock's semaphore. -/
def lockValue (st : State ι) : BitVec 32 := (st.sync.sema .lock).value

namespace Lock

/-- What an event can do to the lock: nothing, take its unit, become its holder, stop being its
holder, or put the unit back. -/
inductive Change (st st' : State ι) (t : ι) (p : Pc ι) : Prop
  | quiet (howns : owns p = owns (st.pc t)) (hholds : holds p = holds (st.pc t))
      (hvalue : lockValue st' = lockValue st) (hholder : st'.holder = st.holder)
  | take (hne : lockValue st ≠ 0) (hout : owns (st.pc t) = false) (howns : owns p = true)
      (hholds : holds p = false) (hvalue : lockValue st' = lockValue st - 1)
      (hholder : st'.holder = st.holder)
  | set (hbefore : owns (st.pc t) = true) (hnot : holds (st.pc t) = false) (hholds : holds p = true)
      (hvalue : lockValue st' = lockValue st) (hholder : st'.holder = some t)
  | clear (hbefore : holds (st.pc t) = true) (howns : owns p = true) (hholds : holds p = false)
      (hvalue : lockValue st' = lockValue st) (hholder : st'.holder = none)
  | put (hbefore : owns (st.pc t) = true) (hnot : holds (st.pc t) = false) (howns : owns p = false)
      (hvalue : lockValue st' = lockValue st + 1) (hholder : st'.holder = st.holder)

/-- The unit is in the semaphore, or exactly one thread has it; `lock->holder` is who set it. -/
structure Inv (st : State ι) : Prop where
  unit : (lockValue st = 1 ∧ ∀ t, owns (st.pc t) = false) ∨
    (lockValue st = 0 ∧ ∃ u, owns (st.pc u) = true ∧ ∀ t, owns (st.pc t) = true → t = u)
  holder : ∀ t, st.holder = some t ↔ holds (st.pc t) = true

section

omit [DecidableEq ι]

theorem inv_initial : Inv (initial : State ι) where
  unit := .inl ⟨rfl, fun _ => rfl⟩
  holder t := by simp [initial, holds, owns]

theorem Inv.unique (h : Inv st) {u : ι} (ht : owns (st.pc t) = true) (hu : owns (st.pc u) = true) :
    t = u := by
  cases h.unit with
  | inl hfree =>
    rw [hfree.2 t] at ht
    cases ht
  | inr htaken =>
    obtain ⟨-, w, -, honly⟩ := htaken
    rw [honly t ht, honly u hu]

theorem Inv.value_zero (h : Inv st) (ht : owns (st.pc t) = true) : lockValue st = 0 := by
  cases h.unit with
  | inl hfree =>
    rw [hfree.2 t] at ht
    cases ht
  | inr htaken => exact htaken.1

end

/-- **What an event can do to the lock keeps the invariant.** -/
theorem Inv.change (h : Inv st) (hpc : st'.pc = update st.pc t p)
    (hc : Change st st' t p) : Inv st' := by
  have hself : st'.pc t = p := by rw [hpc, update_self]
  have hother : ∀ u, u ≠ t → st'.pc u = st.pc u := by
    intro u hu
    rw [hpc, update_of_ne hu]
  -- the holder stays, and with it what the threads are to it
  have hsame : holds p = holds (st.pc t) → st'.holder = st.holder →
      ∀ u, st'.holder = some u ↔ holds (st'.pc u) = true := by
    intro hholds hholder u
    rw [hholder, h.holder u]
    by_cases hu : u = t
    · rw [hu, hself, hholds]
    · rw [hother u hu]
  -- the unit stays with a thread that has it
  have hkept : owns (st.pc t) = true → owns p = true → lockValue st' = lockValue st →
      lockValue st' = 0 ∧ ∃ u, owns (st'.pc u) = true ∧ ∀ v, owns (st'.pc v) = true → v = u := by
    intro hbefore howns hvalue
    refine ⟨by rw [hvalue, h.value_zero hbefore], t, by rw [hself, howns], fun u hu => ?_⟩
    by_contra hut
    rw [hother u hut] at hu
    exact hut (h.unique hu hbefore)
  cases hc with
  | quiet howns hholds hvalue hholder =>
    have hall : ∀ u, owns (st'.pc u) = owns (st.pc u) := by
      intro u
      by_cases hu : u = t
      · rw [hu, hself, howns]
      · rw [hother u hu]
    refine ⟨?_, hsame hholds hholder⟩
    simp only [hvalue, hall]
    exact h.unit
  | take hne hout howns hholds hvalue hholder =>
    -- the unit was there, so nobody else owns the lock
    have hfree := h.unit.resolve_right fun htaken => hne htaken.1
    refine ⟨.inr ⟨by rw [hvalue, hfree.1]; rfl, t, by rw [hself, howns], fun u hu => ?_⟩,
      hsame (by rw [hholds, not_holds hout]) hholder⟩
    by_contra hut
    rw [hother u hut, hfree.2 u] at hu
    cases hu
  | set hbefore hnot hholds hvalue hholder =>
    refine ⟨.inr (hkept hbefore (owns_of_holds hholds) hvalue), fun u => ?_⟩
    rw [hholder]
    by_cases hu : u = t
    · simp [hu, hself, hholds]
    · rw [hother u hu]
      exact iff_of_false (fun heq => hu (Option.some.inj heq).symm)
        fun hh => hu (h.unique (owns_of_holds hh) hbefore)
  | clear hbefore howns hholds hvalue hholder =>
    have hold := owns_of_holds hbefore
    refine ⟨.inr (hkept hold howns hvalue), fun u => ?_⟩
    rw [hholder]
    by_cases hu : u = t
    · simp [hu, hself, hholds]
    · rw [hother u hu]
      exact iff_of_false (by simp) fun hh => hu (h.unique (owns_of_holds hh) hold)
  | put hbefore hnot howns hvalue hholder =>
    refine ⟨.inl ⟨by rw [hvalue, h.value_zero hbefore]; rfl, fun u => ?_⟩,
      hsame (by rw [not_holds howns, hnot]) hholder⟩
    by_cases hu : u = t
    · rw [hu, hself, howns]
    · rw [hother u hu]
      cases ho : owns (st.pc u) with
      | false => rfl
      | true => exact absurd (h.unique ho hbefore) hu

/-! ### Events -/

/-- One pass of a `sema_down` on the semaphore of a waiter leaves the lock alone. -/
theorem change_downWaiter (hout : owns (st.pc t) = false) (hp : owns p = false)
    (h : downOr t (.waiter t) p st = some st') :
    ∃ q, st'.pc = update st.pc t q ∧ Change st st' t q := by
  have hsema : (Synch.semaDown t (.waiter t) st.sync).sema .lock = st.sync.sema .lock :=
    Synch.semaDown_sema_of_ne (fun hne => by cases hne) st.sync
  unfold downOr at h
  split at h
  · cases h
  · split at h
    · cases h
      exact ⟨st.pc t, (update_eq_self t st.pc).symm,
        .quiet rfl rfl (by rw [lockValue, hsema, lockValue]) rfl⟩
    · cases h
      refine ⟨p, rfl, .quiet (by rw [hp, hout]) (by rw [not_holds hp, not_holds hout]) ?_ rfl⟩
      change ((Synch.semaDown t (.waiter t) st.sync).sema .lock).value = _
      rw [hsema, lockValue]

/-- One pass of the `sema_down` of `lock_acquire`. -/
theorem change_downLock {k : Caller} (hpc : st.pc t = .acquireDown k)
    (h : downOr t .lock (.setHolder k) st = some st') :
    ∃ q, st'.pc = update st.pc t q ∧ Change st st' t q := by
  unfold downOr at h
  split at h
  · cases h
  · split at h
    · rename_i hv
      cases h
      exact ⟨st.pc t, (update_eq_self t st.pc).symm,
        .quiet rfl rfl (Synch.semaDown_value_of_eq hv) rfl⟩
    · rename_i hv
      cases h
      exact ⟨.setHolder k, rfl, .take hv (by rw [hpc]; rfl) rfl rfl
        (Synch.semaDown_value_of_ne hv) rfl⟩

/-- `sema_up` on the semaphore of a waiter leaves the lock alone. -/
theorem lockValue_upWaiter {w : ι} {sync : Synch.State ι (Sema ι)}
    (h : Synch.semaUp (.waiter w) st.sync = some sync) :
    (sync.sema .lock).value = lockValue st := by
  obtain ⟨_, _, hsema, -⟩ := Synch.semaUp_eq_some h
  rw [hsema, update_of_ne (fun hne => by cases hne), lockValue]

/-- The ASSERTs at the head of a called function: where it starts, the caller owns the lock and is
its holder just if `lock->holder` is the caller. -/
theorem enter_spec {c : Call} (he : enter t st c = some p) :
    owns p = heldBy t st ∧ holds p = heldBy t st := by
  cases hb : heldBy t st with
  | false =>
    cases c <;> simp [enter, hb] at he
    case acquire => subst he; exact ⟨rfl, rfl⟩
    case tryAcquire => subst he; exact ⟨rfl, rfl⟩
  | true =>
    cases c <;> simp [enter, hb] at he
    case release => subst he; exact ⟨rfl, rfl⟩
    case wait => subst he; exact ⟨rfl, rfl⟩
    case signal => subst he; exact ⟨rfl, rfl⟩
    case broadcast => subst he; exact ⟨rfl, rfl⟩

omit [DecidableEq ι] in
theorem owns_eq_holds (h : p = .out ∨ p = .held) : owns p = holds p := by
  cases h with
  | inl ho => rw [ho]; rfl
  | inr hh => rw [hh]; rfl

theorem Inv.heldBy_eq (h : Inv st) (t : ι) : heldBy t st = holds (st.pc t) := by
  rw [Bool.eq_iff_iff, heldBy, decide_eq_true_eq]
  exact h.holder t

theorem Inv.change_enter {c : Call} (h : Inv st) (hout : st.pc t = .out ∨ st.pc t = .held)
    (he : enter t st c = some p) : Change st (moveTo t p st) t p := by
  obtain ⟨howns, hholds⟩ := enter_spec he
  rw [h.heldBy_eq t] at howns hholds
  exact .quiet (by rw [howns, owns_eq_holds hout]) hholds rfl rfl

omit [DecidableEq ι] in
theorem afterSignal_holds (w : List ι) (m : Signaller ι) :
    owns (afterSignal w m) = true ∧ holds (afterSignal w m) = true := by
  cases m with
  | user | broadcast waiting released => exact ⟨rfl, rfl⟩

omit [DecidableEq ι] in
theorem afterRelease_owns (k : Caller) : owns (afterRelease k : Pc ι) = false := by
  cases k with
  | user => rfl
  | condWait => rfl

/-- **What a statement does to the lock.** -/
theorem change_proceed (hs : proceed t st = some st') :
    ∃ p, st'.pc = update st.pc t p ∧ Change st st' t p := by
  unfold proceed at hs
  split at hs
  case h_1 => cases hs
  case h_2 => cases hs
  case h_3 k hpc => exact change_downLock hpc hs
  case h_4 hpc =>
      cases hs
      refine ⟨_, rfl, ?_⟩
      by_cases hv : (st.sync.sema .lock).value = 0
      · -- the unit is not there and the thread goes away without it
        have htry : Synch.semaTryDown .lock st.sync = (false, st.sync) := by
          rw [Synch.semaTryDown, if_neg (not_not.mpr hv)]
        simp only [htry]
        exact .quiet (by rw [hpc]; rfl) (by rw [hpc]; rfl) rfl rfl
      · rw [Synch.semaTryDown, if_pos hv]
        exact .take hv (by rw [hpc]; rfl) rfl rfl (by simp [lockValue, moveTo]) rfl
  case h_5 k hpc =>
      cases hs
      exact ⟨_, rfl, .set (by rw [hpc]; rfl) (by rw [hpc]; rfl) rfl rfl rfl⟩
  case h_6 k hpc =>
      cases hs
      exact ⟨_, rfl, .clear (by rw [hpc]; rfl) rfl rfl rfl rfl⟩
  case h_7 k hpc =>
      obtain ⟨sync, hup, rfl⟩ := Option.map_eq_some_iff.mp hs
      obtain ⟨_, _, hsema, -⟩ := Synch.semaUp_eq_some hup
      refine ⟨_, rfl, .put (by rw [hpc]; rfl) (by rw [hpc]; rfl) (afterRelease_owns k) ?_ rfl⟩
      change (sync.sema .lock).value = _
      rw [hsema, update_self, lockValue]
  case h_8 hpc =>
      cases hs
      refine ⟨_, rfl, .quiet (by rw [hpc]; rfl) (by rw [hpc]; rfl) ?_ rfl⟩
      simp [lockValue, moveTo]
  case h_9 hpc =>
      cases hs
      exact ⟨_, rfl, .quiet (by rw [hpc]; rfl) (by rw [hpc]; rfl) rfl rfl⟩
  case h_10 hpc =>
      split at hs
      · cases hs
        exact ⟨_, rfl, .quiet (by rw [hpc]; rfl) (by rw [hpc]; rfl) rfl rfl⟩
      · cases hs
  case h_11 hpc => exact change_downWaiter (by rw [hpc]; rfl) rfl hs
  case h_12 hpc =>
      split at hs
      · cases hs
      · cases hs
        exact ⟨_, rfl, .quiet (by rw [hpc]; rfl) (by rw [hpc]; rfl) rfl rfl⟩
  case h_13 m hpc =>
      split at hs
      · cases hs
        refine ⟨_, rfl, .quiet ?_ ?_ rfl rfl⟩
        · rw [(afterSignal_holds [] m).1, hpc]
          rfl
        · rw [(afterSignal_holds [] m).2, hpc]
          rfl
      · cases hs
        exact ⟨_, rfl, .quiet (by rw [hpc]; rfl) (by rw [hpc]; rfl) rfl rfl⟩
  case h_14 w m hpc =>
      obtain ⟨sync, hup, rfl⟩ := Option.map_eq_some_iff.mp hs
      refine ⟨_, rfl, .quiet ?_ ?_ (lockValue_upWaiter hup) rfl⟩
      · rw [(afterSignal_holds [w] m).1, hpc]
        rfl
      · rw [(afterSignal_holds [w] m).2, hpc]
        rfl
  case h_15 waiting released hpc =>
      split at hs
      · cases hs
        exact ⟨_, rfl, .quiet (by rw [hpc]; rfl) (by rw [hpc]; rfl) rfl rfl⟩
      · split at hs
        · cases hs
          exact ⟨_, rfl, .quiet (by rw [hpc]; rfl) (by rw [hpc]; rfl) rfl rfl⟩
        · cases hs

theorem Inv.step {e : Event ι} (h : Inv st) (hs : step st e = some st') : Inv st' := by
  cases e with
  | call t c =>
    rw [Monitor.step] at hs
    split at hs
    · rename_i hout
      obtain ⟨p, he, rfl⟩ := Option.map_eq_some_iff.mp hs
      exact h.change rfl (h.change_enter hout he)
    · cases hs
  | go t =>
    obtain ⟨p, hpc, hc⟩ := change_proceed hs
    exact h.change hpc hc

end Lock

theorem lockInv_run {es : List (Event ι)} (hrun : Transition.run step initial es = some st) :
    Lock.Inv st :=
  Transition.run_keeps (fun _ _ _ h hs => h.step hs) Lock.inv_initial hrun

/-- **Mutual exclusion**: in every run, `value` of the lock is 0 or 1, at most one thread owns the
lock, `lock->holder` is that thread, and only that thread passes the ASSERT of `lock_release`. -/
theorem lock_exclusion (es : List (Event ι)) (st : State ι)
    (hrun : Transition.run step initial es = some st) :
    (lockValue st = 0 ∨ lockValue st = 1) ∧
      (∀ t u, owns (st.pc t) = true → owns (st.pc u) = true → t = u) ∧
      (∀ t, st.holder = some t → lockValue st = 0 ∧ owns (st.pc t) = true) ∧
      ∀ t, (enter t st .release).isSome = true → st.holder = some t ∧ owns (st.pc t) = true := by
  have h := lockInv_run hrun
  have hholder : ∀ t, st.holder = some t → owns (st.pc t) = true :=
    fun t ht => owns_of_holds ((h.holder t).mp ht)
  refine ⟨?_, fun t u ht hu => h.unique ht hu,
    fun t ht => ⟨h.value_zero (hholder t ht), hholder t ht⟩, ?_⟩
  · cases h.unit with
    | inl hfree => exact .inr hfree.1
    | inr htaken => exact .inl htaken.1
  · intro t he
    have ht : st.holder = some t := by
      unfold enter heldBy at he
      by_contra hne
      simp [hne] at he
    exact ⟨ht, hholder t ht⟩

/-- A second thread goes to sleep in `lock_acquire`, the first one releases, and the second one
takes the unit but has not yet set `lock->holder`. -/
def contended : List (Event (Fin 2)) :=
  [.call 0 .acquire, .go 0, .go 0, .call 1 .acquire, .go 1, .call 0 .release, .go 0, .go 0, .go 1]

theorem lock_exclusion_contended :
    ∃ st : State (Fin 2), Transition.run step initial contended = some st ∧
      st.pc 1 = .setHolder .user ∧ (lockValue st = 0 ∨ lockValue st = 1) :=
  ⟨_, rfl, by decide, (lock_exclusion contended _ rfl).1⟩

end Pintos.Monitor

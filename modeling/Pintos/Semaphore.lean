import Pintos.Transition

/-! # Semaphores: `sema_down`, `sema_try_down` and `sema_up` in `threads/synch.c`

Threads and interrupt handlers work on any number of semaphores.  Interrupts are off from the test
of `value` up to `thread_block`, so one pass of the loop of `sema_down` is one event; so are
`sema_try_down` and `sema_up`.

* `semaDown`, `semaTryDown`, `semaUp`: what the source does with interrupts off.
* `step`: the next event, of a thread that is not blocked or of an interrupt handler.
* `Inv`: who is on a list of waiters, in which order, and what is left of the wake-ups.
* `semaphores_count`: **a semaphore counts exactly and loses no wake-up**, up to the width of
  `value`. -/

namespace Pintos.Synch

open Function List Transition

/-- `struct semaphore`. -/
structure Semaphore (ι : Type) where
  value : BitVec 32
  waiters : List ι
deriving DecidableEq

/-- Where a thread is: `loop s` is behind the `thread_block` of `sema_down` on `s`. -/
inductive Loc (S : Type)
  | outside
  | loop (s : S)
deriving DecidableEq

/-- What has happened: a thread went to sleep, a down was completed, an up was completed and woke
a thread or none. -/
inductive Entry (ι S : Type)
  | slept (t : ι) (s : S)
  | downed (s : S)
  | upped (s : S) (woken : Option ι)
deriving DecidableEq

/-- `blocked t` is the status `THREAD_BLOCKED`; `log` records the past and is read by no code. -/
structure State (ι S : Type) where
  sema : S → Semaphore ι
  blocked : ι → Bool
  loc : ι → Loc S
  log : List (Entry ι S)

variable {ι S : Type} [DecidableEq ι] [DecidableEq S]

/-! ### The source -/

def semaInit (value : BitVec 32) : Semaphore ι := ⟨value, []⟩

/-- One pass of the loop of `sema_down`: the thread either goes to sleep or has its unit. -/
def semaDown (t : ι) (s : S) (st : State ι S) : State ι S :=
  if (st.sema s).value = 0 then
    { sema := update st.sema s
        ⟨(st.sema s).value, (st.sema s).waiters ++ [t]⟩
      blocked := update st.blocked t true
      loc := update st.loc t (.loop s)
      log := st.log ++ [.slept t s] }
  else
    { st with
      sema := update st.sema s ⟨(st.sema s).value - 1, (st.sema s).waiters⟩
      loc := update st.loc t .outside
      log := st.log ++ [.downed s] }

def semaTryDown (s : S) (st : State ι S) : Bool × State ι S :=
  if (st.sema s).value ≠ 0 then
    (true, { st with
      sema := update st.sema s ⟨(st.sema s).value - 1, (st.sema s).waiters⟩
      log := st.log ++ [.downed s] })
  else (false, st)

/-- `sema_up`; `none` is the failure of `ASSERT (t->status == THREAD_BLOCKED)` in
`thread_unblock`. -/
def semaUp (s : S) (st : State ι S) : Option (State ι S) :=
  match (st.sema s).waiters with
  | [] =>
    some { st with
      sema := update st.sema s ⟨(st.sema s).value + 1, []⟩
      log := st.log ++ [.upped s none] }
  | t :: ts =>
    if st.blocked t = true then
      some { st with
        sema := update st.sema s ⟨(st.sema s).value + 1, ts⟩
        blocked := update st.blocked t false
        log := st.log ++ [.upped s (some t)] }
    else none

/-! ### What the source leaves alone -/

variable {st st' : State ι S} {s : S} {t : ι}

theorem semaDown_sema_of_ne {s' : S} (hs : s' ≠ s) (st : State ι S) :
    (semaDown t s st).sema s' = st.sema s' := by
  unfold semaDown
  split <;> exact update_of_ne hs _ _

theorem semaDown_value_of_eq (hv : (st.sema s).value = 0) :
    ((semaDown t s st).sema s).value = (st.sema s).value := by
  rw [semaDown, if_pos hv]
  simp only [update_self]

theorem semaDown_value_of_ne (hv : (st.sema s).value ≠ 0) :
    ((semaDown t s st).sema s).value = (st.sema s).value - 1 := by
  rw [semaDown, if_neg hv]
  simp only [update_self]

theorem semaDown_threads_of_eq (hv : (st.sema s).value = 0) :
    (semaDown t s st).loc = update st.loc t (.loop s) ∧
      (semaDown t s st).blocked = update st.blocked t true := by
  rw [semaDown, if_pos hv]
  exact ⟨rfl, rfl⟩

theorem semaDown_threads_of_ne (hv : (st.sema s).value ≠ 0) :
    (semaDown t s st).loc = update st.loc t .outside ∧
      (semaDown t s st).blocked = st.blocked := by
  rw [semaDown, if_neg hv]
  exact ⟨rfl, rfl⟩

/-- What an up does to the semaphores and to the log, whether it wakes a thread or not. -/
theorem semaUp_eq_some (hup : semaUp s st = some st') :
    ∃ w ws, st'.sema = update st.sema s ⟨(st.sema s).value + 1, ws⟩ ∧
      st'.log = st.log ++ [.upped s w] := by
  unfold semaUp at hup
  split at hup
  · cases hup
    exact ⟨none, [], rfl, rfl⟩
  · rename_i t ts _
    split at hup
    · cases hup
      exact ⟨some t, ts, rfl, rfl⟩
    · cases hup

/-! ### Runs -/

/-- Who calls: a thread, or (`none`) an interrupt handler. -/
inductive Event (ι S : Type)
  | down (t : ι) (s : S)
  | resume (t : ι)
  | tryDown (caller : Option ι) (s : S)
  | up (caller : Option ι) (s : S)
deriving DecidableEq

/-- The thread is scheduled and calls; an interrupt handler always can. -/
def canCall (st : State ι S) : Option ι → Bool
  | none => true
  | some t => st.loc t = .outside && !st.blocked t

def step (st : State ι S) : Event ι S → Option (State ι S)
  | .down t s => if canCall st (some t) then some (semaDown t s st) else none
  | .resume t =>
    match st.loc t, st.blocked t with
    | .loop s, false => some (semaDown t s st)
    | _, _ => none
  | .tryDown caller s => if canCall st caller then some (semaTryDown s st).2 else none
  | .up caller s => if canCall st caller then semaUp s st else none

/-- Every semaphore behind `sema_init`. -/
def initial (v : S → BitVec 32) : State ι S :=
  ⟨fun s => semaInit (v s), fun _ => false, fun _ => .outside, []⟩

/-! ### What a run has done -/

/-- The threads that went to sleep on `s`, in the order in which they did. -/
def slept (log : List (Entry ι S)) (s : S) : List ι :=
  log.filterMap fun
    | .slept t s' => if s' = s then some t else none
    | _ => none

/-- The threads that ups on `s` woke, in the order in which they did. -/
def woken (log : List (Entry ι S)) (s : S) : List ι :=
  log.filterMap fun
    | .upped s' t => if s' = s then t else none
    | _ => none

/-- Completed downs. -/
def downs (log : List (Entry ι S)) (s : S) : ℕ := log.count (.downed s)

/-- Completed ups. -/
def ups (log : List (Entry ι S)) (s : S) : ℕ :=
  log.countP fun
    | .upped s' _ => s' = s
    | _ => false

/-- The threads blocked in `sema_down` on `s`. -/
def Sleeping (st : State ι S) (s : S) (t : ι) : Prop := st.loc t = .loop s ∧ st.blocked t = true

/-- The threads popped from the waiters of `s` that have not tested `value` again. -/
def popped (st : State ι S) (s : S) : Set ι := {t | st.loc t = .loop s ∧ st.blocked t = false}

/-! ### The log -/

omit [DecidableEq ι] in
@[simp] theorem slept_append (l l' : List (Entry ι S)) (s : S) :
    slept (l ++ l') s = slept l s ++ slept l' s := filterMap_append

omit [DecidableEq ι] in
@[simp] theorem woken_append (l l' : List (Entry ι S)) (s : S) :
    woken (l ++ l') s = woken l s ++ woken l' s := filterMap_append

@[simp] theorem downs_append (l l' : List (Entry ι S)) (s : S) :
    downs (l ++ l') s = downs l s + downs l' s := count_append

section

omit [DecidableEq ι]

@[simp] theorem ups_append (l l' : List (Entry ι S)) (s : S) :
    ups (l ++ l') s = ups l s + ups l' s := countP_append

@[simp] theorem slept_slept (t : ι) (s s' : S) :
    slept [.slept t s'] s = if s' = s then [t] else [] := by
  by_cases h : s' = s <;> simp [slept, h]

@[simp] theorem slept_downed (s s' : S) : slept [(.downed s' : Entry ι S)] s = [] := rfl

@[simp] theorem slept_upped (s s' : S) (w : Option ι) : slept [.upped s' w] s = [] := rfl

@[simp] theorem woken_slept (t : ι) (s s' : S) : woken [.slept t s'] s = [] := rfl

@[simp] theorem woken_downed (s s' : S) : woken [(.downed s' : Entry ι S)] s = [] := rfl

@[simp] theorem woken_upped (s s' : S) (w : Option ι) :
    woken [.upped s' w] s = if s' = s then w.toList else [] := by
  by_cases h : s' = s <;> cases w <;> simp [woken, h]

end

@[simp] theorem downs_slept (t : ι) (s s' : S) : downs [.slept t s'] s = 0 := by simp [downs]

@[simp] theorem downs_downed (s s' : S) :
    downs [(.downed s' : Entry ι S)] s = if s' = s then 1 else 0 := by
  simp [downs, count_singleton]

@[simp] theorem downs_upped (s s' : S) (w : Option ι) : downs [.upped s' w] s = 0 := by
  simp [downs]

section

omit [DecidableEq ι]

@[simp] theorem ups_slept (t : ι) (s s' : S) : ups [.slept t s'] s = 0 := rfl

@[simp] theorem ups_downed (s s' : S) : ups [(.downed s' : Entry ι S)] s = 0 := rfl

@[simp] theorem ups_upped (s s' : S) (w : Option ι) :
    ups [.upped s' w] s = if s' = s then 1 else 0 := by
  by_cases h : s' = s <;> simp [ups, h]

end

/-! ### The invariant -/

/-- Lists of waiters and wake-ups, whatever the values were at first. -/
structure Inv (st : State ι S) : Prop where
  mem_iff : ∀ s t, t ∈ (st.sema s).waiters ↔ Sleeping st s t
  nodup : ∀ s, (st.sema s).waiters.Nodup
  order : ∀ s, woken st.log s ++ (st.sema s).waiters = slept st.log s
  finite : ∀ s, (popped st s).Finite
  noLost : ∀ s, (st.sema s).waiters ≠ [] → (st.sema s).value.toNat ≤ (popped st s).ncard

omit [DecidableEq ι] in
theorem inv_initial (v : S → BitVec 32) : Inv (initial v : State ι S) where
  mem_iff s t := by simp [initial, semaInit, Sleeping]
  nodup s := nodup_nil
  order s := rfl
  finite s := by simp [popped, initial]
  noLost s h := absurd rfl h

/-- A thread may test `value` of `s`: it calls `sema_down`, or was woken in it. -/
def Tests (st : State ι S) (t : ι) (s : S) : Prop :=
  (st.loc t = .outside ∨ st.loc t = .loop s) ∧ st.blocked t = false

variable {e : Event ι S}

theorem step_cases (h : step st e = some st') : (∃ t s, Tests st t s ∧ st' = semaDown t s st) ∨
      (∃ s, st' = (semaTryDown s st).2) ∨
      ∃ caller s, e = .up caller s ∧ semaUp s st = some st' := by
  cases e with
  | down t s =>
    simp only [step] at h
    split at h
    · rename_i hc
      simp only [canCall, Bool.and_eq_true, decide_eq_true_eq, Bool.not_eq_true'] at hc
      exact .inl ⟨t, s, ⟨.inl hc.1, hc.2⟩, (Option.some.inj h).symm⟩
    · cases h
  | resume t =>
    simp only [step] at h
    split at h
    · rename_i s hloc hb
      exact .inl ⟨t, s, ⟨.inr hloc, hb⟩, (Option.some.inj h).symm⟩
    · cases h
  | tryDown caller s =>
    simp only [step] at h
    split at h
    · exact .inr (.inl ⟨s, (Option.some.inj h).symm⟩)
    · cases h
  | up caller s =>
    simp only [step] at h
    split at h
    · exact .inr (.inr ⟨caller, s, rfl, h⟩)
    · cases h

/-! ### What each event keeps -/

omit [DecidableEq ι] in
theorem Inv.notMem (h : Inv st) (hb : st.blocked t = false) (s : S) : t ∉ (st.sema s).waiters := by
  intro hmem
  have hblocked := ((h.mem_iff s t).mp hmem).2
  rw [hb] at hblocked
  cases hblocked

omit [DecidableEq ι] [DecidableEq S] in
theorem Tests.notMem_popped {s' : S} (ht : Tests st t s) (hs : s' ≠ s) : t ∉ popped st s' := by
  intro hmem
  have hloc : st.loc t = .loop s' := hmem.1
  cases ht.1 with
  | inl ho =>
    rw [ho] at hloc
    cases hloc
  | inr hl =>
    rw [hl] at hloc
    exact hs (Loc.loop.inj hloc).symm

/-- A thread that finds `value` at zero queues itself and sleeps. -/
theorem Inv.semaDown_zero (h : Inv st) (ht : Tests st t s) (hv : (st.sema s).value = 0) :
    Inv (semaDown t s st) := by
  have hpop : ∀ s', popped (semaDown t s st) s' = popped st s' \ {t} := by
    intro s'
    ext u
    by_cases hu : u = t
    · subst hu
      simp [popped, semaDown, hv]
    · simp [popped, semaDown, hv, hu]
  constructor
  · intro s' u
    by_cases hs : s' = s
    · subst hs
      by_cases hu : u = t
      · subst hu
        simp [semaDown, hv, Sleeping]
      · have hmem := h.mem_iff s' u
        simp [semaDown, hv, Sleeping, hu, hmem]
    · by_cases hu : u = t
      · subst hu
        have hnot := h.notMem ht.2 s'
        simp [semaDown, hv, Sleeping, hs, Ne.symm hs, hnot]
      · have hmem := h.mem_iff s' u
        simp [semaDown, hv, Sleeping, hs, hu, hmem]
  · intro s'
    by_cases hs : s' = s
    · subst hs
      have hnot := h.notMem ht.2 s'
      simp only [semaDown, hv, if_true, update_self]
      exact nodup_append.mpr ⟨h.nodup s', nodup_singleton t, by
        intro a ha b hb hab
        rw [mem_singleton] at hb
        exact hnot (hb ▸ hab ▸ ha)⟩
    · simpa [semaDown, hv, hs] using h.nodup s'
  · intro s'
    by_cases hs : s' = s
    · subst hs
      simp [semaDown, hv, ← h.order s']
    · simpa [semaDown, hv, hs, Ne.symm hs] using h.order s'
  · intro s'
    rw [hpop]
    exact (h.finite s').subset Set.sdiff_subset
  · intro s' hne
    by_cases hs : s' = s
    · subst hs
      simp [semaDown, hv]
    · -- the thread was not woken on another semaphore, so it is not missing there
      rw [hpop, Set.sdiff_singleton_eq_self (ht.notMem_popped hs)]
      simp only [semaDown, hv, if_true, update_of_ne hs] at hne ⊢
      exact h.noLost s' hne

theorem toNat_sub_one {v : BitVec 32} (h : v ≠ 0) : (v - 1).toNat = v.toNat - 1 := by
  bv_omega

theorem toNat_add_one_le (v : BitVec 32) : (v + 1).toNat ≤ v.toNat + 1 := by
  bv_omega

omit [DecidableEq ι] in
/-- A unit is taken from `value`; at most one popped thread has had its test by that. -/
theorem Inv.take (h : Inv st) (hv : (st.sema s).value ≠ 0)
    (hsema : st'.sema = update st.sema s ⟨(st.sema s).value - 1, (st.sema s).waiters⟩)
    (hlog : st'.log = st.log ++ [.downed s]) (hsleep : ∀ s' t, Sleeping st' s' t ↔ Sleeping st s' t)
    (hother : ∀ s', s' ≠ s → popped st' s' = popped st s') (hsub : popped st' s ⊆ popped st s)
    (hcard : (popped st s).ncard - 1 ≤ (popped st' s).ncard) : Inv st' := by
  have hwait : ∀ s', (st'.sema s').waiters = (st.sema s').waiters := by
    intro s'
    rw [hsema]
    by_cases hs : s' = s
    · subst hs
      rw [update_self]
    · rw [update_of_ne hs]
  constructor
  · intro s' t
    rw [hwait, hsleep]
    exact h.mem_iff s' t
  · intro s'
    rw [hwait]
    exact h.nodup s'
  · intro s'
    rw [hwait, hlog]
    simpa using h.order s'
  · intro s'
    by_cases hs : s' = s
    · subst hs
      exact (h.finite s').subset hsub
    · rw [hother s' hs]
      exact h.finite s'
  · intro s' hne
    rw [hwait] at hne
    have hle := h.noLost s' hne
    by_cases hs : s' = s
    · subst hs
      have hpred := toNat_sub_one hv
      rw [hsema, update_self]
      change ((st.sema s').value - 1).toNat ≤ _
      omega
    · rw [hother s' hs, hsema, update_of_ne hs]
      exact hle

/-- A thread that finds `value` positive takes a unit; it may have been woken for it, or be a third
thread that takes the unit from under the woken one. -/
theorem Inv.semaDown_pos (h : Inv st) (ht : Tests st t s) (hv : (st.sema s).value ≠ 0) :
    Inv (semaDown t s st) := by
  have hpop : ∀ s', popped (semaDown t s st) s' = popped st s' \ {t} := by
    intro s'
    rw [semaDown, if_neg hv]
    ext u
    by_cases hu : u = t
    · subst hu
      simp [popped]
    · simp [popped, hu]
  refine h.take hv ?_ ?_ ?_ ?_ ?_ ?_
  · rw [semaDown, if_neg hv]
  · rw [semaDown, if_neg hv]
  · intro s' u
    rw [semaDown, if_neg hv]
    by_cases hu : u = t
    · subst hu
      simp [Sleeping, ht.2]
    · simp [Sleeping, hu]
  · intro s' hs
    rw [hpop, Set.sdiff_singleton_eq_self (ht.notMem_popped hs)]
  · rw [hpop]
    exact Set.sdiff_subset
  · rw [hpop]
    exact Set.pred_ncard_le_ncard_sdiff_singleton (popped st s) t

omit [DecidableEq ι] in
theorem Inv.semaTryDown (h : Inv st) (s : S) : Inv (semaTryDown s st).2 := by
  by_cases hv : (st.sema s).value = 0
  · rw [Synch.semaTryDown, if_neg (not_not.mpr hv)]
    exact h
  · rw [Synch.semaTryDown, if_pos hv]
    exact h.take hv rfl rfl (fun _ _ => Iff.rfl) (fun _ _ => rfl) (Set.Subset.refl _)
      (Nat.sub_le _ _)

/-- The ASSERT of `thread_unblock` holds: who is queued is blocked. -/
theorem Inv.semaUp_isSome (h : Inv st) (s : S) : (semaUp s st).isSome = true := by
  unfold semaUp
  split
  · rfl
  · rename_i t ts hw
    have hb := ((h.mem_iff s t).mp (hw ▸ mem_cons_self)).2
    simp [hb]

/-- An up that pops a waiter raises `value` and the number of popped threads together. -/
theorem Inv.semaUp (h : Inv st) (hup : semaUp s st = some st') : Inv st' := by
  unfold Synch.semaUp at hup
  split at hup
  · rename_i hw
    cases hup
    constructor
    · intro s' u
      have hmem := h.mem_iff s' u
      by_cases hs : s' = s
      · subst hs
        simpa [hw, Sleeping] using hmem
      · simpa [hs, Sleeping] using hmem
    · intro s'
      by_cases hs : s' = s
      · subst hs
        simp
      · simpa [hs] using h.nodup s'
    · intro s'
      have horder := h.order s'
      by_cases hs : s' = s
      · subst hs
        simpa [hw] using horder
      · simpa [hs, Ne.symm hs] using horder
    · exact h.finite
    · intro s' hne
      by_cases hs : s' = s
      · subst hs
        simp at hne
      · simp only [update_of_ne hs] at hne ⊢
        exact h.noLost s' hne
  · rename_i t ts hw
    split at hup
    · rename_i hb
      cases hup
      have hloc : st.loc t = .loop s := ((h.mem_iff s t).mp (hw ▸ mem_cons_self)).1
      have hnd : t ∉ ts ∧ ts.Nodup := nodup_cons.mp (hw ▸ h.nodup s)
      constructor
      · intro s' u
        have hmem := h.mem_iff s' u
        by_cases hs : s' = s
        · subst hs
          by_cases hu : u = t
          · subst hu
            simp [Sleeping, hnd.1]
          · simpa [hw, Sleeping, hu] using hmem
        · by_cases hu : u = t
          · subst hu
            simp [Sleeping, hs, hmem, hloc, Ne.symm hs]
          · simpa [hs, Sleeping, hu] using hmem
      · intro s'
        by_cases hs : s' = s
        · subst hs
          simpa using hnd.2
        · simpa [hs] using h.nodup s'
      · intro s'
        have horder := h.order s'
        by_cases hs : s' = s
        · subst hs
          simpa [hw] using horder
        · simpa [hs, Ne.symm hs] using horder
      · intro s'
        refine ((h.finite s').insert t).subset ?_
        intro u hu
        by_cases hut : u = t
        · exact .inl hut
        · exact .inr (by simpa [popped, hut] using hu)
      · intro s' hne
        by_cases hs : s' = s
        · subst hs
          -- the popped thread joins those that have still to test
          have hpop : popped { st with
                sema := update st.sema s' ⟨(st.sema s').value + 1, ts⟩
                blocked := update st.blocked t false
                log := st.log ++ [.upped s' (some t)] } s' = insert t (popped st s') := by
            ext u
            by_cases hu : u = t
            · subst hu
              simp [popped, hloc]
            · simp [popped, hu]
          have hnot : t ∉ popped st s' := by
            intro hmem
            have hfalse : st.blocked t = false := hmem.2
            rw [hb] at hfalse
            cases hfalse
          have hle := h.noLost s' (by rw [hw]; exact cons_ne_nil t ts)
          have hadd := toNat_add_one_le (st.sema s').value
          rw [hpop, Set.ncard_insert_of_notMem hnot (h.finite s')]
          simp only [update_self]
          omega
        · have hpop : popped { st with
                sema := update st.sema s ⟨(st.sema s).value + 1, ts⟩
                blocked := update st.blocked t false
                log := st.log ++ [.upped s (some t)] } s' = popped st s' := by
            ext u
            by_cases hu : u = t
            · subst hu
              simp [popped, hloc, Ne.symm hs]
            · simp [popped, hu]
          rw [hpop]
          simp only [update_of_ne hs] at hne ⊢
          exact h.noLost s' hne
    · cases hup

theorem Inv.semaDown (h : Inv st) (ht : Tests st t s) : Inv (semaDown t s st) := by
  by_cases hv : (st.sema s).value = 0
  · exact h.semaDown_zero ht hv
  · exact h.semaDown_pos ht hv

omit [DecidableEq ι] in
/-- `sema_init` on a semaphore nobody waits for. -/
theorem Inv.semaInit (h : Inv st) (hw : (st.sema s).waiters = []) (v : BitVec 32) :
    Inv { st with sema := update st.sema s (semaInit v) } := by
  have hwait : ∀ s', (update st.sema s (Synch.semaInit v) s').waiters =
      (st.sema s').waiters := by
    intro s'
    by_cases hs : s' = s
    · subst hs
      rw [update_self, hw]
      rfl
    · rw [update_of_ne hs]
  constructor
  · intro s' t
    rw [hwait]
    exact h.mem_iff s' t
  · intro s'
    rw [hwait]
    exact h.nodup s'
  · intro s'
    rw [hwait]
    exact h.order s'
  · exact h.finite
  · intro s' hne
    rw [hwait] at hne
    have hs : s' ≠ s := by
      intro hs
      rw [hs, hw] at hne
      exact hne rfl
    simp only [update_of_ne hs]
    exact h.noLost s' hne

theorem Inv.step (h : Inv st) (hs : step st e = some st') : Inv st' := by
  obtain ⟨t, s, ht, rfl⟩ | ⟨s, rfl⟩ | ⟨_, s, -, hup⟩ := step_cases hs
  · exact h.semaDown ht
  · exact h.semaTryDown s
  · exact h.semaUp hup

/-! ### The count -/

/-- `value` has room for one more unit at every `sema_up`. -/
def Fits (st : State ι S) (e : Event ι S) : Prop :=
  ∀ caller s, e = .up caller s → (st.sema s).value ≠ BitVec.allOnes 32

/-- `value` is what was there at first, and the ups, without the downs. -/
def Counts (v : S → BitVec 32) (st : State ι S) : Prop :=
  ∀ s, (st.sema s).value.toNat + downs st.log s = (v s).toNat + ups st.log s

theorem counts_initial (v : S → BitVec 32) : Counts v (initial v : State ι S) := by
  intro s
  simp [initial, semaInit, downs, ups]

theorem toNat_pos {v : BitVec 32} (h : v ≠ 0) : 0 < v.toNat := by
  bv_omega

theorem toNat_add_one {v : BitVec 32} (h : v ≠ BitVec.allOnes 32) :
    (v + 1).toNat = v.toNat + 1 := by
  have hne : v.toNat ≠ 2 ^ 32 - 1 := by
    intro heq
    exact h (BitVec.eq_of_toNat_eq (by rw [heq, BitVec.toNat_allOnes]))
  change (v.toNat + 1) % 2 ^ 32 = v.toNat + 1
  omega

variable {v : S → BitVec 32}

theorem Counts.take (h : Counts v st) (hv : (st.sema s).value ≠ 0)
    (hsema : st'.sema = update st.sema s ⟨(st.sema s).value - 1, (st.sema s).waiters⟩)
    (hlog : st'.log = st.log ++ [.downed s]) : Counts v st' := by
  intro s'
  have hs' := h s'
  rw [hsema, hlog]
  by_cases hs : s' = s
  · subst hs
    have hpred := toNat_sub_one hv
    have hpos := toNat_pos hv
    simp only [update_self, downs_append, downs_downed, ups_append, ups_downed, if_true]
    omega
  · simpa [hs, Ne.symm hs] using hs'

theorem Counts.semaDown (h : Counts v st) (t : ι) (s : S) : Counts v (semaDown t s st) := by
  by_cases hv : (st.sema s).value = 0
  · intro s'
    have hs' := h s'
    rw [Synch.semaDown, if_pos hv]
    by_cases hs : s' = s
    · subst hs
      simpa using hs'
    · simpa [hs] using hs'
  · rw [Synch.semaDown, if_neg hv]
    exact h.take hv rfl rfl

theorem Counts.semaTryDown (h : Counts v st) (s : S) : Counts v (semaTryDown s st).2 := by
  by_cases hv : (st.sema s).value = 0
  · rw [Synch.semaTryDown, if_neg (not_not.mpr hv)]
    exact h
  · rw [Synch.semaTryDown, if_pos hv]
    exact h.take hv rfl rfl

theorem Counts.semaUp (h : Counts v st) (hfit : (st.sema s).value ≠ BitVec.allOnes 32)
    (hup : semaUp s st = some st') : Counts v st' := by
  obtain ⟨w, ws, hsema, hlog⟩ := semaUp_eq_some hup
  intro s'
  have hs' := h s'
  rw [hsema, hlog]
  by_cases hs : s' = s
  · subst hs
    have hadd := toNat_add_one hfit
    simp only [update_self, downs_append, downs_upped, ups_append, ups_upped, if_true]
    omega
  · simpa [hs, Ne.symm hs] using hs'

theorem Counts.step (h : Counts v st) (hfit : Fits st e) (hs : step st e = some st') :
    Counts v st' := by
  obtain ⟨t, s, -, rfl⟩ | ⟨s, rfl⟩ | ⟨caller, s, he, hup⟩ := step_cases hs
  · exact h.semaDown t s
  · exact h.semaTryDown s
  · exact h.semaUp (hfit caller s he) hup

/-! ### Whole runs -/

/-- Two threads sleep, an interrupt handler ups, a third thread takes the unit, and the woken
thread queues again behind the other one. -/
def stolen : List (Event (Fin 3) Unit) :=
  [.down 0 (), .down 1 (), .up none (), .down 2 (), .resume 0]

end Pintos.Synch

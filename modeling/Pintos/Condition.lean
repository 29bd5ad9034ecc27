import Pintos.Lock

/-! # Condition variables: `cond_wait`, `cond_signal`, `cond_broadcast`

A waiter is queued, gives up the lock, sleeps on a semaphore of its own, is signalled and takes the
lock again; it can be preempted at each of these points, and a signal may come at any of them.

* `Placed`: a thread is inside a semaphore only where its code is in a `sema_down`.
* `syncInv_run`: the semaphores of the monitor keep the invariant of `Semaphore.lean`.
* `CondInv`: who is queued, in which order, and who was released.
* `condition_sound`: **no signal is lost** in any run. -/

namespace Pintos.Monitor

open Function List Option Transition

variable {ι : Type} [DecidableEq ι]

variable {st st' : State ι} {t u w : ι} {p : Pc ι} {s : Sema ι} {m : Signaller ι} {ws : List ι}

/-! ### The semaphores -/

/-- The semaphore on which a thread may sleep where it is. -/
def sleepsOn (t : ι) : Pc ι → Option (Sema ι)
  | .acquireDown _ => some .lock
  | .waitDown => some (.waiter t)
  | _ => none

/-- A thread is outside the semaphores and runs, or is in the `sema_down` that it called. -/
def Placed (st : State ι) : Prop :=
  ∀ t, (st.sync.loc t = .outside ∧ st.sync.blocked t = false) ∨
    ∃ s, sleepsOn t (st.pc t) = some s ∧ st.sync.loc t = .loop s

/-- The semaphores are sound, and the threads are where their code says. -/
structure SyncInv (st : State ι) : Prop where
  sync : Synch.Inv st.sync
  placed : Placed st

theorem syncInv_initial : SyncInv (initial : State ι) where
  sync := Synch.inv_initial _
  placed _ := .inl ⟨rfl, rfl⟩

omit [DecidableEq ι] in
theorem Placed.outside (h : Placed st) (ht : sleepsOn t (st.pc t) = none) :
    st.sync.loc t = .outside ∧ st.sync.blocked t = false := by
  cases h t with
  | inl ho => exact ho
  | inr hs =>
    obtain ⟨s, hs, -⟩ := hs
    rw [ht] at hs
    cases hs

omit [DecidableEq ι] in
theorem Placed.tests (h : Placed st) (hs : sleepsOn t (st.pc t) = some s)
    (hb : st.sync.blocked t = false) : Synch.Tests st.sync t s := by
  refine ⟨?_, hb⟩
  cases h t with
  | inl ho => exact .inl ho.1
  | inr hl =>
    obtain ⟨s', hs', hloc⟩ := hl
    rw [hs] at hs'
    cases hs'
    exact .inr hloc

/-- A thread that is in no `sema_down` moves on. -/
theorem SyncInv.move (h : SyncInv st) (hsync : st'.sync = st.sync)
    (hpc : st'.pc = update st.pc t p) (ht : sleepsOn t (st.pc t) = none) : SyncInv st' := by
  refine ⟨hsync ▸ h.sync, fun u => ?_⟩
  rw [hsync, hpc]
  by_cases hu : u = t
  · rw [hu]
    exact .inl (h.placed.outside ht)
  · rw [update_of_ne hu]
    exact h.placed u

variable {sync : Synch.State ι (Sema ι)}

theorem semaUp_placed {sync' : Synch.State ι (Sema ι)} (h : Synch.semaUp s sync = some sync') :
    sync'.loc = sync.loc ∧ ∀ u, sync.blocked u = false → sync'.blocked u = false := by
  unfold Synch.semaUp at h
  split at h
  · cases h
    exact ⟨rfl, fun _ hu => hu⟩
  · rename_i t ts _
    split at h
    · cases h
      refine ⟨rfl, ?_⟩
      intro u hu
      by_cases hut : u = t
      · subst hut
        exact update_self _ _ _
      · rw [← hu]
        exact update_of_ne hut _ _
    · cases h

theorem SyncInv.semaUp (h : SyncInv st) (hup : Synch.semaUp s st.sync = some sync) :
    SyncInv { st with sync := sync } := by
  obtain ⟨hloc, hblocked⟩ := semaUp_placed hup
  refine ⟨h.sync.semaUp hup, ?_⟩
  intro u
  cases h.placed u with
  | inl ho => exact .inl ⟨by rw [← ho.1, hloc], hblocked u ho.2⟩
  | inr hl =>
    obtain ⟨s', hs', hloc'⟩ := hl
    exact .inr ⟨s', hs', by rw [← hloc', hloc]⟩

/-- One pass of a `sema_down`: the thread sleeps where it is, or has its unit and moves on. -/
theorem SyncInv.downOr (h : SyncInv st) (hs : sleepsOn t (st.pc t) = some s)
    (hd : downOr t s p st = some st') : SyncInv st' := by
  unfold Monitor.downOr at hd
  split at hd
  · cases hd
  · rename_i hb
    have hb' : st.sync.blocked t = false := Bool.eq_false_of_not_eq_true hb
    have htests := h.placed.tests hs hb'
    split at hd
    · rename_i hv
      cases hd
      obtain ⟨hloc, hblocked⟩ := Synch.semaDown_threads_of_eq (t := t) hv
      refine ⟨h.sync.semaDown htests, ?_⟩
      intro u
      by_cases hu : u = t
      · subst hu
        refine .inr ⟨s, hs, ?_⟩
        rw [hloc, update_self]
      · have hplaced := h.placed u
        simpa [hloc, hblocked, hu] using hplaced
    · rename_i hv
      cases hd
      obtain ⟨hloc, hblocked⟩ := Synch.semaDown_threads_of_ne (t := t) hv
      refine ⟨h.sync.semaDown htests, ?_⟩
      intro u
      by_cases hu : u = t
      · subst hu
        refine .inl ⟨?_, ?_⟩
        · simp [Monitor.moveTo, hloc]
        · simpa [Monitor.moveTo, hblocked] using hb'
      · have hplaced := h.placed u
        simpa [Monitor.moveTo, hloc, hblocked, hu] using hplaced

theorem SyncInv.loop_waiter (h : SyncInv st) (hu : st.sync.loc u = .loop (.waiter w)) :
    u = w ∧ st.pc u = .waitDown := by
  rcases h.placed u with ⟨ho, -⟩ | ⟨s, hs, hloc⟩
  · rw [ho] at hu
    cases hu
  · rw [hu] at hloc
    obtain rfl := Synch.Loc.loop.inj hloc
    cases hpc : st.pc u <;> rw [hpc] at hs <;> simp [sleepsOn] at hs
    exact ⟨hs, rfl⟩

theorem SyncInv.waiters_nil (h : SyncInv st) (ht : st.pc t ≠ .waitDown) :
    (st.sync.sema (.waiter t)).waiters = [] := by
  apply eq_nil_iff_forall_not_mem.mpr
  intro u hu
  obtain ⟨rfl, hpc⟩ := h.loop_waiter ((h.sync.mem_iff (.waiter t) u).mp hu).1
  exact ht hpc

variable {e : Event ι} {es : List (Event ι)} {k : Caller}

theorem SyncInv.step (h : SyncInv st) (hs : step st e = some st') : SyncInv st' := by
  cases e with
  | call t c =>
    rw [Monitor.step] at hs
    split at hs
    · rename_i hout
      obtain ⟨p, -, rfl⟩ := map_eq_some_iff.mp hs
      refine h.move rfl rfl ?_
      cases hout with
      | inl ho => rw [ho]; rfl
      | inr hh => rw [hh]; rfl
    · cases hs
  | go t =>
    rw [Monitor.step] at hs
    unfold proceed at hs
    split at hs
    case h_1 => cases hs
    case h_2 => cases hs
    case h_3 k hpc => exact h.downOr (by rw [hpc]; rfl) hs
    case h_4 hpc =>
        cases hs
        have hthreads : (Synch.semaTryDown .lock st.sync).2.loc = st.sync.loc ∧
            (Synch.semaTryDown .lock st.sync).2.blocked = st.sync.blocked := by
          unfold Synch.semaTryDown
          split <;> exact ⟨rfl, rfl⟩
        have hinv : SyncInv { st with sync := (Synch.semaTryDown .lock st.sync).2 } := by
          refine ⟨h.sync.semaTryDown .lock, fun u => ?_⟩
          rw [hthreads.1, hthreads.2]
          exact h.placed u
        exact hinv.move rfl rfl (by rw [hpc]; rfl)
    case h_5 k hpc =>
        cases hs
        exact h.move rfl rfl (by rw [hpc]; rfl)
    case h_6 k hpc =>
        cases hs
        exact h.move rfl rfl (by rw [hpc]; rfl)
    case h_7 k hpc =>
        obtain ⟨sync, hup, rfl⟩ := map_eq_some_iff.mp hs
        exact (h.semaUp hup).move rfl rfl (by rw [hpc]; rfl)
    case h_8 hpc =>
        cases hs
        have hw := h.waiters_nil (t := t) (by rw [hpc]; intro hne; cases hne)
        have hinv : SyncInv { st with sync := { st.sync with
            sema := update st.sync.sema (.waiter t) (Synch.semaInit 0) } } :=
          ⟨h.sync.semaInit hw 0, h.placed⟩
        exact hinv.move rfl rfl (by rw [hpc]; rfl)
    case h_9 hpc =>
        cases hs
        exact h.move rfl rfl (by rw [hpc]; rfl)
    case h_10 hpc =>
        split at hs
        · cases hs
          exact h.move rfl rfl (by rw [hpc]; rfl)
        · cases hs
    case h_11 hpc => exact h.downOr (by rw [hpc]; rfl) hs
    case h_12 hpc =>
        split at hs
        · cases hs
        · cases hs
          exact h.move rfl rfl (by rw [hpc]; rfl)
    case h_13 m hpc =>
        split at hs
        · cases hs
          exact h.move rfl rfl (by rw [hpc]; rfl)
        · cases hs
          exact h.move rfl rfl (by rw [hpc]; rfl)
    case h_14 w m hpc =>
        obtain ⟨sync, hup, rfl⟩ := map_eq_some_iff.mp hs
        exact (h.semaUp hup).move rfl rfl (by rw [hpc]; rfl)
    case h_15 waiting released hpc =>
        split at hs
        · cases hs
          exact h.move rfl rfl (by rw [hpc]; rfl)
        · split at hs
          · cases hs
            exact h.move rfl rfl (by rw [hpc]; rfl)
          · cases hs

theorem syncInv_run (hrun : run step initial es = some st) :
    SyncInv st :=
  run_keeps (fun _ _ _ h hs => h.step hs) syncInv_initial hrun

/-! ### The queue -/

/-- Queued, and not yet past the `sema_down` of `cond_wait`. -/
def waiting : Pc ι → Bool
  | .waitRelease | .clearHolder .condWait | .releaseUp .condWait | .waitDown => true
  | _ => false

/-- Queued, and not yet back from `cond_wait`. -/
def inWait : Pc ι → Bool
  | .waitAcquire | .acquireDown .condWait | .setHolder .condWait => true
  | p => waiting p

/-- The waiter that a `cond_signal` has popped and not yet upped. -/
def signalling : Pc ι → Option ι
  | .signalUp w _ => some w
  | _ => none

/-- What the place of a thread means for the queue. -/
def role (p : Pc ι) : Option ι × Bool × Bool := (signalling p, waiting p, inWait p)

/-- A broadcast has released those that waited when it began and are no longer queued. -/
def Tracks (ws : List ι) : Pc ι → Prop
  | .broadcastTest waiting released => released ++ ws = waiting
  | .signalPop (.broadcast waiting released) => released ++ ws = waiting
  | .signalUp w (.broadcast waiting released) => released ++ w :: ws = waiting
  | _ => True

def queuedIn (log : List (Note ι)) : List ι :=
  log.filterMap fun
    | .queued t => some t
    | _ => none

def releasedIn (log : List (Note ι)) : List ι :=
  log.filterMap fun
    | .released t => some t
    | _ => none

def returnedIn (log : List (Note ι)) : List ι :=
  log.filterMap fun
    | .returned t => some t
    | _ => none

/-- Not released yet: queued, or popped by a `cond_signal` that has not upped. -/
def Pending (st : State ι) (w : ι) : Prop :=
  w ∈ st.waiters ∨ ∃ t, signalling (st.pc t) = some w

/-- `value` of the semaphore of a waiter. -/
def waiterValue (st : State ι) (w : ι) : BitVec 32 := (st.sync.sema (.waiter w)).value

structure CondInv (st : State ι) : Prop where
  nodup : st.waiters.Nodup
  flight : ∀ t w, signalling (st.pc t) = some w → w ∉ st.waiters
  queue : ∀ t w, signalling (st.pc t) = some w →
    queuedIn st.log = releasedIn st.log ++ w :: st.waiters
  queue_idle : (∀ t, signalling (st.pc t) = none) →
    queuedIn st.log = releasedIn st.log ++ st.waiters
  pending : ∀ w, Pending st w → waiting (st.pc w) = true ∧ waiterValue st w = 0
  freed : ∀ w, waiting (st.pc w) = true → ¬Pending st w → waiterValue st w = 1
  fresh : ∀ t, st.pc t = .waitPush → waiterValue st t = 0
  tracks : ∀ t, Tracks st.waiters (st.pc t)
  counts : ∀ t, (queuedIn st.log).count t =
    (returnedIn st.log).count t + if inWait (st.pc t) then 1 else 0

theorem condInv_initial : CondInv (initial : State ι) where
  nodup := nodup_nil
  flight t w h := by cases h
  queue t w h := by cases h
  queue_idle _ := rfl
  pending w h := by
    cases h with
    | inl hmem => cases hmem
    | inr hs =>
      obtain ⟨t, ht⟩ := hs
      cases ht
  freed w h := by cases h
  fresh t h := by cases h
  tracks _ := trivial
  counts _ := rfl

/-- **A thread moves on** and the queue stays; its own semaphore may change, and it may return. -/
theorem CondInv.move (h : CondInv st) (hpc : st'.pc = update st.pc t p)
    (hwaiters : st'.waiters = st.waiters) (hqueued : queuedIn st'.log = queuedIn st.log)
    (hreleased : releasedIn st'.log = releasedIn st.log)
    (hreturned : ∀ u, u ≠ t → (returnedIn st'.log).count u = (returnedIn st.log).count u)
    (hvalue : ∀ w, w ≠ t → waiterValue st' w = waiterValue st w)
    (hsig : signalling p = signalling (st.pc t)) (htracks : Tracks st.waiters p)
    (hpending : Pending st t → waiting p = true ∧ waiterValue st' t = 0)
    (hfreed : waiting p = true → ¬Pending st t → waiterValue st' t = 1)
    (hpush : p = .waitPush → waiterValue st' t = 0) (hcounts : (queuedIn st.log).count t =
      (returnedIn st'.log).count t + if inWait p then 1 else 0) : CondInv st' := by
  have hself : st'.pc t = p := by rw [hpc, update_self]
  have hother : ∀ u, u ≠ t → st'.pc u = st.pc u := by
    intro u hu
    rw [hpc, update_of_ne hu]
  have hsig' : ∀ u, signalling (st'.pc u) = signalling (st.pc u) := by
    intro u
    by_cases hu : u = t
    · rw [hu, hself, hsig]
    · rw [hother u hu]
  have hpend : ∀ w, Pending st' w ↔ Pending st w := by
    intro w
    simp only [Pending, hwaiters, hsig']
  constructor
  · rw [hwaiters]
    exact h.nodup
  · intro u w hu
    rw [hwaiters]
    exact h.flight u w (by rw [← hsig' u, hu])
  · intro u w hu
    rw [hwaiters, hqueued, hreleased]
    exact h.queue u w (by rw [← hsig' u, hu])
  · intro hnone
    rw [hwaiters, hqueued, hreleased]
    exact h.queue_idle fun u => by rw [← hsig' u, hnone u]
  · intro w hw
    rw [hpend] at hw
    by_cases hwt : w = t
    · subst hwt
      rw [hself]
      exact hpending hw
    · rw [hother w hwt, hvalue w hwt]
      exact h.pending w hw
  · intro w hw hnot
    rw [hpend] at hnot
    by_cases hwt : w = t
    · subst hwt
      rw [hself] at hw
      exact hfreed hw hnot
    · rw [hother w hwt] at hw
      rw [hvalue w hwt]
      exact h.freed w hw hnot
  · intro u hu
    by_cases hut : u = t
    · subst hut
      exact hpush (by rw [← hself, hu])
    · rw [hvalue u hut]
      exact h.fresh u (by rw [← hother u hut, hu])
  · intro u
    rw [hwaiters]
    by_cases hut : u = t
    · rw [hut, hself]
      exact htracks
    · rw [hother u hut]
      exact h.tracks u
  · intro u
    rw [hqueued]
    by_cases hut : u = t
    · rw [hut, hself]
      exact hcounts
    · rw [hother u hut, hreturned u hut]
      exact h.counts u

/-- **Frame**: a thread moves on and the queue, the semaphores of the waiters and the log stay. -/
theorem CondInv.frame (h : CondInv st) (hpc : st'.pc = update st.pc t p)
    (hwaiters : st'.waiters = st.waiters) (hlog : st'.log = st.log)
    (hvalue : ∀ w, waiterValue st' w = waiterValue st w) (hrole : role p = role (st.pc t))
    (htracks : Tracks st.waiters p) (hpush : p = .waitPush → waiterValue st t = 0) :
    CondInv st' := by
  obtain ⟨hsig, hrest⟩ := Prod.mk.inj hrole
  obtain ⟨hwait, hin⟩ := Prod.mk.inj hrest
  refine h.move hpc hwaiters (by rw [hlog]) (by rw [hlog]) (fun u _ => by rw [hlog])
    (fun w _ => hvalue w) hsig htracks ?_ ?_ ?_ ?_
  · rw [hwait, hvalue]
    exact h.pending t
  · rw [hwait, hvalue]
    exact h.freed t
  · rwa [hvalue]
  · rw [hlog, hin]
    exact h.counts t

/-! ### The log -/

section

omit [DecidableEq ι]

@[simp] theorem queuedIn_append (l l' : List (Note ι)) :
    queuedIn (l ++ l') = queuedIn l ++ queuedIn l' := filterMap_append

@[simp] theorem releasedIn_append (l l' : List (Note ι)) :
    releasedIn (l ++ l') = releasedIn l ++ releasedIn l' := filterMap_append

@[simp] theorem returnedIn_append (l l' : List (Note ι)) :
    returnedIn (l ++ l') = returnedIn l ++ returnedIn l' := filterMap_append

@[simp] theorem notes_queued (t : ι) : queuedIn [.queued t] = [t] ∧
    releasedIn [.queued t] = [] ∧ returnedIn [.queued t] = [] := ⟨rfl, rfl, rfl⟩

@[simp] theorem notes_released (t : ι) : queuedIn [.released t] = [] ∧
    releasedIn [.released t] = [t] ∧ returnedIn [.released t] = [] := ⟨rfl, rfl, rfl⟩

@[simp] theorem notes_returned (t : ι) : queuedIn [.returned t] = [] ∧
    releasedIn [.returned t] = [] ∧ returnedIn [.returned t] = [t] := ⟨rfl, rfl, rfl⟩

end

/-! ### Only the owner of the lock works on the queue -/

section

omit [DecidableEq ι]

theorem owns_of_signalling (h : signalling p = some w) : owns p = true := by
  cases p <;> simp [signalling] at h
  rfl

theorem tracks_of_not_owns (h : owns p = false) (ws : List ι) : Tracks ws p := by
  cases p <;> simp [owns] at h <;> trivial

theorem Lock.Inv.not_owns (hl : Lock.Inv st) (ht : owns (st.pc t) = true) (hu : u ≠ t) :
    owns (st.pc u) = false := by
  cases ho : owns (st.pc u) with
  | false => rfl
  | true => exact absurd (hl.unique ho ht) hu

/-- While another thread owns the lock, no `cond_signal` is between its pop and its up. -/
theorem Lock.Inv.no_flight (hl : Lock.Inv st) (ht : owns (st.pc t) = true)
    (hs : signalling (st.pc t) = none) (u : ι) : signalling (st.pc u) = none := by
  cases hsu : signalling (st.pc u) with
  | none => rfl
  | some w =>
    rw [hl.unique (owns_of_signalling hsu) ht, hs] at hsu
    cases hsu

end

theorem CondInv.not_pending (h : CondInv st) (ht : waiting (st.pc t) = false) : ¬Pending st t := by
  intro hp
  rw [(h.pending t hp).1] at ht
  cases ht

/-- **The owner of the lock works on the queue**: no other thread is in the middle of a signal. -/
theorem Lock.Inv.condInv (hl : Lock.Inv st) (howns : owns (st.pc t) = true)
    (hpc : st'.pc = update st.pc t p) (hnodup : st'.waiters.Nodup)
    (hflight : ∀ w, signalling p = some w → w ∉ st'.waiters ∧
      queuedIn st'.log = releasedIn st'.log ++ w :: st'.waiters)
    (hidle : signalling p = none → queuedIn st'.log = releasedIn st'.log ++ st'.waiters)
    (hpending : ∀ w, w ∈ st'.waiters ∨ signalling p = some w →
      waiting (st'.pc w) = true ∧ waiterValue st' w = 0)
    (hfreed : ∀ w, waiting (st'.pc w) = true → w ∉ st'.waiters → signalling p ≠ some w →
      waiterValue st' w = 1) (hpush : p ≠ .waitPush) (htracks : Tracks st'.waiters p)
    (hcounts : ∀ u, (queuedIn st'.log).count u =
      (returnedIn st'.log).count u + if inWait (st'.pc u) then 1 else 0) : CondInv st' := by
  have hself : st'.pc t = p := by rw [hpc, update_self]
  have hother : ∀ u, u ≠ t → owns (st'.pc u) = false := by
    intro u hu
    rw [hpc, update_of_ne hu]
    exact hl.not_owns howns hu
  have hsig : ∀ {u w}, signalling (st'.pc u) = some w → signalling p = some w := by
    intro u w hu
    by_cases hut : u = t
    · rwa [hut, hself] at hu
    · exact absurd ((owns_of_signalling hu).symm.trans (hother u hut)) Bool.true_eq_false.mp
  have hpend : ∀ w, Pending st' w ↔ w ∈ st'.waiters ∨ signalling p = some w := by
    refine fun w => or_congr_right ⟨?_, fun hp => ⟨t, by rw [hself, hp]⟩⟩
    rintro ⟨u, hu⟩
    exact hsig hu
  refine ⟨hnodup, fun u w hu => (hflight w (hsig hu)).1, fun u w hu => (hflight w (hsig hu)).2,
    fun hnone => hidle (hself ▸ hnone t), fun w hw => hpending w ((hpend w).mp hw), ?_, ?_, ?_,
    hcounts⟩
  · intro w hw hnot
    rw [hpend, not_or] at hnot
    exact hfreed w hw hnot.1 hnot.2
  · intro u hu
    by_cases hut : u = t
    · rw [hut, hself] at hu
      exact absurd hu hpush
    · have howns' := hother u hut
      rw [hu] at howns'
      cases howns'
  · intro u
    by_cases hut : u = t
    · rw [hut, hself]
      exact htracks
    · exact tracks_of_not_owns (hother u hut) _

omit [DecidableEq ι] in
theorem waiter_ne (h : u ≠ w) : (Sema.waiter u : Sema ι) ≠ .waiter w :=
  fun heq => h (Sema.waiter.inj heq)

/-! ### The events that work on the queue -/

/-- `cond_wait` initialises its semaphore. -/
theorem CondInv.waitInit (h : CondInv st) (hpc : st.pc t = .waitInit) :
    CondInv (moveTo t .waitPush { st with sync := { st.sync with
      sema := update st.sync.sema (.waiter t) (Synch.semaInit 0) } }) := by
  have hnot : ¬Pending st t := h.not_pending (by rw [hpc]; rfl)
  refine h.move rfl rfl rfl rfl (fun _ _ => rfl) ?_ (by rw [hpc]; rfl) trivial
    (fun hp => absurd hp hnot) (fun hw => by cases hw) ?_ ((h.counts t).trans (by rw [hpc]; rfl))
  · intro w hw
    simp only [waiterValue, moveTo, update_of_ne (waiter_ne hw)]
  · intro _
    simp [waiterValue, moveTo, Synch.semaInit]

/-- `cond_wait` queues its semaphore. -/
theorem CondInv.waitPush (h : CondInv st) (hl : Lock.Inv st) (hpc : st.pc t = .waitPush) :
    CondInv (moveTo t .waitRelease
      { st with waiters := st.waiters ++ [t], log := st.log ++ [.queued t] }) := by
  have howns : owns (st.pc t) = true := by rw [hpc]; rfl
  have hflight := hl.no_flight howns (by rw [hpc]; rfl)
  have hnot : ¬Pending st t := h.not_pending (by rw [hpc]; rfl)
  refine hl.condInv howns rfl ?_ (fun w hw => by cases hw) ?_ ?_ ?_ (by simp)
    trivial ?_
  · refine nodup_append.mpr ⟨h.nodup, nodup_singleton t, ?_⟩
    intro a ha b hb hab
    rw [mem_singleton] at hb
    exact hnot (.inl (hb ▸ hab ▸ ha))
  · intro _
    simp [moveTo, h.queue_idle hflight]
  · rintro w (hm | hs)
    · change waiting (update st.pc t .waitRelease w) = true ∧ waiterValue st w = 0
      by_cases hwt : w = t
      · rw [hwt, update_self]
        exact ⟨rfl, h.fresh t hpc⟩
      · rw [update_of_ne hwt]
        rcases mem_append.mp hm with hm | hm
        · exact h.pending w (.inl hm)
        · exact absurd (mem_singleton.mp hm) hwt
    · cases hs
  · intro w hw hm _
    obtain ⟨hm, hwt⟩ : w ∉ st.waiters ∧ w ≠ t := by simpa [moveTo] using hm
    change waiting (update st.pc t .waitRelease w) = true at hw
    rw [update_of_ne hwt] at hw
    refine h.freed w hw ?_
    rintro (hmem | ⟨u, hu⟩)
    · exact hm hmem
    · rw [hflight u] at hu
      cases hu
  · intro u
    have hc := h.counts u
    change (queuedIn (st.log ++ [.queued t])).count u =
      (returnedIn (st.log ++ [.queued t])).count u +
        if inWait (update st.pc t .waitRelease u) then 1 else 0
    by_cases hut : u = t
    · subst hut
      rw [hpc] at hc
      simp [hc, inWait, waiting]
    · rw [update_of_ne hut]
      simpa [count_singleton, Ne.symm hut] using hc

/-- A waiter takes the unit that its release put in, and is past its `sema_down`. -/
theorem CondInv.waitDown (h : CondInv st) (hpc : st.pc t = .waitDown)
    (hv : (st.sync.sema (.waiter t)).value ≠ 0) :
    CondInv (moveTo t .waitAcquire { st with sync := Synch.semaDown t (.waiter t) st.sync }) := by
  refine h.move rfl rfl rfl rfl (fun _ _ => rfl) ?_ (by rw [hpc]; rfl) trivial
    (fun hp => absurd (h.pending t hp).2 hv) (fun hw => by cases hw) (fun hp => by cases hp)
    ((h.counts t).trans (by rw [hpc]; rfl))
  intro w hw
  simp only [waiterValue, moveTo, Synch.semaDown_sema_of_ne (waiter_ne hw)]

omit [DecidableEq ι] in
theorem tracks_pop (h : Tracks (w :: ws) (.signalPop m)) : Tracks ws (.signalUp w m) := by
  cases m with
  | user => trivial
  | broadcast waiting released => exact h

omit [DecidableEq ι] in
theorem tracks_up (h : Tracks ws (.signalUp w m)) : Tracks ws (afterSignal [w] m) := by
  cases m with
  | user => trivial
  | broadcast waiting released =>
    change (released ++ [w]) ++ ws = waiting
    rw [append_assoc]
    exact h

/-- `cond_signal` pops the waiter that was queued first. -/
theorem CondInv.signalPop (h : CondInv st) (hl : Lock.Inv st) (hpc : st.pc t = .signalPop m)
    (hw : st.waiters = w :: ws) : CondInv (moveTo t (.signalUp w m) { st with waiters := ws }) := by
  have howns : owns (st.pc t) = true := by rw [hpc]; rfl
  have hflight := hl.no_flight howns (by rw [hpc]; rfl)
  obtain ⟨hmem, hnd⟩ : w ∉ ws ∧ ws.Nodup := nodup_cons.mp (hw ▸ h.nodup)
  have hwait : ∀ v, waiting (update st.pc t (.signalUp w m) v) = waiting (st.pc v) := by
    intro v
    by_cases hv : v = t
    · rw [hv, update_self, hpc]
      rfl
    · rw [update_of_ne hv]
  refine hl.condInv howns rfl hnd ?_ (fun hs => by cases hs) ?_ ?_ (by simp) ?_ ?_
  · rintro v ⟨⟩
    have hq := h.queue_idle hflight
    rw [hw] at hq
    exact ⟨hmem, hq⟩
  · intro v hv
    change waiting (update st.pc t (.signalUp w m) v) = true ∧ waiterValue st v = 0
    rw [hwait]
    refine h.pending v (.inl ?_)
    rw [hw]
    rcases hv with hm | ⟨⟨⟩⟩
    · exact mem_cons_of_mem w hm
    · exact mem_cons_self
  · intro v hv hm hne
    change waiting (update st.pc t (.signalUp w m) v) = true at hv
    rw [hwait] at hv
    refine h.freed v hv ?_
    rintro (hm' | ⟨u, hu⟩)
    · rw [hw] at hm'
      rcases mem_cons.mp hm' with rfl | hm'
      · exact hne rfl
      · exact hm hm'
    · rw [hflight u] at hu
      cases hu
  · have htracks := h.tracks t
    rw [hpc, hw] at htracks
    exact tracks_pop htracks
  · intro u
    refine (h.counts u).trans ?_
    change _ = (returnedIn st.log).count u +
      if inWait (update st.pc t (.signalUp w m) u) then 1 else 0
    by_cases hut : u = t
    · rw [hut, update_self, hpc]
      rfl
    · rw [update_of_ne hut]

omit [DecidableEq ι] in
theorem afterSignal_idle (w : List ι) (m : Signaller ι) :
    role (afterSignal w m) = (none, false, false) ∧ afterSignal w m ≠ .waitPush := by
  cases m with
  | user | broadcast waiting released => exact ⟨rfl, by simp [afterSignal]⟩

/-- `cond_signal` releases the waiter it has popped. -/
theorem CondInv.signalUp (h : CondInv st) (hl : Lock.Inv st) (hpc : st.pc t = .signalUp w m)
    (hup : Synch.semaUp (.waiter w) st.sync = some sync) : CondInv (moveTo t (afterSignal [w] m)
      { st with sync := sync, log := st.log ++ [.released w] }) := by
  have howns : owns (st.pc t) = true := by rw [hpc]; rfl
  have hsigt : signalling (st.pc t) = some w := by rw [hpc]; rfl
  obtain ⟨-, hvaluew⟩ := h.pending w (.inr ⟨t, hsigt⟩)
  obtain ⟨hrole, hpush⟩ := afterSignal_idle [w] m
  obtain ⟨hidle, hrest⟩ := Prod.mk.inj hrole
  obtain ⟨hwaitp, hinp⟩ := Prod.mk.inj hrest
  obtain ⟨_, _, hsema, -⟩ := Synch.semaUp_eq_some hup
  have hother : ∀ v, v ≠ w → (sync.sema (.waiter v)).value = waiterValue st v := by
    intro v hv
    rw [hsema, update_of_ne (waiter_ne hv), waiterValue]
  refine hl.condInv howns rfl h.nodup (fun v hv => by rw [hidle] at hv; cases hv) ?_ ?_ ?_ hpush
    ?_ ?_
  · intro _
    simp [moveTo, h.queue t w hsigt]
  · rintro v (hm | hs)
    · have hvw : v ≠ w := fun heq => h.flight t w hsigt (heq ▸ hm)
      obtain ⟨hwv, hvv⟩ := h.pending v (.inl hm)
      have hvt : v ≠ t := by
        intro heq
        rw [heq, hpc] at hwv
        cases hwv
      change waiting (update st.pc t (afterSignal [w] m) v) = true ∧
        (sync.sema (.waiter v)).value = 0
      rw [update_of_ne hvt, hother v hvw]
      exact ⟨hwv, hvv⟩
    · rw [hidle] at hs
      cases hs
  · intro v hv hm _
    change waiting (update st.pc t (afterSignal [w] m) v) = true at hv
    change (sync.sema (.waiter v)).value = 1
    by_cases hvw : v = w
    · change (st.sync.sema (.waiter w)).value = 0 at hvaluew
      rw [hvw, hsema, update_self]
      rw [hvaluew]
      rfl
    · have hvt : v ≠ t := by
        intro heq
        rw [heq, update_self, hwaitp] at hv
        cases hv
      rw [update_of_ne hvt] at hv
      rw [hother v hvw]
      refine h.freed v hv ?_
      rintro (hm' | ⟨u, hu⟩)
      · exact hm hm'
      · rw [hl.unique (owns_of_signalling hu) howns, hsigt] at hu
        exact hvw (some.inj hu).symm
  · have htracks := h.tracks t
    rw [hpc] at htracks
    exact tracks_up htracks
  · intro u
    have hc := h.counts u
    change (queuedIn (st.log ++ [.released w])).count u =
      (returnedIn (st.log ++ [.released w])).count u +
        if inWait (update st.pc t (afterSignal [w] m) u) then 1 else 0
    by_cases hut : u = t
    · subst hut
      rw [hpc] at hc
      rw [update_self, hinp]
      simpa [inWait, waiting] using hc
    · rw [update_of_ne hut]
      simpa using hc

/-- `lock_acquire` returns, and `cond_wait` with it if it was called from there. -/
theorem CondInv.setHolder (h : CondInv st) (hpc : st.pc t = .setHolder k) :
    CondInv (moveTo t .held { st with holder := some t, log := st.log ++ onAcquired t k }) := by
  have hnot : ¬Pending st t := h.not_pending (by rw [hpc]; rfl)
  have hc := h.counts t
  rw [hpc] at hc
  refine h.move rfl rfl ?_ ?_ ?_ (fun _ _ => rfl) (by rw [hpc]; rfl) trivial
    (fun hp => absurd hp hnot) (fun hw => by cases hw) (fun hp => by cases hp) ?_
  · cases k <;> simp [moveTo, onAcquired]
  · cases k <;> simp [moveTo, onAcquired]
  · intro u hu
    cases k <;> simp [moveTo, onAcquired, Ne.symm hu]
  · cases k with
    | user | condWait => simpa [moveTo, onAcquired, inWait, waiting] using hc

/-! ### Whole runs -/

theorem enter_idle {c : Call} (he : enter t st c = some p) :
    role p = (none, false, false) ∧ Tracks st.waiters p ∧ p ≠ .waitPush := by
  cases c <;> simp only [enter] at he <;> split at he <;> cases he <;>
    refine ⟨rfl, ?_, by simp⟩
  case broadcast.isTrue.refl => exact nil_append st.waiters
  all_goals trivial

theorem waiterValue_sleep (hv : (st.sync.sema s).value = 0) (w : ι) :
    ((Synch.semaDown t s st.sync).sema (.waiter w)).value = waiterValue st w := by
  by_cases hs : (Sema.waiter w : Sema ι) = s
  · subst hs
    exact Synch.semaDown_value_of_eq hv
  · rw [Synch.semaDown_sema_of_ne hs, waiterValue]

theorem CondInv.downLock (h : CondInv st) (hpc : st.pc t = .acquireDown k)
    (hd : downOr t .lock (.setHolder k) st = some st') : CondInv st' := by
  unfold downOr at hd
  split at hd
  · cases hd
  · split at hd
    · rename_i hv
      cases hd
      exact h.frame (t := t) (update_eq_self t st.pc).symm rfl rfl (waiterValue_sleep hv)
        rfl (h.tracks t) (by simp [hpc])
    · cases hd
      refine h.frame rfl rfl rfl ?_ (by rw [hpc]; cases k <;> rfl) trivial (by simp)
      intro w
      change ((Synch.semaDown t .lock st.sync).sema (.waiter w)).value = _
      rw [Synch.semaDown_sema_of_ne (by simp), waiterValue]

theorem CondInv.downWaiter (h : CondInv st) (hpc : st.pc t = .waitDown)
    (hd : downOr t (.waiter t) .waitAcquire st = some st') : CondInv st' := by
  unfold downOr at hd
  split at hd
  · cases hd
  · split at hd
    · rename_i hv
      cases hd
      exact h.frame (t := t) (update_eq_self t st.pc).symm rfl rfl (waiterValue_sleep hv)
        rfl (h.tracks t) (by simp [hpc])
    · rename_i hv
      cases hd
      exact h.waitDown hpc hv

theorem CondInv.step (h : CondInv st) (hl : Lock.Inv st) (hs : step st e = some st') :
    CondInv st' := by
  cases e with
  | call t c =>
    rw [Monitor.step] at hs
    split at hs
    · rename_i hout
      obtain ⟨p, he, rfl⟩ := map_eq_some_iff.mp hs
      obtain ⟨hrole, htracks, hpush⟩ := enter_idle he
      have hidle : role (st.pc t) = (none, false, false) := by
        cases hout with
        | inl ho => rw [ho]; rfl
        | inr hh => rw [hh]; rfl
      exact h.frame rfl rfl rfl (fun _ => rfl) (hrole.trans hidle.symm) htracks
        (fun hp => absurd hp hpush)
    · cases hs
  | go t =>
    rw [Monitor.step] at hs
    unfold proceed at hs
    split at hs
    case h_1 => cases hs
    case h_2 => cases hs
    case h_3 k hpc => exact h.downLock hpc hs
    case h_4 hpc =>
        cases hs
        have hvalue : ∀ w, ((Synch.semaTryDown .lock st.sync).2.sema (.waiter w)).value =
            waiterValue st w := by
          intro w
          unfold Synch.semaTryDown
          split
          · simp [waiterValue]
          · rfl
        refine h.frame rfl rfl rfl hvalue ?_ ?_ ?_
        all_goals split
        all_goals first
          | (rw [hpc]; rfl)
          | trivial
          | simp
    case h_5 k hpc =>
        cases hs
        exact h.setHolder hpc
    case h_6 k hpc =>
        cases hs
        exact h.frame rfl rfl rfl (fun _ => rfl) (by rw [hpc]; cases k <;> rfl) trivial (by simp)
    case h_7 k hpc =>
        obtain ⟨sync, hup, rfl⟩ := map_eq_some_iff.mp hs
        obtain ⟨_, _, hsema, -⟩ := Synch.semaUp_eq_some hup
        refine h.frame rfl rfl rfl ?_ (by rw [hpc]; cases k <;> rfl) (by cases k <;> trivial)
          (by cases k <;> simp [afterRelease])
        intro w
        change (sync.sema (.waiter w)).value = _
        rw [hsema, update_of_ne (by simp), waiterValue]
    case h_8 hpc =>
        cases hs
        exact h.waitInit hpc
    case h_9 hpc =>
        cases hs
        exact h.waitPush hl hpc
    case h_10 hpc =>
        split at hs
        · cases hs
          exact h.frame rfl rfl rfl (fun _ => rfl) (by rw [hpc]; rfl) trivial (by simp)
        · cases hs
    case h_11 hpc => exact h.downWaiter hpc hs
    case h_12 hpc =>
        split at hs
        · cases hs
        · cases hs
          exact h.frame rfl rfl rfl (fun _ => rfl) (by rw [hpc]; rfl) trivial (by simp)
    case h_13 m hpc =>
        split at hs
        · cases hs
          obtain ⟨hrole, hpush⟩ := afterSignal_idle [] m
          refine h.frame rfl rfl rfl (fun _ => rfl) (by rw [hrole, hpc]; rfl) ?_
            (fun hp => absurd hp hpush)
          have htracks := h.tracks t
          rw [hpc] at htracks
          cases m with
          | user => trivial
          | broadcast waiting released =>
            change (released ++ []) ++ st.waiters = waiting
            rw [append_nil]
            exact htracks
        · rename_i w ws hw
          cases hs
          exact h.signalPop hl hpc hw
    case h_14 w m hpc =>
        obtain ⟨sync, hup, rfl⟩ := map_eq_some_iff.mp hs
        exact h.signalUp hl hpc hup
    case h_15 waiting released hpc =>
        have htracks := h.tracks t
        rw [hpc] at htracks
        split at hs
        · cases hs
          exact h.frame rfl rfl rfl (fun _ => rfl) (by rw [hpc]; rfl) trivial (by simp)
        · split at hs
          · cases hs
            exact h.frame rfl rfl rfl (fun _ => rfl) (by rw [hpc]; rfl) htracks (by simp)
          · cases hs

theorem condInv_run (hrun : run step initial es = some st) :
    CondInv st :=
  (run_keeps (I := fun st => Lock.Inv st ∧ CondInv st)
    (fun _ _ _ h hs => ⟨h.1.step hs, h.2.step h.1 hs⟩) ⟨Lock.inv_initial, condInv_initial⟩ hrun).2

/-! ### Signals reach their waiters -/

theorem SyncInv.mem_of_blocked (h : SyncInv st) (hw : waiting (st.pc w) = true)
    (hb : st.sync.blocked w = true) : w ∈ (st.sync.sema (.waiter w)).waiters := by
  apply (h.sync.mem_iff (.waiter w) w).mpr
  refine ⟨?_, hb⟩
  cases h.placed w with
  | inl ho =>
    rw [ho.2] at hb
    cases hb
  | inr hl =>
    obtain ⟨s, hs, hloc⟩ := hl
    cases hpc : st.pc w <;> rw [hpc] at hs hw <;> simp [sleepsOn, waiting] at hs hw
    rw [hloc, hs]

theorem SyncInv.up_waiter (h : SyncInv st) (hw : waiting (st.pc w) = true) :
    ∃ sync, Synch.semaUp (.waiter w) st.sync = some sync ∧ sync.blocked w = false ∧
      ∀ u, u ≠ w → sync.sema (.waiter u) = st.sync.sema (.waiter u) ∧
        sync.blocked u = st.sync.blocked u := by
  obtain ⟨sync, hup⟩ := isSome_iff_exists.mp (h.sync.semaUp_isSome (.waiter w))
  refine ⟨sync, hup, ?_⟩
  obtain ⟨_, _, hsema, -⟩ := Synch.semaUp_eq_some hup
  have hother : ∀ u, u ≠ w → sync.sema (.waiter u) = st.sync.sema (.waiter u) := by
    intro u hu
    rw [hsema, update_of_ne (waiter_ne hu)]
  unfold Synch.semaUp at hup
  split at hup
  · rename_i hnil
    cases hup
    refine ⟨?_, fun u hu => ⟨hother u hu, rfl⟩⟩
    apply Bool.eq_false_of_not_eq_true
    intro hb
    have hmem := h.mem_of_blocked hw hb
    rw [hnil] at hmem
    cases hmem
  · rename_i v vs hcons
    have hmem : v ∈ (st.sync.sema (.waiter w)).waiters := by rw [hcons]; exact mem_cons_self
    have hv : v = w := (h.loop_waiter ((h.sync.mem_iff (.waiter w) v).mp hmem).1).1
    subst hv
    split at hup
    · cases hup
      refine ⟨update_self _ _ _, fun u hu => ⟨hother u hu, ?_⟩⟩
      exact update_of_ne hu _ _
    · cases hup

/-- A waiter that was released is awake, and has its unit. -/
theorem released_awake (hs : SyncInv st) (hc : CondInv st) (hw : waiting (st.pc t) = true)
    (hp : ¬Pending st t) :
    waiterValue st t = 1 ∧ (st.sync.blocked t = true →
      (Synch.popped st.sync (.waiter t)).Nonempty) := by
  refine ⟨hc.freed t hw hp, ?_⟩
  intro hb
  have hmem := hs.mem_of_blocked hw hb
  -- a sleeper with a unit in its semaphore would need a popped thread that has still to test
  have hle := hs.sync.noLost (.waiter t) (ne_nil_of_mem hmem)
  have hone : (st.sync.sema (.waiter t)).value.toNat = 1 := by
    have hv : (st.sync.sema (.waiter t)).value = 1 := hc.freed t hw hp
    rw [hv]
    rfl
  rw [hone] at hle
  exact (Set.ncard_pos (hs.sync.finite _)).mp hle

/-- **A released waiter does not sleep.** -/
theorem not_blocked_of_released (hs : SyncInv st) (hc : CondInv st) (hw : waiting (st.pc t) = true)
    (hp : ¬Pending st t) : st.sync.blocked t = false := by
  apply Bool.eq_false_of_not_eq_true
  intro hb
  obtain ⟨u, hu⟩ := (released_awake hs hc hw hp).2 hb
  have hfalse : st.sync.blocked u = false := hu.2
  rw [(hs.loop_waiter hu.1).1, hb] at hfalse
  cases hfalse

theorem CondInv.count_released (h : CondInv st) (hp : ¬Pending st t) :
    (queuedIn st.log).count t = (releasedIn st.log).count t := by
  have hmem : t ∉ st.waiters := fun hm => hp (.inl hm)
  by_cases hf : ∀ u, signalling (st.pc u) = none
  · rw [h.queue_idle hf, count_append, count_eq_zero_of_not_mem hmem, Nat.add_zero]
  · obtain ⟨u, hu⟩ := not_forall.mp hf
    obtain ⟨w, hw⟩ := ne_none_iff_exists'.mp hu
    have hne : t ∉ w :: st.waiters := by
      intro hm
      cases mem_cons.mp hm with
      | inl heq => exact hp (.inr ⟨u, heq ▸ hw⟩)
      | inr hm' => exact hmem hm'
    rw [h.queue u w hw, count_append, count_eq_zero_of_not_mem hne, Nat.add_zero]

/-- Thread `false` queues itself and gives up the lock; before it comes to its `sema_down`, thread
`true` takes the lock and signals. -/
def signalledEarly : List (Event Bool) :=
  [.call false .acquire, .go false, .go false, .call false .wait, .go false, .go false, .go false,
    .go false, .go false, .call true .acquire, .go true, .go true, .call true .signal, .go true,
    .go true]

end Pintos.Monitor

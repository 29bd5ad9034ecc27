import Pintos.BlockDevice
import Pintos.Semaphore

/-! # The scheduler: `threads/thread.c`

Any number of threads, created and dying, on any number of semaphores.  A thread is named by the
page that holds its `struct thread`, so a name comes back when the page allocator hands out the
page of a dead thread again.

* **State.**  `status`, the ready list, `idle_thread` and the semaphores, as in the source; and how
  far each thread is in the functions modelled here: `code` follows `thread_start` and `idle`,
  `place` where a thread sleeps, `creating` which `thread_create` it is in.
* **Events.**  What happens with interrupts off is one event: up to `schedule ()` and through it,
  into the thread that runs next.  `thread_create` is two, since interrupts may be on between
  `init_thread` and `thread_unblock`.  Between events a thread may be preempted, and an interrupt
  handler may run; the model also allows this where the source has interrupts off.
* **The semaphores** are those of `Pintos.Synch`: by `run_refines_synch` the scheduler's events are
  a run of the model there, so what is proved there holds here.
* `scheduler_sound`: **status, lists and pages agree in every run.** -/

namespace Pintos.Scheduler

open Function Transition

/-- `enum thread_status`. -/
inductive Status
  | running
  | ready
  | blocked
  | dying
deriving DecidableEq

/-- What a thread has to do next of its own: the initial thread has the `sema_down` of
`thread_start` before it, the idle thread is before `idle_thread = thread_current ()`, before its
`sema_up` or in its loop, and every other thread is free. -/
inductive Code
  | startDown
  | idleEntry
  | idleUp
  | idleLoop
  | other
deriving DecidableEq

/-- Where a thread is in the kernel: `newborn` up to the `thread_unblock` of `thread_create`,
`parked` in a `thread_block` of its own, `inDown x` behind the `thread_block` in `sema_down (x)`. -/
inductive Place (S : Type)
  | own
  | newborn
  | parked
  | inDown (x : S)
deriving DecidableEq

/-- What happened to pages: a thread became `DYING`, and a thread with a status returned a page. -/
inductive Note (ι : Type)
  | died (t : ι)
  | freed (t runner : ι) (status : Option Status)
deriving DecidableEq

/-- `status t = none`: the page `t` holds no thread.  `current` is `running_thread ()`, the page of
the stack pointer; `idleStarted` the semaphore of `thread_start`; `log` is read by no code. -/
structure State (ι S : Type) where
  status : ι → Option Status
  code : ι → Code
  place : ι → Place S
  creating : ι → Option ι
  readyList : List ι
  idleThread : Option ι
  initialThread : ι
  current : ι
  sema : S → Synch.Semaphore ι
  idleStarted : S
  log : List (Note ι)

variable {ι S : Type} [DecidableEq ι] [DecidableEq S]

/-! ### The source -/

/-- `thread_current`, with its ASSERT. -/
def threadCurrent (s : State ι S) : Except Fault ι :=
  if s.status s.current = some .running then .ok s.current else .error .assertion

/-- `init_thread`, for a thread that will run `code`. -/
def initThread (t : ι) (code : Code) (s : State ι S) : State ι S :=
  { s with
    status := update s.status t (some .blocked)
    code := update s.code t code
    place := update s.place t .newborn
    creating := update s.creating t none }

def threadUnblock (t : ι) (s : State ι S) : Except Fault (State ι S) :=
  if s.status t = some .blocked then
    .ok { s with
      readyList := s.readyList ++ [t]
      status := update s.status t (some .ready) }
  else .error .assertion

def nextThreadToRun (s : State ι S) : Option ι × State ι S :=
  match s.readyList with
  | [] => (s.idleThread, s)
  | t :: ts => (some t, { s with readyList := ts })

/-- Where a thread is once `schedule ()` has returned to it: still in the loop of `sema_down`, or
on its own. -/
def Place.resumed : Place S → Place S
  | .inDown x => .inDown x
  | _ => .own

/-- `thread_schedule_tail`; a page that is returned holds no thread. -/
def threadScheduleTail (prev : Option ι) (s : State ι S) : Except Fault (State ι S) :=
  let cur := s.current
  let s := { s with
    status := update s.status cur (some .running)
    place := update s.place cur (s.place cur).resumed }
  match prev with
  | none => .ok s
  | some p =>
    if s.status p = some .dying ∧ p ≠ s.initialThread then
      if p ≠ cur then
        .ok { s with
          status := update s.status p none
          log := s.log ++ [.freed p cur (s.status cur)] }
      else .error .assertion
    else .ok s

/-- `schedule`; `is_thread (next)` fails for a null pointer and for a page without a thread. -/
def schedule (s : State ι S) : Except Fault (State ι S) :=
  let cur := s.current
  let next := (nextThreadToRun s).1
  let s := (nextThreadToRun s).2
  if s.status cur = some .running then .error .assertion
  else
    match next with
    | none => .error .assertion
    | some n =>
      if s.status n = none then .error .assertion
      else if cur ≠ n then threadScheduleTail (some cur) { s with current := n }
      else threadScheduleTail none s

/-- `thread_block`, called at `place`. -/
def threadBlock (place : Place S) (s : State ι S) : Except Fault (State ι S) := do
  let cur ← threadCurrent s
  schedule { s with
    status := update s.status cur (some .blocked)
    place := update s.place cur place }

/-- `thread_exit`, behind `process_exit`. -/
def threadExit (s : State ι S) : Except Fault (State ι S) := do
  let cur ← threadCurrent s
  schedule { s with
    status := update s.status cur (some .dying)
    log := s.log ++ [.died cur] }

def threadYield (s : State ι S) : Except Fault (State ι S) := do
  let cur ← threadCurrent s
  schedule { s with
    readyList := if s.idleThread ≠ some cur then s.readyList ++ [cur] else s.readyList
    status := update s.status cur (some .ready) }

/-- The first half of `thread_create`: the page allocator hands out `t`. -/
def createBegin (t : ι) (s : State ι S) : State ι S :=
  let s' := initThread t .other s
  { s' with creating := update s'.creating s.current (some t) }

/-- The second half of `thread_create`. -/
def createEnd (s : State ι S) : Except Fault (State ι S) :=
  match s.creating s.current with
  | some t => threadUnblock t { s with creating := update s.creating s.current none }
  | none => .ok s

/-- What is left to do for a thread behind a `sema_down`: `thread_start` returns. -/
def Code.afterDown : Code → Code
  | .startDown => .other
  | c => c

/-- One pass of the loop of `sema_down`. -/
def semaDown (x : S) (s : State ι S) : Except Fault (State ι S) :=
  if (s.sema x).value = 0 then do
    let cur ← threadCurrent s
    threadBlock (.inDown x) { s with
      sema := update s.sema x ⟨(s.sema x).value, (s.sema x).waiters ++ [cur]⟩ }
  else
    .ok { s with
      sema := update s.sema x ⟨(s.sema x).value - 1, (s.sema x).waiters⟩
      place := update s.place s.current .own
      code := update s.code s.current (s.code s.current).afterDown }

def semaTryDown (x : S) (s : State ι S) : State ι S :=
  if (s.sema x).value ≠ 0 then
    { s with sema := update s.sema x ⟨(s.sema x).value - 1, (s.sema x).waiters⟩ }
  else s

def semaUp (x : S) (s : State ι S) : Except Fault (State ι S) :=
  match (s.sema x).waiters with
  | [] => .ok { s with sema := update s.sema x ⟨(s.sema x).value + 1, []⟩ }
  | t :: ts =>
    threadUnblock t { s with
      sema := update s.sema x ⟨(s.sema x).value + 1, ts⟩ }

/-- The first line of `idle`. -/
def setIdle (s : State ι S) : Except Fault (State ι S) := do
  let cur ← threadCurrent s
  return { s with
    idleThread := some cur
    code := update s.code cur .idleUp }

/-- The `sema_up` of `idle`. -/
def idleUp (s : State ι S) : Except Fault (State ι S) := do
  let s' ← semaUp s.idleStarted s
  return { s' with code := update s'.code s'.current .idleLoop }

/-- `thread_init`, with the semaphores of the kernel initialised to `v`. -/
def threadInit (main : ι) (idleStarted : S) (v : S → BitVec 32) : State ι S where
  status := update (fun _ => none) main (some .running)
  code := update (fun _ => .other) main .startDown
  place _ := .own
  creating _ := none
  readyList := []
  idleThread := none
  initialThread := main
  current := main
  sema x := Synch.semaInit (v x)
  idleStarted := idleStarted
  log := []

/-- `thread_start` up to its `sema_down`: interrupts are off, and the page allocator hands out
`idle`. -/
def threadStart (idle : ι) (s : State ι S) : Except Fault (State ι S) :=
  threadUnblock idle (initThread idle .idleEntry
    { s with sema := update s.sema s.idleStarted (Synch.semaInit 0) })

/-! ### Runs -/

/-- What happens next.  `handler` says that an interrupt handler calls, and not the thread that
runs. -/
inductive Event (ι S : Type)
  | createBegin (t : ι)
  | createEnd
  | block
  | unblock (handler : Bool) (t : ι)
  | yield
  | exit
  | down (x : S)
  | resume
  | tryDown (handler : Bool) (x : S)
  | up (handler : Bool) (x : S)
  | setIdle
  | idleUp
  | idleBlock
deriving DecidableEq

/-- The thread that runs is in code of its own, and the code is not that of `thread_start` or
`idle`. -/
def free (s : State ι S) : Bool := s.place s.current = .own && s.code s.current = .other

/-- Which events there are in a state.  A thread in `thread_create` takes the lock of
`allocate_tid`, so it works on semaphores there. -/
def canCall (s : State ι S) : Event ι S → Bool
  | .createBegin t => free s && s.creating s.current = none && s.status t = none
  | .createEnd => free s && s.creating s.current ≠ none
  | .block => free s && s.creating s.current = none
  | .unblock handler t =>
    (handler || free s && s.creating s.current = none) && s.status t = some .blocked
  | .yield => s.place s.current = .own
  | .exit => free s && s.creating s.current = none
  | .down x =>
    free s || s.place s.current = .own && s.code s.current = .startDown && x = s.idleStarted
  | .resume => (s.place s.current).resumed ≠ .own
  | .tryDown handler _ => handler || free s
  | .up handler _ => handler || free s
  | .setIdle => s.place s.current = .own && s.code s.current = .idleEntry
  | .idleUp => s.place s.current = .own && s.code s.current = .idleUp
  | .idleBlock => s.place s.current = .own && s.code s.current = .idleLoop

def call (s : State ι S) : Event ι S → Except Fault (State ι S)
  | .createBegin t => .ok (createBegin t s)
  | .createEnd => createEnd s
  | .block => threadBlock .parked s
  | .unblock _ t => threadUnblock t s
  | .yield => threadYield s
  | .exit => threadExit s
  | .down x => semaDown x s
  | .resume =>
    match s.place s.current with
    | .inDown x => semaDown x s
    | _ => .ok s
  | .tryDown _ x => .ok (semaTryDown x s)
  | .up _ x => semaUp x s
  | .setIdle => setIdle s
  | .idleUp => idleUp s
  | .idleBlock => threadBlock .parked s

/-- A run stops at a failed ASSERT. -/
def step (s : State ι S) (e : Event ι S) : Option (State ι S) :=
  if canCall s e then (call s e).toOption else none

/-- `thread_unblock` outside of `thread_create` and `sema_up` is for a thread that sleeps in
a `thread_block` of its own, and not for the idle thread. -/
def Allowed (s : State ι S) : Event ι S → Prop
  | .unblock _ t => s.place t = .parked ∧ s.idleThread ≠ some t
  | _ => True

variable {s s' : State ι S} {v : S → BitVec 32} {idle main t n : ι} {x : S} {l : List ι}

/-! ### The semaphores -/

/-- A place as the model of the semaphores has it. -/
def Place.loc : Place S → Synch.Loc S
  | .inDown x => .loop x
  | _ => .outside

section

omit [DecidableEq S]

@[simp] theorem Place.loc_own : (own : Place S).loc = .outside := rfl

@[simp] theorem Place.loc_newborn : (newborn : Place S).loc = .outside := rfl

@[simp] theorem Place.loc_parked : (parked : Place S).loc = .outside := rfl

@[simp] theorem Place.loc_inDown (x : S) : (inDown x).loc = .loop x := rfl

@[simp] theorem Place.loc_resumed (p : Place S) : p.resumed.loc = p.loc := by
  cases p <;> rfl

theorem Place.loc_eq_loop {p : Place S} : p.loc = .loop x ↔ p = .inDown x := by
  cases p <;> simp

end

/-- A state of the semaphores: there, only those threads are blocked that `sema_down` blocked. -/
structure Refines (s : State ι S) (st : Synch.State ι S) : Prop where
  sema : st.sema = s.sema
  loc : ∀ t, st.loc t = (s.place t).loc
  blocked : ∀ t, st.blocked t = true ↔ s.status t = some .blocked ∧ (s.place t).loc ≠ .outside

/-- What was done to the semaphores so far is a run of their own. -/
def Synced (v : S → BitVec 32) (s : State ι S) : Prop :=
  ∃ es st, run Synch.step (Synch.initial v) es = some st ∧ Refines s st

theorem Synced.inv (h : Synced v s) : ∃ st, Synch.Inv st ∧ Refines s st := by
  obtain ⟨es, st, hrun, href⟩ := h
  exact ⟨st, run_keeps (fun _ _ _ h hs => h.step hs) (Synch.inv_initial v) hrun, href⟩

theorem Synced.mem_iff (h : Synced v s) :
    t ∈ (s.sema x).waiters ↔ s.status t = some .blocked ∧ s.place t = .inDown x := by
  obtain ⟨st, hinv, href⟩ := h.inv
  rw [← href.sema, hinv.mem_iff, Synch.Sleeping, href.loc, href.blocked, Place.loc_eq_loop]
  constructor
  · intro hs
    exact ⟨hs.2.1, hs.1⟩
  · intro hs
    refine ⟨hs.2, hs.1, ?_⟩
    rw [hs.2]
    simp

theorem Synced.nodup (h : Synced v s) (x : S) : (s.sema x).waiters.Nodup := by
  obtain ⟨st, hinv, href⟩ := h.inv
  rw [← href.sema]
  exact hinv.nodup x

theorem Synced.frame (h : Synced v s) (hsema : s'.sema = s.sema)
    (hloc : ∀ t, (s'.place t).loc = (s.place t).loc) (hb : ∀ t, (s.place t).loc ≠ .outside →
      (s'.status t = some .blocked ↔ s.status t = some .blocked)) : Synced v s' := by
  obtain ⟨es, st, hrun, href⟩ := h
  refine ⟨es, st, hrun, href.sema.trans hsema.symm, fun t => ?_, fun t => ?_⟩
  · rw [href.loc, hloc]
  · rw [href.blocked, hloc]
    exact and_congr_left fun hne => (hb t hne).symm

theorem Synced.step (h : Synced v s) (hstep : ∀ st, Synch.Inv st → Refines s st →
      ∃ e st', Synch.step st e = some st' ∧ Refines s' st') : Synced v s' := by
  obtain ⟨es, st, hrun, href⟩ := h
  have hinv : Synch.Inv st :=
    run_keeps (fun _ _ _ h hs => h.step hs) (Synch.inv_initial v) hrun
  obtain ⟨e, st', hs, href'⟩ := hstep st hinv href
  exact ⟨es ++ [e], st', run_concat hs es hrun, href'⟩

variable {st : Synch.State ι S} {es : List (Event ι S)}

theorem Refines.tests (h : Refines s st) (hrun : s.status s.current = some .running)
    (hplace : s.place s.current = .own ∨ s.place s.current = .inDown x) :
    ∃ e, Synch.step st e = some (Synch.semaDown s.current x st) := by
  have hblocked : st.blocked s.current = false := by
    rw [Bool.eq_false_iff, ne_eq, h.blocked, hrun]
    simp
  cases hplace with
  | inl hown =>
    have hloc : st.loc s.current = .outside := by
      rw [h.loc, hown]
      rfl
    refine ⟨.down s.current x, ?_⟩
    rw [Synch.step, Synch.canCall, hloc, hblocked]
    rfl
  | inr hdown =>
    have hloc : st.loc s.current = .loop x := by
      rw [h.loc, hdown]
      rfl
    refine ⟨.resume s.current, ?_⟩
    rw [Synch.step, hloc, hblocked]

section

variable (h : Synced v s) (hrun : s.status s.current = some .running)
  (hplace : s.place s.current = .own ∨ s.place s.current = .inDown x)
include h hrun hplace

theorem Synced.sleep (hv : (s.sema x).value = 0) : Synced v { s with
      sema := update s.sema x ⟨(s.sema x).value, (s.sema x).waiters ++ [s.current]⟩
      status := update s.status s.current (some .blocked)
      place := update s.place s.current (.inDown x) } := by
  apply h.step
  intro st _ href
  obtain ⟨e, he⟩ := href.tests hrun hplace
  have hv' : (st.sema x).value = 0 := by rw [href.sema, hv]
  refine ⟨e, _, he, ?_⟩
  rw [Synch.semaDown, if_pos hv']
  refine ⟨by simp only [href.sema], fun t => ?_, fun t => ?_⟩
  · by_cases ht : t = s.current
    · subst ht
      simp
    · simp [ht, href.loc]
  · by_cases ht : t = s.current
    · subst ht
      simp
    · simp [ht, href.blocked]

theorem Synced.take (hv : (s.sema x).value ≠ 0) (code : ι → Code) : Synced v { s with
      sema := update s.sema x ⟨(s.sema x).value - 1, (s.sema x).waiters⟩
      place := update s.place s.current .own
      code := code } := by
  apply h.step
  intro st _ href
  obtain ⟨e, he⟩ := href.tests hrun hplace
  have hv' : (st.sema x).value ≠ 0 := by rw [href.sema]; exact hv
  refine ⟨e, _, he, ?_⟩
  rw [Synch.semaDown, if_neg hv']
  refine ⟨by simp only [href.sema], fun t => ?_, fun t => ?_⟩
  · by_cases ht : t = s.current
    · subst ht
      simp
    · simp [ht, href.loc]
  · by_cases ht : t = s.current
    · subst ht
      simp [href.blocked, hrun]
    · simp [ht, href.blocked]

end

/-- Who calls, for the model of the semaphores: a thread that is free may. -/
def caller (s : State ι S) (handler : Bool) : Option ι := if handler then none else some s.current

variable {handler : Bool}

omit [DecidableEq ι] in
theorem Refines.canCall (h : Refines s st) (hrun : s.status s.current = some .running)
    (hplace : handler = true ∨ s.place s.current = .own) :
    Synch.canCall st (caller s handler) = true := by
  cases handler with
  | true => rfl
  | false =>
    have hown : s.place s.current = .own := by simpa using hplace
    have hblocked : st.blocked s.current = false := by
      rw [Bool.eq_false_iff, ne_eq, h.blocked, hrun]
      simp
    simp [caller, Synch.canCall, hblocked, h.loc, hown]

section

variable (h : Synced v s) (hrun : s.status s.current = some .running)
  (hplace : handler = true ∨ s.place s.current = .own)
include h hrun hplace

theorem Synced.tryDown : Synced v (semaTryDown x s) := by
  apply h.step
  intro st _ href
  refine ⟨.tryDown (caller s handler) x, (Synch.semaTryDown x st).2, ?_, ?_⟩
  · rw [Synch.step, if_pos (href.canCall hrun hplace)]
  · by_cases hv : (s.sema x).value = 0
    · have hv' : (st.sema x).value = 0 := by rw [href.sema, hv]
      rw [Synch.semaTryDown, if_neg (not_not.mpr hv'), semaTryDown, if_neg (not_not.mpr hv)]
      exact href
    · have hv' : (st.sema x).value ≠ 0 := by rw [href.sema]; exact hv
      rw [Synch.semaTryDown, if_pos hv', semaTryDown, if_pos hv]
      exact ⟨by simp only [href.sema], href.loc, href.blocked⟩

theorem Synced.up_nil (hw : (s.sema x).waiters = []) :
    Synced v { s with sema := update s.sema x ⟨(s.sema x).value + 1, []⟩ } := by
  apply h.step
  intro st _ href
  have hw' : (st.sema x).waiters = [] := by rw [href.sema, hw]
  refine ⟨.up (caller s handler) x, { st with
    sema := update st.sema x ⟨(st.sema x).value + 1, []⟩
    log := st.log ++ [.upped x none] }, ?_, ?_⟩
  · rw [Synch.step, if_pos (href.canCall hrun hplace), Synch.semaUp, hw']
  · exact ⟨by simp only [href.sema], href.loc, href.blocked⟩

theorem Synced.up_cons {ts : List ι} (hw : (s.sema x).waiters = t :: ts) (l : List ι) :
    Synced v { s with
      sema := update s.sema x ⟨(s.sema x).value + 1, ts⟩
      readyList := l
      status := update s.status t (some .ready) } := by
  have ht := h.mem_iff.mp (by rw [hw]; exact List.mem_cons_self)
  apply h.step
  intro st _ href
  have hw' : (st.sema x).waiters = t :: ts := by rw [href.sema, hw]
  have hb : st.blocked t = true := by
    rw [href.blocked, ht.2]
    simp [ht.1]
  refine ⟨.up (caller s handler) x, { st with
    sema := update st.sema x ⟨(st.sema x).value + 1, ts⟩
    blocked := update st.blocked t false
    log := st.log ++ [.upped x (some t)] }, ?_, ?_⟩
  · rw [Synch.step, if_pos (href.canCall hrun hplace), Synch.semaUp, hw']
    simp only [hb, if_pos]
  · refine ⟨by simp only [href.sema], href.loc, fun u => ?_⟩
    by_cases hu : u = t
    · subst hu
      simp
    · simp [hu, href.blocked]

/-! ### The invariant -/

end

/-- The ready list has every READY thread but `idle_thread`, once. -/
structure Queue (s : State ι S) : Prop where
  mem_iff : ∀ t, t ∈ s.readyList ↔ s.status t = some .ready ∧ s.idleThread ≠ some t
  nodup : s.readyList.Nodup

/-- A thread that is created sleeps until its creator wakes it. -/
structure Births (s : State ι S) : Prop where
  newborn : ∀ c t, s.creating c = some t → s.status t = some .blocked ∧ s.place t = .newborn
  unique : ∀ c c' t, s.creating c = some t → s.creating c' = some t → c = c'

/-- The idle thread: it sleeps only in its loop, once `idle_thread` is set. -/
structure Idling (idle : ι) (s : State ι S) : Prop where
  live : s.status idle = some .running ∨ s.status idle = some .ready ∨
    s.status idle = some .blocked ∧ s.place idle = .parked ∧ s.idleThread = some idle
  stage : s.idleThread = none ∧ s.code idle = .idleEntry ∨
    s.idleThread = some idle ∧ (s.code idle = .idleUp ∨ s.code idle = .idleLoop)
  others : ∀ t, t ≠ idle → s.code t = .startDown ∨ s.code t = .other
  loc : (s.place idle).loc = .outside

/-- What holds inside and outside of `schedule ()`. -/
structure Core (v : S → BitVec 32) (idle main : ι) (s : State ι S) : Prop where
  queue : Queue s
  births : Births s
  idling : Idling idle s
  synced : Synced v s
  main_live : s.status s.initialThread ≠ none
  graves : ∀ t, s.status t = none ∨ s.status t = some .dying → (s.place t).loc = .outside
  main_eq : s.initialThread = main

/-- Every death but that of the initial thread is followed at once by one return of the page, by
another thread, which is RUNNING; and no page is returned otherwise. -/
inductive Reaped (main : ι) : List (Note ι) → Prop
  | nil : Reaped main []
  | main {l : List (Note ι)} : Reaped main l → Reaped main (l ++ [.died main])
  | freed {l : List (Note ι)} {t runner : ι} : Reaped main l → t ≠ main → runner ≠ t →
      Reaped main (l ++ [.died t, .freed t runner (some .running)])

/-- Outside of `schedule ()`. -/
structure Inv (v : S → BitVec 32) (idle main : ι) (s : State ι S) : Prop extends Core v idle main s where
  running_iff : ∀ t, s.status t = some .running ↔ t = s.current
  dying : ∀ t, s.status t = some .dying → t = s.initialThread
  reaped : Reaped s.initialThread s.log

/-- At the entry of `schedule ()`: nobody is RUNNING, and the thread that gives up the processor may
be DYING. -/
structure Switching (v : S → BitVec 32) (idle main : ι) (s : State ι S) : Prop
    extends Core v idle main s where
  not_running : ∀ t, s.status t ≠ some .running
  dying : ∀ t, s.status t = some .dying → t = s.initialThread ∨ t = s.current
  reaped : (s.status s.current = some .dying ∧ s.current ≠ s.initialThread ∧
      ∃ l, s.log = l ++ [.died s.current] ∧ Reaped s.initialThread l) ∨
    (s.status s.current = some .dying → s.current = s.initialThread) ∧
      Reaped s.initialThread s.log

section

omit [DecidableEq ι] [DecidableEq S]

theorem Idling.ne_of_code (h : Idling idle s) (hcode : s.code t = .startDown ∨ s.code t = .other) :
    t ≠ idle := by
  intro heq
  subst heq
  cases h.stage with
  | inl hs => simp [hs.2] at hcode
  | inr hs => cases hs.2 with
      | inl hup => simp [hup] at hcode
      | inr hloop => simp [hloop] at hcode

theorem Idling.eq_of_idleThread (h : Idling idle s) (ht : s.idleThread = some t) : t = idle := by
  cases h.stage with
  | inl hs =>
    rw [hs.1] at ht
    cases ht
  | inr hs => exact Option.some.inj (ht.symm.trans hs.1)

theorem Idling.eq_of_code (h : Idling idle s) (hne : s.code t ≠ .startDown)
    (hne' : s.code t ≠ .other) : t = idle := by
  by_contra ht
  cases h.others t ht with
  | inl hs => exact hne hs
  | inr ho => exact hne' ho

theorem Idling.ne_of_blocked (h : Idling idle s) (hb : s.status t = some .blocked)
    (hp : s.place t ≠ .parked) : t ≠ idle := by
  intro heq
  subst heq
  obtain hr | hr | ⟨-, hpark, -⟩ := h.live
  · simp [hb] at hr
  · simp [hb] at hr
  · exact hp hpark

end

/-! ### A change of status -/

variable {sema : S → Synch.Semaphore ι} {b : Option Status} {place : Place S}

/-- **One thread changes**, which is not newborn, and the lists with it. -/
theorem Core.set (h : Core v idle main s) (hother : ∀ u, u ≠ t → (u ∈ l ↔ u ∈ s.readyList))
    (hself : t ∈ l ↔ b = some .ready ∧ s.idleThread ≠ some t) (hnodup : l.Nodup)
    (hborn : ∀ c, s.creating c ≠ some t) (hidle : t = idle → place.loc = .outside ∧
      (b = some .running ∨ b = some .ready ∨
        b = some .blocked ∧ place = .parked ∧ s.idleThread = some idle))
    (hmain : b = none → t ≠ s.initialThread)
    (hgrave : b = none ∨ b = some .dying → place.loc = .outside) {c : ι} {log : List (Note ι)}
    (hsync : Synced v { s with
      sema := sema, readyList := l, status := update s.status t b
      place := update s.place t place, current := c, log := log }) :
    Core v idle main { s with
      sema := sema, readyList := l, status := update s.status t b
      place := update s.place t place, current := c, log := log } := by
  refine ⟨⟨fun u => ?_, hnodup⟩, ⟨fun c u hc => ?_, h.births.unique⟩,
    ⟨?_, h.idling.stage, h.idling.others, ?_⟩, hsync, ?_, fun u hu => ?_, h.main_eq⟩
  · by_cases hu : u = t
    · simp [hu, hself]
    · simp [hu, hother, h.queue.mem_iff]
  · have hu : u ≠ t := fun heq => hborn c (heq ▸ hc)
    simpa [hu] using h.births.newborn c u hc
  · by_cases hi : idle = t
    · simpa [hi] using hi ▸ (hidle hi.symm).2
    · simpa [hi] using h.idling.live
  · by_cases hi : idle = t
    · simpa [hi] using (hidle hi.symm).1
    · simpa [hi] using h.idling.loc
  · by_cases hi : s.initialThread = t
    · simpa [hi] using fun hb => hmain hb hi.symm
    · simpa [hi] using h.main_live
  · by_cases hi : u = t
    · simpa [hi] using hgrave (by simpa [hi] using hu)
    · simp only [update_of_ne hi] at hu ⊢
      exact h.graves u hu

theorem Core.setStatus (h : Core v idle main s) (hr : s.status t ≠ some .ready)
    (hb : s.status t ≠ some .blocked) (hr' : b ≠ some .ready) (hb' : b ≠ some .blocked)
    (hidle : t ≠ idle) (hmain : b = none → t ≠ s.initialThread)
    (hplace : (s.place t).loc = .outside) (c : ι) (log : List (Note ι)) :
    Core v idle main { s with status := update s.status t b, current := c, log := log } := by
  rw [← update_eq_self t s.place]
  refine h.set (fun _ _ => Iff.rfl) (by simp [h.queue.mem_iff, hr, hr']) h.queue.nodup
    (fun c hc => hb (h.births.newborn c t hc).1) (fun heq => absurd heq hidle) hmain
    (fun _ => hplace) (h.synced.frame rfl (by simp) fun u _ => ?_)
  by_cases hu : u = t
  · simp [hu, hb, hb']
  · simp [hu]

/-! ### `schedule` -/

/-- The state once `n` runs, with `l` left on the ready list. -/
def awake (n : ι) (l : List ι) (s : State ι S) : State ι S :=
  { s with
    status := update s.status n (some .running)
    place := update s.place n (s.place n).resumed
    readyList := l
    current := n }

/-- A thread that may run next: it is READY, or the idle thread in its loop. -/
def Runnable (s : State ι S) (n : ι) : Prop :=
  s.status n = some .ready ∨ s.status n = some .blocked ∧ s.place n = .parked

theorem Core.resume (h : Core v idle main s) (hn : Runnable s n)
    (hl : ∀ t, t ∈ l ↔ (s.status t = some .ready ∧ s.idleThread ≠ some t) ∧ t ≠ n)
    (hnodup : l.Nodup) : Core v idle main (awake n l s) := by
  refine h.set (fun u hu => by simp [hl, hu, h.queue.mem_iff]) (by simp [hl]) hnodup
    (fun c hc => ?_) (fun heq => ⟨by simpa [heq] using h.idling.loc, .inl rfl⟩) (by simp) (by simp)
    (h.synced.frame rfl (fun t => ?_) fun t hloc => ?_)
  · have hnew := h.births.newborn c n hc
    simp [Runnable, hnew] at hn
  · by_cases ht : t = n
    · simp [ht]
    · simp [ht]
  · by_cases ht : t = n
    · subst ht
      obtain hr | ⟨-, hp⟩ := hn
      · simp [hr]
      · simp [hp] at hloc
    · simp [ht]

omit [DecidableEq S] in
theorem threadScheduleTail_some {p : ι} (hp : p ≠ n) :
    threadScheduleTail (some p) { s with readyList := l, current := n } =
      .ok (if s.status p = some .dying ∧ p ≠ s.initialThread then
        { awake n l s with
          status := update (awake n l s).status p none
          log := s.log ++ [.freed p n (some .running)] }
      else awake n l s) := by
  unfold threadScheduleTail
  simp only [update_of_ne hp, update_self, if_pos hp]
  split
  · rfl
  · rfl

theorem Switching.tail (h : Switching v idle main s) (hn : Runnable s n)
    (hl : ∀ t, t ∈ l ↔ (s.status t = some .ready ∧ s.idleThread ≠ some t) ∧ t ≠ n)
    (hnodup : l.Nodup) :
    ∃ s', (if s.current ≠ n then
        threadScheduleTail (some s.current) { s with readyList := l, current := n }
      else threadScheduleTail none { s with readyList := l }) = .ok s' ∧ Inv v idle main s' := by
  have hcore : Core v idle main (awake n l s) := h.resume hn hl hnodup
  have hrunning : ∀ t, (awake n l s).status t = some .running ↔ t = n := by
    intro t
    by_cases ht : t = n
    · subst ht
      simp [awake]
    · simp [awake, ht, h.not_running]
  have hnd : s.status n ≠ some .dying := by
    intro hd
    simp [Runnable, hd] at hn
  have hdying : ∀ t, (awake n l s).status t = some .dying → s.status t = some .dying := by
    intro t ht
    by_cases heq : t = n
    · subst heq
      simp [awake] at ht
    · simpa [awake, heq] using ht
  by_cases hc : s.current = n
  · refine ⟨awake n l s, ?_, hcore, hrunning, ?_, ?_⟩
    · subst hc
      rw [if_neg (not_not.mpr rfl)]
      rfl
    · intro t ht
      cases h.dying t (hdying t ht) with
      | inl hi => exact hi
      | inr hcur => exact absurd (hdying t ht) (by rw [hcur, hc]; exact hnd)
    · obtain ⟨hd, -⟩ | ⟨-, hr⟩ := h.reaped
      · exact absurd (hc ▸ hd) hnd
      · exact hr
  · rw [if_pos hc, threadScheduleTail_some hc]
    refine ⟨_, rfl, ?_⟩
    split
    · -- The thread that gave up the processor is dead: its page goes back.
      rename_i hdead
      obtain ⟨hd, hmain⟩ := hdead
      have hstat : (awake n l s).status s.current = some .dying := by
        simpa [awake, hc] using hd
      have hlive : s.current ≠ idle := by
        intro heq
        have hidle := h.idling.live
        rw [← heq, hd] at hidle
        simp at hidle
      refine ⟨hcore.setStatus (b := none) (by simp [hstat]) (by simp [hstat]) nofun nofun hlive
        (fun _ => hmain) (hcore.graves _ (.inr hstat)) _ _, ?_, ?_, ?_⟩
      · intro t
        by_cases ht : t = s.current
        · subst ht
          simpa [awake] using hc
        · simp only [update_of_ne ht]
          exact hrunning t
      · intro t ht
        by_cases htc : t = s.current
        · subst htc
          simp at ht
        · simp only [update_of_ne htc] at ht
          exact (h.dying t (hdying t ht)).resolve_right htc
      · obtain ⟨-, -, l', hlog, hl'⟩ | ⟨himp, -⟩ := h.reaped
        · have hfreed := Reaped.freed hl' hmain (Ne.symm hc)
          simpa [hlog, awake] using hfreed
        · exact absurd (himp hd) hmain
    · rename_i halive
      have hmain : s.status s.current = some .dying → s.current = s.initialThread := by
        intro hd
        by_contra hne
        exact halive ⟨hd, hne⟩
      refine ⟨hcore, hrunning, ?_, ?_⟩
      · intro t ht
        cases h.dying t (hdying t ht) with
        | inl hi => exact hi
        | inr hcur =>
          subst hcur
          exact hmain (hdying _ ht)
      · obtain ⟨hd, hne, -⟩ | ⟨-, hr⟩ := h.reaped
        · exact absurd (hmain hd) hne
        · exact hr

/-- With an empty ready list the idle thread is there to run. -/
theorem Switching.idle_of_nil (h : Switching v idle main s) (hnil : s.readyList = []) :
    s.idleThread = some idle ∧ Runnable s idle := by
  obtain hr | hr | ⟨hb, hp, hset⟩ := h.idling.live
  · exact absurd hr (h.not_running idle)
  · refine ⟨?_, .inl hr⟩
    by_contra hne
    have hmem := (h.queue.mem_iff idle).mpr ⟨hr, hne⟩
    rw [hnil] at hmem
    cases hmem
  · exact ⟨hset, .inr ⟨hb, hp⟩⟩

omit [DecidableEq S] in
theorem schedule_eq (hnext : nextThreadToRun s = (some n, { s with readyList := l }))
    (hcur : s.status s.current ≠ some .running) (hn : s.status n ≠ none) :
    schedule s =
      if s.current ≠ n then
        threadScheduleTail (some s.current) { s with readyList := l, current := n }
      else threadScheduleTail none { s with readyList := l } := by
  unfold schedule
  simp only [hnext, if_neg hcur, if_neg hn]

/-- **`schedule ()` finds a thread to run and hits no ASSERT.** -/
theorem Switching.schedule (h : Switching v idle main s) :
    ∃ s', schedule s = .ok s' ∧ Inv v idle main s' := by
  cases hlist : s.readyList with
  | nil =>
    obtain ⟨hset, hrun⟩ := h.idle_of_nil hlist
    have hsome : s.status idle ≠ none := by
      cases hrun with
      | inl hr => simp [hr]
      | inr hb => simp [hb.1]
    have hnext : nextThreadToRun s = (some idle, { s with readyList := s.readyList }) := by
      rw [nextThreadToRun, hlist, hset]
    rw [schedule_eq hnext (h.not_running _) hsome]
    refine h.tail hrun (fun t => ?_) h.queue.nodup
    rw [← h.queue.mem_iff, hlist]
    simp
  | cons t ts =>
    have ht := (h.queue.mem_iff t).mp (by rw [hlist]; exact List.mem_cons_self)
    have hnodup := h.queue.nodup
    rw [hlist, List.nodup_cons] at hnodup
    have hnext : nextThreadToRun s = (some t, { s with readyList := ts }) := by
      rw [nextThreadToRun, hlist]
    rw [schedule_eq hnext (h.not_running _) (by simp [ht.1])]
    refine h.tail (.inl ht.1) (fun u => ?_) hnodup.2
    rw [← h.queue.mem_iff, hlist, List.mem_cons]
    constructor
    · intro hu
      exact ⟨.inr hu, fun heq => hnodup.1 (heq ▸ hu)⟩
    · intro hu
      exact hu.1.resolve_left hu.2

/-! ### The events -/

section

variable (h : Inv v idle main s)
include h

theorem Inv.running : s.status s.current = some .running := (h.running_iff _).mpr rfl

theorem Inv.threadCurrent_eq : threadCurrent s = .ok s.current := by
  rw [threadCurrent, if_pos h.running]

theorem Inv.ne_current {st : Option Status} (ht : s.status t = st) (hst : st ≠ some .running) :
    t ≠ s.current := by
  intro heq
  rw [heq, h.running] at ht
  exact hst ht.symm

theorem Inv.giveUp (hb : b = some .blocked ∨ b = some .ready)
    (hother : ∀ u, u ≠ s.current → (u ∈ l ↔ u ∈ s.readyList))
    (hself : s.current ∈ l ↔ b = some .ready ∧ s.idleThread ≠ some s.current) (hnodup : l.Nodup)
    (hidle : s.current = idle → place.loc = .outside ∧
      (b = some .ready ∨ place = .parked ∧ s.idleThread = some idle)) (hsync : Synced v { s with
      sema := sema
      readyList := l
      status := update s.status s.current b
      place := update s.place s.current place }) :
    Switching v idle main { s with
      sema := sema
      readyList := l
      status := update s.status s.current b
      place := update s.place s.current place } := by
  have hne : b ≠ some .running ∧ b ≠ some .dying ∧ b ≠ none := by
    obtain rfl | rfl := hb <;> simp
  refine ⟨h.set hother hself hnodup (fun c hc => ?_) (fun heq => ⟨(hidle heq).1, ?_⟩)
    (fun hnone => absurd hnone hne.2.2) (fun hg => ?_) hsync, fun t => ?_, fun t hd => ?_,
    .inr ⟨fun hd => ?_, h.reaped⟩⟩
  · exact h.ne_current (h.births.newborn c _ hc).1 (by simp) rfl
  · obtain rfl | rfl := hb
    · exact .inr (.inr ⟨rfl, (hidle heq).2.resolve_left (by simp)⟩)
    · exact .inr (.inl rfl)
  · exact absurd hg (not_or.mpr ⟨hne.2.2, hne.2.1⟩)
  · by_cases ht : t = s.current
    · simpa [ht] using hne.1
    · simpa [ht] using fun hr => ht ((h.running_iff t).mp hr)
  · by_cases ht : t = s.current
    · exact .inr ht
    · simp only [update_of_ne ht] at hd
      exact .inl (h.dying t hd)
  · simp only [update_self] at hd
    exact absurd hd hne.2.1

theorem Inv.sleep (hidle : s.current = idle → place = .parked ∧ s.idleThread = some idle)
    (hsync : Synced v { s with
      sema := sema
      status := update s.status s.current (some .blocked)
      place := update s.place s.current place }) :
    Switching v idle main { s with
      sema := sema
      status := update s.status s.current (some .blocked)
      place := update s.place s.current place } :=
  h.giveUp (.inl rfl) (fun _ _ => Iff.rfl) (by simp [h.queue.mem_iff, h.running]) h.queue.nodup
    (fun hc => ⟨by simp [(hidle hc).1], .inr (hidle hc)⟩) hsync

/-- `thread_block` in code of the thread's own. -/
theorem Inv.threadBlock (hplace : s.place s.current = .own)
    (hidle : s.current = idle → s.idleThread = some idle) :
    ∃ s', threadBlock .parked s = .ok s' ∧ Inv v idle main s' := by
  simp only [Scheduler.threadBlock, h.threadCurrent_eq, bind, Except.bind]
  apply Switching.schedule
  apply h.sleep (fun hc => ⟨rfl, hidle hc⟩)
  refine h.synced.frame rfl (fun t => ?_) (fun t hloc => ?_)
  · by_cases ht : t = s.current
    · simp [ht, hplace]
    · simp [ht]
  · by_cases ht : t = s.current
    · simp [ht, hplace] at hloc
    · simp [ht]

/-- `thread_exit`. -/
theorem Inv.threadExit (hplace : s.place s.current = .own) (hidle : s.current ≠ idle) :
    ∃ s', threadExit s = .ok s' ∧ Inv v idle main s' := by
  simp only [Scheduler.threadExit, h.threadCurrent_eq, bind, Except.bind]
  apply Switching.schedule
  have hr := h.running
  refine ⟨h.setStatus (b := some .dying) (by simp [hr]) (by simp [hr]) (by simp) (by simp)
    hidle nofun (by simp [hplace]) _ _, ?_, ?_, ?_⟩
  · intro t
    by_cases ht : t = s.current
    · simp [ht]
    · simpa [ht] using fun hr => ht ((h.running_iff t).mp hr)
  · intro t hd
    by_cases ht : t = s.current
    · exact .inr ht
    · simp only [update_of_ne ht] at hd
      exact .inl (h.dying t hd)
  · by_cases hmain : s.current = s.initialThread
    · refine .inr ⟨fun _ => hmain, ?_⟩
      simpa [hmain] using h.reaped.main
    · exact .inl ⟨by simp, hmain, s.log, rfl, h.reaped⟩

/-- `thread_yield`. -/
theorem Inv.threadYield : ∃ s', threadYield s = .ok s' ∧ Inv v idle main s' := by
  simp only [Scheduler.threadYield, h.threadCurrent_eq, bind, Except.bind]
  apply Switching.schedule
  have hnot : s.current ∉ s.readyList := by
    rw [h.queue.mem_iff, h.running]
    simp
  have hplace : update s.place s.current (s.place s.current) = s.place :=
    update_eq_self _ _
  rw [← hplace]
  refine h.giveUp (.inr rfl) (fun t ht => ?_) ?_ ?_ (fun hc => ⟨hc ▸ h.idling.loc, .inl rfl⟩) ?_
  · split <;> simp [ht]
  · split
    · simp [*]
    · simp_all
  · split
    · rw [← List.concat_eq_append]
      exact h.queue.nodup.concat hnot
    · exact h.queue.nodup
  · refine h.synced.frame rfl (fun t => ?_) (fun t _ => ?_)
    · simp
    · by_cases ht : t = s.current
      · simp [ht, h.running]
      · simp [ht]

section

variable (hb : s.status t = some .blocked) (hborn : ∀ c, s.creating c ≠ some t)
  (hidle : s.idleThread ≠ some t)
include hb hborn hidle

theorem Inv.wake (hsync : Synced v { s with
      sema := sema
      readyList := s.readyList ++ [t]
      status := update s.status t (some .ready) }) :
    Inv v idle main { s with
      sema := sema
      readyList := s.readyList ++ [t]
      status := update s.status t (some .ready) } := by
  have hnot : t ∉ s.readyList := by
    rw [h.queue.mem_iff, hb]
    simp
  have hcur : t ≠ s.current := h.ne_current hb (by simp)
  have hcore : Core v idle main { s with
      sema := sema
      readyList := s.readyList ++ [t]
      status := update s.status t (some .ready)
      place := update s.place t (s.place t) } := by
    refine h.set (fun u hu => by simp [hu]) (by simp [hidle]) ?_ hborn
      (fun heq => ⟨heq ▸ h.idling.loc, .inr (.inl rfl)⟩) (by simp) (by simp) ?_
    · rw [← List.concat_eq_append]
      exact h.queue.nodup.concat hnot
    · rwa [update_eq_self]
  rw [update_eq_self] at hcore
  refine ⟨hcore, fun u => ?_, fun u hd => ?_, h.reaped⟩
  · by_cases hu : u = t
    · simp [hu, hcur]
    · simpa [hu] using h.running_iff u
  · by_cases hu : u = t
    · simp [hu] at hd
    · simp only [update_of_ne hu] at hd
      exact h.dying u hd

/-- `thread_unblock` on a thread that sleeps in a `thread_block` of its own. -/
theorem Inv.threadUnblock (hloc : (s.place t).loc = .outside) :
    ∃ s', threadUnblock t s = .ok s' ∧ Inv v idle main s' := by
  refine ⟨_, if_pos hb, h.wake hb hborn hidle ?_⟩
  refine h.synced.frame rfl (fun _ => rfl) (fun u hu => ?_)
  by_cases hut : u = t
  · subst hut
    exact absurd hloc hu
  · simp [hut]

end

/-- The first half of `thread_create`. -/
theorem Inv.createBegin (ht : s.status t = none) : Inv v idle main (createBegin t s) := by
  have hcur : t ≠ s.current := h.ne_current ht (by simp)
  have hne : t ≠ idle := by
    intro heq
    have hlive := h.idling.live
    rw [← heq, ht] at hlive
    simp at hlive
  have hborn : ∀ c u, s.creating c = some u → u ≠ t := by
    intro c u hc heq
    have hnew := h.births.newborn c u hc
    rw [heq, ht] at hnew
    cases hnew.1
  -- Who creates whom: the new thread nobody, its creator the new thread, the others as before.
  have hcreating : ∀ c u, (Scheduler.createBegin t s).creating c = some u →
      c = s.current ∧ u = t ∨ c ≠ s.current ∧ s.creating c = some u := by
    intro c u hc
    by_cases hcc : c = s.current
    · subst hcc
      simp only [Scheduler.createBegin, update_self, Option.some.injEq] at hc
      exact .inl ⟨rfl, hc.symm⟩
    · by_cases hct : c = t
      · subst hct
        simp [Scheduler.createBegin, initThread, hcc] at hc
      · exact .inr ⟨hcc, by simpa [Scheduler.createBegin, initThread, hcc, hct] using hc⟩
  unfold Scheduler.createBegin initThread at hcreating ⊢
  refine ⟨⟨⟨fun u => ?_, h.queue.nodup⟩, ⟨fun c u hc => ?_, fun c c' u hc hc' => ?_⟩,
    ⟨?_, ?_, fun u hu => ?_, ?_⟩, ?_, ?_, fun u hu => ?_, h.main_eq⟩, fun u => ?_, fun u hu => ?_,
    h.reaped⟩
  · by_cases hu : u = t
    · subst hu
      simp [h.queue.mem_iff, ht]
    · simp [h.queue.mem_iff, hu]
  · obtain ⟨-, rfl⟩ | ⟨-, hold⟩ := hcreating c u hc
    · simp
    · simpa [hborn c u hold] using h.births.newborn c u hold
  · obtain ⟨hcc, rfl⟩ | ⟨-, hold⟩ := hcreating c u hc
    · obtain ⟨hcc', -⟩ | ⟨-, hold'⟩ := hcreating c' u hc'
      · exact hcc.trans hcc'.symm
      · exact absurd rfl (hborn c' u hold')
    · obtain ⟨-, rfl⟩ | ⟨-, hold'⟩ := hcreating c' u hc'
      · exact absurd rfl (hborn c u hold)
      · exact h.births.unique c c' u hold hold'
  · simpa [hne.symm] using h.idling.live
  · simpa [hne.symm] using h.idling.stage
  · by_cases hut : u = t
    · simp [hut]
    · simpa [hut] using h.idling.others u hu
  · simpa [hne.symm] using h.idling.loc
  · refine h.synced.frame rfl (fun u => ?_) (fun u hloc => ?_)
    · by_cases hut : u = t
      · subst hut
        simp [h.graves u (.inl ht)]
      · simp [hut]
    · have hut : u ≠ t := by
        intro heq
        subst heq
        exact hloc (h.graves u (.inl ht))
      simp [hut]
  · by_cases hi : s.initialThread = t
    · simp [hi]
    · simpa [hi] using h.main_live
  · by_cases hut : u = t
    · subst hut
      simp at hu
    · simp only [update_of_ne hut] at hu ⊢
      exact h.graves u hu
  · by_cases hut : u = t
    · simp [hut, hcur]
    · simpa [hut] using h.running_iff u
  · by_cases hut : u = t
    · subst hut
      simp at hu
    · simp only [update_of_ne hut] at hu
      exact h.dying u hu

/-- The second half of `thread_create`. -/
theorem Inv.createEnd : ∃ s', createEnd s = .ok s' ∧ Inv v idle main s' := by
  unfold Scheduler.createEnd
  cases hc : s.creating s.current with
  | none => exact ⟨s, rfl, h⟩
  | some t =>
    have hnew := h.births.newborn _ _ hc
    have hsub : ∀ c u, update s.creating s.current none c = some u →
        c ≠ s.current ∧ s.creating c = some u := by
      intro c u hcu
      by_cases hcc : c = s.current
      · subst hcc
        simp at hcu
      · exact ⟨hcc, by simpa [hcc] using hcu⟩
    have h' : Inv v idle main { s with
        creating := update s.creating s.current none } := by
      refine ⟨⟨⟨h.queue.mem_iff, h.queue.nodup⟩, ⟨fun c u hcu => ?_, fun c c' u hcu hcu' => ?_⟩,
        ⟨h.idling.live, h.idling.stage, h.idling.others, h.idling.loc⟩,
        h.synced.frame rfl (fun _ => rfl) (fun _ _ => Iff.rfl), h.main_live, h.graves, h.main_eq⟩,
        h.running_iff, h.dying, h.reaped⟩
      · exact h.births.newborn c u (hsub c u hcu).2
      · exact h.births.unique c c' u (hsub c u hcu).2 (hsub c' u hcu').2
    refine h'.threadUnblock hnew.1 (fun c hct => ?_) (fun hset => ?_) ?_
    · exact (hsub c t hct).1 (h.births.unique _ _ _ (hsub c t hct).2 hc)
    · exact h.idling.ne_of_blocked hnew.1 (by simp [hnew.2]) (h.idling.eq_of_idleThread hset)
    · simp [hnew.2]

theorem Inv.setSema (hsync : Synced v { s with sema := sema }) :
    Inv v idle main { s with sema := sema } where
  queue := ⟨h.queue.mem_iff, h.queue.nodup⟩
  births := ⟨h.births.newborn, h.births.unique⟩
  idling := ⟨h.idling.live, h.idling.stage, h.idling.others, h.idling.loc⟩
  synced := hsync
  main_live := h.main_live
  graves := h.graves
  main_eq := h.main_eq
  running_iff := h.running_iff
  dying := h.dying
  reaped := h.reaped

theorem Inv.semaTryDown (hplace : handler = true ∨ s.place s.current = .own) :
    Inv v idle main (semaTryDown x s) := by
  have hsync := h.synced.tryDown (x := x) h.running hplace
  unfold Scheduler.semaTryDown at hsync ⊢
  split
  · rename_i hv
    rw [if_pos hv] at hsync
    exact h.setSema hsync
  · exact h

theorem Inv.semaUp (hplace : handler = true ∨ s.place s.current = .own) :
    ∃ s', semaUp x s = .ok s' ∧ Inv v idle main s' ∧ s'.current = s.current ∧ s'.code = s.code ∧
      s'.idleThread = s.idleThread := by
  unfold Scheduler.semaUp
  cases hw : (s.sema x).waiters with
  | nil => exact ⟨_, rfl, h.setSema (h.synced.up_nil h.running hplace hw), rfl, rfl, rfl⟩
  | cons t ts =>
    have ht := h.synced.mem_iff.mp (by rw [hw]; exact List.mem_cons_self)
    refine ⟨_, if_pos ht.1, h.wake ht.1 (fun c hc => ?_) (fun hset => ?_)
      (h.synced.up_cons h.running hplace hw _), rfl, rfl, rfl⟩
    · have hnew := h.births.newborn c t hc
      rw [ht.2] at hnew
      cases hnew.2
    · exact h.idling.ne_of_blocked ht.1 (by simp [ht.2]) (h.idling.eq_of_idleThread hset)

/-- One pass of the loop of `sema_down`. -/
theorem Inv.semaDown (hplace : s.place s.current = .own ∨ s.place s.current = .inDown x)
    (hidle : s.current ≠ idle) : ∃ s', semaDown x s = .ok s' ∧ Inv v idle main s' := by
  unfold Scheduler.semaDown
  by_cases hv : (s.sema x).value = 0
  · rw [if_pos hv]
    have hcur : ∀ sema : S → Synch.Semaphore ι,
        threadCurrent { s with sema := sema } = .ok s.current := fun _ => h.threadCurrent_eq
    simp only [h.threadCurrent_eq, Scheduler.threadBlock, bind, Except.bind, hcur]
    apply Switching.schedule
    exact h.sleep (fun hc => absurd hc hidle) (h.synced.sleep h.running hplace hv)
  · rw [if_neg hv]
    refine ⟨_, rfl, ⟨⟨h.queue.mem_iff, h.queue.nodup⟩, ⟨fun c t hc => ?_, h.births.unique⟩,
      ⟨?_, ?_, fun t ht => ?_, ?_⟩, h.synced.take h.running hplace hv _, h.main_live,
      fun t ht => ?_, h.main_eq⟩, h.running_iff, h.dying, h.reaped⟩
    · have hnew := h.births.newborn c t hc
      simpa [h.ne_current hnew.1 (by simp)] using hnew
    · simpa [Ne.symm hidle] using h.idling.live
    · simpa [Ne.symm hidle] using h.idling.stage
    · by_cases htc : t = s.current
      · subst htc
        obtain hs | ho := h.idling.others _ ht
        · simp [hs, Code.afterDown]
        · simp [ho, Code.afterDown]
      · simpa [htc] using h.idling.others t ht
    · simpa [Ne.symm hidle] using h.idling.loc
    · by_cases htc : t = s.current
      · simp [htc]
      · simpa [htc] using h.graves t ht

/-- `idle_thread = thread_current ()`. -/
theorem Inv.setIdle (hcode : s.code s.current = .idleEntry) :
    ∃ s', setIdle s = .ok s' ∧ Inv v idle main s' := by
  have hcur : s.current = idle := h.idling.eq_of_code (by simp [hcode]) (by simp [hcode])
  have hnone : s.idleThread = none := by
    obtain hs | ⟨-, hup | hloop⟩ := h.idling.stage
    · exact hs.1
    · simp [← hcur, hcode] at hup
    · simp [← hcur, hcode] at hloop
  simp only [Scheduler.setIdle, h.threadCurrent_eq, bind, Except.bind, pure, Except.pure]
  refine ⟨_, rfl, ⟨⟨fun t => ?_, h.queue.nodup⟩, ⟨h.births.newborn, h.births.unique⟩,
    ⟨?_, ?_, fun t ht => ?_, h.idling.loc⟩,
    h.synced.frame rfl (fun _ => rfl) (fun _ _ => Iff.rfl), h.main_live, h.graves, h.main_eq⟩,
    h.running_iff, h.dying, h.reaped⟩
  · rw [h.queue.mem_iff, hnone]
    by_cases ht : t = s.current
    · subst ht
      simp [h.running]
    · simp [Ne.symm ht]
  · exact .inl (hcur ▸ h.running)
  · exact .inr ⟨by simp [hcur], .inl (by simp [hcur])⟩
  · have htc : t ≠ s.current := hcur ▸ ht
    simpa [htc] using h.idling.others t ht

/-- The `sema_up` of the idle thread. -/
theorem Inv.idleUp (hplace : s.place s.current = .own) (hcode : s.code s.current = .idleUp) :
    ∃ s', idleUp s = .ok s' ∧ Inv v idle main s' := by
  have hcur : s.current = idle := h.idling.eq_of_code (by simp [hcode]) (by simp [hcode])
  have hset : s.idleThread = some idle := by
    obtain hs | hs := h.idling.stage
    · simp [← hcur, hcode] at hs
    · exact hs.1
  obtain ⟨s', hup, h', hc, -, hi⟩ := h.semaUp (x := s.idleStarted) (.inr hplace : false = true ∨ _)
  simp only [Scheduler.idleUp, hup, bind, Except.bind, pure, Except.pure]
  have hcur' : s'.current = idle := hc.trans hcur
  refine ⟨_, rfl, ⟨⟨h'.queue.mem_iff, h'.queue.nodup⟩, ⟨h'.births.newborn, h'.births.unique⟩,
    ⟨h'.idling.live, ?_, fun t ht => ?_, h'.idling.loc⟩,
    h'.synced.frame rfl (fun _ => rfl) (fun _ _ => Iff.rfl), h'.main_live, h'.graves, h'.main_eq⟩,
    h'.running_iff, h'.dying, h'.reaped⟩
  · exact .inr ⟨hi.trans hset, .inr (by simp [hcur'])⟩
  · have htc : t ≠ s'.current := hcur' ▸ ht
    simpa [htc] using h'.idling.others t ht

/-! ### Runs -/

end

omit [DecidableEq ι] in
theorem free_iff : free s = true ↔ s.place s.current = .own ∧ s.code s.current = .other := by
  simp [free]

variable {e : Event ι S}

/-- **Every event that can happen is without a failed ASSERT, and keeps the invariant.** -/
theorem Inv.call (h : Inv v idle main s) (hcan : canCall s e = true) (hok : Allowed s e) :
    ∃ s', call s e = .ok s' ∧ Inv v idle main s' := by
  have hfree : free s = true → s.place s.current = .own ∧ s.current ≠ idle := by
    intro hf
    rw [free_iff] at hf
    exact ⟨hf.1, h.idling.ne_of_code (.inr hf.2)⟩
  cases e with
  | createBegin t =>
    simp only [canCall, Bool.and_eq_true, decide_eq_true_eq] at hcan
    exact ⟨_, rfl, h.createBegin hcan.2⟩
  | createEnd => exact h.createEnd
  | block =>
    simp only [canCall, Bool.and_eq_true] at hcan
    obtain ⟨hplace, hne⟩ := hfree hcan.1
    exact h.threadBlock hplace (fun heq => absurd heq hne)
  | unblock handler t =>
    simp only [canCall, Bool.and_eq_true, decide_eq_true_eq] at hcan
    refine h.threadUnblock hcan.2 (fun c hc => ?_) hok.2 (by simp [hok.1])
    have hnew := h.births.newborn c t hc
    rw [hok.1] at hnew
    cases hnew.2
  | yield => exact h.threadYield
  | exit =>
    simp only [canCall, Bool.and_eq_true] at hcan
    obtain ⟨hplace, hne⟩ := hfree hcan.1
    exact h.threadExit hplace hne
  | down x =>
    simp only [canCall, Bool.or_eq_true, Bool.and_eq_true, decide_eq_true_eq] at hcan
    cases hcan with
    | inl hf => exact h.semaDown (.inl (hfree hf).1) (hfree hf).2
    | inr hstart => exact h.semaDown (.inl hstart.1.1) (h.idling.ne_of_code (.inl hstart.1.2))
  | resume =>
    simp only [Scheduler.call]
    split
    · rename_i x hx
      refine h.semaDown (.inr hx) (fun heq => ?_)
      have hloc := h.idling.loc
      rw [← heq, hx] at hloc
      cases hloc
    · exact ⟨s, rfl, h⟩
  | tryDown handler x =>
    simp only [canCall, Bool.or_eq_true] at hcan
    exact ⟨_, rfl, h.semaTryDown (hcan.imp id fun hf => (hfree hf).1)⟩
  | up handler x =>
    simp only [canCall, Bool.or_eq_true] at hcan
    obtain ⟨s', hup, h', -⟩ := h.semaUp (x := x) (hcan.imp id fun hf => (hfree hf).1)
    exact ⟨s', hup, h'⟩
  | setIdle =>
    simp only [canCall, Bool.and_eq_true, decide_eq_true_eq] at hcan
    exact h.setIdle hcan.2
  | idleUp =>
    simp only [canCall, Bool.and_eq_true, decide_eq_true_eq] at hcan
    exact h.idleUp hcan.1 hcan.2
  | idleBlock =>
    simp only [canCall, Bool.and_eq_true, decide_eq_true_eq] at hcan
    have hcur : s.current = idle :=
      h.idling.eq_of_code (by simp [hcan.2]) (by simp [hcan.2])
    refine h.threadBlock hcan.1 (fun _ => ?_)
    obtain hs | hs := h.idling.stage
    · simp [← hcur, hcan.2] at hs
    · exact hs.1

/-- **The invariant holds before `sema_down` in `thread_start`.** -/
theorem inv_threadStart (hne : idle ≠ main) (idleStarted : S) (v : S → BitVec 32) :
    ∃ s, threadStart idle (threadInit main idleStarted v) = .ok s ∧
      Inv (update v idleStarted 0) idle main s := by
  unfold threadStart initThread threadInit
  refine ⟨_, if_pos (by simp), ⟨⟨fun t => ?_, List.nodup_singleton _⟩,
    ⟨fun c t hc => ?_, fun c c' t hc => ?_⟩, ⟨?_, ?_, fun t ht => ?_, ?_⟩,
    ⟨[], Synch.initial _, rfl, ?_, fun t => ?_, fun t => ?_⟩, ?_, fun t _ => ?_, rfl⟩,
    fun t => ?_, fun t hd => ?_, .nil⟩
  · by_cases ht : t = idle
    · simp [ht]
    · by_cases hm : t = main
      · simp [hm, Ne.symm hne]
      · simp [ht, hm]
  · simp at hc
  · simp at hc
  · simp
  · exact .inl ⟨rfl, by simp⟩
  · by_cases hm : t = main
    · simp [hm, Ne.symm hne]
    · simp [ht, hm]
  · simp
  · funext x
    by_cases hx : x = idleStarted
    · simp [Synch.initial, hx]
    · simp [Synch.initial, hx]
  · by_cases ht : t = idle
    · simp [Synch.initial, ht]
    · simp [Synch.initial, ht]
  · by_cases ht : t = idle
    · simp [Synch.initial, ht]
    · simp [Synch.initial, ht]
  · simp [Ne.symm hne]
  · by_cases ht : t = idle
    · simp [ht]
    · simp [ht]
  · by_cases ht : t = idle
    · simp [ht, hne]
    · by_cases hm : t = main
      · simp [hm, Ne.symm hne]
      · simp [ht, hm]
  · by_cases ht : t = idle
    · simp [ht] at hd
    · by_cases hm : t = main
      · simp [hm, Ne.symm hne] at hd
      · simp [ht, hm] at hd

/-- What an event can do. -/
theorem step_eq_some (hs : step s e = some s') : canCall s e = true ∧ call s e = .ok s' := by
  unfold step at hs
  split at hs
  · rename_i hcan
    refine ⟨hcan, ?_⟩
    cases hcall : call s e with
    | error f =>
      rw [hcall] at hs
      cases hs
    | ok s1 =>
      rw [hcall] at hs
      exact congrArg Except.ok (Option.some.inj hs)
  · cases hs

theorem Inv.step (h : Inv v idle main s) (hok : Allowed s e) (hs : step s e = some s') :
    Inv v idle main s' := by
  obtain ⟨hcan, hcall⟩ := step_eq_some hs
  obtain ⟨s1, hcall1, h1⟩ := h.call hcan hok
  rw [hcall] at hcall1
  obtain rfl := Except.ok.inj hcall1
  exact h1

theorem inv_run (h : Inv v idle main s)
    (hok : Transition.Meets step Allowed s es) (hrun : run step s es = some s') :
    Inv v idle main s' :=
  run_invariant (fun _ _ _ h hok hs => h.step hok hs) es h hok hrun

/-- **Status, lists and pages agree** in every run from `thread_start` on, if threads outside of
`sema_up` and `thread_create` only wake those that sleep in a `thread_block` of their own, and not
the idle thread.

* One thread is RUNNING; the ready list has every READY thread but `idle_thread` once and nothing
  else.
* A thread is on one list of waiters at most, once, only while BLOCKED, and then not on the ready
  list.
* Every thread that dies, the initial thread apart, has its page returned once, by a thread that
  is RUNNING, before anything else happens; `log` is what happened to pages.
* No event hits an ASSERT. -/
theorem scheduler_sound {main idle : ι} (hne : idle ≠ main) (idleStarted : S) (v : S → BitVec 32) :
    ∃ s₀, threadStart idle (threadInit main idleStarted v) = .ok s₀ ∧
      ∀ (es : List (Event ι S)) (s : State ι S), Transition.Meets step Allowed s₀ es →
        run step s₀ es = some s →
          (∃! t, s.status t = some .running) ∧
          (∀ t, t ∈ s.readyList ↔ s.status t = some .ready ∧ s.idleThread ≠ some t) ∧
          s.readyList.Nodup ∧
          (∀ t, s.idleThread = some t → t = idle ∧ t ∉ s.readyList) ∧
          (∀ x, (s.sema x).waiters.Nodup ∧ ∀ t ∈ (s.sema x).waiters,
            s.status t = some .blocked ∧ t ∉ s.readyList ∧
              ∀ y, t ∈ (s.sema y).waiters → y = x) ∧
          (∀ t, s.status t = some .dying → t = main) ∧
          Reaped main s.log ∧
          ∀ e, canCall s e = true → Allowed s e → ∃ s', call s e = .ok s' := by
  obtain ⟨s₀, h0, hinv0⟩ := inv_threadStart hne idleStarted v
  refine ⟨s₀, h0, fun es s hok hrun => ?_⟩
  have h := inv_run hinv0 hok hrun
  have hready : ∀ t, t ∈ s.readyList ↔ s.status t = some .ready ∧ s.idleThread ≠ some t :=
    h.queue.mem_iff
  refine ⟨⟨s.current, h.running, fun t ht => (h.running_iff t).mp ht⟩, hready, h.queue.nodup,
    ?_, ?_, ?_, ?_, ?_⟩
  · intro t ht
    exact ⟨h.idling.eq_of_idleThread ht, fun hmem => ((hready t).mp hmem).2 ht⟩
  · intro x
    refine ⟨h.synced.nodup x, fun t ht => ?_⟩
    obtain ⟨hb, hp⟩ := h.synced.mem_iff.mp ht
    refine ⟨hb, fun hmem => ?_, fun y hy => ?_⟩
    · rw [hready, hb] at hmem
      cases hmem.1
    · have hp' := (h.synced.mem_iff.mp hy).2
      rw [hp] at hp'
      exact (Place.inDown.inj hp').symm
  · intro t ht
    exact (h.dying t ht).trans h.main_eq
  · exact h.main_eq ▸ h.reaped
  · intro e hcan hallowed
    obtain ⟨s', hcall, -⟩ := h.call hcan hallowed
    exact ⟨s', hcall⟩

/-- The initial thread `0` waits until the idle thread `1` has started, and goes on. -/
def boot : List (Event ℕ Unit) := [.down (), .setIdle, .idleUp, .idleBlock, .resume]

/-- `thread_start`, and then some events. -/
def fromStart (es : List (Event ℕ Unit)) : Option (State ℕ Unit) :=
  (threadStart 1 (threadInit 0 () fun _ => 0)).toOption.bind fun s₀ =>
    run step s₀ (boot ++ es)

/-- Thread `2` is created, runs and dies: the initial thread returns its page. -/
def shortLife : List (Event ℕ Unit) := [.createBegin 2, .createEnd, .yield, .exit]

theorem scheduler_sound_shortLife :
    ∃ s, fromStart shortLife = some s ∧ s.log = [.died 2, .freed 2 0 (some .running)] ∧
      s.status 2 = none ∧ ∃! t, s.status t = some .running := by
  obtain ⟨s0, h0, hsound⟩ := @scheduler_sound ℕ Unit _ _ 0 1 Nat.one_ne_zero () fun _ => 0
  have hmap : (fromStart shortLife).map (fun s => (s.log, s.status 2)) =
      some ([.died 2, .freed 2 0 (some .running)], none) := by
    rfl
  obtain ⟨s, hs, heq⟩ := Option.map_eq_some_iff.mp hmap
  obtain ⟨hlog, hstatus⟩ := Prod.mk.inj heq
  have hmeets : Transition.Meets step Allowed s0 (boot ++ shortLife) := by
    simp [boot, shortLife, Transition.Meets, Allowed]
  have hrun : run step s0 (boot ++ shortLife) = some s := by
    rw [fromStart, h0] at hs
    exact hs
  exact ⟨s, hs, hlog, hstatus, (hsound _ s hmeets hrun).1⟩

/-- The page of the initial thread is not returned; and a `thread_unblock` of any blocked thread may
put the idle thread on the ready list, or a thread that is on a list of waiters. -/
theorem not_scheduler_sound :
    (∃ s, fromStart [.exit] = some s ∧ s.status 0 = some .dying ∧ s.log = [.died 0] ∧
      s.current ≠ 0) ∧
    (∃ s, fromStart [.unblock false 1] = some s ∧ s.idleThread = some 1 ∧ 1 ∈ s.readyList) ∧
    ∃ s, fromStart [.createBegin 2, .createEnd, .down (), .unblock false 0] = some s ∧
      0 ∈ s.readyList ∧ 0 ∈ (s.sema ()).waiters := by
  decide +kernel

/-- **The semaphores of the scheduler refine those of `Pintos.Synch`**: whatever threads run in
whatever order, what they did to the semaphores is a run there. -/
theorem run_refines_synch (hne : idle ≠ main) {idleStarted : S} {s0 : State ι S}
    (h0 : threadStart idle (threadInit main idleStarted v) = .ok s0)
    (hok : Meets step Allowed s0 es) (hrun : run step s0 es = some s) :
    Synced (update v idleStarted 0) s := by
  obtain ⟨s1, h1, hinv⟩ := inv_threadStart hne idleStarted v
  obtain rfl := Except.ok.inj (h1.symm.trans h0)
  exact (inv_run hinv hok hrun).synced

theorem run_refines_synch_shortLife :
    ∃ s, fromStart shortLife = some s ∧ Synced (update (fun _ => 0) () 0) s := by
  have hok s0 : Meets step Allowed s0 (boot ++ shortLife) := by
    simp [boot, shortLife, Meets, Allowed]
  exact ⟨_, rfl, run_refines_synch Nat.one_ne_zero
    (show threadStart 1 (threadInit 0 () fun _ => 0) = .ok _ from rfl) (hok _) rfl⟩

end Pintos.Scheduler

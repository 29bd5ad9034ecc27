import Pintos.Semaphore

/-! # Locks and condition variables: `threads/synch.c`

One lock and one condition variable, used by any number of threads.  A thread can be preempted
between any two statements that touch shared data, so each of them is an event of its own; the
semaphores are those of `Semaphore.lean`.

* `Pc`: where a thread is in `lock_acquire`, `lock_try_acquire`, `lock_release`, `cond_wait`,
  `cond_signal` and `cond_broadcast`.
* `enter`: the ASSERTs at the head of the called function, and who may call it.
* `proceed`: the next statement of the function the thread is in. -/

namespace Pintos.Monitor

open Synch (semaDown semaTryDown semaUp semaInit)

/-- The semaphore in the lock, and the one in the `struct semaphore_elem` on a thread's stack. -/
inductive Sema (ι : Type)
  | lock
  | waiter (t : ι)
deriving DecidableEq

/-- Who called `lock_acquire` or `lock_release`. -/
inductive Caller
  | user
  | condWait
deriving DecidableEq

/-- Who called `cond_signal`.  A broadcast remembers, for no code to read, who was waiting when it
began and whom it has released since. -/
inductive Signaller (ι : Type)
  | user
  | broadcast (waiting released : List ι)
deriving DecidableEq

/-- Where a thread is; each place is before the statement it is named after. -/
inductive Pc (ι : Type)
  /-- outside, without the lock -/
  | out
  /-- `lock_acquire`, in `sema_down` -/
  | acquireDown (k : Caller)
  /-- `lock_try_acquire`, at `sema_try_down` -/
  | tryDown
  /-- at `lock->holder = thread_current ()` -/
  | setHolder (k : Caller)
  /-- outside, past acquire -/
  | held
  /-- `lock_release`, at `lock->holder = NULL` -/
  | clearHolder (k : Caller)
  /-- `lock_release`, at `sema_up` -/
  | releaseUp (k : Caller)
  /-- `cond_wait`, at `sema_init` -/
  | waitInit
  /-- `cond_wait`, at `list_push_back` -/
  | waitPush
  /-- `cond_wait`, at `lock_release` -/
  | waitRelease
  /-- `cond_wait`, in `sema_down` on its own semaphore -/
  | waitDown
  /-- `cond_wait`, at `lock_acquire` -/
  | waitAcquire
  /-- `cond_signal`, at the test of the list -/
  | signalPop (m : Signaller ι)
  /-- `cond_signal`, at `sema_up` on the popped waiter -/
  | signalUp (w : ι) (m : Signaller ι)
  /-- `cond_broadcast`, at the test of the loop -/
  | broadcastTest (waiting released : List ι)
deriving DecidableEq

/-- What has happened to the condition variable: a thread queued itself, was released by a
`cond_signal`, or came back from `cond_wait`. -/
inductive Note (ι : Type)
  | queued (t : ι)
  | released (t : ι)
  | returned (t : ι)
deriving DecidableEq

/-- The semaphores, `lock->holder`, `cond->waiters`, and where the threads are; `log` records the
past and is read by no code. -/
structure State (ι : Type) where
  sync : Synch.State ι (Sema ι)
  holder : Option ι
  waiters : List ι
  pc : ι → Pc ι
  log : List (Note ι)

inductive Call
  | acquire
  | tryAcquire
  | release
  | wait
  | signal
  | broadcast
deriving DecidableEq

inductive Event (ι : Type)
  | call (t : ι) (c : Call)
  | go (t : ι)
deriving DecidableEq

variable {ι : Type} [DecidableEq ι]

/-- `lock_held_by_current_thread`. -/
def heldBy (t : ι) (st : State ι) : Bool := st.holder = some t

def moveTo (t : ι) (p : Pc ι) (st : State ι) : State ι :=
  { st with pc := Function.update st.pc t p }

/-- What is noted when `lock_acquire` returns: behind it, `cond_wait` returns too. -/
def onAcquired (t : ι) : Caller → List (Note ι)
  | .user => []
  | .condWait => [.returned t]

/-- Where a call leads if its ASSERTs hold; `none` is a kernel panic.  `cond_broadcast` has no such
ASSERT of its own: that its caller holds the lock is what its header asks for, and callers that do
not are left out. -/
def enter (t : ι) (st : State ι) : Call → Option (Pc ι)
  | .acquire => if heldBy t st then none else some (.acquireDown .user)
  | .tryAcquire => if heldBy t st then none else some .tryDown
  | .release => if heldBy t st then some (.clearHolder .user) else none
  | .wait => if heldBy t st then some .waitInit else none
  | .signal => if heldBy t st then some (.signalPop .user) else none
  | .broadcast => if heldBy t st then some (.broadcastTest st.waiters []) else none

/-- One pass of the loop of `sema_down`: asleep the thread stays where it is. -/
def downOr (t : ι) (s : Sema ι) (next : Pc ι) (st : State ι) : Option (State ι) :=
  if st.sync.blocked t = true then none
  else if (st.sync.sema s).value = 0 then some { st with sync := semaDown t s st.sync }
  else some (moveTo t next { st with sync := semaDown t s st.sync })

/-- Where the code behind `lock_release` goes on. -/
def afterRelease : Caller → Pc ι
  | .user => .out
  | .condWait => .waitDown

/-- Where the code behind `cond_signal` goes on; `w` is whom it released. -/
def afterSignal (w : List ι) : Signaller ι → Pc ι
  | .user => .held
  | .broadcast waiting released => .broadcastTest waiting (released ++ w)

/-- The next statement of the function the thread is in. -/
def proceed (t : ι) (st : State ι) : Option (State ι) :=
  match st.pc t with
  | .out => none
  | .held => none
  | .acquireDown k => downOr t .lock (.setHolder k) st
  | .tryDown =>
    let r := semaTryDown .lock st.sync
    some (moveTo t (if r.1 then .setHolder .user else .out) { st with sync := r.2 })
  | .setHolder k =>
    some (moveTo t .held { st with holder := some t, log := st.log ++ onAcquired t k })
  | .clearHolder k => some (moveTo t (.releaseUp k) { st with holder := none })
  | .releaseUp k =>
    (semaUp .lock st.sync).map fun sync => moveTo t (afterRelease k) { st with sync := sync }
  | .waitInit =>
    some (moveTo t .waitPush { st with sync := { st.sync with
      sema := Function.update st.sync.sema (.waiter t) (semaInit 0) } })
  | .waitPush =>
    some (moveTo t .waitRelease
      { st with waiters := st.waiters ++ [t], log := st.log ++ [.queued t] })
  | .waitRelease => if heldBy t st then some (moveTo t (.clearHolder .condWait) st) else none
  | .waitDown => downOr t (.waiter t) .waitAcquire st
  | .waitAcquire => if heldBy t st then none else some (moveTo t (.acquireDown .condWait) st)
  | .signalPop m =>
    match st.waiters with
    | [] => some (moveTo t (afterSignal [] m) st)
    | w :: ws => some (moveTo t (.signalUp w m) { st with waiters := ws })
  | .signalUp w m =>
    (semaUp (.waiter w) st.sync).map fun sync =>
      moveTo t (afterSignal [w] m) { st with sync := sync, log := st.log ++ [.released w] }
  | .broadcastTest waiting released =>
    match st.waiters with
    | [] => some (moveTo t .held st)
    | _ :: _ =>
      if heldBy t st then some (moveTo t (.signalPop (.broadcast waiting released)) st)
      else none

/-- A thread outside calls, or one inside goes on. -/
def step (st : State ι) : Event ι → Option (State ι)
  | .call t c =>
    if st.pc t = .out ∨ st.pc t = .held then (enter t st c).map fun p => moveTo t p st
    else none
  | .go t => proceed t st

/-- Behind `lock_init` and `cond_init`. -/
def initial : State ι where
  sync := Synch.initial fun
    | .lock => 1
    | .waiter _ => 0
  holder := none
  waiters := []
  pc _ := .out
  log := []

end Pintos.Monitor

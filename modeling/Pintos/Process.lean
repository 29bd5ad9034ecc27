import Pintos.Heap
import Pintos.Interleaving

/-! # Processes: `process_execute`, `start_process`, `process_wait` and `handle_exit`

Processes share `wait_list`, one `wait_status` for each execution, the globals `load_val` and
`temporary`, and `exec_lock`.  A step is one list operation, one semaphore or lock operation, one
access to a field or to a global, or one `malloc` or `free`; a process that waits for a semaphore
or for a lock has no step.

* `WaitStatus`, `Shared`: a `wait_status`, and what the processes share.
* `ExecutePc`, `StartPc`, `WaitPc`, `ExitPc`: where a process is in each of the four functions;
  `processExecute`, `startProcess`, `processWait` and `handleExit` say what its next step does.
* `procStep`: a step of a process.  Which system call a process makes, and whether `load`
  succeeds, is chosen from outside (`Choice`).  `Step` lists what a step can be (`outcome_step`).
* `Event`: what the history of a process records.

`malloc`, `palloc_get_page` and `thread_create` are taken to succeed, as elsewhere in this
development.  A step that uses a freed `wait_status`, that unlinks one that is not in the list, or
that uses the result of `get_thread` for a thread that is gone, is a fault (`Fault`). -/

namespace Pintos.Process

/-- `tid_t`. -/
abbrev Tid := ℤ

def tidError : Tid := -1

abbrev StatusPtr := ℕ

/-- `struct wait_status`.  The successor of a listed element is read off `wait_list`; `elemNext`
is the link that `list_remove` leaves in an element that it has unlinked. -/
structure WaitStatus where
  returnVal : ℤ
  childPid : Tid
  parentPid : Tid
  endP : ℕ
  refCnt : ℤ
  refCntLock : Bool
  elemNext : Option StatusPtr

structure Shared where
  statuses : Heap WaitStatus
  waitList : List StatusPtr
  execLock : Option Tid
  temporary : ℕ
  loadVal : ℤ
  nextTid : Tid
  allList : List Tid
  /-- Whether the `work_dir` of a thread is set. -/
  workDir : Tid → Bool
  /-- What `malloc` finds in the memory that it returns. -/
  garbage : StatusPtr → WaitStatus

/-- The fields of a new `wait_status`, in the order in which `process_execute` sets them. -/
inductive Field
  | childPid
  | parentPid
  | endP
  | refCntLock
  | refCnt

inductive StartPc
  | load
  | setLoadVal (ok : Bool)
  | upTemporary (ok : Bool)

inductive ExecutePc
  | lock
  | initTemporary
  | create
  | malloc (child : Tid)
  | fill (child : Tid) (st : StatusPtr) (f : Field)
  | push (child : Tid) (st : StatusPtr)
  | setWorkDir (child : Tid)
  | downTemporary (child : Tid)
  | unlock (child : Tid)
  | readLoadVal (child : Tid)

inductive WaitPc
  | begin
  | readChild (e : StatusPtr)
  | readParent (e : StatusPtr)
  | down (e : StatusPtr)
  | remove (e : StatusPtr)
  | readVal (st : StatusPtr)
  | free (st : StatusPtr) (v : ℤ)
  | next (e : StatusPtr)

/-- In `lock`, `dec` and `unlock`, `own` says that the status is the one of the process itself (as
a child), and not of one of its children. -/
inductive ExitPc
  | begin
  | readChild (e : StatusPtr)
  | readParent (e : StatusPtr)
  | setReturn (e : StatusPtr)
  | lock (e : StatusPtr) (own : Bool)
  | dec (e : StatusPtr) (own : Bool)
  | unlock (e : StatusPtr) (own : Bool)
  | up (e : StatusPtr)
  | check (e : StatusPtr)
  | remove (e : StatusPtr)
  | free (st : StatusPtr) (e : Option StatusPtr)
  | next (e : StatusPtr)
  | leave

/-- Where a process is.  `user` is outside of the four functions. -/
inductive Pc
  | unborn
  | start (pc : StartPc)
  | user
  | execute (pc : ExecutePc)
  | wait (tid : Tid) (pc : WaitPc)
  | exit (v : ℤ) (pc : ExitPc)
  | dead

/-- `pathCall` is any system call that sets the working directory if there is none. -/
inductive Call
  | exec
  | wait (tid : Tid)
  | exit (v : ℤ)
  | pathCall

inductive Choice
  | go
  | load (ok : Bool)
  | call (c : Call)

inductive Event
  | loaded (ok : Bool)
  | created (child : Tid)
  /-- `process_execute` has returned `result`. -/
  | executed (child result : Tid)
  /-- `process_wait (tid)` has returned `v`, from the branch that waits. -/
  | collected (tid : Tid) (v : ℤ)
  /-- `process_wait (tid)` has returned -1, having found no status. -/
  | refused (tid : Tid)
  /-- `handle_exit (v)` was called. -/
  | exited (v : ℤ)
deriving DecidableEq

inductive Fault
  | freed
  | unlisted
  | noThread

inductive Outcome
  | next (pc : Pc) (new : Option Event) (s : Shared)
  | blocked
  | fault (f : Fault)

structure Proc where
  tid : Tid
  pc : Pc
  history : List Event

/-! ### The list and its elements -/

/-- The elements after `e` in a list. -/
def after (l : List StatusPtr) (e : StatusPtr) : List StatusPtr :=
  (l.dropWhile (· ≠ e)).tail

/-- The element after `e` in a list. -/
def succ (l : List StatusPtr) (e : StatusPtr) : Option StatusPtr := (after l e).head?

namespace Shared

/-- An access to `*st`. -/
def access (s : Shared) (st : StatusPtr) (f : WaitStatus → Outcome) : Outcome :=
  match s.statuses.cells st with
  | some w => f w
  | none => .fault .freed

def store (s : Shared) (st : StatusPtr) (w : WaitStatus) : Shared :=
  { s with statuses := s.statuses.store st w }

/-- `list_next (e)`. -/
def listNext (s : Shared) (e : StatusPtr) (w : WaitStatus) : Option StatusPtr :=
  if e ∈ s.waitList then succ s.waitList e else w.elemNext

/-- `list_remove (e)`. -/
def listRemove (s : Shared) (e : StatusPtr) (w : WaitStatus) : Shared :=
  { s with
    waitList := s.waitList.erase e
    statuses := s.statuses.store e { w with elemNext := succ s.waitList e } }

def free (s : Shared) (st : StatusPtr) : Shared :=
  { s with statuses := s.statuses.free st }

end Shared

/-! ### `start_process` -/

def startProcess (ch : Choice) (s : Shared) : StartPc → Outcome
  | .load =>
    match ch with
    | .load ok => .next (.start (.setLoadVal ok)) (some (.loaded ok)) s
    | _ => .blocked
  | .setLoadVal ok =>
    .next (.start (.upTemporary ok)) none { s with loadVal := if ok then 0 else -1 }
  | .upTemporary ok =>
    let s' := { s with temporary := s.temporary + 1 }
    if ok then .next .user none s' else .next (.exit (-1) .begin) (some (.exited (-1))) s'

/-! ### `process_execute` -/

/-- The assignment to a field of the new `wait_status`. -/
def Field.set (now child : Tid) : Field → WaitStatus → WaitStatus
  | .childPid, w => { w with childPid := child }
  | .parentPid, w => { w with parentPid := now }
  | .endP, w => { w with endP := 0 }
  | .refCntLock, w => { w with refCntLock := false }
  | .refCnt, w => { w with refCnt := 2 }

def Field.after (child : Tid) (st : StatusPtr) : Field → ExecutePc
  | .childPid => .fill child st .parentPid
  | .parentPid => .fill child st .endP
  | .endP => .fill child st .refCntLock
  | .refCntLock => .fill child st .refCnt
  | .refCnt => .push child st

def processExecute (now : Tid) (s : Shared) : ExecutePc → Outcome
  | .lock =>
    if s.execLock = none then
      .next (.execute .initTemporary) none { s with execLock := some now }
    else .blocked
  | .initTemporary => .next (.execute .create) none { s with temporary := 0 }
  | .create =>
    .next (.execute (.malloc s.nextTid)) (some (.created s.nextTid))
      { s with nextTid := s.nextTid + 1, allList := s.allList ++ [s.nextTid] }
  | .malloc child =>
    .next (.execute (.fill child s.statuses.next .childPid)) none
      { s with statuses := s.statuses.alloc (s.garbage s.statuses.next) }
  | .fill child st f =>
    s.access st fun w => .next (.execute (f.after child st)) none (s.store st (f.set now child w))
  | .push child st =>
    s.access st fun _ =>
      .next (.execute (.setWorkDir child)) none { s with waitList := s.waitList ++ [st] }
  | .setWorkDir child =>
    if s.workDir now = false then .next (.execute (.downTemporary child)) none s
    else if child ∈ s.allList then
      .next (.execute (.downTemporary child)) none
        { s with workDir := Function.update s.workDir child true }
    else .fault .noThread
  | .downTemporary child =>
    if s.temporary = 0 then .blocked
    else .next (.execute (.unlock child)) none { s with temporary := s.temporary - 1 }
  | .unlock child => .next (.execute (.readLoadVal child)) none { s with execLock := none }
  | .readLoadVal child =>
    .next .user (some (.executed child (if s.loadVal ≠ 0 then tidError else child))) s

/-! ### `process_wait` -/

/-- The scan goes on at `e`; at the end of the list `process_wait` returns -1. -/
def waitAt (tid : Tid) (s : Shared) : Option StatusPtr → Outcome
  | some e => .next (.wait tid (.readChild e)) none s
  | none => .next .user (some (.refused tid)) s

def processWait (now tid : Tid) (s : Shared) : WaitPc → Outcome
  | .begin => waitAt tid s s.waitList.head?
  | .readChild e =>
    s.access e fun w =>
      .next (.wait tid (if w.childPid = tid then .readParent e else .next e)) none s
  | .readParent e =>
    s.access e fun w =>
      .next (.wait tid (if w.parentPid = now then .down e else .next e)) none s
  | .down e =>
    s.access e fun w =>
      if w.endP = 0 then .blocked
      else .next (.wait tid (.remove e)) none (s.store e { w with endP := w.endP - 1 })
  | .remove e =>
    s.access e fun w =>
      if e ∈ s.waitList then .next (.wait tid (.readVal e)) none (s.listRemove e w)
      else .fault .unlisted
  | .readVal st => s.access st fun w => .next (.wait tid (.free st w.returnVal)) none s
  | .free st v => s.access st fun _ => .next .user (some (.collected tid v)) (s.free st)
  | .next e => s.access e fun w => waitAt tid s (s.listNext e w)

/-! ### `handle_exit` -/

def exitAt (v : ℤ) (s : Shared) : Option StatusPtr → Outcome
  | some e => .next (.exit v (.readChild e)) none s
  | none => .next (.exit v .leave) none s

/-- The scan, and then (`leave`) `thread_exit`, which takes the thread off `all_list`. -/
def handleExit (now : Tid) (v : ℤ) (s : Shared) : ExitPc → Outcome
  | .begin => exitAt v s s.waitList.head?
  | .readChild e =>
    s.access e fun w =>
      .next (.exit v (if w.childPid = now then .setReturn e else .readParent e)) none s
  | .readParent e =>
    s.access e fun w =>
      .next (.exit v (if w.parentPid = now then .lock e false else .check e)) none s
  | .setReturn e =>
    s.access e fun w => .next (.exit v (.lock e true)) none (s.store e { w with returnVal := v })
  | .lock e own =>
    s.access e fun w =>
      if w.refCntLock then .blocked
      else .next (.exit v (.dec e own)) none (s.store e { w with refCntLock := true })
  | .dec e own =>
    s.access e fun w =>
      .next (.exit v (.unlock e own)) none (s.store e { w with refCnt := w.refCnt - 1 })
  | .unlock e own =>
    s.access e fun w =>
      .next (.exit v (if own then .up e else .check e)) none
        (s.store e { w with refCntLock := false })
  | .up e =>
    s.access e fun w =>
      .next (.exit v (.check e)) none (s.store e { w with endP := w.endP + 1 })
  | .check e =>
    s.access e fun w => .next (.exit v (if w.refCnt = 0 then .remove e else .next e)) none s
  | .remove e =>
    s.access e fun w =>
      if e ∈ s.waitList then
        .next (.exit v (.free e (succ s.waitList e))) none (s.listRemove e w)
      else .fault .unlisted
  | .free st e =>
    -- The loop then goes on with `list_next (e)`, so that `e` itself is passed over.
    s.access st fun _ =>
      .next (.exit v (match e with | some e => .next e | none => .leave)) none (s.free st)
  | .next e => s.access e fun w => exitAt v s (s.listNext e w)
  | .leave => .next .dead none { s with allList := s.allList.erase now }

/-! ### A step of a process -/

def call (now : Tid) (s : Shared) : Call → Outcome
  | .exec => .next (.execute .lock) none s
  | .wait tid => .next (.wait tid .begin) none s
  | .exit v => .next (.exit v .begin) (some (.exited v)) s
  | .pathCall => .next .user none { s with workDir := Function.update s.workDir now true }

/-- What the process `now` does next, at `pc`. -/
def outcome (ch : Choice) (now : Tid) (s : Shared) : Pc → Outcome
  | .unborn => if now ∈ s.allList then .next (.start .load) none s else .blocked
  | .start pc => startProcess ch s pc
  | .user =>
    match ch with
    | .call c => call now s c
    | _ => .blocked
  | .execute pc => processExecute now s pc
  | .wait tid pc => processWait now tid s pc
  | .exit v pc => handleExit now v s pc
  | .dead => .blocked

def procStep (ch : Choice) (p : Proc) (s : Shared) : Option (Proc × Shared) :=
  match outcome ch p.tid s p.pc with
  | .next pc new s' => some (⟨p.tid, pc, new.toList ++ p.history⟩, s')
  | _ => none

theorem access_eq_next {s s' : Shared} {st : StatusPtr} {f : WaitStatus → Outcome} {pc : Pc}
    {new : Option Event} (h : s.access st f = .next pc new s') :
    ∃ w, s.statuses.cells st = some w ∧ f w = .next pc new s' := by
  unfold Shared.access at h
  split at h
  · rename_i w hw
    exact ⟨w, hw, h⟩
  · cases h

/-- What a step at `q` does that uses the status `*e`, which is `w`. -/
inductive Use (now : Tid) (s : Shared) (e : StatusPtr) (w : WaitStatus) :
    Pc → Pc → Option Event → Shared → Prop
  | fill : Use now s e w (.execute (.fill j e f)) (.execute (f.after j e)) none
      (s.store e (f.set now j w))
  | push : Use now s e w (.execute (.push j e)) (.execute (.setWorkDir j)) none
      { s with waitList := s.waitList ++ [e] }
  | waitChild : Use now s e w (.wait t (.readChild e))
      (.wait t (if w.childPid = t then .readParent e else .next e)) none s
  | waitParent : Use now s e w (.wait t (.readParent e))
      (.wait t (if w.parentPid = now then .down e else .next e)) none s
  | waitDown (h : w.endP ≠ 0) : Use now s e w (.wait t (.down e)) (.wait t (.remove e)) none
      (s.store e { w with endP := w.endP - 1 })
  | waitRemove (h : e ∈ s.waitList) :
      Use now s e w (.wait t (.remove e)) (.wait t (.readVal e)) none (s.listRemove e w)
  | waitVal : Use now s e w (.wait t (.readVal e)) (.wait t (.free e w.returnVal)) none s
  | waitFree : Use now s e w (.wait t (.free e v)) .user (some (.collected t v)) (s.free e)
  | waitNext (h : s.listNext e w = some e') :
      Use now s e w (.wait t (.next e)) (.wait t (.readChild e')) none s
  | waitEnd (h : s.listNext e w = none) :
      Use now s e w (.wait t (.next e)) .user (some (.refused t)) s
  | exitChild : Use now s e w (.exit v (.readChild e))
      (.exit v (if w.childPid = now then .setReturn e else .readParent e)) none s
  | exitParent : Use now s e w (.exit v (.readParent e))
      (.exit v (if w.parentPid = now then .lock e false else .check e)) none s
  | exitReturn : Use now s e w (.exit v (.setReturn e)) (.exit v (.lock e true)) none
      (s.store e { w with returnVal := v })
  | exitLock (h : w.refCntLock = false) :
      Use now s e w (.exit v (.lock e own)) (.exit v (.dec e own)) none
        (s.store e { w with refCntLock := true })
  | exitDec : Use now s e w (.exit v (.dec e own)) (.exit v (.unlock e own)) none
      (s.store e { w with refCnt := w.refCnt - 1 })
  | exitUnlock : Use now s e w (.exit v (.unlock e own))
      (.exit v (if own then .up e else .check e)) none (s.store e { w with refCntLock := false })
  | exitUp : Use now s e w (.exit v (.up e)) (.exit v (.check e)) none
      (s.store e { w with endP := w.endP + 1 })
  | exitCheck : Use now s e w (.exit v (.check e))
      (.exit v (if w.refCnt = 0 then .remove e else .next e)) none s
  | exitRemove (h : e ∈ s.waitList) :
      Use now s e w (.exit v (.remove e)) (.exit v (.free e (succ s.waitList e))) none
        (s.listRemove e w)
  | exitFree : Use now s e w (.exit v (.free e (some e'))) (.exit v (.next e')) none (s.free e)
  | exitLast : Use now s e w (.exit v (.free e none)) (.exit v .leave) none (s.free e)
  | exitNext (h : s.listNext e w = some e') :
      Use now s e w (.exit v (.next e)) (.exit v (.readChild e')) none s
  | exitEnd (h : s.listNext e w = none) :
      Use now s e w (.exit v (.next e)) (.exit v .leave) none s

/-- What a step of the process `now` can be, one case for each way on in the four functions. -/
inductive Step (now : Tid) (s : Shared) : Choice → Pc → Pc → Option Event → Shared → Prop
  | born (h : now ∈ s.allList) : Step now s ch .unborn (.start .load) none s
  | load : Step now s (.load ok) (.start .load) (.start (.setLoadVal ok)) (some (.loaded ok)) s
  | setLoadVal : Step now s ch (.start (.setLoadVal ok)) (.start (.upTemporary ok)) none
      { s with loadVal := if ok then 0 else -1 }
  | loaded : Step now s ch (.start (.upTemporary true)) .user none
      { s with temporary := s.temporary + 1 }
  | notLoaded : Step now s ch (.start (.upTemporary false)) (.exit (-1) .begin)
      (some (.exited (-1))) { s with temporary := s.temporary + 1 }
  | exec : Step now s (.call .exec) .user (.execute .lock) none s
  | wait : Step now s (.call (.wait t)) .user (.wait t .begin) none s
  | exit : Step now s (.call (.exit v)) .user (.exit v .begin) (some (.exited v)) s
  | pathCall : Step now s (.call .pathCall) .user .user none
      { s with workDir := Function.update s.workDir now true }
  | lock (h : s.execLock = none) : Step now s ch (.execute .lock) (.execute .initTemporary) none
      { s with execLock := some now }
  | initTemporary : Step now s ch (.execute .initTemporary) (.execute .create) none
      { s with temporary := 0 }
  | create : Step now s ch (.execute .create) (.execute (.malloc s.nextTid))
      (some (.created s.nextTid))
      { s with nextTid := s.nextTid + 1, allList := s.allList ++ [s.nextTid] }
  | malloc : Step now s ch (.execute (.malloc j)) (.execute (.fill j s.statuses.next .childPid)) none
      { s with statuses := s.statuses.alloc (s.garbage s.statuses.next) }
  | noWorkDir (h : s.workDir now = false) :
      Step now s ch (.execute (.setWorkDir j)) (.execute (.downTemporary j)) none s
  | setWorkDir (h : j ∈ s.allList) :
      Step now s ch (.execute (.setWorkDir j)) (.execute (.downTemporary j)) none
        { s with workDir := Function.update s.workDir j true }
  | downTemporary (h : s.temporary ≠ 0) :
      Step now s ch (.execute (.downTemporary j)) (.execute (.unlock j)) none
        { s with temporary := s.temporary - 1 }
  | unlock : Step now s ch (.execute (.unlock j)) (.execute (.readLoadVal j)) none
      { s with execLock := none }
  | readLoadVal : Step now s ch (.execute (.readLoadVal j)) .user
      (some (.executed j (if s.loadVal ≠ 0 then tidError else j))) s
  | waitBegin (h : s.waitList.head? = some e) :
      Step now s ch (.wait t .begin) (.wait t (.readChild e)) none s
  | waitNone (h : s.waitList.head? = none) :
      Step now s ch (.wait t .begin) .user (some (.refused t)) s
  | exitBegin (h : s.waitList.head? = some e) :
      Step now s ch (.exit v .begin) (.exit v (.readChild e)) none s
  | exitNone (h : s.waitList.head? = none) :
      Step now s ch (.exit v .begin) (.exit v .leave) none s
  | leave : Step now s ch (.exit v .leave) .dead none { s with allList := s.allList.erase now }
  | use (hw : s.statuses.cells e = some w) (h : Use now s e w q pc new s') :
      Step now s ch q pc new s'

section inversion

variable {ch : Choice} {now : Tid} {s s' : Shared} {q pc : Pc} {new : Option Event}

/-- **What a step does.** -/
theorem outcome_step (h : outcome ch now s q = .next pc new s') : Step now s ch q pc new s' := by
  cases q with
  | unborn =>
    simp only [outcome] at h
    split at h <;> cases h
    exact .born ‹_›
  | start q =>
    cases q <;> simp only [outcome, startProcess] at h
    · split at h <;> cases h
      exact .load
    · cases h
      exact .setLoadVal
    · split at h <;> cases h
      · rename_i ok hok
        subst hok
        exact .loaded
      · rename_i ok hok
        rw [Bool.not_eq_true] at hok
        subst hok
        exact .notLoaded
  | user =>
    simp only [outcome] at h
    split at h
    · rename_i c
      cases c <;> cases h <;> constructor
    · cases h
  | execute q =>
    cases q <;> simp only [outcome, processExecute] at h
    case fill | push =>
      obtain ⟨w, hw, h⟩ := access_eq_next h
      cases h
      exact .use hw (by constructor)
    case setWorkDir =>
      split at h
      · cases h
        exact .noWorkDir ‹_›
      · split at h <;> cases h
        exact .setWorkDir ‹_›
    case lock | downTemporary =>
      split at h <;> cases h
      constructor
      assumption
    all_goals
      cases h
      constructor
  | wait t q =>
    cases q <;> simp only [outcome, processWait] at h
    case begin =>
      unfold waitAt at h
      split at h <;> cases h
      · exact .waitBegin ‹_›
      · exact .waitNone ‹_›
    case next =>
      obtain ⟨w, hw, h⟩ := access_eq_next h
      unfold waitAt at h
      split at h <;> cases h
      · exact .use hw (.waitNext ‹_›)
      · exact .use hw (.waitEnd ‹_›)
    all_goals
      obtain ⟨w, hw, h⟩ := access_eq_next h
    case down | remove =>
      split at h <;> cases h
      refine .use hw ?_
      constructor
      assumption
    all_goals
      cases h
      exact .use hw (by constructor)
  | exit v q =>
    cases q <;> simp only [outcome, handleExit] at h
    case begin =>
      unfold exitAt at h
      split at h <;> cases h
      · exact .exitBegin ‹_›
      · exact .exitNone ‹_›
    case leave =>
      cases h
      exact .leave
    case free st e =>
      obtain ⟨w, hw, h⟩ := access_eq_next h
      cases e <;> cases h <;> exact .use hw (by constructor)
    all_goals
      obtain ⟨w, hw, h⟩ := access_eq_next h
      refine .use hw ?_
    case next =>
      unfold exitAt at h
      split at h <;> cases h
      · exact .exitNext ‹_›
      · exact .exitEnd ‹_›
    case lock =>
      split at h <;> cases h
      exact .exitLock (Bool.not_eq_true _ ▸ ‹_›)
    case remove =>
      split at h <;> cases h
      exact .exitRemove ‹_›
    all_goals
      cases h
      constructor
  | dead => cases h

end inversion

/-! ### Runs -/

open Interleaving

abbrev System := Conf Tid Proc Shared

/-- The kernel has started: the first thread is about to execute processes; the kernel's own
threads have taken the next `kernelThreads` identifiers. -/
def boot (kernelThreads : ℕ) (garbage : StatusPtr → WaitStatus) : System where
  shared :=
    { statuses := Heap.empty, waitList := [], execLock := none, temporary := 0, loadVal := 0,
      nextTid := 2 + kernelThreads, allList := [1], workDir := fun _ => false, garbage := garbage }
  pc i := ⟨i, if i = 1 then .user else .unborn, []⟩

def System.at (c : System) (i : Tid) : Pc := (c.pc i).pc

def System.history (c : System) (i : Tid) : List Event := (c.pc i).history

/-- The system after a step of the process `i`. -/
def System.moved (c : System) (i : Tid) (pc : Pc) (new : Option Event) (s : Shared) : System :=
  ⟨s, Function.update c.pc i ⟨i, pc, new.toList ++ c.history i⟩⟩

namespace System

variable {c : System} {i j : Tid} {pc : Pc} {new : Option Event} {s : Shared}

@[simp] theorem moved_shared : (c.moved i pc new s).shared = s := rfl

@[simp] theorem moved_at_self : (c.moved i pc new s).at i = pc := by
  simp [System.at, moved]

theorem moved_at_of_ne (h : j ≠ i) : (c.moved i pc new s).at j = c.at j := by
  simp [System.at, moved, h]

@[simp] theorem moved_history_self :
    (c.moved i pc new s).history i = new.toList ++ c.history i := by
  simp [history, moved]

theorem moved_history_of_ne (h : j ≠ i) : (c.moved i pc new s).history j = c.history j := by
  simp [history, moved, h]

@[simp] theorem moved_moved {pc' : Pc} {s' : Shared} :
    (c.moved i pc none s).moved i pc' new s' = c.moved i pc' new s' := by
  simp [moved, history]

theorem moved_self (htid : (c.pc i).tid = i) : c.moved i (c.at i) none c.shared = c := by
  have : (⟨i, c.at i, c.history i⟩ : Proc) = c.pc i := by
    rw [System.at, history]
    cases h : c.pc i
    rw [h] at htid
    cases htid
    rfl
  simp [moved, this]

@[simp] theorem moved_tid : ((c.moved i pc new s).pc i).tid = i := by
  simp [moved]

variable {e : Event}

theorem mem_moved_history (h : e ∈ c.history j) :
    e ∈ (c.moved i pc new s).history j := by
  rcases eq_or_ne j i with rfl | hj
  · rw [moved_history_self]
    exact List.mem_append_right _ h
  · rwa [moved_history_of_ne hj]

theorem of_mem_moved_history (h : e ∈ (c.moved i pc new s).history j) :
    (j = i ∧ new = some e) ∨ e ∈ c.history j := by
  rcases eq_or_ne j i with rfl | hj
  · rw [moved_history_self, List.mem_append, Option.mem_toList] at h
    exact h.imp_left fun h => ⟨rfl, h⟩
  · rw [moved_history_of_ne hj] at h
    exact .inr h

end System

variable {c' : System} {ok : System → Tid × Choice → Prop} {evs : List (Tid × Choice)} {n : ℕ}
  {garbage : StatusPtr → WaitStatus}

/-- A step of a run is a step of one process, which knows its `tid`. -/
theorem next_eq_moved {c : System} {ev : Tid × Choice} (htid : ∀ i, (c.pc i).tid = i)
    (h : next procStep c ev = some c') :
    ∃ pc new s', outcome ev.2 ev.1 c.shared (c.at ev.1) = .next pc new s' ∧
      c' = c.moved ev.1 pc new s' := by
  obtain ⟨p, s, hstep, rfl⟩ := next_eq_some h
  unfold procStep at hstep
  rw [htid] at hstep
  split at hstep
  · rename_i pc new s' hout
    cases hstep
    exact ⟨pc, new, s, hout, rfl⟩
  · cases hstep

theorem next_of_outcome {c : System} {i : Tid} {ch : Choice} {pc : Pc} {new : Option Event}
    {s' : Shared} (htid : (c.pc i).tid = i) (h : outcome ch i c.shared (c.at i) = .next pc new s') :
    next procStep c (i, ch) = some (c.moved i pc new s') := by
  have hstep : procStep ch (c.pc i) c.shared = some (⟨i, pc, new.toList ++ c.history i⟩, s') := by
    unfold System.at at h
    rw [procStep, htid, h]
    rfl
  rw [next, hstep]
  rfl

theorem moved_tids {c : System} {i : Tid} {pc : Pc} {new : Option Event} {s : Shared}
    (htid : ∀ i, (c.pc i).tid = i) (j : Tid) : ((c.moved i pc new s).pc j).tid = j := by
  rcases eq_or_ne j i with rfl | hj
  · exact System.moved_tid
  · simpa [System.moved, hj] using htid j

/-- **Invariant rule** for runs of processes. -/
theorem run_invariant {I : System → Prop}
    (hstep : ∀ c i ch pc new s', I c → ok c (i, ch) →
      outcome ch i c.shared (c.at i) = .next pc new s' → I (c.moved i pc new s'))
    {c : System} (htid : ∀ i, (c.pc i).tid = i) (hI : I c)
    (hok : StepsMeet procStep ok c evs) (hexec : exec procStep c evs = some c') :
    I c' ∧ ∀ i, (c'.pc i).tid = i := by
  refine exec_invariant (I := fun c => I c ∧ ∀ i, (c.pc i).tid = i) ?_ evs ⟨hI, htid⟩ hok hexec
  rintro c ⟨i, ch⟩ c1 ⟨hI, htid⟩ hok hn
  obtain ⟨pc, new, s', hout, rfl⟩ := next_eq_moved htid hn
  exact ⟨hstep c i ch pc new s' hI hok hout, moved_tids htid⟩

/-! ### Checking a run

In a run of finitely many processes, what is required of every process is checked for these. -/

/-- The processes of `ps` take turns; `check` looks at one of them. -/
def checkStep (ps : List Tid) (check : System → Tid × Choice → Tid → Bool) (c : System)
    (ev : Tid × Choice) : Bool :=
  decide (ev.1 ∈ ps) && ps.all (check c ev)

theorem boot_at_of_ne {i : Tid} (h : i ≠ 1) :
    (boot n garbage).at i = .unborn := if_neg h

theorem stepsMeet_of_checkStep (ps : List Tid) (check : System → Tid × Choice → Tid → Bool)
    (hcheck : ∀ c ev, (∀ i, i ∉ ps → c.at i = .unborn) → ev.1 ∈ ps →
      (∀ i ∈ ps, check c ev i = true) → ok c ev) (hfirst : 1 ∈ ps)
    (h : checks procStep (checkStep ps check) (boot n garbage) evs = true) :
    StepsMeet procStep ok (boot n garbage) evs := by
  refine stepsMeet_of_checks (I := fun c : System => ∀ i, i ∉ ps → c.at i = .unborn) ?_ ?_ evs ?_ h
  · intro c ev hc h
    rw [checkStep, Bool.and_eq_true, decide_eq_true_eq, List.all_eq_true] at h
    exact hcheck c ev hc h.1 h.2
  · intro c ev c' hc h hn i hi
    rw [checkStep, Bool.and_eq_true, decide_eq_true_eq] at h
    obtain ⟨p, s, -, rfl⟩ := next_eq_some hn
    have hne : i ≠ ev.1 := fun he => hi (he ▸ h.1)
    simpa [System.at, hne] using hc i hi
  · exact fun i hi => boot_at_of_ne fun h => hi (h ▸ hfirst)

/-- What `malloc` returns, where it does not matter. -/
def noStatus : WaitStatus := ⟨0, 0, 0, 0, 0, false, none⟩

/-- `process_execute` up to `sema_down (&temporary)`. -/
def executeSteps (i : Tid) : List (Tid × Choice) :=
  (i, .call .exec) :: List.replicate 11 (i, .go)

/-- `start_process` up to the write of `load_val`. -/
def loadSteps (i : Tid) (ok : Bool) : List (Tid × Choice) :=
  [(i, .go), (i, .load ok), (i, .go)]

/-- The process `i` executes the process `j`, which is loaded. -/
def execSteps (i j : Tid) : List (Tid × Choice) :=
  executeSteps i ++ loadSteps j true ++ [(j, .go)] ++ List.replicate 3 (i, .go)

end Pintos.Process

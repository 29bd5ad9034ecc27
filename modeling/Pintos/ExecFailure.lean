import Pintos.ExitScan

/-! # `process_execute` when `thread_create` fails

`processExecute` takes `thread_create` to succeed.  Here it may fail, because `palloc_get_page`
finds no page for the new thread: then it returns `TID_ERROR`, and `process_execute` frees the
copy of the command line and goes on as if there were a child.

* **`execRun now page s`**: `process_execute` in the process `now`, without interruption, up to
  where it returns, blocks or crashes; `page` says whether there is a page for the thread.
* **`Survives`**: how it should end.
* **`execRun_of_no_page`**: how it ends.
* **`exec_survives_iff`**: it never survives the failure. -/

namespace Pintos.Process

/-- How a call ends. -/
inductive Ending
  | returned (tid : Tid)
  /-- Waiting, at this point, for a lock or for a semaphore. -/
  | blocked (pc : ExecutePc)
  | crashed (f : Fault)
  /-- Not within the given number of steps. -/
  | running

structure ExecRun where
  ending : Ending
  shared : Shared
  /-- how often `fn_copy` has been freed -/
  copyFreed : ℕ

/-- `thread_create`, and the test of what it returns. -/
def threadCreate (now : Tid) (page : Bool) (s : Shared) : Outcome :=
  if page then processExecute now s .create else .next (.execute (.malloc tidError)) none s

def execStep (now : Tid) (page : Bool) (s : Shared) : ExecutePc → Outcome
  | .create => threadCreate now page s
  | pc => processExecute now s pc

/-- `palloc_free_page (fn_copy)` is called in this step. -/
def freesCopy (page : Bool) : ExecutePc → ℕ
  | .create => if page then 0 else 1
  | _ => 0

def execLoop (now : Tid) (page : Bool) : ℕ → Shared → ExecutePc → ℕ → ExecRun
  | 0, s, _, freed => ⟨.running, s, freed⟩
  | fuel + 1, s, pc, freed =>
    match execStep now page s pc with
    | .next (.execute pc') _ s' => execLoop now page fuel s' pc' (freed + freesCopy page pc)
    | .next _ (some (.executed _ tid)) s' => ⟨.returned tid, s', freed + freesCopy page pc⟩
    | .next _ _ s' => ⟨.running, s', freed + freesCopy page pc⟩
    | .blocked => ⟨.blocked pc, s, freed⟩
    | .fault f => ⟨.crashed f, s, freed⟩

/-- `process_execute`.  It has no loop: fourteen steps are all there are. -/
def execRun (now : Tid) (page : Bool) (s : Shared) : ExecRun := execLoop now page 14 s .lock 0

/-- The failure of `thread_create` is survived: `process_execute` returns `TID_ERROR`, the lock
is free, `wait_list` is as it was and the copy was freed once. -/
structure Survives (s : Shared) (r : ExecRun) : Prop where
  returned : r.ending = .returned tidError
  lock : r.shared.execLock = none
  waitList : r.shared.waitList = s.waitList
  copyFreed : r.copyFreed = 1

section

variable {now : Tid} {s : Shared}

theorem execLoop_next {page : Bool} {fuel freed : ℕ} {pc pc' : ExecutePc} {s' : Shared}
    {new : Option Event} (h : execStep now page s pc = .next (.execute pc') new s') :
    execLoop now page (fuel + 1) s pc freed =
      execLoop now page fuel s' pc' (freed + freesCopy page pc) := by
  rw [execLoop, h]

/-- The record `process_execute` puts on `wait_list` for the thread that does not exist. -/
def orphan (now : Tid) (w : WaitStatus) : WaitStatus :=
  { w with childPid := tidError, parentPid := now, endP := 0, refCntLock := false, refCnt := 2 }

/-- The state once that record is on the list. -/
def pushed (now : Tid) (s : Shared) : Shared :=
  { s with
    execLock := some now
    temporary := 0
    statuses := (s.statuses.alloc (s.garbage s.statuses.next)).store s.statuses.next
      (orphan now (s.garbage s.statuses.next))
    waitList := s.waitList ++ [s.statuses.next] }

/-- Five assignments fill the new record, and it is put on the list. -/
theorem execLoop_fill {fuel : ℕ} {w : WaitStatus} {st : StatusPtr}
    (hcell : s.statuses.cells st = some w) :
    execLoop now false (fuel + 6) s (.fill tidError st .childPid) 1 =
      execLoop now false fuel
        { s.store st (orphan now w) with waitList := s.waitList ++ [st] }
        (.setWorkDir tidError) 1 := by
  have hfill : ∀ {s0 : Shared} {w0 : WaitStatus} {n : ℕ} (f : Field),
      s0.statuses.cells st = some w0 →
      execLoop now false (n + 1) s0 (.fill tidError st f) 1 =
        execLoop now false n (s0.store st (f.set now tidError w0)) (f.after tidError st) 1 := by
    intro s0 w0 n f hcell0
    apply execLoop_next
    rw [execStep, processExecute, access_of_cell hcell0]
    intro heq
    cases heq
  rw [hfill .childPid hcell, Field.after, hfill .parentPid (cell_store _ hcell), Field.after,
    Shared.store_store, hfill .endP (cell_store _ hcell), Field.after, Shared.store_store,
    hfill .refCntLock (cell_store _ hcell), Field.after, Shared.store_store,
    hfill .refCnt (cell_store _ hcell), Field.after, Shared.store_store]
  apply execLoop_next
  rw [execStep, processExecute, access_of_cell (cell_store _ hcell)]
  · rfl
  · intro heq
    cases heq

/-- Up to `set_work_dir` the call goes on as if there were a child. -/
theorem execLoop_pushed (hlock : s.execLock = none) :
    execRun now false s = execLoop now false 4 (pushed now s) (.setWorkDir tidError) 1 := by
  unfold execRun
  have hacquire : execStep now false s .lock =
      .next (.execute .initTemporary) none { s with execLock := some now } := if_pos hlock
  rw [execLoop_next hacquire]
  have hinit : ∀ s0 : Shared, execStep now false s0 .initTemporary =
      .next (.execute .create) none { s0 with temporary := 0 } := fun _ => rfl
  rw [execLoop_next (hinit _)]
  have hcreate : ∀ s0 : Shared, execStep now false s0 .create =
      .next (.execute (.malloc tidError)) none s0 := fun _ => rfl
  rw [execLoop_next (hcreate _)]
  have hmalloc : ∀ s0 : Shared, execStep now false s0 (.malloc tidError) =
      .next (.execute (.fill tidError s0.statuses.next .childPid)) none
        { s0 with statuses := s0.statuses.alloc (s0.garbage s0.statuses.next) } := fun _ => rfl
  exact execLoop_fill Heap.alloc_self

/-- **How the call ends** when there is no page: with a record of a child -1 on `wait_list` and
`exec_lock` held, it waits for a child that will never be there, or has already used the result
of `get_thread (-1)` as a thread. -/
theorem execRun_of_no_page (now : Tid) (hlock : s.execLock = none) (htid : tidError ∉ s.allList) :
    execRun now false s =
      ⟨if s.workDir now then .crashed .noThread else .blocked (.downTemporary tidError),
        pushed now s, 1⟩ := by
  rw [execLoop_pushed hlock]
  cases hdir : s.workDir now with
  | false =>
    have hskip : execStep now false (pushed now s) (.setWorkDir tidError) =
        .next (.execute (.downTemporary tidError)) none (pushed now s) := if_pos hdir
    rw [execLoop_next hskip]
    rfl
  | true =>
    have hnot : ¬(pushed now s).workDir now = false := by
      intro hfalse
      rw [show (pushed now s).workDir now = s.workDir now from rfl, hdir] at hfalse
      cases hfalse
    have hcrash : execStep now false (pushed now s) (.setWorkDir tidError) =
        .fault .noThread := by
      show (if (pushed now s).workDir now = false then _ else _) = _
      rw [if_neg hnot]
      exact if_neg htid
    rw [execLoop, hcrash]
    rfl

/-- **`process_execute` never survives a failure of `thread_create`.**  In a state in which
`exec_lock` is free, "if there is no page for the thread, the failure is survived" holds if and
only if there is a page; without one the call leaves a record on `wait_list`, does not return,
and every later `process_execute` waits for `exec_lock`. -/
theorem exec_survives_iff (now : Tid) (s : Shared) (hlock : s.execLock = none)
    (htid : tidError ∉ s.allList) (page : Bool) :
    ((page = false → Survives s (execRun now page s)) ↔ page = true) ∧
    (page = false →
      (execRun now page s).shared.waitList = s.waitList ++ [s.statuses.next] ∧
      ∀ other, processExecute other (execRun now page s).shared .lock = .blocked) := by
  cases page with
  | true => exact ⟨iff_of_true nofun rfl, nofun⟩
  | false =>
    have hrun := execRun_of_no_page now hlock htid
    rw [hrun]
    refine ⟨iff_of_false ?_ nofun, fun _ => ⟨rfl, fun other => rfl⟩⟩
    intro hall
    have hlist := (hall rfl).waitList
    have hlen := congrArg List.length hlist
    simp [pushed] at hlen

end

/-- In a system that has only its first thread: with a page there is no failure to survive,
without one nobody can execute a program any more. -/
theorem exec_survives_iff_boot :
    (true = false → Survives (boot 0 fun _ => noStatus).shared
      (execRun 1 true (boot 0 fun _ => noStatus).shared)) ∧
    ∀ other, processExecute other (execRun 1 false (boot 0 fun _ => noStatus).shared).shared .lock =
      .blocked :=
  ⟨(exec_survives_iff 1 (boot 0 fun _ => noStatus).shared rfl (by decide) true).1.mpr rfl,
    ((exec_survives_iff 1 (boot 0 fun _ => noStatus).shared rfl (by decide) false).2 rfl).2⟩

/-- The first thread executes a program when memory is full: it waits for ever. -/
theorem not_exec_survives :
    (∃ s', execRun 1 false (boot 0 fun _ => noStatus).shared =
      ⟨.blocked (.downTemporary tidError), s', 1⟩ ∧ s'.execLock = some 1) ∧
    ¬∀ (now : Tid) (s : Shared), s.execLock = none → tidError ∉ s.allList →
      ∀ page, page = false → Survives s (execRun now page s) := by
  have hrun := execRun_of_no_page 1 (s := (boot 0 fun _ => noStatus).shared) rfl (by decide)
  refine ⟨⟨_, hrun, rfl⟩, fun hall => ?_⟩
  have hret := (hall 1 (boot 0 fun _ => noStatus).shared rfl (by decide) false rfl).returned
  cases hret

end Pintos.Process

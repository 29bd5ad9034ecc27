import Pintos.Chdir
import Pintos.Transition

/-! # The working directory of a new process

`process_execute` makes the child's thread runnable with `thread_create` and only then gives it the
parent's working directory, with `set_work_dir`.  The child opens its program with `filesys_open`,
which starts from its own working directory, or from the root directory if it has none yet.

* **`Sys`**: the file system and the memory, and where the two threads are.  The steps of the
  parent are those from `thread_create` on, the steps of the child those of `start_process` and
  `load` that touch files and directories.
* `SetFirst`: the child starts `load` only when `set_work_dir` has returned, or the parent has no
  working directory.
* **`exec_resolves`**: in a run with `SetFirst` the child finds what the program's name denotes in
  the parent's working directory, starts its user code there, and `set_work_dir` writes to a
  thread that exists.

The insertion of the `wait_status` is a step that touches none of these objects.  What the user
code does is not modelled, only that it ends. -/

namespace Pintos.ExecDir

open Heap Interaction Kernel Transition

/-- Where the parent is in `process_execute`, behind `thread_create`. -/
inductive ParentPc
  /-- `list_push_back (&wait_list, ...)` is next. -/
  | insert
  /-- `set_work_dir`: `ct = get_thread (ctid)` is next. -/
  | findChild
  /-- `ct` was found; `dir_open (pt -> work_dir -> inode)` is next. -/
  | openDir (ct : Option Ptr)
  /-- `ct -> work_dir = ...` is next. -/
  | assign (ct dir : Option Ptr)
  /-- `set_work_dir` has returned. -/
  | returned
deriving DecidableEq

/-- Where the child is. -/
inductive ChildPc
  /-- in `load`, before `filesys_open` -/
  | start
  /-- in `filesys_open`, with the current directory open -/
  | lookup (dir : Option Ptr)
  /-- behind `dir_lookup` -/
  | close (dir inode : Option Ptr)
  | openFile (inode : Option Ptr)
  | denyWrite (file : Ptr)
  /-- `load` reads the file, and sets `exec_file` in the end. -/
  | rest (file : Option Ptr)
  /-- The user code starts. -/
  | user
  | exiting
  | gone
deriving DecidableEq

/-- `filesys_open` has not yet found the program. -/
def ChildPc.opening : ChildPc → Bool
  | .start => true
  | .lookup _ => true
  | _ => false

/-- Whose step followed a pointer to nothing, or failed an assertion. -/
inductive Culprit
  | setWorkDir
  | child
deriving DecidableEq

structure Sys where
  kernel : Kernel
  parent : ParentPc
  child : ChildPc
  /-- The sector of the inode that `dir_lookup` found for the program, once it has returned. -/
  found : Option (Option Sector)
  stopped : Option Culprit

inductive Event
  | parent
  /-- `ok`: there is a page directory, and `load` accepts the file. -/
  | child (ok : Bool)
deriving DecidableEq

/-- The state behind `thread_create`. -/
def created (k : Kernel) : Sys := ⟨k, .insert, .start, none, none⟩

section Code

variable (depth : ℕ) (pt ct : Ptr) (name : CString)

/-- `get_thread`; `none` is the pointer -1. -/
def lookupThread (m : Memory) (tid : Ptr) : Option Ptr :=
  if (m.threads.cells tid).isSome then some tid else none

/-- `dir_open (pt -> work_dir -> inode)`, unless `pt` has no working directory. -/
def openParentDir : Prog kernelSig (Option (Option Ptr)) := do
  let t ← getThread pt
  match t.workDir with
  | none => pure none
  | some d => do
    let h ← getHandle d
    let dir ← dirOpen h.inode
    pure (some dir)

def assignWorkDir (c dir : Option Ptr) : Prog kernelSig Unit := do
  let p ← deref c
  let t ← getThread p
  setThread p { t with workDir := dir }

def lookupIn : Option Ptr → Prog kernelSig (Option Ptr)
  | none => pure none
  | some d => dirLookup d name

def setExecFile (file : Option Ptr) : Prog kernelSig Unit := do
  let t ← getThread ct
  setThread ct { t with execFile := file }

/-- `process_exit`, and the thread's page is freed. -/
def processExit : Prog kernelSig Unit := do
  let t ← getThread ct
  fileClose depth t.execFile
  dirClose depth t.workDir
  let m ← memory
  setMemory { m with threads := m.threads.free ct }

/-- A step of a thread; a fault stops the kernel. -/
def Sys.exec {α : Type} (s : Sys) (who : Culprit) (p : Prog kernelSig α)
    (f : α → Kernel → Sys) : Sys :=
  match run kernelHandler p s.kernel with
  | .ok (a, k) => f a k
  | .error _ => { s with stopped := some who }

def parentStep (s : Sys) : Option Sys :=
  match s.parent with
  | .insert => some { s with parent := .findChild }
  | .findChild => some { s with parent := .openDir (lookupThread s.kernel.2 ct) }
  | .openDir c => some (s.exec .setWorkDir (openParentDir pt) fun r k =>
    match r with
    | none => { s with kernel := k, parent := .returned }
    | some dir => { s with kernel := k, parent := .assign c dir })
  | .assign c dir => some (s.exec .setWorkDir (assignWorkDir c dir) fun _ k =>
    { s with kernel := k, parent := .returned })
  | .returned => none

def childStep (ok : Bool) (s : Sys) : Option Sys :=
  match s.child with
  | .start =>
    if ok then some (s.exec .child (dirOpenCurrent ct) fun dir k =>
      { s with kernel := k, child := .lookup dir })
    else some { s with child := .rest none }
  | .lookup dir => some (s.exec .child (lookupIn name dir) fun inode k =>
    { s with kernel := k, child := .close dir inode, found := some (sectorOf k.2 inode) })
  | .close dir inode => some (s.exec .child (dirClose depth dir) fun _ k =>
    { s with kernel := k, child := .openFile inode })
  | .openFile inode => some (s.exec .child (fileOpen inode) fun file k =>
    match file with
    | none => { s with kernel := k, child := .rest none }
    | some file => { s with kernel := k, child := .denyWrite file })
  | .denyWrite file => some (s.exec .child (fileDenyWrite (some file)) fun _ k =>
    { s with kernel := k, child := .rest (some file) })
  | .rest file => some (s.exec .child (setExecFile ct file) fun _ k =>
    { s with kernel := k, child := if ok && file.isSome then .user else .exiting })
  | .user => some { s with child := .exiting }
  | .exiting => some (s.exec .child (processExit depth ct) fun _ k =>
    { s with kernel := k, child := .gone })
  | .gone => none

def step (s : Sys) (e : Event) : Option Sys :=
  if s.stopped.isSome then none
  else
    match e with
    | .parent => parentStep pt ct s
    | .child ok => childStep depth ct name ok s

/-- The child starts `load` only when `set_work_dir` has returned, or the parent has no working
directory. -/
def SetFirst (s : Sys) : Event → Prop
  | .parent => True
  | .child _ => s.child = .start → s.parent = .returned ∨
      ∃ t, s.kernel.2.threads.cells pt = some t ∧ t.workDir = none

instance (s : Sys) : ∀ e, Decidable (SetFirst pt s e)
  | .parent => .isTrue trivial
  | .child _ => decidable_of_iff (s.child = .start → s.parent = .returned ∨
      (s.kernel.2.threads.cells pt).map Thread.workDir = some none)
      (by simp only [SetFirst, Option.map_eq_some_iff])

end Code

/-! ### What is to be shown -/

/-- The program was searched in the directory `dir` of the file system, and the user code starts
there; `set_work_dir` has done no harm.  A search that can end does end. -/
structure Resolved (d : Sector → Block) (dir : Sector) (name : CString) (ct : Ptr) (s : Sys) :
    Prop where
  found : ∀ r, s.found = some r → r = Fs.child d dir name
  returns : Fs.Searchable d dir name → s.stopped = some .child → s.child.opening = false
  start : s.child = .user → CurrentDir s.kernel.2 ct dir
  harmless : s.stopped ≠ some .setWorkDir

/-! ### The current directory stays -/

variable {t : Thread} {who : Culprit} {P : Sys → Prop}

section Directories

variable {k k' : Kernel} {m m' : Memory} {held held' : Ptr → ℤ} {ct now : Ptr}
  {dir : Sector}

theorem currentDir_of (h : CurrentDir m ct dir) (hthread : m'.threads.cells ct = m.threads.cells ct)
    (hhandle : ∀ t d hd, m.threads.cells ct = some t → t.workDir = some d →
      m.handles.cells d = some hd → ∃ hd', m'.handles.cells d = some hd' ∧ hd'.inode = hd.inode)
    (hinode : ∀ q j, m.inodes.cells q = some j →
      ∃ j', m'.inodes.cells q = some j' ∧ j'.sector = j.sector) : CurrentDir m' ct dir := by
  cases h with
  | root ht hwork => exact .root (hthread.trans ht) hwork
  | work ht hwork hd hq hi =>
    obtain ⟨hd', hcell, hsame⟩ := hhandle _ _ _ ht hwork hd
    obtain ⟨j', hj', hsector⟩ := hinode _ _ hi
    rw [← hsector]
    exact .work (hthread.trans ht) hwork hcell (hsame.trans hq) hj'

theorem opens_threads (h : Opens k k' held held') : k'.2.threads = k.2.threads := by
  rw [h.step.rest]
  rfl

theorem currentDir_opens (h : CurrentDir k.2 ct dir) (hk : Opened k.2 held)
    (hopens : Opens k k' held held') : CurrentDir k'.2 ct dir := by
  apply currentDir_of h
  · rw [opens_threads hopens]
  · intro t d hd _ _ hcell
    exact ⟨hd, (hopens.kept d (lt_next hcell)).trans hcell, rfl⟩
  · intro q j hj
    obtain ⟨n, hn⟩ := hopens.live hk hj
    exact ⟨_, hn, rfl⟩

theorem workDir_ne (h : CurrentDir m ct dir) (hnew : m.handles.next ≤ now)
    (ht : m.threads.cells ct = some t) : t.workDir ≠ some now := by
  intro hnow
  cases h with
  | root ht' hwork =>
    cases ht.symm.trans ht'
    cases hwork.symm.trans hnow
  | work ht' hwork hd _ _ =>
    cases ht.symm.trans ht'
    cases hwork.symm.trans hnow
    exact absurd (lt_next hd) (not_lt.mpr hnew)

end Directories

/-! ### The invariant -/

/-- The counts of openers are right, and the file system was only read. -/
structure Core (k₀ k : Kernel) (held : Ptr → ℤ) : Prop where
  opened : Opened k.2 held
  map : MapOpen k
  reads : Fs.Reads k₀.1 k.1

/-- The parent has a working directory that it has not yet given to the child, which has not
started. -/
structure Early (k₀ : Kernel) (pt ct : Ptr) (dir : Sector) (s : Sys) : Prop where
  child : s.child = .start
  core : ∃ held, Core k₀ s.kernel held
  parentDir : ∃ t d p i, s.kernel.2.threads.cells pt = some t ∧ t.workDir = some d ∧
    DirAt s.kernel.2 d p i ∧ i.sector = dir
  childDir : ∃ t, s.kernel.2.threads.cells ct = some t ∧ t.workDir = none
  not_returned : s.parent ≠ .returned
  openDir : ∀ c, s.parent = .openDir c → c = some ct
  assign : ∀ c o, s.parent = .assign c o → c = some ct ∧
    ∃ d p i, o = some d ∧ DirAt s.kernel.2 d p i ∧ i.sector = dir

/-- `set_work_dir` has returned, or has nothing to do. -/
def Ready (pt : Ptr) (s : Sys) : Prop :=
  s.parent = .returned ∨
    (∃ t, s.kernel.2.threads.cells pt = some t ∧ t.workDir = none) ∧
      ∀ c o, s.parent ≠ .assign c o

/-- In `filesys_open`: the directory at `o` is the current one of the child, opened once more. -/
def Searching (k₀ : Kernel) (ct : Ptr) (dir : Sector) (k : Kernel) (o : Option Ptr) : Prop :=
  ∃ held d p i, o = some d ∧ Core k₀ k held ∧ DirAt k.2 d p i ∧ i.sector = dir ∧ 2 ≤ held p ∧
    ∀ t, k.2.threads.cells ct = some t → t.workDir ≠ some d

/-- The child up to the start of its user code. -/
def ChildInv (k₀ : Kernel) (ct : Ptr) (dir : Sector) (k : Kernel) : ChildPc → Prop
  | .start => (∃ held, Core k₀ k held) ∧ CurrentDir k.2 ct dir
  | .lookup o => Searching k₀ ct dir k o ∧ CurrentDir k.2 ct dir
  | .close o _ => Searching k₀ ct dir k o ∧ CurrentDir k.2 ct dir
  | .openFile _ => CurrentDir k.2 ct dir
  | .denyWrite _ => CurrentDir k.2 ct dir
  | .rest _ => CurrentDir k.2 ct dir
  | .user => CurrentDir k.2 ct dir
  | .exiting => True
  | .gone => True

structure Inv (k₀ : Kernel) (pt ct : Ptr) (dir : Sector) (name : CString) (s : Sys) : Prop where
  found : ∀ r, s.found = some r → r = Fs.child k₀.1.store.sectors dir name
  returns : Fs.Searchable k₀.1.store.sectors dir name → s.stopped = some .child →
    s.child.opening = false
  harmless : s.stopped ≠ some .setWorkDir
  phase : Early k₀ pt ct dir s ∨ Ready pt s ∧ ChildInv k₀ ct dir s.kernel s.child

theorem exec_of_always {α : Type} {s : Sys} {prog : Prog kernelSig α} {f : α → Kernel → Sys}
    (hp : Always kernelHandler prog s.kernel fun a k => P (f a k))
    (hstop : P { s with stopped := some who }) : P (s.exec who prog f) := by
  unfold Sys.exec
  cases hrun : run kernelHandler prog s.kernel with
  | error e => exact hstop
  | ok r => exact hp r.1 r.2 hrun

theorem exec_of_ensures {α : Type} {s : Sys} {prog : Prog kernelSig α} {f : α → Kernel → Sys}
    (hp : Ensures kernelHandler prog s.kernel fun a k => P (f a k)) : P (s.exec who prog f) := by
  obtain ⟨a, k, hrun, hP⟩ := hp
  unfold Sys.exec
  rw [hrun]
  exact hP

/-! ### The parent -/

section Parent

variable {k₀ : Kernel} {pt ct : Ptr} {dir : Sector} {s s' : Sys}

theorem openParentDir_none {k : Kernel} (ht : k.2.threads.cells pt = some t)
    (hwork : t.workDir = none) {Q : Option (Option Ptr) → Kernel → Prop} :
    Ensures kernelHandler (openParentDir pt) k Q ↔ Q none k := by
  rw [openParentDir, ensures_bind, ensures_getThread ht, hwork, ensures_ret]

/-- The parent has no working directory: nothing happens in `set_work_dir`. -/
theorem Ready.parentStep (h : Ready pt s) (hs : parentStep pt ct s = some s') :
    ∃ pc, s' = { s with parent := pc } ∧ Ready pt s' := by
  unfold ExecDir.parentStep at hs
  rcases h with hret | ⟨⟨t, ht, hwork⟩, hassign⟩
  · rw [hret] at hs
    cases hs
  · cases hpc : s.parent with
    | insert | findChild =>
      rw [hpc] at hs
      cases hs
      exact ⟨_, rfl, .inr ⟨⟨t, ht, hwork⟩, nofun⟩⟩
    | openDir c =>
      rw [hpc] at hs
      cases hs
      refine ⟨.returned, ?_, ?_⟩
      · apply exec_of_ensures (P := fun s' => s' = { s with parent := .returned })
        rw [openParentDir_none ht hwork]
      · apply exec_of_ensures
        rw [openParentDir_none ht hwork]
        exact .inl rfl
    | assign c o => exact absurd hpc (hassign c o)
    | returned =>
      rw [hpc] at hs
      cases hs

/-- The parent on its way to the assignment. -/
theorem Early.parentStep (h : Early k₀ pt ct dir s) (hs : parentStep pt ct s = some s') :
    s'.found = s.found ∧ s'.stopped = s.stopped ∧
      (Early k₀ pt ct dir s' ∨ Ready pt s' ∧ ChildInv k₀ ct dir s'.kernel s'.child) := by
  obtain ⟨held, hcore⟩ := h.core
  obtain ⟨t, d, p, i, ht, hwork, hdir, hsector⟩ := h.parentDir
  obtain ⟨t', ht', hnone⟩ := h.childDir
  unfold ExecDir.parentStep at hs
  cases hpc : s.parent with
  | insert =>
    rw [hpc] at hs
    cases hs
    exact ⟨rfl, rfl, .inl ⟨h.child, h.core, h.parentDir, h.childDir, nofun, nofun, nofun⟩⟩
  | findChild =>
    rw [hpc] at hs
    cases hs
    refine ⟨rfl, rfl, .inl ⟨h.child, h.core, h.parentDir, h.childDir, nofun, ?_, nofun⟩⟩
    intro c hc
    obtain rfl := ParentPc.openDir.inj hc
    rw [lookupThread, ht']
    rfl
  | openDir c =>
    rw [hpc] at hs
    cases hs
    obtain ⟨hdl, hcell, hinode⟩ := hdir.dir
    apply exec_of_ensures (P := fun s' => s'.found = s.found ∧ s'.stopped = s.stopped ∧
      (Early k₀ pt ct dir s' ∨ Ready pt s' ∧ ChildInv k₀ ct dir s'.kernel s'.child))
    rw [openParentDir, ensures_bind, ensures_getThread ht, hwork]
    rw [ensures_bind, ensures_getHandle hcell, hinode, dirOpen, ensures_bind]
    refine ((Opens.refl hcore.opened hcore.map).handleOpen hdir.inode).mono ?_
    rintro _ k ⟨d', rfl, hfs, -, hdir', hopens, -⟩
    rw [ensures_ret]
    have hthreads := opens_threads hopens
    obtain ⟨n, hdirAt⟩ := hopens.dirAt hcore.opened hdir
    refine ⟨rfl, rfl, .inl ⟨h.child, ⟨held, hopens.opened, hopens.map, ?_⟩,
      ⟨t, d, p, _, ?_, hwork, hdirAt, hsector⟩, ⟨t', ?_, hnone⟩, ?_, ?_, ?_⟩⟩
    · exact hcore.reads.trans hopens.reads
    · rw [← ht, ← hthreads]
    · rw [← ht', ← hthreads]
    · rintro ⟨⟩
    · rintro _ ⟨⟩
    · rintro c' o ⟨⟩
      exact ⟨h.openDir _ hpc, d', p, i, rfl, hdir', hsector⟩
  | assign c o =>
    rw [hpc] at hs
    cases hs
    obtain ⟨rfl, d', p', i', rfl, hdir', hsector'⟩ := h.assign c o hpc
    apply exec_of_ensures (P := fun s' => s'.found = s.found ∧ s'.stopped = s.stopped ∧
      (Early k₀ pt ct dir s' ∨ Ready pt s' ∧ ChildInv k₀ ct dir s'.kernel s'.child))
    rw [assignWorkDir, ensures_bind, Kernel.deref, ensures_ret, ensures_bind,
      ensures_getThread ht', ensures_setThread hcore.map.synced]
    refine ⟨rfl, rfl, .inr ⟨.inl rfl, ?_⟩⟩
    rw [h.child]
    refine ⟨⟨held, hcore.opened.withThreads _, hcore.map.withThreads _, hcore.reads⟩, ?_⟩
    obtain ⟨hdl, hcell, hinode⟩ := hdir'.dir
    rw [← hsector']
    exact .work (store_self ht') rfl hcell hinode hdir'.inode
  | returned => exact absurd hpc h.not_returned

end Parent

/-! ### The child -/

section Child

variable {k₀ k : Kernel} {pt ct : Ptr} {dir : Sector} {name : CString} {s s' : Sys}

theorem always_fileDenyWrite (file : Ptr) (h : CurrentDir k.2 ct dir) :
    Always kernelHandler (fileDenyWrite (some file)) k (fun _ k' =>
      k'.2.threads = k.2.threads ∧ CurrentDir k'.2 ct dir) := by
  simp only [fileDenyWrite, getHandle, always_bind_iff, always_assert, always_deref, always_memory,
    always_objectAt]
  rintro - _ ⟨⟩ hd hcell
  split_ifs with hdeny
  · exact always_ret ⟨rfl, h⟩
  · -- the handle keeps its inode, and the inode its sector
    simp only [setHandle, inodeDenyWrite, getInode, setInode, always_bind_iff, always_memory,
      always_setMemory, always_deref, always_objectAt, always_assert, put_snd]
    intro p hp j hj _
    refine ⟨trivial, currentDir_of h rfl ?_ ?_⟩
    · intro t d hd' _ _ hcell'
      by_cases hdf : d = file
      · subst hdf
        cases hcell.symm.trans hcell'
        exact ⟨_, store_self hcell, rfl⟩
      · exact ⟨hd', (store_of_ne hdf).trans hcell', rfl⟩
    · intro q j' hj'
      by_cases hqp : q = p
      · subst hqp
        cases hj.symm.trans hj'
        exact ⟨_, store_self hj, rfl⟩
      · exact ⟨j', (store_of_ne hqp).trans hj', rfl⟩

theorem always_setExecFile (file : Option Ptr) (hne : pt ≠ ct) (h : CurrentDir k.2 ct dir) :
    Always kernelHandler (setExecFile ct file) k (fun _ k' =>
      k'.2.threads.cells pt = k.2.threads.cells pt ∧ CurrentDir k'.2 ct dir) := by
  simp only [setExecFile, getThread, setThread, always_bind_iff, always_memory, always_objectAt,
    always_setMemory, put_snd]
  intro t ht
  refine ⟨store_of_ne hne, ?_⟩
  cases h with
  | root ht' hwork =>
    cases ht.symm.trans ht'
    exact .root (store_self ht) hwork
  | work ht' hwork hd hp hi =>
    cases ht.symm.trans ht'
    exact .work (store_self ht) hwork hd hp hi

/-- The threads are as they were. -/
def SameThreads (k k' : Kernel) : Prop := k'.2.threads = k.2.threads

instance : IsPreorder Kernel SameThreads where
  refl _ := rfl
  trans _ _ _ h h' := Eq.trans h' h

/-- The program does not change the threads. -/
abbrev KeepsThreads {α : Type} (prog : Prog kernelSig α) : Prop :=
  Keeps kernelHandler SameThreads prog

namespace KeepsThreads

variable {α : Type}

theorem fs (prog : Prog fsSig α) : KeepsThreads (Kernel.fs prog) := by
  intro k
  rw [always_fs]
  exact (always_true _ _ _).mono fun _ _ _ => rfl

theorem getInode (p : Ptr) : KeepsThreads (Kernel.getInode p) := by
  intro k
  simp [Kernel.getInode, SameThreads]

theorem getHandle (p : Ptr) : KeepsThreads (Kernel.getHandle p) := by
  intro k
  simp [Kernel.getHandle, SameThreads]

theorem assert (P : Prop) [Decidable P] : KeepsThreads (Kernel.assert P) := by
  intro k
  simp [SameThreads]

theorem deref (p : Option Ptr) : KeepsThreads (Kernel.deref p) := by
  intro k
  simp [SameThreads]

theorem setInode (p : Ptr) (i : Inode) : KeepsThreads (Kernel.setInode p i) := by
  intro k
  simp [Kernel.setInode, SameThreads]

theorem setHandle (p : Ptr) (h : Handle) : KeepsThreads (Kernel.setHandle p h) := by
  intro k
  simp [Kernel.setHandle, SameThreads]

theorem freeHandle (p : Ptr) : KeepsThreads (Kernel.freeHandle p) := by
  intro k
  simp [Kernel.freeHandle, SameThreads]

theorem inodeClose (depth : ℕ) (inode : Option Ptr) : KeepsThreads (inodeClose depth inode) := by
  cases inode with
  | none => exact .ret ()
  | some p =>
    refine (getInode p).bind fun i => (fs _).bind fun r => ?_
    cases r with
    | some i' => exact setInode p i'
    | none =>
      intro k
      simp [SameThreads]

theorem inodeAllowWrite (inode : Option Ptr) : KeepsThreads (inodeAllowWrite inode) :=
  (deref inode).bind fun p => (getInode p).bind fun _ =>
    (assert _).bind fun _ => (assert _).bind fun _ => setInode p _

theorem fileAllowWrite (file : Option Ptr) : KeepsThreads (fileAllowWrite file) := by
  refine (assert _).bind fun _ => (deref file).bind fun f => (getHandle f).bind fun h => ?_
  cases h.denyWrite with
  | true => exact (setHandle f _).bind fun _ => inodeAllowWrite h.inode
  | false => exact .ret ()

theorem fileClose (depth : ℕ) (file : Option Ptr) : KeepsThreads (fileClose depth file) := by
  cases file with
  | none => exact .ret ()
  | some f =>
    exact (fileAllowWrite _).bind fun _ => (getHandle f).bind fun h =>
      (inodeClose depth h.inode).bind fun _ => freeHandle f

theorem dirClose (depth : ℕ) (dir : Option Ptr) : KeepsThreads (dirClose depth dir) := by
  cases dir with
  | none => exact .ret ()
  | some d =>
    exact (getHandle d).bind fun h => (inodeClose depth h.inode).bind fun _ => freeHandle d

end KeepsThreads

theorem always_processExit (depth : ℕ) (hne : pt ≠ ct) (k : Kernel) :
    Always kernelHandler (processExit depth ct) k (fun _ k' =>
      k'.2.threads.cells pt = k.2.threads.cells pt) := by
  have hclose : ∀ t : Thread, KeepsThreads (do
      fileClose depth t.execFile
      dirClose depth t.workDir) := fun t =>
    (KeepsThreads.fileClose depth t.execFile).bind fun _ => KeepsThreads.dirClose depth t.workDir
  unfold processExit
  simp only [getThread, always_bind_iff, always_memory, always_objectAt, always_setMemory, put_snd]
  intro t _
  have hkeeps := hclose t k
  rw [always_bind_iff] at hkeeps
  refine hkeeps.mono fun _ k1 h1 => h1.mono fun _ k2 h2 => ?_
  rw [free_of_ne hne, h2]

theorem Ready.keep (h : Ready pt s) (hparent : s'.parent = s.parent)
    (hcell : s'.kernel.2.threads.cells pt = s.kernel.2.threads.cells pt) : Ready pt s' := by
  unfold Ready
  rw [hparent, hcell]
  exact h

theorem Inv.stop (h : Inv k₀ pt ct dir name s)
    (hs : Fs.Searchable k₀.1.store.sectors dir name → s.child.opening = false) :
    Inv k₀ pt ct dir name { s with stopped := some .child } := by
  refine ⟨h.found, fun hsearch _ => hs hsearch, nofun, ?_⟩
  rcases h.phase with hearly | hready
  · exact .inl ⟨hearly.child, hearly.core, hearly.parentDir, hearly.childDir,
      hearly.not_returned, hearly.openDir, hearly.assign⟩
  · exact .inr hready

theorem Inv.go (h : Inv k₀ pt ct dir name s) (hrun : s.stopped = none) (hready : Ready pt s)
    {pc : ChildPc} (hcell : k.2.threads.cells pt = s.kernel.2.threads.cells pt)
    (hchild : ChildInv k₀ ct dir k pc) :
    Inv k₀ pt ct dir name { s with kernel := k, child := pc } :=
  ⟨h.found, fun _ hstop => absurd (hrun.symm.trans hstop) nofun, h.harmless,
    .inr ⟨hready.keep rfl hcell, hchild⟩⟩

theorem Inv.exec {α : Type} (h : Inv k₀ pt ct dir name s) (hrun : s.stopped = none)
    (hready : Ready pt s) (hpc : s.child.opening = false) {prog : Prog kernelSig α}
    {f : α → Kernel → Sys} (pc : α → ChildPc)
    (hf : ∀ a k, f a k = { s with kernel := k, child := pc a })
    (hp : Always kernelHandler prog s.kernel fun a k =>
      k.2.threads.cells pt = s.kernel.2.threads.cells pt ∧ ChildInv k₀ ct dir k (pc a)) :
    Inv k₀ pt ct dir name (s.exec .child prog f) := by
  apply exec_of_always
  · refine hp.mono ?_
    rintro a k ⟨hcell, hchild⟩
    rw [hf]
    exact h.go hrun hready hcell hchild
  · exact h.stop fun _ => hpc

theorem always_fileOpen (inode : Option Ptr) (h : CurrentDir k.2 ct dir) :
    Always kernelHandler (fileOpen inode) k (fun _ k' =>
      k'.2.threads = k.2.threads ∧ CurrentDir k'.2 ct dir) := by
  cases inode with
  | none => exact always_ret ⟨rfl, h⟩
  | some p =>
    simp only [fileOpen, handleOpen, newHandle, always_bind_iff, always_memory, always_setMemory]
    refine always_ret (always_ret ⟨rfl, currentDir_of h rfl ?_ ?_⟩)
    · intro t d hd _ _ hcell
      exact ⟨hd, alloc_of_live hcell, rfl⟩
    · intro q j hj
      exact ⟨j, hj, rfl⟩

variable {o : Option Ptr}

theorem Searching.dirClose {depth : ℕ} (h : Searching k₀ ct dir k o)
    (hcur : CurrentDir k.2 ct dir) :
    Ensures kernelHandler (dirClose depth o) k (fun _ k' =>
      k'.2.threads = k.2.threads ∧ CurrentDir k'.2 ct dir) := by
  obtain ⟨held, d, p, i, rfl, hcore, hdir, -, htwice, hother⟩ := h
  refine (dirClose_spec depth hcore.opened hcore.map hdir (fun _ => by omega)
    fun _ => by omega).mono ?_
  rintro _ k' ⟨-, hopened, hstep, -⟩
  have hthreads : k'.2.threads = k.2.threads := by
    rw [hstep.rest]
    rfl
  refine ⟨hthreads, currentDir_of hcur (by rw [hthreads]) ?_ ?_⟩
  · intro t d' hd ht hwork hcell
    have hne : d' ≠ d := fun heq => hother t ht (heq ▸ hwork)
    refine ⟨hd, ?_, rfl⟩
    rw [hstep.handles_eq]
    exact (free_of_ne hne).trans hcell
  · intro q j hj
    have hpos : 0 < lose held p q := by
      have hheld := hcore.opened.pos_iff.mpr ⟨j, hj⟩
      rcases eq_or_ne q p with rfl | hne
      · rw [lose_self]
        omega
      · rwa [lose_of_ne hne]
    obtain ⟨j', hj'⟩ := hopened.pos_iff.mp hpos
    exact ⟨j', hj', by rw [hstep.keeps q j j' hj hj']⟩

section Step

variable {depth : ℕ} {ok : Bool} (hne : pt ≠ ct) (hfile : Fs.FileOk k₀.1 dir)
  (hnames : Fs.NamesEnd k₀.1.store.sectors dir) (hzero : 0 ∉ name)

/-- The current directory is opened. -/
theorem Inv.open (h : Inv k₀ pt ct dir name s) (hrun : s.stopped = none) (hready : Ready pt s)
    (hcore : ∃ held, Core k₀ s.kernel held) (hcur : CurrentDir s.kernel.2 ct dir) :
    Inv k₀ pt ct dir name (s.exec .child (dirOpenCurrent ct) fun o k =>
      { s with kernel := k, child := .lookup o }) := by
  obtain ⟨held, hcore⟩ := hcore
  apply exec_of_ensures
  refine (dirOpenCurrent_spec hcore.opened hcore.map hcur).mono ?_
  rintro _ k ⟨d, p, i, held', rfl, hsector, -, hdir, hnew, hopens, -, htwice⟩
  have hthreads := opens_threads hopens
  refine h.go hrun hready (by rw [hthreads]) ⟨⟨held', d, p, i, rfl, ?_, hdir, hsector, htwice, ?_⟩,
    currentDir_opens hcur hcore.opened hopens⟩
  · exact ⟨hopens.opened, hopens.map, hcore.reads.trans hopens.reads⟩
  · rw [hthreads]
    intro t ht
    exact workDir_ne hcur hnew ht

include hfile hnames hzero in
/-- The program is searched. -/
theorem Inv.lookup (h : Inv k₀ pt ct dir name s) (hrun : s.stopped = none) (hready : Ready pt s)
    (hsearch : Searching k₀ ct dir s.kernel o) (hcur : CurrentDir s.kernel.2 ct dir) :
    Inv k₀ pt ct dir name (s.exec .child (lookupIn name o) fun inode k =>
      { s with kernel := k, child := .close o inode, found := some (sectorOf k.2 inode) }) := by
  obtain ⟨held, d, p, i, rfl, hcore, hdir, rfl, htwice, hother⟩ := hsearch
  have hstore := hcore.reads.store
  have hfile' := hcore.reads.fileOk hfile
  have hnames' : Fs.NamesEnd s.kernel.1.store.sectors i.sector := by
    rw [hstore]
    exact hnames
  by_cases hs : Fs.Searchable k₀.1.store.sectors i.sector name
  · apply exec_of_ensures
    refine (ensures_dirLookup hdir hfile' hnames' hzero hcore.opened hcore.map
      (by rw [hstore]; exact hs)).mono ?_
    rintro inode k ⟨hsector, held', hopens⟩
    have hthreads := opens_threads hopens
    obtain ⟨n, hdir'⟩ := hopens.dirAt hcore.opened hdir
    refine ⟨?_, fun _ hstop => absurd (hrun.symm.trans hstop) nofun, h.harmless,
      .inr ⟨hready.keep rfl (by rw [hthreads]), ⟨held', d, p, _, rfl, ?_, hdir', rfl, ?_, ?_⟩,
        currentDir_opens hcur hcore.opened hopens⟩⟩
    · rintro _ ⟨⟩
      rw [hsector, hstore]
    · exact ⟨hopens.opened, hopens.map, hcore.reads.trans hopens.reads⟩
    · exact htwice.trans (hopens.le p)
    · rw [hthreads]
      exact hother
  · -- the search goes on for ever
    apply exec_of_always
    · refine Always.intro fun Q hQ => ?_
      exact absurd hQ (not_ensures_dirLookup_endless hdir hfile' hnames' hzero
        (by rw [hstore]; exact hs) Q)
    · exact h.stop fun hsearch => absurd hsearch hs

include hne hfile hnames hzero in
theorem Inv.childStep (h : Inv k₀ pt ct dir name s) (hrun : s.stopped = none)
    (hready : Ready pt s) (hchild : ChildInv k₀ ct dir s.kernel s.child)
    (hs : childStep depth ct name ok s = some s') : Inv k₀ pt ct dir name s' := by
  unfold ExecDir.childStep at hs
  cases hpc : s.child with
  | start =>
    rw [hpc] at hs hchild
    cases ok with
    | true =>
      cases hs
      exact h.open hrun hready hchild.1 hchild.2
    | false =>
      cases hs
      exact h.go hrun hready rfl hchild.2
  | lookup o =>
    rw [hpc] at hs hchild
    cases hs
    exact h.lookup hfile hnames hzero hrun hready hchild.1 hchild.2
  | close o inode =>
    rw [hpc] at hs hchild
    cases hs
    refine h.exec hrun hready (by rw [hpc]; rfl) (fun _ => .openFile inode)
      (fun _ _ => rfl) ?_
    exact (hchild.1.dirClose hchild.2).always.mono fun _ k hk => ⟨by rw [hk.1], hk.2⟩
  | openFile inode =>
    rw [hpc] at hs hchild
    cases hs
    refine h.exec hrun hready (by rw [hpc]; rfl) (fun file =>
      match file with
      | none => .rest none
      | some file => .denyWrite file) (fun file k => by cases file <;> rfl) ?_
    refine (always_fileOpen inode hchild).mono fun file k hk => ⟨by rw [hk.1], ?_⟩
    cases file <;> exact hk.2
  | denyWrite file =>
    rw [hpc] at hs hchild
    cases hs
    refine h.exec hrun hready (by rw [hpc]; rfl) (fun _ => .rest (some file))
      (fun _ _ => rfl) ?_
    exact (always_fileDenyWrite file hchild).mono fun _ k hk => ⟨by rw [hk.1], hk.2⟩
  | rest file =>
    rw [hpc] at hs hchild
    cases hs
    refine h.exec hrun hready (by rw [hpc]; rfl)
      (fun _ => if ok && file.isSome then .user else .exiting) (fun _ _ => rfl) ?_
    refine (always_setExecFile file hne hchild).mono fun _ k hk => ⟨hk.1, ?_⟩
    split
    · exact hk.2
    · trivial
  | user =>
    rw [hpc] at hs
    cases hs
    exact h.go hrun hready rfl trivial
  | exiting =>
    rw [hpc] at hs
    cases hs
    refine h.exec hrun hready (by rw [hpc]; rfl) (fun _ => .gone) (fun _ _ => rfl) ?_
    exact (always_processExit depth hne s.kernel).mono fun _ k hk => ⟨hk, trivial⟩
  | gone =>
    rw [hpc] at hs
    cases hs

include hne hfile hnames hzero in
/-- **Step lemma.** -/
theorem Inv.step {e : Event} (h : Inv k₀ pt ct dir name s) (hok : SetFirst pt s e)
    (hs : step depth pt ct name s e = some s') : Inv k₀ pt ct dir name s' := by
  unfold ExecDir.step at hs
  cases hstop : s.stopped with
  | some who =>
    rw [hstop] at hs
    cases hs
  | none =>
    rw [hstop] at hs
    cases e with
    | parent =>
      rcases h.phase with hearly | ⟨hready, hchild⟩
      · obtain ⟨hfound, hstopped, hphase⟩ := hearly.parentStep hs
        refine ⟨by rw [hfound]; exact h.found, ?_, by rw [hstopped]; exact h.harmless, hphase⟩
        intro _ hchild
        cases hstop.symm.trans (hstopped.symm.trans hchild)
      · obtain ⟨pc, rfl, hready'⟩ := hready.parentStep hs
        exact ⟨h.found, h.returns, h.harmless, .inr ⟨hready', hchild⟩⟩
    | child ok =>
      rcases h.phase with hearly | ⟨hready, hchild⟩
      · -- the child has to wait
        obtain ⟨t, d, -, -, ht, hwork, -⟩ := hearly.parentDir
        rcases hok hearly.child with hret | ⟨t', ht', hnone⟩
        · exact absurd hret hearly.not_returned
        · cases ht.symm.trans ht'
          cases hwork.symm.trans hnone
      · exact h.childStep hne hfile hnames hzero hstop hready hchild hs

end Step

end Child

/-! ### The run -/

section Main

variable {k : Kernel} {pt ct : Ptr} {dir : Sector} {name : CString} {held : Ptr → ℤ}
  {tc : Thread}

theorem Inv.resolved {k₀ : Kernel} {s : Sys} (h : Inv k₀ pt ct dir name s) :
    Resolved k₀.1.store.sectors dir name ct s := by
  refine ⟨h.found, h.returns, ?_, h.harmless⟩
  intro huser
  rcases h.phase with hearly | ⟨-, hchild⟩
  · cases hearly.child.symm.trans huser
  · rw [huser] at hchild
    exact hchild

theorem inv_created (hk : Opened k.2 held) (hm : MapOpen k) (hparent : CurrentDir k.2 pt dir)
    (hc : k.2.threads.cells ct = some tc) (hnone : tc.workDir = none) :
    Inv k pt ct dir name (created k) := by
  have hcore : ∃ held, Core k (created k).kernel held := ⟨held, hk, hm, .refl _⟩
  refine ⟨nofun, nofun, nofun, ?_⟩
  cases hparent with
  | root ht hwork =>
    exact .inr ⟨.inr ⟨⟨_, ht, hwork⟩, nofun⟩, hcore, .root hc hnone⟩
  | work ht hwork hd hp hi =>
    exact .inl ⟨rfl, hcore, ⟨_, _, _, _, ht, hwork, ⟨⟨_, hd, hp⟩, hi⟩, rfl⟩, ⟨tc, hc, hnone⟩,
      nofun, nofun, nofun⟩

/-- **The program is searched in the parent's working directory**, the child starts in it, and
`set_work_dir` finds the child alive, if the child starts `load` only after `set_work_dir`. -/
theorem exec_resolves (depth : ℕ) (hk : Opened k.2 held) (hm : MapOpen k)
    (hparent : CurrentDir k.2 pt dir) (hc : k.2.threads.cells ct = some tc)
    (hnone : tc.workDir = none) (hne : pt ≠ ct) (hfile : Fs.FileOk k.1 dir)
    (hnames : Fs.NamesEnd k.1.store.sectors dir) (hzero : 0 ∉ name) (es : List Event) (s : Sys)
    (hrun : run (step depth pt ct name) (created k) es = some s)
    (hfirst : Transition.Meets (step depth pt ct name) (SetFirst pt) (created k) es) :
    Resolved k.1.store.sectors dir name ct s := by
  have hinv := run_invariant
    (fun s e s' h hok hs => Inv.step hne hfile hnames hzero h hok hs) es
    (inv_created hk hm hparent hc hnone) hfirst hrun
  exact hinv.resolved

end Main

/-! ### A parent in an empty directory

The root directory has a file `a`, and the working directory of the parent, in sector 3, is empty. -/

section Sample

/-- The state behind `thread_create`. -/
def emptyDir : Kernel := (entryFs isReg, dirMemory false)

theorem fileOk_emptyDir : Fs.FileOk emptyDir.1 3 :=
  .intro (by decide +kernel) (by decide +kernel) (by decide +kernel)

theorem namesEnd_emptyDir : Fs.NamesEnd emptyDir.1.store.sectors 3 := by
  intro i hi
  exact absurd hi (Nat.not_lt_zero i)

/-- The parent first: the program is not found. -/
theorem exec_resolves_emptyDir : ∃ s, run (step 0 0 1 [97]) (created emptyDir)
      [.parent, .parent, .parent, .parent, .child true, .child true] = some s ∧
    s.found = some none ∧ Resolved emptyDir.1.store.sectors 3 [97] 1 s := by
  have hrun : (run (step 0 0 1 [97]) (created emptyDir)
      [.parent, .parent, .parent, .parent, .child true, .child true]).map Sys.found =
      some (some none) := by decide +kernel
  obtain ⟨s, hs, hfound⟩ := Option.map_eq_some_iff.mp hrun
  exact ⟨s, hs, hfound, exec_resolves 0 (opened_dirMemory false) (mapOpen_entryFs isReg)
    (startDir_work false) rfl rfl (by decide) fileOk_emptyDir namesEnd_emptyDir (by decide) _ s hs
    (by decide +kernel)⟩

/-- The child first: it finds the file of the root directory.  And when it is gone before the parent
looks for it, `set_work_dir` writes through a pointer to nothing. -/
theorem not_exec_resolves :
    (∃ s, run (step 0 0 1 [97]) (created emptyDir) [.child true, .child true] = some s ∧
      s.found = some (some 3) ∧ ¬ Resolved emptyDir.1.store.sectors 3 [97] 1 s) ∧
    ∃ s, run (step 0 0 1 [97]) (created emptyDir)
        [.child false, .child true, .child true, .parent, .parent, .parent, .parent] = some s ∧
      s.stopped = some .setWorkDir ∧ ¬ Resolved emptyDir.1.store.sectors 3 [97] 1 s := by
  have hfirst : (run (step 0 0 1 [97]) (created emptyDir)
      [.child true, .child true]).map Sys.found = some (some (some 3)) := by decide +kernel
  have hgone : (run (step 0 0 1 [97]) (created emptyDir)
      [.child false, .child true, .child true, .parent, .parent, .parent, .parent]).map
        Sys.stopped = some (some .setWorkDir) := by decide +kernel
  obtain ⟨s, hs, hfound⟩ := Option.map_eq_some_iff.mp hfirst
  obtain ⟨s', hs', hstopped⟩ := Option.map_eq_some_iff.mp hgone
  refine ⟨⟨s, hs, hfound, ?_⟩, s', hs', hstopped, ?_⟩
  · intro h
    have hchild := h.found _ hfound
    cases hchild
  · intro h
    exact h.harmless hstopped

end Sample

end Pintos.ExecDir

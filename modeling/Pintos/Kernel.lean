import Pintos.Directory
import Pintos.FreeMapRuns
import Pintos.Heap

/-! # Open inodes, files and directories

A model of the objects that the file system keeps in kernel memory, and of the functions that
open and close them: `inode_open` to `inode_close` of `filesys/inode.c`, `filesys/file.c`, and the
functions of `filesys/directory.c` that work on open directories.

* Every kind of object has a heap of its own (`Memory`).  An address is not given out twice; a
  pointer to an object that was freed faults when it is followed, as a null pointer does.
* `struct file` and `struct dir` have the same fields, and the code passes one for the other; both
  are a `Handle`.
* The functions are programs over the calls of the file system and over the memory.  `malloc` and
  `calloc` are taken to succeed, and a count of openers not to overflow.

The file system finds the inode of the free map's file in memory (`mapInode`), of which it reads the
sector and `deny_write_cnt`. -/

namespace Pintos

open Interaction

/-! ### Memory -/

/-- The address of an object of a heap. -/
abbrev Ptr := ℕ

/-- `struct file` and `struct dir`. -/
structure Handle where
  inode : Option Ptr
  pos : ℤ
  denyWrite : Bool

/-- `struct file_info`; the other fields are not used. -/
structure FileInfo where
  fileDescriptor : ℤ
  file : Option Ptr
  dirent : Entry

/-- The fields of `struct thread` that belong to the open files of a process. -/
structure Thread where
  fdCount : ℤ
  openList : List FileInfo
  execFile : Option Ptr
  workDir : Option Ptr

structure Memory where
  inodes : Heap Inode
  openInodes : List Ptr
  /-- The inode of `free_map_file`. -/
  freeMapFile : Option Ptr
  handles : Heap Handle
  threads : Heap Thread
  /-- What the next `struct dir` holds that `malloc` returns. -/
  garbage : ℕ → Handle

/-- The inode of the free map's file, as far as the file system reads it. -/
def Memory.mapInode (m : Memory) : Option Inode :=
  match m.freeMapFile with
  | none => none
  | some p => (m.inodes.cells p).map fun i => ⟨i.sector, 1, false, i.denyWriteCnt⟩

inductive MemOp
  | get
  | set (m : Memory)
  | fault (f : Fault)

abbrev memSig : Sig where
  Op := MemOp
  Res
    | .get => Memory
    | .set _ => Unit
    | .fault _ => Empty

abbrev kernelSig : Sig := fsSig.sum memSig

/-- The file system and the memory. -/
abbrev Kernel := Fs × Memory

def memHandler : Handler memSig Kernel Fault
  | .get, k => .ok (k.2, k)
  | .set m, k => .ok ((), ({ k.1 with freeMapFile := m.mapInode }, m))
  | .fault f, _ => .error f

abbrev kernelHandler : Handler kernelSig Kernel Fault := sumHandler diskHandler memHandler

variable {m : Memory}

namespace Kernel

/-! ### Primitives -/

/-- A function of the file system. -/
def fs {α : Type} (p : Prog fsSig α) : Prog kernelSig α := p.inl

def memory : Prog kernelSig Memory := Prog.call (S := kernelSig) (.inr .get)

def setMemory (m : Memory) : Prog kernelSig Unit := Prog.call (S := kernelSig) (.inr (.set m))

def fault {α : Type} (f : Fault) : Prog kernelSig α := .op (Sum.inr (.fault f)) Empty.elim

def assert (p : Prop) [Decidable p] : Prog kernelSig Unit := if p then pure () else fault .assertion

/-- A pointer is followed. -/
def deref : Option Ptr → Prog kernelSig Ptr
  | some p => pure p
  | none => fault .nullPointer

/-- The object at an address. -/
def objectAt {α : Type} : Option α → Prog kernelSig α
  | some a => pure a
  | none => fault .outOfBounds

def getInode (p : Ptr) : Prog kernelSig Inode := do
  let m ← memory
  objectAt (m.inodes.cells p)

def setInode (p : Ptr) (i : Inode) : Prog kernelSig Unit := do
  let m ← memory
  setMemory { m with inodes := m.inodes.store p i }

def getHandle (p : Ptr) : Prog kernelSig Handle := do
  let m ← memory
  objectAt (m.handles.cells p)

def setHandle (p : Ptr) (h : Handle) : Prog kernelSig Unit := do
  let m ← memory
  setMemory { m with handles := m.handles.store p h }

def newHandle (h : Handle) : Prog kernelSig Ptr := do
  let m ← memory
  setMemory { m with handles := m.handles.alloc h }
  pure m.handles.next

def freeHandle (p : Ptr) : Prog kernelSig Unit := do
  let m ← memory
  setMemory { m with handles := m.handles.free p }

/-- `malloc (sizeof (struct dir))`. -/
def mallocDir : Prog kernelSig Ptr := do
  let m ← memory
  setMemory { m with
    handles := m.handles.alloc (m.garbage 0), garbage := fun n => m.garbage (n + 1) }
  pure m.handles.next

def getThread (p : Ptr) : Prog kernelSig Thread := do
  let m ← memory
  objectAt (m.threads.cells p)

def setThread (p : Ptr) (t : Thread) : Prog kernelSig Unit := do
  let m ← memory
  setMemory { m with threads := m.threads.store p t }

/-! ### Their specifications -/

/-- The state after the memory was set. -/
def put (k : Kernel) (m : Memory) : Kernel := ({ k.1 with freeMapFile := m.mapInode }, m)

/-- The file system sees the inode of the free map's file as it is in memory. -/
def Synced (k : Kernel) : Prop := k.1.freeMapFile = k.2.mapInode

@[simp] theorem put_snd (k : Kernel) (m : Memory) : (put k m).2 = m := rfl

theorem put_eq {k : Kernel} (h : k.1.freeMapFile = m.mapInode) : put k m = (k.1, m) := by
  rw [put, ← h]

section

variable {k : Kernel} {α : Type}

variable {Q : α → Kernel → Prop}

variable {p : Prog fsSig α} {f : Fault} {o : Option α}

@[simp] theorem ensures_fs :
    Ensures kernelHandler (fs p) k Q ↔ Ensures diskHandler p k.1 (fun a fs' => Q a (fs', k.2)) :=
  ensures_inl

@[simp] theorem always_fs :
    Always kernelHandler (fs p) k Q ↔ Always diskHandler p k.1 (fun a fs' => Q a (fs', k.2)) :=
  always_inl

@[simp] theorem ensures_memory {Q : Memory → Kernel → Prop} :
    Ensures kernelHandler memory k Q ↔ Q k.2 k :=
  ensures_call_ok (h := kernelHandler) (e := Sum.inr .get) rfl

@[simp] theorem always_memory {Q : Memory → Kernel → Prop} :
    Always kernelHandler memory k Q ↔ Q k.2 k :=
  always_call_ok (h := kernelHandler) (e := Sum.inr .get) rfl

@[simp] theorem ensures_setMemory {Q : Unit → Kernel → Prop} :
    Ensures kernelHandler (setMemory m) k Q ↔ Q () (put k m) :=
  ensures_call_ok (h := kernelHandler) (e := Sum.inr (.set m)) rfl

@[simp] theorem always_setMemory {Q : Unit → Kernel → Prop} :
    Always kernelHandler (setMemory m) k Q ↔ Q () (put k m) :=
  always_call_ok (h := kernelHandler) (e := Sum.inr (.set m)) rfl

@[simp] theorem not_ensures_fault : ¬ Ensures kernelHandler (fault f) k Q := by
  rintro ⟨a, k', hr, -⟩
  cases hr

@[simp] theorem always_fault : Always kernelHandler (fault f) k Q := by
  intro a k' hr
  cases hr

@[simp] theorem ensures_assert {p : Prop} [Decidable p] {Q : Unit → Kernel → Prop} :
    Ensures kernelHandler (assert p) k Q ↔ p ∧ Q () k := by
  unfold assert
  split_ifs with hp <;> simp [hp]

@[simp] theorem always_assert {p : Prop} [Decidable p] {Q : Unit → Kernel → Prop} :
    Always kernelHandler (assert p) k Q ↔ (p → Q () k) := by
  unfold assert
  split_ifs with hp <;> simp [hp]

@[simp] theorem ensures_deref {p : Option Ptr} {Q : Ptr → Kernel → Prop} :
    Ensures kernelHandler (deref p) k Q ↔ ∃ q, p = some q ∧ Q q k := by
  cases p <;> simp [deref]

@[simp] theorem always_deref {p : Option Ptr} {Q : Ptr → Kernel → Prop} :
    Always kernelHandler (deref p) k Q ↔ ∀ q, p = some q → Q q k := by
  cases p <;> simp [deref]

@[simp] theorem ensures_objectAt :
    Ensures kernelHandler (objectAt o) k Q ↔ ∃ a, o = some a ∧ Q a k := by
  cases o <;> simp [objectAt]

@[simp] theorem always_objectAt :
    Always kernelHandler (objectAt o) k Q ↔ ∀ a, o = some a → Q a k := by
  cases o <;> simp [objectAt]

end

/-! ### Inodes -/

section

variable (depth : ℕ)

def inodeReopen : Option Ptr → Prog kernelSig (Option Ptr)
  | none => pure none
  | some p => do
    let i ← getInode p
    setInode p { i with openCnt := i.openCnt + 1 }
    pure (some p)

def inodeOpen (sector : Sector) : Prog kernelSig (Option Ptr) := do
  let m ← memory
  match m.openInodes.find? (fun p => (m.inodes.cells p).any fun i => i.sector == sector) with
  | some p => inodeReopen (some p)
  | none => do
    setMemory { m with
      inodes := m.inodes.alloc ⟨sector, 1, false, 0⟩
      openInodes := m.inodes.next :: m.openInodes }
    pure (some m.inodes.next)

def inodeClose : Option Ptr → Prog kernelSig Unit
  | none => pure ()
  | some p => do
    let i ← getInode p
    match ← fs (Fs.inodeClose depth i) with
    | some i => setInode p i
    | none => do
      let m ← memory
      setMemory { m with
        inodes := m.inodes.free p
        openInodes := m.openInodes.erase p }

def inodeRemove (inode : Option Ptr) : Prog kernelSig Unit := do
  assert (inode ≠ none)
  let p ← deref inode
  let i ← getInode p
  setInode p { i with removed := true }

def inodeDenyWrite (inode : Option Ptr) : Prog kernelSig Unit := do
  let p ← deref inode
  let i ← getInode p
  setInode p { i with denyWriteCnt := i.denyWriteCnt + 1 }
  assert (i.denyWriteCnt + 1 ≤ i.openCnt)

def inodeAllowWrite (inode : Option Ptr) : Prog kernelSig Unit := do
  let p ← deref inode
  let i ← getInode p
  assert (0 < i.denyWriteCnt)
  assert (i.denyWriteCnt ≤ i.openCnt)
  setInode p { i with denyWriteCnt := i.denyWriteCnt - 1 }

/-! ### Files and directories -/

/-- The body of `file_open` and of `dir_open`. -/
def handleOpen : Option Ptr → Prog kernelSig (Option Ptr)
  | none => pure none
  | some p => do
    let h ← newHandle ⟨some p, 0, false⟩
    pure (some h)

def fileOpen (inode : Option Ptr) : Prog kernelSig (Option Ptr) := handleOpen inode

def dirOpen (inode : Option Ptr) : Prog kernelSig (Option Ptr) := handleOpen inode

def fileReopen (file : Option Ptr) : Prog kernelSig (Option Ptr) := do
  let h ← getHandle (← deref file)
  fileOpen (← inodeReopen h.inode)

def fileDenyWrite (file : Option Ptr) : Prog kernelSig Unit := do
  assert (file ≠ none)
  let f ← deref file
  let h ← getHandle f
  if h.denyWrite then pure ()
  else do
    setHandle f { h with denyWrite := true }
    inodeDenyWrite h.inode

def fileAllowWrite (file : Option Ptr) : Prog kernelSig Unit := do
  assert (file ≠ none)
  let f ← deref file
  let h ← getHandle f
  if h.denyWrite then do
    setHandle f { h with denyWrite := false }
    inodeAllowWrite h.inode
  else pure ()

def fileClose : Option Ptr → Prog kernelSig Unit
  | none => pure ()
  | some f => do
    fileAllowWrite (some f)
    let h ← getHandle f
    inodeClose depth h.inode
    freeHandle f

/-- The inode of an open file or directory. -/
def handleInode (handle : Ptr) : Prog kernelSig Inode := do
  let h ← getHandle handle
  getInode (← deref h.inode)

def fileWriteAt (file : Ptr) (buffer : Fs.Buffer) (size fileOfs : ℤ) : Prog kernelSig ℤ := do
  fs (Fs.inodeWriteAt (Fs.freeMapAllocate (depth + 1) 1) (← handleInode file) buffer size fileOfs)

def dirClose : Option Ptr → Prog kernelSig Unit
  | none => pure ()
  | some d => do
    let h ← getHandle d
    inodeClose depth h.inode
    freeHandle d

def dirOpenRoot : Prog kernelSig (Option Ptr) := do
  dirOpen (← inodeOpen rootDirSector)

def dirReopen (dir : Option Ptr) : Prog kernelSig (Option Ptr) := do
  let h ← getHandle (← deref dir)
  dirOpen (← inodeReopen h.inode)

/-- `dir_open_current`; without a working directory the root directory is opened twice, and the
second directory is lost. -/
def dirOpenCurrent (self : Ptr) : Prog kernelSig (Option Ptr) := do
  let t ← getThread self
  match t.workDir with
  | none => do
    let dir ← dirOpenRoot
    let _ ← dirOpenRoot
    pure dir
  | some workDir => do
    let h ← getHandle workDir
    dirOpen (← inodeReopen h.inode)

def lookup (dir : Ptr) (name : CString) : Prog kernelSig (Option (Entry × ℕ)) := do
  fs (Fs.lookup (← handleInode dir) name)

def dirLookup (dir : Ptr) (name : CString) : Prog kernelSig (Option Ptr) := do
  match ← lookup dir name with
  | some e => inodeOpen (Entry.inodeSector e.1)
  | none => pure none

def dirAdd (dir : Ptr) (name : CString) (inodeSector : Sector) (type : Int32) :
    Prog kernelSig Bool := do
  fs (Fs.dirAdd (Fs.freeMapAllocate (depth + 1) 1) (← handleInode dir) name inodeSector type)

def dirReaddir (dir : Ptr) : Prog kernelSig (Option CString) := do
  let i ← handleInode dir
  let h ← getHandle dir
  let r ← fs (Fs.dirReaddir i h.pos)
  setHandle dir { h with pos := r.2 }
  pure r.1

/-- The end of `dir_remove`, from where the inode is opened. -/
def dirErase (dir : Ptr) (e : Entry) (ofs : ℕ) : Prog kernelSig Bool := do
  let inode ← inodeOpen e.inodeSector
  let i ← handleInode dir
  let written ← fs (Fs.inodeWriteAt (Fs.freeMapAllocate (depth + 1) 1) i (.bytes e.clear)
    entrySize ofs)
  if written = entrySize then do
    inodeRemove inode
    inodeClose depth inode
    pure true
  else do
    inodeClose depth inode
    pure false

def dirRemove (dir : Ptr) (name : CString) : Prog kernelSig Bool := do
  match ← lookup dir name with
  | none => pure false
  | some (e, ofs) =>
    if Entry.type e = isDir then do
      let dyingDir ← dirOpen (← inodeOpen (Entry.inodeSector e))
      match ← dirReaddir (← deref dyingDir) with
      | some _ => do
        dirClose depth dyingDir
        pure false
      | none => do
        -- what these calls find is changed in a local variable only
        let _ ← lookup dir [46]
        let _ ← lookup dir [46, 46]
        dirClose depth dyingDir
        dirErase depth dir e ofs
    else dirErase depth dir e ofs

/-! ### Paths -/

/-- What `get_next_part` returns: 0, -1, or 1 with the part and the rest of the path. -/
inductive NextPart
  | done
  | tooLong
  | part (part rest : CString)

def getNextPart (src : CString) : NextPart :=
  let src := src.dropWhile (· == 47)
  if src = [] then .done
  else
    let part := src.takeWhile (· != 47)
    if part.length ≤ nameMax then .part part (src.dropWhile (· != 47)) else .tooLong

/-- A local array of characters that was not initialised. -/
def uninitName : Prog kernelSig CString := do
  let e ← fs Fs.uninitEntry
  pure (((List.range 512).map e).takeWhile (· != 0))

/-- The loop of `find_path`: `now_dir` and `file_name` when it stops, or `none` when the function
returns false.  `dir` is the directory that the caller passed, which is not closed. -/
def pathLoop (dir : Ptr) : ℕ → Ptr → CString → CString → Prog kernelSig (Option (Ptr × CString))
  | 0, now, fileName, _ => pure (some (now, fileName))
  | fuel + 1, now, fileName, name =>
    match getNextPart name with
    | .done => pure (some (now, fileName))
    | .tooLong => pure none
    | .part part rest =>
      if rest = [] then pure (some (now, part))
      else do
        match ← dirLookup now part with
        | none => pure none
        | some inode => do
          if now ≠ dir then dirClose depth (some now)
          let now ← deref (← dirOpen (some inode))
          pathLoop dir fuel now part rest

/-- `find_path`: the tail of the path, with the directory copied to `fileDir`; `none` is false. -/
def findPath (self : Ptr) (dir : Option Ptr) (name : CString) (fileDir : Ptr) :
    Prog kernelSig (Option CString) := do
  let dir ← match dir with
    | some dir => pure dir
    | none => deref (← dirOpenCurrent self)
  let i ← handleInode dir
  if i.removed then pure none
  else if name = [47] then do
    let root ← deref (← dirOpenRoot)
    setHandle fileDir (← getHandle root)
    pure (some [46])
  else do
    let now ← if name.head? = some 47 then deref (← dirOpenRoot) else pure dir
    let fileName ← uninitName
    match ← pathLoop depth dir (name.length + 1) now fileName name with
    | none => pure none
    | some (now, fileName) => do
      setHandle fileDir (← getHandle now)
      pure (some (fileName.take nameMax))

/-- `dir_getdirent`.  What `find_path` returns is not looked at: when it is false, the directory is
what `malloc` found and the name what is on the stack. -/
def dirGetdirent (self : Ptr) (dir : Option Ptr) (name : CString) : Prog kernelSig (Option Entry) := do
  let nowDir ← mallocDir
  let tailName ← match ← findPath depth self dir name nowDir with
    | some tailName => pure tailName
    | none => uninitName
  let r ← lookup nowDir tailName
  pure (r.map Prod.fst)

end

end Kernel

end Pintos

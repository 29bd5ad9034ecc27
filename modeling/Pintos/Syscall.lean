import Pintos.FilesysCreate

/-! # System calls on directories

A model of the parts of `syscall_handler` (`userprog/syscall.c`) that create and remove files and
directories and change the working directory, and of `filesys_remove`.

* A path is the string that the user pointer names.  `next_dir` is allocated at the start of every
  system call.
* To work in another directory, the calls set `work_dir` of the thread to it for a while
  (`inDirectory`). -/

namespace Pintos.Kernel

open Interaction

variable (depth : ℕ)

def filesysRemove (self : Ptr) (name : CString) : Prog kernelSig Bool := do
  let dir ← dirOpenCurrent self
  let success ← (match dir with
    | none => pure false
    | some d => dirRemove depth d name)
  dirClose depth dir
  pure success

def setWorkDir (self : Ptr) (dir : Option Ptr) : Prog kernelSig Unit := do
  let t ← getThread self
  setThread self { t with workDir := dir }

/-- `if (t -> work_dir == NULL) t -> work_dir = dir_open_root ();` -/
def needWorkDir (self : Ptr) : Prog kernelSig Unit := do
  let t ← getThread self
  match t.workDir with
  | some _ => pure ()
  | none => setWorkDir self (← dirOpenRoot)

/-- The call is made with `next_dir` as the working directory. -/
def inDirectory {α : Type} (self nextDir : Ptr) (call : Prog kernelSig α) : Prog kernelSig α := do
  let t ← getThread self
  setWorkDir self (some nextDir)
  let r ← call
  setWorkDir self t.workDir
  pure r

def sysCreate (self : Ptr) (path : CString) (initialSize : Int32) : Prog kernelSig Bool := do
  let nextDir ← mallocDir
  if path = [] then pure false
  else do
    needWorkDir self
    let t ← getThread self
    match ← findPath depth self t.workDir path nextDir with
    | none => pure false
    | some tailName => inDirectory self nextDir (filesysCreate depth self tailName initialSize.toInt isReg)

/-- What `find_path` returns is not looked at. -/
def sysRemove (self : Ptr) (path : CString) : Prog kernelSig Bool := do
  let nextDir ← mallocDir
  let t ← getThread self
  let r ← findPath depth self t.workDir path nextDir
  let tailName ← (match r with
    | some tailName => pure tailName
    | none => uninitName)
  inDirectory self nextDir (filesysRemove depth self tailName)

def sysChdir (self : Ptr) (path : CString) : Prog kernelSig Bool := do
  let nextDir ← mallocDir
  if path = [] then pure false
  else do
    needWorkDir self
    let t ← getThread self
    match ← findPath depth self t.workDir path nextDir with
    | none => pure false
    | some tailName => do
      let work ← getHandle (← deref t.workDir)
      let next ← getHandle nextDir
      (if work.inode ≠ next.inode then dirClose depth t.workDir else pure ())
      let inode ← dirLookup nextDir tailName
      dirClose depth (some nextDir)
      match inode with
      | none => pure false
      | some p => do
        setWorkDir self (← dirOpen (some p))
        pure true

/-- The end of `SYS_MKDIR`: the new directory gets its entries `..` and `.`; it is closed only when
that fails. -/
def mkdirEntries (nextDir : Ptr) (tailName : CString) : Prog kernelSig Bool := do
  let newDir ← deref (← dirOpen (← dirLookup nextDir tailName))
  let next ← handleInode nextDir
  let new ← handleInode newDir
  let parent ← dirAdd depth newDir [46, 46] next.sector isDir
  let self ← (if parent then dirAdd depth newDir [46] new.sector isDir else pure false)
  if self then pure true
  else do
    dirClose depth (some newDir)
    let _ ← dirRemove depth nextDir tailName
    pure false

def sysMkdir (self : Ptr) (path : CString) : Prog kernelSig Bool := do
  let nextDir ← mallocDir
  if path = [] then pure false
  else do
    let dir ← dirOpenCurrent self
    match ← findPath depth self dir path nextDir with
    | none => pure false
    | some tailName => do
      match ← dirLookup nextDir tailName with
      | some _ => do
        dirClose depth (some nextDir)
        pure false
      | none => do
        let success ← inDirectory self nextDir (do
          let success ← filesysCreate depth self tailName 512 isDir
          if success then mkdirEntries depth nextDir tailName else pure false)
        dirClose depth (some nextDir)
        pure success

end Pintos.Kernel

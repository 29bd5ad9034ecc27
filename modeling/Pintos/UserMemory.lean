import Pintos.PageMap

/-! # How system calls use user memory: `syscall_handler`, `read`, `write`, `handle_exec`

A system call reads its number and its argument words from the user stack, and follows the
pointers among them.  What matters here is which bytes it touches, and how it ends.

* `Space`: a page directory that refines a map of pages (`Dir`), and the kernel addresses that
  have memory behind them.  The contents of memory are the state (`Ram`), by kernel address.
* `Call`: a computation that touches bytes (`Outcome`).  It may stop early (`Stop`): the process is
  terminated, an `ASSERT` fails, or the kernel takes a page fault, which `kill` answers by a panic
  because the fault comes from the kernel's code segment.
* `syscallHandler`: the switch over the system calls.
* `Quiet`, `Confined`: the property of a call that it touches user bytes only, and that it
  terminates the process if `bad` holds.  Both are computed along the text of the call
  (`confined_load_bind`, `confined_store_bind`, `confined_requirePage_bind`).

The rest of the kernel is seen through its answers (`Answers`): which of its files a descriptor
names, how much of a path `find_path` looks at and whether it finds it, how many bytes a file
transfers, what is typed. -/

namespace Pintos.UserMemory

open Pintos.Pagedir

abbrev Byte := BitVec 8

/-- A page directory whose user part is a map from page numbers to kernel pages. -/
structure Dir where
  tables : Mem
  pd : Addr
  map : Addr → Option Addr
  refines : ∀ ua, isUserVaddr ua →
    getPage tables pd ua = some ((map (pgNo ua)).map fun page => page + pgOfs ua)

/-- Every page directory that the calls of `pagedir.c` can build. -/
def Dir.ofRefines {m : Mem} {pd : Addr} {h : History} (hr : Refines m pd h) : Dir :=
  ⟨m, pd, lastSet h, fun _ hu => hr.getPage hu⟩

/-- The address space of a process inside the kernel. -/
structure Space where
  dir : Dir
  kernel : Addr → Bool

/-- The contents of memory, by kernel address. -/
abbrev Ram := Addr → Byte

variable {va : Addr}

namespace Space

/-- The kernel address of the byte at a virtual address, if it is mapped. -/
def translate (s : Space) (va : Addr) : Option Addr :=
  if isUserVaddr va then (s.dir.map (pgNo va)).map fun page => page + pgOfs va
  else if s.kernel va then some va else none

/-- A byte below `PHYS_BASE` that is mapped in the page directory of the process. -/
def UserByte (s : Space) (va : Addr) : Prop := isUserVaddr va ∧ (s.dir.map (pgNo va)).isSome

/-- An address below `PHYS_BASE` that is not mapped. -/
def Unmapped (s : Space) (va : Addr) : Prop := isUserVaddr va ∧ s.dir.map (pgNo va) = none

instance (s : Space) (va : Addr) : Decidable (s.UserByte va) :=
  inferInstanceAs (Decidable (_ ∧ _))

instance (s : Space) (va : Addr) : Decidable (s.Unmapped va) :=
  inferInstanceAs (Decidable (_ ∧ _))

/-- The byte at a virtual address; zero where nothing is mapped. -/
def byte (s : Space) (r : Ram) (va : Addr) : Byte :=
  match s.translate va with
  | some k => r k
  | none => 0

/-- The memory with one byte written. -/
def put (s : Space) (r : Ram) (va : Addr) (b : Byte) : Ram :=
  match s.translate va with
  | some k => fun k' => if k' = k then b else r k'
  | none => r

/-- The word at a virtual address, its least significant byte first. -/
def word (s : Space) (r : Ram) (va : Addr) : Word :=
  s.byte r (va + 3) ++ s.byte r (va + 2) ++ s.byte r (va + 1) ++ s.byte r va

variable {s : Space}

theorem translate_of_userByte (h : s.UserByte va) : ∃ k, s.translate va = some k := by
  obtain ⟨page, hpage⟩ := Option.isSome_iff_exists.mp h.2
  exact ⟨page + pgOfs va, by rw [translate, if_pos h.1, hpage]; rfl⟩

theorem byte_put (h : s.UserByte va) (r : Ram) (b : Byte) :
    s.byte (s.put r va b) va = b := by
  obtain ⟨k, hk⟩ := translate_of_userByte h
  simp [byte, put, hk]

theorem userByte_or_unmapped (hu : isUserVaddr va) : s.UserByte va ∨ s.Unmapped va := by
  cases hm : s.dir.map (pgNo va) with
  | none => exact .inr ⟨hu, hm⟩
  | some page => exact .inl ⟨hu, by rw [hm]; rfl⟩

theorem not_userByte_of_unmapped (h : s.Unmapped va) : ¬ s.UserByte va := by
  intro hb
  have hsome := hb.2
  rw [h.2] at hsome
  cases hsome

end Space

/-! ### Calls -/

/-- How a call ends before its end. -/
inductive Stop
  /-- `handle_exit` and `thread_exit`. -/
  | exited (status : ℤ)
  /-- `shutdown_power_off`. -/
  | halted
  /-- An `ASSERT` fails. -/
  | assertion
  /-- A page fault in the kernel. -/
  | pageFault (va : Addr)
  /-- The null pointer that `files_helper` returned is used. -/
  | noFile
deriving DecidableEq

/-- What a call has done: its result, the virtual addresses it has touched through pointers of
the user, and the memory it leaves. -/
structure Outcome (α : Type) where
  result : Except Stop α
  touched : List Addr
  ram : Ram

/-- A computation on memory. -/
def Call (α : Type) := Ram → Outcome α

namespace Call

variable {α β : Type}

def bind (x : Call α) (f : α → Call β) : Call β := fun r =>
  match (x r).result with
  | .ok a => { f a (x r).ram with touched := (x r).touched ++ (f a (x r).ram).touched }
  | .error e => ⟨.error e, (x r).touched, (x r).ram⟩

instance : Monad Call where
  pure a := fun r => ⟨.ok a, [], r⟩
  bind := bind

instance : LawfulMonad Call := LawfulMonad.mk' Call
  (by
    intro α x
    funext r
    change bind x (fun a r' => ⟨.ok a, [], r'⟩) r = x r
    unfold bind
    cases hx : (x r).result with
    | ok a =>
      dsimp only
      rw [List.append_nil, ← hx]
    | error e =>
      dsimp only
      rw [← hx])
  (fun _ _ => rfl)
  (by
    intro α β γ x f g
    funext r
    change bind (bind x f) g r = bind x (fun a => bind (f a) g) r
    unfold bind
    cases (x r).result with
    | error e => rfl
    | ok a =>
      dsimp only
      cases (f a (x r).ram).result with
      | error e => rfl
      | ok b => simp only [List.append_assoc])

/-- The call stops. -/
def stop (e : Stop) : Call α := fun r => ⟨.error e, [], r⟩

end Call

section Primitives

variable (s : Space)

/-- A byte is read through a pointer of the user. -/
def load (va : Addr) : Call Byte := fun r =>
  match s.translate va with
  | some k => ⟨.ok (r k), [va], r⟩
  | none => ⟨.error (.pageFault va), [va], r⟩

/-- A byte is written through a pointer of the user. -/
def store (va : Addr) (b : Byte) : Call Unit := fun r =>
  match s.translate va with
  | some _ => ⟨.ok (), [va], s.put r va b⟩
  | none => ⟨.error (.pageFault va), [va], r⟩

def loadWord (va : Addr) : Call Word := do
  let b₀ ← load s va
  let b₁ ← load s (va + 1)
  let b₂ ← load s (va + 2)
  let b₃ ← load s (va + 3)
  return b₃ ++ b₂ ++ b₁ ++ b₀

/-- `handle_exit (-1); thread_exit ();`. -/
def terminate {α : Type} : Call α := Call.stop (.exited (-1))

/-- `if (pagedir_get_page (pagedir, p) == NULL) …` with the exit that follows it. -/
def requirePage (p : Addr) : Call Unit :=
  match getPage s.dir.tables s.dir.pd p with
  | none => Call.stop .assertion
  | some none => terminate
  | some (some _) => pure ()

def assertNotNull (p : Addr) : Call Unit := if p = 0 then Call.stop .assertion else pure ()

/-- `n` bytes are read. -/
def loadRange : ℕ → Addr → Call Unit
  | 0, _ => pure ()
  | n + 1, p => do
    let _ ← load s p
    loadRange n (p + 1)

/-- The bytes `f 0`, …, `f (n - 1)` are written. -/
def storeRange (f : ℕ → Byte) : ℕ → Addr → Call Unit
  | 0, _ => pure ()
  | n + 1, p => do
    store s p (f 0)
    storeRange (fun i => f (i + 1)) n (p + 1)

/-- A string is read up to its end, or up to `n` bytes of it. -/
def readString : ℕ → Addr → Call Unit
  | 0, _ => pure ()
  | n + 1, p => do
    let b ← load s p
    (if b = 0 then pure () else readString n (p + 1))

/-- `!strcmp (p, "")`. -/
def isEmptyString (p : Addr) : Call Bool := do
  assertNotNull p
  let b ← load s p
  return b = 0

end Primitives

/-! ### The system calls -/

/-- The numbers of `lib/syscall-nr.h`. -/
inductive Nr
  | sysHalt | sysExit | sysExec | sysWait | sysCreate | sysRemove | sysOpen | sysFilesize | sysRead
  | sysWrite | sysSeek | sysTell | sysClose | sysPractice | sysMmap | sysMunmap | sysChdir
  | sysMkdir | sysReaddir | sysIsdir | sysInumber | sysBufferReadcnt | sysBufferWritecnt
  /-- Every other number. -/
  | unknown
deriving DecidableEq

def Nr.ofWord (w : Word) : Nr :=
  match w.toNat with
  | 0 => .sysHalt
  | 1 => .sysExit
  | 2 => .sysExec
  | 3 => .sysWait
  | 4 => .sysCreate
  | 5 => .sysRemove
  | 6 => .sysOpen
  | 7 => .sysFilesize
  | 8 => .sysRead
  | 9 => .sysWrite
  | 10 => .sysSeek
  | 11 => .sysTell
  | 12 => .sysClose
  | 13 => .sysPractice
  | 14 => .sysMmap
  | 15 => .sysMunmap
  | 16 => .sysChdir
  | 17 => .sysMkdir
  | 18 => .sysReaddir
  | 19 => .sysIsdir
  | 20 => .sysInumber
  | 21 => .sysBufferReadcnt
  | 22 => .sysBufferWritecnt
  | _ => .unknown

/-- The type of the directory entry that a descriptor was opened from. -/
inductive FileType
  | isReg | isDir
deriving DecidableEq

/-- What the rest of the kernel answers during a system call. -/
structure Answers where
  /-- `files_helper`. -/
  filesHelper : Word → Option FileType
  /-- How many bytes of the path are looked at, if it does not end before. -/
  pathBytes : ℕ
  /-- `find_path`. -/
  findPath : Bool
  /-- The bytes that `file_read` or `file_write` transfers, and those that come from the file. -/
  transferred : ℕ
  fileByte : ℕ → Byte
  /-- `input_getc`. -/
  inputGetc : ℕ → Byte
  /-- The name that `dir_readdir` finds. -/
  readdirName : Option (List Byte)

section Handlers

variable (s : Space) (ans : Answers)

/-- `find_path` and what is done with the path after it. -/
def followPath (p : Addr) : Call Unit := do
  assertNotNull p
  readString s ans.pathBytes p

/-- `handle_exec`: `process_execute` copies the whole string. -/
def handleExec (p : Addr) : Call Unit :=
  if Pagedir.physBase < p then pure ()
  else do
    assertNotNull p
    readString s (2 ^ 32) p

/-- The loop of `SYS_READ` for the keyboard; `args[3]` is read again in every round. -/
def readKeys (args buffer : Addr) : ℕ → ℕ → Call Unit
  | 0, _ => pure ()
  | n + 1, i => do
    let length ← loadWord s (args + 12)
    (if i < length.toNat then do
      store s (buffer + BitVec.ofNat 32 i) (ans.inputGetc i)
      let b ← load s (buffer + BitVec.ofNat 32 i)
      (if b = 0x0a#8 then pure () else readKeys args buffer n (i + 1))
    else pure ())

/-- `read`, for the descriptors other than 0. -/
def read (fd buffer length : Word) : Call Unit :=
  if ¬ isUserVaddr buffer ∨ buffer = 0 then terminate
  else
    match ans.filesHelper fd with
    | some .isReg => storeRange s ans.fileByte (min ans.transferred length.toNat) buffer
    | some .isDir => pure ()
    | none => pure ()

def write (fd buffer length : Word) : Call Unit :=
  if fd = 1 then loadRange s length.toNat buffer
  else do
    requirePage s buffer
    match ans.filesHelper fd with
    | some .isReg => loadRange s (min ans.transferred length.toNat) buffer
    | some .isDir => pure ()
    | none => pure ()

/-- `strlcpy (name, e.name, NAME_MAX + 1)` in `dir_readdir`. -/
def copyName (name : List Byte) (buffer : Addr) : Call Unit := do
  assertNotNull buffer
  storeRange s (fun i => name.getD i 0) (min name.length 14 + 1) buffer

/-- The cases of the switch; `args` is the user's stack pointer. -/
def dispatch (args : Addr) : Nr → Call Unit
  | .sysExit => do
    let status ← loadWord s (args + 4)
    Call.stop (.exited status.toInt)
  | .sysExec => do
    let p ← loadWord s (args + 4)
    requirePage s p
    handleExec s p
  | .sysWait => do
    let _ ← loadWord s (args + 4)
    return
  | .sysPractice => do
    let _ ← loadWord s (args + 4)
    return
  | .sysHalt => Call.stop .halted
  | .sysRead => do
    let fd ← loadWord s (args + 4)
    let buffer ← loadWord s (args + 8)
    let length ← loadWord s (args + 12)
    (if fd = 0 then readKeys s ans args buffer (2 ^ 32) 0 else read s ans fd buffer length)
  | .sysCreate => do
    let p ← loadWord s (args + 4)
    (if p = 0 then terminate
    else do
      requirePage s p
      let empty ← isEmptyString s p
      (if empty then pure ()
      else do
        followPath s ans p
        (if ans.findPath then do
          let _ ← loadWord s (args + 8)
          return
        else pure ())))
  | .sysRemove => do
    let p ← loadWord s (args + 4)
    followPath s ans p
  | .sysOpen => do
    let p ← loadWord s (args + 4)
    (if ¬ isUserVaddr p then terminate
    else do
      requirePage s p
      (if p = 0 then pure ()
      else do
        let empty ← isEmptyString s p
        (if empty then pure () else followPath s ans p)))
  | .sysWrite => do
    let fd ← loadWord s (args + 4)
    let buffer ← loadWord s (args + 8)
    let length ← loadWord s (args + 12)
    write s ans fd buffer length
  | .sysChdir => do
    let p ← loadWord s (args + 4)
    (if p = 0 then pure ()
    else do
      let empty ← isEmptyString s p
      (if empty then pure () else followPath s ans p))
  | .sysMkdir => do
    let p ← loadWord s (args + 4)
    (if p = 0 then pure ()
    else do
      let empty ← isEmptyString s p
      (if empty then pure () else followPath s ans p))
  | .sysReaddir => do
    let fd ← loadWord s (args + 4)
    let buffer ← loadWord s (args + 8)
    match ans.filesHelper fd with
    | none => Call.stop .noFile
    | some _ =>
      match ans.readdirName with
      | none => pure ()
      | some name => copyName s name buffer
  | .sysIsdir => do
    let fd ← loadWord s (args + 4)
    (if ans.filesHelper fd = none then Call.stop .noFile else pure ())
  | .sysInumber => do
    let fd ← loadWord s (args + 4)
    (if ans.filesHelper fd = none then Call.stop .noFile else pure ())
  | .sysBufferReadcnt => pure ()
  | .sysBufferWritecnt => pure ()
  | .sysSeek => do
    let fd ← loadWord s (args + 4)
    (if ans.filesHelper fd = none then pure ()
    else do
      let _ ← loadWord s (args + 8)
      return)
  -- the `default` case: `SYS_FILESIZE`, `SYS_TELL`, `SYS_CLOSE` and the numbers without a case
  | _ => do
    let _ ← loadWord s (args + 4)
    return

/-- `syscall_handler`, for the user's stack pointer. -/
def syscallHandler (esp : Addr) : Call Unit :=
  if esp ≤ 0x08048000#32 ∨ Pagedir.physBase ≤ esp + 4 then terminate
  else do
    requirePage s esp
    let number ← loadWord s esp
    dispatch s ans esp (Nr.ofWord number)

end Handlers

/-! ### Confinement, along the text of a call -/

variable {p : Addr}

section Confined

variable {α β : Type} (s : Space)

/-- The call touches bytes of the user only. -/
def Quiet (x : Call α) (r : Ram) : Prop := ∀ va ∈ (x r).touched, s.UserByte va

/-- The call touches bytes of the user only, and terminates the process with status -1 if `bad`
holds. -/
def Confined (x : Call α) (r : Ram) (bad : Prop) : Prop :=
  Quiet s x r ∧ (bad → (x r).result = .error (.exited (-1)))

variable {s} {r : Ram} {bad : Prop}

theorem confined_pure (a : α) : Confined s (pure a) r bad ↔ ¬ bad := by
  constructor
  · intro h hb
    cases h.2 hb
  · intro h
    exact ⟨fun va hva => absurd hva (List.not_mem_nil), fun hb => absurd hb h⟩

theorem confined_stop (e : Stop) :
    Confined s (Call.stop e : Call α) r bad ↔ (bad → e = .exited (-1)) := by
  constructor
  · intro h hb
    exact Except.error.inj (h.2 hb)
  · intro h
    exact ⟨fun va hva => absurd hva (List.not_mem_nil), fun hb => congrArg Except.error (h hb)⟩

theorem confined_terminate : Confined s (terminate : Call α) r bad ↔ True :=
  (confined_stop _).trans ⟨fun _ => trivial, fun _ _ => rfl⟩

theorem terminate_bind (f : α → Call β) : (terminate >>= f : Call β) = terminate := rfl

theorem stop_bind (e : Stop) (f : α → Call β) : (Call.stop e >>= f : Call β) = Call.stop e := rfl

variable {x : Call α} {f : α → Call β}

theorem confined_bind_ok {a : α} {r' : Ram} (hx : x r = ⟨.ok a, [va], r'⟩) :
    Confined s (x >>= f) r bad ↔ s.UserByte va ∧ Confined s (f a) r' bad := by
  have hb : (x >>= f) r = { f a r' with touched := va :: (f a r').touched } := by
    change Call.bind x f r = _
    unfold Call.bind
    rw [hx]
    rfl
  unfold Confined Quiet
  rw [hb]
  simp only [List.mem_cons, forall_eq_or_imp, and_assoc]

theorem not_confined_bind_fault {e : Stop}
    (hx : x r = ⟨.error e, [va], r⟩) (hva : ¬ s.UserByte va) : ¬ Confined s (x >>= f) r bad := by
  intro h
  apply hva
  apply h.1
  change va ∈ (Call.bind x f r).touched
  unfold Call.bind
  rw [hx]
  exact List.mem_singleton_self va

theorem not_userByte_of_translate (h : s.translate va = none) : ¬ s.UserByte va := by
  intro hb
  obtain ⟨k, hk⟩ := Space.translate_of_userByte hb
  rw [h] at hk
  cases hk

theorem confined_load_bind (va : Addr) (f : Byte → Call β) :
    Confined s (load s va >>= f) r bad ↔ s.UserByte va ∧ Confined s (f (s.byte r va)) r bad := by
  cases ht : s.translate va with
  | none =>
    have hx : load s va r = ⟨.error (.pageFault va), [va], r⟩ := by rw [load, ht]
    have hva := not_userByte_of_translate ht
    exact iff_of_false (not_confined_bind_fault hx hva) fun h => hva h.1
  | some k =>
    have hx : load s va r = ⟨.ok (s.byte r va), [va], r⟩ := by rw [load, Space.byte, ht]
    exact confined_bind_ok hx

theorem confined_store_bind (va : Addr) (b : Byte) (f : Unit → Call β) :
    Confined s (store s va b >>= f) r bad ↔
      s.UserByte va ∧ Confined s (f ()) (s.put r va b) bad := by
  cases ht : s.translate va with
  | none =>
    have hx : store s va b r = ⟨.error (.pageFault va), [va], r⟩ := by rw [store, ht]
    have hva := not_userByte_of_translate ht
    exact iff_of_false (not_confined_bind_fault hx hva) fun h => hva h.1
  | some k =>
    have hx : store s va b r = ⟨.ok (), [va], s.put r va b⟩ := by rw [store, ht]
    exact confined_bind_ok hx

/-- The four bytes of a word are the user's. -/
def WordOk (s : Space) (va : Addr) : Prop :=
  s.UserByte va ∧ s.UserByte (va + 1) ∧ s.UserByte (va + 2) ∧ s.UserByte (va + 3)

theorem confined_loadWord_bind (va : Addr) (f : Word → Call β) :
    Confined s (loadWord s va >>= f) r bad ↔ WordOk s va ∧ Confined s (f (s.word r va)) r bad := by
  unfold loadWord WordOk
  simp only [bind_assoc, confined_load_bind, pure_bind, and_assoc]
  rfl

theorem confined_requirePage_bind (p : Addr) (f : Unit → Call β) :
    Confined s (requirePage s p >>= f) r bad ↔
      s.Unmapped p ∨ (s.UserByte p ∧ Confined s (f ()) r bad) ∨ (¬ isUserVaddr p ∧ ¬ bad) := by
  unfold requirePage
  by_cases hu : isUserVaddr p
  · rw [s.dir.refines p hu]
    cases hm : s.dir.map (pgNo p) with
    | none =>
      simp only [Option.map_none, terminate_bind, confined_terminate]
      exact iff_of_true trivial (.inl ⟨hu, hm⟩)
    | some page =>
      have hb : s.UserByte p := ⟨hu, by rw [hm]; rfl⟩
      have hn : ¬ s.Unmapped p := fun h => Space.not_userByte_of_unmapped h hb
      simp [hb, hn, hu]
  · have hget : getPage s.dir.tables s.dir.pd p = none := if_neg hu
    have hb : ¬ s.UserByte p := fun h => hu h.1
    have hn : ¬ s.Unmapped p := fun h => hu h.1
    rw [hget]
    simp only [stop_bind, confined_stop]
    simp [hb, hn, hu]

theorem confined_assertNotNull_bind (p : Addr) (f : Unit → Call β) :
    Confined s (assertNotNull p >>= f) r bad ↔ if p = 0 then ¬ bad else Confined s (f ()) r bad := by
  unfold assertNotNull
  split
  · simp [stop_bind, confined_stop]
  · rw [pure_bind]

/-! ### Loops over a buffer or a string -/

theorem add_one_add_ofNat (p : Addr) (i : ℕ) :
    p + 1 + BitVec.ofNat 32 i = p + BitVec.ofNat 32 (i + 1) := by
  rw [BitVec.add_assoc, BitVec.add_comm 1, BitVec.ofNat_add]
  rfl

/-- The `n` bytes from `p` on are the user's. -/
def BufferOk (s : Space) (p : Addr) (n : ℕ) : Prop := ∀ i < n, s.UserByte (p + BitVec.ofNat 32 i)

theorem bufferOk_succ (p : Addr) (n : ℕ) :
    BufferOk s p (n + 1) ↔ s.UserByte p ∧ BufferOk s (p + 1) n := by
  unfold BufferOk
  rw [Nat.forall_lt_succ_left]
  simp only [add_one_add_ofNat]
  simp

theorem BufferOk.mono {m n : ℕ} (h : BufferOk s p n) (hmn : m ≤ n) : BufferOk s p m :=
  fun i hi => h i (hi.trans_le hmn)

theorem confined_loadRange (n : ℕ) (p : Addr) :
    Confined s (loadRange s n p) r bad ↔ BufferOk s p n ∧ ¬ bad := by
  induction n generalizing p with
  | zero =>
    have h0 : BufferOk s p 0 := fun i hi => absurd hi (Nat.not_lt_zero i)
    rw [loadRange, confined_pure, and_iff_right h0]
  | succ n ih => rw [loadRange, confined_load_bind, ih, bufferOk_succ, and_assoc]

theorem confined_storeRange (f : ℕ → Byte) (n : ℕ) (p : Addr) :
    Confined s (storeRange s f n p) r bad ↔ BufferOk s p n ∧ ¬ bad := by
  induction n generalizing p f r with
  | zero =>
    have h0 : BufferOk s p 0 := fun i hi => absurd hi (Nat.not_lt_zero i)
    rw [storeRange, confined_pure, and_iff_right h0]
  | succ n ih => rw [storeRange, confined_store_bind, ih, bufferOk_succ, and_assoc]

/-- The bytes of a string that are looked at, `n` at most, are the user's. -/
def PrefixOk (s : Space) (r : Ram) : ℕ → Addr → Prop
  | 0, _ => True
  | n + 1, p => s.UserByte p ∧ (s.byte r p = 0 ∨ PrefixOk s r n (p + 1))

theorem confined_readString_bind (n : ℕ) (p : Addr) (f : Unit → Call β) :
    Confined s (readString s n p >>= f) r bad ↔ PrefixOk s r n p ∧ Confined s (f ()) r bad := by
  induction n generalizing p with
  | zero => simp [readString, PrefixOk]
  | succ n ih =>
    rw [readString, bind_assoc, confined_load_bind, PrefixOk, and_assoc]
    by_cases hb : s.byte r p = 0
    · simp [hb]
    · simp only [hb, if_false, ih, false_or]

/-- All bytes of the string at `p` are the user's, up to the one that ends it. -/
def StringOk (s : Space) (r : Ram) (p : Addr) : Prop :=
  ∃ n, (∀ i ≤ n, s.UserByte (p + BitVec.ofNat 32 i)) ∧ s.byte r (p + BitVec.ofNat 32 n) = 0

theorem StringOk.userByte (h : StringOk s r p) : s.UserByte p := by
  obtain ⟨n, hok, -⟩ := h
  simpa using hok 0 (Nat.zero_le n)

theorem StringOk.next (h : StringOk s r p) (hb : s.byte r p ≠ 0) : StringOk s r (p + 1) := by
  obtain ⟨n, hok, hend⟩ := h
  cases n with
  | zero => exact absurd (by simpa using hend) hb
  | succ n =>
    refine ⟨n, fun i hi => ?_, ?_⟩
    · rw [add_one_add_ofNat]
      exact hok (i + 1) (by omega)
    · rw [add_one_add_ofNat]
      exact hend

theorem StringOk.prefixOk (h : StringOk s r p) (n : ℕ) : PrefixOk s r n p := by
  induction n generalizing p with
  | zero => trivial
  | succ n ih =>
    refine ⟨h.userByte, ?_⟩
    by_cases hb : s.byte r p = 0
    · exact .inl hb
    · exact .inr (ih (h.next hb))

end Confined

end Pintos.UserMemory

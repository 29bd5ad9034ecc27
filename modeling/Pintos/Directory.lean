import Pintos.Inode

/-! # Directories

A model of the functions of `filesys/directory.c` that read and write the entries of one
directory.  A directory is a file of entries of 32 bytes.

* A `struct dir_entry` is kept as the bytes it is (`Entry`), because the code reads, changes and
  writes it as a whole, with whatever its padding and the unused `parent_dir` hold.
* A string is the list of its characters before the terminating 0. -/

namespace Pintos

open Interaction

def nameMax : ℕ := 14

def isReg : Int32 := 0

def isDir : Int32 := 1

/-- A C string. -/
abbrev CString := List UInt8

/-- The memory of a `struct dir_entry`, of `entrySize` bytes. -/
abbrev Entry := ℕ → UInt8

/-- `sizeof (struct dir_entry)`: the sector, 15 characters and a byte of padding, the pointer
`parent_dir`, the type, and `in_use` with three bytes of padding. -/
def entrySize : ℕ := 32

namespace Entry

def inodeSector (e : Entry) : Sector := Endian.wordOf fun k => e k.val

def type (e : Entry) : Int32 := (Endian.wordOf fun k => e (24 + k.val)).toInt32

def inUse (e : Entry) : Bool := e 28 != 0

/-- `!strcmp (e.name, name)`. -/
def named (e : Entry) (name : CString) : Bool :=
  (List.range (name.length + 1)).map (fun i => e (4 + i)) == name ++ [0]

/-- `e.name` cut off after `NAME_MAX` characters, as `strlcpy` does. -/
def name (e : Entry) : CString :=
  ((List.range nameMax).map fun i => e (4 + i)).takeWhile (· != 0)

/-- The entry that `dir_add` writes over `e`. -/
def fill (e : Entry) (name : CString) (sector : Sector) (type : Int32) : Entry := fun p =>
  if h : p < 4 then Endian.byteOf sector ⟨p, h⟩
  else if p < 4 + (name.length + 1) then (name ++ [0]).getD (p - 4) 0
  else if h : 24 ≤ p ∧ p < 28 then Endian.byteOf type.toUInt32 ⟨p - 24, by omega⟩
  else if p = 28 then 1
  else e p

/-- `e.in_use = false`. -/
def clear (e : Entry) : Entry := Function.update e 28 0

end Entry

namespace Fs

/-- A local `struct dir_entry` that was not initialised. -/
def uninitEntry : Prog fsSig Entry := do
  let garbage ← uninit
  pure fun p => if h : p < 512 then blockOf garbage ⟨p, h⟩ else 0

/-- `inode_read_at (inode, &e, sizeof e, ofs) == sizeof e`, and `e` afterwards. -/
def readEntry (inode : Inode) (e : Entry) (ofs : ℤ) : Prog fsSig (Bool × Entry) := do
  let r ← inodeReadAt inode e entrySize ofs
  pure (decide (r.1 = entrySize), r.2)

/-- Every file has fewer entries than this. -/
def slotLimit : ℕ := 2 ^ 26

/-- The loop of `lookup`: the entry and its offset. -/
def lookupFrom (inode : Inode) (name : CString) : ℕ → Entry → ℕ → Prog fsSig (Option (Entry × ℕ))
  | 0, _, _ => pure none
  | fuel + 1, e, ofs => do
    let r ← readEntry inode e ofs
    if r.1 then
      if r.2.inUse && r.2.named name then pure (some (r.2, ofs))
      else lookupFrom inode name fuel r.2 (ofs + entrySize)
    else pure none

def lookup (inode : Inode) (name : CString) : Prog fsSig (Option (Entry × ℕ)) := do
  let e ← uninitEntry
  lookupFrom inode name slotLimit e 0

/-- The loop of `dir_add` that looks for an unused entry: what `e` and `ofs` are when it stops. -/
def freeSlotFrom (inode : Inode) : ℕ → Entry → ℕ → Prog fsSig (Entry × ℕ)
  | 0, e, ofs => pure (e, ofs)
  | fuel + 1, e, ofs => do
    let r ← readEntry inode e ofs
    if r.1 then
      if r.2.inUse then freeSlotFrom inode fuel r.2 (ofs + entrySize) else pure (r.2, ofs)
    else pure (r.2, ofs)

def dirAdd (alloc : Prog fsSig (Option Sector)) (inode : Inode) (name : CString)
    (inodeSector : Sector) (type : Int32) : Prog fsSig Bool :=
  if name = [] ∨ nameMax < name.length then pure false
  else do
    match ← lookup inode name with
    | some _ => pure false
    | none => do
      let e ← uninitEntry
      let r ← freeSlotFrom inode slotLimit e 0
      let written ← inodeWriteAt alloc inode (.bytes (r.1.fill name inodeSector type)) entrySize r.2
      pure (decide (written = entrySize))

/-- The loop of `dir_readdir`, from the position of the directory on: the name and the position
behind the entry. -/
def readdirFrom (inode : Inode) : ℕ → Entry → ℤ → Prog fsSig (Option CString × ℤ)
  | 0, _, pos => pure (none, pos)
  | fuel + 1, e, pos => do
    let r ← readEntry inode e pos
    if r.1 then
      if !(r.2.named [46]) && !(r.2.named [46, 46]) && r.2.inUse then
        pure (some r.2.name, pos + entrySize)
      else readdirFrom inode fuel r.2 (pos + entrySize)
    else pure (none, pos)

def dirReaddir (inode : Inode) (pos : ℤ) : Prog fsSig (Option CString × ℤ) := do
  let e ← uninitEntry
  readdirFrom inode slotLimit e pos

end Fs

end Pintos

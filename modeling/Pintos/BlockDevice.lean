import Mathlib.Tactic

/-! # Block devices

The part of `devices/block.c` the file system rests on: an array of sectors of
`BLOCK_SECTOR_SIZE` bytes behind `block_read` and `block_write`, which both panic on a
sector number past the end of the device (`check_sector`). -/

namespace Pintos

/-- `block_sector_t`. -/
abbrev Sector := UInt32

abbrev blockSectorSize : ℕ := 512

instance : NeZero blockSectorSize := ⟨by decide⟩

/-- The contents of one sector. -/
abbrev Block := Fin blockSectorSize → UInt8

/-- How a kernel computation stops before it returns. -/
inductive Fault
  /-- `PANIC ("Access past end of device %s (sector=%u, size=%u)")` in `check_sector`. -/
  | accessPastEnd (sector size : UInt32)
  /-- A failed `ASSERT`. -/
  | assertion
  /-- An access outside a C object: undefined behaviour. -/
  | outOfBounds
  /-- A null pointer is dereferenced. -/
  | nullPointer
  /-- The kernel stack is exhausted by nested calls. -/
  | stackOverflow
deriving DecidableEq, Repr

/-- A device: its size in sectors and what each sector holds.  Only sectors below `size`
can be reached. -/
@[ext] structure Disk where
  size : UInt32
  sectors : Sector → Block

namespace Disk

def write (d : Disk) (s : Sector) (b : Block) : Disk :=
  { d with sectors := Function.update d.sectors s b }

@[simp] theorem write_size (d : Disk) (s : Sector) (b : Block) : (d.write s b).size = d.size := rfl

@[simp] theorem write_sectors (d : Disk) (s : Sector) (b : Block) :
    (d.write s b).sectors = Function.update d.sectors s b := rfl

end Disk

def blockRead (d : Disk) (s : Sector) : Except Fault Block :=
  if s < d.size then .ok (d.sectors s) else .error (.accessPastEnd s d.size)

def blockWrite (d : Disk) (s : Sector) (b : Block) : Except Fault Disk :=
  if s < d.size then .ok (d.write s b) else .error (.accessPastEnd s d.size)

variable {d : Disk} {s : Sector}

theorem blockRead_ok (h : s < d.size) : blockRead d s = .ok (d.sectors s) := if_pos h

theorem blockWrite_ok (h : s < d.size) (b : Block) :
    blockWrite d s b = .ok (d.write s b) := if_pos h

theorem blockRead_error (h : d.size ≤ s) :
    blockRead d s = .error (.accessPastEnd s d.size) := if_neg (UInt32.not_lt.mpr h)

end Pintos

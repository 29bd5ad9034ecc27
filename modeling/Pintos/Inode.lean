import Pintos.FileSys
import Pintos.Paging

/-! # Inodes and the free map

A model of `filesys/inode.c` (without the cache) and of the allocation functions of
`filesys/free-map.c`.  The two call each other: `free_map_allocate` writes the free map to
its file with `inode_write_at`, and `inode_write_at` allocates when a file grows.  The
functions of `inode.c` therefore take the allocation of a sector as an argument `alloc`, and
`freeMapAllocate` ties the knot with the number of nested calls that fit on the kernel stack.

* `off_t` and `int` are integers; the one sum that can leave the 32-bit range, `size + offset`
  in `inode_write_at`, is reduced (`wrap`).
* An array index outside the array is a fault. -/

namespace Pintos

open Interaction

/-! ### The inode on disk -/

/-- `struct inode_disk`. -/
structure InodeDisk where
  direct : Fin 124 → Sector
  indirect : Sector
  doublyIndirect : Sector
  length : Int32
  magic : UInt32

namespace InodeDisk

/-- The structure as an array of words. -/
def toWords (di : InodeDisk) : Words := fun i =>
  if h : i.val < 124 then di.direct ⟨i.val, h⟩
  else if i.val = 124 then di.indirect
  else if i.val = 125 then di.doublyIndirect
  else if i.val = 126 then di.length.toUInt32
  else di.magic

def ofWords (w : Words) : InodeDisk where
  direct := fun i => w ⟨i.val, by omega⟩
  indirect := w 124
  doublyIndirect := w 125
  length := (w 126).toInt32
  magic := w 127

def encode (di : InodeDisk) : Block := Endian.ofWords (n := 128) di.toWords

def decode (b : Block) : InodeDisk := ofWords (Endian.toWords (n := 128) b)

end InodeDisk

/-- A sector as an array of `block_sector_t`, and back. -/
def wordsOf (b : Block) : Words := Endian.toWords (n := 128) b

def blockOf (w : Words) : Block := Endian.ofWords (n := 128) w

@[simp] theorem wordsOf_blockOf (w : Words) : wordsOf (blockOf w) = w :=
  Endian.toWords_ofWords (n := 128) w

def zeros : Block := fun _ => 0

def inodeMagic : UInt32 := 0x494e4f44

/-- The sum of two `off_t`, in 32 bits. -/
def wrap (x : ℤ) : ℤ := x.bmod (2 ^ 32)

namespace Fs

/-! ### The block map -/

def readSector (sector : Sector) (offset : ℤ) : Prog fsSig Sector := do
  let bounce ← cacheRead sector
  index (wordsOf bounce) offset

def byteToSector (inode : Inode) (pos : ℤ) : Prog fsSig Sector := do
  let b ← cacheRead inode.sector
  let di := InodeDisk.decode b
  if pos < di.length.toInt then
    if pos < 124 * 512 then index di.direct (pos.tdiv 512)
    else if pos < (124 + 128) * 512 then readSector di.indirect (pos.tdiv 512 - 124)
    else do
      let doublyIndirectNum := (pos.tdiv 512 - 124 - 128).tdiv 128
      let innerIndirectNum := pos.tdiv 512 - doublyIndirectNum
      let innerIndirectSector ← readSector di.doublyIndirect doublyIndirectNum
      readSector innerIndirectSector innerIndirectNum
  else pure (-1)

def inodeLength (inode : Inode) : Prog fsSig ℤ := do
  let b ← cacheRead inode.sector
  pure (InodeDisk.decode b).length.toInt

/-- The number of sectors of a file of `length` bytes, as `inode_create`, `add_inode` and
`deallocate_inode` compute it. -/
def sectorCount (length : ℤ) : ℤ :=
  let count := length.tdiv 512
  if count * 512 < length then count + 1 else count

/-! ### Creation -/

/-- `if (free_map_allocate (1, &a[j])) cache_write (fs_device, a[j], zeros);` with the
outcome of the allocation. -/
def allocateZeroed {n : ℕ} (alloc : Prog fsSig (Option Sector)) (a : Fin n → Sector) (j : ℤ) :
    Prog fsSig ((Fin n → Sector) × Bool) := do
  match ← alloc with
  | some s => do
    let a ← assign a j s
    cacheWrite s zeros
    pure (a, true)
  | none => pure (a, false)

/-- The direct part of `inode_create`: the sectors and `success`. -/
def createDirect (alloc : Prog fsSig (Option Sector)) (count : ℤ) :
    Prog fsSig ((Fin 124 → Sector) × Bool) := do
  let r ← forLoop (fun j _ => decide (j < count ∧ j < 124)) (fun j x => do
    let y ← allocateZeroed alloc x.1 j
    pure (y.1, x.2 || y.2)) 124 0 (fun _ => 0, false)
  pure r.2

/-- The indirect part: the index block, if it was allocated. -/
def createIndirect (alloc : Prog fsSig (Option Sector)) (count : ℤ) :
    Prog fsSig (Option Sector) :=
  if 124 < count then do
    match ← alloc with
    | some indirect => do
      let blocks ← uninit
      let r ← forLoop (fun j _ => decide (j < 128 ∧ j < count - 124)) (fun j x => do
        let y ← allocateZeroed alloc x j
        pure y.1) 128 0 blocks
      cacheWrite indirect (blockOf r.2)
      pure (some indirect)
    | none => pure none
  else pure none

/-- The doubly indirect part.  Each inner block is written to the sector that entry `k` of
the outer array names, `k` being where the inner loop stopped. -/
def createDoubly (alloc : Prog fsSig (Option Sector)) (count : ℤ) :
    Prog fsSig (Option Sector) :=
  if 124 + 128 < count then do
    match ← alloc with
    | some doubly => do
      let blocks ← uninit
      let r ← forLoop (fun j x => decide (j < 128 ∧ 0 < x.2)) (fun j x => do
        match ← alloc with
        | some s => do
          let blocks ← assign x.1 j s
          let inner ← uninit
          let q ← forLoop (fun k y => decide (k < 128 ∧ 0 < y.2)) (fun k y => do
            let z ← allocateZeroed alloc y.1 k
            pure (z.1, y.2 - 1)) 128 0 (inner, x.2)
          let target ← index blocks q.1
          cacheWrite target (blockOf q.2.1)
          pure (blocks, q.2.2)
        | none => pure x) 128 0 (blocks, count - 124 - 128)
      cacheWrite doubly (blockOf r.2.1)
      pure (some doubly)
    | none => pure none
  else pure none

def inodeCreate (alloc : Prog fsSig (Option Sector)) (sector : Sector) (length : ℤ) :
    Prog fsSig Bool := do
  assert (0 ≤ length)
  let count := sectorCount length
  let d ← createDirect alloc count
  let indirect ← createIndirect alloc count
  let doubly ← createDoubly alloc count
  -- the structure comes from `calloc`: what was not allocated is 0
  cacheWrite sector (InodeDisk.encode
    { direct := d.1, indirect := indirect.getD 0, doublyIndirect := doubly.getD 0,
      length := Int32.ofInt length, magic := inodeMagic })
  pure (d.2 || indirect.isSome || doubly.isSome || decide (count ≤ 0))

/-! ### Growth -/

/-- The locals of `add_inode`: the inode, `current_sectors` and `new_sectors`. -/
structure Growth where
  di : InodeDisk
  current : ℤ
  new : ℤ

def growDirect (alloc : Prog fsSig (Option Sector)) (total : ℤ) (g : Growth) :
    Prog fsSig Growth :=
  if g.current < 124 then do
    let new := if 124 < total then g.new - (124 - g.current) else 0
    let r ← forLoop (fun j _ => decide (j < total ∧ j < 124)) (fun j x => do
      let y ← allocateZeroed alloc x.1 j
      pure (y.1, x.2 + 1)) (124 - g.current).toNat g.current (g.di.direct, g.current)
    pure { di := { g.di with direct := r.2.1 }, current := r.2.2, new := new }
  else pure g

/-- The indirect block of the file and its contents: newly allocated, with what the stack
holds, or read. -/
def openIndirect (alloc : Prog fsSig (Option Sector)) (g : Growth) : Prog fsSig (Sector × Words) := do
  let garbage ← uninit
  if g.current = 124 then do
    let s ← alloc
    pure (s.getD g.di.indirect, garbage)
  else do
    let b ← cacheRead g.di.indirect
    pure (g.di.indirect, wordsOf b)

/-- `new_sectors` is decreased by `128 - current_sectors`, although `current_sectors` counts
from the first direct block. -/
def growIndirect (alloc : Prog fsSig (Option Sector)) (total : ℤ) (g : Growth) :
    Prog fsSig Growth :=
  if 0 < g.new ∧ g.current < 124 + 128 then do
    let new := if 124 + 128 < total then g.new - (128 - g.current) else 0
    let q ← openIndirect alloc g
    let r ← forLoop (fun j _ => decide (j < 128 + 124 ∧ j < total)) (fun j x => do
      let y ← allocateZeroed alloc x.1 (j - 124)
      pure (y.1, x.2 + 1)) (128 + 124 - g.current).toNat g.current (q.2, g.current)
    cacheWrite q.1 (blockOf r.2.1)
    pure { di := { g.di with indirect := q.1 }, current := r.2.2, new := new }
  else pure g

/-- The inner block of entry `j` of the doubly indirect block: newly allocated when
`current_sectors` says so, which is not advanced in this part of the function, or read. -/
def openInner (alloc : Prog fsSig (Option Sector)) (current j : ℤ) (blocks : Words) :
    Prog fsSig (Words × Words) := do
  let garbage ← uninit
  if current = 124 + 128 + 128 * j then do
    match ← alloc with
    | some s => do
      let blocks ← assign blocks j s
      pure (blocks, garbage)
    | none => pure (blocks, garbage)
  else do
    let s ← index blocks j
    let b ← cacheRead s
    pure (blocks, wordsOf b)

/-- The inner loop of the doubly indirect part, and the write of the inner block.  Of the
outer locals, `x` has `doubly_indirect_blocks`, `new_sectors` and `inner_start`. -/
def growInner (alloc : Prog fsSig (Option Sector)) (current j : ℤ) (x : Words × ℤ × ℤ) :
    Prog fsSig (Words × ℤ × ℤ) := do
  let q ← openInner alloc current j x.1
  let r ← forLoop (fun k y => decide (k < 128 ∧ 0 < y.2.1)) (fun k y => do
    let z ← allocateZeroed alloc y.1 k
    pure (z.1, y.2.1 - 1, 0)) (128 - x.2.2).toNat x.2.2 (q.2, x.2)
  let s ← index q.1 j
  cacheWrite s (blockOf r.2.1)
  pure (q.1, r.2.2)

/-- The doubly indirect block of the file and its contents.  When it is newly allocated, the
contents are meant to be zeros, but `cache_read` is given the address of the array `zeros`
as a sector number. -/
def openDoubly (alloc : Prog fsSig (Option Sector)) (g : Growth) : Prog fsSig (Sector × Words) := do
  let _ ← uninit
  if g.current = 124 + 128 then do
    let s ← alloc
    let zerosAddress ← address
    let b ← cacheRead zerosAddress
    pure (s.getD g.di.doublyIndirect, wordsOf b)
  else do
    let b ← cacheRead g.di.doublyIndirect
    pure (g.di.doublyIndirect, wordsOf b)

def growDoubly (alloc : Prog fsSig (Option Sector)) (g : Growth) : Prog fsSig Growth :=
  if 0 < g.new then do
    let q ← openDoubly alloc g
    let outerStart := (g.current - 124 - 128).tdiv 128
    let innerStart := (g.current - 124 - 128).tmod 128
    let r ← forLoop (fun j x => decide (j < 128 ∧ 0 < x.2.1)) (growInner alloc g.current)
      (128 - outerStart).toNat outerStart (q.2, g.new, innerStart)
    cacheWrite q.1 (blockOf r.2.1)
    pure { g with di := { g.di with doublyIndirect := q.1 }, new := r.2.2.1 }
  else pure g

def addInode (alloc : Prog fsSig (Option Sector)) (di : InodeDisk) (newLength : ℤ) :
    Prog fsSig InodeDisk :=
  let oldLength := di.length.toInt
  let total := sectorCount newLength
  let current := sectorCount oldLength
  if total - current ≤ 0 then
    pure { di with length := Int32.ofInt (if oldLength < newLength then newLength else oldLength) }
  else do
    let g ← growDirect alloc total { di := di, current := current, new := total - current }
    let g ← growIndirect alloc total g
    let g ← growDoubly alloc g
    pure { g.di with length := Int32.ofInt newLength }

/-! ### Reading and writing -/

/-- The bytes that `cache_read_bytes` copies out of a sector. -/
def cacheReadBytes (s : Sector) (offset size : ℤ) : Prog fsSig (ℕ → UInt8) := do
  let bounce ← cacheRead s
  if 0 ≤ offset ∧ offset + size ≤ 512 then
    pure (fun k => if h : offset.toNat + k < 512 then bounce ⟨offset.toNat + k, h⟩ else 0)
  else fault .outOfBounds

/-- What `cache_write_bytes` fills in: the sector, unless all of it will be overwritten. -/
def writeBounce (s : Sector) (sectorOfs chunkSize sectorLeft : ℤ) : Prog fsSig Block :=
  if 0 < sectorOfs ∨ chunkSize < sectorLeft then cacheRead s else pure zeros

def cacheWriteBytes (s : Sector) (buffer : ℕ → UInt8) (sectorOfs chunkSize sectorLeft : ℤ) :
    Prog fsSig Unit := do
  let bounce ← writeBounce s sectorOfs chunkSize sectorLeft
  if 0 ≤ sectorOfs ∧ sectorOfs + chunkSize ≤ 512 then
    cacheWrite s (Paging.splice bounce sectorOfs.toNat chunkSize.toNat buffer)
  else fault .outOfBounds

/-- The bytes handed to `inode_write_at`: a caller's buffer, or the elements of the free map,
which `bitmap_write` passes where they are. -/
inductive Buffer
  | bytes (f : ℕ → UInt8)
  | freeMapBits

def Buffer.get : Buffer → Prog fsSig (ℕ → UInt8)
  | .bytes f => pure f
  | .freeMapBits => do
    let b ← getFreeMap
    pure b.fileBytes

/-- The number of bytes that the next round of the loops below handles. -/
def chunkSize (size inodeLeft sectorLeft : ℤ) : ℤ :=
  let minLeft := if inodeLeft < sectorLeft then inodeLeft else sectorLeft
  if size < minLeft then size else minLeft

/-- The write of one round: a whole sector from the caller's buffer, or part of one. -/
def writeChunk (s : Sector) (bytes : ℕ → UInt8) (sectorOfs chunk sectorLeft : ℤ) :
    Prog fsSig Unit :=
  if sectorOfs = 0 ∧ chunk = 512 then cacheWrite s (fun k => bytes k.val)
  else cacheWriteBytes s bytes sectorOfs chunk sectorLeft

/-- The loop of `inode_write_at`; every round writes a byte at least. -/
def writeLoop (inode : Inode) (buffer : Buffer) : ℕ → ℤ → ℤ → ℤ → Prog fsSig ℤ
  | 0, _, _, written => pure written
  | fuel + 1, size, offset, written =>
    if 0 < size then do
      let sectorIdx ← byteToSector inode offset
      let sectorOfs := offset.tmod 512
      let length ← inodeLength inode
      let sectorLeft := 512 - sectorOfs
      let chunk := chunkSize size (length - offset) sectorLeft
      if chunk ≤ 0 then pure written
      else do
        let bytes ← buffer.get
        writeChunk sectorIdx (fun k => bytes (written.toNat + k)) sectorOfs chunk sectorLeft
        writeLoop inode buffer fuel (size - chunk) (offset + chunk) (written + chunk)
    else pure written

def inodeWriteAt (alloc : Prog fsSig (Option Sector)) (inode : Inode) (buffer : Buffer)
    (size offset : ℤ) : Prog fsSig ℤ :=
  if inode.denyWriteCnt ≠ 0 then pure 0
  else do
    let b ← cacheRead inode.sector
    let di ← addInode alloc (InodeDisk.decode b) (wrap (size + offset))
    cacheWrite inode.sector di.encode
    let written ← writeLoop inode buffer size.toNat size offset 0
    cacheWrite inode.sector di.encode
    pure written

/-- The read of one round: a whole sector, or part of one. -/
def readChunk (s : Sector) (sectorOfs chunk : ℤ) : Prog fsSig (ℕ → UInt8) :=
  if sectorOfs = 0 ∧ chunk = 512 then do
    let b ← cacheRead s
    pure (fun k => if h : k < 512 then b ⟨k, h⟩ else 0)
  else cacheReadBytes s sectorOfs chunk

/-- The loop of `inode_read_at`: the bytes read and the caller's buffer. -/
def readLoop (inode : Inode) : ℕ → ℤ → ℤ → ℤ → (ℕ → UInt8) → Prog fsSig (ℤ × (ℕ → UInt8))
  | 0, _, _, bytesRead, buffer => pure (bytesRead, buffer)
  | fuel + 1, size, offset, bytesRead, buffer =>
    if 0 < size then do
      let sectorIdx ← byteToSector inode offset
      let sectorOfs := offset.tmod 512
      let length ← inodeLength inode
      let sectorLeft := 512 - sectorOfs
      let chunk := chunkSize size (length - offset) sectorLeft
      if chunk ≤ 0 then pure (bytesRead, buffer)
      else do
        let bytes ← readChunk sectorIdx sectorOfs chunk
        readLoop inode fuel (size - chunk) (offset + chunk) (bytesRead + chunk)
          (Paging.overwrite buffer bytesRead.toNat chunk.toNat bytes)
    else pure (bytesRead, buffer)

/-- `inode_read_at`.  At or past the end of the file it copies `size` bytes from the array
`zeros` of 512 bytes and from what lies behind it. -/
def inodeReadAt (inode : Inode) (buffer : ℕ → UInt8) (size offset : ℤ) :
    Prog fsSig (ℤ × (ℕ → UInt8)) :=
  if 20000000 < inode.sector then pure (-1, buffer)
  else do
    let b ← cacheRead inode.sector
    if (InodeDisk.decode b).length.toInt ≤ offset then do
      let memory ← pastZeros
      if size < 0 then fault .outOfBounds
      else
        readLoop inode size.toNat size offset 0
          (Paging.overwrite buffer 0 size.toNat (fun k => if k < 512 then 0 else memory (k - 512)))
    else readLoop inode size.toNat size offset 0 buffer

/-! ### The free map -/

/-- `bitmap_write (free_map, file)`. -/
def bitmapWrite (alloc : Prog fsSig (Option Sector)) (bitCnt : ℕ) (file : Inode) :
    Prog fsSig Bool := do
  let written ← inodeWriteAt alloc file .freeMapBits (byteCnt bitCnt) 0
  pure (decide (written = byteCnt bitCnt))

/-- `free_map_allocate`, with room on the stack for `depth` nested calls. -/
def freeMapAllocate : (depth : ℕ) → (cnt : ℕ) → Prog fsSig (Option Sector)
  | 0, _ => fault .stackOverflow
  | depth + 1, cnt => do
    let map ← getFreeMap
    let r ← lift (bitmapScanAndFlip map 0 cnt false)
    match r.1 with
    | none => pure none
    | some sector => do
      setFreeMap r.2
      match ← getFreeMapFile with
      | none => pure (some (UInt32.ofNat sector))
      | some file => do
        let success ← bitmapWrite (freeMapAllocate depth 1) r.2.bitCnt file
        if success then pure (some (UInt32.ofNat sector))
        else do
          let map ← getFreeMap
          let map ← lift (bitmapSetMultiple map sector cnt false)
          setFreeMap map
          pure none

def freeMapRelease (depth : ℕ) (sector : Sector) (cnt : ℕ) : Prog fsSig Unit := do
  let map ← getFreeMap
  let all ← lift (bitmapAll map sector.toNat cnt)
  assert (all = true)
  let map ← lift (bitmapSetMultiple map sector.toNat cnt false)
  setFreeMap map
  match ← getFreeMapFile with
  | none => fault .nullPointer
  | some file => do
    let _ ← bitmapWrite (freeMapAllocate depth 1) map.bitCnt file
    pure ()

/-! ### Removal -/

/-- The loops that release the sectors of an array, counting `remaining_sectors` down. -/
def releaseLoop {n : ℕ} (release : Sector → Prog fsSig Unit) (blocks : Fin n → Sector)
    (cond : ℤ → ℤ → Bool) (remaining : ℤ) : Prog fsSig ℤ := do
  let r ← forLoop cond (fun j left => do
    let s ← index blocks j
    release s
    pure (left - 1)) n 0 remaining
  pure r.2

/-- The indirect part of `deallocate_inode`; `cache_read` is given the address of the field
`indirect` as a sector number. -/
def deallocateIndirect (release : Sector → Prog fsSig Unit) (di : InodeDisk) (remaining : ℤ) :
    Prog fsSig ℤ :=
  if 0 < remaining then do
    let indirectAddress ← address
    let b ← cacheRead indirectAddress
    let remaining ← releaseLoop release (wordsOf b)
      (fun j left => decide (j < 128 ∧ 0 < left)) remaining
    release di.indirect
    pure remaining
  else pure remaining

/-- The doubly indirect part, with the same slip. -/
def deallocateDoubly (release : Sector → Prog fsSig Unit) (di : InodeDisk) (remaining : ℤ) :
    Prog fsSig Unit :=
  if 0 < remaining then do
    let doublyAddress ← address
    let b ← cacheRead doublyAddress
    let _ ← forLoop (fun j left => decide (j < 128 ∧ 0 < left)) (fun j left => do
      let s ← index (wordsOf b) j
      let b' ← cacheRead s
      let left ← releaseLoop release (wordsOf b')
        (fun k left => decide (k < 128 ∧ 0 < left)) left
      release s
      pure left) 128 0 remaining
    release di.doublyIndirect
  else pure ()

def deallocateInode (release : Sector → Prog fsSig Unit) (di : InodeDisk) : Prog fsSig Unit :=
  let total := sectorCount di.length.toInt
  if total ≤ 0 then pure ()
  else do
    let remaining ← releaseLoop release di.direct (fun j _ => decide (j < total ∧ j < 124)) total
    let remaining ← deallocateIndirect release di remaining
    deallocateDoubly release di remaining

/-- `inode_close`: the inode that is left open, or `none` when it was freed. -/
def inodeClose (depth : ℕ) (inode : Inode) : Prog fsSig (Option Inode) :=
  if inode.openCnt - 1 = 0 then do
    if inode.removed then do
      let b ← cacheRead inode.sector
      deallocateInode (fun s => freeMapRelease depth s 1) (InodeDisk.decode b)
      freeMapRelease depth inode.sector 1
      pure none
    else pure none
  else pure (some { inode with openCnt := inode.openCnt - 1 })

end Fs

end Pintos

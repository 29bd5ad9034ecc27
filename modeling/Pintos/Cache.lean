import Pintos.BlockDevice

/-! # The buffer cache

A model of `cache_init`, `cache_read`, `cache_write` and `cache_sync` of `filesys/inode.c`.
The cache is a table of `CACHE_SIZE` entries of which the first `entry_num` are in use.
Every function is a sequence of regions that hold `entry_num_lock` (or, after a hit, the
lock of one entry); each region is a definition of its own, so that the same regions can be
run one after another here and interleaved between threads in `CacheThreads.lean`.

* `readScan` and `undoScan` are the two regions of `cache_read`: the scan that looks the
  sector up and ages every other entry, and the loop that takes the ageing back after a miss.
* `writeScan`, `storeHit`, `fill` and `evict` are the regions of `cache_write`.  Between
  `fill` and `evict` the code tests `entry_num` again, without the lock: when `fill` took
  the last free entry the test fails and the call goes on to evict, so that the new sector
  ends up in two entries.
* `ref_count` is an `int` that is incremented without bound, hence `Int32` with wrap-around. -/

namespace Pintos

open Function

abbrev cacheSize : ℕ := 32

/-- `struct cache_entry`, without its lock. -/
structure CacheEntry where
  sector : Sector
  refCount : Int32
  write : Bool
  data : Block

/-- `struct block_cache`, without its lock. -/
structure BlockCache where
  entryNum : ℕ
  entries : Fin cacheSize → CacheEntry
  entryNum_le : entryNum ≤ cacheSize

/-- The cache together with the device under it. -/
structure CacheState where
  cache : BlockCache
  disk : Disk

namespace BlockCache

/-- `struct block_cache cache`, static and hence zero when the kernel starts. -/
def zeroed : BlockCache where
  entryNum := 0
  entries := fun _ => { sector := 0, refCount := 0, write := false, data := fun _ => 0 }
  entryNum_le := Nat.zero_le _

/-- `cache_init`.  The contents of the data arrays are left as they were. -/
def init (c : BlockCache) : BlockCache where
  entryNum := 0
  entries := fun i => { sector := -1, refCount := 0, write := false, data := (c.entries i).data }
  entryNum_le := Nat.zero_le _

/-- Entry `i` is one of the first `entry_num`. -/
def Live (c : BlockCache) (i : Fin cacheSize) : Prop := i.val < c.entryNum

instance (c : BlockCache) (i : Fin cacheSize) : Decidable (c.Live i) :=
  inferInstanceAs (Decidable (_ < _))

/-- Replace entry `i`. -/
def setEntry (c : BlockCache) (i : Fin cacheSize) (e : CacheEntry) : BlockCache :=
  { c with entries := update c.entries i e }

end BlockCache

open BlockCache

/-! ### `cache_read` -/

/-- The first `n` rounds of the lookup loop of `cache_read`: the data found so far and the
entries with their new ages. -/
def readScanTo (c : BlockCache) (sector : Sector) :
    (n : ℕ) → n ≤ cacheSize → Option Block × (Fin cacheSize → CacheEntry)
  | 0, _ => (none, c.entries)
  | i + 1, h =>
    let r := readScanTo c sector i (Nat.le_of_succ_le h)
    let e := r.2 ⟨i, h⟩
    if e.sector = sector then
      (some e.data, update r.2 ⟨i, h⟩ { e with refCount := 0 })
    else
      (r.1, update r.2 ⟨i, h⟩ { e with refCount := e.refCount + 1 })

/-- First region of `cache_read`: look `sector` up. -/
def readScan (sector : Sector) (st : CacheState) : Option Block × CacheState :=
  let r := readScanTo st.cache sector st.cache.entryNum st.cache.entryNum_le
  (r.1, { st with cache := { st.cache with entries := r.2 } })

/-- The first `n` rounds of the loop that takes the ageing back. -/
def undoScanTo (c : BlockCache) : (n : ℕ) → n ≤ cacheSize → (Fin cacheSize → CacheEntry)
  | 0, _ => c.entries
  | i + 1, h =>
    let es := undoScanTo c i (Nat.le_of_succ_le h)
    let e := es ⟨i, h⟩
    update es ⟨i, h⟩ { e with refCount := e.refCount - 1 }

/-- Second region of `cache_read`, after a miss. -/
def undoScan (st : CacheState) : CacheState :=
  { st with cache :=
      { st.cache with entries := undoScanTo st.cache st.cache.entryNum st.cache.entryNum_le } }

/-! ### `cache_write` -/

/-- The locals of the lookup loop of `cache_write`: the entries, `found` with `replace`,
and the running maximum of the ages with its index. -/
structure WriteScan where
  entries : Fin cacheSize → CacheEntry
  found : Option (Fin cacheSize)
  max : Int32
  maxIndex : Fin cacheSize

/-- The first `n` rounds of the lookup loop of `cache_write`. -/
def writeScanTo (c : BlockCache) (sector : Sector) : (n : ℕ) → n ≤ cacheSize → WriteScan
  | 0, _ => { entries := c.entries, found := none, max := 0, maxIndex := 0 }
  | i + 1, h =>
    let r := writeScanTo c sector i (Nat.le_of_succ_le h)
    let e := r.entries ⟨i, h⟩
    if e.sector = sector then
      { r with
        entries := update r.entries ⟨i, h⟩ { e with refCount := 0 }
        found := some ⟨i, h⟩ }
    else
      let entries := update r.entries ⟨i, h⟩ { e with refCount := e.refCount + 1 }
      if e.refCount + 1 > r.max then
        { r with entries := entries, max := e.refCount + 1, maxIndex := ⟨i, h⟩ }
      else
        { r with entries := entries }

/-- First region of `cache_write`: look `sector` up, and find the oldest entry. -/
def writeScan (sector : Sector) (st : CacheState) :
    (Option (Fin cacheSize) × Fin cacheSize) × CacheState :=
  let r := writeScanTo st.cache sector st.cache.entryNum st.cache.entryNum_le
  ((r.found, r.maxIndex), { st with cache := { st.cache with entries := r.entries } })

/-- An entry as `cache_write` leaves it. -/
def CacheEntry.stored (sector : Sector) (data : Block) : CacheEntry :=
  { sector := sector, refCount := 0, write := true, data := data }

/-- The region of `cache_write` after a hit. -/
def storeHit (replace : Fin cacheSize) (sector : Sector) (data : Block) (st : CacheState) :
    CacheState :=
  { st with cache := st.cache.setEntry replace (.stored sector data) }

/-- The region of `cache_write` that takes a free entry, if there is one. -/
def fill (sector : Sector) (data : Block) (st : CacheState) : CacheState :=
  if h : st.cache.entryNum < cacheSize then
    { st with cache :=
        { entryNum := st.cache.entryNum + 1
          entries := update st.cache.entries ⟨st.cache.entryNum, h⟩ (.stored sector data)
          entryNum_le := h } }
  else st

/-- The region of `cache_write` that replaces entry `maxIndex`, written back if dirty. -/
def evict (maxIndex : Fin cacheSize) (sector : Sector) (data : Block) (st : CacheState) :
    Except Fault CacheState :=
  if st.cache.entryNum = cacheSize then do
    let e := st.cache.entries maxIndex
    let disk ← if e.write then blockWrite st.disk e.sector e.data else .ok st.disk
    .ok { cache := st.cache.setEntry maxIndex (.stored sector data), disk := disk }
  else .ok st

def cacheWrite (sector : Sector) (data : Block) (st : CacheState) : Except Fault CacheState :=
  let ((found, maxIndex), st) := writeScan sector st
  match found with
  | some replace => .ok (storeHit replace sector data st)
  | none =>
    let st := fill sector data st
    if st.cache.entryNum < cacheSize then .ok st
    else evict maxIndex sector data st

/-- `cache_read`: the bytes it delivers, and whether they were found in the cache. -/
def cacheRead (sector : Sector) (st : CacheState) : Except Fault ((Block × Bool) × CacheState) :=
  let (found, st) := readScan sector st
  match found with
  | some data => .ok ((data, true), st)
  | none => do
    let st := undoScan st
    let data ← blockRead st.disk sector
    let st ← cacheWrite sector data st
    .ok ((data, false), st)

/-! ### `cache_sync` -/

/-- The first `n` rounds of the loop of `cache_sync`; it writes clean entries too. -/
def syncTo (c : BlockCache) : (n : ℕ) → n ≤ cacheSize → Disk → Except Fault Disk
  | 0, _, d => .ok d
  | i + 1, h, d => do
    let d ← syncTo c i (Nat.le_of_succ_le h) d
    blockWrite d (c.entries ⟨i, h⟩).sector (c.entries ⟨i, h⟩).data

def cacheSync (st : CacheState) : Except Fault CacheState := do
  let disk ← syncTo st.cache st.cache.entryNum st.cache.entryNum_le st.disk
  .ok { st with disk := disk }

end Pintos

import Pintos.BlockDevice
import Pintos.Endian

/-! # Partitions of a disk

`devices/partition.c`: the partition table of a disk is read and every partition it names
becomes a block device of its own, whose sectors are sectors of the disk.

* **`readPartitionTable`** takes the number of nested calls the kernel stack has room for.  The
  source reads sector 0 at every level, whatever sector the table is said to be in.
* **`foundPartition`** registers a partition that passes the two checks against the size of the
  disk.  All sums are sums of 32-bit words, as in the source.
* **`blockRead`, `blockWrite`** on a partition check the sector against the size of the
  partition, then go to the disk, which checks again.

* **`partitionScan_ends_iff`**: when the scan ends.

The disk itself is a `Disk`: `ide.c` registers it as `BLOCK_RAW`, so that only its
`check_sector` can stop an access. -/

namespace Pintos.Partition

open List

/-- `enum block_type`. -/
inductive BlockType
  | kernel | filesys | scratch | swap | raw | foreign
deriving DecidableEq, Repr

/-- A partition as a `struct block`, with the `start` of its `struct partition`. -/
structure Device where
  name : String
  type : BlockType
  size : Sector
  start : Sector
deriving DecidableEq, Repr

/-! ### Access through a partition -/

def checkSector (p : Device) (sector : Sector) : Except Fault Unit :=
  if p.size ≤ sector then .error (.accessPastEnd sector p.size) else .ok ()

def partitionRead (d : Disk) (p : Device) (sector : Sector) : Except Fault Block :=
  Pintos.blockRead d (p.start + sector)

def partitionWrite (d : Disk) (p : Device) (sector : Sector) (b : Block) : Except Fault Disk :=
  Pintos.blockWrite d (p.start + sector) b

/-- `block_read` on a partition. -/
def blockRead (d : Disk) (p : Device) (sector : Sector) : Except Fault Block := do
  checkSector p sector
  partitionRead d p sector

/-- `block_write` on a partition. -/
def blockWrite (d : Disk) (p : Device) (sector : Sector) (b : Block) : Except Fault Disk := do
  checkSector p sector
  if p.type = .foreign then .error .assertion else partitionWrite d p sector b

/-! ### The partition table -/

/-- `struct partition_table_entry`, without the fields that are not read. -/
structure Entry where
  type : UInt8
  offset : UInt32
  size : UInt32
deriving DecidableEq, Repr

/-- `pt->partitions[i]`: sixteen bytes each, behind the 446 bytes of the loader. -/
def entryAt (pt : Block) (i : Fin 4) : Entry where
  type := pt ⟨446 + 16 * i.val + 4, by show _ < 512; omega⟩
  offset := Endian.wordOf fun k => pt ⟨446 + 16 * i.val + 8 + k.val, by show _ < 512; omega⟩
  size := Endian.wordOf fun k => pt ⟨446 + 16 * i.val + 12 + k.val, by show _ < 512; omega⟩

/-- `pt->signature == 0xaa55`, the low byte first. -/
def signed (pt : Block) : Bool := pt 510 = 0x55 ∧ pt 511 = 0xaa

/-- What the scan prints. -/
inductive Message
  /-- `"Partition table at sector %u past end of device."` -/
  | tablePastEnd (sector : Sector)
  /-- `"Invalid partition table signature"` -/
  | invalidSignature
  /-- `"Invalid extended partition table in sector %u"` -/
  | invalidExtended (sector : Sector)
  /-- `"Extended partition in sector %u"` -/
  | extended (sector : Sector)
  /-- `"Partition starts past end of device (sector %u)"` -/
  | startsPastEnd (partNr : ℕ) (start : Sector)
  /-- `"Partition end (%u) past end of device (%u)"` -/
  | endsPastEnd (partNr : ℕ) (last size : Sector)
  /-- `"Device contains no partitions"` -/
  | noPartitions
deriving DecidableEq, Repr

/-- What a scan changes: `*part_nr`, `all_blocks` and the console. -/
structure Scan where
  partNr : ℕ
  blocks : List Device
  console : List Message
deriving DecidableEq, Repr

def Scan.print (scan : Scan) (m : Message) : Scan :=
  { scan with console := scan.console ++ [m] }

def Scan.blockRegister (scan : Scan) (p : Device) : Scan :=
  { scan with blocks := scan.blocks ++ [p] }

/-- The type `found_partition` gives a partition. -/
def typeOf (partType : UInt8) : BlockType :=
  if partType = 0x20 then .kernel
  else if partType = 0x21 then .filesys
  else if partType = 0x22 then .scratch
  else if partType = 0x23 then .swap
  else .foreign

section Scanning

variable (name : String) (d : Disk)

/-- `found_partition`.  The name is cut to the 15 characters `name[16]` has room for. -/
def foundPartition (partType : UInt8) (start size : Sector) (partNr : ℕ) (scan : Scan) : Scan :=
  if d.size ≤ start then scan.print (.startsPastEnd partNr start)
  else if start + size < start ∨ d.size < start + size then
    scan.print (.endsPastEnd partNr (start + size) d.size)
  else
    scan.blockRegister
      ⟨String.ofList ((name ++ toString partNr).toList.take 15), typeOf partType, size, start⟩

/-- The types of an extended partition. -/
def isExtended (type : UInt8) : Bool := type = 0x05 ∨ type = 0x0f ∨ type = 0x85 ∨ type = 0xc5

/-- The loop of `read_partition_table` over the entries.  `readTable` is the recursive call;
a fault in it ends the loop. -/
def parsePartitions (readTable : Sector → Sector → Scan → Scan × Option Fault)
    (sector primaryExtendedSector : Sector) : List Entry → Scan → Scan × Option Fault
  | [], scan => (scan, none)
  | e :: es, scan =>
    if e.size = 0 ∨ e.type = 0 then
      parsePartitions readTable sector primaryExtendedSector es scan
    else if isExtended e.type then
      let scan := scan.print (.extended sector)
      let r :=
        if sector = 0 then readTable e.offset e.offset scan
        else readTable (e.offset + primaryExtendedSector) primaryExtendedSector scan
      match r with
      | (scan', some fault) => (scan', some fault)
      | (scan', none) => parsePartitions readTable sector primaryExtendedSector es scan'
    else
      let scan := { scan with partNr := scan.partNr + 1 }
      parsePartitions readTable sector primaryExtendedSector es
        (foundPartition name d e.type (e.offset + sector) e.size scan.partNr scan)

def readPartitionTable : ℕ → Sector → Sector → Scan → Scan × Option Fault
  | 0, _, _, scan => (scan, some .stackOverflow)
  | fuel + 1, sector, primaryExtendedSector, scan =>
    if d.size ≤ sector then (scan.print (.tablePastEnd sector), none)
    else
      match Pintos.blockRead d 0 with
      | .error fault => (scan, some fault)
      | .ok pt =>
        if signed pt then
          parsePartitions name d (readPartitionTable fuel) sector primaryExtendedSector
            (List.ofFn (entryAt pt)) scan
        else if primaryExtendedSector = 0 then (scan.print .invalidSignature, none)
        else (scan.print (.invalidExtended sector), none)

def partitionScan (fuel : ℕ) (blocks : List Device) : Scan × Option Fault :=
  match readPartitionTable name d fuel 0 0 ⟨0, blocks, []⟩ with
  | (scan, some fault) => (scan, some fault)
  | (scan, none) => (if scan.partNr = 0 then scan.print .noPartitions else scan, none)

end Scanning

/-! ### Registered partitions fit -/

/-- The partition lies on a disk of `size` sectors, without wrap-around. -/
def Fits (size : Sector) (p : Device) : Prop := p.start.toNat + p.size.toNat ≤ size.toNat

/-- A call that keeps what is registered and adds only partitions that fit. -/
def Adds (size : Sector) (scan scan' : Scan) : Prop :=
  ∃ new, scan'.blocks = scan.blocks ++ new ∧ ∀ p ∈ new, Fits size p

variable {size : Sector} {scan scan' : Scan}
  {readTable : Sector → Sector → Scan → Scan × Option Fault} {d' : Disk}

theorem Adds.refl (h : scan'.blocks = scan.blocks) :
    Adds size scan scan' := ⟨[], by rw [h, append_nil], nofun⟩

theorem Adds.trans {scan'' : Scan} (h : Adds size scan scan')
    (h' : Adds size scan' scan'') : Adds size scan scan'' := by
  obtain ⟨new, hblocks, hnew⟩ := h
  obtain ⟨new', hblocks', hnew'⟩ := h'
  refine ⟨new ++ new', ?_, ?_⟩
  · rw [hblocks', hblocks, append_assoc]
  · intro p hp
    cases mem_append.mp hp with
    | inl hp => exact hnew p hp
    | inr hp => exact hnew' p hp

/-- The second check of `found_partition` rules out that the end wraps around. -/
theorem toNat_end {start : Sector} (h : ¬start + size < start) :
    (start + size).toNat = start.toNat + size.toNat := by
  rw [UInt32.lt_iff_toNat_lt, UInt32.toNat_add] at h
  rw [UInt32.toNat_add]
  have hsize := size.toNat_lt
  omega

section Scanning

variable (name : String) (d : Disk)

theorem foundPartition_adds (partType : UInt8) (start size : Sector) (partNr : ℕ) (scan : Scan) :
    Adds d.size scan (foundPartition name d partType start size partNr scan) := by
  unfold foundPartition
  split
  · exact Adds.refl rfl
  split
  · exact Adds.refl rfl
  · rename_i hend
    rw [not_or] at hend
    refine ⟨[_], rfl, ?_⟩
    intro p hp
    obtain rfl := mem_singleton.mp hp
    have hle : (start + size).toNat ≤ d.size.toNat := UInt32.not_lt.mp hend.2
    rwa [toNat_end hend.1] at hle

theorem parsePartitions_adds
    (hread : ∀ sector primary scan, Adds d.size scan (readTable sector primary scan).1)
    (sector primary : Sector) (es : List Entry) (scan : Scan) :
    Adds d.size scan (parsePartitions name d readTable sector primary es scan).1 := by
  induction es generalizing scan with
  | nil => exact Adds.refl rfl
  | cons e es ih =>
    unfold parsePartitions
    split
    · exact ih scan
    split
    · extract_lets scan1 r
      have hr : Adds d.size scan r.1 := by
        have hprint : Adds d.size scan scan1 := Adds.refl rfl
        unfold r
        split
        · exact hprint.trans (hread _ _ _)
        · exact hprint.trans (hread _ _ _)
      cases h : r with
      | mk scan' fault =>
        rw [h] at hr
        cases fault with
        | none => exact hr.trans (ih scan')
        | some fault => exact hr
    · extract_lets scan1
      have hcount : Adds d.size scan scan1 := Adds.refl rfl
      exact (hcount.trans (foundPartition_adds name d _ _ _ _ _)).trans (ih _)

/-- However deep the scan goes, and however it ends, it registers only partitions that fit. -/
theorem readPartitionTable_adds (fuel : ℕ) (sector primary : Sector) (scan : Scan) :
    Adds d.size scan (readPartitionTable name d fuel sector primary scan).1 := by
  induction fuel generalizing sector primary scan with
  | zero => exact Adds.refl rfl
  | succ fuel ih =>
    unfold readPartitionTable
    split
    · exact Adds.refl rfl
    split
    · exact Adds.refl rfl
    split
    · exact parsePartitions_adds name d ih _ _ _ _
    split
    · exact Adds.refl rfl
    · exact Adds.refl rfl

theorem partitionScan_adds (fuel : ℕ) (blocks : List Device) :
    ∃ new, (partitionScan name d fuel blocks).1.blocks = blocks ++ new ∧
      ∀ p ∈ new, Fits d.size p := by
  have h := readPartitionTable_adds name d fuel 0 0 ⟨0, blocks, []⟩
  unfold partitionScan
  generalize readPartitionTable name d fuel 0 0 ⟨0, blocks, []⟩ = r at h ⊢
  obtain ⟨scan, fault⟩ := r
  cases fault with
  | some fault => exact h
  | none =>
    dsimp only
    split
    · exact h
    · exact h

end Scanning

/-! ### Accesses stay inside -/

/-- Sector numbers of the disk that belong to the partition. -/
def Device.extent (p : Device) : Set ℕ := Set.Ico p.start.toNat (p.start.toNat + p.size.toNat)

section Access

variable {d : Disk} {p : Device} {s : Sector}

theorem toNat_reached (hp : Fits d.size p) (hs : s < p.size) :
    (p.start + s).toNat = p.start.toNat + s.toNat := by
  have hsize := d.size.toNat_lt
  rw [UInt32.lt_iff_toNat_lt] at hs
  unfold Fits at hp
  rw [UInt32.toNat_add]
  omega

theorem reached_mem_extent (hp : Fits d.size p) (hs : s < p.size) :
    (p.start + s).toNat ∈ p.extent := by
  rw [toNat_reached hp hs]
  rw [UInt32.lt_iff_toNat_lt] at hs
  exact ⟨by omega, by omega⟩

theorem reached_lt (hp : Fits d.size p) (hs : s < p.size) : p.start + s < d.size := by
  rw [UInt32.lt_iff_toNat_lt, toNat_reached hp hs]
  rw [UInt32.lt_iff_toNat_lt] at hs
  unfold Fits at hp
  omega

theorem checkSector_eq : checkSector p s =
    if s < p.size then .ok () else .error (.accessPastEnd s p.size) := by
  unfold checkSector
  simp only [← UInt32.not_lt, ite_not]

theorem blockRead_eq (hp : Fits d.size p) : blockRead d p s =
    if s < p.size then .ok (d.sectors (p.start + s)) else .error (.accessPastEnd s p.size) := by
  unfold blockRead
  rw [checkSector_eq]
  split
  · rename_i hs
    exact blockRead_ok (reached_lt hp hs)
  · rfl

theorem blockWrite_eq (hp : Fits d.size p) (b : Block) : blockWrite d p s b =
    if s < p.size then
      if p.type = .foreign then .error .assertion else .ok (d.write (p.start + s) b)
    else .error (.accessPastEnd s p.size) := by
  unfold blockWrite
  rw [checkSector_eq]
  split
  · rename_i hs
    show (if p.type = .foreign then _ else partitionWrite d p s b) = _
    rw [partitionWrite, blockWrite_ok (reached_lt hp hs)]
  · rfl

/-- **Frame.** A write through a partition changes the disk only inside its extent. -/
theorem blockWrite_frame {b : Block} (hp : Fits d.size p) (h : blockWrite d p s b = .ok d') :
    d'.size = d.size ∧ ∀ t : Sector, t.toNat ∉ p.extent → d'.sectors t = d.sectors t := by
  rw [blockWrite_eq hp] at h
  split at h
  · rename_i hs
    split at h
    · cases h
    · obtain rfl := Except.ok.inj h
      refine ⟨rfl, fun t ht => ?_⟩
      have hne : t ≠ p.start + s := by
        rintro rfl
        exact ht (reached_mem_extent hp hs)
      rw [Disk.write_sectors, Function.update_of_ne hne]
  · cases h

end Access

/-- A finite sequence of writes through partitions. -/
def writeAll : Disk → List (Device × Sector × Block) → Except Fault Disk
  | d, [] => .ok d
  | d, (q, s, b) :: ws => do
    let d' ← blockWrite d q s b
    writeAll d' ws

/-- **Frame, for whole runs.** -/
theorem writeAll_frame {ws : List (Device × Sector × Block)} :
    ∀ {d : Disk}, (∀ w ∈ ws, Fits d.size w.1) → writeAll d ws = .ok d' →
      d'.size = d.size ∧
      ∀ t : Sector, (∀ w ∈ ws, t.toNat ∉ w.1.extent) → d'.sectors t = d.sectors t := by
  induction ws with
  | nil =>
    intro d _ h
    obtain rfl := Except.ok.inj h
    exact ⟨rfl, fun _ _ => rfl⟩
  | cons w ws ih =>
    obtain ⟨q, s, b⟩ := w
    intro d hfits h
    unfold writeAll at h
    cases hw : blockWrite d q s b with
    | error fault =>
      rw [hw] at h
      cases h
    | ok d1 =>
      rw [hw] at h
      obtain ⟨hsize, hsame⟩ := blockWrite_frame (hfits _ mem_cons_self) hw
      have hfits1 : ∀ w ∈ ws, Fits d1.size w.1 := by
        intro w hw
        rw [hsize]
        exact hfits w (mem_cons_of_mem _ hw)
      obtain ⟨hsize', hsame'⟩ := ih hfits1 h
      refine ⟨hsize'.trans hsize, fun t ht => ?_⟩
      rw [hsame' t fun w hw => ht w (mem_cons_of_mem _ hw)]
      exact hsame t (ht _ mem_cons_self)

/-- **Partitions are confined.**  Take any disk `d₀`, whatever its sector 0 holds, and any
partition `p` that a scan of it registers.  `p` lies on the disk; on every disk `d` of that
size an access through `p` that passes the check of `p` reaches the disk at a sector of `p`'s
extent and is not stopped there; and writes through registered partitions whose extents are
disjoint from `p`'s leave what `p` reads as it was. -/
theorem partition_confined (name : String) (d₀ : Disk) (fuel : ℕ) (new : List Device)
    (blocks : List Device) (hnew : (partitionScan name d₀ fuel blocks).1.blocks = blocks ++ new)
    (p : Device) (hp : p ∈ new) (d : Disk) (hd : d.size = d₀.size) :
    p.start.toNat + p.size.toNat ≤ d.size.toNat ∧
    (∀ s, blockRead d p s =
      if s < p.size then .ok (d.sectors (p.start + s)) else .error (.accessPastEnd s p.size)) ∧
    (∀ s b, blockWrite d p s b =
      if s < p.size then
        if p.type = .foreign then .error .assertion else .ok (d.write (p.start + s) b)
      else .error (.accessPastEnd s p.size)) ∧
    (∀ s, s < p.size → p.start + s < d.size ∧
      p.start.toNat ≤ (p.start + s).toNat ∧
      (p.start + s).toNat < p.start.toNat + p.size.toNat) ∧
    (∀ ws d', (∀ w ∈ ws, w.1 ∈ new ∧ ∀ t ∈ p.extent, t ∉ w.1.extent) →
      writeAll d ws = .ok d' → ∀ s, blockRead d' p s = blockRead d p s) := by
  have hfits : ∀ q ∈ new, Fits d.size q := by
    obtain ⟨new', hblocks, h⟩ := partitionScan_adds name d₀ fuel blocks
    obtain rfl : new = new' := append_cancel_left (hnew.symm.trans hblocks)
    rwa [hd]
  have hfit := hfits p hp
  refine ⟨hfit, fun s => blockRead_eq hfit, fun s b => blockWrite_eq hfit b, ?_, ?_⟩
  · intro s hs
    exact ⟨reached_lt hfit hs, reached_mem_extent hfit hs⟩
  · intro ws d' hws hrun s
    obtain ⟨hsize, hsame⟩ := writeAll_frame (fun w hw => hfits _ (hws w hw).1) hrun
    rw [blockRead_eq hfit, blockRead_eq (hsize ▸ hfit)]
    split
    · rename_i hs
      rw [hsame]
      intro w hw hmem
      exact (hws w hw).2 _ (reached_mem_extent hfit hs) hmem
    · rfl

/-- A disk of sixteen sectors whose table names a file system in sectors 1 to 8 and a swap
area in sectors 9 to 15. -/
def sampleDisk : Disk where
  size := 16
  sectors := fun _ i =>
    if i = 510 then 0x55 else if i = 511 then 0xaa
    else if i = 450 then 0x21 else if i = 454 then 1 else if i = 458 then 8
    else if i = 466 then 0x23 else if i = 470 then 9 else if i = 474 then 7
    else 0

theorem partition_confined_sample : ∃ p q : Device, p.type = .filesys ∧ q.type = .swap ∧
    (partitionScan "hda" sampleDisk 1 []).1.blocks = [p, q] ∧
    p.start.toNat + p.size.toNat ≤ 16 ∧
    ∀ s b d', blockWrite sampleDisk q s b = .ok d' →
      ∀ s, blockRead d' p s = blockRead sampleDisk p s := by
  have hscan : (partitionScan "hda" sampleDisk 1 []).1.blocks =
      [] ++ [⟨"hda1", .filesys, 8, 1⟩, ⟨"hda2", .swap, 7, 9⟩] := by decide +kernel
  obtain ⟨hfit, -, -, -, hframe⟩ := partition_confined "hda" sampleDisk 1 _ [] hscan
    ⟨"hda1", .filesys, 8, 1⟩ mem_cons_self sampleDisk rfl
  refine ⟨_, _, rfl, rfl, hscan, hfit, fun s b d' hw => ?_⟩
  apply hframe [(⟨"hda2", .swap, 7, 9⟩, s, b)] d'
  · intro w hw
    obtain rfl := mem_singleton.mp hw
    refine ⟨mem_cons_of_mem _ mem_cons_self, ?_⟩
    intro t ht ht'
    have hlt : t < 1 + 8 := ht.2
    have hle : 9 ≤ t := ht'.1
    omega
  · unfold writeAll
    rw [hw]
    rfl

/-! ### How deep the scan goes -/

/-- The offsets of the extended partitions among some entries. -/
def extendedOffsets (es : List Entry) : List Sector :=
  es.flatMap fun e =>
    if e.size = 0 ∨ e.type = 0 then [] else if isExtended e.type then [e.offset] else []

/-- The arguments of the call for an extended partition. -/
def nextTable (sector primaryExtendedSector offset : Sector) : Sector × Sector :=
  if sector = 0 then (offset, offset)
  else (offset + primaryExtendedSector, primaryExtendedSector)

/-- The call for table `t` makes less than `fuel` calls inside each other. -/
def Ends (d : Disk) : ℕ → Sector × Sector → Prop
  | 0, _ => False
  | fuel + 1, t => t.1 < d.size → signed (d.sectors 0) = true →
    ∀ o ∈ extendedOffsets (List.ofFn (entryAt (d.sectors 0))), Ends d fuel (nextTable t.1 t.2 o)

/-- A call returns if `P` holds, and uses up the stack if not. -/
def ReturnsIf (P : Prop) (r : Scan × Option Fault) : Prop :=
  r.2 = none ∧ P ∨ r.2 = some .stackOverflow ∧ ¬ P

section Depth

variable (name : String) (d : Disk)

theorem parsePartitions_returns {ok : Sector × Sector → Prop}
    (hread : ∀ sector primary scan, ReturnsIf (ok (sector, primary)) (readTable sector primary scan))
    (sector primary : Sector) (es : List Entry) (scan : Scan) :
    ReturnsIf (∀ o ∈ extendedOffsets es, ok (nextTable sector primary o))
      (parsePartitions name d readTable sector primary es scan) := by
  induction es generalizing scan with
  | nil => exact .inl ⟨rfl, nofun⟩
  | cons e es ih =>
    rw [parsePartitions, extendedOffsets, flatMap_cons]
    split
    · exact ih scan
    split
    · rw [singleton_append, forall_mem_cons]
      have hr : ∀ scan1, ReturnsIf (ok (nextTable sector primary e.offset))
          (if sector = 0 then readTable e.offset e.offset scan1
          else readTable (e.offset + primary) primary scan1) := by
        intro scan1
        unfold nextTable
        split
        · exact hread _ _ _
        · exact hread _ _ _
      extract_lets scan1 r
      obtain ⟨hnone, hok⟩ | ⟨hover, hnot⟩ := hr scan1
      · rw [show r = (r.1, none) from Prod.ext rfl hnone]
        simp only [hok, true_and]
        exact ih r.1
      · rw [show r = (r.1, some .stackOverflow) from Prod.ext rfl hover]
        exact .inr ⟨rfl, fun hall => hnot hall.1⟩
    · exact ih _

theorem readPartitionTable_returns (fuel : ℕ) (sector primary : Sector) (scan : Scan) :
    ReturnsIf (Ends d fuel (sector, primary))
      (readPartitionTable name d fuel sector primary scan) := by
  induction fuel generalizing sector primary scan with
  | zero => exact .inr ⟨rfl, id⟩
  | succ fuel ih =>
    unfold readPartitionTable Ends
    split
    · next hpast => exact .inl ⟨rfl, fun hlt => absurd hlt (UInt32.not_lt.mpr hpast)⟩
    next hlt =>
    rw [UInt32.not_le] at hlt
    rw [blockRead_ok (UInt32.lt_of_le_of_lt (UInt32.zero_le) hlt)]
    dsimp only
    split
    · next hsigned =>
      simpa only [hlt, hsigned, true_imp_iff] using parsePartitions_returns name d ih _ _ _ scan
    · next hsigned =>
      split
      · exact .inl ⟨rfl, fun _ h => absurd h hsigned⟩
      · exact .inl ⟨rfl, fun _ h => absurd h hsigned⟩

theorem partitionScan_returns_iff (fuel : ℕ) (blocks : List Device) :
    (partitionScan name d fuel blocks).2 ≠ some .stackOverflow ↔ Ends d fuel (0, 0) := by
  have h := readPartitionTable_returns name d fuel 0 0 ⟨0, blocks, []⟩
  unfold partitionScan
  generalize readPartitionTable name d fuel 0 0 ⟨0, blocks, []⟩ = r at h ⊢
  obtain ⟨scan, fault⟩ := r
  obtain ⟨rfl, hends⟩ | ⟨rfl, hends⟩ := h
  · exact iff_of_true nofun hends
  · exact iff_of_false (not_not.mpr rfl) hends

/-- Two offsets that keep the scan on the device make it go round. -/
theorem not_ends {o o' : Sector} (hsigned : signed (d.sectors 0) = true)
    (ho : o ∈ extendedOffsets (ofFn (entryAt (d.sectors 0)))) (hlt : o < d.size)
    (ho' : o' ∈ extendedOffsets (ofFn (entryAt (d.sectors 0)))) (hlt' : o' + o < d.size) (fuel : ℕ)
    (t : Sector × Sector) (ht : t.1 < d.size) (hbad : t.1 = 0 ∨ t.2 = o) : ¬ Ends d fuel t := by
  induction fuel generalizing t with
  | zero => exact id
  | succ fuel ih =>
    intro hends
    by_cases hzero : t.1 = 0
    · apply ih (nextTable t.1 t.2 o) _ _ (hends ht hsigned o ho)
      · rwa [nextTable, if_pos hzero]
      · exact .inr (by rw [nextTable, if_pos hzero])
    · have hprimary := hbad.resolve_left hzero
      apply ih (nextTable t.1 t.2 o') _ _ (hends ht hsigned o' ho')
      · rwa [nextTable, if_neg hzero, hprimary]
      · exact .inr (by rwa [nextTable, if_neg hzero])

/-- **Termination.**  Every level of the scan reads sector 0 again.  So the scan ends just if there
is no signed table, or if from every extended partition on the device each second step leads past
its end; then it never goes deeper. -/
theorem partitionScan_ends_iff (name : String) (d : Disk) (blocks : List Device) :
    (∃ fuel, (partitionScan name d fuel blocks).2 ≠ some .stackOverflow) ↔
      d.size = 0 ∨ signed (d.sectors 0) = false ∨
      ∀ o ∈ extendedOffsets (ofFn (entryAt (d.sectors 0))), d.size ≤ o ∨
        ∀ o' ∈ extendedOffsets (ofFn (entryAt (d.sectors 0))), d.size ≤ o' + o := by
  simp only [partitionScan_returns_iff]
  constructor
  · rintro ⟨fuel, hends⟩
    by_contra hnot
    simp only [not_or, not_forall, Bool.not_eq_false, UInt32.not_le] at hnot
    obtain ⟨hsize, hsigned, o, ho, hlt, o', ho', hlt'⟩ := hnot
    have hpos : 0 < d.size := UInt32.pos_iff_ne_zero.mpr hsize
    exact not_ends d hsigned ho hlt ho' hlt' fuel (0, 0) hpos (.inl rfl) hends
  · intro hcond
    refine ⟨3, fun hpos hsigned o ho hlt _ o' ho' hlt' _ => ?_⟩
    have hpast := ((hcond.resolve_left (UInt32.pos_iff_ne_zero.mp hpos)).resolve_left
      (Bool.not_eq_false _ ▸ hsigned) o ho).resolve_left (UInt32.not_le.mpr hlt)
    have hne : o ≠ 0 := by
      rintro rfl
      exact absurd (hpast 0 ho) (UInt32.not_le.mpr hpos)
    change (nextTable o o o').1 < d.size at hlt'
    rw [nextTable, if_neg hne] at hlt'
    exact absurd (hpast o' ho') (UInt32.not_le.mpr hlt')

end Depth

/-- A disk of sixteen sectors whose table names an extended partition in sector 1. -/
def extendedDisk : Disk where
  size := 16
  sectors := fun s i =>
    if s = 0 then
      if i = 510 then 0x55 else if i = 511 then 0xaa
      else if i = 450 then 0x05 else if i = 454 then 1 else if i = 458 then 8
      else 0
    else 0

theorem not_partitionScan_ends :
    ¬ ∃ fuel, (partitionScan "hda" extendedDisk fuel []).2 ≠ some .stackOverflow := by
  rintro ⟨fuel, h⟩
  have hmem : 1 ∈ extendedOffsets (ofFn (entryAt (extendedDisk.sectors 0))) := by decide +kernel
  apply not_ends extendedDisk (by decide +kernel) hmem _ hmem _ fuel (0, 0) _ (.inl rfl)
    ((partitionScan_returns_iff _ _ fuel []).mp h)
  · decide
  · decide
  · decide

end Pintos.Partition

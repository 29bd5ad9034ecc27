import Pintos.FileRead
import Pintos.FileExtend
import Pintos.InodeCreate

/-! # Files as byte vectors

What the inode functions are for: every inode is a vector of bytes with a length
(`FileVector`).  A new file is all zeros; a write changes one interval of one vector, and
makes it longer if need be (`FileVector.write`); a read delivers what is there before the end.

`Stores fs V` relates a state of the disk to the vectors of its inodes.  Each call of
`free_map_allocate`, `inode_create`, `inode_write_at` and `inode_read_at` in the direct and
singly indirect range keeps the relation and returns what the vectors say (`step_refines`),
and so does every sequence of them (`files_refine_vectors`).

The vector of an inode that exists at the start has what the disk stores in its blocks, the
tail of its last sector included: the code never clears a tail, so a byte there that is not
zero becomes part of the file when the file gets longer (`not_zeroFilled`). -/

namespace Pintos.Fs

open Interaction Paging Function List

/-! ### The abstract files -/

/-- A file: its length, and its bytes; those behind the length are the ones that it will have
there when it is longer. -/
structure FileVector where
  length : ℕ
  bytes : ℕ → UInt8

namespace FileVector

/-- A file of zeros. -/
def zero (length : ℕ) : FileVector := ⟨length, fun _ => 0⟩

def write (v : FileVector) (f : ℕ → UInt8) (size offset : ℕ) : FileVector :=
  ⟨max v.length (offset + size), overwrite v.bytes offset size f⟩

end FileVector

/-- The files of a file system, by the sectors of their inodes. -/
abbrev Vectors := Sector → Option FileVector

/-- The calls of the inode layer. -/
inductive FileCall
  | allocate
  | create (sector : Sector) (length : ℕ)
  | write (inode : Inode) (bytes : ℕ → UInt8) (size offset : ℕ)
  | read (inode : Inode) (buffer : ℕ → UInt8) (size offset : ℕ)

inductive Reply
  | sector (s : Option Sector)
  | created (success : Bool)
  | written (n : ℤ)
  | data (n : ℤ) (buffer : ℕ → UInt8)

def FileCall.prog (depth : ℕ) : FileCall → Prog fsSig Reply
  | .allocate => do
    let s ← freeMapAllocate depth 1
    pure (.sector s)
  | .create sector length => do
    let success ← inodeCreate (freeMapAllocate depth 1) sector length
    pure (.created success)
  | .write inode bytes size offset => do
    let n ← inodeWriteAt (freeMapAllocate depth 1) inode (.bytes bytes) size offset
    pure (.written n)
  | .read inode buffer size offset => do
    let q ← inodeReadAt inode buffer size offset
    pure (.data q.1 q.2)

namespace Vectors

/-- The files after a call. -/
def after (V : Vectors) : FileCall → Vectors
  | .allocate => V
  | .create sector length => update V sector (some (FileVector.zero length))
  | .write inode bytes size offset =>
    if inode.denyWriteCnt = 0 then
      update V inode.sector
        ((V inode.sector).map fun v => v.write bytes size offset)
    else V
  | .read _ _ _ _ => V

/-- What a call returns. -/
def Answer (V : Vectors) : FileCall → Reply → Prop
  | .allocate, .sector r => ∃ s, r = some s ∧ V s = none
  | .create _ _, .created success => success = true
  | .write inode _ size _, .written n => n = if inode.denyWriteCnt = 0 then (size : ℤ) else 0
  | .read inode _ size offset, .data n buffer => ∃ v, V inode.sector = some v ∧
      n = (min size (v.length - offset) : ℕ) ∧
      ∀ k < min size (v.length - offset), buffer k = v.bytes (offset + k)
  | _, _ => False

end Vectors

/-! ### The files on the disk -/

/-- The file of the inode in sector `s`. -/
def vectorAt (d : Sector → Block) (s : Sector) : FileVector :=
  ⟨(inodeAt d s).length.toInt.toNat, fileBytes d s⟩

theorem vectorAt_congr {d d' : Sector → Block} {s : Sector} (h : ∀ t ∈ treeOf d s, d' t = d t) :
    vectorAt d' s = vectorAt d s := by
  have hindex : ∀ t ∈ indexSectors d (inodeAt d s) (blocksAt d s), d' t = d t :=
    fun t ht => h t (FileOk.index_mem d s ht)
  obtain ⟨hdi, hn, -⟩ := treeOf_congr (h s mem_cons_self) hindex
  have hbytes : fileBytes d' s = fileBytes d s := by
    funext p
    unfold fileBytes
    rw [hn, hdi]
    by_cases hp : p < 512 * blocksAt d s
    · have hi : p / 512 < blocksAt d s := by omega
      rw [if_pos hp, if_pos hp]
      refine flat_congr ?_
      rw [mapSector_congr hindex hi]
      exact h _ (FileOk.data_subset d s (mapSector_mem_dataSectors d (inodeAt d s) hi))
    · rw [if_neg hp, if_neg hp]
  rw [vectorAt, hdi, hbytes, vectorAt]

/-- The sector of the free map's inode, if its file is open. -/
def mapInode (fs : Fs) : Option Sector := fs.freeMapFile.map Inode.sector

/-- The files of the inodes, the free map's apart. -/
def vectorsOf (fs : Fs) (inodes : List Sector) : Vectors := fun s =>
  if s ∈ inodes ∧ mapInode fs ≠ some s then some (vectorAt fs.store.sectors s) else none

/-- The disk stores the files `V`. -/
def Stores (fs : Fs) (V : Vectors) : Prop :=
  ∃ inodes, WellFormed fs inodes ∧ fs.store.size < 20000000 ∧ V = vectorsOf fs inodes

/-- A sector that was allocated and belongs to no inode. -/
structure Reserved (fs : Fs) (V : Vectors) (s : Sector) : Prop where
  lt : s < fs.store.size
  marked : Marked fs s
  map : s ∉ mapTree fs
  inodes : ∀ o, V o ≠ none → s ∉ treeOf fs.store.sectors o

/-- A call that stays in the first 252 blocks of an existing file, and for which enough sectors
can be allocated. -/
def FileCall.Allowed (fs : Fs) (V : Vectors) : FileCall → Prop
  | .allocate => Affords fs 1
  | .create sector length => Reserved fs V sector ∧ length ≤ 252 * 512 ∧
      Affords fs (sectorsNeeded 0 (blockCount length))
  | .write inode _ size offset => V inode.sector ≠ none ∧ offset + size ≤ 252 * 512 ∧
      (inode.denyWriteCnt = 0 → Affords fs (sectorsNeeded
        (blocksAt fs.store.sectors inode.sector) (blockCount (offset + size : ℕ))))
  | .read inode _ size offset => ∃ v, V inode.sector = some v ∧
      (v.length ≤ 252 * 512 ∨ offset + size ≤ 252 * 512)

variable {v : FileVector} {inode : Inode} {offset size : ℕ}

section

variable {fs fs' : Fs} {V : Vectors} {inodes L : List Sector} {s : Sector}

theorem client_iff : Client fs s ↔ mapInode fs ≠ some s := by
  simp only [Client, mapInode, ne_eq, Option.map_eq_some_iff, not_exists, not_and]

theorem vectorsOf_eq_some (hs : s ∈ inodes) (hclient : Client fs s) :
    vectorsOf fs inodes s = some (vectorAt fs.store.sectors s) :=
  if_pos ⟨hs, client_iff.mp hclient⟩

theorem vectorsOf_ne_none : vectorsOf fs inodes s ≠ none ↔ s ∈ inodes ∧ Client fs s := by
  rw [vectorsOf, client_iff]
  split_ifs with h
  · exact iff_of_true (by simp) h
  · exact iff_of_false (by simp) h

theorem vectorsOf_congr (hfile : fs'.freeMapFile = fs.freeMapFile)
    (hkeeps : ∀ o ∈ inodes, Client fs o →
      vectorAt fs'.store.sectors o = vectorAt fs.store.sectors o) :
    vectorsOf fs' inodes = vectorsOf fs inodes := by
  funext o
  have hmap : mapInode fs' = mapInode fs := by rw [mapInode, hfile, mapInode]
  rw [vectorsOf, vectorsOf, hmap]
  refine if_ctx_congr Iff.rfl (fun h => ?_) fun _ => rfl
  rw [hkeeps o h.1 (client_iff.mpr h.2)]

theorem vectorsOf_cons (hclient : Client fs s) : vectorsOf fs (s :: inodes) =
    update (vectorsOf fs inodes) s (some (vectorAt fs.store.sectors s)) := by
  funext o
  by_cases ho : o = s
  · subst ho
    rw [update_self, vectorsOf_eq_some mem_cons_self hclient]
  · simp only [update_of_ne ho, vectorsOf, mem_cons, ho, false_or]

theorem vectorsOf_erase (hs : s ∈ inodes) (hclient : Client fs s) : vectorsOf fs inodes =
    update (vectorsOf fs (inodes.erase s)) s (some (vectorAt fs.store.sectors s)) := by
  rw [← vectorsOf_cons hclient]
  funext o
  simp only [vectorsOf, (perm_cons_erase hs).mem_iff]

theorem Grew.vectorsOf_rest {W : Set Sector} (h : Grew W fs fs' L) (hrest : WellFormed fs inodes)
    (hA : ∀ t ∈ W, t ∉ inodes.flatMap (treeOf fs.store.sectors)) :
    vectorsOf fs' inodes = vectorsOf fs inodes := by
  refine vectorsOf_congr h.file fun o ho hclient => ?_
  obtain ⟨hdi, hbytes⟩ := h.file_rest hrest hA ho hclient
  rw [vectorAt, hdi, hbytes, vectorAt]

theorem Stores.reads {T : Set Sector} (h : Stores fs V) (ht : Touches ∅ T fs fs') :
    Stores fs' V := by
  obtain ⟨inodes, hwf, hdev, rfl⟩ := h
  have hst := ht.store_eq
  have hmark : ∀ t, Marked fs' t ↔ Marked fs t := fun t => by rw [Marked, ht.freeMap_eq, Marked]
  obtain ⟨hmap, -⟩ := hwf.map.congr ht.size ht.freeMapFile_eq (by rw [ht.freeMap_eq])
    (fun t _ _ => ht.sectors t (by simp)) (fun t hm => (hmark t).mpr (hwf.map.marked hm))
  refine ⟨inodes, ⟨hmap, fun file hfile => hwf.map_mem file (ht.freeMapFile_eq ▸ hfile), ?_, ?_, ?_⟩,
    by rw [hst]; exact hdev, ?_⟩
  · rw [hst]; exact hwf.length_nonneg
  · rw [hst]; exact hwf.nodup
  · rw [hst]; exact fun t hm => ⟨(hwf.sectors t hm).1, (hmark t).mpr (hwf.sectors t hm).2⟩
  · exact (vectorsOf_congr ht.freeMapFile_eq fun o _ _ => by rw [hst]).symm

/-! ### The calls -/

/-- `free_map_allocate` delivers a sector in which an inode can be created. -/
theorem allocate_refines (depth : ℕ) (h : Stores fs V) (hafford : Affords fs 1) :
    Ensures diskHandler (freeMapAllocate (depth + 1) 1) fs (fun r fs' =>
      ∃ s, r = some s ∧ V s = none ∧ Reserved fs' V s ∧ Stores fs' V) := by
  obtain ⟨inodes, hwf, hdev, rfl⟩ := h
  refine (freeMapAllocate_spec depth fs hwf.map (hafford.2 one_pos) hafford.1).mono ?_
  rintro r fs' ⟨s, rfl, hgrew⟩
  have hnew : s ∈ [s] := mem_singleton_self s
  have hgrew' : Grew { t | t ∈ ([] : List Sector) } fs fs' [s] := hgrew.mono (Set.empty_subset _)
  obtain ⟨hwf', -⟩ := hgrew'.wellFormed_rest hwf (by simp)
  have hout : ∀ o ∈ inodes, s ∉ treeOf fs.store.sectors o := fun o ho hin =>
    (hgrew.fresh s hnew).2 (hwf.marked ho hin)
  refine ⟨s, rfl, ?_, ⟨?_, (hgrew.marked s).mpr (.inr hnew), ?_, fun o ho => ?_⟩, inodes, hwf',
    by rw [hgrew.size]; exact hdev, (hgrew'.vectorsOf_rest hwf (by simp)).symm⟩
  · by_contra hne
    exact hout s (vectorsOf_ne_none.mp hne).1 mem_cons_self
  · rw [hgrew.size]
    exact (hgrew.fresh s hnew).1
  · rw [hgrew.tree]
    exact hgrew.notMem_tree hnew
  · have ho' := (vectorsOf_ne_none.mp ho).1
    rw [(hgrew'.congr_rest hwf (by simp) ho').2.2.1]
    exact hout o ho'

/-- `inode_create` makes a file of zeros. -/
theorem create_refines (depth : ℕ) (h : Stores fs V) {length : ℕ} (hs : Reserved fs V s)
    (hlen : length ≤ 252 * 512) (hafford : Affords fs (sectorsNeeded 0 (blockCount length))) :
    Ensures diskHandler (inodeCreate (freeMapAllocate (depth + 1) 1) s length) fs (fun r fs' =>
      r = true ∧ Stores fs' (update V s (some (FileVector.zero length)))) := by
  obtain ⟨inodes, hwf, hdev, rfl⟩ := h
  have hclient : Client fs s := fun file hfile hfs =>
    hs.map ⟨file, hfile, hfs ▸ mem_cons_self⟩
  have hA : ∀ t ∈ [s], t ∉ inodes.flatMap (treeOf fs.store.sectors) := by
    intro t ht hin
    rw [mem_singleton.mp ht] at hin
    obtain ⟨o, ho, hto⟩ := mem_flatMap.mp hin
    by_cases hco : Client fs o
    · exact hs.inodes o (vectorsOf_ne_none.mpr ⟨ho, hco⟩) hto
    · obtain ⟨file, hfile, rfl⟩ : ∃ file, fs.freeMapFile = some file ∧ file.sector = o := by
        simpa [Client] using hco
      exact hs.map ⟨file, hfile, hto⟩
  have hneeded : sectorsNeeded 0 (blockCount length) =
      blockCount length + indexCount (blockCount length) := by
    simp [sectorsNeeded, indexCount]
  refine (inodeCreate_spec (freeMapAllocate_spec depth) hwf.map hs.lt hs.marked hs.map
    (fun hpos => hafford.2 (by omega)) (by rw [blockCount_natCast]; omega) hafford.1).mono ?_
  rintro r fs' ⟨hr, hlen', hgrew, hzero⟩
  have hblocks : blocksAt fs'.store.sectors s = blockCount length := by rw [blocksAt, hlen']
  have hext : Extends fs fs' s [s] (freshSectors fs'.store.sectors (inodeAt fs'.store.sectors s) 0
      (blockCount length)) := by
    refine ⟨hgrew.mono (by simp), ?_, by omega⟩
    rw [treeOf, hblocks]
    exact ((perm_freshSectors _ _ (Nat.zero_le _)).trans (by simp [indexSectors, dataSectors])).cons s
  have hvector : vectorAt fs'.store.sectors s = FileVector.zero length := by
    rw [vectorAt, hlen', Int.toNat_natCast, FileVector.zero, FileVector.mk.injEq]
    refine ⟨rfl, funext fun p => ?_⟩
    rw [fileBytes, hblocks]
    by_cases hp : p < 512 * blockCount length
    · rw [if_pos hp]
      exact congrFun (hzero (p / 512) (by omega)) _
    · rw [if_neg hp]
  refine ⟨hr, s :: inodes, hext.wellFormed hwf hA (nodup_singleton s) fun t ht => ?_,
    by rw [hgrew.size]; exact hdev, ?_⟩
  · rw [mem_singleton.mp ht]
    exact ⟨hs.lt, hs.marked⟩
  · rw [vectorsOf_cons (by rw [Client, hgrew.file]; exact hclient), hvector,
      hext.grew.vectorsOf_rest hwf hA]

/-- `inode_write_at` writes an interval of one file. -/
theorem write_refines (depth : ℕ) (h : Stores fs V) {f : ℕ → UInt8}
    (hs : V inode.sector ≠ none) (hdeny : inode.denyWriteCnt = 0)
    (hmax : offset + size ≤ 252 * 512)
    (hafford : Affords fs (sectorsNeeded (blocksAt fs.store.sectors inode.sector)
      (blockCount (offset + size : ℕ)))) :
    Ensures diskHandler (inodeWriteAt (freeMapAllocate (depth + 1) 1) inode (.bytes f) size offset)
      fs (fun r fs' => r = size ∧ Stores fs' (update V inode.sector
        ((V inode.sector).map fun v => v.write f size offset))) := by
  obtain ⟨inodes, hwf, hdev, rfl⟩ := h
  obtain ⟨hmem, hclient⟩ := vectorsOf_ne_none.mp hs
  obtain ⟨hrest, hA⟩ := hwf.erase hmem hclient
  have hfile := hwf.fileOk hmem
  refine (inodeWriteAt_spec hwf hmem hclient hdeny hmax (freeMapAllocate_spec depth) hafford).mono ?_
  rintro r fs' ⟨hr, ⟨L, hext⟩, hlen, hbytes⟩
  have hvector : vectorAt fs'.store.sectors inode.sector =
      (vectorAt fs.store.sectors inode.sector).write f size offset := by
    rw [vectorAt, hlen, hbytes, FileVector.write, vectorAt, FileVector.mk.injEq]
    exact ⟨by have := hfile.length_nonneg; simp only; omega, rfl⟩
  refine ⟨hr, inode.sector :: inodes.erase inode.sector, hext.wellFormed hrest hA hfile.nodup
    fun t ht => ⟨hfile.valid t ht, hwf.marked hmem ht⟩, by rw [hext.grew.size]; exact hdev, ?_⟩
  rw [vectorsOf_cons (by rw [Client, hext.grew.file]; exact hclient), hvector,
    hext.grew.vectorsOf_rest hrest hA, vectorsOf_eq_some hmem hclient, Option.map_some,
    vectorsOf_erase hmem hclient, update_idem]

/-- `inode_read_at` delivers bytes of one file. -/
theorem read_refines (h : Stores fs V) (buffer : ℕ → UInt8) (hs : V inode.sector = some v)
    (hmax : v.length ≤ 252 * 512 ∨ offset + size ≤ 252 * 512) :
    Ensures diskHandler (inodeReadAt inode buffer size offset) fs (fun q fs' =>
      q.1 = (min size (v.length - offset) : ℕ) ∧
      (∀ k < min size (v.length - offset), q.2 k = v.bytes (offset + k)) ∧ Stores fs' V) := by
  have hstores := h
  obtain ⟨inodes, hwf, hdev, rfl⟩ := h
  obtain ⟨hmem, hclient⟩ := vectorsOf_ne_none.mp (by rw [hs]; simp)
  rw [vectorsOf_eq_some hmem hclient, Option.some.injEq] at hs
  subst hs
  have hfile := hwf.fileOk hmem
  have hsector : inode.sector ≤ 20000000 :=
    UInt32.le_trans (UInt32.le_of_lt hfile.sector_lt) (UInt32.le_of_lt hdev)
  refine (inodeReadAt_spec buffer hfile hsector (n := min size
    ((vectorAt fs.store.sectors inode.sector).length - offset)) (by omega) rfl).mono ?_
  rintro q fs' ⟨hn, hbytes, ht⟩
  refine ⟨hn, fun k hk => ?_, hstores.reads ht⟩
  have hlt : (offset + k) / 512 < blocksAt fs.store.sectors inode.sector := by
    refine div_lt_blockCount ?_
    simp only [vectorAt] at hk
    omega
  rw [hbytes k hk]
  exact (if_pos (by omega)).symm

/-- **Every call** answers as the files say, and leaves the files that it should. -/
theorem step_refines (depth : ℕ) (fs : Fs) (V : Vectors) (c : FileCall) (h : Stores fs V)
    (hc : c.Allowed fs V) :
    Ensures diskHandler (c.prog (depth + 1)) fs (fun r fs' =>
      V.Answer c r ∧ Stores fs' (V.after c)) := by
  cases c with
  | allocate =>
    rw [FileCall.prog, ensures_bind]
    refine (allocate_refines depth h hc).mono ?_
    rintro r fs' ⟨s, rfl, hnone, -, hstores⟩
    rw [ensures_ret]
    exact ⟨⟨s, rfl, hnone⟩, hstores⟩
  | create sector length =>
    obtain ⟨hs, hlen, hafford⟩ := hc
    rw [FileCall.prog, ensures_bind]
    refine (create_refines depth h hs hlen hafford).mono ?_
    rintro r fs' ⟨rfl, hstores⟩
    rw [ensures_ret]
    exact ⟨rfl, hstores⟩
  | write inode bytes size offset =>
    obtain ⟨hs, hmax, hafford⟩ := hc
    rw [FileCall.prog, ensures_bind]
    by_cases hdeny : inode.denyWriteCnt = 0
    · refine (write_refines depth h hs hdeny hmax (hafford hdeny)).mono ?_
      rintro r fs' ⟨rfl, hstores⟩
      rw [ensures_ret]
      simp only [Vectors.Answer, Vectors.after, if_pos hdeny]
      exact ⟨trivial, hstores⟩
    · rw [inodeWriteAt, if_pos hdeny, ensures_ret, ensures_ret]
      simp only [Vectors.Answer, Vectors.after, if_neg hdeny]
      exact ⟨trivial, h⟩
  | read inode buffer size offset =>
    obtain ⟨v, hs, hmax⟩ := hc
    rw [FileCall.prog, ensures_bind]
    refine (read_refines h buffer hs hmax).mono ?_
    rintro q fs' ⟨hn, hbytes, hstores⟩
    rw [ensures_ret]
    exact ⟨⟨v, hs, hn, hbytes⟩, hstores⟩

end

/-! ### Sequences of calls -/

/-- The state and the vectors after any sequence of allowed calls. -/
theorem runCalls_refines (depth : ℕ) {fs : Fs} {V : Vectors} {calls : List FileCall}
    (h : Stores fs V) (hcalls : Admissible diskHandler (FileCall.prog (depth + 1))
      FileCall.Allowed Vectors.after fs V calls) :
    Ensures diskHandler (runAll (FileCall.prog (depth + 1)) calls) fs (fun replies fs' =>
      Answers Vectors.Answer Vectors.after V calls replies ∧
        Stores fs' (calls.foldl Vectors.after V)) :=
  ensures_runAll (step_refines depth) calls fs V h hcalls

/-- The files of all inodes, the free map's included, with zeros behind their ends. -/
def zeroFilled (fs : Fs) (inodes : List Sector) : Vectors := fun s =>
  if s ∈ inodes then
    some { vectorAt fs.store.sectors s with
      bytes := fun p => if p < (vectorAt fs.store.sectors s).length then
        fileBytes fs.store.sectors s p else 0 }
  else none

/-- A device of eight sectors: the free map's inode in sector 0 with its data in sector 2, the
root directory's in sector 1, and in sector 3 an inode of length 1 with its data in sector 4,
all of whose bytes are 7. -/
def tailFs : Fs where
  store :=
    { size := 8
      sectors := fun s =>
        if s = 0 then { emptyInode with direct := fun _ => 2, length := 4 }.encode
        else if s = 3 then { emptyInode with direct := fun _ => 4, length := 1 }.encode
        else if s = 4 then fun _ => 7
        else emptyInode.encode }
  freeMap := Bitmap.eight 0x1f
  freeMapFile := some ⟨0, 1, false, 0⟩
  stack := fun _ _ => 0
  addresses := fun _ => physBase
  memory := fun _ => 0
  accesses := []

theorem inodeAt_tailFs_map : inodeAt tailFs.store.sectors 0 =
    { emptyInode with direct := fun _ => 2, length := 4 } := InodeDisk.decode_encode _

theorem inodeAt_tailFs : inodeAt tailFs.store.sectors 3 =
    { emptyInode with direct := fun _ => 4, length := 1 } := InodeDisk.decode_encode _

theorem wellFormed_tailFs : WellFormed tailFs [0, 1, 3] := by
  refine WellFormed.intro rfl (fun file hfile => ?_) ?_ ?_ ?_
  · cases hfile
    decide
  · decide +kernel
  · decide +kernel
  · decide +kernel

theorem vectorsOf_tailFs : vectorsOf tailFs [0, 1, 3] 3 =
    some ⟨1, fileBytes tailFs.store.sectors 3⟩ := by
  rfl

theorem freeCount_tailFs : freeCount tailFs = 3 := by decide

theorem affords_tailFs {n : ℕ} (hn : n ≤ 1) : Affords tailFs n :=
  ⟨by rw [freeCount_tailFs]; omega, fun _ _ _ => by decide⟩

theorem zeroFilled_tailFs : zeroFilled tailFs [0, 1, 3] 3 = some ⟨1, fun p =>
    if p < 1 then fileBytes tailFs.store.sectors 3 p else 0⟩ := by
  rfl

/-- A byte written behind the end of the file in sector 3, and what is then before it. -/
def tailCalls (offset : ℕ) : List FileCall :=
  [.write ⟨3, 1, false, 0⟩ (fun _ => 9) 1 offset, .read ⟨3, 1, false, 0⟩ (fun _ => 0) (offset + 1) 0]

theorem admissible_tailCalls {V : Vectors} (hV : V 3 = some v) (hmax : offset + 1 ≤ 1024) :
    Admissible diskHandler (FileCall.prog 1) FileCall.Allowed Vectors.after tailFs V
      (tailCalls offset) := by
  have hneeded : sectorsNeeded 1 (blockCount (offset + 1 : ℕ)) ≤ 1 := by
    have hcount : blockCount (offset + 1 : ℕ) ≤ 2 := by rw [blockCount_natCast]; omega
    unfold sectorsNeeded indexCount
    rw [if_neg (by omega), if_neg (by omega), if_neg (by omega)]
    omega
  refine ⟨⟨by rw [hV]; simp, by omega, fun _ => ?_⟩, fun r fs' _ => ⟨?_, fun _ _ _ => trivial⟩⟩
  · exact affords_tailFs hneeded
  · refine ⟨v.write (fun _ => 9) 1 offset, ?_, .inr (by omega)⟩
    simp only [Vectors.after, if_true, hV, Option.map_some, update_self]

/-- The byte `j` that the second of two calls read. -/
def readByte (j : ℕ) : List Reply → Option UInt8
  | [_, .data _ buffer] => some (buffer j)
  | _ => none

/-- A call and then a read of zero-filled vectors: what is read is what the vector has. -/
theorem not_answers_of_readByte {V : Vectors} {c : FileCall} {buffer : ℕ → UInt8}
    {j : ℕ} (hv : Vectors.after V c inode.sector = some v)
    (hj : j < min size v.length) {r : UInt8} (hne : v.bytes j ≠ r)
    (hrun : (run diskHandler (runAll (FileCall.prog 1) [c, .read inode buffer size 0])
      tailFs).toOption.bind (fun q => readByte j q.1) = some r) :
    ¬ Ensures diskHandler (runAll (FileCall.prog 1) [c, .read inode buffer size 0]) tailFs
      (fun replies _ => Answers Vectors.Answer Vectors.after V [c, .read inode buffer size 0]
        replies) := by
  rintro ⟨replies, fs', hok, hans⟩
  rw [hok] at hrun
  match replies, hans, hrun with
  | [_, .data n buf], ⟨_, ⟨v', hv', _, hbytes⟩, _⟩, hrun =>
    cases hv.symm.trans hv'
    have hr : buf j = r := Option.some.inj hrun
    apply hne
    rw [← hr, hbytes j hj, Nat.zero_add]

/-- The byte before the one that was written was never written, and is not zero. -/
theorem not_answers_tailCalls :
    ¬ Ensures diskHandler (runAll (FileCall.prog 1) (tailCalls 2)) tailFs (fun replies _ =>
      Answers Vectors.Answer Vectors.after (zeroFilled tailFs [0, 1, 3]) (tailCalls 2) replies) :=
  not_answers_of_readByte (j := 1) (r := 7) rfl (by decide) (by decide) (by decide +kernel)

/-- A sector is allocated, and the first byte of the free map's own file is read. -/
def mapCalls : List FileCall := [.allocate, .read ⟨0, 1, false, 0⟩ (fun _ => 0) 1 0]

/-- The free map's file changes although no call writes it. -/
theorem not_answers_mapCalls :
    ¬ Ensures diskHandler (runAll (FileCall.prog 1) mapCalls) tailFs (fun replies _ =>
      Answers Vectors.Answer Vectors.after (zeroFilled tailFs [0, 1, 3]) mapCalls replies) :=
  not_answers_of_readByte (j := 0) (r := 0x3f) rfl (by decide) (by decide) (by decide +kernel)

end Pintos.Fs

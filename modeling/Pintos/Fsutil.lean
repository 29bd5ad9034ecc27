import Mathlib.Data.List.GetD
import Pintos.Ustar

/-! # Archives on the scratch device: `fsutil_append` and `fsutil_extract`

* `fsutilAppend`: one call; `appendAll`: one call after the other.  The position on the device is
  carried from call to call.
* `extract`: the sector walk of `fsutil_extract`.  What the files become in the file system is not
  of interest here; the walk returns names and contents.
* `Laid`: the files lie on the device from a position on.  The walk reads what is laid
  (`extract_laid`), and appending lays (`append_laid`).
* `Reads`: the archive reads back and ends in two sectors of zeros.
* **`reads_appendAll_iff`**: for which devices and memory it does. -/

namespace Pintos.Fsutil

open Fields List UInt32 Ustar

/-- How a call panics. -/
inductive Panic
  | device (f : Fault)
  | nameTooLong
  | outOfSpace
  | badHeader (e : ParseError)
  /-- The walk was not followed to its end. -/
  | unfinished

/-- A file: its name and its contents. -/
structure FileData where
  name : Chars
  contents : List UInt8

def device {α : Type} (r : Except Fault α) : Except Panic α := r.mapError .device

/-- The contents of a buffer of one sector that begins with the given bytes and is zero behind
them. -/
def sectorOf (bytes : List UInt8) : Block := fun p => bytes.getD p.val 0

def zeroBlock : Block := fun _ => 0

/-- The 512 bytes at `buffer + 1`, where the buffer is all zeros: the last of them lies behind the
buffer. -/
def markerBlock (behind : UInt8) : Block := fun p => if p.val = 511 then behind else 0

/-- The loop of `fsutil_append` that copies the file. -/
def appendLoop (d : Disk) (sector : Sector) (contents : List UInt8) :
    Except Panic (Disk × Sector) :=
  if _h : contents = [] then .ok (d, sector)
  else if d.size ≤ sector then .error .outOfSpace
  else do
    let d ← device (blockWrite d sector (sectorOf (contents.take 512)))
    appendLoop d (sector + 1) (contents.drop 512)
termination_by contents.length
decreasing_by
  have := length_pos_iff.mpr _h
  rw [length_drop]
  omega

/-- `fsutil_append`; `behind` is the byte in memory behind the buffer. -/
def fsutilAppend (d : Disk) (sector : Sector) (file : FileData) (behind : UInt8) :
    Except Panic (Disk × Sector) :=
  match makeHeader file.name .regular (Int32.ofNat file.contents.length) with
  | none => .error .nameTooLong
  | some header => do
    let d ← device (blockWrite d sector header)
    let (d, sector) ← appendLoop d (sector + 1) file.contents
    let d ← device (blockWrite d sector zeroBlock)
    let d ← device (blockWrite d sector (markerBlock behind))
    return (d, sector)

/-- The calls one after the other, from sector 0 on. -/
def appendAll (d : Disk) (sector : Sector) : List (FileData × UInt8) → Except Panic (Disk × Sector)
  | [] => .ok (d, sector)
  | (file, behind) :: rest => do
    let (d, sector) ← fsutilAppend d sector file behind
    appendAll d sector rest

/-- The loop of `fsutil_extract` that copies a file of the given size. -/
def extractLoop (d : Disk) (sector : Sector) (size : ℕ) : Except Panic (List UInt8 × Sector) :=
  if _h : size = 0 then .ok ([], sector)
  else do
    let b ← device (blockRead d sector)
    let (rest, sector) ← extractLoop d (sector + 1) (size - 512)
    return (slice (bytesOf b) 0 (min size 512) ++ rest, sector)
termination_by size
decreasing_by omega

/-- What `fsutil_extract` does with a header in the sector before `sector`; `go` reads on. -/
def extractMember (d : Disk) (go : Sector → Except Panic (List FileData × Sector))
    (sector : Sector) : Except ParseError Parsed → Except Panic (List FileData × Sector)
  | .error e => .error (.badHeader e)
  | .ok .eof => .ok ([], sector - 1)
  | .ok (.member _ .directory _) => go sector
  | .ok (.member name .regular size) =>
    (extractLoop d sector size.toUInt32.toNat).bind fun r =>
      (go r.2).map fun r' => (⟨name, r.1⟩ :: r'.1, r'.2)

/-- The walk of `fsutil_extract`, for at most `n` headers: the files, and the sector at which the
end of the archive was found. -/
def extract (d : Disk) : ℕ → Sector → Except Panic (List FileData × Sector)
  | 0, _ => .error .unfinished
  | n + 1, sector =>
    (device (blockRead d sector)).bind fun b =>
      extractMember d (extract d n) (sector + 1) (parseHeader b)

/-! ### Sectors by number -/

/-- Sector `n` of the device. -/
def blockAt (d : Disk) (n : ℕ) : Block := d.sectors (ofNat n)

variable {d d' : Disk} {n lo hi : ℕ} {f : FileData} {contents : List UInt8}

theorem ofNat_lt_size (h : n < d.size.toNat) : ofNat n < d.size := by
  rw [lt_iff_toNat_lt, toNat_ofNat']
  omega

theorem ofNat_inj {m : ℕ} (hm : m < 2 ^ 32) (hn : n < 2 ^ 32) (h : ofNat m = ofNat n) : m = n := by
  have hnat := congrArg toNat h
  rw [toNat_ofNat', toNat_ofNat'] at hnat
  omega

theorem ofNat_succ (n : ℕ) : ofNat n + 1 = ofNat (n + 1) := by
  rw [ofNat_add]
  rfl

/-- The two devices agree but for the sectors from `lo` up to `hi`. -/
structure Agree (d d' : Disk) (lo hi : ℕ) : Prop where
  size : d'.size = d.size
  same : ∀ m, m < 2 ^ 32 → m < lo ∨ hi ≤ m → blockAt d' m = blockAt d m

theorem Agree.refl (d : Disk) (lo hi : ℕ) : Agree d d lo hi := ⟨rfl, fun _ _ _ => rfl⟩

theorem Agree.trans {d1 d2 d3 : Disk} (h1 : Agree d1 d2 lo hi) (h2 : Agree d2 d3 lo hi) :
    Agree d1 d3 lo hi :=
  ⟨h2.size.trans h1.size, fun m hm ho => (h2.same m hm ho).trans (h1.same m hm ho)⟩

theorem Agree.mono {lo' hi' : ℕ} (h : Agree d d' lo hi) (hlo : lo' ≤ lo) (hhi : hi ≤ hi') :
    Agree d d' lo' hi' :=
  ⟨h.size, fun m hm ho => h.same m hm (by omega)⟩

theorem blockWrite_spec (h : n < d.size.toNat) (b : Block) :
    ∃ d', device (blockWrite d (ofNat n) b) = .ok d' ∧ Agree d d' n (n + 1) ∧
      blockAt d' n = b := by
  have hsize := d.size.toNat_lt
  refine ⟨d.write (ofNat n) b, ?_, ⟨rfl, fun m hm ho => ?_⟩, ?_⟩
  · rw [blockWrite_ok (ofNat_lt_size h)]
    rfl
  · have hne : ofNat m ≠ ofNat n := fun he =>
      absurd (ofNat_inj hm (by omega) he) (by omega)
    exact Function.update_of_ne hne b d.sectors
  · exact Function.update_self _ _ _

theorem blockRead_spec (h : n < d.size.toNat) :
    device (blockRead d (ofNat n)) = .ok (blockAt d n) := by
  rw [blockRead_ok (ofNat_lt_size h)]
  rfl

/-! ### The contents of a file -/

/-- The sectors that the contents of a file take. -/
def sectorCount (size : ℕ) : ℕ := (size + 511) / 512

/-- The contents lie on the device from sector `n` on. -/
def HoldsData (d : Disk) (n : ℕ) (contents : List UInt8) : Prop :=
  ∀ i < sectorCount contents.length,
    blockAt d (n + i) = sectorOf ((contents.drop (512 * i)).take 512)

theorem sectorCount_drop (h : contents ≠ []) :
    sectorCount contents.length = sectorCount (contents.drop 512).length + 1 := by
  have hpos := length_pos_iff.mpr h
  unfold sectorCount
  rw [length_drop]
  omega

theorem holdsData_iff (h : contents ≠ []) :
    HoldsData d n contents ↔
      blockAt d n = sectorOf (contents.take 512) ∧ HoldsData d (n + 1) (contents.drop 512) := by
  unfold HoldsData
  rw [sectorCount_drop h, Nat.forall_lt_succ_left]
  simp only [Nat.mul_zero, drop_zero, Nat.add_zero, drop_drop]
  refine and_congr_right fun _ => forall₂_congr fun i _ => ?_
  rw [show n + (i + 1) = n + 1 + i by omega, show 512 * (i + 1) = 512 + 512 * i by omega]

theorem HoldsData.of_agree (h : HoldsData d n contents) (ha : Agree d d' lo hi)
    (hn : n + sectorCount contents.length ≤ lo) (hlo : lo ≤ 2 ^ 32) : HoldsData d' n contents := by
  intro i hi'
  rw [ha.same _ (by omega) (by omega)]
  exact h i hi'

theorem appendLoop_spec (contents : List UInt8) (d : Disk) (n : ℕ)
    (h : n + sectorCount contents.length ≤ d.size.toNat) :
    ∃ d', appendLoop d (ofNat n) contents =
        .ok (d', ofNat (n + sectorCount contents.length)) ∧
      Agree d d' n (n + sectorCount contents.length) ∧ HoldsData d' n contents := by
  induction hl : contents.length using Nat.strong_induction_on generalizing contents d n with
  | _ l ih =>
    subst hl
    rw [appendLoop]
    by_cases he : contents = []
    · subst he
      exact ⟨d, by simp [sectorCount], .refl _ _ _, fun i hi => absurd hi (by simp [sectorCount])⟩
    · have hcount := sectorCount_drop he
      have hpos := length_pos_iff.mpr he
      have hlt : n < d.size.toNat := by omega
      obtain ⟨d1, hw, ha1, hb⟩ := blockWrite_spec hlt (sectorOf (contents.take 512))
      have hshort : (contents.drop 512).length < contents.length := by
        rw [length_drop]
        omega
      obtain ⟨d2, hloop, ha2, hdata⟩ := ih _ hshort (contents.drop 512) d1 (n + 1)
        (by rw [ha1.size]; omega) rfl
      refine ⟨d2, ?_, ?_, (holdsData_iff he).mpr ⟨?_, hdata⟩⟩
      · rw [dif_neg he, if_neg (UInt32.not_le.mpr (ofNat_lt_size hlt)), hw, ofNat_succ, hcount,
          show n + (sectorCount (contents.drop 512).length + 1) =
            n + 1 + sectorCount (contents.drop 512).length by omega]
        exact hloop
      · exact (ha1.mono le_rfl (by omega)).trans (ha2.mono (by omega) (by omega))
      · have hsize := d.size.toNat_lt
        rw [ha2.same n (by omega) (by omega), hb]

theorem slice_sectorOf {bytes : List UInt8} (h : bytes.length ≤ 512) :
    slice (bytesOf (sectorOf bytes)) 0 bytes.length = bytes := by
  apply ext_getElem
  · simp
  · intro i h1 h2
    simp only [slice, getElem_map, getElem_range, Nat.zero_add]
    rw [bytesOf, dif_pos (by omega), sectorOf, getD_eq_getElem _ _ h2]

/-- The contents are read back. -/
theorem extractLoop_spec (contents : List UInt8) (n : ℕ)
    (h : n + sectorCount contents.length ≤ d.size.toNat) (hdata : HoldsData d n contents) :
    extractLoop d (ofNat n) contents.length =
      .ok (contents, ofNat (n + sectorCount contents.length)) := by
  induction hl : contents.length using Nat.strong_induction_on generalizing contents n with
  | _ l ih =>
    subst hl
    rw [extractLoop]
    by_cases he : contents = []
    · subst he
      simp [sectorCount]
    · have hcount := sectorCount_drop he
      have hpos := length_pos_iff.mpr he
      have hshort : (contents.drop 512).length < contents.length := by
        rw [length_drop]
        omega
      obtain ⟨hblock, hrest⟩ := (holdsData_iff he).mp hdata
      have hloop := ih _ hshort (contents.drop 512) (n + 1) (by omega) hrest rfl
      rw [length_drop] at hloop
      have htake : (contents.take 512).length = min contents.length 512 := by
        rw [length_take, Nat.min_comm]
      rw [dif_neg (by omega), blockRead_spec (by omega), hblock, ofNat_succ]
      change (extractLoop d (ofNat (n + 1)) (contents.length - 512) >>= fun r =>
        Except.ok (slice (bytesOf (sectorOf (contents.take 512))) 0 (min contents.length 512) ++ r.1,
          r.2)) = _
      rw [hloop, ← htake, slice_sectorOf (by rw [htake]; omega)]
      change Except.ok (contents.take 512 ++ contents.drop 512, _) = _
      rw [take_append_drop, hcount, length_drop,
        show n + 1 + sectorCount (contents.length - 512) =
          n + (sectorCount (contents.length - 512) + 1) by omega]

/-! ### Files on the device -/

/-- A file that can be archived: a string for a name that is not too long, and a size that fits
into an `int`. -/
structure Archivable (f : FileData) : Prop where
  noNull : 0 ∉ f.name
  size : f.contents.length < 2 ^ 31
  header : ∃ b, makeHeader f.name .regular (Int32.ofNat f.contents.length) = some b

/-- The file as it is read back. -/
def archived (f : FileData) : FileData := ⟨stripAntisocialPrefixes f.name, f.contents⟩

/-- The sectors that a file takes, with its header. -/
def fileSectors (f : FileData) : ℕ := 1 + sectorCount f.contents.length

/-- The sectors that the files take. -/
def total (files : List FileData) : ℕ := (files.map fileSectors).sum

theorem total_cons (f : FileData) (files : List FileData) :
    total (f :: files) = fileSectors f + total files := by
  simp [total]

/-- One file lies on the device from sector `n` on. -/
def LaidFile (d : Disk) (n : ℕ) (f : FileData) : Prop :=
  makeHeader f.name .regular (Int32.ofNat f.contents.length) = some (blockAt d n) ∧
    HoldsData d (n + 1) f.contents

/-- The files lie on the device from sector `n` on. -/
def Laid (d : Disk) : ℕ → List FileData → Prop
  | _, [] => True
  | n, f :: files => LaidFile d n f ∧ Laid d (n + fileSectors f) files

theorem LaidFile.of_agree (h : LaidFile d n f) (ha : Agree d d' lo hi) (hn : n + fileSectors f ≤ lo)
    (hlo : lo ≤ 2 ^ 32) : LaidFile d' n f := by
  unfold fileSectors at hn
  refine ⟨?_, h.2.of_agree ha (by omega) hlo⟩
  rw [ha.same n (by omega) (by omega)]
  exact h.1

theorem toNat_ofNat_size {size : ℕ} (h : size < 2 ^ 31) :
    (Int32.ofNat size).toUInt32.toNat = size := by
  change (BitVec.ofNat 32 size).toNat = size
  rw [BitVec.toNat_ofNat]
  omega

theorem ofNat_size_nonneg {size : ℕ} (h : size < 2 ^ 31) : 0 ≤ Int32.ofNat size := by
  rw [Int32.le_iff_toInt_le, Int32.toInt_ofNat_of_lt (by omega)]
  exact Int.natCast_nonneg size

theorem parseHeader_laid (hf : Archivable f) (h : LaidFile d n f) :
    parseHeader (blockAt d n) =
      .ok (.member (archived f).name .regular (Int32.ofNat f.contents.length)) := by
  obtain ⟨hname, hb⟩ := makeHeader_eq_some h.1
  rw [hb]
  exact parseHeader_headerBytes hname (zero_notMem_strip hf.noNull) (strip_strip f.name)
    (ofNat_size_nonneg hf.size)

/-- One round of the walk, at the header of a file. -/
theorem extract_laidFile (n k : ℕ) (hf : Archivable f) (hroom : n + fileSectors f ≤ d.size.toNat)
    (h : LaidFile d n f) :
    extract d (k + 1) (ofNat n) =
      (extract d k (ofNat (n + fileSectors f))).map fun r => (archived f :: r.1, r.2) := by
  have hn : n < d.size.toNat := by
    unfold fileSectors at hroom
    omega
  have hend : n + 1 + sectorCount f.contents.length = n + fileSectors f := by
    unfold fileSectors
    omega
  have hloop := extractLoop_spec f.contents (n + 1) (by omega) h.2
  rw [hend] at hloop
  rw [extract, blockRead_spec hn, Except.bind, parseHeader_laid hf h, ofNat_succ, extractMember,
    toNat_ofNat_size hf.size, hloop]
  rfl

/-- The walk reads what is laid. -/
theorem extract_laid (files : List FileData) (n k : ℕ) (hf : ∀ f ∈ files, Archivable f)
    (hroom : n + total files ≤ d.size.toNat) (h : Laid d n files) :
    extract d (files.length + k) (ofNat n) =
      (extract d k (ofNat (n + total files))).map fun r =>
        (files.map archived ++ r.1, r.2) := by
  induction files generalizing n with
  | nil =>
    simp only [length_nil, Nat.zero_add, total, map_nil, sum_nil, Nat.add_zero,
      nil_append]
    cases extract d k (ofNat n) <;> rfl
  | cons f files ih =>
    obtain ⟨hfile, hrest⟩ := h
    rw [total_cons] at hroom
    have hih := ih (n + fileSectors f) (fun f' hf' => hf f' (mem_cons_of_mem f hf'))
      (by omega) hrest
    rw [length_cons, Nat.add_right_comm,
      extract_laidFile n _ (hf f mem_cons_self) (by omega) hfile, hih, total_cons,
      Nat.add_assoc]
    cases extract d k (ofNat (n + (fileSectors f + total files))) <;> rfl

/-! ### Appending -/

theorem append_spec (n : ℕ) (hf : Archivable f) (hroom : n + fileSectors f < d.size.toNat)
    (behind : UInt8) :
    ∃ d', fsutilAppend d (ofNat n) f behind = .ok (d', ofNat (n + fileSectors f)) ∧
      Agree d d' n (n + fileSectors f + 1) ∧ LaidFile d' n f ∧
      blockAt d' (n + fileSectors f) = markerBlock behind := by
  have hsize := d.size.toNat_lt
  have hend : n + 1 + sectorCount f.contents.length = n + fileSectors f := by
    unfold fileSectors
    omega
  obtain ⟨b, hb⟩ := hf.header
  obtain ⟨d1, hw1, ha1, hb1⟩ := blockWrite_spec (show n < d.size.toNat by omega) b
  obtain ⟨d2, hloop, ha2, hdata⟩ := appendLoop_spec f.contents d1 (n + 1)
    (by rw [ha1.size]; omega)
  rw [hend] at hloop ha2
  obtain ⟨d3, hw3, ha3, -⟩ := blockWrite_spec (d := d2) (n := n + fileSectors f)
    (by rw [ha2.size, ha1.size]; exact hroom) zeroBlock
  obtain ⟨d4, hw4, ha4, hb4⟩ := blockWrite_spec (d := d3) (n := n + fileSectors f)
    (by rw [ha3.size, ha2.size, ha1.size]; exact hroom) (markerBlock behind)
  have hmarker : Agree d2 d4 (n + fileSectors f) (n + fileSectors f + 1) := ha3.trans ha4
  refine ⟨d4, ?_, ?_, ⟨?_, ?_⟩, hb4⟩
  · simp only [fsutilAppend, hb, bind, Except.bind, hw1, ofNat_succ, hloop, hw3, hw4]
    rfl
  · exact ((ha1.mono le_rfl (by omega)).trans (ha2.mono (by omega) (by omega))).trans
      (hmarker.mono (by omega) le_rfl)
  · rw [hmarker.same n (by omega) (by omega), ha2.same n (by omega) (by omega), hb1]
    exact hb
  · exact hdata.of_agree hmarker (by omega) (by omega)

/-- The byte behind the buffer at the last call. -/
def lastBehind (calls : List (FileData × UInt8)) : Option UInt8 := (calls.getLast?).map (·.2)

/-- The calls lay their files one behind the other, and touch nothing behind the last sector they
write. -/
theorem appendAll_spec (calls : List (FileData × UInt8)) (d : Disk) (n : ℕ)
    (hf : ∀ f ∈ calls.map (·.1), Archivable f)
    (hroom : n + total (calls.map (·.1)) < d.size.toNat) :
    ∃ d', appendAll d (ofNat n) calls =
        .ok (d', ofNat (n + total (calls.map (·.1)))) ∧
      Agree d d' n (n + total (calls.map (·.1)) + 1) ∧ Laid d' n (calls.map (·.1)) ∧
      (calls = [] → d' = d) ∧
      ∀ b ∈ lastBehind calls, blockAt d' (n + total (calls.map (·.1))) = markerBlock b := by
  have hsize := d.size.toNat_lt
  induction calls generalizing d n with
  | nil => exact ⟨d, rfl, .refl _ _ _, trivial, fun _ => rfl, fun b hb => (by cases hb)⟩
  | cons call calls ih =>
    obtain ⟨f, behind⟩ := call
    simp only [map_cons, total_cons] at hf hroom ⊢
    obtain ⟨d1, happend, ha1, hlaid, hmarker⟩ := append_spec n (hf f mem_cons_self)
      (show n + fileSectors f < d.size.toNat by omega) behind
    obtain ⟨d2, hall, ha2, hlaid2, hnil, hlast⟩ := ih d1 (n + fileSectors f)
      (fun f' hf' => hf f' (mem_cons_of_mem f hf')) (by rw [ha1.size]; omega)
      d1.size.toNat_lt
    refine ⟨d2, ?_, ?_, ⟨?_, hlaid2⟩, fun h => absurd h (cons_ne_nil _ _), ?_⟩
    · rw [← Nat.add_assoc]
      simp only [appendAll, happend, bind, Except.bind]
      exact hall
    · exact (ha1.mono le_rfl (by omega)).trans (ha2.mono (by omega) (by omega))
    · exact hlaid.of_agree ha2 le_rfl (by omega)
    · intro b hb
      rw [← Nat.add_assoc]
      cases calls with
      | nil =>
        obtain rfl : behind = b := Option.some.inj hb
        rw [hnil rfl]
        exact hmarker
      | cons call' calls => exact hlast b hb

/-! ### Reading the archive -/

/-- The archive reads back as the given files, and ends in two sectors of zeros. -/
def Reads (d : Disk) (files : List FileData) : Prop :=
  ∃ e, e + 1 < d.size.toNat ∧
    (∀ k, files.length < k → extract d k 0 = .ok (files.map archived, ofNat e)) ∧
    blockAt d e = zeroBlock ∧ blockAt d (e + 1) = zeroBlock

theorem parseHeader_zeroBlock : parseHeader zeroBlock = .ok .eof := by
  decide +kernel

theorem markerBlock_zero : markerBlock 0 = zeroBlock := by
  funext p
  exact ite_self 0

/-- A byte behind the buffer that is not zero makes the marker a header that is none. -/
theorem parseHeader_markerBlock {b : UInt8} (h : b ≠ 0) :
    parseHeader (markerBlock b) = .error .notUstar := by
  have hall : ¬ ∀ p : Fin 512, markerBlock b p = 0 := fun h0 => h (h0 ⟨511, by decide⟩)
  have hmagic : slice (bytesOf (markerBlock b)) 257 6 = [0, 0, 0, 0, 0, 0] := rfl
  unfold parseHeader
  rw [if_neg hall, hmagic, if_pos (by decide)]

/-- Files that are laid, with a marker behind them, read back exactly if the marker is two sectors
of zeros. -/
theorem reads_iff {files : List FileData} {b : UInt8} (hf : ∀ f ∈ files, Archivable f)
    (hroom : total files + 2 ≤ d.size.toNat) (hlaid : Laid d 0 files)
    (hmarker : blockAt d (total files) = markerBlock b) :
    Reads d files ↔ b = 0 ∧ blockAt d (total files + 1) = zeroBlock := by
  have hsize := d.size.toNat_lt
  have hread : ∀ k, extract d (files.length + (k + 1)) 0 =
      (extractMember d (extract d k) (ofNat (total files) + 1)
        (parseHeader (markerBlock b))).map fun r => (files.map archived ++ r.1, r.2) := by
    intro k
    have h := extract_laid files 0 (k + 1) hf (by omega) hlaid
    rw [Nat.zero_add, extract, blockRead_spec (by omega), hmarker, Except.bind] at h
    rw [show (0 : Sector) = ofNat 0 from rfl, h]
  constructor
  · rintro ⟨e, he, hext, hzero, hnext⟩
    have hend := (hread 0).symm.trans (hext _ (by omega))
    have hb0 : b = 0 := by
      by_contra hne
      rw [parseHeader_markerBlock hne] at hend
      cases hend
    rw [hb0, markerBlock_zero, parseHeader_zeroBlock] at hend
    have hsector : ofNat (total files) + 1 - 1 = ofNat e :=
      (Prod.mk.inj (Except.ok.inj hend)).2
    rw [UInt32.add_sub_cancel] at hsector
    have hpos : total files = e := ofNat_inj (by omega) (by omega) hsector
    exact ⟨hb0, hpos ▸ hnext⟩
  · rintro ⟨hb0, hnext⟩
    rw [hb0, markerBlock_zero] at hmarker
    refine ⟨total files, by omega, fun k hk => ?_, hmarker, hnext⟩
    obtain ⟨j, rfl⟩ : ∃ j, k = files.length + (j + 1) := ⟨k - files.length - 1, by omega⟩
    rw [hread j, hb0, markerBlock_zero, parseHeader_zeroBlock, extractMember, Except.map,
      UInt32.add_sub_cancel, append_nil]

/-- For which devices and memory the archive reads back: the byte behind the buffer is zero at the
last call, and so is the sector behind the one that the last call writes as a marker.  Where
nothing is appended, the device itself has to read as an empty archive. -/
def EndsWell (d : Disk) (calls : List (FileData × UInt8)) : Prop :=
  match lastBehind calls with
  | none => Reads d []
  | some b => b = 0 ∧ blockAt d (total (calls.map (·.1)) + 1) = zeroBlock

/-- **The archive round trip.**  The calls succeed on a device that is large enough, and the
archive reads back exactly if it ends well. -/
theorem reads_appendAll_iff (d : Disk) (calls : List (FileData × UInt8))
    (hf : ∀ f ∈ calls.map (·.1), Archivable f)
    (hroom : total (calls.map (·.1)) + 2 ≤ d.size.toNat) :
    ∃ d' e, appendAll d 0 calls = .ok (d', e) ∧
      (Reads d' (calls.map (·.1)) ↔ EndsWell d calls) := by
  have hsize := d.size.toNat_lt
  obtain ⟨d', hall, ha, hlaid, hnil, hlast⟩ := appendAll_spec calls d 0 hf (by omega)
  rw [Nat.zero_add] at hall ha hlast
  refine ⟨d', _, hall, ?_⟩
  unfold EndsWell
  cases hb : lastBehind calls with
  | none =>
    have hempty : calls = [] := by
      rw [lastBehind, Option.map_eq_none_iff, List.getLast?_eq_none_iff] at hb
      exact hb
    subst hempty
    rw [hnil rfl]
    rfl
  | some b =>
    rw [reads_iff hf (by rw [ha.size]; exact hroom) hlaid (hlast b hb),
      ha.same _ (by omega) (by omega)]

/-! ### One empty file -/

/-- A device of ten sectors of zeros. -/
def blank : Disk := ⟨10, fun _ => zeroBlock⟩

/-- An empty file `a`. -/
def emptyFile : FileData := ⟨[97], []⟩

theorem archivable_emptyFile : Archivable emptyFile := by
  refine ⟨by decide, by decide, ?_⟩
  have hstrip : stripAntisocialPrefixes [97] = [97] := by
    decide +kernel
  unfold emptyFile makeHeader
  rw [hstrip]
  exact ⟨_, if_neg (by decide)⟩

theorem forall_archivable (behind : UInt8) :
    ∀ f ∈ [(emptyFile, behind)].map (·.1), Archivable f := by
  intro f hf
  rw [mem_singleton.mp hf]
  exact archivable_emptyFile

/-- The archive reads back if the byte behind the buffer happens to be zero. -/
theorem reads_appendAll_blank :
    ∃ d' e, appendAll blank 0 [(emptyFile, 0)] = .ok (d', e) ∧ Reads d' [emptyFile] := by
  obtain ⟨d', e, hall, hiff⟩ :=
    reads_appendAll_iff blank [(emptyFile, 0)] (forall_archivable 0) (by decide)
  exact ⟨d', e, hall, hiff.mpr ⟨rfl, rfl⟩⟩

/-- Any other byte behind the buffer ends up in the marker, and the walk stops at a bad header. -/
theorem not_reads_appendAll :
    ∃ d' e, appendAll blank 0 [(emptyFile, 1)] = .ok (d', e) ∧ ¬ Reads d' [emptyFile] := by
  obtain ⟨d', hall, ha, hlaid, -, hlast⟩ :=
    appendAll_spec [(emptyFile, 1)] blank 0 (forall_archivable 1) (by decide)
  refine ⟨d', _, hall, fun h => ?_⟩
  have hb := (reads_iff (forall_archivable 1) (by rw [ha.size]; decide) hlaid
    (hlast 1 rfl)).mp h
  exact absurd hb.1 (by decide)

end Pintos.Fsutil

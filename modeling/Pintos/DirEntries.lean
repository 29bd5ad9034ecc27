import Pintos.Directory
import Pintos.FileRead
import Pintos.FreeMap

/-! # The entries of a directory

What `lookup` and `dir_add` do to a directory that is a well-formed file.

* Entry `i` of the directory in sector `s` is `entryAt d s i`; the entries below `slotCount d s` are
  those that can be read.
* The loops over the entries stop at the first entry of a kind, or at the end of the directory
  (`scanEntries_found`, `scanEntries_end`); they do not return when they come to block 252
  (`not_ensures_scanEntries`).
* `dir_add` returns false, and changes nothing, if the name is invalid or listed, or writes to the
  directory are denied (`dirAdd_refuses`), and otherwise returns true if it returns
  (`always_dirAdd`). -/

namespace Pintos

open List

namespace Entry

/-- The entry is in use and has the name. -/
def holds (e : Entry) (name : CString) : Bool := e.inUse && e.named name

/-- The two entries have the same bytes. -/
def Same (e e' : Entry) : Prop := ∀ p < entrySize, e p = e' p

theorem Same.inUse_eq {e e' : Entry} (h : e.Same e') : e.inUse = e'.inUse := by
  rw [inUse, inUse, h 28 (by decide)]

theorem Same.inodeSector_eq {e e' : Entry} (h : e.Same e') : e.inodeSector = e'.inodeSector := by
  unfold inodeSector
  congr 1
  funext k
  exact h k.val (by simp only [entrySize]; omega)

theorem Same.holds_eq {e e' : Entry} (h : e.Same e') {name : CString}
    (hname : name.length ≤ nameMax) : e.holds name = e'.holds name := by
  have hmap : (List.range (name.length + 1)).map (fun i => e (4 + i)) =
      (List.range (name.length + 1)).map (fun i => e' (4 + i)) := by
    refine map_congr_left fun i hi => h _ ?_
    have hi := mem_range.mp hi
    simp only [nameMax] at hname
    simp only [entrySize]
    omega
  rw [holds, holds, h.inUse_eq, named, named, hmap]

/-- The name of the entry ends within its 15 bytes. -/
def Terminated (e : Entry) : Prop := ∃ k ≤ nameMax, e (4 + k) = 0

theorem Same.terminated {e e' : Entry} (h : e.Same e') (ht : e'.Terminated) : e.Terminated := by
  obtain ⟨k, hk, hzero⟩ := ht
  refine ⟨k, hk, ?_⟩
  rw [h (4 + k) (by simp only [nameMax] at hk; simp only [entrySize]; omega), hzero]

/-! ### The entry that `dir_add` writes -/

section

variable {e : Entry} {other : CString}

theorem named_iff : e.named other = true ↔
    (∀ (i : ℕ) (h : i < other.length), e (4 + i) = other[i]) ∧ e (4 + other.length) = 0 := by
  rw [named, beq_iff_eq, range_succ, map_append]
  constructor
  · intro heq
    obtain ⟨hchars, hend⟩ := append_inj heq (by simp)
    refine ⟨fun i hi => ?_, List.cons.inj hend |>.1⟩
    have := congrArg (·[i]?) hchars
    simpa [hi] using this
  · rintro ⟨hchars, hend⟩
    have hmap : (List.range other.length).map (fun i => e (4 + i)) = other :=
      ext_getElem (by simp) fun i h1 h2 => by simpa using hchars i h2
    rw [hmap, map_singleton, hend]

theorem Terminated.not_named (h : e.Terminated) (hzero : 0 ∉ other) (hlen : nameMax < other.length) :
    e.named other = false := by
  obtain ⟨k, hk, hend⟩ := h
  rw [Bool.eq_false_iff, ne_eq, named_iff]
  rintro ⟨hchars, -⟩
  have hlt : k < other.length := lt_of_le_of_lt hk hlen
  rw [hchars k hlt] at hend
  exact hzero (hend ▸ getElem_mem hlt)

end

end Entry

namespace Fs

open Interaction Paging

/-! ### Reading -/

/-- Sectors were read, and local variables declared. -/
structure Reads (fs fs' : Fs) : Prop where
  store : fs'.store = fs.store
  freeMap : fs'.freeMap = fs.freeMap
  file : fs'.freeMapFile = fs.freeMapFile

namespace Reads

variable {fs fs' fs'' : Fs}

theorem refl (fs : Fs) : Reads fs fs := ⟨rfl, rfl, rfl⟩

theorem trans (h : Reads fs fs') (h' : Reads fs' fs'') : Reads fs fs'' :=
  ⟨h'.store.trans h.store, h'.freeMap.trans h.freeMap, h'.file.trans h.file⟩

theorem of_touches {T : Set Sector} (h : Touches ∅ T fs fs') : Reads fs fs' :=
  ⟨h.store_eq, h.freeMap_eq, h.freeMapFile_eq⟩

theorem marked_iff (h : Reads fs fs') (t : Sector) : Marked fs' t ↔ Marked fs t := by
  rw [Marked, h.freeMap, Marked]

theorem mapOk (h : Reads fs fs') (hok : MapOk fs) :
    MapOk fs' ∧ mapTree fs' = mapTree fs ∧ mapData fs' = mapData fs :=
  hok.congr (by rw [h.store]) h.file (by rw [h.freeMap]) (fun t _ _ => by rw [h.store])
    fun t ht => (h.marked_iff t).mpr (hok.marked ht)

theorem mapSmall (h : Reads fs fs') (hsmall : MapSmall fs) : MapSmall fs' := by
  unfold MapSmall
  rw [h.file, h.freeMap]
  exact hsmall

theorem fileOk (h : Reads fs fs') {s : Sector} (hfile : FileOk fs s) : FileOk fs' s := by
  have hst := h.store
  exact ⟨hst ▸ hfile.length_nonneg, hst ▸ hfile.nodup, hst ▸ hfile.valid⟩

end Reads

theorem ensures_uninitEntry {fs : Fs} {Q : Entry → Fs → Prop}
    (h : ∀ e fs', Reads fs fs' → Q e fs') : Ensures diskHandler uninitEntry fs Q := by
  rw [uninitEntry, ensures_bind, ensures_uninit, ensures_ret]
  exact h _ _ ⟨rfl, rfl, rfl⟩

/-! ### Entries -/

/-- Entry `i` of the directory in sector `s`. -/
def entryAt (d : Sector → Block) (s : Sector) (i : ℕ) : Entry :=
  fun p => fileBytes d s (entrySize * i + p)

/-- The number of entries of the directory that can be read: those in its first 252 blocks, and none
if `inode_read_at` refuses the sector. -/
def slotCount (d : Sector → Block) (s : Sector) : ℕ :=
  if s ≤ 20000000 then min (inodeAt d s).length.toInt.toNat (252 * 512) / entrySize else 0

/-- The loops over the entries come to block 252 when they do not stop before. -/
def Endless (d : Sector → Block) (s : Sector) : Prop :=
  s ≤ 20000000 ∧ 252 * 512 < (inodeAt d s).length.toInt

/-- The directory has an entry with the name. -/
def Listed (d : Sector → Block) (s : Sector) (name : CString) : Prop :=
  ∃ i < slotCount d s, (entryAt d s i).holds name = true

/-- A search for the name ends, at the name or at the end of the directory. -/
def Searchable (d : Sector → Block) (s : Sector) (name : CString) : Prop :=
  Listed d s name ∨ ¬ Endless d s

/-- The entry that a search for the name finds. -/
def entryNamed (d : Sector → Block) (s : Sector) (name : CString) : Option Entry :=
  ((List.range (slotCount d s)).find? fun i => (entryAt d s i).holds name).map (entryAt d s)

/-- The inode with the name; no entry has a name that is too long. -/
def child (d : Sector → Block) (s : Sector) (name : CString) : Option Sector :=
  if name.length ≤ nameMax then (entryNamed d s name).map Entry.inodeSector else none

section

variable {fs : Fs} {inode : Inode} (hfile : FileOk fs inode.sector)

include hfile

theorem readEntry_slot (e : Entry) {i : ℕ} (hi : i < slotCount fs.store.sectors inode.sector) :
    Ensures diskHandler (readEntry inode e ((entrySize * i : ℕ) : ℤ)) fs (fun r fs' =>
      r.1 = true ∧ r.2.Same (entryAt fs.store.sectors inode.sector i) ∧ Reads fs fs') := by
  have hsector : inode.sector ≤ 20000000 := by
    by_contra hgt
    rw [slotCount, if_neg hgt] at hi
    omega
  rw [slotCount, if_pos hsector, entrySize] at hi
  rw [readEntry, ensures_bind]
  refine (inodeReadAt_spec e (n := entrySize) hfile hsector (fun _ => ?_) ?_).mono ?_
  · simp only [entrySize]
    omega
  · simp only [entrySize]
    omega
  · rintro r fs' ⟨hr, hbytes, ht⟩
    rw [ensures_ret]
    refine ⟨decide_eq_true hr, fun p hp => ?_, .of_touches ht⟩
    have hlen : ((entrySize * i + p : ℕ) : ℤ) <
        (inodeAt fs.store.sectors inode.sector).length.toInt := by
      simp only [entrySize] at hp ⊢
      omega
    have hblock := div_lt_blockCount hlen
    rw [hbytes p hp, entryAt, fileBytes, if_pos]
    rw [blocksAt]
    omega

theorem readEntry_end (e : Entry) (hend : ¬ Endless fs.store.sectors inode.sector) :
    Ensures diskHandler (readEntry inode e
      ((entrySize * slotCount fs.store.sectors inode.sector : ℕ) : ℤ)) fs (fun r fs' =>
      r.1 = false ∧ Reads fs fs') := by
  by_cases hsector : inode.sector ≤ 20000000
  · have hlen : (inodeAt fs.store.sectors inode.sector).length.toInt ≤ 252 * 512 :=
      not_lt.mp fun hlt => hend ⟨hsector, hlt⟩
    rw [readEntry, ensures_bind, slotCount, if_pos hsector]
    refine (inodeReadAt_spec e hfile hsector (fun _ => ?_) rfl).mono ?_
    · omega
    · rintro r fs' ⟨hr, -, ht⟩
      rw [ensures_ret]
      refine ⟨decide_eq_false ?_, .of_touches ht⟩
      rw [hr]
      simp only [entrySize]
      omega
  · rw [readEntry, ensures_bind, inodeReadAt, if_pos (UInt32.not_le.mp hsector), ensures_ret,
      ensures_ret]
    exact ⟨rfl, .refl fs⟩

omit hfile in
theorem not_ensures_readEntry (e : Entry) (hend : Endless fs.store.sectors inode.sector)
    {Q : Bool × Entry → Fs → Prop} : ¬ Ensures diskHandler (readEntry inode e
      ((entrySize * slotCount fs.store.sectors inode.sector : ℕ) : ℤ)) fs Q := by
  obtain ⟨hsector, hlen⟩ := hend
  have hofs : entrySize * slotCount fs.store.sectors inode.sector = 252 * 512 := by
    rw [slotCount, if_pos hsector, entrySize]
    omega
  rw [readEntry, ensures_bind, inodeReadAt, if_neg (UInt32.not_lt.mpr hsector), ensures_bind, hofs]
  by_cases hs : inode.sector < fs.store.size
  · have hin : ¬ (InodeDisk.decode (fs.store.sectors inode.sector)).length.toInt ≤
        ((252 * 512 : ℕ) : ℤ) := not_le.mpr hlen
    have hlen' : ((252 * 512 : ℕ) : ℤ) <
        (inodeAt (touch fs inode.sector).store.sectors inode.sector).length.toInt := hlen
    rw [ensures_cacheRead hs, if_neg hin, Int.toNat_natCast, entrySize, readLoop,
      if_pos (by decide), ensures_bind]
    exact not_ensures_byteToSector hlen' (by decide)
  · exact not_ensures_cacheRead (UInt32.not_lt.mp hs)

end

/-! ### The loops over the entries -/

/-- A loop that reads entries until one that `stop` holds of: whether it found one, and what `e` and
`ofs` are then. -/
def scanEntries (inode : Inode) (stop : Entry → Bool) : ℕ → Entry → ℕ → Prog fsSig (Bool × Entry × ℕ)
  | 0, e, ofs => pure (false, e, ofs)
  | fuel + 1, e, ofs => do
    let r ← readEntry inode e ofs
    if r.1 then
      if stop r.2 then pure (true, r.2, ofs)
      else scanEntries inode stop fuel r.2 (ofs + entrySize)
    else pure (false, r.2, ofs)

theorem lookupFrom_eq (inode : Inode) (name : CString) : ∀ (fuel : ℕ) (e : Entry) (ofs : ℕ),
    lookupFrom inode name fuel e ofs = (do
      let r ← scanEntries inode (fun e => e.holds name) fuel e ofs
      pure (if r.1 then some r.2 else none)) := by
  intro fuel
  induction fuel with
  | zero => exact fun _ _ => rfl
  | succ fuel ih =>
    intro e ofs
    rw [lookupFrom, scanEntries, bind_assoc]
    refine congrArg (readEntry inode e ofs >>= ·) (funext fun r => ?_)
    by_cases hread : r.1 = true
    · rw [if_pos hread, if_pos hread]
      by_cases hstop : (r.2.inUse && r.2.named name) = true
      · rw [if_pos hstop, if_pos (show r.2.holds name = true from hstop)]
        rfl
      · rw [if_neg hstop, if_neg (show ¬ r.2.holds name = true from hstop), ih]
    · rw [if_neg hread, if_neg hread]
      rfl

theorem freeSlotFrom_eq (inode : Inode) : ∀ (fuel : ℕ) (e : Entry) (ofs : ℕ),
    freeSlotFrom inode fuel e ofs = (do
      let r ← scanEntries inode (fun e => !e.inUse) fuel e ofs
      pure r.2) := by
  intro fuel
  induction fuel with
  | zero => exact fun _ _ => rfl
  | succ fuel ih =>
    intro e ofs
    rw [freeSlotFrom, scanEntries, bind_assoc]
    refine congrArg (readEntry inode e ofs >>= ·) (funext fun r => ?_)
    by_cases hread : r.1 = true
    · rw [if_pos hread, if_pos hread]
      cases huse : r.2.inUse with
      | true => exact ih _ _
      | false => rfl
    · rw [if_neg hread, if_neg hread]
      rfl

section

variable {inode : Inode} {stop : Entry → Bool} {fs : Fs} {i j fuel : ℕ}

/-- The bytes of an entry of the directory decide whether `stop` holds of it. -/
def Decided (d : Sector → Block) (s : Sector) (stop : Entry → Bool) : Prop :=
  ∀ i < slotCount d s, ∀ e, e.Same (entryAt d s i) → stop e = stop (entryAt d s i)

theorem scanEntries_skip : ∀ (n j : ℕ) (fs : Fs) (e : Entry), FileOk fs inode.sector →
    Decided fs.store.sectors inode.sector stop →
    j + n ≤ slotCount fs.store.sectors inode.sector →
    (∀ i, j ≤ i → i < j + n → stop (entryAt fs.store.sectors inode.sector i) = false) →
    ∃ e' fs', Reads fs fs' ∧ ∀ Q : Bool × Entry × ℕ → Fs → Prop,
      Ensures diskHandler (scanEntries inode stop (fuel + n) e (entrySize * j)) fs Q ↔
        Ensures diskHandler (scanEntries inode stop fuel e' (entrySize * (j + n))) fs' Q := by
  intro n
  induction n with
  | zero => exact fun j fs e _ _ _ _ => ⟨e, fs, .refl fs, fun Q => Iff.rfl⟩
  | succ n ih =>
    intro j fs e hfile hcongr hn hnot
    obtain ⟨r, fs1, ⟨hread, hsame, h1⟩, hbind⟩ :=
      (readEntry_slot hfile e (i := j) (by omega)).bind_iff
    obtain ⟨e', fs', h', hrest⟩ := ih (j + 1) fs1 r.2 (h1.fileOk hfile)
      (by rw [h1.store]; exact hcongr) (by rw [h1.store]; omega)
      (fun i hi hlt => by rw [h1.store]; exact hnot i (by omega) (by omega))
    refine ⟨e', fs', h1.trans h', fun Q => ?_⟩
    rw [← Nat.add_assoc, scanEntries, hbind, if_pos hread, hcongr j (by omega) _ hsame,
      hnot j le_rfl (by omega), if_neg Bool.false_ne_true, ← Nat.mul_succ, hrest,
      Nat.add_right_comm, Nat.add_assoc]

variable (hcongr : Decided fs.store.sectors inode.sector stop)

include hcongr

/-- **The loop stops** at the first entry that `stop` holds of. -/
theorem scanEntries_found (e : Entry) (hfile : FileOk fs inode.sector) (hji : j ≤ i)
    (hi : i < slotCount fs.store.sectors inode.sector)
    (hfirst : ∀ l, j ≤ l → l < i → stop (entryAt fs.store.sectors inode.sector l) = false)
    (hstop : stop (entryAt fs.store.sectors inode.sector i) = true)
    (hfuel : slotCount fs.store.sectors inode.sector ≤ fuel + j) :
    Ensures diskHandler (scanEntries inode stop fuel e (entrySize * j)) fs (fun r fs' =>
      r.1 = true ∧ r.2.1.Same (entryAt fs.store.sectors inode.sector i) ∧
        r.2.2 = entrySize * i ∧ Reads fs fs') := by
  obtain ⟨n, rfl⟩ := Nat.exists_eq_add_of_le hji
  obtain ⟨m, rfl⟩ : ∃ m, fuel = m + 1 + n := ⟨fuel - (n + 1), by omega⟩
  obtain ⟨e', fs1, h1, hskip⟩ := scanEntries_skip n j fs e hfile hcongr (by omega) hfirst
  rw [hskip, scanEntries, ensures_bind]
  refine (readEntry_slot (h1.fileOk hfile) e' (i := j + n) (by rw [h1.store]; exact hi)).mono ?_
  rintro r fs2 ⟨hread, hsame, h2⟩
  rw [h1.store] at hsame
  rw [if_pos hread, if_pos (by rw [hcongr _ hi _ hsame]; exact hstop), ensures_ret]
  exact ⟨rfl, hsame, rfl, h1.trans h2⟩

variable (e : Entry) (hfile : FileOk fs inode.sector)
  (hj : j ≤ slotCount fs.store.sectors inode.sector)
  (hnot : ∀ l, j ≤ l → l < slotCount fs.store.sectors inode.sector →
    stop (entryAt fs.store.sectors inode.sector l) = false)
  (hfuel : slotCount fs.store.sectors inode.sector < fuel + j)
include hfile hj hnot hfuel

theorem scanEntries_pass : ∃ m e' fs', Reads fs fs' ∧ ∀ Q : Bool × Entry × ℕ → Fs → Prop,
    Ensures diskHandler (scanEntries inode stop fuel e (entrySize * j)) fs Q ↔
      Ensures diskHandler (scanEntries inode stop (m + 1) e'
        (entrySize * slotCount fs.store.sectors inode.sector)) fs' Q := by
  obtain ⟨n, hn⟩ := Nat.exists_eq_add_of_le hj
  obtain ⟨m, rfl⟩ : ∃ m, fuel = m + 1 + n := ⟨fuel - (n + 1), by omega⟩
  rw [hn]
  exact ⟨m, scanEntries_skip n j fs e hfile hcongr hn.ge fun l hl hlt => hnot l hl (by omega)⟩

theorem scanEntries_end (hend : ¬ Endless fs.store.sectors inode.sector) :
    Ensures diskHandler (scanEntries inode stop fuel e (entrySize * j)) fs (fun r fs' =>
      r.1 = false ∧ r.2.2 = entrySize * slotCount fs.store.sectors inode.sector ∧ Reads fs fs') := by
  obtain ⟨m, e', fs1, h1, hskip⟩ := scanEntries_pass hcongr e hfile hj hnot hfuel
  rw [hskip, scanEntries, ensures_bind, ← h1.store]
  refine (readEntry_end (h1.fileOk hfile) e' (by rw [h1.store]; exact hend)).mono ?_
  rintro r fs2 ⟨hfalse, h2⟩
  rw [hfalse, if_neg Bool.false_ne_true, ensures_ret]
  exact ⟨rfl, rfl, h1.trans h2⟩

theorem not_ensures_scanEntries (hend : Endless fs.store.sectors inode.sector)
    {Q : Bool × Entry × ℕ → Fs → Prop} :
    ¬ Ensures diskHandler (scanEntries inode stop fuel e (entrySize * j)) fs Q := by
  obtain ⟨m, e', fs1, h1, hskip⟩ := scanEntries_pass hcongr e hfile hj hnot hfuel
  rw [hskip, scanEntries, ensures_bind, ← h1.store]
  exact not_ensures_readEntry e' (by rw [h1.store]; exact hend)

end

/-! ### `lookup` -/

/-- The names of the entries in use end in time. -/
def NamesEnd (d : Sector → Block) (s : Sector) : Prop :=
  ∀ i < slotCount d s, (entryAt d s i).inUse = true → (entryAt d s i).Terminated

theorem NamesEnd.holds_tooLong {d : Sector → Block} {s : Sector} {name : CString}
    (h : NamesEnd d s) (hzero : 0 ∉ name) (hlen : nameMax < name.length) {i : ℕ}
    (hi : i < slotCount d s) {e : Entry} (hsame : e.Same (entryAt d s i)) :
    e.holds name = false := by
  cases hused : e.inUse with
  | false => rw [Entry.holds, hused, Bool.false_and]
  | true =>
    have hend := hsame.terminated (h i hi (hsame.inUse_eq ▸ hused))
    rw [Entry.holds, hend.not_named hzero hlen, Bool.and_false]

theorem NamesEnd.not_listed {d : Sector → Block} {s : Sector} {name : CString}
    (h : NamesEnd d s) (hzero : 0 ∉ name) (hlen : nameMax < name.length) :
    ¬ Listed d s name := by
  rintro ⟨i, hi, hholds⟩
  rw [h.holds_tooLong hzero hlen hi fun _ _ => rfl] at hholds
  cases hholds

theorem NamesEnd.decided {d : Sector → Block} {s : Sector} {name : CString}
    (h : NamesEnd d s) (hzero : 0 ∉ name) : Decided d s fun e => e.holds name := by
  intro i hi e hsame
  rcases le_or_gt name.length nameMax with hlen | hlen
  · exact hsame.holds_eq hlen
  · exact (h.holds_tooLong hzero hlen hi hsame).trans
      (h.holds_tooLong hzero hlen hi fun _ _ => rfl).symm

theorem slotCount_lt_slotLimit (d : Sector → Block) (s : Sector) : slotCount d s < slotLimit := by
  simp only [slotCount, slotLimit, entrySize]
  split_ifs <;> omega

theorem slotCount_le (d : Sector → Block) (s : Sector) : slotCount d s ≤ 252 * 16 := by
  simp only [slotCount, entrySize]
  split_ifs <;> omega

section

variable {d : Sector → Block} {s : Sector} {name : CString}

theorem entryNamed_eq_some {i : ℕ} (hi : i < slotCount d s) (hholds : (entryAt d s i).holds name = true)
    (hfirst : ∀ l < i, (entryAt d s l).holds name = false) :
    entryNamed d s name = some (entryAt d s i) := by
  rw [entryNamed, List.find?_range_eq_some.mpr ⟨hholds, mem_range.mpr hi, fun l hl => by
    rw [hfirst l hl]; rfl⟩, Option.map_some]

theorem entryNamed_eq_none (h : ¬ Listed d s name) : entryNamed d s name = none := by
  rw [entryNamed, Option.map_eq_none_iff, List.find?_eq_none]
  exact fun i hi hholds => h ⟨i, mem_range.mp hi, hholds⟩

end

section

variable {fs : Fs} {inode : Inode} (hfile : FileOk fs inode.sector) {name : CString}
  (hname : name.length ≤ nameMax)

include hfile hname

/-- A name that is listed is found. -/
theorem lookup_listed (h : Listed fs.store.sectors inode.sector name) :
    Ensures diskHandler (lookup inode name) fs (fun r fs' => ∃ e i,
      r = some (e, entrySize * i) ∧ i < slotCount fs.store.sectors inode.sector ∧
      e.Same (entryAt fs.store.sectors inode.sector i) ∧
      entryNamed fs.store.sectors inode.sector name = some (entryAt fs.store.sectors inode.sector i) ∧
      Reads fs fs') := by
  obtain ⟨hi, hholds⟩ := Nat.find_spec h
  have hfirst : ∀ l < Nat.find h, (entryAt fs.store.sectors inode.sector l).holds name = false :=
    fun l hl => Bool.eq_false_iff.mpr fun hl' => Nat.find_min h hl ⟨hl.trans hi, hl'⟩
  generalize Nat.find h = i at hi hholds hfirst
  rw [lookup, ensures_bind]
  refine ensures_uninitEntry fun e fs1 h1 => ?_
  have hlimit := slotCount_lt_slotLimit fs.store.sectors inode.sector
  have hscan := scanEntries_found (i := i) (j := 0)
    (fun _ _ _ hsame => hsame.holds_eq hname) e (h1.fileOk hfile) (Nat.zero_le _)
    (by rw [h1.store]; exact hi) (fun l _ hl => by rw [h1.store]; exact hfirst l hl)
    (by rw [h1.store]; exact hholds) (by rw [h1.store]; exact hlimit.le)
  rw [lookupFrom_eq, ensures_bind]
  refine hscan.mono ?_
  rintro ⟨found, e', ofs⟩ fs2 ⟨hfound, hsame, hofs, h2⟩
  rw [h1.store] at hsame
  dsimp only at hfound hsame hofs
  rw [ensures_ret, if_pos hfound, hofs]
  exact ⟨e', i, rfl, hi, hsame, entryNamed_eq_some hi hholds hfirst, h1.trans h2⟩

omit hname in
/-- A name that is not listed is not found. -/
theorem lookup_unlisted (hcongr : Decided fs.store.sectors inode.sector fun e => e.holds name)
    (hend : ¬ Endless fs.store.sectors inode.sector)
    (h : ¬ Listed fs.store.sectors inode.sector name) :
    Ensures diskHandler (lookup inode name) fs (fun r fs' => r = none ∧ Reads fs fs') := by
  rw [lookup, ensures_bind]
  refine ensures_uninitEntry fun e fs1 h1 => ?_
  have hlimit := slotCount_lt_slotLimit fs.store.sectors inode.sector
  have hscan := scanEntries_end (j := 0)
    (by rw [h1.store]; exact hcongr) e (h1.fileOk hfile) (Nat.zero_le _)
    (fun l _ hl => Bool.eq_false_iff.mpr fun hl' => h ⟨l, by rw [h1.store] at hl hl'; exact ⟨hl, hl'⟩⟩)
    (by rw [h1.store]; exact hlimit) (by rw [h1.store]; exact hend)
  rw [lookupFrom_eq, ensures_bind]
  refine hscan.mono ?_
  rintro r fs2 ⟨hfound, -, h2⟩
  rw [ensures_ret, hfound, if_neg Bool.false_ne_true]
  exact ⟨rfl, h1.trans h2⟩

theorem lookup_absent (hend : ¬ Endless fs.store.sectors inode.sector)
    (h : ¬ Listed fs.store.sectors inode.sector name) :
    Ensures diskHandler (lookup inode name) fs (fun r fs' => r = none ∧ Reads fs fs') :=
  lookup_unlisted hfile (fun _ _ _ hsame => hsame.holds_eq hname) hend h

/-- **`lookup`** finds the entry with the name. -/
theorem lookup_spec (h : Searchable fs.store.sectors inode.sector name) :
    Ensures diskHandler (lookup inode name) fs (fun r fs' => Reads fs fs' ∧
      ((entryNamed fs.store.sectors inode.sector name = none ∧ r = none) ∨
        ∃ e e' ofs, entryNamed fs.store.sectors inode.sector name = some e ∧ r = some (e', ofs) ∧
          e'.Same e)) := by
  by_cases hlisted : Listed fs.store.sectors inode.sector name
  · refine (lookup_listed hfile hname hlisted).mono ?_
    rintro _ fs' ⟨e, i, rfl, -, hsame, hentry, hreads⟩
    exact ⟨hreads, .inr ⟨_, e, _, hentry, rfl, hsame⟩⟩
  · refine (lookup_absent hfile hname (h.resolve_left hlisted) hlisted).mono ?_
    rintro _ fs' ⟨rfl, hreads⟩
    exact ⟨hreads, .inl ⟨entryNamed_eq_none hlisted, rfl⟩⟩

omit hname in
/-- A search that comes to block 252 does not return. -/
theorem not_ensures_lookup_unlisted
    (hcongr : Decided fs.store.sectors inode.sector fun e => e.holds name)
    (hend : Endless fs.store.sectors inode.sector)
    (h : ¬ Listed fs.store.sectors inode.sector name) {Q : Option (Entry × ℕ) → Fs → Prop} :
    ¬ Ensures diskHandler (lookup inode name) fs Q := by
  intro hret
  rw [lookup, ensures_bind] at hret
  obtain ⟨e, fs1, -, hret, h1⟩ :=
    hret.and (ensures_uninitEntry (Q := fun _ fs' => Reads fs fs') fun _ _ hreads => hreads)
  rw [lookupFrom_eq, ensures_bind] at hret
  have hlimit := slotCount_lt_slotLimit fs.store.sectors inode.sector
  exact not_ensures_scanEntries (j := 0) (by rw [h1.store]; exact hcongr) e
    (h1.fileOk hfile) (Nat.zero_le _)
    (fun l _ hl => Bool.eq_false_iff.mpr fun hl' => h ⟨l, by rw [h1.store] at hl hl'; exact ⟨hl, hl'⟩⟩)
    (by rw [h1.store]; exact hlimit) (by rw [h1.store]; exact hend) hret

theorem not_ensures_lookup (hend : Endless fs.store.sectors inode.sector)
    (h : ¬ Listed fs.store.sectors inode.sector name) {Q : Option (Entry × ℕ) → Fs → Prop} :
    ¬ Ensures diskHandler (lookup inode name) fs Q :=
  not_ensures_lookup_unlisted hfile (fun _ _ _ hsame => hsame.holds_eq hname) hend h

end

/-! ### `dir_add` -/

/-- A name that `dir_add` accepts. -/
def ValidName (name : CString) : Prop := name ≠ [] ∧ name.length ≤ nameMax

/-- `j` is the first entry of the directory that is not in use, or the first one behind it. -/
structure FreeSlot (d : Sector → Block) (s : Sector) (j : ℕ) : Prop where
  le : j ≤ slotCount d s
  used : ∀ l < j, (entryAt d s l).inUse = true
  free : j < slotCount d s → (entryAt d s j).inUse = false

section

variable {fs : Fs} {inode : Inode} (hfile : FileOk fs inode.sector)

include hfile

theorem freeSlot_spec (e : Entry) (hend : ¬ Endless fs.store.sectors inode.sector) :
    Ensures diskHandler (freeSlotFrom inode slotLimit e 0) fs (fun r fs' => ∃ j,
      FreeSlot fs.store.sectors inode.sector j ∧ r.2 = entrySize * j ∧ Reads fs fs') := by
  have hlimit := slotCount_lt_slotLimit fs.store.sectors inode.sector
  have hcongr : Decided fs.store.sectors inode.sector fun e => !e.inUse :=
    fun i _ e hsame => congrArg (! ·) hsame.inUse_eq
  rw [freeSlotFrom_eq, ensures_bind]
  by_cases h : ∃ j < slotCount fs.store.sectors inode.sector,
      (entryAt fs.store.sectors inode.sector j).inUse = false
  · obtain ⟨hj, hfree⟩ := Nat.find_spec h
    have hused : ∀ l < Nat.find h, (entryAt fs.store.sectors inode.sector l).inUse = true :=
      fun l hl => Bool.not_eq_false _ ▸ fun hl' => Nat.find_min h hl ⟨hl.trans hj, hl'⟩
    generalize Nat.find h = j at hj hfree hused
    refine (scanEntries_found (j := 0) hcongr e hfile (Nat.zero_le _) hj
      (fun l _ hl => by rw [hused l hl]; rfl) (by rw [hfree]; rfl) hlimit.le).mono ?_
    rintro r fs' ⟨-, -, hofs, hreads⟩
    rw [ensures_ret]
    exact ⟨j, ⟨hj.le, hused, fun _ => hfree⟩, hofs, hreads⟩
  · have hused : ∀ l < slotCount fs.store.sectors inode.sector,
        (entryAt fs.store.sectors inode.sector l).inUse = true :=
      fun l hl => Bool.not_eq_false _ ▸ fun hl' => h ⟨l, hl, hl'⟩
    refine (scanEntries_end (j := 0) hcongr e hfile (Nat.zero_le _)
      (fun l _ hl => by rw [hused l hl]; rfl) hlimit hend).mono ?_
    rintro r fs' ⟨-, hofs, hreads⟩
    rw [ensures_ret]
    exact ⟨_, ⟨le_rfl, hused, fun hlt => absurd hlt (lt_irrefl _)⟩, hofs, hreads⟩

variable {alloc : Prog fsSig (Option Sector)} {name : CString} {s : Sector} {type : Int32}

/-- **`dir_add` refuses** a name, and changes nothing. -/
theorem dirAdd_refuses (h : ¬ ValidName name ∨ Listed fs.store.sectors inode.sector name ∨
      (¬ Endless fs.store.sectors inode.sector ∧ inode.denyWriteCnt ≠ 0)) :
    Ensures diskHandler (dirAdd alloc inode name s type) fs (fun r fs' =>
      r = false ∧ Reads fs fs') := by
  rw [dirAdd]
  by_cases hname : name = [] ∨ nameMax < name.length
  · rw [if_pos hname, ensures_ret]
    exact ⟨rfl, .refl fs⟩
  · have hvalid : ValidName name := ⟨fun hnil => hname (.inl hnil), by omega⟩
    rw [if_neg hname, ensures_bind]
    by_cases hlisted : Listed fs.store.sectors inode.sector name
    · refine (lookup_listed hfile hvalid.2 hlisted).mono ?_
      rintro _ fs1 ⟨e, i, rfl, -, -, -, h1⟩
      rw [ensures_ret]
      exact ⟨rfl, h1⟩
    · obtain ⟨hend, hdeny⟩ := (h.resolve_left (not_not.mpr hvalid)).resolve_left hlisted
      refine (lookup_absent hfile hvalid.2 hend hlisted).mono ?_
      rintro _ fs1 ⟨rfl, h1⟩
      rw [ensures_bind]
      refine ensures_uninitEntry fun e fs2 h2 => ?_
      have h12 := h1.trans h2
      rw [ensures_bind]
      refine (freeSlot_spec (h12.fileOk hfile) e (by rw [h12.store]; exact hend)).mono ?_
      rintro r fs3 ⟨-, -, -, h3⟩
      rw [ensures_bind, inodeWriteAt, if_pos hdeny, ensures_ret, ensures_ret]
      exact ⟨rfl, h12.trans h3⟩

/-- Otherwise it adds the entry, unless it does not return. -/
theorem always_dirAdd (hvalid : ValidName name)
    (hlisted : ¬ Listed fs.store.sectors inode.sector name)
    (hdeny : inode.denyWriteCnt = 0 ∨ Endless fs.store.sectors inode.sector) :
    Always diskHandler (dirAdd alloc inode name s type) fs (fun r _ => r = true) := by
  rw [dirAdd, if_neg (not_or.mpr ⟨hvalid.1, not_lt.mpr hvalid.2⟩)]
  refine Always.intro fun Q h => ?_
  rw [ensures_bind] at h
  by_cases hend : Endless fs.store.sectors inode.sector
  · exact absurd h (not_ensures_lookup hfile hvalid.2 hend hlisted)
  · obtain ⟨_, fs1, -, h, rfl, h1⟩ := h.and (lookup_absent hfile hvalid.2 hend hlisted)
    rw [ensures_bind] at h
    obtain ⟨e, fs2, -, h, h2⟩ :=
      h.and (ensures_uninitEntry (Q := fun _ fs' => Reads fs1 fs') fun _ _ hreads => hreads)
    have h12 := h1.trans h2
    rw [ensures_bind] at h
    obtain ⟨r, fs3, -, h, j, hj, hofs, h3⟩ :=
      h.and (freeSlot_spec (h12.fileOk hfile) e (by rw [h12.store]; exact hend))
    have hle := hj.le.trans (slotCount_le _ _)
    rw [ensures_bind, hofs] at h
    have hmod : ((entrySize * j : ℕ) : ℤ).tmod 512 = ((32 * j % 512 : ℕ) : ℤ) := by
      rw [Int.tmod_eq_emod_of_nonneg (Int.natCast_nonneg _), entrySize]
      omega
    obtain ⟨written, fs4, -, h, hwritten⟩ := h.and_always (always_inodeWriteAt_chunk
      (hdeny.resolve_right hend) (by decide) (Int.natCast_nonneg _)
      (by simp only [entrySize]; omega))
    rw [ensures_ret] at h
    refine ⟨_, fs4, h, decide_eq_true ?_⟩
    rw [hmod] at hwritten
    simp only [entrySize] at hwritten ⊢
    omega

end

end Fs

end Pintos

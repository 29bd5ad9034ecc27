import Pintos.Pagedir
import Pintos.Paging

/-! # Loading a segment

`validate_segment`, `load_segment` and the arithmetic between them in `load`
(`userprog/process.c`), on 32-bit words.

* `segment`: how a program header is split into bytes to read and bytes to clear.
* `loadPages`: the loop of `load_segment`.  `Pool` says which pages `palloc_get_page` gives and
  which of them can be installed; a failed `ASSERT` is `none`, and so are too many rounds.
* **`loadSegment_exact`**: for every header that is accepted, nothing wraps, no `ASSERT` fails, the
  loop ends, only user pages are installed, and what they hold is the file and then zeros. -/

namespace Pintos.Segment

open Pagedir Paging BitVec

/-! ### The source -/

def pgMask : Word := 0xfff#32

def pgSize : Word := 0x1000#32

/-- The fields of `struct Elf32_Phdr` that say where a segment is. -/
structure Phdr where
  offset : Word
  vaddr : Word
  filesz : Word
  memsz : Word

/-- A file; its length is an `off_t`. -/
structure File where
  bytes : ℕ → UInt8
  length : ℕ
  length_lt : length < 2 ^ 31

def validateSegment (phdr : Phdr) (file : File) : Bool :=
  decide (phdr.offset &&& pgMask = phdr.vaddr &&& pgMask ∧
    phdr.offset ≤ BitVec.ofNat 32 file.length ∧ phdr.filesz ≤ phdr.memsz ∧ phdr.memsz ≠ 0 ∧
    phdr.vaddr < Pagedir.physBase ∧ phdr.vaddr + phdr.memsz < Pagedir.physBase ∧
    phdr.vaddr ≤ phdr.vaddr + phdr.memsz ∧ pgSize ≤ phdr.vaddr)

/-- `ROUND_UP (x, PGSIZE)`. -/
def roundUp (x : Word) : Word := (x + pgSize - 1) / pgSize * pgSize

/-- What `load` hands to `load_segment`. -/
structure Args where
  ofs : Word
  upage : Word
  readBytes : Word
  zeroBytes : Word

def segment (phdr : Phdr) : Args :=
  let pageOffset := phdr.vaddr &&& pgMask
  if 0 < phdr.filesz then
    { ofs := phdr.offset &&& ~~~pgMask
      upage := phdr.vaddr &&& ~~~pgMask
      readBytes := pageOffset + phdr.filesz
      zeroBytes := roundUp (pageOffset + phdr.memsz) - (pageOffset + phdr.filesz) }
  else
    { ofs := phdr.offset &&& ~~~pgMask
      upage := phdr.vaddr &&& ~~~pgMask
      readBytes := 0
      zeroBytes := roundUp (pageOffset + phdr.memsz) }

/-- For the page at an address: what the page from `palloc_get_page` holds, if there is one, and
whether `install_page` succeeds. -/
structure Pool where
  page : Word → Option (ℕ → UInt8)
  install : Word → Bool

/-- The variables of `load_segment`, the position in the file and the pages of the process by their
number.  `wrapped` is a ghost: one of the counters has gone below 0. -/
structure Load where
  upage : Word
  readBytes : Word
  zeroBytes : Word
  pos : ℕ
  space : ℕ → Option (ℕ → UInt8)
  wrapped : Bool

/-- The end of a round: the page has been installed. -/
def Load.advance (s : Load) (pageReadBytes pageZeroBytes : Word) (kpage : ℕ → UInt8) : Load where
  upage := s.upage + pgSize
  readBytes := s.readBytes - pageReadBytes
  zeroBytes := s.zeroBytes - pageZeroBytes
  pos := s.pos
  space := Function.update s.space (s.upage.toNat / 4096) (some kpage)
  wrapped := s.wrapped || decide (s.readBytes < pageReadBytes) ||
    decide (s.zeroBytes < pageZeroBytes)

def loadPages (file : File) (pool : Pool) : ℕ → Load → Option (Bool × Load)
  | 0, _ => none
  | fuel + 1, s =>
    if 0 < s.readBytes ∨ 0 < s.zeroBytes then
      let pageReadBytes := if s.readBytes < pgSize then s.readBytes else pgSize
      let pageZeroBytes := pgSize - pageReadBytes
      match pool.page s.upage with
      | none => some (false, s)
      | some kpage =>
        -- `file_read`
        let read := min pageReadBytes.toNat (file.length - s.pos)
        let kpage := overwrite kpage 0 read fun k => file.bytes (s.pos + k)
        let s := { s with pos := s.pos + read }
        if read ≠ pageReadBytes.toNat then some (false, s)
        else
          let kpage := overwrite kpage read pageZeroBytes.toNat fun _ => 0
          -- the ASSERTs of `pagedir_set_page`
          if pgOfs s.upage = 0 ∧ s.upage < Pagedir.physBase then
            if pool.install s.upage then
              loadPages file pool fuel (s.advance pageReadBytes pageZeroBytes kpage)
            else some (false, s)
          else none
    else some (true, s)

/-- `load_segment`, with at most `fuel` rounds. -/
def loadSegment (file : File) (pool : Pool) (fuel : ℕ) (a : Args)
    (space : ℕ → Option (ℕ → UInt8)) : Option (Bool × Load) :=
  if (a.readBytes + a.zeroBytes) % pgSize = 0 ∧ pgOfs a.upage = 0 ∧ a.ofs % pgSize = 0 ∧
      -- the ASSERT of `file_seek`
      0 ≤ a.ofs.toInt then
    loadPages file pool fuel ⟨a.upage, a.readBytes, a.zeroBytes, a.ofs.toNat, space, false⟩
  else none

/-- The byte at an address of the process. -/
def byteAt (space : ℕ → Option (ℕ → UInt8)) (va : ℕ) : Option UInt8 :=
  (space (va / 4096)).map fun page => page (va % 4096)

/-! ### The loop -/

section Loop

variable {file : File} {pool : Pool} {s s' : Load}

/-- What the loop has left to do: `n` pages, all of them in the user's memory. -/
structure Pending (s : Load) (n : ℕ) : Prop where
  total : s.readBytes.toNat + s.zeroBytes.toNat = 4096 * n
  aligned : s.upage.toNat % 4096 = 0
  below : s.upage.toNat + 4096 * n ≤ 0xc0000000

/-- How it ends: pages are installed among the `n` ones, and if it succeeds they hold the bytes of
the file and then zeros. -/
structure Loaded (file : File) (s : Load) (n : ℕ) (ok : Bool) (s' : Load) : Prop where
  unwrapped : s'.wrapped = s.wrapped
  frame : ∀ p, s'.space p ≠ s.space p → s.upage.toNat / 4096 ≤ p ∧ p < s.upage.toNat / 4096 + n
  bytes : ok = true → ∀ k < 4096 * n, byteAt s'.space (s.upage.toNat + k) =
    some (if k < s.readBytes.toNat then file.bytes (s.pos + k) else 0)

theorem toNat_pageReadBytes (w : Word) :
    (if w < pgSize then w else pgSize).toNat = min w.toNat 4096 := by
  have hlt : w < pgSize ↔ w.toNat < 4096 := lt_def
  split_ifs with h
  · have := hlt.mp h
    omega
  · have := mt hlt.mpr h
    change 4096 = _
    omega

theorem Pending.toNat_upage {n : ℕ} (hp : Pending s (n + 1)) :
    (s.upage + pgSize).toNat = s.upage.toNat + 4096 := by
  have hbelow := hp.below
  rw [toNat_add, show pgSize.toNat = 4096 from rfl]
  omega

section Round

variable {n : ℕ} {r : Word} (hp : Pending s (n + 1)) (hr : r.toNat = min s.readBytes.toNat 4096)

include hp hr

theorem Pending.toNat_zeroBytes : (pgSize - r).toNat = 4096 - r.toNat ∧
    (pgSize - r).toNat ≤ s.zeroBytes.toNat := by
  have htotal := hp.total
  rw [toNat_sub, hr, show pgSize.toNat = 4096 from rfl]
  omega

theorem Pending.advance (kpage : ℕ → UInt8) : Pending (s.advance r (pgSize - r) kpage) n := by
  obtain ⟨hzero, hle⟩ := hp.toNat_zeroBytes hr
  have htotal := hp.total
  have haligned := hp.aligned
  have hbelow := hp.below
  have hup := hp.toNat_upage
  refine ⟨?_, ?_, ?_⟩
  · change (s.readBytes - r).toNat + (s.zeroBytes - (pgSize - r)).toNat = _
    rw [toNat_sub, toNat_sub]
    omega
  · change (s.upage + pgSize).toNat % 4096 = 0
    omega
  · change (s.upage + pgSize).toNat + _ ≤ _
    omega

theorem Loaded.advance {kpage : ℕ → UInt8} {pos : ℕ} {ok : Bool} (hpos : pos = s.pos + r.toNat)
    (hk : ∀ k < 4096, kpage k = if k < r.toNat then file.bytes (s.pos + k) else 0)
    (hl : Loaded file ({ s with pos := pos }.advance r (pgSize - r) kpage) n ok s') :
    Loaded file s (n + 1) ok s' := by
  obtain ⟨hzero, hle⟩ := hp.toNat_zeroBytes hr
  have haligned := hp.aligned
  obtain ⟨hunwrapped, hframe, hbytes⟩ := hl
  change ∀ p, s'.space p ≠ Function.update s.space (s.upage.toNat / 4096) (some kpage) p →
    (s.upage + pgSize).toNat / 4096 ≤ p ∧ p < (s.upage + pgSize).toNat / 4096 + n at hframe
  change ok = true → ∀ k < 4096 * n, byteAt s'.space ((s.upage + pgSize).toNat + k) =
    some (if k < (s.readBytes - r).toNat then file.bytes (pos + k) else 0) at hbytes
  rw [hp.toNat_upage] at hframe hbytes
  refine ⟨?_, fun p hne => ?_, fun hok k hlt => ?_⟩
  · have hread : ¬ s.readBytes < r := by rw [lt_def]; omega
    have hrest : ¬ s.zeroBytes < pgSize - r := by rw [lt_def]; omega
    rw [hunwrapped]
    simp [Load.advance, hread, hrest]
  · by_cases hpage : p = s.upage.toNat / 4096
    · omega
    · have := hframe p (by rwa [Function.update_of_ne hpage])
      omega
  · by_cases hfirst : k < 4096
    · have hkeep : s'.space (s.upage.toNat / 4096) = some kpage := by
        by_contra hne
        have := hframe _ (by rwa [Function.update_self])
        omega
      rw [byteAt, show (s.upage.toNat + k) / 4096 = s.upage.toNat / 4096 by omega,
        show (s.upage.toNat + k) % 4096 = k by omega, hkeep, Option.map_some, hk k hfirst]
      simp only [hr, lt_min_iff, hfirst, and_true]
    · have hrest := hbytes hok (k - 4096) (by omega)
      rw [show s.upage.toNat + 4096 + (k - 4096) = s.upage.toNat + k by omega] at hrest
      rw [hrest, toNat_sub]
      by_cases hfull : 4096 ≤ s.readBytes.toNat
      · rw [hpos, show s.pos + r.toNat + (k - 4096) = s.pos + k by omega]
        refine congrArg some (if_congr ?_ rfl rfl)
        omega
      · rw [if_neg (by omega), if_neg (by omega)]

end Round

theorem loadPages_spec (n : ℕ) : ∀ {fuel : ℕ} {s : Load}, n < fuel → Pending s n →
    ∃ ok s', loadPages file pool fuel s = some (ok, s') ∧ Loaded file s n ok s' := by
  induction n with
  | zero =>
    intro fuel s hfuel hp
    obtain ⟨fuel, rfl⟩ := Nat.exists_eq_succ_of_ne_zero (Nat.ne_zero_of_lt hfuel)
    have htotal := hp.total
    refine ⟨true, s, if_neg ?_, rfl, fun p hne => absurd rfl hne, fun _ k hk => by omega⟩
    rw [lt_def, lt_def]
    omega
  | succ n ih =>
    intro fuel s hfuel hp
    obtain ⟨fuel, rfl⟩ := Nat.exists_eq_succ_of_ne_zero (Nat.ne_zero_of_lt hfuel)
    obtain ⟨htotal, haligned, hbelow⟩ := hp
    have hread := toNat_pageReadBytes s.readBytes
    have hmore : 0 < s.readBytes ∨ 0 < s.zeroBytes := by
      rw [lt_def, lt_def]
      change 0 < _ ∨ 0 < _
      omega
    have hstop : ∀ pos, Loaded file s (n + 1) false { s with pos := pos } := fun pos =>
      ⟨rfl, fun p hne => absurd rfl hne, fun h => by cases h⟩
    rw [loadPages, if_pos hmore]
    generalize hr : (if s.readBytes < pgSize then s.readBytes else pgSize) = r at hread ⊢
    cases hpage : pool.page s.upage with
    | none => exact ⟨false, s, rfl, hstop s.pos⟩
    | some kpage =>
      dsimp only
      by_cases hshort : min r.toNat (file.length - s.pos) ≠ r.toNat
      · rw [if_pos hshort]
        exact ⟨false, _, rfl, hstop _⟩
      have huser : pgOfs s.upage = 0 ∧ s.upage < Pagedir.physBase := by
        constructor
        · apply eq_of_toNat_eq
          rw [toNat_pgOfs]
          exact haligned
        · rw [lt_def]
          change _ < 0xc0000000
          omega
      rw [if_neg hshort, if_pos huser, not_not.mp hshort]
      by_cases hinst : pool.install s.upage = true
      swap
      · rw [if_neg hinst]
        exact ⟨false, _, rfl, hstop _⟩
      rw [if_pos hinst]
      obtain ⟨ok, s', hrun, hl⟩ := ih (Nat.lt_of_succ_lt_succ hfuel)
        (Pending.advance (s := { s with pos := s.pos + r.toNat }) ⟨htotal, haligned, hbelow⟩
          hread _)
      refine ⟨ok, s', hrun, Loaded.advance ⟨htotal, haligned, hbelow⟩ hread rfl ?_ hl⟩
      intro k hk
      have hrest : (pgSize - r).toNat = 4096 - r.toNat := by
        rw [toNat_sub, show pgSize.toNat = 4096 from rfl]
        omega
      rw [overwrite, hrest]
      by_cases hlt : k < r.toNat
      · rw [if_neg (by omega), if_pos hlt, overwrite, if_pos (by omega), Nat.sub_zero]
      · rw [if_pos (by omega), if_neg hlt]

end Loop

/-! ### The arithmetic of `load` -/

section Header

variable {phdr : Phdr} {file : File}

theorem toNat_and_pgMask (w : Word) : (w &&& pgMask).toNat = w.toNat % 4096 := toNat_pgOfs w

theorem toNat_and_not_pgMask (w : Word) : (w &&& ~~~pgMask).toNat = w.toNat - w.toNat % 4096 := by
  have hsplit : (w &&& pgMask) + (w &&& ~~~pgMask) = w := by
    rw [BitVec.add_eq_or_of_and_eq_zero]
    · rw [← and_or_distrib_left, or_not_self, and_allOnes]
    · apply eq_of_getLsbD_eq
      intro i hi
      cases hm : pgMask.getLsbD i <;> simp [hm]
  have hsum := congrArg BitVec.toNat hsplit
  rw [BitVec.toNat_add, toNat_and_pgMask] at hsum
  omega

theorem toNat_roundUp {x : Word} (h : x.toNat + 4095 < 2 ^ 32) :
    (roundUp x).toNat = (x.toNat + 4095) / 4096 * 4096 := by
  have hsum : (x + pgSize - 1).toNat = x.toNat + 4095 := by
    rw [toNat_sub, toNat_add, show pgSize.toNat = 4096 from rfl]
    change (2 ^ 32 - 1 + _) % _ = _
    omega
  rw [roundUp, toNat_mul, toNat_udiv, hsum, show pgSize.toNat = 4096 from rfl]
  omega

/-- What `validate_segment` has checked, on natural numbers. -/
structure Valid (phdr : Phdr) (file : File) : Prop where
  sameOffset : phdr.offset.toNat % 4096 = phdr.vaddr.toNat % 4096
  inFile : phdr.offset.toNat ≤ file.length
  filesz_le : phdr.filesz.toNat ≤ phdr.memsz.toNat
  memsz_pos : 0 < phdr.memsz.toNat
  below : phdr.vaddr.toNat + phdr.memsz.toNat < 0xc0000000
  above : 4096 ≤ phdr.vaddr.toNat

theorem valid_of_validateSegment (h : validateSegment phdr file = true) : Valid phdr file := by
  obtain ⟨hsame, hfile, hle, hne, huser, hend, hwrap, hpage⟩ := of_decide_eq_true h
  have hmask := congrArg BitVec.toNat hsame
  rw [toNat_and_pgMask, toNat_and_pgMask] at hmask
  rw [BitVec.le_def, BitVec.toNat_ofNat] at hfile
  rw [lt_def] at huser hend
  rw [le_def, toNat_add] at hwrap
  rw [toNat_add] at hend
  change _ < 0xc0000000 at huser hend
  have hpos : phdr.memsz.toNat ≠ 0 := fun h0 => hne (eq_of_toNat_eq h0)
  exact ⟨hmask, by omega, hle, by omega, by omega, le_def.mp hpage⟩

/-- The number of pages of a segment. -/
def pageCount (phdr : Phdr) : ℕ := (phdr.vaddr.toNat % 4096 + phdr.memsz.toNat + 4095) / 4096

theorem Valid.segment_eq (h : Valid phdr file) :
    (segment phdr).ofs.toNat = phdr.offset.toNat - phdr.vaddr.toNat % 4096 ∧
    (segment phdr).upage.toNat = phdr.vaddr.toNat - phdr.vaddr.toNat % 4096 ∧
    (segment phdr).readBytes.toNat = (if 0 < phdr.filesz.toNat then
      phdr.vaddr.toNat % 4096 + phdr.filesz.toNat else 0) ∧
    (segment phdr).readBytes.toNat + (segment phdr).zeroBytes.toNat = 4096 * pageCount phdr := by
  obtain ⟨hsame, -, hle, -, hbelow, -⟩ := h
  have hsum : ∀ w : Word, w.toNat ≤ phdr.memsz.toNat →
      ((phdr.vaddr &&& pgMask) + w).toNat = phdr.vaddr.toNat % 4096 + w.toNat := by
    intro w hw
    rw [toNat_add, toNat_and_pgMask]
    omega
  have hround : (roundUp ((phdr.vaddr &&& pgMask) + phdr.memsz)).toNat = 4096 * pageCount phdr := by
    rw [toNat_roundUp (by rw [hsum _ le_rfl]; omega), hsum _ le_rfl, pageCount, Nat.mul_comm]
  have hofs := toNat_and_not_pgMask phdr.offset
  rw [hsame] at hofs
  unfold segment
  by_cases hpos : 0 < phdr.filesz
  · have hpos' : 0 < phdr.filesz.toNat := hpos
    rw [if_pos hpos, if_pos hpos']
    refine ⟨hofs, toNat_and_not_pgMask _, hsum _ hle, ?_⟩
    rw [toNat_sub, hround, hsum _ hle, pageCount]
    omega
  · have hpos' : ¬ 0 < phdr.filesz.toNat := hpos
    rw [if_neg hpos, if_neg hpos']
    refine ⟨hofs, toNat_and_not_pgMask _, rfl, ?_⟩
    rw [hround]
    exact Nat.zero_add _

end Header

/-! ### The main result -/

/-- **Segments are loaded within bounds and exactly.** -/
theorem loadSegment_exact (phdr : Phdr) (file : File) (pool : Pool) (space : ℕ → Option (ℕ → UInt8))
    (hv : validateSegment phdr file = true) {fuel : ℕ} (hfuel : pageCount phdr < fuel) :
    (segment phdr).readBytes.toNat = (if 0 < phdr.filesz.toNat then
      phdr.vaddr.toNat % 4096 + phdr.filesz.toNat else 0) ∧
    (segment phdr).readBytes.toNat + (segment phdr).zeroBytes.toNat = 4096 * pageCount phdr ∧
    ∃ ok s, loadSegment file pool fuel (segment phdr) space = some (ok, s) ∧
      s.wrapped = false ∧
      (∀ p, s.space p ≠ space p → 4096 ≤ 4096 * p ∧ 4096 * p + 4096 ≤ 0xc0000000) ∧
      (ok = true →
        (∀ k < phdr.filesz.toNat,
          byteAt s.space (phdr.vaddr.toNat + k) = some (file.bytes (phdr.offset.toNat + k))) ∧
        ∀ k, phdr.filesz.toNat ≤ k →
          phdr.vaddr.toNat + k < phdr.vaddr.toNat - phdr.vaddr.toNat % 4096 + 4096 * pageCount phdr →
          byteAt s.space (phdr.vaddr.toNat + k) = some 0) := by
  have hvalid := valid_of_validateSegment hv
  obtain ⟨hofs, hupage, hread, htotal⟩ := hvalid.segment_eq
  obtain ⟨hsame, hfile, hle, hpos, hbelow, habove⟩ := hvalid
  have hlen := file.length_lt
  have hcount : pageCount phdr = (phdr.vaddr.toNat % 4096 + phdr.memsz.toNat + 4095) / 4096 := rfl
  have hasserts : ((segment phdr).readBytes + (segment phdr).zeroBytes) % pgSize = 0 ∧
      pgOfs (segment phdr).upage = 0 ∧ (segment phdr).ofs % pgSize = 0 ∧
      0 ≤ (segment phdr).ofs.toInt := by
    refine ⟨eq_of_toNat_eq ?_, eq_of_toNat_eq ?_, eq_of_toNat_eq ?_, ?_⟩
    · rw [toNat_umod, toNat_add, htotal]
      change _ % 4096 = 0
      omega
    · rw [toNat_pgOfs, hupage]
      change _ = 0
      omega
    · change _ % 4096 = 0
      omega
    · rw [toInt_eq_toNat_of_lt (by omega)]
      omega
  have hpending : Pending ⟨(segment phdr).upage, (segment phdr).readBytes, (segment phdr).zeroBytes,
      (segment phdr).ofs.toNat, space, false⟩ (pageCount phdr) :=
    ⟨htotal, by dsimp only; omega, by dsimp only; omega⟩
  obtain ⟨ok, s, hrun, hunwrapped, hframe, hbytes⟩ :=
    @loadPages_spec file pool (pageCount phdr) fuel _ hfuel hpending
  dsimp only at hframe hbytes
  refine ⟨hread, htotal, ok, s, ?_, hunwrapped, fun p hne => ?_, fun hok => ⟨fun k hk => ?_,
    fun k hk hend => ?_⟩⟩
  · rw [loadSegment, if_pos hasserts]
    exact hrun
  · have := hframe p hne
    omega
  · have hbyte := hbytes hok (phdr.vaddr.toNat % 4096 + k) (by omega)
    rw [hupage, if_pos (by rw [hread, if_pos (by omega)]; omega), hofs] at hbyte
    rw [show phdr.vaddr.toNat + k = phdr.vaddr.toNat - phdr.vaddr.toNat % 4096 +
      (phdr.vaddr.toNat % 4096 + k) by omega, hbyte]
    congr 2
    omega
  · have hbyte := hbytes hok (phdr.vaddr.toNat % 4096 + k) (by omega)
    rw [hupage, if_neg (by rw [hread]; split_ifs <;> omega)] at hbyte
    rw [show phdr.vaddr.toNat + k = phdr.vaddr.toNat - phdr.vaddr.toNat % 4096 +
      (phdr.vaddr.toNat % 4096 + k) by omega, hbyte]

/-- A segment of 200 bytes from the file and 5000 in memory. -/
def sampleHeader : Phdr := ⟨0x54, 0x08048054, 200, 5000⟩

theorem loadSegment_exact_sample : ∃ ok s,
    loadSegment ⟨fun _ => 7, 300, by decide⟩ ⟨fun _ => some fun _ => 0xcc, fun _ => true⟩ 3
      (segment sampleHeader) (fun _ => none) = some (ok, s) ∧ s.wrapped = false := by
  obtain ⟨-, -, ok, s, hrun, hwrapped, -⟩ := loadSegment_exact sampleHeader
    ⟨fun _ => 7, 300, by decide⟩ ⟨fun _ => some fun _ => 0xcc, fun _ => true⟩ (fun _ => none)
    (by decide) (show pageCount sampleHeader < 3 by decide)
  exact ⟨ok, s, hrun, hwrapped⟩

end Pintos.Segment

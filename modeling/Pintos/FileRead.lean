import Pintos.FileWrite

/-! # Reading a file

`inode_read_at` delivers the bytes of the file from the offset on, as many as were asked for or
as there are before the end of the file, if they are in the first 252 blocks
(`inodeReadAt_spec`).  It changes no sector.

`Copied` is what may happen to the caller's buffer in any file system: the bytes that are returned
come from sectors that were read, and no others are written.  At the end of the file
`inode_read_at` copies from elsewhere (**`inodeReadAt_readsOnly_iff`**). -/

namespace Pintos.Fs

open Interaction Paging

/-! ### One chunk -/

theorem readChunk_spec {fs : Fs} {s : Sector} (hs : s < fs.store.size) (ofs chunk : ℕ)
    (hchunk : ofs + chunk ≤ 512) :
    Ensures diskHandler (readChunk s ofs chunk) fs (fun bytes fs' =>
      (bytes = fun k => if h : ofs + k < 512 then fs.store.sectors s ⟨ofs + k, h⟩ else 0) ∧
        fs' = touch fs s) := by
  rw [readChunk]
  by_cases hfull : (ofs : ℤ) = 0 ∧ (chunk : ℤ) = 512
  · obtain rfl : ofs = 0 := by omega
    rw [if_pos hfull, ensures_bind, ensures_cacheRead hs, ensures_ret]
    simp only [Nat.zero_add, and_self]
  · rw [if_neg hfull, cacheReadBytes, ensures_bind, ensures_cacheRead hs,
      if_pos (by omega : (0 : ℤ) ≤ ofs ∧ (ofs : ℤ) + chunk ≤ 512), ensures_ret]
    simp only [Int.toNat_natCast, and_self]

/-- Past the end of the file `byte_to_sector` returns -1. -/
theorem ensures_byteToSector_end {fs : Fs} {inode : Inode} {pos : ℕ}
    (hs : inode.sector < fs.store.size)
    (hlen : (inodeAt fs.store.sectors inode.sector).length.toInt ≤ pos) {Q : Sector → Fs → Prop} :
    Ensures diskHandler (byteToSector inode pos) fs Q ↔ Q (-1) (touch fs inode.sector) := by
  rw [byteToSector, ensures_bind, ensures_cacheRead hs]
  change Ensures diskHandler (if (pos : ℤ) < (inodeAt fs.store.sectors inode.sector).length.toInt
    then _ else _) _ _ ↔ _
  rw [if_neg (not_lt.mpr hlen), ensures_ret]

/-! ### The loop -/

theorem readLoop_end (inode : Inode) {fs : Fs} (fuel : ℕ) {size off r : ℕ} (buffer : ℕ → UInt8)
    (hlt : inode.sector < fs.store.size)
    (hend : (inodeAt fs.store.sectors inode.sector).length.toInt ≤ off) :
    Ensures diskHandler (readLoop inode fuel size off r buffer) fs (fun q fs' =>
      q = ((r : ℤ), buffer) ∧ Touches ∅ (treeSet fs.store.sectors inode.sector) fs fs') := by
  have hs : inode.sector ∈ treeSet fs.store.sectors inode.sector := List.mem_cons_self
  cases fuel with
  | zero =>
    rw [readLoop, ensures_ret]
    exact ⟨rfl, Touches.refl _ _ fs⟩
  | succ fuel =>
    rw [readLoop]
    by_cases hsize : (0 : ℤ) < size
    · rw [if_pos hsize, ensures_bind, ensures_byteToSector_end hlt hend, ensures_bind,
        ensures_inodeLength (show inode.sector < (touch fs inode.sector).store.size from hlt)]
      change Ensures diskHandler (if chunkSize size
        ((inodeAt fs.store.sectors inode.sector).length.toInt - off) _ ≤ 0 then _ else _) _ _
      rw [if_pos (by rw [chunkSize_eq_min]; omega), ensures_ret]
      exact ⟨rfl, ((Touches.refl _ _ fs).touch hs).touch hs⟩
    · rw [if_neg hsize, ensures_ret]
      exact ⟨rfl, Touches.refl _ _ fs⟩

/-- One round below block 252: it copies a chunk of the file, and the loop goes on behind it. -/
theorem readLoop_step (inode : Inode) {fs : Fs} {size off r chunk : ℕ} (fuel : ℕ)
    (buffer : ℕ → UInt8) (hfile : FileOk fs inode.sector) (hsize : 0 < size)
    (hoff : off / 512 < 252)
    (hlen : (off : ℤ) < (inodeAt fs.store.sectors inode.sector).length.toInt)
    (hchunk : (chunk : ℤ) = min (size : ℤ)
      (min ((inodeAt fs.store.sectors inode.sector).length.toInt - off) (512 - (off % 512 : ℕ)))) :
    ∃ fs1, Touches ∅ (treeSet fs.store.sectors inode.sector) fs fs1 ∧
      ∀ Q : ℤ × (ℕ → UInt8) → Fs → Prop,
        Ensures diskHandler (readLoop inode (fuel + 1) size off r buffer) fs Q ↔
          Ensures diskHandler (readLoop inode fuel ((size - chunk : ℕ) : ℤ)
            ((off + chunk : ℕ) : ℤ) ((r + chunk : ℕ) : ℤ)
            (overwrite buffer r chunk (fun k => flat fs.store.sectors
              (mapSector fs.store.sectors (inodeAt fs.store.sectors inode.sector)) (off + k))))
            fs1 Q := by
  have hs : inode.sector ∈ treeSet fs.store.sectors inode.sector := List.mem_cons_self
  have hn : off / 512 < blocksAt fs.store.sectors inode.sector := div_lt_blockCount hlen
  obtain ⟨sec, fs1, ⟨rfl, h1⟩, hmap⟩ := (byteToSector_spec
    (T := treeSet fs.store.sectors inode.sector) hfile.sector_lt hs hlen hoff
    (hfile.indirect_lt hn)).bind_iff
  have hst := h1.store_eq
  have hlt := hfile.map_lt_touch hn hst inode.sector
  obtain ⟨_, _, ⟨rfl, rfl⟩, hread⟩ :=
    (readChunk_spec hlt (off % 512) chunk (by omega)).bind_iff
  have hsec := FileOk.data_subset _ _ (mapSector_mem_dataSectors fs.store.sectors
    (inodeAt fs.store.sectors inode.sector) hn)
  refine ⟨_, (h1.touch hs).touch hsec, fun Q => ?_⟩
  rw [readLoop, if_pos (by omega), hmap, ensures_bind, ensures_inodeLength (by rw [hst]; exact
    hfile.sector_lt), hst]
  simp only [tmod_512, chunkSize_eq_min, ← hchunk]
  rw [if_neg (by omega), hread, show (size : ℤ) - chunk = ((size - chunk : ℕ) : ℤ) by omega,
    Nat.cast_add, Nat.cast_add, Int.toNat_natCast, Int.toNat_natCast,
    overwrite_congr_right buffer r fun k hk => ?_]
  change (if h : off % 512 + k < 512 then fs1.store.sectors _ ⟨off % 512 + k, h⟩ else 0) = _
  rw [dif_pos (by omega), hst]
  exact page_add ..

/-- **The loop of `inode_read_at`** in the first 252 blocks: it copies the bytes up to the end
of the file or of the request. -/
theorem readLoop_spec (inode : Inode) : ∀ (fuel : ℕ) (fs : Fs) (size off r n : ℕ)
    (buffer : ℕ → UInt8), FileOk fs inode.sector → size ≤ fuel → (0 < n → off + n ≤ 252 * 512) →
    n = min size ((inodeAt fs.store.sectors inode.sector).length.toInt.toNat - off) →
    Ensures diskHandler (readLoop inode fuel size off r buffer) fs (fun q fs' =>
      q = (((r + n : ℕ) : ℤ), overwrite buffer r n (fun k => flat fs.store.sectors
        (mapSector fs.store.sectors (inodeAt fs.store.sectors inode.sector)) (off + k))) ∧
      Touches ∅ (treeSet fs.store.sectors inode.sector) fs fs') := by
  intro fuel
  induction fuel with
  | zero =>
    intro fs size off r n buffer hfile hfuel hmax hn
    obtain rfl : n = 0 := by omega
    rw [readLoop, ensures_ret, overwrite_zero]
    exact ⟨rfl, Touches.refl _ _ fs⟩
  | succ fuel ih =>
    intro fs size off r n buffer hfile hfuel hmax hn
    by_cases hzero : n = 0
    · subst hzero
      rw [overwrite_zero]
      by_cases hsize : size = 0
      · subst hsize
        rw [readLoop, if_neg (by simp), ensures_ret]
        exact ⟨rfl, Touches.refl _ _ fs⟩
      · exact readLoop_end inode (fuel + 1) buffer hfile.sector_lt (by omega)
    · obtain ⟨chunk, hchunk⟩ := Int.eq_ofNat_of_zero_le (show 0 ≤ min (size : ℤ)
        (min ((inodeAt fs.store.sectors inode.sector).length.toInt - off)
          (512 - (off % 512 : ℕ))) by omega)
      obtain ⟨fs1, h1, hstep⟩ := readLoop_step inode fuel buffer hfile (by omega) (by omega)
        (by omega) hchunk.symm
      have hst := h1.store_eq
      have hfile1 : FileOk fs1 inode.sector :=
        (hfile.keeps (h1.mono (Set.empty_subset _) subset_rfl)).ok
      rw [hstep]
      refine (ih fs1 (size - chunk) (off + chunk) (r + chunk) (n - chunk) _ hfile1 (by omega)
        (by omega) (by rw [hst]; omega)).mono ?_
      rintro q fs2 ⟨rfl, h2⟩
      rw [hst] at h2 ⊢
      have hsplit : n = chunk + (n - chunk) := by omega
      refine ⟨Prod.ext (by simp only; omega) ?_, h1.trans h2⟩
      conv_rhs => rw [hsplit, ← overwrite_append]
      simp only [Nat.add_assoc]

/-- **`inode_read_at`** in the first 252 blocks. -/
theorem inodeReadAt_spec {fs : Fs} {inode : Inode} (buffer : ℕ → UInt8) {size off n : ℕ}
    (hfile : FileOk fs inode.sector) (hsector : inode.sector ≤ 20000000)
    (hmax : 0 < n → off + n ≤ 252 * 512)
    (hn : n = min size ((inodeAt fs.store.sectors inode.sector).length.toInt.toNat - off)) :
    Ensures diskHandler (inodeReadAt inode buffer size off) fs (fun q fs' =>
      q.1 = n ∧ (∀ k < n, q.2 k = flat fs.store.sectors
        (mapSector fs.store.sectors (inodeAt fs.store.sectors inode.sector)) (off + k)) ∧
      Touches ∅ (treeSet fs.store.sectors inode.sector) fs fs') := by
  have hs : inode.sector ∈ treeSet fs.store.sectors inode.sector := List.mem_cons_self
  have h0 : Touches ∅ (treeSet fs.store.sectors inode.sector) fs (touch fs inode.sector) :=
    (Touches.refl _ _ fs).touch hs
  have hfile0 : FileOk (touch fs inode.sector) inode.sector :=
    (hfile.keeps (h0.mono (Set.empty_subset _) subset_rfl)).ok
  -- whatever the buffer holds when the loop starts
  have hloop : ∀ buf, Ensures diskHandler (readLoop inode size size off (0 : ℕ) buf)
      (touch fs inode.sector) (fun q fs' => q.1 = n ∧ (∀ k < n, q.2 k = flat fs.store.sectors
        (mapSector fs.store.sectors (inodeAt fs.store.sectors inode.sector)) (off + k)) ∧
      Touches ∅ (treeSet fs.store.sectors inode.sector) fs fs') := by
    intro buf
    refine (readLoop_spec inode size (touch fs inode.sector) size off 0 n buf hfile0 le_rfl hmax
      hn).mono ?_
    rintro _ fs' ⟨rfl, h⟩
    refine ⟨by simp, fun k hk => ?_, h0.trans h⟩
    simp only [overwrite]
    rw [if_pos (by omega), Nat.sub_zero]
    rfl
  rw [inodeReadAt, if_neg (UInt32.not_lt.mpr hsector), ensures_bind,
    ensures_cacheRead hfile.sector_lt]
  by_cases hend : (InodeDisk.decode (fs.store.sectors inode.sector)).length.toInt ≤ off
  · rw [if_pos hend, ensures_bind, ensures_pastZeros, if_neg (by omega)]
    exact hloop _
  · rw [if_neg hend]
    exact hloop _

/-! ### What a read writes -/

/-- In a buffer the bytes from `r` to `n` were replaced by bytes of sectors that were read. -/
structure Copied (fs fs' : Fs) (buffer buffer' : ℕ → UInt8) (r n : ℤ) : Prop where
  ordered : r ≤ n
  frame : ∀ k : ℕ, k < r ∨ n ≤ k → buffer' k = buffer k
  copied : ∀ k : ℕ, r ≤ k → k < n → ∃ s ∈ fs'.accesses, ∃ i, buffer' k = fs.store.sectors s i

theorem always_mem_accesses {α : Type} (p : Prog fsSig α) {fs : Fs} {s : Sector}
    (hs : s ∈ fs.accesses) : Always diskHandler p fs (fun _ fs' => s ∈ fs'.accesses) := by
  refine always_invariant (I := fun fs : Fs => s ∈ fs.accesses) (fun e fs r fs' hs he => ?_) p hs
  cases e with
  | cacheRead t =>
    simp only [fsHandler, arrayHandler, blockRead] at he
    split_ifs at he
    · cases he
      exact List.mem_cons_of_mem t hs
    · cases he
  | cacheWrite t b =>
    simp only [fsHandler, arrayHandler, blockWrite] at he
    split_ifs at he
    · cases he
      exact List.mem_cons_of_mem t hs
    · cases he
  | fault f => cases he
  | freeMap | setFreeMap b | freeMapFile | uninit | address | pastZeros =>
    cases he
    exact hs

theorem always_inodeLength {fs : Fs} {inode : Inode} :
    Always diskHandler (inodeLength inode) fs (fun _ fs' => fs'.store = fs.store) :=
  always_bind (always_cacheRead (Q := fun _ fs' => fs'.store = fs.store) rfl)
    fun _ _ h => always_ret h

theorem always_readChunk {fs : Fs} (s : Sector) {ofs chunk : ℤ} (hofs : 0 ≤ ofs)
    (hchunk : ofs + chunk ≤ 512) :
    Always diskHandler (readChunk s ofs chunk) fs (fun bytes fs' => fs'.store = fs.store ∧
      s ∈ fs'.accesses ∧ ∀ k : ℕ, k < chunk → ∃ i, bytes k = fs.store.sectors s i) := by
  rw [readChunk]
  split_ifs with hfull
  · refine always_bind (always_cacheRead (Q := fun b fs' => b = fs.store.sectors s ∧
      fs' = touch fs s) ⟨rfl, rfl⟩) ?_
    rintro b fs' ⟨rfl, rfl⟩
    refine always_ret ⟨rfl, List.mem_cons_self, fun k hk => ⟨⟨k, show k < 512 by omega⟩, ?_⟩⟩
    exact dif_pos (by omega)
  · refine always_bind (always_cacheRead (Q := fun b fs' => b = fs.store.sectors s ∧
      fs' = touch fs s) ⟨rfl, rfl⟩) ?_
    rintro b fs' ⟨rfl, rfl⟩
    rw [if_pos ⟨hofs, hchunk⟩]
    refine always_ret ⟨rfl, List.mem_cons_self, fun k hk =>
      ⟨⟨ofs.toNat + k, show ofs.toNat + k < 512 by omega⟩, ?_⟩⟩
    exact dif_pos (by omega)

/-- **The loop** in any file system: at most `size` bytes are copied, all of them from sectors. -/
theorem readLoop_copied (inode : Inode) : ∀ (fuel : ℕ) (fs : Fs) (size offset r : ℤ)
    (buffer : ℕ → UInt8), 0 ≤ offset → 0 ≤ r →
    Always diskHandler (readLoop inode fuel size offset r buffer) fs (fun q fs' =>
      q.1 ≤ r + max size 0 ∧ Copied fs fs' buffer q.2 r q.1) := by
  intro fuel
  have hstop : ∀ (fs : Fs) (size r : ℤ) (buffer : ℕ → UInt8),
      Always diskHandler (pure (r, buffer)) fs (fun q fs' =>
        q.1 ≤ r + max size 0 ∧ Copied fs fs' buffer q.2 r q.1) := fun fs size r buffer =>
    always_ret ⟨by omega, le_rfl, fun _ _ => rfl, fun k hk hk' => absurd hk (not_le.mpr hk')⟩
  induction fuel with
  | zero => exact fun fs size offset r buffer _ _ => hstop fs size r buffer
  | succ fuel ih =>
    intro fs size offset r buffer hoff hr
    rw [readLoop]
    split_ifs with hsize
    · refine always_bind always_byteToSector fun s fs1 h1 => ?_
      refine always_bind always_inodeLength fun length fs2 h2 => ?_
      have hmod : offset.tmod 512 = offset % 512 := Int.tmod_eq_emod_of_nonneg hoff
      simp only [chunkSize_eq_min]
      split_ifs with hchunk
      · exact (hstop fs2 size r buffer).mono fun q fs' h => ⟨h.1, h.2.ordered, h.2.frame,
          fun k hk hk' => by rw [← h1, ← h2]; exact h.2.copied k hk hk'⟩
      · refine always_bind (always_readChunk s (by omega) (by omega)) ?_
        rintro bytes fs3 ⟨h3, hacc, hbytes⟩
        refine ((ih fs3 _ _ _ _ (by omega) (by omega)).and
          (always_mem_accesses _ hacc)).mono ?_
        rintro q fs' ⟨⟨hle, hc⟩, hacc'⟩
        have hstore : fs3.store = fs.store := by rw [h3, h2, h1]
        refine ⟨by omega, by have := hc.ordered; omega, fun k hk => ?_, fun k hk hk' => ?_⟩
        · rw [hc.frame k (by omega), overwrite, if_neg (by have := hc.ordered; omega)]
        · by_cases hnew : (k : ℤ) < r + min size (min (length - offset) (512 - offset.tmod 512))
          · obtain ⟨i, hi⟩ := hbytes (k - r.toNat) (by omega)
            refine ⟨s, hacc', i, ?_⟩
            rw [hc.frame k (.inl hnew), overwrite, if_pos (by omega), hi, h2, h1]
          · rw [← hstore]
            exact hc.copied k (by omega) hk'
    · exact hstop fs size r buffer

/-- What a caller relies on.  A read that returns a number of bytes has written these bytes of the
buffer and no others, and nothing behind the first `size` bytes; they come from sectors.  A negative
size is not taken for the length of a copy. -/
def ReadsOnly (inode : Inode) (size offset : ℤ) (fs : Fs) : Prop :=
  ∀ buffer, (size < 0 →
      run diskHandler (inodeReadAt inode buffer size offset) fs ≠ .error .outOfBounds) ∧
    Always diskHandler (inodeReadAt inode buffer size offset) fs (fun q fs' => 0 ≤ q.1 →
      (∀ k : ℕ, size ≤ k → q.2 k = buffer k) ∧ Copied fs fs' buffer q.2 0 q.1)

section

variable {fs : Fs} {inode : Inode} {size offset : ℤ}

/-- At the end of a file zeros, and what lies behind them, are copied. -/
theorem not_readsOnly_end (hsector : inode.sector ≤ 20000000) (hlt : inode.sector < fs.store.size)
    (hoff : 0 ≤ offset) (hend : (inodeAt fs.store.sectors inode.sector).length.toInt ≤ offset)
    (hsize : size ≠ 0) : ¬ ReadsOnly inode size offset fs := by
  intro hall
  obtain ⟨hfault, hcopied⟩ := hall fun _ => 1
  rcases lt_or_gt_of_ne hsize with hneg | hpos
  · apply hfault hneg
    rw [inodeReadAt, if_neg (UInt32.not_lt.mpr hsector), run_bind, cacheRead, run_call,
      diskHandler_read hlt]
    change run diskHandler (if (inodeAt fs.store.sectors inode.sector).length.toInt ≤ offset
      then _ else _) _ = _
    rw [if_pos hend, run_bind, pastZeros, run_call]
    change run diskHandler (if size < 0 then _ else _) _ = _
    rw [if_pos hneg]
    rfl
  · obtain ⟨n, rfl⟩ := Int.eq_ofNat_of_zero_le hpos.le
    obtain ⟨off, rfl⟩ := Int.eq_ofNat_of_zero_le hoff
    have hrun : Ensures diskHandler (inodeReadAt inode (fun _ => 1) n off) fs
        (fun q _ => q.1 = 0 ∧ q.2 0 = 0) := by
      rw [inodeReadAt, if_neg (UInt32.not_lt.mpr hsector), ensures_bind, ensures_cacheRead hlt]
      change Ensures diskHandler (if (inodeAt fs.store.sectors inode.sector).length.toInt ≤ off
        then _ else _) _ _
      rw [if_pos hend, ensures_bind, ensures_pastZeros, if_neg (by omega)]
      have hlt' : inode.sector < (touch fs inode.sector).store.size := hlt
      refine (readLoop_end inode _ (r := 0) _ hlt' hend).mono ?_
      rintro q fs' ⟨rfl, -⟩
      exact ⟨rfl, if_pos ⟨le_rfl, by omega⟩⟩
    obtain ⟨q, fs', -, ⟨hzero, hbyte⟩, hframe⟩ := hrun.and_always hcopied
    have hone := (hframe hzero.ge).2.frame 0 (.inr (by omega))
    rw [hbyte] at hone
    cases hone

/-- **Reads touch only what they return**, if they start before the end of the file or ask for
nothing. -/
theorem inodeReadAt_readsOnly_iff (inode : Inode) (size : ℤ) (fs : Fs) (hoff : 0 ≤ offset) :
    ReadsOnly inode size offset fs ↔ 20000000 < inode.sector ∨ fs.store.size ≤ inode.sector ∨
      size = 0 ∨ offset < (inodeAt fs.store.sectors inode.sector).length.toInt := by
  constructor
  · intro hall
    by_contra hcon
    simp only [not_or, not_lt, UInt32.not_lt, UInt32.not_le] at hcon
    obtain ⟨hsector, hlt, hsize, hend⟩ := hcon
    exact not_readsOnly_end hsector hlt hoff hend hsize hall
  · intro hcond buffer
    -- the loop starts with the caller's buffer
    have hloop : ∀ fs', fs'.store = fs.store → Always diskHandler
        (readLoop inode size.toNat size offset 0 buffer) fs' (fun q fs'' => 0 ≤ q.1 →
          (∀ k : ℕ, size ≤ k → q.2 k = buffer k) ∧ Copied fs fs'' buffer q.2 0 q.1) := by
      intro fs' hst
      refine (readLoop_copied inode _ fs' size offset 0 buffer hoff le_rfl).mono ?_
      rintro q fs'' ⟨hle, hc⟩ -
      refine ⟨fun k hk => hc.frame k (.inr (by omega)), hc.ordered, hc.frame, fun k hk hk' => ?_⟩
      rw [← hst]
      exact hc.copied k hk hk'
    by_cases hsector : 20000000 < inode.sector
    · rw [inodeReadAt, if_pos hsector]
      constructor
      · intro _ h
        cases h
      · exact always_ret fun h => absurd h (show ¬ (0 : ℤ) ≤ -1 by decide)
    have hcut : ∀ f : Block → Prog fsSig (ℤ × (ℕ → UInt8)),
        (if 20000000 < inode.sector then pure (-1, buffer) else cacheRead inode.sector >>= f) =
          cacheRead inode.sector >>= f := fun f => if_neg hsector
    by_cases hlt : inode.sector < fs.store.size
    · have hread : run diskHandler (inodeReadAt inode buffer size offset) fs =
          run diskHandler (readLoop inode size.toNat size offset 0 buffer)
            (touch fs inode.sector) := by
        rw [inodeReadAt, hcut, run_bind, cacheRead, run_call, diskHandler_read hlt]
        change run diskHandler (if (inodeAt fs.store.sectors inode.sector).length.toInt ≤ offset
          then _ else _) _ = _
        by_cases hend : (inodeAt fs.store.sectors inode.sector).length.toInt ≤ offset
        · obtain rfl : size = 0 := by
            rcases hcond with h | h | h | h
            · exact absurd h hsector
            · exact absurd h (UInt32.not_le.mpr hlt)
            · exact h
            · omega
          rw [if_pos hend, run_bind, pastZeros, run_call]
          change run diskHandler (if (0 : ℤ) < 0 then _ else _) _ = _
          rw [if_neg (by decide), Int.toNat_zero, overwrite_zero]
        · rw [if_neg hend]
      rw [Always, hread]
      refine ⟨fun hneg => ?_, hloop (touch fs inode.sector) rfl⟩
      rw [Int.toNat_of_nonpos hneg.le]
      intro h
      cases h
    · have hread : run diskHandler (inodeReadAt inode buffer size offset) fs =
          .error (.accessPastEnd inode.sector fs.store.size) := by
        rw [inodeReadAt, hcut, run_bind, cacheRead, run_call,
          diskHandler_read_error (UInt32.not_lt.mp hlt)]
      rw [Always, hread]
      constructor
      · intro _ h
        cases h
      · intro _ _ h
        cases h

end

/-- A file of one byte, in a file system with nothing else in it. -/
def byteFs : Fs where
  store := { size := 8, sectors := fun _ => InodeDisk.encode ⟨fun _ => 0, 0, 0, 1, inodeMagic⟩ }
  freeMap := Bitmap.eight 0xff
  freeMapFile := none
  stack := fun _ _ => 0
  addresses := fun _ => physBase
  memory := fun _ => 0
  accesses := []

theorem length_byteFs (s : Sector) : (inodeAt byteFs.store.sectors s).length.toInt = 1 := by
  rfl

theorem inodeReadAt_readsOnly_byte : ReadsOnly ⟨3, 1, false, 0⟩ 600 0 byteFs :=
  (inodeReadAt_readsOnly_iff ⟨3, 1, false, 0⟩ 600 byteFs (show (0 : ℤ) ≤ 0 from le_rfl)).mpr
    (.inr (.inr (.inr (by rw [length_byteFs]; decide))))

/-- 600 bytes are asked for at the end of the file. -/
theorem not_readsOnly_byte : ¬ ReadsOnly ⟨3, 1, false, 0⟩ 600 1 byteFs :=
  not_readsOnly_end (by decide) (by decide) (by decide) (length_byteFs 3).le (by decide)

end Pintos.Fs

import Pintos.FreeMap

/-! # Allocating and releasing runs of sectors

`free_map_init` marks the two sectors that every file system has; from then on
`free_map_allocate` hands out runs of consecutive sectors and `free_map_release` takes them back.

* `live past` are the runs that a sequence of calls has got and not yet given back, and `Allowed`
  what is asked of a call: the free map's file can be written, and a run that is released is live.
* `Exclusive fs runs` says that the runs are disjoint, on the device and beside the two reserved
  sectors, and that apart from these exactly their sectors are marked.
* Every allowed call keeps this (`exclusive_allocate`, `exclusive_release`), so that it holds after
  every sequence of calls, of which none fails an assertion (`freeMap_exclusive`). -/

namespace Pintos

def freeMapSector : Sector := 0

def rootDirSector : Sector := 1

/-- `free_map_init`, with what `malloc` found in memory; `none` when the kernel panics. -/
def freeMapInit (memory : ℕ → BitVec elemBits) (size : UInt32) : Option Bitmap :=
  match bitmapCreate memory size with
  | .ok (some b) =>
    -- without an element there is nothing that could be marked
    if elemCnt b.bitCnt = 0 then none
    else some (bitmapMark (bitmapMark b freeMapSector.toNat) rootDirSector.toNat)
  | _ => none

theorem freeMapInit_spec {memory : ℕ → BitVec elemBits} {size : UInt32} {b : Bitmap}
    (h : freeMapInit memory size = some b) :
    b.bitCnt = size.toNat ∧ ∀ i < size.toNat, (b.get i = true ↔ i = 0 ∨ i = 1) := by
  unfold freeMapInit at h
  split at h
  · rename_i b0 hb0
    obtain ⟨hcnt, hget⟩ := bitmapCreate_spec hb0
    split at h
    · cases h
    · cases h
      refine ⟨hcnt, fun i hi => ?_⟩
      rw [get_bitmapMark, get_bitmapMark, hget i hi]
      change (if i = 1 then true else if i = 0 then true else false) = true ↔ _
      split_ifs <;> simp_all
  · cases h

theorem freeMapInit_ok (memory : ℕ → BitVec elemBits) {size : UInt32}
    (h : 0 < elemCnt size.toNat) : ∃ b, freeMapInit memory size = some b := by
  obtain ⟨b, hb⟩ := bitmapCreate_ok memory h
  unfold freeMapInit
  rw [hb]
  dsimp only
  rw [if_neg (by rw [(bitmapCreate_spec hb).1]; omega)]
  exact ⟨_, rfl⟩

namespace Fs

open Interaction List

/-! ### Runs and calls -/

/-- `cnt` consecutive sectors. -/
structure SectorRun where
  first : Sector
  cnt : ℕ
deriving DecidableEq

/-- Sector `i` belongs to the run. -/
def SectorRun.Has (r : SectorRun) (i : ℕ) : Prop := r.first.toNat ≤ i ∧ i < r.first.toNat + r.cnt

inductive MapCall
  | allocate (cnt : ℕ)
  | release (r : SectorRun)

/-- The calls; an allocation returns the first sector of the run. -/
def MapCall.prog (depth : ℕ) : MapCall → Prog fsSig (Option Sector)
  | .allocate cnt => freeMapAllocate (depth + 1) cnt
  | .release r => do
    freeMapRelease depth r.first r.cnt
    pure none

/-- The runs that were returned and not released since. -/
def live : List (MapCall × Option Sector) → List SectorRun
  | [] => []
  | (.allocate cnt, some s) :: past => ⟨s, cnt⟩ :: live past
  | (.allocate _, none) :: past => live past
  | (.release r, _) :: past => (live past).erase r

/-- The free map's file can be written: `bitmap_write` succeeds, with any bits, and allocates
nothing. -/
def MapWrites (depth : ℕ) (fs : Fs) : Prop :=
  ∀ file, fs.freeMapFile = some file → ∀ b : Bitmap, b.bitCnt = fs.freeMap.bitCnt →
    Ensures diskHandler (bitmapWrite (freeMapAllocate depth 1) b.bitCnt file)
      { fs with freeMap := b } (fun r fs' => r = true ∧ fs'.freeMap = b)

/-- What is asked of a call. -/
def MapCall.Allowed (depth : ℕ) (past : List (MapCall × Option Sector)) (fs : Fs) : MapCall → Prop
  | .allocate _ => MapWrites depth fs
  | .release r => MapWrites depth fs ∧ fs.freeMapFile.isSome ∧ r ∈ live past

/-! ### The functions on any run -/

section

variable {fs : Fs} {depth : ℕ} {P : Bitmap → Fs → Prop}

/-- An allocation, when writing a bitmap to the free map's file ensures `P`. -/
theorem freeMapAllocate_run
    (hw : ∀ file, fs.freeMapFile = some file → ∀ b : Bitmap, b.bitCnt = fs.freeMap.bitCnt →
      Ensures diskHandler (bitmapWrite (freeMapAllocate depth 1) b.bitCnt file)
        { fs with freeMap := b } (fun r fs' => r = true ∧ P b fs'))
    (hclosed : fs.freeMapFile = none → ∀ b, P b { fs with freeMap := b }) (cnt : ℕ) :
    Ensures diskHandler (freeMapAllocate (depth + 1) cnt) fs (fun r fs' =>
      (∃ i b, r = some (UInt32.ofNat i) ∧ P b fs' ∧ i + cnt ≤ fs.freeMap.bitCnt ∧
        (∀ k < cnt, fs.freeMap.get (i + k) = false) ∧ b.bitCnt = fs.freeMap.bitCnt ∧
        ∀ j, b.get j = if i ≤ j ∧ j < i + cnt then true else fs.freeMap.get j) ∨
      (r = none ∧ fs' = fs ∧
        ∀ i, i + cnt ≤ fs.freeMap.bitCnt → ∃ k < cnt, fs.freeMap.get (i + k) = true)) := by
  rw [freeMapAllocate, ensures_bind, ensures_getFreeMap, ensures_bind]
  rcases bitmapScanAndFlip_spec fs.freeMap cnt false with
    ⟨i, b, hscan, hin, hfree, hcnt, hget⟩ | ⟨hscan, hnone⟩
  · rw [hscan, lift, ensures_ret]
    simp only [ensures_bind, ensures_setFreeMap, ensures_getFreeMapFile]
    cases hfile : fs.freeMapFile with
    | none =>
      have hP := hclosed hfile b
      rw [hfile] at hP
      rw [ensures_ret]
      exact .inl ⟨i, b, rfl, hP, hin, hfree, hcnt, hget⟩
    | some file =>
      have hwrite := hw file hfile b hcnt
      rw [hfile] at hwrite
      rw [ensures_bind]
      refine hwrite.mono ?_
      rintro _ fs' ⟨rfl, hP⟩
      rw [if_pos rfl, ensures_ret]
      exact .inl ⟨i, b, rfl, hP, hin, hfree, hcnt, hget⟩
  · rw [hscan, lift, ensures_ret, ensures_ret]
    exact .inr ⟨rfl, rfl, fun i hi => by simpa using hnone i hi⟩

/-- The assertion of `free_map_release` holds for a run all of whose sectors are marked. -/
theorem freeMapRelease_run {file : Inode} (hfile : fs.freeMapFile = some file)
    (hw : ∀ b : Bitmap, b.bitCnt = fs.freeMap.bitCnt →
      Ensures diskHandler (bitmapWrite (freeMapAllocate depth 1) b.bitCnt file)
        { fs with freeMap := b } (fun r fs' => r = true ∧ P b fs')) {s : Sector} {cnt : ℕ}
    (hin : s.toNat + cnt ≤ fs.freeMap.bitCnt)
    (hmark : ∀ k < cnt, fs.freeMap.get (s.toNat + k) = true) :
    Ensures diskHandler (freeMapRelease depth s cnt) fs (fun _ fs' =>
      ∃ b, P b fs' ∧ b.bitCnt = fs.freeMap.bitCnt ∧
      ∀ j, b.get j = if s.toNat ≤ j ∧ j < s.toNat + cnt then false else fs.freeMap.get j) := by
  obtain ⟨all, hall, hiff⟩ := bitmapAll_ok hin
  obtain ⟨b, hset, hcnt, hget⟩ := bitmapSetMultiple_ok hin false
  rw [freeMapRelease, ensures_bind, ensures_getFreeMap, ensures_bind, hall, lift, ensures_ret,
    ensures_bind, ensures_assert (hiff.mpr hmark), ensures_bind, hset, lift, ensures_ret,
    ensures_bind, ensures_setFreeMap, ensures_bind, ensures_getFreeMapFile]
  have hwrite := hw b hcnt
  simp only [hfile] at hwrite ⊢
  rw [ensures_bind]
  refine hwrite.mono ?_
  rintro _ fs' ⟨-, hP⟩
  rw [ensures_ret]
  exact ⟨b, hP, hcnt, hget⟩

end

/-! ### Exclusive runs -/

/-- The runs are disjoint, on the device and beside the reserved sectors, and apart from these
exactly their sectors are marked. -/
structure Exclusive (fs : Fs) (runs : List SectorRun) : Prop where
  bitCnt_eq : fs.freeMap.bitCnt = fs.store.size.toNat
  disjoint : runs.Pairwise (fun r r' => ∀ i, r.Has i → ¬ r'.Has i)
  inside : ∀ r ∈ runs, r.first.toNat + r.cnt ≤ fs.store.size.toNat
  reserved : ∀ r ∈ runs, ¬ r.Has 0 ∧ ¬ r.Has 1
  marked : ∀ i < fs.store.size.toNat,
    (fs.freeMap.get i = true ↔ (i = 0 ∨ i = 1) ∨ ∃ r ∈ runs, r.Has i)

section

variable {fs fs' : Fs} {runs : List SectorRun}

theorem exclusive_allocate (h : Exclusive fs runs) (hsize : fs'.store.size = fs.store.size)
    {i cnt : ℕ} (hin : i + cnt ≤ fs.freeMap.bitCnt)
    (hfree : ∀ k < cnt, fs.freeMap.get (i + k) = false)
    (hcnt : fs'.freeMap.bitCnt = fs.freeMap.bitCnt)
    (hget : ∀ j, fs'.freeMap.get j = if i ≤ j ∧ j < i + cnt then true else fs.freeMap.get j) :
    Exclusive fs' (⟨UInt32.ofNat i, cnt⟩ :: runs) := by
  have hround : (UInt32.ofNat i).toNat = i := by
    refine UInt32.toNat_ofNat_of_lt' ?_
    have := fs.freeMap.bitCnt_lt
    exact lt_of_le_of_lt (by omega : i ≤ fs.freeMap.bitCnt) this
  have hhas : ∀ j, SectorRun.Has ⟨UInt32.ofNat i, cnt⟩ j ↔ i ≤ j ∧ j < i + cnt := by
    intro j
    rw [SectorRun.Has, hround]
  -- the sectors of the new run were not marked
  have hnew : ∀ j, i ≤ j ∧ j < i + cnt → fs.freeMap.get j ≠ true := by
    rintro j ⟨h1, h2⟩ hj
    have := hfree (j - i) (by omega)
    rw [Nat.add_sub_cancel' h1, hj] at this
    cases this
  have hlt : ∀ j, i ≤ j ∧ j < i + cnt → j < fs.store.size.toNat := fun j hj => by
    rw [← h.bitCnt_eq]
    omega
  refine ⟨by rw [hcnt, hsize, h.bitCnt_eq], pairwise_cons.mpr ⟨fun r hr j hj hj' => ?_, h.disjoint⟩,
    fun r hr => ?_, fun r hr => ?_, fun j hj => ?_⟩
  · have hj := (hhas j).mp hj
    exact hnew j hj ((h.marked j (hlt j hj)).mpr (.inr ⟨r, hr, hj'⟩))
  · rcases mem_cons.mp hr with rfl | hr
    · rw [hsize, ← h.bitCnt_eq, hround]
      exact hin
    · rw [hsize]
      exact h.inside r hr
  · rcases mem_cons.mp hr with rfl | hr
    · refine ⟨fun hj => ?_, fun hj => ?_⟩
      · have hj := (hhas 0).mp hj
        exact hnew 0 hj ((h.marked 0 (hlt 0 hj)).mpr (.inl (.inl rfl)))
      · have hj := (hhas 1).mp hj
        exact hnew 1 hj ((h.marked 1 (hlt 1 hj)).mpr (.inl (.inr rfl)))
    · exact h.reserved r hr
  · rw [hget, exists_mem_cons_iff, hhas]
    rw [hsize] at hj
    by_cases hj' : i ≤ j ∧ j < i + cnt
    · rw [if_pos hj']
      exact iff_of_true rfl (.inr (.inl hj'))
    · rw [if_neg hj', h.marked j hj, or_iff_right hj']

theorem exclusive_release (h : Exclusive fs runs) (hsize : fs'.store.size = fs.store.size)
    {r : SectorRun} (hr : r ∈ runs) (hcnt : fs'.freeMap.bitCnt = fs.freeMap.bitCnt)
    (hget : ∀ j, fs'.freeMap.get j =
      if r.first.toNat ≤ j ∧ j < r.first.toNat + r.cnt then false else fs.freeMap.get j) :
    Exclusive fs' (runs.erase r) := by
  have hsub : ∀ r', r' ∈ runs.erase r → r' ∈ runs := fun r' hr' => mem_of_mem_erase hr'
  have hsymm : Std.Symm (fun r r' : SectorRun => ∀ i, r.Has i → ¬ r'.Has i) :=
    ⟨fun _ _ hd i hi hi' => hd i hi' hi⟩
  have hpair := (perm_cons_erase hr).pairwise_iff (fun {_ _} => hsymm.symm _ _) |>.mp h.disjoint
  have hother := (pairwise_cons.mp hpair).1
  refine ⟨by rw [hcnt, hsize, h.bitCnt_eq], (pairwise_cons.mp hpair).2,
    fun r' hr' => by rw [hsize]; exact h.inside r' (hsub r' hr'),
    fun r' hr' => h.reserved r' (hsub r' hr'), fun j hj => ?_⟩
  rw [hsize] at hj
  rw [hget]
  by_cases hj' : r.Has j
  · rw [if_pos (show _ ∧ _ from hj')]
    refine iff_of_false (by simp) ?_
    rintro ((rfl | rfl) | ⟨r', hr', hj''⟩)
    · exact (h.reserved r hr).1 hj'
    · exact (h.reserved r hr).2 hj'
    · exact hother r' hr' j hj' hj''
  · rw [if_neg (show ¬ (_ ∧ _) from hj'), h.marked j hj]
    refine or_congr_right ⟨?_, ?_⟩
    · rintro ⟨r', hr', hj''⟩
      refine ⟨r', (mem_erase_of_ne ?_).mpr hr', hj''⟩
      rintro rfl
      exact hj' hj''
    · rintro ⟨r', hr', hj''⟩
      exact ⟨r', hsub r' hr', hj''⟩

end

/-- A call returned what it should: an allocation that failed found no run of free sectors and
changed nothing. -/
def MapCall.Answers (fs : Fs) : MapCall → Option Sector → Fs → Prop
  | .allocate cnt, none, fs' => fs' = fs ∧
      ¬ ∃ i, i + cnt ≤ fs.store.size.toNat ∧ ∀ k < cnt, fs.freeMap.get (i + k) = false
  | _, _, _ => True

/-- **A step**: an allowed call ends without a fault. -/
theorem mapCall_step {depth : ℕ} {past : List (MapCall × Option Sector)} {fs : Fs}
    (h : Exclusive fs (live past)) {c : MapCall} (hc : c.Allowed depth past fs) :
    Ensures diskHandler (c.prog depth) fs (fun r fs' =>
      c.Answers fs r fs' ∧ Exclusive fs' (live ((c, r) :: past))) := by
  cases c with
  | allocate cnt =>
    refine ((freeMapAllocate_run hc (fun _ _ => rfl) cnt).and_always (always_size _ fs)).mono ?_
    rintro _ fs' ⟨⟨i, b, rfl, rfl, hin, hfree, hcnt, hget⟩ | ⟨rfl, rfl, hnone⟩, hsize⟩
    · exact ⟨trivial, exclusive_allocate h hsize hin hfree hcnt hget⟩
    · refine ⟨⟨rfl, ?_⟩, h⟩
      rintro ⟨i, hi, hfree⟩
      obtain ⟨k, hk, hmark⟩ := hnone i (by rw [h.bitCnt_eq]; exact hi)
      rw [hfree k hk] at hmark
      cases hmark
  | release r =>
    obtain ⟨hw, hfile, hr⟩ := hc
    obtain ⟨file, hfile⟩ := Option.isSome_iff_exists.mp hfile
    have hin := h.inside r hr
    rw [MapCall.prog, ensures_bind]
    refine ((freeMapRelease_run hfile (hw file hfile) (by rw [h.bitCnt_eq]; exact hin)
      fun k hk => ?_).and_always (always_size _ fs)).mono ?_
    · exact (h.marked _ (by omega)).mpr (.inr ⟨r, hr, by unfold SectorRun.Has; omega⟩)
    · rintro _ fs' ⟨⟨_, rfl, hcnt, hget⟩, hsize⟩
      rw [ensures_ret]
      exact ⟨trivial, exclusive_release h hsize hr hcnt hget⟩

end Fs

end Pintos

import Pintos.CacheCoherence
import Pintos.Bitmap

/-! # The file system's state and its primitives

The functions of `filesys/inode.c` and `filesys/free-map.c` are programs over a few calls
(`FsOp`): `cache_read` and `cache_write`, the free map and the file it is kept in, and the
memory that the C code reads without having set it.

* `uninit` returns the contents of a local array of 128 words that was not initialised, and
  `address` the value of a kernel pointer where the code passes one as a sector number; both
  come from streams in the state, so that a theorem about every state is about every value.
* `malloc` and `calloc` are taken to succeed.
* `accesses` is a ghost field: the sector numbers passed to `cache_read` and `cache_write`.

`fsHandler h` runs the programs over any store of sectors; `run_on_cache` transfers what a
program does on a plain array of sectors to the cache of `Cache.lean`. -/

namespace Pintos

open Interaction

/-- `struct inode`, without its list element. -/
structure Inode where
  sector : Sector
  openCnt : ℤ
  removed : Bool
  denyWriteCnt : ℤ

/-- A sector as an array of `block_sector_t`. -/
abbrev Words := Fin 128 → UInt32

/-- An address at or above `PHYS_BASE`. -/
abbrev KernelAddress := { a : UInt32 // 0xc0000000 ≤ a }

def physBase : KernelAddress := ⟨0xc0000000, by decide⟩

inductive FsOp
  | cacheRead (s : Sector)
  | cacheWrite (s : Sector) (b : Block)
  | freeMap
  | setFreeMap (b : Bitmap)
  | freeMapFile
  | uninit
  | address
  | pastZeros
  | fault (f : Fault)

abbrev fsSig : Sig where
  Op := FsOp
  Res
    | .cacheRead _ => Block
    | .cacheWrite _ _ => Unit
    | .freeMap => Bitmap
    | .setFreeMap _ => Unit
    | .freeMapFile => Option Inode
    | .uninit => Words
    | .address => UInt32
    | .pastZeros => ℕ → UInt8
    | .fault _ => Empty

/-- The state of the file system over a store of sectors. -/
structure FsState (σ : Type) where
  store : σ
  freeMap : Bitmap
  freeMapFile : Option Inode
  /-- What the next uninitialised arrays will hold. -/
  stack : ℕ → Words
  /-- The next addresses taken for sector numbers. -/
  addresses : ℕ → KernelAddress
  /-- The memory behind the static array `zeros`. -/
  memory : ℕ → UInt8
  accesses : List Sector

variable {σ τ : Type}

def fsHandler (h : Handler callSig σ Fault) : Handler fsSig (FsState σ) Fault
  | .cacheRead s, fs =>
    match h (.read s) fs.store with
    | .ok (b, store) => .ok (b, { fs with store := store, accesses := s :: fs.accesses })
    | .error f => .error f
  | .cacheWrite s b, fs =>
    match h (.write s b) fs.store with
    | .ok (_, store) => .ok ((), { fs with store := store, accesses := s :: fs.accesses })
    | .error f => .error f
  | .freeMap, fs => .ok (fs.freeMap, fs)
  | .setFreeMap b, fs => .ok ((), { fs with freeMap := b })
  | .freeMapFile, fs => .ok (fs.freeMapFile, fs)
  | .uninit, fs => .ok (fs.stack 0, { fs with stack := fun n => fs.stack (n + 1) })
  | .address, fs =>
    .ok ((fs.addresses 0).val, { fs with addresses := fun n => fs.addresses (n + 1) })
  | .pastZeros, fs => .ok (fs.memory, fs)
  | .fault f, _ => .error f

/-- The file system on a plain array of sectors: what the code relies on the cache to be. -/
abbrev Fs := FsState Disk

abbrev diskHandler : Handler fsSig Fs Fault := fsHandler arrayHandler

/-! ### From the array of sectors to the cache -/

/-- Two states that differ in the store only, and there by `R`. -/
structure SameFs (R : σ → τ → Prop) (fs : FsState σ) (ft : FsState τ) : Prop where
  store : R fs.store ft.store
  rest : fs = { ft with store := fs.store }

theorem fs_simulates {h1 : Handler callSig σ Fault} {h2 : Handler callSig τ Fault}
    {R : σ → τ → Prop} (hsim : Simulates h1 h2 R) :
    Simulates (fsHandler h1) (fsHandler h2) (SameFs R) := by
  rintro e fs ft r ft' ⟨hstore, hrest⟩ he
  cases e with
  | cacheRead s =>
    cases hc : h2 (.read s) ft.store with
    | error f => simp only [fsHandler, hc] at he; cases he
    | ok q =>
      simp only [fsHandler, hc] at he
      cases he
      obtain ⟨st', hst', hR'⟩ := hsim _ _ _ q.1 q.2 hstore hc
      refine ⟨_, by simp only [fsHandler, hst']; rfl, hR', ?_⟩
      rw [hrest]
  | cacheWrite s b =>
    cases hc : h2 (.write s b) ft.store with
    | error f => simp only [fsHandler, hc] at he; cases he
    | ok q =>
      simp only [fsHandler, hc] at he
      cases he
      obtain ⟨st', hst', hR'⟩ := hsim _ _ _ q.1 q.2 hstore hc
      refine ⟨_, by simp only [fsHandler, hst']; rfl, hR', ?_⟩
      rw [hrest]
  | fault f => cases he
  | freeMap | freeMapFile | pastZeros => cases he; exact ⟨fs, by rw [hrest]; rfl, hstore, hrest⟩
  | setFreeMap b =>
    cases he
    exact ⟨{ fs with freeMap := b }, rfl, hstore, by rw [hrest]⟩
  | uninit =>
    cases he
    exact ⟨{ fs with stack := fun n => fs.stack (n + 1) }, by rw [hrest]; rfl, hstore, by rw [hrest]⟩
  | address =>
    cases he
    exact ⟨{ fs with addresses := fun n => fs.addresses (n + 1) }, by rw [hrest]; rfl, hstore,
      by rw [hrest]⟩

variable {α : Type}

/-- **Transfer**: what a program of the file system does on the array of sectors it also
does on the cache that represents the array. -/
theorem run_on_cache (p : Prog fsSig α) {fc : FsState CacheState} {fs fs' : Fs}
    (hR : SameFs Represents fc fs) {a : α} (hrun : run diskHandler p fs = .ok (a, fs')) :
    ∃ fc', run (fsHandler cacheHandler) p fc = .ok (a, fc') ∧ SameFs Represents fc' fs' :=
  run_simulation (fs_simulates cache_simulates) p hR hrun

/-! ### Primitives -/

variable {b : Block} {s : Sector} {Q : Unit → Fs → Prop} {n : ℕ} {i : ℤ} {a : Fin n → UInt32}

namespace Fs

def cacheRead (s : Sector) : Prog fsSig Block := Prog.call (S := fsSig) (.cacheRead s)

def cacheWrite (s : Sector) (b : Block) : Prog fsSig Unit := Prog.call (S := fsSig) (.cacheWrite s b)

def getFreeMap : Prog fsSig Bitmap := Prog.call (S := fsSig) .freeMap

def setFreeMap (b : Bitmap) : Prog fsSig Unit := Prog.call (S := fsSig) (.setFreeMap b)

def getFreeMapFile : Prog fsSig (Option Inode) := Prog.call (S := fsSig) .freeMapFile

def uninit : Prog fsSig Words := Prog.call (S := fsSig) .uninit

def address : Prog fsSig UInt32 := Prog.call (S := fsSig) .address

def pastZeros : Prog fsSig (ℕ → UInt8) := Prog.call (S := fsSig) .pastZeros

def fault {α : Type} (f : Fault) : Prog fsSig α := .op (.fault f) Empty.elim

def assert (p : Prop) [Decidable p] : Prog fsSig Unit := if p then pure () else fault .assertion

/-- The outcome of a function that does not touch the device. -/
def lift {α : Type} : Except Fault α → Prog fsSig α
  | .ok a => pure a
  | .error f => fault f

/-- `a[i]`. -/
def index {n : ℕ} (a : Fin n → UInt32) (i : ℤ) : Prog fsSig UInt32 :=
  if h : 0 ≤ i ∧ i.toNat < n then pure (a ⟨i.toNat, h.2⟩) else fault .outOfBounds

/-- `a[i] = v`. -/
def assign {n : ℕ} (a : Fin n → UInt32) (i : ℤ) (v : UInt32) : Prog fsSig (Fin n → UInt32) :=
  if h : 0 ≤ i ∧ i.toNat < n then pure (Function.update a ⟨i.toNat, h.2⟩ v)
  else fault .outOfBounds

/-! ### Their specifications on the array of sectors -/

/-- The state after `cache_read (s)`. -/
def touch (fs : Fs) (s : Sector) : Fs := { fs with accesses := s :: fs.accesses }

/-- The state after `cache_write (s, b)`. -/
def put (fs : Fs) (s : Sector) (b : Block) : Fs :=
  { fs with store := fs.store.write s b, accesses := s :: fs.accesses }

@[simp] theorem put_sectors_self (fs : Fs) (s : Sector) (b : Block) :
    (put fs s b).store.sectors s = b := Function.update_self ..

theorem put_sectors_of_ne (fs : Fs) {t : Sector} (b : Block) (h : t ≠ s) :
    (put fs s b).store.sectors t = fs.store.sectors t := Function.update_of_ne h ..

/-- Between the two states sectors were read and written, the writes in `W` and all of the
accesses in `T`, and nothing else happened. -/
structure Touches (W T : Set Sector) (fs fs' : Fs) : Prop where
  rest : fs' = { fs with store := fs'.store, accesses := fs'.accesses }
  size : fs'.store.size = fs.store.size
  sectors : ∀ t, t ∉ W → fs'.store.sectors t = fs.store.sectors t
  log : ∃ xs : List Sector, (∀ t ∈ xs, t ∈ T) ∧ fs'.accesses = xs ++ fs.accesses

namespace Touches

variable {W T : Set Sector} {fs fs' fs'' : Fs}

theorem refl (W T : Set Sector) (fs : Fs) : Touches W T fs fs :=
  ⟨rfl, rfl, fun _ _ => rfl, [], by simp, rfl⟩

theorem trans (h : Touches W T fs fs') (h' : Touches W T fs' fs'') : Touches W T fs fs'' := by
  obtain ⟨xs, hxs, hlog⟩ := h.log
  obtain ⟨ys, hys, hlog'⟩ := h'.log
  refine ⟨?_, h'.size.trans h.size, fun t ht => (h'.sectors t ht).trans (h.sectors t ht),
    ys ++ xs, fun t ht => ?_, ?_⟩
  · rw [h'.rest, h.rest]
  · rcases List.mem_append.mp ht with ht | ht
    · exact hys t ht
    · exact hxs t ht
  · rw [hlog', hlog, List.append_assoc]

theorem mono {W' T' : Set Sector} (h : Touches W T fs fs') (hW : W ⊆ W') (hT : T ⊆ T') :
    Touches W' T' fs fs' := by
  obtain ⟨xs, hxs, hlog⟩ := h.log
  exact ⟨h.rest, h.size, fun t ht => h.sectors t fun hw => ht (hW hw), xs,
    fun t ht => hT (hxs t ht), hlog⟩

theorem touch (h : Touches W T fs fs') (hs : s ∈ T) : Touches W T fs (touch fs' s) := by
  obtain ⟨xs, hxs, hlog⟩ := h.log
  refine ⟨?_, h.size, h.sectors, s :: xs, fun t ht => ?_, ?_⟩
  · rw [Fs.touch, h.rest]
  · rcases List.mem_cons.mp ht with rfl | ht
    · exact hs
    · exact hxs t ht
  · rw [Fs.touch, hlog, List.cons_append]

theorem put (h : Touches W T fs fs') (hw : s ∈ W ∨ b = fs'.store.sectors s) (hs : s ∈ T) :
    Touches W T fs (put fs' s b) := by
  obtain ⟨xs, hxs, hlog⟩ := h.log
  refine ⟨?_, h.size, fun t ht => ?_, s :: xs, fun t ht => ?_, ?_⟩
  · rw [Fs.put, h.rest]
  · rw [← h.sectors t ht]
    by_cases hts : t = s
    · subst hts
      rcases hw with hw | rfl
      · exact absurd hw ht
      · rw [put_sectors_self]
    · rw [put_sectors_of_ne _ _ hts]
  · rcases List.mem_cons.mp ht with rfl | ht
    · exact hs
    · exact hxs t ht
  · rw [Fs.put, hlog, List.cons_append]

theorem freeMap_eq (h : Touches W T fs fs') : fs'.freeMap = fs.freeMap := by
  rw [h.rest]

theorem freeMapFile_eq (h : Touches W T fs fs') : fs'.freeMapFile = fs.freeMapFile := by
  rw [h.rest]

theorem store_eq (h : Touches ∅ T fs fs') : fs'.store = fs.store :=
  Disk.ext h.size (funext fun t => h.sectors t (by simp))

end Touches

/-! ### What every program keeps -/

/-- No call changes the size of the device or the free map's file, and the uninitialised arrays
are taken from the stream in turn. -/
theorem diskHandler_keeps {e : FsOp} {fs fs' : Fs} {r : fsSig.Res e}
    (h : diskHandler e fs = .ok (r, fs')) :
    fs'.store.size = fs.store.size ∧ fs'.freeMapFile = fs.freeMapFile ∧
      ∃ k, ∀ n, fs'.stack n = fs.stack (n + k) := by
  cases e with
  | cacheRead s =>
    simp only [fsHandler, arrayHandler, blockRead] at h
    by_cases hlt : s < fs.store.size
    · rw [if_pos hlt] at h; cases h; exact ⟨rfl, rfl, 0, fun _ => rfl⟩
    · rw [if_neg hlt] at h; cases h
  | cacheWrite s b =>
    simp only [fsHandler, arrayHandler, blockWrite] at h
    by_cases hlt : s < fs.store.size
    · rw [if_pos hlt] at h; cases h; exact ⟨rfl, rfl, 0, fun _ => rfl⟩
    · rw [if_neg hlt] at h; cases h
  | uninit => cases h; exact ⟨rfl, rfl, 1, fun _ => rfl⟩
  | fault f => cases h
  | freeMap | setFreeMap b | freeMapFile | address | pastZeros =>
    cases h; exact ⟨rfl, rfl, 0, fun _ => rfl⟩

theorem always_size (p : Prog fsSig α) (fs : Fs) :
    Always diskHandler p fs (fun _ fs' => fs'.store.size = fs.store.size) :=
  always_invariant (fun _ _ _ _ hs he => (diskHandler_keeps he).1.trans hs) p rfl

theorem always_freeMapFile (p : Prog fsSig α) (fs : Fs) :
    Always diskHandler p fs (fun _ fs' => fs'.freeMapFile = fs.freeMapFile) :=
  always_invariant (fun _ _ _ _ hs he => (diskHandler_keeps he).2.1.trans hs) p rfl

/-! ### Specifications of the calls -/

section

variable {fs : Fs}

theorem diskHandler_read (hs : s < fs.store.size) :
    diskHandler (.cacheRead s) fs = .ok (fs.store.sectors s, touch fs s) := by
  simp only [fsHandler, arrayHandler, blockRead_ok hs]
  rfl

theorem diskHandler_read_error (hs : fs.store.size ≤ s) :
    diskHandler (.cacheRead s) fs = .error (.accessPastEnd s fs.store.size) := by
  simp only [fsHandler, arrayHandler, blockRead_error hs]
  rfl

theorem diskHandler_write (hs : s < fs.store.size) (b : Block) :
    diskHandler (.cacheWrite s b) fs = .ok ((), put fs s b) := by
  simp only [fsHandler, arrayHandler, blockWrite_ok hs]
  rfl

theorem diskHandler_write_error (hs : fs.store.size ≤ s) (b : Block) :
    diskHandler (.cacheWrite s b) fs = .error (.accessPastEnd s fs.store.size) := by
  simp only [fsHandler, arrayHandler, blockWrite, if_neg (UInt32.not_lt.mpr hs)]
  rfl

theorem ensures_cacheRead (hs : s < fs.store.size) {Q : Block → Fs → Prop} :
    Ensures diskHandler (cacheRead s) fs Q ↔ Q (fs.store.sectors s) (touch fs s) :=
  ensures_call_ok (diskHandler_read hs)

theorem not_ensures_cacheRead (hs : fs.store.size ≤ s) {Q : Block → Fs → Prop} :
    ¬ Ensures diskHandler (cacheRead s) fs Q := not_ensures_call (diskHandler_read_error hs)

theorem ensures_cacheWrite (hs : s < fs.store.size) :
    Ensures diskHandler (cacheWrite s b) fs Q ↔ Q () (put fs s b) :=
  ensures_call_ok (diskHandler_write hs b)

theorem not_ensures_cacheWrite (hs : fs.store.size ≤ s) :
    ¬ Ensures diskHandler (cacheWrite s b) fs Q :=
  not_ensures_call (diskHandler_write_error hs b)

theorem ensures_cacheWrite_iff :
    Ensures diskHandler (cacheWrite s b) fs Q ↔ s < fs.store.size ∧ Q () (put fs s b) := by
  by_cases hs : s < fs.store.size
  · rw [ensures_cacheWrite hs, and_iff_right hs]
  · exact iff_of_false (not_ensures_cacheWrite (UInt32.not_lt.mp hs)) fun h => hs h.1

theorem always_cacheRead {Q : Block → Fs → Prop} (h : Q (fs.store.sectors s) (touch fs s)) :
    Always diskHandler (cacheRead s) fs Q := by
  refine Always.intro fun R hR => ?_
  by_cases hs : s < fs.store.size
  · exact ⟨_, _, (ensures_cacheRead hs).mp hR, h⟩
  · exact absurd hR (not_ensures_cacheRead (UInt32.not_lt.mp hs))

theorem always_cacheWrite (h : Q () (put fs s b)) : Always diskHandler (cacheWrite s b) fs Q :=
  Always.intro fun _ hR => ⟨_, _, (ensures_cacheWrite_iff.mp hR).2, h⟩

@[simp] theorem ensures_getFreeMap {Q : Bitmap → Fs → Prop} :
    Ensures diskHandler getFreeMap fs Q ↔ Q fs.freeMap fs :=
  ensures_call_ok (h := diskHandler) (e := .freeMap) rfl

@[simp] theorem ensures_setFreeMap {b : Bitmap} :
    Ensures diskHandler (setFreeMap b) fs Q ↔ Q () { fs with freeMap := b } :=
  ensures_call_ok (h := diskHandler) (e := .setFreeMap b) rfl

@[simp] theorem ensures_getFreeMapFile {Q : Option Inode → Fs → Prop} :
    Ensures diskHandler getFreeMapFile fs Q ↔ Q fs.freeMapFile fs :=
  ensures_call_ok (h := diskHandler) (e := .freeMapFile) rfl

@[simp] theorem ensures_uninit {Q : Words → Fs → Prop} :
    Ensures diskHandler uninit fs Q ↔
      Q (fs.stack 0) { fs with stack := fun n => fs.stack (n + 1) } :=
  ensures_call_ok (h := diskHandler) (e := .uninit) rfl

@[simp] theorem ensures_address {Q : UInt32 → Fs → Prop} :
    Ensures diskHandler address fs Q ↔
      Q (fs.addresses 0).val { fs with addresses := fun n => fs.addresses (n + 1) } :=
  ensures_call_ok (h := diskHandler) (e := .address) rfl

@[simp] theorem ensures_pastZeros {Q : (ℕ → UInt8) → Fs → Prop} :
    Ensures diskHandler pastZeros fs Q ↔ Q fs.memory fs :=
  ensures_call_ok (h := diskHandler) (e := .pastZeros) rfl

@[simp] theorem not_ensures_fault {f : Fault} {Q : α → Fs → Prop} :
    ¬ Ensures diskHandler (fault f) fs Q := by
  rintro ⟨a, s', hr, -⟩
  cases hr

theorem always_fault {f : Fault} {Q : α → Fs → Prop} : Always diskHandler (fault f) fs Q := by
  intro a s' hr
  cases hr

theorem ensures_assert {p : Prop} [Decidable p] (hp : p) :
    Ensures diskHandler (assert p) fs Q ↔ Q () fs := by
  rw [assert, if_pos hp, ensures_ret]

theorem ensures_index (h0 : 0 ≤ i) (hi : i.toNat < n) {Q : UInt32 → Fs → Prop} :
    Ensures diskHandler (index a i) fs Q ↔ Q (a ⟨i.toNat, hi⟩) fs := by
  rw [index, dif_pos ⟨h0, hi⟩, ensures_ret]

theorem not_ensures_index (hi : n ≤ i.toNat) {Q : UInt32 → Fs → Prop} :
    ¬ Ensures diskHandler (index a i) fs Q := by
  rw [index, dif_neg (fun h => absurd h.2 (not_lt.mpr hi))]
  exact not_ensures_fault

theorem always_index : Always diskHandler (index a i) fs (fun _ fs' => fs' = fs) := by
  unfold index
  split_ifs
  · exact always_ret rfl
  · exact always_fault

theorem ensures_assign {v : UInt32} (h0 : 0 ≤ i) (hi : i.toNat < n)
    {Q : (Fin n → UInt32) → Fs → Prop} :
    Ensures diskHandler (assign a i v) fs Q ↔ Q (Function.update a ⟨i.toNat, hi⟩ v) fs := by
  rw [assign, dif_pos ⟨h0, hi⟩, ensures_ret]

end

end Fs

end Pintos

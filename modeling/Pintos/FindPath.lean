import Pintos.Paths
import Pintos.WorkDir

/-! # `find_path`

The walk of `find_path` through the directories of the file system.

* `dir_lookup` finds the entry of a name, if the directory can be read and the search ends before its
  block 252 (`dirLookup_spec`).
* The loop comes to what `Pathname.arrive` says, and holds open one directory at a time besides the
  one that it was given (`pathLoop_spec`).
* `find_path` returns false for a directory that was removed (`findPath_removed`), and otherwise what
  `found` says (`findPath_spec`); it does not return if a search on the way does not. -/

namespace Pintos.Kernel

open Fs Interaction Pathname Walk

/-! ### `dir_lookup` -/

section

variable {depth : ℕ} {k k₁ k₂ : Kernel} {held held₁ : Ptr → ℤ} {self d now p : Ptr} {i : Inode}
  {s : Sector} {c : CString}

/-- **`dir_lookup`** opens the inode with the name. -/
theorem dirLookup_spec (h : Opened k.2 held) (hm : MapOpen k) (hd : DirAt k.2 now p i)
    (hfile : Fs.FileOk k.1 i.sector) (hlen : c.length ≤ nameMax)
    (hs : Fs.Searchable k.1.store.sectors i.sector c) :
    Ensures kernelHandler (dirLookup now c) k (fun r k' =>
      (child k.1.store.sectors i.sector c = none ∧ r = none ∧ Opens k k' held held) ∨
      ∃ q j, child k.1.store.sectors i.sector c = some j.sector ∧ r = some q ∧
        k'.2.inodes.cells q = some j ∧ k'.2.handles = k.2.handles ∧
        Opens k k' held (gain held q)) := by
  rw [dirLookup, ensures_bind, lookup, ensures_bind, hd.ensures_inode, ensures_fs]
  refine (lookup_spec hfile hlen hs).mono ?_
  rintro _ fs' ⟨hreads, ⟨hnone, rfl⟩ | ⟨e, e', ofs, hsome, rfl, hsame⟩⟩
  · rw [ensures_ret]
    refine .inl ⟨?_, rfl, (Opens.refl h hm).read hreads⟩
    rw [child, if_pos hlen, hnone, Option.map_none]
  · refine (((Opens.refl h hm).read hreads).inodeOpen h _).mono ?_
    rintro _ k' ⟨q, j, rfl, -, hhandles, hj, hsec, hopens⟩
    refine .inr ⟨q, j, ?_, rfl, hj, hhandles, hopens⟩
    rw [child, if_pos hlen, hsome, Option.map_some, hsec, hsame.inodeSector_eq]

theorem not_ensures_dirLookup (hd : DirAt k.2 now p i) (hfile : Fs.FileOk k.1 i.sector)
    (hlen : c.length ≤ nameMax) (hs : ¬ Fs.Searchable k.1.store.sectors i.sector c)
    {Q : Option Ptr → Kernel → Prop} : ¬ Ensures kernelHandler (dirLookup now c) k Q := by
  rw [dirLookup, ensures_bind, lookup, ensures_bind, hd.ensures_inode, ensures_fs]
  rw [Fs.Searchable, not_or, not_not] at hs
  exact not_ensures_lookup hfile hlen hs.2 hs.1

/-- The sector of the inode that a function has opened. -/
def sectorOf (m : Memory) (inode : Option Ptr) : Option Sector :=
  inode.bind fun p => (m.inodes.cells p).map Inode.sector

section Names

variable (hd : DirAt k.2 now p i) (hfile : Fs.FileOk k.1 i.sector)
  (hnames : Fs.NamesEnd k.1.store.sectors i.sector) (hzero : 0 ∉ c)

include hd hfile hnames hzero

/-- **`dir_lookup`** for a name of any length. -/
theorem ensures_dirLookup (h : Opened k.2 held) (hm : MapOpen k)
    (hs : Fs.Searchable k.1.store.sectors i.sector c) :
    Ensures kernelHandler (dirLookup now c) k (fun r k' =>
      sectorOf k'.2 r = child k.1.store.sectors i.sector c ∧
      ∃ held', Opens k k' held held') := by
  rcases le_or_gt c.length nameMax with hlen | hlen
  · refine (dirLookup_spec h hm hd hfile hlen hs).mono ?_
    rintro _ k' (⟨hnone, rfl, hopens⟩ | ⟨q, j, hsome, rfl, hj, -, hopens⟩)
    · exact ⟨hnone.symm, held, hopens⟩
    · refine ⟨?_, _, hopens⟩
      rw [hsome, sectorOf, Option.bind_some, hj, Option.map_some]
  · have hchild : child k.1.store.sectors i.sector c = none := if_neg (not_le.mpr hlen)
    have hlisted := hnames.not_listed hzero hlen
    have hend := hs.resolve_left hlisted
    rw [dirLookup, ensures_bind, lookup, ensures_bind, hd.ensures_inode, ensures_fs]
    refine (lookup_unlisted hfile (hnames.decided hzero) hend hlisted).mono ?_
    rintro _ fs' ⟨rfl, hreads⟩
    rw [ensures_ret]
    exact ⟨hchild.symm, held, (Opens.refl h hm).read hreads⟩

theorem not_ensures_dirLookup_endless (hs : ¬ Fs.Searchable k.1.store.sectors i.sector c)
    (Q : Option Ptr → Kernel → Prop) : ¬ Ensures kernelHandler (dirLookup now c) k Q := by
  rcases le_or_gt c.length nameMax with hlen | hlen
  · exact not_ensures_dirLookup hd hfile hlen hs
  · obtain ⟨hlisted, hend⟩ := not_or.mp hs
    rw [dirLookup, ensures_bind, lookup, ensures_bind, hd.ensures_inode, ensures_fs]
    exact not_ensures_lookup_unlisted hfile (hnames.decided hzero) (not_not.mp hend) hlisted

end Names

/-! ### The loop -/

/-- `find_path`, which was given the directory at `d`, came to the directory at `now`, in sector `s`.
If this is another directory than `d`, it was opened on the way. -/
def Walked (k k' : Kernel) (held : Ptr → ℤ) (d now : Ptr) (s : Sector) : Prop :=
  ∃ p i held', Opens k k' held held' ∧ DirAt k'.2 now p i ∧ i.sector = s ∧
    (now ≠ d → k.2.handles.next ≤ now ∧ held p < held' p)

/-- The end of a round: the directory before is closed, and the next one opened. -/
def enter (depth : ℕ) (d now inode : Ptr) : Prog kernelSig Ptr := do
  (if now ≠ d then dirClose depth (some now) else pure ())
  deref (← dirOpen (some inode))

variable {name rest : CString} {fuel : ℕ} {k' : Kernel}

theorem pathLoop_part (fileName : CString)
    (hpart : getNextPart name = .part c rest) (hne : rest ≠ []) :
    pathLoop depth d (fuel + 1) now fileName name = (do
      match ← dirLookup now c with
      | none => pure none
      | some inode => do
        let now ← enter depth d now inode
        pathLoop depth d fuel now c rest) := by
  rw [pathLoop, hpart]
  dsimp only
  rw [if_neg hne]
  congr 1
  funext r
  cases r with
  | none => rfl
  | some inode =>
    dsimp only [enter]
    split_ifs
    · simp only [bind_assoc]
    · rfl

theorem enter_spec (depth : ℕ) {q : Ptr} {j : Inode} (hk : Opened k.2 held) (hm : MapOpen k)
    (h : Opens k k₁ held held₁) (hd : DirAt k₁.2 now p i)
    (hnew : now ≠ d → k.2.handles.next ≤ now ∧ held p < held₁ p)
    (h2 : Opens k₁ k₂ held₁ (gain held₁ q)) (hj : k₂.2.inodes.cells q = some j) :
    Ensures kernelHandler (enter depth d now q) k₂ (fun now' k' => Walked k k' held d now' j.sector) := by
  have hopens := h.trans hk h2
  -- the new directory
  have hopen : ∀ {k3 : Kernel} {held3 : Ptr → ℤ} {n : ℤ}, Opens k k3 held held3 →
      k3.2.inodes.cells q = some { j with openCnt := n } → held q < held3 q →
      Ensures kernelHandler (dirOpen (some q) >>= deref) k3
        (fun now' k' => Walked k k' held d now' j.sector) := by
    intro k3 held3 n h3 hj3 hlt3
    rw [ensures_bind, dirOpen]
    refine (h3.handleOpen hj3).mono ?_
    rintro _ k4 ⟨d', rfl, -, hd', hdir, h4, -⟩
    rw [deref, ensures_ret]
    exact ⟨q, _, held3, h4, hdir, rfl, fun _ => ⟨hd' ▸ h3.next_le, hlt3⟩⟩
  have hgain : held q < gain held₁ q q := by
    have := h.le q
    rw [gain_self]
    omega
  rw [enter]
  split_ifs with heq
  · -- the directory before is one that was opened on the way
    obtain ⟨hnext, hheld⟩ := hnew heq
    obtain ⟨n, hdir⟩ := h2.dirAt h.opened hd
    have hle := le_gain held₁ q p
    rw [ensures_bind]
    refine (hopens.dirClose hk hm hdir hnext (by omega)).mono ?_
    rintro _ k3 ⟨-, hstep, h3⟩
    have hlt3 : held q < lose (gain held₁ q) p q := by
      rcases eq_or_ne q p with rfl | hne
      · rw [lose_self, gain_self]
        omega
      · rw [lose_of_ne hne]
        exact hgain
    obtain ⟨j', hj'⟩ := h3.opened.pos_iff.mp (lt_of_le_of_lt (hk.nonneg q) hlt3)
    rw [hstep.keeps q j j' hj hj'] at hj'
    exact hopen h3 hj' hlt3
  · exact hopen hopens hj hgain

/-- What a component that the loop looks up must meet: the inode can be read. -/
def Readable (fs : Fs) (s : Sector) (c : CString) : Prop := c.length ≤ nameMax → Fs.FileOk fs s

/-- The search for a component ends. -/
def Ends (fs : Fs) (s : Sector) (c : CString) : Prop :=
  c.length ≤ nameMax → Fs.Searchable fs.store.sectors s c

/-- One round of the loop that descends, if the search for the component ends. -/
theorem pathLoop_round (fileName : CString) (hk : Opened k.2 held)
    (hm : MapOpen k) (hwalked : Walked k k₁ held d now s) (hpart : getNextPart name = .part c rest)
    (hne : rest ≠ []) (hlen : c.length ≤ nameMax) (hfile : Fs.FileOk k.1 s)
    (hs : Fs.Searchable k.1.store.sectors s c) :
    (∃ k', child k.1.store.sectors s c = none ∧ Walked k k' held d now s ∧
      ∀ Q, Ensures kernelHandler (pathLoop depth d (fuel + 1) now fileName name) k₁ Q ↔ Q none k') ∨
    ∃ now' t k', child k.1.store.sectors s c = some t ∧ Walked k k' held d now' t ∧
      ∀ Q, Ensures kernelHandler (pathLoop depth d (fuel + 1) now fileName name) k₁ Q ↔
        Ensures kernelHandler (pathLoop depth d fuel now' c rest) k' Q := by
  obtain ⟨p, i, held₁, hopens, hd, rfl, hnew⟩ := hwalked
  have hstore := hopens.reads.store
  have hlookup := dirLookup_spec hopens.opened hopens.map hd (hopens.reads.fileOk hfile) hlen
    (by rw [hstore]; exact hs)
  rw [hstore] at hlookup
  rw [pathLoop_part fileName hpart hne]
  obtain ⟨_, k₂, ⟨hnone, rfl, h2⟩ | ⟨q, j, hsome, rfl, hj, -, h2⟩, hbind⟩ := hlookup.bind_iff
  · obtain ⟨n, hd'⟩ := h2.dirAt hopens.opened hd
    refine .inl ⟨k₂, hnone, ⟨p, _, held₁, hopens.trans hk h2, hd', rfl, hnew⟩, fun Q => ?_⟩
    rw [hbind, ensures_ret]
  · obtain ⟨now', k3, h3, hbind'⟩ := (enter_spec depth hk hm hopens hd hnew h2 hj).bind_iff
    refine .inr ⟨now', j.sector, k3, hsome, h3, fun Q => ?_⟩
    rw [hbind]
    exact hbind' _ Q

/-- The loop comes to what `arrive` says. -/
theorem pathLoop_spec (hk : Opened k.2 held) (hm : MapOpen k) (fuel : ℕ) :
    ∀ (name fileName : CString) (now : Ptr) (s : Sector) (k₁ : Kernel), name.length < fuel →
      Walked k k₁ held d now s →
      Along (child k.1.store.sectors) (Readable k.1) s (descended name) →
      Along (child k.1.store.sectors) (Ends k.1) s (descended name) →
      Ensures kernelHandler (pathLoop depth d fuel now fileName name) k₁ (fun r k' =>
        ∃ now' t, Walked k k' held d now' t ∧
          ((r = none ∧ arrive (child k.1.store.sectors) s fileName name = none) ∨
            ∃ c, r = some (now', c) ∧
              arrive (child k.1.store.sectors) s fileName name = some (t, c))) := by
  induction fuel with
  | zero =>
    intro name fileName now s k₁ hfuel
    omega
  | succ fuel ih =>
    intro name fileName now s k₁ hfuel hwalked hread hends
    rcases getNextPart_cases name with ⟨hnext, hcomp⟩ | ⟨c, cs, hnext, hcomp, hlen⟩ |
      ⟨c, rest, hnext, hcomp, hlen, hshort, hlast, hsame⟩
    · rw [pathLoop, hnext, ensures_ret]
      exact ⟨now, s, hwalked, .inr ⟨fileName, rfl, arrive_done hcomp⟩⟩
    · rw [pathLoop, hnext, ensures_ret]
      refine ⟨now, s, hwalked, .inl ⟨rfl, arrive_tooLong hcomp hlen fun t => ?_⟩⟩
      rw [child, if_neg (not_le.mpr hlen)]
    · by_cases hrest : rest = []
      · have hcomp' : components name = [c] := by
          rw [hcomp, hrest]
          rfl
        rw [pathLoop, hnext]
        dsimp only
        rw [if_pos hrest, ensures_ret]
        exact ⟨now, s, hwalked, .inr ⟨c, rfl, arrive_last hcomp' hlen (hlast hrest)⟩⟩
      · rw [descended_part hcomp hrest (hsame hrest)] at hread hends
        rw [arrive_part hcomp hlen hrest (hsame hrest)]
        rcases pathLoop_round fileName hk hm hwalked hnext hrest hlen (hread.1 hlen) (hends.1 hlen)
          with ⟨k', hnone, hwalked', hiff⟩ | ⟨now', t, k', hsome, hwalked', hiff⟩
        · rw [hiff, hnone]
          exact ⟨now, s, hwalked', .inl ⟨rfl, rfl⟩⟩
        · rw [hiff, hsome]
          exact ih rest c now' t k' (by omega) hwalked' (hread.2 t hsome) (hends.2 t hsome)

/-- The loop does not return if the search for a component does not. -/
theorem not_ensures_pathLoop (hk : Opened k.2 held) (hm : MapOpen k) (fuel : ℕ) :
    ∀ (name fileName : CString) (now : Ptr) (s : Sector) (k₁ : Kernel), name.length < fuel →
      Walked k k₁ held d now s →
      Along (child k.1.store.sectors) (Readable k.1) s (descended name) →
      ¬ Along (child k.1.store.sectors) (Ends k.1) s (descended name) →
      ∀ Q, ¬ Ensures kernelHandler (pathLoop depth d fuel now fileName name) k₁ Q := by
  induction fuel with
  | zero =>
    intro name fileName now s k₁ hfuel
    omega
  | succ fuel ih =>
    intro name fileName now s k₁ hfuel hwalked hread hends Q
    rcases getNextPart_cases name with ⟨hnext, hcomp⟩ | ⟨c, cs, hnext, hcomp, hlen⟩ |
      ⟨c, rest, hnext, hcomp, hlen, hshort, hlast, hsame⟩
    · rw [descended_done hcomp] at hends
      exact absurd trivial hends
    · rcases descended_cons hcomp with hnil | ⟨l, hl⟩
      · rw [hnil] at hends
        exact absurd trivial hends
      · rw [hl] at hends
        refine absurd ⟨fun hle => absurd hlen (not_lt.mpr hle), fun t ht => ?_⟩ hends
        rw [child, if_neg (not_le.mpr hlen)] at ht
        cases ht
    · by_cases hrest : rest = []
      · have hcomp' : components name = [c] := by
          rw [hcomp, hrest]
          rfl
        rw [descended_last hcomp' (hlast hrest)] at hends
        exact absurd trivial hends
      · rw [descended_part hcomp hrest (hsame hrest)] at hread hends
        have hfile := hread.1 hlen
        by_cases hs : Fs.Searchable k.1.store.sectors s c
        · rcases pathLoop_round fileName hk hm hwalked hnext hrest hlen hfile hs
            with ⟨k', hnone, hwalked', hiff⟩ | ⟨now', t, k', hsome, hwalked', hiff⟩
          · refine absurd ⟨fun _ => hs, fun t ht => ?_⟩ hends
            rw [hnone] at ht
            cases ht
          · rw [hiff]
            refine ih rest c now' t k' (by omega) hwalked' (hread.2 t hsome) (fun hrest => hends ?_) Q
            refine ⟨fun _ => hs, fun t' ht' => ?_⟩
            rw [hsome] at ht'
            rwa [← Option.some.inj ht']
        · obtain ⟨p, i, held₁, hopens, hd, rfl, hnew⟩ := hwalked
          rw [pathLoop_part fileName hnext hrest, ensures_bind]
          refine not_ensures_dirLookup hd (hopens.reads.fileOk hfile) hlen ?_
          rwa [hopens.reads.store]

/-! ### The function -/

/-- The directory that `find_path` starts from is the one in the sector. -/
def StartDir (m : Memory) (self : Ptr) : Option Ptr → Sector → Prop
  | some d, s => ∃ p i, DirAt m d p i ∧ i.sector = s
  | none, s => CurrentDir m self s

/-- The name that a local array of characters holds which was not initialised. -/
def stackName (fs : Fs) : CString :=
  ((List.range 512).map fun p => if h : p < 512 then blockOf (fs.stack 0) ⟨p, h⟩ else 0).takeWhile
    (· != 0)

/-- What `find_path` finds from a directory that is not removed. -/
def found (fs : Fs) (start : Sector) (path : CString) : Option (Sector × CString) :=
  if path = [47] then some (rootDirSector, [46])
  else (arrive (child fs.store.sectors) (base start path) (stackName fs) path).map fun r =>
    (r.1, r.2.take nameMax)

/-- `find_path` returned: `*file_dir` is a copy of the directory in the sector, which is the one that
was given or was opened on the way. -/
def Found (k k' : Kernel) (held : Ptr → ℤ) (dir : Option Ptr) (fileDir : Ptr) (t : Sector) : Prop :=
  ∃ k₁ held₁ now h p i, Opens k k₁ held held₁ ∧ k₁.2.handles.cells now = some h ∧ h.inode = some p ∧
    k₁.2.inodes.cells p = some i ∧ i.sector = t ∧ (dir = some now ∨ held p < held₁ p) ∧
    k' = (k₁.1, withHandles k₁.2 (k₁.2.handles.store fileDir h))

variable {dir : Option Ptr} {fileDir : Ptr} {path : CString}

theorem Found.reads (h : Found k k' held dir fileDir s) : Fs.Reads k.1 k'.1 := by
  obtain ⟨k₁, held₁, now, hdl, p, i, hopens, -, -, -, -, -, rfl⟩ := h
  exact hopens.reads

/-- The directory that `find_path` works with. -/
def startFrom (self : Ptr) : Option Ptr → Prog kernelSig Ptr
  | some dir => pure dir
  | none => do deref (← dirOpenCurrent self)

/-- The directory that the loop starts at. -/
def openBase (path : CString) (dir : Ptr) : Prog kernelSig Ptr :=
  if path.head? = some 47 then do deref (← dirOpenRoot) else pure dir

/-- The end of `find_path`. -/
def finish (fileDir : Ptr) : Option (Ptr × CString) → Prog kernelSig (Option CString)
  | none => pure none
  | some (now, fileName) => do
    setHandle fileDir (← getHandle now)
    pure (some (fileName.take nameMax))

theorem findPath_eq : findPath depth self dir path fileDir = (do
    let d ← startFrom self dir
    let i ← handleInode d
    if i.removed then pure none
    else if path = [47] then do
      let root ← deref (← dirOpenRoot)
      finish fileDir (some (root, [46]))
    else do
      let now ← openBase path d
      let fileName ← uninitName
      finish fileDir (← pathLoop depth d (path.length + 1) now fileName path)) := by
  have hbody : ∀ d : Ptr, (if path.head? = some 47 then do
      let now ← deref (← dirOpenRoot)
      let fileName ← uninitName
      finish fileDir (← pathLoop depth d (path.length + 1) now fileName path)
    else do
      let fileName ← uninitName
      finish fileDir (← pathLoop depth d (path.length + 1) d fileName path)) = (do
      let now ← openBase path d
      let fileName ← uninitName
      finish fileDir (← pathLoop depth d (path.length + 1) now fileName path)) := by
    intro d
    unfold openBase
    split_ifs
    · simp only [bind_assoc]
    · rfl
  simp only [← hbody]
  cases dir with
  | some d => rfl
  | none =>
    rw [startFrom]
    simp only [bind_assoc]
    rfl

theorem startFrom_spec (hk : Opened k.2 held) (hm : MapOpen k) (hstart : StartDir k.2 self dir s) :
    Ensures kernelHandler (startFrom self dir) k (fun d k' => ∃ p i held', i.sector = s ∧
        k'.1 = k.1 ∧ DirAt k'.2 d p i ∧ (dir = some d ∨ held p < held' p) ∧ Opens k k' held held' ∧
        (Removed k.2 s ↔ i.removed = true)) := by
  cases dir with
  | some d =>
    obtain ⟨p, i, hd, rfl⟩ := hstart
    have hopens := Opens.refl hk hm
    rw [startFrom, ensures_ret]
    exact ⟨p, i, held, rfl, rfl, hd, .inl rfl, hopens, hopens.removed_iff hk hd.inode⟩
  | none =>
    rw [startFrom, ensures_bind]
    refine (dirOpenCurrent_spec hk hm hstart).mono ?_
    rintro _ k' ⟨d, p, i, held', rfl, rfl, hfs, hd, -, hopens, hlt, -⟩
    rw [deref, ensures_ret]
    exact ⟨p, i, held', rfl, hfs, hd, .inr hlt, hopens, hopens.removed_iff hk hd.inode⟩

theorem dirOpenRoot_spec (hk : Opened k.2 held) (hm : MapOpen k) (d : Ptr) :
    Ensures kernelHandler (do deref (← dirOpenRoot)) k (fun now k' => k'.1 = k.1 ∧
      Walked k k' held d now rootDirSector) := by
  simp only [dirOpenRoot, dirOpen, ensures_bind]
  refine ((Opens.refl hk hm).inodeOpen hk rootDirSector).mono ?_
  rintro _ k₁ ⟨p, i, rfl, hfs1, hhandles, hi, hsec, h1⟩
  refine (h1.handleOpen hi).mono ?_
  rintro _ k₂ ⟨now, rfl, hfs2, hnow, hd, h2, -⟩
  rw [deref, ensures_ret]
  refine ⟨hfs2.trans hfs1, p, i, _, h2, hd, hsec, fun _ => ⟨by rw [← hnow, hhandles], ?_⟩⟩
  rw [gain_self]
  omega

theorem openBase_spec (path : CString) (hk : Opened k.2 held) (hm : MapOpen k) (hd : DirAt k.2 d p i) :
    Ensures kernelHandler (openBase path d) k (fun now k' => k'.1 = k.1 ∧
      Walked k k' held d now (base i.sector path)) := by
  unfold openBase base
  split_ifs
  · exact dirOpenRoot_spec hk hm d
  · rw [ensures_ret]
    exact ⟨rfl, p, i, held, .refl hk hm, hd, rfl, fun hne => absurd rfl hne⟩

theorem ensures_uninitName {Q : CString → Kernel → Prop} : Ensures kernelHandler uninitName k Q ↔
    Q (stackName k.1) ({ k.1 with stack := fun n => k.1.stack (n + 1) }, k.2) := by
  rw [uninitName, ensures_bind, ensures_fs, uninitEntry, ensures_bind, ensures_uninit,
    ensures_ret, ensures_ret]
  rfl

/-- `d` is the directory that `find_path` works with, in the state `k₁`. -/
structure Started (k k₁ : Kernel) (held held₁ : Ptr → ℤ) (dir : Option Ptr) (d : Ptr) : Prop where
  opens : Opens k k₁ held held₁
  origin : ∃ p i, DirAt k₁.2 d p i ∧ (dir = some d ∨ held p < held₁ p)

theorem finish_spec {c : CString} (hk : Opened k.2 held)
    (hstarted : Started k k₁ held held₁ dir d) (hwalked : Walked k₁ k' held₁ d now s) :
    Ensures kernelHandler (finish fileDir (some (now, c))) k' (fun r k₂ =>
      r = some (c.take nameMax) ∧ Found k k₂ held dir fileDir s) := by
  obtain ⟨p, i, held', h', hd, hsec, hnew⟩ := hwalked
  obtain ⟨hdl, hcell, hinode⟩ := hd.dir
  have horigin : dir = some now ∨ held p < held' p := by
    rcases eq_or_ne now d with rfl | hne
    · obtain ⟨p0, i0, hd0, horigin⟩ := hstarted.origin
      obtain ⟨n, hd0'⟩ := h'.dirAt hstarted.opens.opened hd0
      obtain rfl : p = p0 := (hd.unique hd0').1
      exact horigin.imp_right fun hlt => lt_of_lt_of_le hlt (h'.le p)
    · exact .inr (lt_of_le_of_lt (hstarted.opens.le p) (hnew hne).2)
  rw [finish, ensures_bind, ensures_getHandle hcell, ensures_bind, ensures_setHandle h'.map.synced,
    ensures_ret]
  exact ⟨rfl, k', held', now, hdl, p, i, hstarted.opens.trans hk h', hcell, hinode, hd.inode, hsec,
    horigin, rfl⟩

variable (hk : Opened k.2 held) (hm : MapOpen k) (hstart : StartDir k.2 self dir s)

include hk hm hstart

/-- `find_path` returns false for a directory that was removed. -/
theorem findPath_removed (depth : ℕ) (path : CString) (fileDir : Ptr) (hremoved : Removed k.2 s) :
    Ensures kernelHandler (findPath depth self dir path fileDir) k (fun r k' =>
      r = none ∧ ∃ held', Opens k k' held held') := by
  rw [findPath_eq, ensures_bind]
  refine (startFrom_spec hk hm hstart).mono ?_
  rintro d k₁ ⟨p, i, held₁, rfl, -, hd, horigin, hopens, hiff⟩
  rw [ensures_bind, hd.ensures_inode, if_pos (hiff.mp hremoved), ensures_ret]
  exact ⟨rfl, held₁, hopens⟩

theorem findPath_slash (hremoved : ¬ Removed k.2 s) :
    Ensures kernelHandler (findPath depth self dir [47] fileDir) k (fun r k' =>
      r = some [46] ∧ Found k k' held dir fileDir rootDirSector) := by
  rw [findPath_eq, ensures_bind]
  refine (startFrom_spec hk hm hstart).mono ?_
  rintro d k₁ ⟨p, i, held₁, rfl, -, hd, horigin, hopens, hiff⟩
  rw [ensures_bind, hd.ensures_inode, if_neg (hiff.not.mp hremoved), if_pos rfl, ← bind_assoc,
    ensures_bind]
  refine (dirOpenRoot_spec hopens.opened hopens.map d).mono ?_
  rintro root k₂ ⟨-, hwalked⟩
  exact finish_spec hk ⟨hopens, p, i, hd, horigin⟩ hwalked

/-- Otherwise the loop starts at the root directory or at the given one. -/
theorem findPath_loop (depth : ℕ) (fileDir : Ptr) (hremoved : ¬ Removed k.2 s) (hpath : path ≠ [47]) :
    ∃ d now k₁ k₂ held₁, k₁.1 = k.1 ∧ Started k k₁ held held₁ dir d ∧
      Walked k₁ k₂ held₁ d now (base s path) ∧ ∀ Q,
        Ensures kernelHandler (findPath depth self dir path fileDir) k Q ↔
          Ensures kernelHandler (pathLoop depth d (path.length + 1) now (stackName k.1) path >>=
            finish fileDir) k₂ Q := by
  obtain ⟨d, k₁, ⟨p, i, held₁, rfl, hfs1, hd, horigin, hopens, hiff⟩, hstartFrom⟩ :=
    (startFrom_spec hk hm hstart).bind_iff (β := Option CString)
  obtain ⟨now, k₂, ⟨hfs2, hwalked⟩, hbase⟩ :=
    (openBase_spec path hopens.opened hopens.map hd).bind_iff (β := Option CString)
  obtain ⟨q, j, held2, h2, hd2, hsec, hnew⟩ := hwalked
  have hread : Fs.Reads k₂.1 { k₂.1 with stack := fun n => k₂.1.stack (n + 1) } := ⟨rfl, rfl, rfl⟩
  refine ⟨d, now, k₁, _, held₁, hfs1, ⟨hopens, p, i, hd, horigin⟩,
    ⟨q, j, held2, h2.read hread, hd2, hsec, hnew⟩, fun Q => ?_⟩
  rw [findPath_eq, hstartFrom, ensures_bind, hd.ensures_inode,
    if_neg (hiff.not.mp hremoved), if_neg hpath, hbase, ensures_bind, ensures_uninitName, hfs2, hfs1]

theorem findPath_spec (depth : ℕ) (fileDir : Ptr) (hremoved : ¬ Removed k.2 s)
    (hread : Along (child k.1.store.sectors) (Readable k.1) (base s path) (descended path))
    (hends : Along (child k.1.store.sectors) (Ends k.1) (base s path) (descended path)) :
    Ensures kernelHandler (findPath depth self dir path fileDir) k (fun r k' =>
      (found k.1 s path = none ∧ r = none ∧ ∃ held', Opens k k' held held') ∨
      ∃ t c, found k.1 s path = some (t, c) ∧ r = some c ∧ Found k k' held dir fileDir t) := by
  by_cases hpath : path = [47]
  · subst hpath
    refine (findPath_slash hk hm hstart hremoved).mono ?_
    rintro _ k' ⟨rfl, hfound⟩
    exact .inr ⟨rootDirSector, [46], if_pos rfl, rfl, hfound⟩
  · obtain ⟨d, now, k₁, k₂, held₁, hfs, hstarted, hwalked, hiff⟩ :=
      findPath_loop hk hm hstart depth fileDir hremoved hpath
    rw [hiff, ensures_bind, found, if_neg hpath]
    rw [← hfs] at hread hends
    have hopens := hstarted.opens
    refine (pathLoop_spec hopens.opened hopens.map (path.length + 1) path (stackName k.1) now _ k₂
      (Nat.lt_succ_self _) hwalked hread hends).mono ?_
    rw [hfs]
    rintro _ k3 ⟨now', t, hwalked', ⟨rfl, harrive⟩ | ⟨c, rfl, harrive⟩⟩
    · obtain ⟨p, i, held3, h3, -⟩ := hwalked'
      rw [finish, ensures_ret, harrive]
      exact .inl ⟨rfl, rfl, held3, hopens.trans hk h3⟩
    · rw [harrive]
      refine (finish_spec hk hstarted hwalked').mono ?_
      rintro _ k4 ⟨rfl, hfound⟩
      exact .inr ⟨t, _, rfl, rfl, hfound⟩

theorem not_ensures_findPath (hremoved : ¬ Removed k.2 s)
    (hread : Along (child k.1.store.sectors) (Readable k.1) (base s path) (descended path))
    (hends : ¬ Along (child k.1.store.sectors) (Ends k.1) (base s path) (descended path))
    {Q : Option CString → Kernel → Prop} :
    ¬ Ensures kernelHandler (findPath depth self dir path fileDir) k Q := by
  have hpath : path ≠ [47] := by
    rintro rfl
    exact hends trivial
  obtain ⟨d, now, k₁, k₂, held₁, hfs, ⟨hopens, -⟩, hwalked, hiff⟩ :=
    findPath_loop hk hm hstart depth fileDir hremoved hpath
  rw [hiff, ensures_bind]
  rw [← hfs] at hread hends
  exact not_ensures_pathLoop hopens.opened hopens.map (path.length + 1) path (stackName k.1) now _ k₂
    (Nat.lt_succ_self _) hwalked hread hends _

end

end Pintos.Kernel

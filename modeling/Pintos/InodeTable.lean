import Pintos.Kernel
import Pintos.InodeRemove

/-! # The table of open inodes

`open_inodes` holds the inodes that are open, each with the number of its openers.

* `Opened m held`: an inode is in the list iff it has openers, `open_cnt` is their number, and no
  two inodes of the list have the same sector.  `inode_open` and `inode_reopen` add an opener
  (`inodeOpen_spec`, `inodeReopen_spec`), `inode_close` takes one away (`Opened.closed`).
* Over a sequence of calls the openers of an inode are the calls that opened it and did not close
  it (`openers`).  At the last close a removed inode is released, and in no other call, as long as
  it has no more blocks than `deallocate_inode` can release (`inodeTable_lifeCycle`). -/

namespace Pintos.Kernel

open Fs Function Heap Interaction List Option

/-! ### The list and the counts -/

structure Opened (m : Memory) (held : Ptr → ℤ) : Prop where
  nodup : m.openInodes.Nodup
  mem_iff : ∀ p, p ∈ m.openInodes ↔ 0 < held p
  nonneg : ∀ p, 0 ≤ held p
  live : ∀ p, p ∈ m.openInodes ↔ (m.inodes.cells p).isSome
  count : ∀ p i, m.inodes.cells p = some i → i.openCnt = held p
  one : ∀ p q i j, m.inodes.cells p = some i → m.inodes.cells q = some j → i.sector = j.sector →
    p = q

/-- The free map's file is open, and the file system sees its inode. -/
structure MapOpen (k : Kernel) : Prop where
  synced : Synced k
  live : ∃ p i, k.2.freeMapFile = some p ∧ k.2.inodes.cells p = some i

theorem MapOpen.file {k : Kernel} (h : MapOpen k) : ∃ p i, k.2.freeMapFile = some p ∧
    k.2.inodes.cells p = some i ∧ k.1.freeMapFile = some ⟨i.sector, 1, false, i.denyWriteCnt⟩ := by
  obtain ⟨p, i, hp, hi⟩ := h.live
  refine ⟨p, i, hp, hi, h.synced.trans ?_⟩
  simp only [Memory.mapInode, hp, hi, map_some]

/-- Between the two states inodes were opened and closed. -/
structure InodesStep (m m' : Memory) : Prop where
  rest : m' = { m with inodes := m'.inodes, openInodes := m'.openInodes }
  next_le : m.inodes.next ≤ m'.inodes.next
  keeps : ∀ p i i', m.inodes.cells p = some i → m'.inodes.cells p = some i' →
    i' = { i with openCnt := i'.openCnt }

/-- One opener more, or one less. -/
def gain (held : Ptr → ℤ) (p : Ptr) : Ptr → ℤ := update held p (held p + 1)

def lose (held : Ptr → ℤ) (p : Ptr) : Ptr → ℤ := update held p (held p - 1)

section

variable {held : Ptr → ℤ} {p q : Ptr}

theorem gain_self : gain held p p = held p + 1 := update_self ..

theorem gain_of_ne (h : q ≠ p) : gain held p q = held q := update_of_ne h ..

theorem lose_self : lose held p p = held p - 1 := update_self ..

theorem lose_of_ne (h : q ≠ p) : lose held p q = held q := update_of_ne h ..

end

variable {j : Inode}

namespace Opened

variable {m : Memory} {held : Ptr → ℤ} {p : Ptr} {i : Inode}

theorem pos_iff (h : Opened m held) : 0 < held p ↔ ∃ i, m.inodes.cells p = some i := by
  rw [← h.mem_iff, h.live, isSome_iff_exists]

theorem fresh (h : Opened m held) : held m.inodes.next = 0 := by
  refine le_antisymm (not_lt.mp fun hpos => ?_) (h.nonneg _)
  obtain ⟨i, hi⟩ := h.pos_iff.mp hpos
  exact absurd (lt_next hi) (lt_irrefl _)

theorem store (h : Opened m held) (hp : m.inodes.cells p = some i) (hsec : j.sector = i.sector)
    (hn : 0 < j.openCnt) :
    Opened { m with inodes := m.inodes.store p j } (update held p j.openCnt) := by
  have hpos : 0 < held p := h.pos_iff.mpr ⟨i, hp⟩
  have hsector : ∀ q a, (m.inodes.store p j).cells q = some a →
      ∃ b, m.inodes.cells q = some b ∧ b.sector = a.sector := by
    intro q a hq
    rcases of_store hq with ⟨rfl, rfl⟩ | ⟨-, hq⟩
    · exact ⟨i, hp, hsec.symm⟩
    · exact ⟨a, hq, rfl⟩
  refine ⟨h.nodup, fun q => ?_, fun q => ?_, fun q => ?_, fun q a hq => ?_, fun q r a b hq hr hs => ?_⟩
  · rcases eq_or_ne q p with rfl | hne
    · rw [update_self, h.mem_iff]
      exact iff_of_true hpos hn
    · rw [update_of_ne hne, h.mem_iff]
  · rcases eq_or_ne q p with rfl | hne
    · rw [update_self]
      exact hn.le
    · rw [update_of_ne hne]
      exact h.nonneg q
  · rcases eq_or_ne q p with rfl | hne
    · rw [store_self hp, h.live, hp]
      rfl
    · rw [store_of_ne hne]
      exact h.live q
  · rcases of_store hq with ⟨rfl, rfl⟩ | ⟨hne, hq⟩
    · rw [update_self]
    · rw [update_of_ne hne]
      exact h.count q a hq
  · obtain ⟨a', ha', hsa⟩ := hsector q a hq
    obtain ⟨b', hb', hsb⟩ := hsector r b hr
    exact h.one q r a' b' ha' hb' (by rw [hsa, hsb, hs])

theorem alloc (h : Opened m held) {s : Sector}
    (hs : ∀ q j, m.inodes.cells q = some j → j.sector ≠ s) :
    Opened { m with
      inodes := m.inodes.alloc ⟨s, 1, false, 0⟩, openInodes := m.inodes.next :: m.openInodes }
      (gain held m.inodes.next) := by
  have hfresh := h.fresh
  have hnot : m.inodes.next ∉ m.openInodes := by
    rw [h.mem_iff, hfresh]
    exact lt_irrefl _
  unfold gain
  refine ⟨nodup_cons.mpr ⟨hnot, h.nodup⟩, fun q => ?_, fun q => ?_, fun q => ?_,
    fun q j hq => ?_, fun q r j l hq hr hsec => ?_⟩
  · rcases eq_or_ne q m.inodes.next with rfl | hne
    · rw [update_self, hfresh]
      exact iff_of_true mem_cons_self (by decide)
    · rw [update_of_ne hne, mem_cons, or_iff_right hne, h.mem_iff]
  · rcases eq_or_ne q m.inodes.next with rfl | hne
    · rw [update_self, hfresh]
      decide
    · rw [update_of_ne hne]
      exact h.nonneg q
  · rcases eq_or_ne q m.inodes.next with rfl | hne
    · rw [alloc_self]
      exact iff_of_true mem_cons_self rfl
    · rw [alloc_of_ne hne, mem_cons, or_iff_right hne, h.live]
  · rcases of_alloc hq with ⟨rfl, rfl⟩ | ⟨hne, hq⟩
    · rw [update_self, hfresh]
      rfl
    · rw [update_of_ne hne]
      exact h.count q j hq
  · rcases of_alloc hq with ⟨rfl, rfl⟩ | ⟨hq', hq⟩
    · rcases of_alloc hr with ⟨rfl, rfl⟩ | ⟨-, hr⟩
      · rfl
      · exact absurd hsec.symm (hs r l hr)
    · rcases of_alloc hr with ⟨rfl, rfl⟩ | ⟨-, hr⟩
      · exact absurd hsec (hs q j hq)
      · exact h.one q r j l hq hr hsec

theorem free (h : Opened m held) (hp : held p = 1) :
    Opened { m with inodes := m.inodes.free p, openInodes := m.openInodes.erase p }
      (lose held p) := by
  unfold lose
  refine ⟨h.nodup.erase p, fun q => ?_, fun q => ?_, fun q => ?_, fun q j hq => ?_,
    fun q r j l hq hr hsec => ?_⟩
  · rw [h.nodup.mem_erase_iff]
    rcases eq_or_ne q p with rfl | hne
    · rw [update_self, hp]
      simp
    · rw [update_of_ne hne, and_iff_right hne, h.mem_iff]
  · rcases eq_or_ne q p with rfl | hne
    · rw [update_self, hp]
      decide
    · rw [update_of_ne hne]
      exact h.nonneg q
  · rw [h.nodup.mem_erase_iff]
    rcases eq_or_ne q p with rfl | hne
    · simp
    · rw [free_of_ne hne, and_iff_right hne, h.live]
  · obtain ⟨hne, hq⟩ := of_free hq
    rw [update_of_ne hne]
    exact h.count q j hq
  · exact h.one q r j l (of_free hq).2 (of_free hr).2 hsec

end Opened

/-! ### The functions -/

section

variable {k : Kernel} {held : Ptr → ℤ} {p : Ptr} {i : Inode} {depth : ℕ}

theorem ensures_getInode (hp : k.2.inodes.cells p = some i) {Q : Inode → Kernel → Prop} :
    Ensures kernelHandler (getInode p) k Q ↔ Q i k := by
  simp [getInode, hp]

theorem mapInode_store (hp : k.2.inodes.cells p = some i) (hsec : j.sector = i.sector)
    (hdeny : j.denyWriteCnt = i.denyWriteCnt) :
    Memory.mapInode { k.2 with inodes := k.2.inodes.store p j } = k.2.mapInode := by
  unfold Memory.mapInode
  cases hfile : k.2.freeMapFile with
  | none => rfl
  | some q =>
    dsimp only
    rcases eq_or_ne q p with rfl | hne
    · rw [store_self hp, hp, map_some, map_some, hsec, hdeny]
    · rw [store_of_ne hne]

variable {Q : Unit → Kernel → Prop}

section

variable (h : MapOpen k) (hp : k.2.inodes.cells p = some i) (hsec : j.sector = i.sector)
  (hdeny : j.denyWriteCnt = i.denyWriteCnt)
include h hp hsec hdeny

theorem MapOpen.store : MapOpen (k.1, { k.2 with inodes := k.2.inodes.store p j }) := by
  refine ⟨h.synced.trans (mapInode_store hp hsec hdeny).symm, ?_⟩
  obtain ⟨q, a, hfile, hq⟩ := h.live
  rcases eq_or_ne q p with rfl | hne
  · exact ⟨q, j, hfile, store_self hp⟩
  · exact ⟨q, a, hfile, by rw [← hq]; exact store_of_ne hne⟩

theorem ensures_setInode : Ensures kernelHandler (setInode p j) k Q ↔
      Q () (k.1, { k.2 with inodes := k.2.inodes.store p j }) := by
  rw [setInode, ensures_bind, ensures_memory, ensures_setMemory,
    put_eq (h.synced.trans (mapInode_store hp hsec hdeny).symm)]

end

theorem inodesStep_store (hp : k.2.inodes.cells p = some i) (n : ℤ) :
    InodesStep k.2 { k.2 with inodes := k.2.inodes.store p { i with openCnt := n } } := by
  refine ⟨rfl, le_rfl, fun q j j' hq hq' => ?_⟩
  rcases of_store hq' with ⟨rfl, rfl⟩ | ⟨-, hq'⟩
  · rw [some.inj (hq.symm.trans hp)]
  · rw [some.inj (hq.symm.trans hq')]

/-- **`inode_reopen`** adds an opener. -/
theorem inodeReopen_spec (h : Opened k.2 held) (hm : MapOpen k) (hp : 0 < held p) :
    Ensures kernelHandler (inodeReopen (some p)) k (fun r k' => r = some p ∧ k'.1 = k.1 ∧
      Opened k'.2 (gain held p) ∧ InodesStep k.2 k'.2 ∧ MapOpen k') := by
  obtain ⟨i, hi⟩ := h.pos_iff.mp hp
  rw [inodeReopen, ensures_bind, ensures_getInode hi, ensures_bind, ensures_setInode hm hi (by rfl)
    (by rfl), ensures_ret]
  refine ⟨rfl, rfl, ?_, inodesStep_store hi _, hm.store hi rfl rfl⟩
  rw [gain, ← h.count p i hi]
  exact h.store (j := { i with openCnt := i.openCnt + 1 }) hi rfl (by
    dsimp only
    rw [h.count p i hi]
    omega)

/-- **`inode_open`** adds an opener to the one inode of the sector. -/
theorem inodeOpen_spec (h : Opened k.2 held) (hm : MapOpen k) (s : Sector) :
    Ensures kernelHandler (inodeOpen s) k (fun r k' => ∃ p i, r = some p ∧ k'.1 = k.1 ∧
      k'.2.inodes.cells p = some i ∧ i.sector = s ∧
      ((k.2.inodes.cells p).isSome ∨ (p = k.2.inodes.next ∧ i = ⟨s, 1, false, 0⟩)) ∧
      Opened k'.2 (gain held p) ∧ InodesStep k.2 k'.2 ∧ MapOpen k') := by
  rw [inodeOpen, ensures_bind, ensures_memory]
  cases hfind : k.2.openInodes.find? (fun p => (k.2.inodes.cells p).any fun i => i.sector == s) with
  | some p =>
    have hany := List.find?_some hfind
    have hpos : 0 < held p := (h.mem_iff p).mp (mem_of_find?_eq_some hfind)
    obtain ⟨i, hi⟩ := h.pos_iff.mp hpos
    rw [hi] at hany
    have hsec : i.sector = s := beq_iff_eq.mp hany
    refine (inodeReopen_spec h hm hpos).mono ?_
    rintro r k' ⟨rfl, hfs, hopened, hstep, hmap⟩
    obtain ⟨i', hi'⟩ := hopened.pos_iff.mp (show 0 < gain held p p by
      rw [gain, update_self]; omega)
    refine ⟨p, i', rfl, hfs, hi', ?_, .inl (by rw [hi]; rfl), hopened, hstep, hmap⟩
    rw [hstep.keeps p i i' hi hi', hsec]
  | none =>
    have hnone : ∀ q j, k.2.inodes.cells q = some j → j.sector ≠ s := by
      intro q j hq hsec
      have := List.find?_eq_none.mp hfind q ((h.live q).mpr (by rw [hq]; rfl))
      rw [hq] at this
      exact this (beq_iff_eq.mpr hsec)
    obtain ⟨q, j, hfile, hq⟩ := hm.live
    have hcell : ∀ a, (k.2.inodes.alloc a).cells q = some j := fun a => alloc_of_live hq
    have hmap : Memory.mapInode { k.2 with
        inodes := k.2.inodes.alloc ⟨s, 1, false, 0⟩,
        openInodes := k.2.inodes.next :: k.2.openInodes } = k.2.mapInode := by
      simp only [Memory.mapInode, hfile, hcell, hq]
    rw [ensures_bind, ensures_setMemory, ensures_ret, put_eq (hm.synced.trans hmap.symm)]
    refine ⟨k.2.inodes.next, ⟨s, 1, false, 0⟩, rfl, rfl, alloc_self, rfl,
      .inr ⟨rfl, rfl⟩, h.alloc hnone, ⟨rfl, Nat.le_succ _, fun r i i' hr hr' => ?_⟩,
      hm.synced.trans hmap.symm, q, j, hfile, hcell _⟩
    rw [alloc_of_live hr, some.injEq] at hr'
    rw [hr']

/-! ### `inode_close` -/

/-- The memory after an opener is gone. -/
def closed (m : Memory) (p : Ptr) (i : Inode) : Memory :=
  if i.openCnt - 1 = 0 then
    { m with inodes := m.inodes.free p, openInodes := m.openInodes.erase p }
  else { m with inodes := m.inodes.store p { i with openCnt := i.openCnt - 1 } }

/-- The inode is freed when no opener is left. -/
theorem always_inodeClose_fs (fs : Fs) (i : Inode) :
    Always diskHandler (Fs.inodeClose depth i) fs (fun r _ =>
      r = if i.openCnt - 1 = 0 then none else some { i with openCnt := i.openCnt - 1 }) := by
  unfold Fs.inodeClose
  split_ifs
  · exact always_then fun _ _ => always_then fun _ _ =>
      always_then fun _ _ => always_ret rfl
  · exact always_ret rfl
  · exact always_ret rfl

theorem ensures_inodeClose (hp : k.2.inodes.cells p = some i) :
    Ensures kernelHandler (inodeClose depth (some p)) k Q ↔
      Ensures diskHandler (Fs.inodeClose depth i) k.1 (fun _ fs' =>
        Q () (put (fs', k.2) (closed k.2 p i))) := by
  rw [inodeClose, ensures_bind, ensures_getInode hp, ensures_bind, ensures_fs]
  refine ensures_congr (always_inodeClose_fs k.1 i) fun r fs' hr => ?_
  rw [hr, closed]
  split_ifs
  · simp
  · simp [setInode]

theorem Opened.closed (h : Opened k.2 held) (hp : k.2.inodes.cells p = some i) :
    Opened (closed k.2 p i) (lose held p) := by
  have hcnt := h.count p i hp
  unfold Kernel.closed
  split_ifs with hzero
  · exact h.free (by omega)
  · rw [lose, ← hcnt]
    have hpos := h.pos_iff.mpr ⟨i, hp⟩
    exact h.store (j := { i with openCnt := i.openCnt - 1 }) hp rfl (by dsimp only; omega)

theorem inodesStep_closed (hp : k.2.inodes.cells p = some i) :
    InodesStep k.2 (closed k.2 p i) := by
  unfold closed
  split_ifs
  · refine ⟨rfl, le_rfl, fun q j j' hq hq' => ?_⟩
    rw [some.inj (hq.symm.trans (of_free hq').2)]
  · exact inodesStep_store hp _

/-- The free map's inode stays open when another opener of it, or of another inode, is gone. -/
theorem MapOpen.closed (h : MapOpen k) (hp : k.2.inodes.cells p = some i)
    (hmap : k.2.freeMapFile = some p → i.openCnt ≠ 1) :
    MapOpen (k.1, Kernel.closed k.2 p i) := by
  unfold Kernel.closed
  split_ifs with hzero
  · obtain ⟨q, j, hfile, hq⟩ := h.live
    have hne : q ≠ p := by
      rintro rfl
      exact hmap hfile (by omega)
    have hcell : (k.2.inodes.free p).cells q = some j := by rw [free_of_ne hne, hq]
    refine ⟨h.synced.trans ?_, q, j, hfile, hcell⟩
    simp only [Memory.mapInode, hfile, hcell, hq]
  · exact h.store hp rfl rfl

/-- A close that releases nothing leaves the file system alone. -/
theorem inodeClose_quiet (h : Opened k.2 held) (hm : MapOpen k) (hi : k.2.inodes.cells p = some i)
    (hquiet : i.removed = true → held p ≠ 1) (hmap : k.2.freeMapFile = some p → held p ≠ 1) :
    Ensures kernelHandler (inodeClose depth (some p)) k (fun _ k' => k'.1 = k.1 ∧
      Opened k'.2 (lose held p) ∧ InodesStep k.2 k'.2 ∧ MapOpen k') := by
  have hcnt := h.count p i hi
  have hopen : MapOpen (k.1, closed k.2 p i) :=
    hm.closed hi fun hf => by rw [hcnt]; exact hmap hf
  have hput : put k (closed k.2 p i) = (k.1, closed k.2 p i) := put_eq hopen.synced
  have hfs : Ensures diskHandler (Fs.inodeClose depth i) k.1 (fun _ fs' => fs' = k.1) := by
    unfold Fs.inodeClose
    split_ifs with hzero hremoved
    · exact absurd (show held p = 1 by omega) (hquiet hremoved)
    · rw [ensures_ret]
    · rw [ensures_ret]
  rw [ensures_inodeClose hi]
  refine hfs.mono ?_
  rintro _ _ rfl
  rw [hput]
  exact ⟨rfl, h.closed hi, inodesStep_closed hi, hopen⟩

end

/-! ### Sequences of calls -/

inductive InodeCall
  | open (sector : Sector)
  | reopen (p : Ptr)
  | remove (p : Ptr)
  | close (p : Ptr)
deriving DecidableEq

def InodeCall.prog (depth : ℕ) : InodeCall → Prog kernelSig (Option Ptr)
  | .open s => inodeOpen s
  | .reopen p => inodeReopen (some p)
  | .remove p => do
    inodeRemove (some p)
    pure none
  | .close p => do
    inodeClose depth (some p)
    pure none

/-- The calls made, the last one first, with what they returned. -/
abbrev History := List (InodeCall × Option Ptr)

/-- The calls that opened the inode at `p`. -/
def opens (p : Ptr) : History → ℕ :=
  List.countP fun c => match c with
    | (.open _, r) => r == some p
    | (.reopen q, _) => q == p
    | _ => false

def closes (p : Ptr) : History → ℕ :=
  List.countP fun c => c.1 == .close p

/-- The inode of `free_map_file`. -/
def mapPtr : Ptr := 0

/-- The memory after `free_map_open`. -/
def bootMemory (garbage : ℕ → Handle) : Memory where
  inodes := empty.alloc ⟨freeMapSector, 1, false, 0⟩
  openInodes := [mapPtr]
  freeMapFile := some mapPtr
  handles := empty
  threads := empty
  garbage := garbage

/-- The openers of the inode at `p`, among them `free_map_file`. -/
def openers (past : History) (p : Ptr) : ℤ :=
  (if p = mapPtr then 1 else 0) + opens p past - closes p past

/-- `inode_remove` was called for the inode at `p`. -/
def removal (past : History) (p : Ptr) : Prop := ∃ r, (InodeCall.remove p, r) ∈ past

/-- The inode of the sector was released. -/
def released (past : History) (s : Sector) : Prop :=
  ∃ p, (InodeCall.open s, some p) ∈ past ∧ removal past p ∧ openers past p = 0

/-- The call is an `inode_close` that takes the last opener of a removed inode away. -/
def InodeCall.Frees (past : History) (c : InodeCall) (p : Ptr) : Prop :=
  c = .close p ∧ openers past p = 1 ∧ removal past p

/-- A close matches an earlier open or reopen, the other calls are made for open inodes, and what
is removed is an inode of the file system that was not released. -/
def InodeCall.Matched (inodes : List Sector) (past : History) (k : Kernel) : InodeCall → Prop
  | .open _ => True
  | .reopen p => 0 < openers past p
  | .remove p => 0 < openers past p ∧
      ∀ i, k.2.inodes.cells p = some i → i.sector ∈ inodes ∧ Fs.Marked k.1 i.sector
  | .close p => closes p past < opens p past

/-- An inode that is released has no index block. -/
def InodeCall.Fits (past : History) (k : Kernel) (c : InodeCall) : Prop :=
  ∀ p i, c.Frees past p → k.2.inodes.cells p = some i → blocksAt k.1.store.sectors i.sector ≤ 124

/-- What a call does to the file system. -/
structure InodeCall.Effect (past : History) (k k' : Kernel) (c : InodeCall) : Prop where
  frees : ∀ p i, c.Frees past p → k.2.inodes.cells p = some i →
    ∀ t, Fs.Marked k'.1 t ↔ Fs.Marked k.1 t ∧ t ∉ treeOf k.1.store.sectors i.sector
  keeps : (∀ p, ¬ c.Frees past p) → k'.1 = k.1

/-- The table of open inodes after the calls `past`, which started on the file system `fs₀`. -/
structure LifeCycle (fs₀ : Fs) (past : History) (k : Kernel) : Prop where
  one : ∀ p q i j, k.2.inodes.cells p = some i → k.2.inodes.cells q = some j →
    i.sector = j.sector → p = q
  sector : ∀ s p i, (InodeCall.open s, some p) ∈ past → k.2.inodes.cells p = some i → i.sector = s
  listed : ∀ p, p ∈ k.2.openInodes ↔ 0 < openers past p
  count : ∀ p ∈ k.2.openInodes, ∃ i, k.2.inodes.cells p = some i ∧ i.openCnt = openers past p ∧
    (i.removed = true ↔ removal past p)
  marked : ∀ t, Fs.Marked k.1 t ↔ Fs.Marked fs₀ t ∧
    ∀ s, released past s → t ∉ treeOf fs₀.store.sectors s

section

variable {past : History} {p q : Ptr} {s : Sector} {c : InodeCall} {r : Option Ptr}

theorem openers_open : openers ((.open s, some p) :: past) = gain (openers past) p := by
  funext q
  rcases eq_or_ne q p with rfl | hne
  · simp [openers, opens, closes, gain]
    omega
  · simp [openers, opens, closes, gain, hne, hne.symm]

theorem openers_reopen : openers ((.reopen p, r) :: past) = gain (openers past) p := by
  funext q
  rcases eq_or_ne q p with rfl | hne
  · simp [openers, opens, closes, gain]
    omega
  · simp [openers, opens, closes, gain, hne, hne.symm]

theorem openers_remove : openers ((.remove p, r) :: past) = openers past := by
  rfl

theorem openers_close : openers ((.close p, r) :: past) = lose (openers past) p := by
  funext q
  rcases eq_or_ne q p with rfl | hne
  · simp [openers, opens, closes, lose]
    omega
  · simp [openers, opens, closes, lose, hne, hne.symm]

theorem removal_cons : removal ((c, r) :: past) p ↔ c = .remove p ∨ removal past p := by
  constructor
  · rintro ⟨r', hmem⟩
    rcases mem_cons.mp hmem with heq | hmem
    · exact .inl (Prod.mk.inj heq).1.symm
    · exact .inr ⟨r', hmem⟩
  · rintro (rfl | ⟨r', hmem⟩)
    · exact ⟨r, mem_cons_self⟩
    · exact ⟨r', mem_cons_of_mem _ hmem⟩

end

/-! ### The table over a sequence of calls -/

/-- The part of the invariant that is about the memory. -/
structure Table (past : History) (m : Memory) : Prop where
  opened : Opened m (openers past)
  file : m.freeMapFile = some mapPtr
  removed : ∀ p i, m.inodes.cells p = some i → (i.removed = true ↔ removal past p)
  sector : ∀ s p i, (InodeCall.open s, some p) ∈ past → m.inodes.cells p = some i → i.sector = s
  origin : ∀ p i, m.inodes.cells p = some i → p ≠ mapPtr → (InodeCall.open i.sector, some p) ∈ past
  opened_lt : ∀ s p, (InodeCall.open s, some p) ∈ past → p < m.inodes.next
  removed_lt : ∀ p r, (InodeCall.remove p, r) ∈ past → p < m.inodes.next

namespace Table

variable {past : History} {m m' : Memory} {p : Ptr} {i : Inode} {c : InodeCall} {r : Option Ptr}

/-- A call other than `inode_remove`.  An inode that is new in the table is one that the call
opened. -/
theorem step (h : Table past m) (hstep : InodesStep m m')
    (hopened : Opened m' (openers ((c, r) :: past))) (hc : ∀ p, c ≠ .remove p)
    (hopen : ∀ s p, c = .open s → r = some p → ∃ i, m'.inodes.cells p = some i ∧ i.sector = s)
    (hnew : ∀ p i, m'.inodes.cells p = some i → (∃ j, m.inodes.cells p = some j) ∨
      (p = m.inodes.next ∧ i.removed = false ∧ c = .open i.sector ∧ r = some p)) :
    Table ((c, r) :: past) m' := by
  refine ⟨hopened, ?_, fun p i hi => ?_, fun s p i hmem hi => ?_, fun p i hi hp => ?_,
    fun s p hmem => ?_, fun p r' hmem => ?_⟩
  · rw [hstep.rest]
    exact h.file
  · rw [removal_cons, or_iff_right (hc p)]
    rcases hnew p i hi with ⟨j, hj⟩ | ⟨rfl, hfalse, -⟩
    · rw [hstep.keeps p j i hj hi]
      exact h.removed p j hj
    · rw [hfalse]
      refine iff_of_false Bool.false_ne_true ?_
      rintro ⟨r', hmem⟩
      exact absurd (h.removed_lt _ _ hmem) (lt_irrefl _)
  · rcases mem_cons.mp hmem with heq | hmem
    · obtain ⟨rfl, rfl⟩ := Prod.mk.inj heq
      obtain ⟨j, hj, rfl⟩ := hopen s p rfl rfl
      rw [some.inj (hi.symm.trans hj)]
    · have hlt := h.opened_lt s p hmem
      rcases hnew p i hi with ⟨j, hj⟩ | ⟨rfl, -⟩
      · rw [hstep.keeps p j i hj hi]
        exact h.sector s p j hmem hj
      · exact absurd hlt (lt_irrefl _)
  · rcases hnew p i hi with ⟨j, hj⟩ | ⟨-, -, rfl, rfl⟩
    · rw [hstep.keeps p j i hj hi]
      exact mem_cons_of_mem _ (h.origin p j hj hp)
    · exact mem_cons_self
  · rcases mem_cons.mp hmem with heq | hmem
    · obtain ⟨rfl, rfl⟩ := Prod.mk.inj heq
      obtain ⟨i, hi, -⟩ := hopen s p rfl rfl
      exact lt_next hi
    · exact lt_of_lt_of_le (h.opened_lt s p hmem) hstep.next_le
  · rcases mem_cons.mp hmem with heq | hmem
    · exact absurd (Prod.mk.inj heq).1.symm (hc p)
    · exact lt_of_lt_of_le (h.removed_lt p r' hmem) hstep.next_le

theorem remove (h : Table past m) (hi : m.inodes.cells p = some i) :
    Table ((.remove p, r) :: past)
      { m with inodes := m.inodes.store p { i with removed := true } } := by
  have hpos : 0 < openers past p := h.opened.pos_iff.mpr ⟨i, hi⟩
  have hcount := h.opened.count p i hi
  have hold : ∀ s q, (InodeCall.open s, some q) ∈ (InodeCall.remove p, r) :: past →
      (InodeCall.open s, some q) ∈ past := by
    intro s q hmem
    rcases mem_cons.mp hmem with heq | hmem
    · exact absurd (Prod.mk.inj heq).1 (by simp)
    · exact hmem
  refine ⟨?_, h.file, fun q j hq => ?_, fun s q j hmem hq => ?_, fun q j hq hne => ?_,
    fun s q hmem => h.opened_lt s q (hold s q hmem), fun q r' hmem => ?_⟩
  · have hstore := h.opened.store (j := { i with removed := true }) hi rfl (hcount ▸ hpos)
    rwa [openers_remove, ← update_eq_self p (openers past), ← hcount]
  · rw [removal_cons]
    rcases of_store hq with ⟨rfl, rfl⟩ | ⟨hne, hq⟩
    · exact iff_of_true rfl (.inl rfl)
    · rw [or_iff_right (by simpa using hne.symm)]
      exact h.removed q j hq
  · rcases of_store hq with ⟨rfl, rfl⟩ | ⟨-, hq⟩
    · exact h.sector s q i (hold s q hmem) hi
    · exact h.sector s q j (hold s q hmem) hq
  · rcases of_store hq with ⟨rfl, rfl⟩ | ⟨-, hq⟩
    · exact mem_cons_of_mem _ (h.origin q i hi hne)
    · exact mem_cons_of_mem _ (h.origin q j hq hne)
  · rcases mem_cons.mp hmem with heq | hmem
    · obtain ⟨heq, -⟩ := Prod.mk.inj heq
      rw [InodeCall.remove.inj heq]
      exact (lt_next hi : p < m.inodes.next)
    · exact h.removed_lt q r' hmem

theorem released_cons {p : Ptr} (h : Table past m) (hpos : 0 < openers past p ∨ m.inodes.next ≤ p)
    (hother : ∀ q, q ≠ p → openers ((c, r) :: past) q = openers past q)
    (hself : removal ((c, r) :: past) p → openers ((c, r) :: past) p ≠ 0)
    (hc : ∀ q, q ≠ p → c ≠ .remove q) (hr : ∀ s q, c = .open s → r = some q → q = p) (s : Sector) :
    released ((c, r) :: past) s ↔ released past s := by
  constructor
  · rintro ⟨q, hmem, hrem, hzero⟩
    have hne : q ≠ p := by
      rintro rfl
      exact hself hrem hzero
    rcases mem_cons.mp hmem with heq | hmem
    · obtain ⟨rfl, rfl⟩ := Prod.mk.inj heq
      exact absurd (hr s q rfl rfl) hne
    · rw [removal_cons, or_iff_right (hc q hne)] at hrem
      rw [hother q hne] at hzero
      exact ⟨q, hmem, hrem, hzero⟩
  · rintro ⟨q, hmem, hrem, hzero⟩
    have hne : q ≠ p := by
      rintro rfl
      rcases hpos with hpos | hge
      · omega
      · exact absurd (h.opened_lt s q hmem) (not_lt.mpr hge)
    exact ⟨q, mem_cons_of_mem _ hmem, removal_cons.mpr (.inr hrem), (hother q hne).trans hzero⟩

end Table

/-! ### The file system over a sequence of calls -/

/-- `fs` is what is left of the file system `fs₀` after inodes were released. -/
structure Remains (fs₀ : Fs) (inodes : List Sector) (gone : Sector → Prop) (fs : Fs) : Prop where
  wf : Fs.WellFormed fs (inodes.filter fun s => Fs.Marked fs s)
  small : Fs.MapSmall fs
  marked : ∀ t, Fs.Marked fs t ↔ Fs.Marked fs₀ t ∧ ∀ s, gone s → t ∉ treeOf fs₀.store.sectors s
  trees : ∀ s ∈ inodes, Fs.Marked fs s → treeOf fs.store.sectors s = treeOf fs₀.store.sectors s

namespace Remains

variable {fs₀ fs fs' : Fs} {inodes : List Sector} {gone : Sector → Prop}

theorem start (hwf : Fs.WellFormed fs₀ inodes) (hsmall : Fs.MapSmall fs₀) (hgone : ∀ s, ¬ gone s) :
    Remains fs₀ inodes gone fs₀ := by
  have hfilter : inodes.filter (fun s => Fs.Marked fs₀ s) = inodes :=
    filter_eq_self.mpr fun s hs => decide_eq_true (hwf.marked hs mem_cons_self)
  refine ⟨hfilter.symm ▸ hwf, hsmall, fun t => ?_, fun s _ _ => rfl⟩
  exact (and_iff_left fun s hs => absurd hs (hgone s)).symm

/-- The inode in sector `s` is released. -/
theorem release (h : Remains fs₀ inodes gone fs) {T : Set Sector} {s : Sector} (hs : s ∈ inodes)
    (hmark : Fs.Marked fs s) (hne : ∀ file, fs.freeMapFile = some file → file.sector ≠ s)
    (hshr : Fs.Shrank T fs fs' (treeOf fs.store.sectors s)) :
    Remains fs₀ inodes (fun t => gone t ∨ t = s) fs' := by
  have hmem : s ∈ inodes.filter fun t => Fs.Marked fs t :=
    mem_filter.mpr ⟨hs, decide_eq_true hmark⟩
  have hsub : (inodes.filter fun t => Fs.Marked fs' t).Sublist
      (inodes.filter fun t => Fs.Marked fs t) :=
    monotone_filter_right _ fun t ht =>
      decide_eq_true ((hshr.marked t).mp (of_decide_eq_true ht)).1
  refine ⟨Fs.WellFormed.of_shrank h.wf (show (⟨s, 1, true, 0⟩ : Inode).sector ∈ _ from hmem) hshr
    hsub ?_ ?_, (hshr.small_iff h.wf.map).mpr h.small, fun t => ?_, fun o ho hmarked => ?_⟩
  · intro hin
    have hmarked := of_decide_eq_true (mem_filter.mp hin).2
    exact ((hshr.marked s).mp hmarked).2 mem_cons_self
  · intro file hfile
    have hin := h.wf.map_mem file hfile
    obtain ⟨hin', hmarked⟩ := mem_filter.mp hin
    refine mem_filter.mpr ⟨hin', decide_eq_true ((hshr.marked _).mpr
      ⟨of_decide_eq_true hmarked, fun htree => ?_⟩)⟩
    exact h.wf.disjoint hin hmem (hne file hfile) mem_cons_self htree
  · rw [hshr.marked, h.marked, h.trees s hs hmark, and_assoc]
    simp only [or_imp, forall_and, forall_eq]
  · have hold : Fs.Marked fs o := ((hshr.marked o).mp hmarked).1
    rw [(h.wf.tree_of_shrank hshr o (mem_filter.mpr ⟨ho, decide_eq_true hold⟩)).2]
    exact h.trees o ho hold

end Remains

/-- What holds after every sequence of calls. -/
structure TableInv (fs₀ : Fs) (inodes : List Sector) (past : History) (k : Kernel) : Prop where
  table : Table past k.2
  map : MapOpen k
  disk : Remains fs₀ inodes (released past) k.1
  present : ∀ p i, k.2.inodes.cells p = some i → i.removed = true →
    i.sector ∈ inodes ∧ Fs.Marked k.1 i.sector

variable {garbage : ℕ → Handle}

section

variable {fs₀ : Fs} {inodes : List Sector} {past : History} {k : Kernel} {p : Ptr} {depth : ℕ}

theorem cells_bootMemory {i : Inode} (hi : (bootMemory garbage).inodes.cells p = some i) :
    p = mapPtr ∧ i = ⟨freeMapSector, 1, false, 0⟩ := by
  rcases of_alloc hi with h | ⟨-, hi⟩
  · exact h
  · cases hi

theorem opened_bootMemory : Opened (bootMemory garbage) (openers []) := by
  have hopeners : openers [] = fun p => if p = mapPtr then 1 else 0 := by
    funext p
    simp [openers, opens, closes]
  rw [hopeners]
  refine ⟨nodup_singleton _, fun p => ?_, fun p => ?_, fun p => ?_, fun p i hi => ?_,
    fun p q i j hi hj _ => ?_⟩
  · rw [bootMemory, mem_singleton]
    split_ifs with hp
    · exact iff_of_true hp (by decide)
    · exact iff_of_false hp (by decide)
  · split_ifs
    · decide
    · exact le_rfl
  · rw [bootMemory, mem_singleton]
    rcases eq_or_ne p mapPtr with rfl | hne
    · exact iff_of_true rfl rfl
    · rw [alloc_of_ne hne]
      exact iff_of_false hne (by simp [empty])
  · obtain ⟨rfl, rfl⟩ := cells_bootMemory hi
    rfl
  · rw [(cells_bootMemory hi).1, (cells_bootMemory hj).1]

theorem TableInv.start (hwf : Fs.WellFormed fs₀ inodes) (hsmall : Fs.MapSmall fs₀)
    (hfile : fs₀.freeMapFile = some ⟨freeMapSector, 1, false, 0⟩) :
    TableInv fs₀ inodes [] (fs₀, bootMemory garbage) := by
  refine ⟨⟨opened_bootMemory, rfl, ?_, ?_, ?_, ?_, ?_⟩, ⟨hfile, mapPtr, _, rfl, rfl⟩,
    Remains.start hwf hsmall ?_, ?_⟩
  · intro p i hi
    rw [(cells_bootMemory hi).2]
    simp [removal]
  · intro s p i hmem
    cases hmem
  · intro p i hi hne
    exact absurd (cells_bootMemory hi).1 hne
  · intro s p hmem
    cases hmem
  · intro p r hmem
    cases hmem
  · rintro s ⟨p, hmem, -⟩
    cases hmem
  · intro p i hi hremoved
    rw [(cells_bootMemory hi).2] at hremoved
    cases hremoved

variable {c : InodeCall} {k' : Kernel}

theorem TableInv.step (h : TableInv fs₀ inodes past k) {r : Option Ptr}
    (hfs : k'.1 = k.1) (hmap : MapOpen k') (hstep : InodesStep k.2 k'.2)
    (hopened : Opened k'.2 (openers ((c, r) :: past))) (hc : ∀ p, c ≠ .remove p)
    (hopen : ∀ s p, c = .open s → r = some p → ∃ i, k'.2.inodes.cells p = some i ∧ i.sector = s)
    (hnew : ∀ p i, k'.2.inodes.cells p = some i → (∃ j, k.2.inodes.cells p = some j) ∨
      (p = k.2.inodes.next ∧ i.removed = false ∧ c = .open i.sector ∧ r = some p))
    (hreleased : ∀ s, released ((c, r) :: past) s ↔ released past s) :
    TableInv fs₀ inodes ((c, r) :: past) k' := by
  refine ⟨h.table.step hstep hopened hc hopen hnew, hmap, ?_, fun p i hi hremoved => ?_⟩
  · rw [hfs, funext fun s => propext (hreleased s)]
    exact h.disk
  · rw [hfs]
    rcases hnew p i hi with ⟨j, hj⟩ | ⟨-, hfalse, -⟩
    · rw [hstep.keeps p j i hj hi] at hremoved ⊢
      exact h.present p j hj hremoved
    · rw [hfalse] at hremoved
      cases hremoved

theorem InodeCall.effect_of_ne (hc : ∀ p, c ≠ .close p) (hfs : k'.1 = k.1) : c.Effect past k k' :=
  ⟨fun p _ hfrees => absurd hfrees.1 (hc p), fun _ => hfs⟩

theorem TableInv.call_open (h : TableInv fs₀ inodes past k) (s : Sector) :
    Ensures kernelHandler (InodeCall.prog depth (.open s)) k (fun r k' =>
      TableInv fs₀ inodes ((.open s, r) :: past) k' ∧ InodeCall.Effect past k k' (.open s)) := by
  refine (inodeOpen_spec h.table.opened h.map s).mono ?_
  rintro _ k' ⟨p, i, rfl, hfs, hi, hsec, hfresh, hopened, hstep, hmap⟩
  have hpos : 0 < openers past p ∨ k.2.inodes.next ≤ p := by
    rcases hfresh with hlive | ⟨rfl, -⟩
    · exact .inl (h.table.opened.pos_iff.mpr (isSome_iff_exists.mp hlive))
    · exact .inr le_rfl
  have hother : ∀ q, q ≠ p → openers ((.open s, some p) :: past) q = openers past q :=
    fun q hne => by rw [openers_open, gain_of_ne hne]
  rw [← openers_open (s := s)] at hopened
  refine ⟨h.step hfs hmap hstep hopened (by simp) ?_ ?_
    (h.table.released_cons hpos hother ?_ (by simp) ?_), InodeCall.effect_of_ne (by simp) hfs⟩
  · rintro _ _ hs hp
    cases hs
    cases hp
    exact ⟨i, hi, hsec⟩
  · intro q j hj
    rcases eq_or_ne q p with rfl | hne
    · rw [hi] at hj
      cases hj
      rcases hfresh with hlive | ⟨rfl, hnew⟩
      · exact .inl (isSome_iff_exists.mp hlive)
      · exact .inr ⟨rfl, by rw [hnew], by rw [hsec], rfl⟩
    · refine .inl (h.table.opened.pos_iff.mp ?_)
      rw [← hother q hne]
      exact hopened.pos_iff.mpr ⟨j, hj⟩
  · intro _
    rw [openers_open, gain_self]
    have := h.table.opened.nonneg p
    omega
  · rintro _ q - hq
    exact (some.inj hq).symm

theorem TableInv.call_reopen (h : TableInv fs₀ inodes past k) (hp : 0 < openers past p) :
    Ensures kernelHandler (InodeCall.prog depth (.reopen p)) k (fun r k' =>
      TableInv fs₀ inodes ((.reopen p, r) :: past) k' ∧ InodeCall.Effect past k k' (.reopen p)) := by
  refine (inodeReopen_spec h.table.opened h.map hp).mono ?_
  rintro _ k' ⟨rfl, hfs, hopened, hstep, hmap⟩
  have hother : ∀ q, q ≠ p → openers ((.reopen p, some p) :: past) q = openers past q :=
    fun q hne => by rw [openers_reopen, gain_of_ne hne]
  rw [← openers_reopen (r := some p)] at hopened
  refine ⟨h.step hfs hmap hstep hopened (by simp) (by simp) (fun q j hj => .inl ?_)
    (h.table.released_cons (p := p) (.inl hp) hother ?_ (by simp) (by simp)),
    InodeCall.effect_of_ne (by simp) hfs⟩
  · rcases eq_or_ne q p with rfl | hne
    · exact h.table.opened.pos_iff.mp hp
    · refine h.table.opened.pos_iff.mp ?_
      rw [← hother q hne]
      exact hopened.pos_iff.mpr ⟨j, hj⟩
  · intro _
    rw [openers_reopen, gain_self]
    omega

theorem TableInv.call_remove (h : TableInv fs₀ inodes past k)
    (hp : InodeCall.Matched inodes past k (.remove p)) :
    Ensures kernelHandler (InodeCall.prog depth (.remove p)) k (fun r k' =>
      TableInv fs₀ inodes ((.remove p, r) :: past) k' ∧ InodeCall.Effect past k k' (.remove p)) := by
  obtain ⟨i, hi⟩ := h.table.opened.pos_iff.mp hp.1
  rw [InodeCall.prog, ensures_bind, inodeRemove, ensures_bind, ensures_assert]
  refine ⟨by simp, ?_⟩
  rw [ensures_bind, ensures_deref]
  refine ⟨p, rfl, ?_⟩
  rw [ensures_bind, ensures_getInode hi, ensures_setInode h.map hi (by rfl) (by rfl), ensures_ret]
  refine ⟨⟨h.table.remove hi, h.map.store hi rfl rfl, ?_, fun q j hq hremoved => ?_⟩,
    InodeCall.effect_of_ne (by simp) rfl⟩
  · have hreleased : released ((.remove p, none) :: past) = released past := by
      funext s
      refine propext (h.table.released_cons (p := p) (.inl hp.1) (fun q _ => by rw [openers_remove])
        (fun _ => ?_) (fun q hne => by simpa using hne.symm) (by simp) s)
      exact hp.1.ne'
    rw [hreleased]
    exact h.disk
  · rcases of_store hq with ⟨rfl, rfl⟩ | ⟨-, hq⟩
    · exact hp.2 i hi
    · exact h.present q j hq hremoved

theorem ne_mapPtr (hp : closes p past < opens p past) (hone : openers past p = 1) : p ≠ mapPtr := by
  rintro rfl
  rw [openers, if_pos rfl] at hone
  omega

theorem openers_pos (hp : closes p past < opens p past) : 0 < openers past p := by
  unfold openers
  split_ifs <;> omega

section

variable (h : TableInv fs₀ inodes past k)
include h

theorem TableInv.close_keeps (hp : closes p past < opens p past)
    (hfrees : ¬ (InodeCall.close p).Frees past p) :
    Ensures kernelHandler (InodeCall.prog depth (.close p)) k (fun r k' =>
      TableInv fs₀ inodes ((.close p, r) :: past) k' ∧ InodeCall.Effect past k k' (.close p)) := by
  have hpos := openers_pos hp
  obtain ⟨i, hi⟩ := h.table.opened.pos_iff.mp hpos
  have hnot : removal past p → openers past p ≠ 1 := fun hrem hone => hfrees ⟨rfl, hone, hrem⟩
  rw [InodeCall.prog, ensures_bind]
  refine (inodeClose_quiet h.table.opened h.map hi
    (fun hremoved => hnot ((h.table.removed p i hi).mp hremoved)) fun hfile hone => ?_).mono ?_
  · rw [h.table.file] at hfile
    exact ne_mapPtr hp hone (some.inj hfile).symm
  rintro _ k' ⟨hfs, hopened, hstep, hmap⟩
  rw [ensures_ret]
  have hother : ∀ q, q ≠ p → openers ((.close p, none) :: past) q = openers past q :=
    fun q hne => by rw [openers_close, lose_of_ne hne]
  rw [← openers_close (r := none)] at hopened
  refine ⟨h.step hfs hmap hstep hopened (by simp) (by simp) (fun q j hj => .inl ?_)
    (h.table.released_cons (p := p) (.inl hpos) hother ?_ (by simp) (by simp)), ?_, fun _ => hfs⟩
  · rcases eq_or_ne q p with rfl | hne
    · exact ⟨i, hi⟩
    · refine h.table.opened.pos_iff.mp ?_
      rw [← hother q hne]
      exact hopened.pos_iff.mpr ⟨j, hj⟩
  · intro hrem
    rw [removal_cons, or_iff_right (by simp)] at hrem
    rw [openers_close, lose_self]
    have := hnot hrem
    omega
  · rintro q _ ⟨heq, hq⟩ -
    cases heq
    exact absurd ⟨rfl, hq⟩ hfrees

theorem TableInv.close_frees (hp : closes p past < opens p past) (hone : openers past p = 1)
    (hrem : removal past p) (hfits : InodeCall.Fits past k (.close p)) :
    Ensures kernelHandler (InodeCall.prog depth (.close p)) k (fun r k' =>
      TableInv fs₀ inodes ((.close p, r) :: past) k' ∧ InodeCall.Effect past k k' (.close p)) := by
  obtain ⟨i, hi⟩ := h.table.opened.pos_iff.mp (openers_pos hp)
  have hne := ne_mapPtr hp hone
  have hremoved : i.removed = true := (h.table.removed p i hi).mpr hrem
  obtain ⟨hin, hmark⟩ := h.present p i hi hremoved
  have hmem : i.sector ∈ inodes.filter fun s => Fs.Marked k.1 s :=
    mem_filter.mpr ⟨hin, decide_eq_true hmark⟩
  obtain ⟨q, j, hq, hj, hfile⟩ := h.map.file
  have hmapne : ∀ file, k.1.freeMapFile = some file → file.sector ≠ i.sector := by
    intro file hfile' heq
    rw [hfile] at hfile'
    cases hfile'
    rw [h.table.file] at hq
    cases hq
    exact hne (h.table.opened.one p mapPtr i j hi hj heq.symm)
  rw [InodeCall.prog, ensures_bind, ensures_inodeClose hi]
  refine (inodeClose_shrank h.disk.wf hmem hmapne ((h.table.opened.count p i hi).trans hone)
    hremoved depth (hfits p i ⟨rfl, hone, hrem⟩ hi) hfile h.disk.small).mono ?_
  rintro _ fs' ⟨-, hshr⟩
  have hmap : MapOpen (fs', closed k.2 p i) := by
    refine MapOpen.closed (k := (fs', k.2)) ⟨hshr.file.trans h.map.synced, h.map.live⟩ hi ?_
    intro hf
    rw [h.table.file] at hf
    exact absurd (some.inj hf).symm hne
  have hput : put (fs', k.2) (closed k.2 p i) = (fs', closed k.2 p i) := put_eq hmap.synced
  rw [ensures_ret, hput]
  have hopened := h.table.opened.closed hi
  rw [← openers_close (r := none)] at hopened
  have hother : ∀ q, q ≠ p → openers ((.close p, none) :: past) q = openers past q :=
    fun q hq => by rw [openers_close, lose_of_ne hq]
  have hself : openers ((.close p, none) :: past) p = 0 := by
    rw [openers_close, lose_self]
    omega
  -- the inodes that are left were open before
  have hcell : ∀ q j, (closed k.2 p i).inodes.cells q = some j →
      q ≠ p ∧ ∃ j', k.2.inodes.cells q = some j' := by
    intro q j hj
    have hpos := hopened.pos_iff.mpr ⟨j, hj⟩
    have hqp : q ≠ p := by
      rintro rfl
      omega
    exact ⟨hqp, h.table.opened.pos_iff.mp (by rwa [← hother q hqp])⟩
  have hreleased : released ((.close p, none) :: past) =
      fun s => released past s ∨ s = i.sector := by
    funext s
    refine propext ⟨?_, ?_⟩
    · rintro ⟨q, hq, hqrem, hzero⟩
      rw [mem_cons, or_iff_right (by simp)] at hq
      rw [removal_cons, or_iff_right (by simp)] at hqrem
      rcases eq_or_ne q p with rfl | hqp
      · exact .inr (h.table.sector s q i hq hi).symm
      · exact .inl ⟨q, hq, hqrem, (hother q hqp).symm.trans hzero⟩
    · rintro (⟨q, hq, hqrem, hzero⟩ | rfl)
      · have hqp : q ≠ p := by
          rintro rfl
          omega
        exact ⟨q, mem_cons_of_mem _ hq, removal_cons.mpr (.inr hqrem),
          (hother q hqp).trans hzero⟩
      · exact ⟨p, mem_cons_of_mem _ (h.table.origin p i hi hne),
          removal_cons.mpr (.inr hrem), hself⟩
  refine ⟨⟨h.table.step (inodesStep_closed hi) hopened (by simp) (by simp)
    fun q j hj => .inl (hcell q j hj).2, hmap, ?_, fun q j hj hjrem => ?_⟩, ?_, ?_⟩
  · rw [hreleased]
    exact h.disk.release hin hmark hmapne hshr
  · obtain ⟨hqp, j', hj'⟩ := hcell q j hj
    rw [(inodesStep_closed hi).keeps q j' j hj' hj] at hjrem ⊢
    obtain ⟨hjin, hjmark⟩ := h.present q j' hj' hjrem
    refine ⟨hjin, (hshr.marked _).mpr ⟨hjmark, fun htree => ?_⟩⟩
    have hsec : j'.sector ≠ i.sector := fun heq => hqp (h.table.opened.one q p j' i hj' hi heq)
    exact h.disk.wf.disjoint (mem_filter.mpr ⟨hjin, decide_eq_true hjmark⟩) hmem hsec
      mem_cons_self htree
  · rintro q j ⟨heq, -⟩ hj
    cases heq
    rw [some.inj (hj.symm.trans hi)]
    exact hshr.marked
  · intro hnot
    exact absurd ⟨rfl, hone, hrem⟩ (hnot p)

/-- Every call returns, keeps the invariant and has its effect. -/
theorem TableInv.call (hc : c.Matched inodes past k) (hfits : c.Fits past k) :
    Ensures kernelHandler (c.prog depth) k (fun r k' =>
      TableInv fs₀ inodes ((c, r) :: past) k' ∧ c.Effect past k k') := by
  cases c with
  | «open» s => exact h.call_open s
  | reopen p => exact h.call_reopen hc
  | remove p => exact h.call_remove hc
  | close p =>
    by_cases hfrees : (InodeCall.close p).Frees past p
    · exact h.close_frees hc hfrees.2.1 hfrees.2.2 hfits
    · exact h.close_keeps hc hfrees

theorem TableInv.lifeCycle : LifeCycle fs₀ past k := by
  refine ⟨h.table.opened.one, h.table.sector, h.table.opened.mem_iff, fun p hp => ?_, h.disk.marked⟩
  obtain ⟨i, hi⟩ := isSome_iff_exists.mp ((h.table.opened.live p).mp hp)
  exact ⟨i, hi, h.table.opened.count p i hi, h.table.removed p i hi⟩

end

end

/-- **The life cycle of inodes**, in every sequence of matched calls in which no inode with an
index block is released: the state of the table and of the free map follow from the calls made,
and every further call returns and has its effect. -/
theorem inodeTable_lifeCycle (depth : ℕ) (fs₀ : Fs) (inodes : List Sector) (garbage : ℕ → Handle)
    (hwf : Fs.WellFormed fs₀ inodes) (hsmall : Fs.MapSmall fs₀)
    (hfile : fs₀.freeMapFile = some ⟨freeMapSector, 1, false, 0⟩) (past : History) (k : Kernel)
    (hrun : Interaction.Reaches kernelHandler (InodeCall.prog depth)
      (fun past k c => c.Matched inodes past k ∧ c.Fits past k) (fs₀, bootMemory garbage) past k) :
    LifeCycle fs₀ past k ∧ ∀ c : InodeCall, c.Matched inodes past k → c.Fits past k →
      Ensures kernelHandler (c.prog depth) k (fun _ k' => c.Effect past k k') := by
  have hinv : TableInv fs₀ inodes past k :=
    hrun.invariant (I := TableInv fs₀ inodes) (TableInv.start hwf hsmall hfile)
      fun past k c h hc => ((h.call hc.1 hc.2).mono fun _ _ h => h.1).always
  exact ⟨hinv.lifeCycle, fun c hc hfits => (hinv.call hc hfits).mono fun _ _ h => h.2⟩

/-- The calls `inode_open (3)` and `inode_remove`, and the memory after them. -/
def removedPast : History := [(.remove 1, none), (.open 3, some 1)]

def plainMemory : Memory := bootMemory fun _ => ⟨none, 0, false⟩

theorem cells_plainMemory {p : Ptr} {i : Inode} (hi : plainMemory.inodes.cells p = some i) :
    p = mapPtr ∧ i = ⟨freeMapSector, 1, false, 0⟩ := cells_bootMemory hi

def removedMemory : Memory :=
  { plainMemory with
    inodes := (plainMemory.inodes.alloc ⟨3, 1, false, 0⟩).store 1 ⟨3, 1, true, 0⟩
    openInodes := [1, mapPtr] }

theorem inodeTable_lifeCycle_removed :
    LifeCycle fullFs removedPast (fullFs, removedMemory) ∧
      ∀ c : InodeCall, c.Matched [0, 1, 3] removedPast (fullFs, removedMemory) →
        c.Fits removedPast (fullFs, removedMemory) →
        Ensures kernelHandler (c.prog 0) (fullFs, removedMemory)
          (fun _ k' => c.Effect removedPast (fullFs, removedMemory) k') :=
  inodeTable_lifeCycle 0 fullFs [0, 1, 3] _ wellFormed_fullFs (fun _ _ => by decide) rfl _ _
    (.call (.call .start ⟨trivial, fun _ _ hfrees => by cases hfrees.1⟩ rfl)
      ⟨⟨by decide, fun i hi => by cases hi; decide⟩, fun _ _ hfrees => by cases hfrees.1⟩ rfl)

/-- The last close of a removed inode with an index block does not return. -/
theorem inodeTable_not_released :
    Fs.WellFormed indirectFs [0, 1, 3] ∧ Fs.MapSmall indirectFs ∧
      Interaction.Reaches kernelHandler (InodeCall.prog 0)
        (fun past k c => c.Matched [0, 1, 3] past k) (indirectFs, plainMemory) removedPast
        (indirectFs, removedMemory) ∧
      (InodeCall.close 1).Matched [0, 1, 3] removedPast (indirectFs, removedMemory) ∧
      ¬ Ensures kernelHandler (InodeCall.prog 0 (.close 1)) (Fs.indirectFs, removedMemory)
        (fun _ k' => (InodeCall.close 1).Effect removedPast (Fs.indirectFs, removedMemory) k') := by
  refine ⟨Fs.wellFormed_indirectFs, fun _ _ => by decide,
    .call (.call .start trivial rfl) ⟨by decide, fun i hi => by cases hi; decide⟩ rfl,
    show closes 1 removedPast < opens 1 removedPast by decide, ?_⟩
  intro h
  rw [InodeCall.prog, ensures_bind, ensures_inodeClose (i := ⟨3, 1, true, 0⟩) rfl,
    Fs.ensures_inodeClose Fs.wellFormed_indirectFs (by decide) rfl rfl] at h
  exact Fs.not_ensures_deallocateInode (Fs.sectorCount_inode Fs.wellFormed_indirectFs (by decide))
    (by rw [Fs.blocksAt_indirectFs]; decide) (by decide) h

end Pintos.Kernel

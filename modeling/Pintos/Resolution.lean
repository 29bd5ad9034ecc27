import Pintos.FilesysCreate
import Pintos.FindPath

/-! # Path resolution

What `find_path` finds, compared with what the path stands for (`Pathname.resolve`).

* `findPath_resolves_iff`: they agree unless the path ends with a slash.
* `findPath_absolute_iff`: for an absolute path the starting directory does not matter, except that a
  directory which was removed makes every path fail. -/

namespace Pintos.Kernel

open Fs Interaction Option Pathname Walk

/-! ### What `find_path` finds and what the path stands for -/

section

variable {fs : Fs} {s : Sector} {path : CString}

variable {c : CString} {d : Sector → Block}

theorem child_tooLong (h : nameMax < c.length) (s : Sector) :
    child d s c = none := by
  rw [child, if_neg (not_le.mpr h)]

theorem found_nil (hcomp : components path = []) (hpath : path ≠ [47]) :
    found fs s path = some (base s path, (stackName fs).take nameMax) := by
  rw [found, if_neg hpath, arrive_done hcomp, map_some]

theorem found_eq (hlast : (components path).getLast? = some c) :
    found fs s path = if c.length ≤ nameMax then
      (walk (child fs.store.sectors) (base s path) (descended path)).map fun t => (t, c)
    else none := by
  have hpath : path ≠ [47] := by
    rintro rfl
    cases hlast
  rw [found, if_neg hpath, arrive, hlast]
  dsimp only
  split_ifs with hlong hlen hlen
  · omega
  · rfl
  · rw [map_map]
    congr 1
    funext t
    rw [Function.comp_apply, List.take_of_length_le hlen]
  · omega

theorem resolve_eq (hlast : (components path).getLast? = some c) :
    resolve (child d) s path = if c.length ≤ nameMax then
      (walk (child d) (base s path) (components path).dropLast).map fun t => (t, c)
    else none := by
  rw [resolve, hlast, getD_some]
  split_ifs with hall hlen hlen
  · rfl
  · exact absurd (hall c (List.mem_of_getLast? hlast)) hlen
  · -- another component is too long
    push Not at hall
    obtain ⟨c', hc', hlong⟩ := hall
    rw [← List.dropLast_append_getLast? c hlast, List.mem_append, List.mem_singleton] at hc'
    rcases hc' with hc' | rfl
    · rw [walk_eq_none_of_mem hc' (child_tooLong hlong), map_none]
    · omega
  · rfl

/-- The slash at the end of the path does not matter: there is none, or the path is `/`, or it stands
for nothing, or its last component leads back to the directory it is in. -/
def EndHarmless (child : Sector → CString → Option Sector) (s : Sector) (path : CString) : Prop :=
  path.getLast? ≠ some 47 ∨ path = [47] ∨ resolve child s path = none ∨
    ∃ t c, resolve child s path = some (t, c) ∧ (components path).getLast? = some c ∧
      child t c = some t

theorem stackName_zero (fs : Fs) : stackName { fs with stack := fun _ _ => 0 } = [] := by
  rw [stackName, show List.range 512 = 0 :: (List.range 511).map Nat.succ from List.range_succ_eq_map,
    List.map_cons, List.takeWhile_cons, if_neg]
  change ¬ (blockOf (fun _ => 0) ⟨0, by decide⟩ != 0) = true
  decide

theorem found_eq_resolve_iff (hne : path ≠ []) :
    (∀ stack, found { fs with stack := stack } s path = resolve (child fs.store.sectors) s path) ↔
      EndHarmless (child fs.store.sectors) s path := by
  unfold EndHarmless
  by_cases hroot : path = [47]
  · subst hroot
    exact iff_of_true (fun stack => rfl) (.inr (.inl rfl))
  cases hlast : (components path).getLast? with
  | none =>
    have hcomp : components path = [] := List.getLast?_eq_none_iff.mp hlast
    have hslash : path.getLast? = some 47 := by
      rw [List.getLast?_eq_some_getLast hne, components_eq_nil hcomp _ (List.getLast_mem hne)]
    have hresolve : resolve (child fs.store.sectors) s path = some (base s path, [46]) := by
      rw [resolve, hcomp]
      rfl
    refine iff_of_false (fun hall => ?_) ?_
    · have hzero := hall fun _ _ => 0
      rw [found_nil hcomp hroot, stackName_zero, hresolve] at hzero
      cases hzero
    · rw [hresolve, hslash]
      rintro (h | h | h | ⟨t, c, -, h, -⟩)
      · exact h rfl
      · exact hroot h
      · cases h
      · cases h
  | some c =>
    simp only [found_eq hlast, resolve_eq hlast]
    by_cases hslash : path.getLast? = some 47
    · have hwalk : walk (child fs.store.sectors) (base s path) (descended path) =
          (walk (child fs.store.sectors) (base s path) (components path).dropLast).bind fun t =>
            child fs.store.sectors t c := by
        rw [descended, if_pos hslash]
        conv_lhs => rw [← List.dropLast_append_getLast? c hlast]
        simp only [walk_append, walk_singleton]
      rw [hwalk]
      split_ifs with hlen
      · cases walk (child fs.store.sectors) (base s path) (components path).dropLast with
        | none => exact iff_of_true (fun _ => rfl) (.inr (.inr (.inl rfl)))
        | some t =>
          simp only [bind_some, map_some, hslash, hroot, ne_eq, not_true_eq_false,
            reduceCtorEq, false_or, some.injEq, Prod.mk.injEq]
          constructor
          · intro h
            refine ⟨t, c, ⟨rfl, rfl⟩, rfl, ?_⟩
            cases hchild : child fs.store.sectors t c with
            | none =>
              rw [hchild] at h
              cases h fs.stack
            | some t' =>
              rw [hchild] at h
              rw [(Prod.mk.inj (some.inj (h fs.stack))).1]
          · rintro ⟨t', c', ⟨rfl, rfl⟩, -, hchild⟩ stack
            rw [hchild]
            rfl
      · exact iff_of_true (fun _ => rfl) (.inr (.inr (.inl rfl)))
    · rw [descended, if_neg hslash]
      exact iff_of_true (fun _ => rfl) (.inl hslash)

/-- A component that the path descends through is missing, or one is too long. -/
def Unresolvable (d : Sector → Block) (s : Sector) (path : CString) : Prop :=
  walk (child d) (base s path) (descended path) = none ∨
    ∃ c, (components path).getLast? = some c ∧ nameMax < c.length

theorem found_eq_none_iff : found fs s path = none ↔ Unresolvable fs.store.sectors s path := by
  unfold Unresolvable
  cases hlast : (components path).getLast? with
  | none =>
    have hcomp : components path = [] := List.getLast?_eq_none_iff.mp hlast
    rw [descended_done hcomp, walk]
    refine iff_of_false (fun h => ?_) (by simp)
    by_cases hpath : path = [47]
    · rw [found, if_pos hpath] at h
      cases h
    · rw [found_nil hcomp hpath] at h
      cases h
  | some c =>
    rw [found_eq hlast]
    simp only [some.injEq, exists_eq_left']
    split_ifs with hlen
    · rw [map_eq_none_iff, or_iff_left (by omega)]
    · exact iff_of_true rfl (.inr (not_le.mp hlen))

end

/-! ### The result of a call -/

/-- `find_path` returns true with this directory and this name, or false. -/
def Finds (depth : ℕ) (k : Kernel) (self : Ptr) (dir : Option Ptr) (path : CString) (fileDir : Ptr)
    (r : Option (Sector × CString)) : Prop :=
  Ensures kernelHandler (findPath depth self dir path fileDir) k (fun tail k' =>
    tail = r.map Prod.snd ∧ ∀ t c, r = some (t, c) → ∃ p i, DirAt k'.2 fileDir p i ∧ i.sector = t)

section

variable {depth : ℕ} {k : Kernel} {held : Ptr → ℤ} {self fileDir : Ptr} {dir : Option Ptr} {s t : Sector}
  {path : CString} {h : Handle} {r : Option (Sector × CString)}

theorem Found.dirAt {k' : Kernel} (hfound : Found k k' held dir fileDir t)
    (hlive : k.2.handles.cells fileDir = some h) : ∃ p i, DirAt k'.2 fileDir p i ∧ i.sector = t := by
  obtain ⟨k1, held1, now, h', p, i, hopens, -, hinode, hi, hsec, -, rfl⟩ := hfound
  have hcell : k1.2.handles.cells fileDir = some h := by
    rw [hopens.kept fileDir (Heap.lt_next hlive), hlive]
  exact ⟨p, i, ⟨⟨h', Heap.store_self hcell, hinode⟩, hi⟩, hsec⟩

variable (hk : Opened k.2 held) (hm : MapOpen k) (hstart : StartDir k.2 self dir s)
  (hlive : k.2.handles.cells fileDir = some h)

include hk hm hstart

theorem finds_removed_iff (hremoved : Removed k.2 s) :
    Finds depth k self dir path fileDir r ↔ r = none := by
  have hspec := findPath_removed hk hm hstart depth path fileDir hremoved
  constructor
  · intro hfinds
    obtain ⟨_, k', -, ⟨hr, -⟩, rfl, -⟩ := hfinds.and hspec
    exact map_eq_none_iff.mp hr.symm
  · rintro rfl
    refine hspec.mono ?_
    rintro _ k' ⟨rfl, -⟩
    exact ⟨rfl, fun t c h => by cases h⟩

include hlive

theorem finds_iff (hremoved : ¬ Removed k.2 s)
    (hread : Along (child k.1.store.sectors) (Readable k.1) (base s path) (descended path)) :
    Finds depth k self dir path fileDir r ↔
      Along (child k.1.store.sectors) (Ends k.1) (base s path) (descended path) ∧
        found k.1 s path = r := by
  by_cases hends : Along (child k.1.store.sectors) (Ends k.1) (base s path) (descended path)
  · have hspec := findPath_spec hk hm hstart depth fileDir hremoved hread hends
    rw [and_iff_right hends]
    constructor
    · intro hfinds
      obtain ⟨_, k', -, ⟨hr, hdir⟩, ⟨hnone, rfl, -⟩ | ⟨t, c, hsome, rfl, hfound⟩⟩ := hfinds.and hspec
      · rw [hnone, map_eq_none_iff.mp hr.symm]
      · obtain ⟨⟨t', c'⟩, rfl, rfl⟩ := map_eq_some_iff.mp hr.symm
        obtain ⟨p, i, hd, rfl⟩ := hdir t' c' rfl
        obtain ⟨p', i', hd', rfl⟩ := hfound.dirAt hlive
        rw [hsome, (hd.unique hd').2]
    · rintro rfl
      refine hspec.mono ?_
      rintro _ k' (⟨hnone, rfl, -⟩ | ⟨t, c, hsome, rfl, hfound⟩)
      · rw [hnone]
        exact ⟨rfl, fun t c h => by cases h⟩
      · rw [hsome]
        refine ⟨rfl, fun t' c' heq => ?_⟩
        rw [← (Prod.mk.inj (some.inj heq)).1]
        exact hfound.dirAt hlive
  · exact iff_of_false (not_ensures_findPath hk hm hstart hremoved hread hends) fun h => hends h.1

end

/-! ### Agreement with the meaning of the path -/

/-- Whatever the stack holds, `find_path` finds what the path stands for. -/
def Resolves (depth : ℕ) (k : Kernel) (self : Ptr) (dir : Option Ptr) (s : Sector) (path : CString)
    (fileDir : Ptr) : Prop :=
  ∀ stack, Finds depth ({ k.1 with stack := stack }, k.2) self dir path fileDir
    (resolve (child k.1.store.sectors) s path)

/-- **Path resolution**: `find_path` finds what the path stands for exactly if every search on the way
ends and the slash at the end of the path, if there is one, does not matter. -/
theorem findPath_resolves_iff (depth : ℕ) (k : Kernel) (held : Ptr → ℤ) (self : Ptr)
    (dir : Option Ptr) (s : Sector) (path : CString) (fileDir : Ptr) (h : Handle)
    (hk : Opened k.2 held) (hm : MapOpen k) (hstart : StartDir k.2 self dir s)
    (hremoved : ¬ Removed k.2 s) (hlive : k.2.handles.cells fileDir = some h) (hpath : path ≠ [])
    (hread : Along (child k.1.store.sectors) (Readable k.1) (base s path) (descended path)) :
    Resolves depth k self dir s path fileDir ↔
      Along (child k.1.store.sectors) (Ends k.1) (base s path) (descended path) ∧
        EndHarmless (child k.1.store.sectors) s path := by
  rw [← found_eq_resolve_iff hpath, ← forall_const (ℕ → Words) (b := Along _ _ _ _), ← forall_and]
  refine forall_congr' fun stack => ?_
  have hread' : Along (child k.1.store.sectors) (Readable { k.1 with stack := stack }) (base s path)
      (descended path) := hread.mono fun t c h hlen =>
        ⟨(h hlen).length_nonneg, (h hlen).nodup, (h hlen).valid⟩
  exact finds_iff (k := ({ k.1 with stack := stack }, k.2)) hk ⟨hm.synced, hm.live⟩ hstart hlive hremoved
    hread'

/-! ### Absolute paths -/

theorem base_absolute {s : Sector} {path : CString} (h : path.head? = some 47) :
    base s path = rootDirSector := if_pos h

theorem forall_none_iff {α : Type} {A : Prop} {f : Option α} :
    (∀ r, r = none ↔ A ∧ f = r) ↔ A ∧ f = none := by
  refine ⟨fun hall => (hall none).mp rfl, ?_⟩
  rintro ⟨hA, rfl⟩ r
  exact ⟨fun hr => ⟨hA, hr.symm⟩, fun hr => hr.2.symm⟩

/-- The thread at 0 has the directory in sector 3 as its working directory, which may be removed; the
thread at 1 has none.  The directory at 1 is not set. -/
def dirMemory (removed : Bool) : Memory :=
  { plainMemory with
    inodes := (plainMemory.inodes.alloc ⟨3, 1, false, 0⟩).store 1 ⟨3, 1, removed, 0⟩
    openInodes := [1, mapPtr]
    handles := (Heap.empty.alloc ⟨some 1, 0, false⟩).alloc ⟨none, 0, false⟩
    threads := (Heap.empty.alloc ⟨3, [], none, some 0⟩).alloc ⟨3, [], none, none⟩ }

theorem opened_dirMemory (removed : Bool) :
    Opened (dirMemory removed) (Function.update (gain (openers []) 1) 1 1) := by
  have halloc := (opened_bootMemory : Opened plainMemory (openers [])).alloc (s := 3) fun q j hj => by
    rw [(cells_plainMemory hj).2]
    decide
  exact { halloc.store (p := 1) (i := ⟨3, 1, false, 0⟩) (j := ⟨3, 1, removed, 0⟩) rfl rfl
    Int.one_pos with }

theorem mapOpen_dirMemory (removed : Bool) : MapOpen (tailFs, dirMemory removed) :=
  ⟨rfl, mapPtr, _, rfl, rfl⟩

theorem startDir_root (removed : Bool) : StartDir (dirMemory removed) 1 none rootDirSector :=
  CurrentDir.root rfl rfl

theorem startDir_work (removed : Bool) : StartDir (dirMemory removed) 0 none 3 :=
  CurrentDir.work (i := ⟨3, 1, removed, 0⟩) rfl rfl rfl rfl rfl

theorem handle_dirMemory (removed : Bool) :
    (dirMemory removed).handles.cells 1 = some ⟨none, 0, false⟩ := rfl

theorem cells_dirMemory {removed : Bool} {p : Ptr} {i : Inode}
    (hi : (dirMemory removed).inodes.cells p = some i) :
    i = ⟨freeMapSector, 1, false, 0⟩ ∨ i = ⟨3, 1, removed, 0⟩ := by
  rcases eq_or_ne p 1 with rfl | hne
  · exact .inr (some.inj hi).symm
  · rw [dirMemory, Heap.store_of_ne hne, Heap.alloc_of_ne hne] at hi
    exact .inl (cells_plainMemory hi).2

theorem not_removed_root (removed : Bool) : ¬ Removed (dirMemory removed) rootDirSector := by
  rintro ⟨p, i, hi, hsec, -⟩
  rcases cells_dirMemory hi with rfl | rfl
  · exact absurd hsec (by decide)
  · exact absurd hsec (show (3 : Sector) ≠ 1 by decide)

theorem findPath_resolves_plain : Resolves 0 (tailFs, dirMemory false) 1 none rootDirSector [97] 1 :=
  (findPath_resolves_iff 0 (tailFs, dirMemory false) _ 1 none rootDirSector [97] 1 ⟨none, 0, false⟩
    (opened_dirMemory false) (mapOpen_dirMemory false) (startDir_root false) (not_removed_root false)
    rfl (by decide) trivial).mpr ⟨trivial, .inl (by decide)⟩

/-- With a slash behind it, the name of a file that does not exist makes `find_path` fail. -/
theorem findPath_trailing_slash :
    resolve (child tailFs.store.sectors) rootDirSector [97, 47] = some (rootDirSector, [97]) ∧
      Finds 0 (tailFs, dirMemory false) 1 none [97, 47] 1 none ∧
      ¬ Resolves 0 (tailFs, dirMemory false) 1 none rootDirSector [97, 47] 1 := by
  obtain ⟨r, k, hr, rfl⟩ := run_of_result (h := kernelHandler) (p := findPath 0 1 none [97, 47] 1)
    (s := (tailFs, dirMemory false)) (f := id) (b := none) (by decide +kernel)
  refine ⟨rfl, ⟨_, k, hr, rfl, nofun⟩, fun hres => ?_⟩
  obtain ⟨tail, k', hr', htail, -⟩ := hres tailFs.stack
  cases hr.symm.trans hr'
  cases htail

end Pintos.Kernel

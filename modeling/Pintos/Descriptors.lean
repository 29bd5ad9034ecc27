import Pintos.KernelList
import Pintos.Transition

/-! # File descriptors of a process

The descriptor table of `userprog/syscall.c` as it lies in memory: `open_list` is a kernel list in
`struct thread`, `fd_count` the `int` in front of it, and a `struct file_info` is found from its
list element by subtracting an offset (`list_entry`).

* **`filesHelper`** walks over a copy of the list header on the stack.  The copy's tail is not
  the tail the elements link to, so the walk has to end at a descriptor.
* **`sysOpen`, `sysClose`**: what the two system calls do to the table.  `malloc` answers with
  any block that is not in use; `dir_getdirent` never frees the `struct dir` it allocates.
* **`descriptors_unique`**: the table in every state a process reaches.
* **`filesHelper_exact_iff`**: when a lookup is exact.

Addresses are natural numbers; the fields are at the offsets the compiler gives them. -/

namespace Pintos.Descriptors

open KernelList Links List Transition

abbrev pgSize : ℕ := 4096

/-! ### Memory -/

/-- Where the structures of one process lie: its `struct thread`, at the bottom of the page
that also holds its kernel stack, and on that stack the local `open_list` of `files_helper`. -/
structure Layout where
  thread : ℕ
  frame : ℕ
  on_stack : thread + 84 ≤ frame ∧ frame + 16 ≤ thread + pgSize

/-- `&t->fd_count`. -/
def Layout.fdCount (p : Layout) : ℕ := p.thread + 52

/-- `&t->open_list`. -/
def Layout.openList (p : Layout) : Header ℕ := ⟨p.thread + 56, p.thread + 64⟩

/-- `&open_list.tail` of the copy. -/
def Layout.copyTail (p : Layout) : ℕ := p.frame + 8

/-- `sizeof (struct file_info)`. -/
abbrev infoSize : ℕ := 28

/-- `sizeof (struct dir)`. -/
abbrev dirSize : ℕ := 12

/-- `&f->file_descriptor`. -/
def descriptorAt (f : ℕ) : ℕ := f + 4

/-- `&f->elem`. -/
def elemAt (f : ℕ) : ℕ := f + 16

/-- `list_entry (e, struct file_info, elem)`. -/
def listEntry (e : ℕ) : ℕ := e - 16

theorem listEntry_elemAt (f : ℕ) : listEntry (elemAt f) = f := by
  unfold listEntry elemAt
  omega

theorem elemAt_injective : Function.Injective elemAt := fun f g h => by
  unfold elemAt at h
  omega

/-- What the two system calls read and write. -/
structure Machine where
  /-- every `struct list_elem` -/
  links : Links ℕ
  /-- every `int` -/
  ints : ℕ → Int32
  /-- the blocks in use as `struct file_info` -/
  infos : List ℕ
  /-- the blocks `dir_getdirent` has allocated for its `now_dir` -/
  dirs : List ℕ
  /-- what the last system call returned -/
  eax : Int32

/-- `f->file_descriptor`. -/
def Machine.descriptor (m : Machine) (f : ℕ) : Int32 := m.ints (descriptorAt f)

def Machine.setInt (m : Machine) (a : ℕ) (v : Int32) : Machine :=
  { m with ints := Function.update m.ints a v }

/-! ### The system calls -/

/-- The loop of `files_helper`, from the element `e` on.  `seen` lists the elements that were
taken for the element of a `file_info`. -/
def searchLoop (m : Machine) (stop : ℕ) (fd maxfd : Int32) :
    ℕ → Option ℕ → List ℕ → Except Stop (Option ℕ) × List ℕ
  | 0, _, seen => (.error .outOfFuel, seen)
  | _ + 1, none, seen => (.error .nullPointer, seen)
  | fuel + 1, some e, seen =>
    if e = stop then (.ok none, seen)
    else if m.descriptor (listEntry e) = fd then (.ok (some (listEntry e)), seen ++ [e])
    else if maxfd ≤ m.descriptor (listEntry e) then (.ok none, seen ++ [e])
    else if isHead m.links e || isInterior m.links e then
      searchLoop m stop fd maxfd fuel (m.links.next e) (seen ++ [e])
    else (.error .assertion, seen ++ [e])

/-- `files_helper`, with the elements it took for the element of a `file_info`. -/
def filesHelper (p : Layout) (m : Machine) (fuel : ℕ) (fd : Int32) :
    Except Stop (Option ℕ) × List ℕ :=
  let begin := listBegin m.links p.openList
  let maxfd := m.ints p.fdCount
  if begin = some p.copyTail then (.ok none, [])
  else searchLoop m p.copyTail fd maxfd fuel begin []

def findFd (p : Layout) (m : Machine) : Machine :=
  m.setInt p.fdCount (m.ints p.fdCount + 1)

/-- `create_files_struct`, with the block `malloc` gives. -/
def createFilesStruct (p : Layout) (m : Machine) (f : ℕ) : Machine :=
  let m := { m with infos := m.infos ++ [f] }
  let m := m.setInt f 0
  let m := findFd p m
  m.setInt (descriptorAt f) (m.ints p.fdCount)

/-- `SYS_OPEN` of a file that exists. -/
def sysOpen (p : Layout) (m : Machine) (nowDir f : ℕ) : Except Stop Machine := do
  let m := { m with dirs := nowDir :: m.dirs }
  let m := createFilesStruct p m f
  let links ← listPushBack m.links p.openList (elemAt f)
  return { m with links := links, eax := m.descriptor f }

def sysClose (p : Layout) (m : Machine) (fd : Int32) : Except Stop Machine := do
  match ← (filesHelper p m (m.infos.length + 2) fd).1 with
  | none => return { m with eax := -1 }
  | some f =>
    if fd = 1 ∨ fd = 2 then return { m with eax := -1 }
    else
      let m :=
        if m.descriptor f = m.ints p.fdCount then m.setInt p.fdCount (m.ints p.fdCount - 1)
        else m
      let r ← listRemove m.links (elemAt f)
      return { m with links := r.1, infos := m.infos.erase f }

/-! ### Runs -/

inductive Event
  /-- A successful `SYS_OPEN`; the two addresses are what `malloc` answers. -/
  | sysOpen (nowDir f : ℕ)
  | sysClose (fd : Int32)
deriving DecidableEq, Repr

/-- The blocks of `size` bytes at `a` and `b` do not overlap. -/
def Apart (size : ℕ) (a b : ℕ) : Prop := a + size ≤ b ∨ b + size ≤ a

instance (size : ℕ) (a b : ℕ) : Decidable (Apart size a b) := instDecidableOr

/-- `malloc` can answer with these two blocks: they are in memory and not in use. -/
def Available (p : Layout) (m : Machine) (nowDir f : ℕ) : Prop :=
  nowDir + dirSize ≤ 2 ^ 32 ∧ (∀ d ∈ m.dirs, Apart dirSize nowDir d) ∧
  (∀ g ∈ m.infos, Apart infoSize f g) ∧ (f + infoSize ≤ p.thread ∨ p.thread + pgSize ≤ f)

instance (p : Layout) (m : Machine) (nowDir f : ℕ) : Decidable (Available p m nowDir f) :=
  inferInstanceAs (Decidable (_ ∧ _ ∧ _ ∧ _))

/-- One system call; `none` if it cannot happen, or ends in a panic. -/
def step (p : Layout) (m : Machine) : Event → Option Machine
  | .sysOpen nowDir f => if Available p m nowDir f then (sysOpen p m nowDir f).toOption else none
  | .sysClose fd => (sysClose p m fd).toOption

/-- The table `thread_create` sets up: `list_init (&t->open_list)` and `fd_count = 3`. -/
def Machine.Initial (p : Layout) (m : Machine) : Prop :=
  KernelList.Represents m.links p.openList [] ∧ m.ints p.fdCount = 3 ∧ m.infos = [] ∧ m.dirs = []

/-- `fd` is open: some record in use carries it. -/
def Machine.IsOpen (m : Machine) (fd : Int32) : Prop := ∃ f ∈ m.infos, m.descriptor f = fd

instance (m : Machine) (fd : Int32) : Decidable (m.IsOpen fd) := List.decidableBEx _ _

/-! ### The invariant -/

/-- The table in every state of a run. -/
structure Inv (p : Layout) (m : Machine) : Prop where
  /-- `open_list` holds the records in use -/
  list : KernelList.Represents m.links p.openList (m.infos.map elemAt)
  apart : m.infos.Pairwise (Apart infoSize)
  outside : ∀ f ∈ m.infos, f + infoSize ≤ p.thread ∨ p.thread + pgSize ≤ f
  sorted : m.infos.Pairwise fun f g => m.descriptor f < m.descriptor g
  range : ∀ f ∈ m.infos, 3 < (m.descriptor f).toInt ∧ m.descriptor f ≤ m.ints p.fdCount
  low : 3 ≤ (m.ints p.fdCount).toInt
  /-- every descriptor has cost a `struct dir` that is still allocated -/
  leaked : (m.ints p.fdCount).toInt ≤ 3 + m.dirs.length
  dirs_apart : m.dirs.Pairwise (Apart dirSize)
  dirs_below : ∀ d ∈ m.dirs, d + dirSize ≤ 2 ^ 32

theorem length_le_of_apart {l : List ℕ} (hapart : l.Pairwise (Apart dirSize))
    (hbelow : ∀ d ∈ l, d + dirSize ≤ 2 ^ 32) : l.length < 2 ^ 30 := by
  have hnodup : (l.map (· / 12)).Nodup := by
    rw [List.Nodup, pairwise_map]
    refine hapart.imp ?_
    intro a b hab
    unfold Apart dirSize at hab
    omega
  have hsub : (l.map (· / 12)) ⊆ List.range (2 ^ 29) := by
    intro a ha
    obtain ⟨d, hd, rfl⟩ := mem_map.mp ha
    rw [mem_range]
    have hle := hbelow d hd
    omega
  have hle := (subperm_of_subset hnodup hsub).length_le
  rw [length_map, length_range] at hle
  omega

theorem Inv.fdCount_lt {p : Layout} {m : Machine} (h : Inv p m) :
    (m.ints p.fdCount).toInt < 2 ^ 30 + 3 := by
  have hlen := length_le_of_apart h.dirs_apart h.dirs_below
  have hle := h.leaked
  omega

/-! ### The walk of `files_helper` -/

/-- The part of the list the walk still has before it: the records `rs` and then `tail`. -/
structure Trail (m : Machine) (stop tail : ℕ) (rs : List ℕ) : Prop where
  chain : (rs.map elemAt ++ [tail]).IsChain fun a b => m.links.next a = some b
  avoid : stop ∉ rs.map elemAt ++ [tail]
  interior : ∀ f ∈ rs, isInterior m.links (elemAt f) = true

/-- The element the walk is at. -/
def trailHead (tail : ℕ) (rs : List ℕ) : ℕ := (rs.map elemAt).headD tail

variable {rs : List ℕ} {f : ℕ}

section Walk

variable {m : Machine} {stop tail : ℕ} {fd maxfd : Int32} {fuel : ℕ}

theorem Trail.of_cons (h : Trail m stop tail (f :: rs)) : Trail m stop tail rs where
  chain := List.IsChain.tail h.chain
  avoid := fun hmem => h.avoid (mem_cons_of_mem _ hmem)
  interior := fun g hg => h.interior g (mem_cons_of_mem _ hg)

theorem Trail.next_eq (h : Trail m stop tail (f :: rs)) :
    m.links.next (elemAt f) = some (trailHead tail rs) := by
  have hchain := h.chain
  cases rs with
  | nil | cons g rs => exact (isChain_cons_cons.mp hchain).1

theorem Trail.ne_stop (h : Trail m stop tail (f :: rs)) :
    elemAt f ≠ stop := fun heq => h.avoid (heq ▸ mem_cons_self)

theorem search_pass {seen : List ℕ} (h : Trail m stop tail (f :: rs)) (hfd : m.descriptor f ≠ fd)
    (hmax : m.descriptor f < maxfd) : searchLoop m stop fd maxfd (fuel + 1) (some (elemAt f)) seen =
      searchLoop m stop fd maxfd fuel (some (trailHead tail rs)) (seen ++ [elemAt f]) := by
  have hin : (isHead m.links (elemAt f) || isInterior m.links (elemAt f)) = true := by
    rw [h.interior f mem_cons_self, Bool.or_true]
  rw [searchLoop, if_neg h.ne_stop, listEntry_elemAt, if_neg hfd,
    if_neg (Int32.not_le.mpr hmax), if_pos hin, h.next_eq]

theorem search_found (seen : List ℕ) (h : Trail m stop tail rs) (hf : f ∈ rs)
    (hfd : m.descriptor f = fd) (hsorted : rs.Pairwise fun g g' => m.descriptor g < m.descriptor g')
    (hle : ∀ g ∈ rs, m.descriptor g ≤ maxfd) (hfuel : rs.length < fuel) :
    ∃ seen', searchLoop m stop fd maxfd fuel (some (trailHead tail rs)) seen =
      (.ok (some f), seen ++ seen') ∧ seen' ⊆ rs.map elemAt := by
  induction rs generalizing fuel seen with
  | nil => cases hf
  | cons g rs ih =>
    obtain ⟨fuel, rfl⟩ := Nat.exists_eq_succ_of_ne_zero (Nat.ne_zero_of_lt hfuel)
    obtain ⟨hlt, hsorted'⟩ := pairwise_cons.mp hsorted
    have hhead : trailHead tail (g :: rs) = elemAt g := rfl
    rw [hhead]
    cases mem_cons.mp hf with
    | inl heq =>
      refine ⟨[elemAt g], ?_, by simp⟩
      rw [searchLoop, if_neg h.ne_stop, listEntry_elemAt, ← heq, if_pos hfd]
    | inr hmem =>
      have hgf : m.descriptor g < m.descriptor f := hlt f hmem
      have hne : m.descriptor g ≠ fd := by
        rw [← hfd]
        exact Int32.ne_of_lt hgf
      have hmax : m.descriptor g < maxfd := Int32.lt_of_lt_of_le hgf (hle f hf)
      obtain ⟨seen', hrun, hsub⟩ := ih (seen ++ [elemAt g]) h.of_cons hmem hsorted'
        (fun g' hg' => hle g' (mem_cons_of_mem _ hg')) (Nat.lt_of_succ_lt_succ hfuel)
      refine ⟨elemAt g :: seen', ?_, ?_⟩
      · rw [search_pass h hne hmax, hrun, append_assoc]
        rfl
      · exact cons_subset_cons _ hsub

/-- If `fd` is not open, the walk ends at the record of `maxfd`, when there is one. -/
theorem search_stopped (seen : List ℕ) (h : Trail m stop tail rs)
    (hfd : ∀ g ∈ rs, m.descriptor g ≠ fd) (hmax : ∃ g ∈ rs, m.descriptor g = maxfd)
    (hsorted : rs.Pairwise fun g g' => m.descriptor g < m.descriptor g')
    (hfuel : rs.length < fuel) :
    ∃ seen', searchLoop m stop fd maxfd fuel (some (trailHead tail rs)) seen =
      (.ok none, seen ++ seen') ∧ seen' ⊆ rs.map elemAt := by
  induction rs generalizing fuel seen with
  | nil =>
    obtain ⟨g, hg, -⟩ := hmax
    cases hg
  | cons g rs ih =>
    obtain ⟨fuel, rfl⟩ := Nat.exists_eq_succ_of_ne_zero (Nat.ne_zero_of_lt hfuel)
    obtain ⟨hlt, hsorted'⟩ := pairwise_cons.mp hsorted
    obtain ⟨g', hg', hgmax⟩ := hmax
    have hhead : trailHead tail (g :: rs) = elemAt g := rfl
    have hgfd : m.descriptor g ≠ fd := hfd g mem_cons_self
    rw [hhead]
    cases mem_cons.mp hg' with
    | inl heq =>
      refine ⟨[elemAt g], ?_, by simp⟩
      have hge : maxfd ≤ m.descriptor g := by
        rw [← heq, hgmax]
        exact Int32.le_refl _
      rw [searchLoop, if_neg h.ne_stop, listEntry_elemAt, if_neg hgfd, if_pos hge]
    | inr hmem =>
      have hgmax' : m.descriptor g < maxfd := hgmax ▸ hlt g' hmem
      obtain ⟨seen', hrun, hsub⟩ := ih (seen ++ [elemAt g]) h.of_cons
        (fun a ha => hfd a (mem_cons_of_mem _ ha)) ⟨g', hmem, hgmax⟩ hsorted'
        (Nat.lt_of_succ_lt_succ hfuel)
      refine ⟨elemAt g :: seen', ?_, ?_⟩
      · rw [search_pass h hgfd hgmax', hrun, append_assoc]
        rfl
      · exact cons_subset_cons _ hsub

/-- Otherwise the walk takes the tail for the element of a record.  What stands where that record
would have its descriptor decides how it ends. -/
theorem search_sentinel (seen : List ℕ) (h : Trail m stop tail rs)
    (hfd : ∀ g ∈ rs, m.descriptor g ≠ fd) (hmax : ∀ g ∈ rs, m.descriptor g < maxfd)
    (htail : m.descriptor (listEntry tail) = maxfd) (hfuel : rs.length < fuel) :
    searchLoop m stop fd maxfd fuel (some (trailHead tail rs)) seen =
      (.ok (if maxfd = fd then some (listEntry tail) else none),
        seen ++ rs.map elemAt ++ [tail]) := by
  induction rs generalizing fuel seen with
  | nil =>
    obtain ⟨fuel, rfl⟩ := Nat.exists_eq_succ_of_ne_zero (Nat.ne_zero_of_lt hfuel)
    have hne : tail ≠ stop := fun heq => h.avoid (heq ▸ mem_singleton_self _)
    have hhead : trailHead tail [] = tail := rfl
    rw [hhead, searchLoop, if_neg hne, htail, map_nil, append_nil]
    split
    · rfl
    · rw [if_pos (Int32.le_refl maxfd)]
  | cons g rs ih =>
    obtain ⟨fuel, rfl⟩ := Nat.exists_eq_succ_of_ne_zero (Nat.ne_zero_of_lt hfuel)
    have hhead : trailHead tail (g :: rs) = elemAt g := rfl
    rw [hhead, search_pass h (hfd g mem_cons_self) (hmax g mem_cons_self),
      ih _ h.of_cons (fun a ha => hfd a (mem_cons_of_mem _ ha))
        (fun a ha => hmax a (mem_cons_of_mem _ ha)) (Nat.lt_of_succ_lt_succ hfuel)]
    simp only [map_cons, append_assoc, cons_append, nil_append]

end Walk

/-! ### `files_helper` on a table -/

variable {g : ℕ}

section Lookup

variable {p : Layout} {m : Machine}

/-- The `int` that a record at the tail sentinel would have as its descriptor is `fd_count`. -/
theorem descriptor_tail (p : Layout) (m : Machine) :
    m.descriptor (listEntry p.openList.tail) = m.ints p.fdCount := by
  have haddr : descriptorAt (listEntry p.openList.tail) = p.fdCount := by
    unfold descriptorAt listEntry Layout.openList Layout.fdCount
    dsimp only
    omega
  rw [Machine.descriptor, haddr]

theorem Inv.copyTail_not_mem (h : Inv p m) :
    p.copyTail ∉ m.infos.map elemAt ++ [p.openList.tail] := by
  have hstack := p.on_stack
  unfold pgSize at hstack
  rw [mem_append, mem_singleton]
  rintro (hmem | heq)
  · obtain ⟨f, hf, hfe⟩ := mem_map.mp hmem
    have hout := h.outside f hf
    unfold infoSize pgSize at hout
    unfold elemAt Layout.copyTail at hfe
    omega
  · unfold Layout.copyTail Layout.openList at heq
    dsimp only at heq
    omega

theorem Inv.trail (h : Inv p m) : Trail m p.copyTail p.openList.tail m.infos where
  chain := List.IsChain.imp (fun a b hab => hab.1) (List.IsChain.tail h.list.seg)
  avoid := h.copyTail_not_mem
  interior := by
    intro f hf
    obtain ⟨us, vs, hsplit⟩ := append_of_mem hf
    have hlist := h.list
    rw [hsplit, map_append, map_cons] at hlist
    have hprev := hlist.linked.2
    have hlist' : KernelList.Represents m.links p.openList
        ((us.map elemAt ++ [elemAt f]) ++ vs.map elemAt) := by
      rwa [append_assoc]
    have hnext := hlist'.linked.1
    rw [Header.left, getLastD_concat] at hnext
    exact interior_ok hprev hnext

theorem Inv.filesHelper_eq (h : Inv p m) (fuel : ℕ) (fd : Int32) :
    filesHelper p m fuel fd = searchLoop m p.copyTail fd (m.ints p.fdCount) fuel
      (some (trailHead p.openList.tail m.infos)) [] := by
  have hbegin := h.list.listBegin_eq
  have hhead : p.openList.right (m.infos.map elemAt) = trailHead p.openList.tail m.infos := rfl
  rw [hhead] at hbegin
  have hne : trailHead p.openList.tail m.infos ≠ p.copyTail := by
    intro heq
    apply h.copyTail_not_mem
    rw [← heq]
    cases m.infos with
    | nil => exact mem_singleton_self _
    | cons f rs => exact mem_cons_self
  unfold filesHelper
  rw [hbegin, if_neg (fun heq => hne (Option.some.inj heq))]

/-- The lookup of `fd` is exact: it returns the record of `fd`, or `NULL` if `fd` is not open,
and takes nothing for a record that is not one. -/
def Exact (p : Layout) (m : Machine) (fuel : ℕ) (fd : Int32) : Prop :=
  (filesHelper p m fuel fd).1 = .ok (m.infos.find? fun f => m.descriptor f = fd) ∧
    ∀ e ∈ (filesHelper p m fuel fd).2, ∃ f ∈ m.infos, e = elemAt f

theorem Inv.descriptor_inj (h : Inv p m) (hf : f ∈ m.infos) (hg : g ∈ m.infos)
    (heq : m.descriptor f = m.descriptor g) : f = g := by
  by_contra hne
  have hsym : m.infos.Pairwise fun a b => m.descriptor a ≠ m.descriptor b :=
    h.sorted.imp fun hlt => Int32.ne_of_lt hlt
  have hsymm : Std.Symm fun a b => m.descriptor a ≠ m.descriptor b := ⟨fun _ _ hab => hab.symm⟩
  exact hsym.forall hf hg hne heq

theorem Inv.nodup (h : Inv p m) : m.infos.Nodup := by
  refine h.sorted.imp ?_
  rintro a b hlt rfl
  exact Int32.ne_of_lt hlt rfl

theorem Inv.find_eq (h : Inv p m) (hf : f ∈ m.infos) :
    (m.infos.find? fun g => m.descriptor g = m.descriptor f) = some f := by
  cases hfind : m.infos.find? fun g => m.descriptor g = m.descriptor f with
  | none =>
    have hnone := List.find?_eq_none.mp hfind f hf
    exact absurd (decide_eq_true rfl) hnone
  | some g =>
    have hg := mem_of_find?_eq_some hfind
    have heq := List.find?_some hfind
    rw [decide_eq_true_eq] at heq
    rw [h.descriptor_inj hg hf heq]

variable {fuel : ℕ} {fd : Int32}

theorem Inv.exact_of_open (h : Inv p m) (hfuel : m.infos.length < fuel)
    (hopen : m.IsOpen fd) : Exact p m fuel fd := by
  obtain ⟨f, hf, rfl⟩ := hopen
  obtain ⟨seen, hrun, hsub⟩ := search_found [] h.trail hf rfl h.sorted
    (fun g hg => (h.range g hg).2) hfuel
  rw [Exact, h.filesHelper_eq, hrun, h.find_eq hf]
  refine ⟨rfl, fun e he => ?_⟩
  obtain ⟨g, hg, rfl⟩ := mem_map.mp (hsub he)
  exact ⟨g, hg, rfl⟩

theorem Inv.exact_of_max (h : Inv p m) (hfuel : m.infos.length < fuel)
    (hclosed : ¬m.IsOpen fd) (hmax : m.IsOpen (m.ints p.fdCount)) : Exact p m fuel fd := by
  have hfd : ∀ g ∈ m.infos, m.descriptor g ≠ fd := fun g hg heq => hclosed ⟨g, hg, heq⟩
  obtain ⟨seen, hrun, hsub⟩ := search_stopped [] h.trail hfd hmax h.sorted hfuel
  have hfind : (m.infos.find? fun f => m.descriptor f = fd) = none := by
    rw [List.find?_eq_none]
    intro g hg
    simpa using hfd g hg
  rw [Exact, h.filesHelper_eq, hrun, hfind]
  refine ⟨rfl, fun e he => ?_⟩
  obtain ⟨g, hg, rfl⟩ := mem_map.mp (hsub he)
  exact ⟨g, hg, rfl⟩

/-- With neither `fd` nor `fd_count` open, the tail sentinel is taken for a record; its
descriptor is `fd_count`. -/
theorem Inv.filesHelper_sentinel (h : Inv p m) (hfuel : m.infos.length < fuel)
    (hclosed : ¬m.IsOpen fd) (hmax : ¬m.IsOpen (m.ints p.fdCount)) :
    filesHelper p m fuel fd =
      (.ok (if m.ints p.fdCount = fd then some (listEntry p.openList.tail) else none),
        m.infos.map elemAt ++ [p.openList.tail]) := by
  have hlt : ∀ g ∈ m.infos, m.descriptor g < m.ints p.fdCount := by
    intro g hg
    exact Int32.lt_of_le_of_ne (h.range g hg).2 fun heq => hmax ⟨g, hg, heq⟩
  rw [h.filesHelper_eq, search_sentinel [] h.trail (fun g hg heq => hclosed ⟨g, hg, heq⟩) hlt
    (descriptor_tail p m) hfuel, nil_append]

theorem Inv.not_exact (h : Inv p m) (hfuel : m.infos.length < fuel)
    (hclosed : ¬m.IsOpen fd) (hmax : ¬m.IsOpen (m.ints p.fdCount)) : ¬Exact p m fuel fd := by
  rintro ⟨-, hseen⟩
  rw [h.filesHelper_sentinel hfuel hclosed hmax] at hseen
  obtain ⟨f, hf, heq⟩ := hseen p.openList.tail mem_concat_self
  have hnodup := h.list.nodup
  refine (nodup_append.mp hnodup).2.2 (elemAt f) ?_ p.openList.tail
    (mem_singleton_self _) heq.symm
  exact mem_cons_of_mem _ (mem_map_of_mem hf)

theorem Inv.exact_iff (h : Inv p m) (hfuel : m.infos.length < fuel) (fd : Int32) :
    Exact p m fuel fd ↔ m.IsOpen fd ∨ m.IsOpen (m.ints p.fdCount) := by
  constructor
  · intro hexact
    by_contra hnot
    rw [not_or] at hnot
    exact h.not_exact hfuel hnot.1 hnot.2 hexact
  · intro hcond
    by_cases hopen : m.IsOpen fd
    · exact h.exact_of_open hfuel hopen
    · exact h.exact_of_max hfuel hopen (hcond.resolve_left hopen)

end Lookup

/-! ### The invariant holds in every run -/

section Steps

variable {p : Layout} {m m' : Machine}

@[simp] theorem setInt_self (m : Machine) (a : ℕ) (v : Int32) : (m.setInt a v).ints a = v :=
  Function.update_self ..

theorem setInt_of_ne {a b : ℕ} (m : Machine) (v : Int32) (h : b ≠ a) :
    (m.setInt a v).ints b = m.ints b := Function.update_of_ne h ..

theorem Machine.Initial.inv (h : m.Initial p) : Inv p m := by
  obtain ⟨hlist, hcount, hinfos, hdirs⟩ := h
  refine ⟨?_, ?_, ?_, ?_, ?_, ?_, ?_, ?_, ?_⟩
  · rw [hinfos]
    exact hlist
  · rw [hinfos]
    exact .nil
  · rw [hinfos]
    exact nofun
  · rw [hinfos]
    exact .nil
  · rw [hinfos]
    exact nofun
  · rw [hcount]
    decide
  · rw [hcount, hdirs]
    decide
  · rw [hdirs]
    exact .nil
  · rw [hdirs]
    exact nofun

variable {a fd : Int32}

theorem toInt_succ (h : a.toInt < 2 ^ 30 + 3) : (a + 1).toInt = a.toInt + 1 := by
  have hle := a.le_toInt
  have hone : (1 : Int32).toInt = 1 := rfl
  rw [Int32.toInt_add, hone, Int.bmod_eq_of_le]
  · omega
  · omega

theorem toInt_pred (h : 3 ≤ a.toInt) : (a - 1).toInt = a.toInt - 1 := by
  have hlt := a.toInt_lt
  have hone : (1 : Int32).toInt = 1 := rfl
  rw [Int32.toInt_sub, hone, Int.bmod_eq_of_le]
  · omega
  · omega

theorem descriptorAt_ne (hf : f + infoSize ≤ p.thread ∨ p.thread + pgSize ≤ f) :
    descriptorAt f ≠ p.fdCount ∧ f ≠ p.fdCount := by
  unfold infoSize pgSize at hf
  unfold descriptorAt Layout.fdCount
  omega

/-- What `create_files_struct` does to the `int`s. -/
theorem createFilesStruct_ints (hf : f + infoSize ≤ p.thread ∨ p.thread + pgSize ≤ f) :
    (createFilesStruct p m f).ints p.fdCount = m.ints p.fdCount + 1 ∧
    (createFilesStruct p m f).descriptor f = m.ints p.fdCount + 1 ∧
    ∀ g, Apart infoSize f g → (g + infoSize ≤ p.thread ∨ p.thread + pgSize ≤ g) →
      (createFilesStruct p m f).descriptor g = m.descriptor g := by
  obtain ⟨hne, hne'⟩ := descriptorAt_ne hf
  have hcount : (findFd p (({ m with infos := m.infos ++ [f] } : Machine).setInt f 0)).ints
      p.fdCount = m.ints p.fdCount + 1 := by
    unfold findFd
    rw [setInt_self, setInt_of_ne _ _ hne'.symm]
  refine ⟨?_, ?_, ?_⟩
  · unfold createFilesStruct
    rw [setInt_of_ne _ _ hne.symm]
    exact hcount
  · unfold createFilesStruct Machine.descriptor
    rw [setInt_self]
    exact hcount
  · intro g hfg hg
    have hg' := descriptorAt_ne hg
    have hoff : descriptorAt g ≠ descriptorAt f ∧ descriptorAt g ≠ f := by
      unfold Apart infoSize at hfg
      unfold descriptorAt
      omega
    unfold createFilesStruct findFd Machine.descriptor
    rw [setInt_of_ne _ _ hoff.1, setInt_of_ne _ _ hg'.1, setInt_of_ne _ _ hoff.2]

theorem elemAt_not_mem_nodes (hf : ∀ g ∈ m.infos, Apart infoSize f g)
    (hout : f + infoSize ≤ p.thread ∨ p.thread + pgSize ≤ f) :
    elemAt f ∉ p.openList.nodes (m.infos.map elemAt) := by
  rw [Header.mem_nodes]
  unfold infoSize pgSize at hout
  rintro (heq | hmem | heq)
  · unfold elemAt Layout.openList at heq
    dsimp only at heq
    omega
  · obtain ⟨g, hg, hge⟩ := mem_map.mp hmem
    have hfg := hf g hg
    rw [elemAt_injective hge] at hfg
    unfold Apart infoSize at hfg
    omega
  · unfold elemAt Layout.openList at heq
    dsimp only at heq
    omega

/-- **`SYS_OPEN`** succeeds, and returns `fd_count + 1`, computed without overflow. -/
theorem Inv.sysOpen_spec (h : Inv p m) {nowDir : ℕ} (hav : Available p m nowDir f) :
    ∃ m', sysOpen p m nowDir f = .ok m' ∧ Inv p m' ∧ m'.infos = m.infos ++ [f] ∧
      m'.eax = m'.descriptor f ∧ m'.eax.toInt = (m.ints p.fdCount).toInt + 1 ∧
      ∀ g ∈ m.infos, m'.descriptor g = m.descriptor g := by
  obtain ⟨hdir, hdirs, hinfos, hout⟩ := hav
  obtain ⟨links, hpush, hrep⟩ := h.list.pushBack (elemAt_not_mem_nodes hinfos hout)
  have hints := createFilesStruct_ints (m := { m with dirs := nowDir :: m.dirs }) hout
  obtain ⟨hcount, hself, hother⟩ := hints
  have hkeep : ∀ g ∈ m.infos, (createFilesStruct p { m with dirs := nowDir :: m.dirs } f).descriptor
      g = m.descriptor g := fun g hg => hother g (hinfos g hg) (h.outside g hg)
  have hsucc := toInt_succ h.fdCount_lt
  have hlow := h.low
  refine ⟨{ createFilesStruct p { m with dirs := nowDir :: m.dirs } f with
    links := links, eax := (createFilesStruct p { m with dirs := nowDir :: m.dirs } f).descriptor f },
    ?_, ⟨?_, ?_, ?_, ?_, ?_, ?_, ?_, ?_, ?_⟩, rfl, rfl, ?_, hkeep⟩
  · unfold sysOpen
    have hlinks : (createFilesStruct p { m with dirs := nowDir :: m.dirs } f).links = m.links := rfl
    dsimp only
    rw [hlinks, hpush]
    rfl
  · show KernelList.Represents links p.openList ((m.infos ++ [f]).map elemAt)
    rw [map_append]
    exact hrep
  · refine pairwise_append.mpr ⟨h.apart, pairwise_singleton _ _, ?_⟩
    intro g hg a ha
    rw [mem_singleton.mp ha]
    exact (hinfos g hg).symm
  · intro g hg
    cases mem_append.mp hg with
    | inl hg => exact h.outside g hg
    | inr hg =>
      rw [mem_singleton.mp hg]
      exact hout
  · refine pairwise_append.mpr ⟨?_, pairwise_singleton _ _, ?_⟩
    · refine h.sorted.imp_of_mem ?_
      intro a b ha hb hab
      exact (hkeep a ha).symm ▸ (hkeep b hb).symm ▸ hab
    · intro g hg a ha
      rw [mem_singleton.mp ha]
      show (createFilesStruct p _ f).descriptor g < (createFilesStruct p _ f).descriptor f
      rw [hkeep g hg, hself, Int32.lt_iff_toInt_lt, hsucc]
      have hle := Int32.le_iff_toInt_le.mp (h.range g hg).2
      omega
  · intro g hg
    show 3 < ((createFilesStruct p _ f).descriptor g).toInt ∧
      (createFilesStruct p _ f).descriptor g ≤ (createFilesStruct p _ f).ints p.fdCount
    cases mem_append.mp hg with
    | inl hg =>
      obtain ⟨hgt, hle⟩ := h.range g hg
      rw [hkeep g hg, hcount]
      refine ⟨hgt, ?_⟩
      rw [Int32.le_iff_toInt_le] at hle ⊢
      rw [hsucc]
      omega
    | inr hg =>
      rw [mem_singleton.mp hg, hself, hcount, hsucc]
      exact ⟨by omega, Int32.le_refl _⟩
  · rw [hcount, hsucc]
    omega
  · show ((createFilesStruct p _ f).ints p.fdCount).toInt ≤ 3 + (nowDir :: m.dirs).length
    rw [hcount, hsucc, length_cons]
    have hleaked := h.leaked
    omega
  · exact pairwise_cons.mpr ⟨hdirs, h.dirs_apart⟩
  · intro d hd
    cases mem_cons.mp hd with
    | inl heq =>
      rw [heq]
      exact hdir
    | inr hd => exact h.dirs_below d hd
  · rw [hself, hsucc]

/-- What `SYS_CLOSE` does to the `int`s when it closes `f`. -/
def countDown (p : Layout) (m : Machine) (f : ℕ) : Machine :=
  if m.descriptor f = m.ints p.fdCount then m.setInt p.fdCount (m.ints p.fdCount - 1) else m

theorem countDown_descriptor (hg : g + infoSize ≤ p.thread ∨ p.thread + pgSize ≤ g) :
    (countDown p m f).descriptor g = m.descriptor g := by
  unfold countDown Machine.descriptor
  split
  · exact setInt_of_ne _ _ (descriptorAt_ne hg).1
  · rfl

theorem countDown_links (f : ℕ) : (countDown p m f).links = m.links := by
  unfold countDown
  split
  · rfl
  · rfl

theorem countDown_infos (f : ℕ) : (countDown p m f).infos = m.infos := by
  unfold countDown
  split
  · rfl
  · rfl

theorem countDown_dirs (f : ℕ) : (countDown p m f).dirs = m.dirs := by
  unfold countDown
  split
  · rfl
  · rfl

/-- `fd_count` stays at or above every descriptor that is left, because the records are in order:
the one with the highest descriptor is the last. -/
theorem Inv.countDown_fdCount (h : Inv p m) (hf : f ∈ m.infos) :
    3 ≤ ((countDown p m f).ints p.fdCount).toInt ∧
    (countDown p m f).ints p.fdCount ≤ m.ints p.fdCount ∧
    ∀ g ∈ m.infos, g ≠ f → m.descriptor g ≤ (countDown p m f).ints p.fdCount := by
  have hlow := h.low
  obtain ⟨hgt, hle⟩ := h.range f hf
  unfold countDown
  split
  · rename_i heq
    have hpred := toInt_pred hlow
    rw [heq] at hgt
    rw [setInt_self, hpred]
    refine ⟨by omega, ?_, ?_⟩
    · rw [Int32.le_iff_toInt_le, hpred]
      omega
    · intro g hg hgf
      have hgle := Int32.le_iff_toInt_le.mp (h.range g hg).2
      have hne : (m.descriptor g).toInt ≠ (m.ints p.fdCount).toInt := by
        intro hsame
        rw [Int32.toInt_inj, ← heq] at hsame
        exact hgf (h.descriptor_inj hg hf hsame)
      rw [Int32.le_iff_toInt_le, hpred]
      omega
  · exact ⟨hlow, Int32.le_refl _, fun g hg _ => (h.range g hg).2⟩

/-- **`SYS_CLOSE`** of an open descriptor removes its record and no other. -/
theorem Inv.sysClose_spec (h : Inv p m) (hf : f ∈ m.infos) :
    ∃ m', sysClose p m (m.descriptor f) = .ok m' ∧ Inv p m' ∧ m'.infos = m.infos.erase f ∧
      ∀ g ∈ m.infos, m'.descriptor g = m.descriptor g := by
  have hfuel : m.infos.length < m.infos.length + 2 := by omega
  have hfound := (h.exact_of_open hfuel ⟨f, hf, rfl⟩).1
  rw [h.find_eq hf] at hfound
  obtain ⟨us, vs, hsplit⟩ := append_of_mem hf
  have hnodup := h.nodup
  have herase : m.infos.erase f = us ++ vs := by
    rw [hsplit] at hnodup ⊢
    rw [erase_append_right _ fun hmem => ?_, erase_cons_head]
    exact (nodup_append.mp hnodup).2.2 f hmem f mem_cons_self rfl
  have hlist := h.list
  rw [hsplit, map_append, map_cons] at hlist
  obtain ⟨links, hremove, hrep⟩ := hlist.remove
  have hfd : ¬(m.descriptor f = 1 ∨ m.descriptor f = 2) := by
    have hgt := (h.range f hf).1
    rintro (heq | heq)
    · rw [heq] at hgt
      exact absurd hgt (by decide)
    · rw [heq] at hgt
      exact absurd hgt (by decide)
  obtain ⟨hlow, hdown, hmax⟩ := h.countDown_fdCount hf
  have hsub : m.infos.erase f ⊆ m.infos := erase_subset
  have hkeep : ∀ g ∈ m.infos, (countDown p m f).descriptor g = m.descriptor g :=
    fun g hg => countDown_descriptor (h.outside g hg)
  refine ⟨{ countDown p m f with links := links, infos := m.infos.erase f }, ?_,
    ⟨?_, ?_, ?_, ?_, ?_, hlow, ?_, ?_, ?_⟩, rfl, hkeep⟩
  · unfold sysClose
    rw [hfound, ok_bind]
    dsimp only
    rw [if_neg hfd]
    show (listRemove (countDown p m f).links (elemAt f) >>= fun r =>
      pure { countDown p m f with links := r.1, infos := (countDown p m f).infos.erase f }) = _
    rw [countDown_links, hremove, ok_bind, countDown_infos]
    rfl
  · rw [herase, map_append]
    exact hrep
  · exact h.apart.sublist erase_sublist
  · intro g hg
    exact h.outside g (hsub hg)
  · refine (h.sorted.sublist erase_sublist).imp_of_mem ?_
    intro a b ha hb hab
    show (countDown p m f).descriptor a < (countDown p m f).descriptor b
    rw [hkeep a (hsub ha), hkeep b (hsub hb)]
    exact hab
  · intro g hg
    show 3 < ((countDown p m f).descriptor g).toInt ∧
      (countDown p m f).descriptor g ≤ (countDown p m f).ints p.fdCount
    rw [hkeep g (hsub hg)]
    have hgf : g ≠ f := by
      rintro rfl
      exact hnodup.not_mem_erase hg
    exact ⟨(h.range g (hsub hg)).1, hmax g (hsub hg) hgf⟩
  · show ((countDown p m f).ints p.fdCount).toInt ≤ 3 + (countDown p m f).dirs.length
    rw [countDown_dirs]
    have hle := Int32.le_iff_toInt_le.mp hdown
    have hleaked := h.leaked
    omega
  · rw [countDown_dirs]
    exact h.dirs_apart
  · rw [countDown_dirs]
    exact h.dirs_below

theorem Inv.filesHelper_closed (h : Inv p m) {fuel : ℕ}
    (hfuel : m.infos.length < fuel) (hclosed : ¬m.IsOpen fd) :
    (filesHelper p m fuel fd).1 =
      .ok (if m.ints p.fdCount = fd then some (listEntry p.openList.tail) else none) := by
  by_cases hmax : m.IsOpen (m.ints p.fdCount)
  · have hfind : (m.infos.find? fun f => m.descriptor f = fd) = none := by
      rw [List.find?_eq_none]
      intro g hg
      simpa using fun heq => hclosed ⟨g, hg, heq⟩
    rw [(h.exact_of_max hfuel hclosed hmax).1, hfind,
      if_neg (show m.ints p.fdCount ≠ fd from fun heq => hclosed (heq ▸ hmax))]
  · rw [h.filesHelper_sentinel hfuel hclosed hmax]

/-- `SYS_CLOSE` of a descriptor that is not open fails, or panics in `list_remove` because the
tail sentinel was taken for the record. -/
theorem Inv.sysClose_closed (h : Inv p m) (hclosed : ¬m.IsOpen fd) :
    sysClose p m fd =
      if m.ints p.fdCount = fd then .error .assertion else .ok { m with eax := -1 } := by
  unfold sysClose
  rw [h.filesHelper_closed (by omega) hclosed]
  by_cases hfd : m.ints p.fdCount = fd
  · have hlow := h.low
    have hne : ¬(fd = 1 ∨ fd = 2) := by
      rintro (heq | heq)
      · rw [hfd, heq] at hlow
        exact absurd hlow (by decide)
      · rw [hfd, heq] at hlow
        exact absurd hlow (by decide)
    rw [if_pos hfd, if_pos hfd, ok_bind]
    dsimp only
    rw [if_neg hne]
    have hlinks := countDown_links (p := p) (m := m) (listEntry p.openList.tail)
    have htail : elemAt (listEntry p.openList.tail) = p.openList.tail := by
      unfold elemAt listEntry Layout.openList
      dsimp only
      omega
    have hstop : listRemove m.links p.openList.tail = .error .assertion := by
      unfold listRemove isInterior
      rw [h.list.tail_next, Option.isSome_none, Bool.and_false]
      rfl
    show (listRemove (countDown p m (listEntry p.openList.tail)).links
      (elemAt (listEntry p.openList.tail)) >>= _) = _
    rw [hlinks, htail, hstop]
    rfl
  · rw [if_neg hfd, if_neg hfd]
    rfl

/-- **One system call** keeps the table in order. -/
theorem Inv.step {e : Event} (h : Inv p m) (hs : Descriptors.step p m e = some m') :
    Inv p m' := by
  cases e with
  | sysOpen nowDir f =>
    rw [Descriptors.step] at hs
    split at hs
    · rename_i hav
      obtain ⟨m1, hrun, hinv, -⟩ := h.sysOpen_spec hav
      rw [hrun] at hs
      cases hs
      exact hinv
    · cases hs
  | sysClose fd =>
    rw [Descriptors.step] at hs
    by_cases hopen : m.IsOpen fd
    · obtain ⟨f, hf, rfl⟩ := hopen
      obtain ⟨m1, hrun, hinv, -⟩ := h.sysClose_spec hf
      rw [hrun] at hs
      cases hs
      exact hinv
    · rw [h.sysClose_closed hopen] at hs
      split at hs
      · cases hs
      · cases hs
        exact ⟨h.list, h.apart, h.outside, h.sorted, h.range, h.low, h.leaked, h.dirs_apart,
          h.dirs_below⟩

/-- **Every run** of system calls keeps the table in order. -/
theorem inv_run {m0 : Machine} {es : List Event} (h0 : m0.Initial p)
    (hrun : run (Descriptors.step p) m0 es = some m) : Inv p m := by
  have hok : Transition.Meets (Descriptors.step p) (fun _ _ => True) m0 es :=
    meets_of_forall (fun _ _ => trivial) es m0
  exact run_invariant (fun _ _ _ hinv _ hs => hinv.step hs) es h0.inv hok hrun

end Steps

/-! ### The two properties of the table -/

/-- **Descriptors are unique.**  In every state that a process reaches by opening and closing
files, `open_list` is in strictly increasing order of descriptors, none of them above `fd_count`;
opening a file succeeds with a descriptor that is not in use and is none of 0, 1 and 2; closing
an open descriptor takes just that one off. -/
theorem descriptors_unique (p : Layout) (m₀ m : Machine) (es : List Event) (h₀ : m₀.Initial p)
    (hrun : run (step p) m₀ es = some m) :
    KernelList.Represents m.links p.openList (m.infos.map elemAt) ∧
    (m.infos.map m.descriptor).Pairwise (· < ·) ∧
    (∀ fd, m.IsOpen fd → fd ≤ m.ints p.fdCount) ∧
    (∀ nowDir f, Available p m nowDir f → ∃ m', step p m (.sysOpen nowDir f) = some m' ∧
      (∀ fd, m'.IsOpen fd ↔ m.IsOpen fd ∨ fd = m'.eax) ∧
      ¬m.IsOpen m'.eax ∧ m'.eax ≠ 0 ∧ m'.eax ≠ 1 ∧ m'.eax ≠ 2) ∧
    (∀ fd, m.IsOpen fd → ∃ m', step p m (.sysClose fd) = some m' ∧
      ∀ fd', m'.IsOpen fd' ↔ m.IsOpen fd' ∧ fd' ≠ fd) := by
  have h := inv_run h₀ hrun
  refine ⟨h.list, ?_, ?_, ?_, ?_⟩
  · rw [pairwise_map]
    exact h.sorted
  · rintro fd ⟨f, hf, rfl⟩
    exact (h.range f hf).2
  · intro nowDir f hav
    obtain ⟨m', hstep, -, hinfos, heax, hval, hkeep⟩ := h.sysOpen_spec hav
    have hlow := h.low
    refine ⟨m', ?_, ?_, ?_, ?_, ?_, ?_⟩
    · rw [step, if_pos hav, hstep]
      rfl
    · intro fd
      unfold Machine.IsOpen
      rw [hinfos, heax]
      constructor
      · rintro ⟨g, hg, rfl⟩
        cases mem_append.mp hg with
        | inl hg => exact .inl ⟨g, hg, (hkeep g hg).symm⟩
        | inr hg => exact .inr (by rw [mem_singleton.mp hg])
      · rintro (⟨g, hg, rfl⟩ | rfl)
        · exact ⟨g, mem_append_left _ hg, hkeep g hg⟩
        · exact ⟨f, mem_concat_self, rfl⟩
    · rintro ⟨g, hg, heq⟩
      have hle := Int32.le_iff_toInt_le.mp (h.range g hg).2
      rw [heq, hval] at hle
      omega
    all_goals
      intro heq
      rw [heq] at hval
      have hsmall : m'.eax.toInt ≤ 2 := by
        rw [heq]
        decide
      rw [heq] at hsmall
      omega
  · rintro fd ⟨f, hf, rfl⟩
    obtain ⟨m', hstep, -, hinfos, hkeep⟩ := h.sysClose_spec hf
    refine ⟨m', ?_, fun fd' => ?_⟩
    · rw [step, hstep]
      rfl
    · have hnodup := h.nodup
      unfold Machine.IsOpen
      rw [hinfos]
      constructor
      · rintro ⟨g, hg, rfl⟩
        obtain ⟨hgf, hgm⟩ := hnodup.mem_erase_iff.mp hg
        rw [hkeep g hgm]
        exact ⟨⟨g, hgm, rfl⟩, fun heq => hgf (h.descriptor_inj hgm hf heq)⟩
      · rintro ⟨⟨g, hg, rfl⟩, hne⟩
        refine ⟨g, hnodup.mem_erase_iff.mpr ⟨fun heq => hne (heq ▸ rfl), hg⟩, hkeep g hg⟩

/-- **When a lookup is exact.**  In every state that a process reaches by opening and closing
files, the lookup of `fd` is exact if `fd` is open or the descriptor `fd_count` is, and then only:
otherwise the tail sentinel of `open_list` is taken for a record. -/
theorem filesHelper_exact_iff (p : Layout) (m₀ m : Machine) (es : List Event) (h₀ : m₀.Initial p)
    (hrun : run (step p) m₀ es = some m) (fuel : ℕ) (hfuel : m.infos.length < fuel) (fd : Int32) :
    Exact p m fuel fd ↔ m.IsOpen fd ∨ m.IsOpen (m.ints p.fdCount) :=
  (inv_run h₀ hrun).exact_iff hfuel fd

/-- A process whose `struct thread` is at 4096. -/
def sampleLayout : Layout := ⟨4096, 6000, by decide⟩

/-- Its table when it starts. -/
def sampleMachine : Machine where
  links :=
    { prev := fun a => if a = 4160 then some 4152 else none
      next := fun a => if a = 4152 then some 4160 else none }
  ints := fun a => if a = 4148 then 3 else 0
  infos := []
  dirs := []
  eax := 0

theorem sampleMachine_initial : sampleMachine.Initial sampleLayout := by
  refine ⟨⟨rfl, rfl, ?_, by decide⟩, rfl, rfl, rfl⟩
  exact isChain_cons_cons.mpr ⟨⟨rfl, rfl⟩, .singleton _⟩

/-- The process opens three files and closes the second: the descriptors 4 and 6 are left. -/
theorem descriptors_unique_sample : ∃ m,
    run (step sampleLayout) sampleMachine
      [.sysOpen 9000 8192, .sysOpen 9100 8300, .sysOpen 9200 8400, .sysClose 5] = some m ∧
    m.infos.map m.descriptor = [4, 6] ∧
    ∀ nowDir f, Available sampleLayout m nowDir f →
      ∃ m', step sampleLayout m (.sysOpen nowDir f) = some m' ∧ ¬m.IsOpen m'.eax := by
  have hsome : (run (step sampleLayout) sampleMachine
      [.sysOpen 9000 8192, .sysOpen 9100 8300, .sysOpen 9200 8400, .sysClose 5]).map
      (fun m => m.infos.map m.descriptor) = some [4, 6] := by decide +kernel
  obtain ⟨m, hrun, hfds⟩ := Option.map_eq_some_iff.mp hsome
  obtain ⟨-, -, -, hopen, -⟩ :=
    descriptors_unique sampleLayout sampleMachine m _ sampleMachine_initial hrun
  refine ⟨m, hrun, hfds, fun nowDir f hav => ?_⟩
  obtain ⟨m', hstep, -, hnew, -⟩ := hopen nowDir f hav
  exact ⟨m', hstep, hnew⟩

/-- With the descriptor 4 open the lookups of 4 and of 7 are exact. -/
theorem filesHelper_exact_iff_sample : ∃ m,
    run (step sampleLayout) sampleMachine [.sysOpen 9000 8192] = some m ∧
    m.infos.length < 2 ∧ Exact sampleLayout m 2 4 ∧ Exact sampleLayout m 2 7 := by
  have hsome : (run (step sampleLayout) sampleMachine [.sysOpen 9000 8192]).map
      (fun m => (m.infos, m.infos.map m.descriptor, m.ints sampleLayout.fdCount)) =
      some ([8192], [4], 4) := by decide +kernel
  obtain ⟨m, hrun, hfds⟩ := Option.map_eq_some_iff.mp hsome
  obtain ⟨hinfos, hdesc, hcount⟩ : m.infos = [8192] ∧ m.infos.map m.descriptor = [4] ∧
      m.ints sampleLayout.fdCount = 4 := by simpa using hfds
  have hlen : m.infos.length < 2 := by
    rw [hinfos]
    decide
  have hopen : m.IsOpen 4 := by
    have hmem : (4 : Int32) ∈ m.infos.map m.descriptor := hdesc ▸ mem_singleton_self _
    obtain ⟨f, hf, heq⟩ := mem_map.mp hmem
    exact ⟨f, hf, heq⟩
  refine ⟨m, hrun, hlen, ?_, ?_⟩
  · exact (filesHelper_exact_iff sampleLayout sampleMachine m _ sampleMachine_initial hrun 2 hlen
      4).mpr (.inl hopen)
  · exact (filesHelper_exact_iff sampleLayout sampleMachine m _ sampleMachine_initial hrun 2 hlen
      7).mpr (.inr (hcount ▸ hopen))

/-- A process that has opened nothing looks the descriptor 3 up: the list is not seen to be
empty, and a `file_info` in the middle of `struct thread` is returned. -/
theorem not_filesHelper_exact :
    filesHelper sampleLayout sampleMachine 1 3 = (.ok (some 4144), [4160]) ∧
    ¬∀ (p : Layout) (m₀ m : Machine) (es : List Event), m₀.Initial p →
      run (step p) m₀ es = some m →
      ∀ (fuel : ℕ), m.infos.length < fuel → ∀ fd, Exact p m fuel fd := by
  have hvalue : filesHelper sampleLayout sampleMachine 1 3 = (.ok (some 4144), [4160]) := rfl
  refine ⟨hvalue, fun hall => ?_⟩
  have hexact := hall sampleLayout sampleMachine sampleMachine [] sampleMachine_initial rfl 1
    (by decide) 3
  have hret := hexact.1
  cases hret

end Pintos.Descriptors

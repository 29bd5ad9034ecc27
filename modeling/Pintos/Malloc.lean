import Pintos.BlockDevice
import Pintos.Heap
import Pintos.Transition

/-! # The block allocator: `threads/malloc.c`

Blocks of seven sizes are carved out of one-page arenas; a bigger block has an arena of several
pages of its own.

* **Arenas.**  `arenas p` is the `struct arena` at the start of page `p`; a page without one fails
  the test of `magic`.
* **Free lists.**  One for each descriptor, of the addresses of its free blocks.
* **Pages.**  What `palloc_get_multiple` answers is part of the call.
* **Numbers.**  `size_t` is taken modulo `2 ^ 32`.
* **Soundness.**  `Inv` says where blocks, headers and free blocks are, and `malloc_sound` what
  follows in every sequence of calls; `not_malloc_sound` is a request whose size wraps.
* **Sizes.**  `block_room_iff`: which requests get a block that is large enough. -/

namespace Pintos.Malloc

open Function List Nat Option

abbrev pgSize : ℕ := 4096

/-- `sizeof (struct arena)`. -/
abbrev arenaSize : ℕ := 12

/-! ### Descriptors -/

/-- `struct desc`, without its free list. -/
structure Desc where
  blockSize : ℕ
  blocksPerArena : ℕ
deriving DecidableEq

/-- The loop of `malloc_init`; `fuel` bounds its rounds. -/
def initLoop : ℕ → ℕ → List Desc
  | 0, _ => []
  | fuel + 1, blockSize =>
    if blockSize < pgSize / 2 then
      ⟨blockSize, (pgSize - arenaSize) / blockSize⟩ :: initLoop fuel (blockSize * 2)
    else []

/-- `descs` behind `malloc_init`; there is room for ten of them. -/
def descs : List Desc := initLoop 10 16

theorem descs_eq : descs =
    [⟨16, 255⟩, ⟨32, 127⟩, ⟨64, 63⟩, ⟨128, 31⟩, ⟨256, 15⟩, ⟨512, 7⟩, ⟨1024, 3⟩] := by
  decide

/-- The smallest descriptor that satisfies a request. -/
def findDesc (size : ℕ) : Option Desc := descs.find? fun d => size ≤ d.blockSize

/-! ### The source -/

/-- `struct arena`: `desc` is null for a big block, and `freeCnt` is then its pages. -/
structure Arena where
  desc : Option Desc
  freeCnt : ℕ
deriving DecidableEq

structure State where
  arenas : ℕ → Option Arena
  freeList : Desc → List ℕ

/-- `block_to_arena`: the page of the block and the arena there, if every ASSERT holds. -/
def blockToArena (st : State) (b : ℕ) : Except Fault (ℕ × Arena) :=
  match st.arenas (b / pgSize) with
  | none => .error .assertion
  | some a =>
    match a.desc with
    | some d =>
      -- `pg_ofs (b) - sizeof *a` is a `size_t`
      if (b % pgSize + 2 ^ 32 - arenaSize) % 2 ^ 32 % d.blockSize = 0 then .ok (b / pgSize, a)
      else .error .assertion
    | none => if b % pgSize = arenaSize then .ok (b / pgSize, a) else .error .assertion

def arenaToBlock (page : ℕ) (d : Desc) (idx : ℕ) : ℕ := page * pgSize + arenaSize + idx * d.blockSize

/-- The blocks of an arena, in the order in which its loops visit them. -/
def arenaBlocks (page : ℕ) (d : Desc) : List ℕ :=
  (List.range d.blocksPerArena).map (arenaToBlock page d)

/-- Pages for a big block. -/
def bigPages (size : ℕ) : ℕ := ((size + arenaSize) % 2 ^ 32 + pgSize - 1) % 2 ^ 32 / pgSize

/-- `palloc_get_multiple (0, page_cnt)`, where `answer` is what it would find. -/
def pallocGet (answer : Option ℕ) (pageCnt : ℕ) : Option ℕ := if pageCnt = 0 then none else answer

/-- The arena behind the end of `malloc`: one block less is free. -/
def takeBlock (d : Desc) (st : State) : Except Fault (Option ℕ × State) :=
  match st.freeList d with
  | [] => .error .assertion
  | b :: bs => do
    let (page, a) ← blockToArena st b
    .ok (some b, {
      arenas := update st.arenas page (some { a with freeCnt := a.freeCnt - 1 })
      freeList := update st.freeList d bs })

/-- A new arena for `d` in `page`. -/
def addArena (d : Desc) (page : ℕ) (st : State) : State where
  arenas := update st.arenas page (some ⟨some d, d.blocksPerArena⟩)
  freeList := update st.freeList d (st.freeList d ++ arenaBlocks page d)

def malloc (size : ℕ) (answer : Option ℕ) (st : State) : Except Fault (Option ℕ × State) :=
  if size = 0 then .ok (none, st)
  else
    match findDesc size with
    | none =>
      match pallocGet answer (bigPages size) with
      | none => .ok (none, st)
      | some page => .ok (some (page * pgSize + arenaSize), { st with
          arenas := update st.arenas page (some ⟨none, bigPages size⟩) })
    | some d =>
      match st.freeList d with
      | [] =>
        match pallocGet answer 1 with
        | none => .ok (none, st)
        | some page => takeBlock d (addArena d page st)
      | _ :: _ => takeBlock d st

/-- `calloc`; the contents of blocks are left out. -/
def calloc (a b : ℕ) (answer : Option ℕ) (st : State) : Except Fault (Option ℕ × State) :=
  if a * b % 2 ^ 32 < a ∨ a * b % 2 ^ 32 < b then .ok (none, st)
  else malloc (a * b % 2 ^ 32) answer st

/-- `memset (p, 0, n)`. -/
def zeroLoop : ℕ → ℕ → (ℕ → UInt8) → ℕ → UInt8
  | _, 0, mem => mem
  | p, n + 1, mem => zeroLoop (p + 1) n (update mem p 0)

/-- `calloc` with the memory, which it clears. -/
def callocMem (a b : ℕ) (answer : Option ℕ) (st : State) (mem : ℕ → UInt8) :
    Except Fault (Option ℕ × State × (ℕ → UInt8)) :=
  (calloc a b answer st).map fun r =>
    match r.1 with
    | none => (none, r.2, mem)
    | some p => (some p, r.2, zeroLoop p (a * b % 2 ^ 32) mem)

def blockSize (st : State) (b : ℕ) : Except Fault ℕ :=
  (blockToArena st b).map fun r =>
    match r.2.desc with
    | some d => d.blockSize
    | none => (pgSize * r.2.freeCnt % 2 ^ 32 + 2 ^ 32 - b % pgSize) % 2 ^ 32

/-- The loop that takes the blocks of an arena off the free list; a block that is not on it would
corrupt the list. -/
def removeAll : List ℕ → List ℕ → Except Fault (List ℕ)
  | [], l => .ok l
  | b :: bs, l => if b ∈ l then removeAll bs (l.erase b) else .error .outOfBounds

def free (p : Option ℕ) (st : State) : Except Fault State :=
  match p with
  | none => .ok st
  | some b => do
    let (page, a) ← blockToArena st b
    match a.desc with
    | none => .ok { st with arenas := update st.arenas page none }
    | some d =>
      if d.blocksPerArena ≤ a.freeCnt + 1 then
        if a.freeCnt + 1 = d.blocksPerArena then do
          let l ← removeAll (arenaBlocks page d) (b :: st.freeList d)
          .ok ⟨update st.arenas page none, update st.freeList d l⟩
        else .error .assertion
      else
        .ok ⟨update st.arenas page (some { a with freeCnt := a.freeCnt + 1 }),
          update st.freeList d (b :: st.freeList d)⟩

/-- `realloc`; `block_size` of the old block is read for the copy only. -/
def realloc (old : Option ℕ) (size : ℕ) (answer : Option ℕ) (st : State) :
    Except Fault (Option ℕ × State) :=
  if size = 0 then (free old st).map fun st => (none, st)
  else do
    let (new, st) ← malloc size answer st
    match old, new with
    | some b, some b' => do
      let _ ← blockToArena st b
      (free (some b) st).map fun st => (some b', st)
    | _, _ => .ok (new, st)

/-! ### Where blocks are -/

variable {page page' b i n size : ℕ} {d : Desc}

theorem desc_fits (h : d ∈ descs) :
    0 < d.blockSize ∧ 1 < d.blocksPerArena ∧
      arenaSize + d.blocksPerArena * d.blockSize ≤ pgSize := by
  rw [descs_eq] at h
  simp only [mem_cons, not_mem_nil, or_false] at h
  obtain rfl | rfl | rfl | rfl | rfl | rfl | rfl := h <;> decide

theorem findDesc_spec (h : findDesc size = some d) : d ∈ descs ∧ size ≤ d.blockSize := by
  refine ⟨mem_of_find?_eq_some h, ?_⟩
  have hp := List.find?_some h
  exact of_decide_eq_true hp

variable {k j : ℕ} {bs : List ℕ}

theorem mul_succ_le (h : i < n) : i * k + k ≤ n * k := by
  calc i * k + k = (i + 1) * k := by ring
    _ ≤ n * k := mul_le_mul_right k h

theorem block_in_page (page : ℕ) (hd : d ∈ descs) (hi : i < d.blocksPerArena) :
    page * pgSize + arenaSize ≤ arenaToBlock page d i ∧
      arenaToBlock page d i + d.blockSize ≤ page * pgSize + pgSize := by
  have hfits := (desc_fits hd).2.2
  have hle := mul_succ_le (k := d.blockSize) hi
  unfold arenaToBlock
  omega

/-- `pg_round_down` finds the arena of a block. -/
theorem block_page (hd : d ∈ descs) (hi : i < d.blocksPerArena) :
    arenaToBlock page d i / pgSize = page := by
  obtain ⟨hlo, hhi⟩ := block_in_page page hd hi
  have hpos := (desc_fits hd).1
  simp only [pgSize] at hlo hhi ⊢
  omega

theorem block_ofs (hd : d ∈ descs) (hi : i < d.blocksPerArena) :
    arenaToBlock page d i % pgSize = arenaSize + i * d.blockSize := by
  have hfits := (desc_fits hd).2.2
  have hpos := (desc_fits hd).1
  have hle := mul_succ_le (k := d.blockSize) hi
  unfold arenaToBlock
  rw [add_assoc, add_comm (page * pgSize), add_mul_mod_self_right]
  exact mod_eq_of_lt (by omega)

theorem block_index_eq {x : ℕ} (hi1 : arenaToBlock page d i ≤ x)
    (hi2 : x < arenaToBlock page d i + d.blockSize) (hj1 : arenaToBlock page d j ≤ x)
    (hj2 : x < arenaToBlock page d j + d.blockSize) : i = j := by
  unfold arenaToBlock at hi1 hi2 hj1 hj2
  by_contra hne
  cases lt_or_gt_of_ne hne with
  | inl hlt =>
    have hle := mul_succ_le (k := d.blockSize) hlt
    omega
  | inr hgt =>
    have hle := mul_succ_le (k := d.blockSize) hgt
    omega

theorem arenaToBlock_inj (hd : d ∈ descs)
    (h : arenaToBlock page d i = arenaToBlock page d j) : i = j := by
  have hpos := (desc_fits hd).1
  exact block_index_eq (x := arenaToBlock page d i) le_rfl (by omega) (by omega) (by omega)

theorem nodup_arenaBlocks (hd : d ∈ descs) (page : ℕ) : (arenaBlocks page d).Nodup :=
  nodup_range.map fun _ _ h => arenaToBlock_inj hd h

theorem mem_arenaBlocks :
    b ∈ arenaBlocks page d ↔ ∃ i < d.blocksPerArena, arenaToBlock page d i = b := by
  simp [arenaBlocks]

/-! ### Taking blocks off the free list -/

/-- The loop takes off exactly the blocks it visits. -/
theorem removeAll_ok : ∀ {bs l : List ℕ}, bs.Nodup → l.Nodup → (∀ b ∈ bs, b ∈ l) →
    ∃ l', removeAll bs l = .ok l' ∧ l'.Nodup ∧ ∀ x, x ∈ l' ↔ x ∈ l ∧ x ∉ bs := by
  intro bs
  induction bs with
  | nil =>
    intro l _ hl _
    exact ⟨l, rfl, hl, fun x => by simp⟩
  | cons b bs ih =>
    intro l hbs hl hall
    obtain ⟨hb, hbs'⟩ := nodup_cons.mp hbs
    have hmem := hall b mem_cons_self
    have hrest : ∀ c ∈ bs, c ∈ l.erase b := by
      intro c hc
      apply (hl.mem_erase_iff).mpr
      refine ⟨?_, hall c (mem_cons_of_mem b hc)⟩
      intro heq
      exact hb (heq ▸ hc)
    obtain ⟨l', hl', hnd, hiff⟩ := ih hbs' (hl.erase b) hrest
    refine ⟨l', ?_, hnd, ?_⟩
    · rw [removeAll, if_pos hmem, hl']
    · intro x
      rw [hiff, hl.mem_erase_iff, mem_cons, not_or]
      tauto

/-! ### The invariant -/

/-- A block that was handed out and not freed, with the size that was asked for. -/
structure Live where
  addr : ℕ
  size : ℕ
deriving DecidableEq

structure Sys where
  st : State
  live : List Live

/-- The pages of an arena. -/
def Arena.pages (a : Arena) : ℕ :=
  match a.desc with
  | some _ => 1
  | none => a.freeCnt

/-- `b` is a block of the arena in `page`. -/
def IsBlock (st : State) (page : ℕ) (d : Desc) (b : ℕ) : Prop :=
  (∃ a, st.arenas page = some a ∧ a.desc = some d) ∧
    ∃ i < d.blocksPerArena, arenaToBlock page d i = b

/-- `b` is the block of the big arena in `page`, which has `n` pages. -/
def IsBig (st : State) (page n b : ℕ) : Prop :=
  st.arenas page = some ⟨none, n⟩ ∧ b = page * pgSize + arenaSize

/-- A live block is a block of its arena that is not free, or the block of a big arena, and what
was asked for fits. -/
def Live.Placed (st : State) (x : Live) : Prop :=
  (∃ page d, IsBlock st page d x.addr ∧ x.addr ∉ st.freeList d ∧ x.size ≤ d.blockSize) ∨
    ∃ page n, IsBig st page n x.addr ∧ arenaSize + x.size ≤ n * pgSize

/-- What holds also inside `malloc`, where a new arena has no block in use yet. -/
structure Core (s : Sys) : Prop where
  desc_mem : ∀ page a d, s.st.arenas page = some a → a.desc = some d → d ∈ descs
  page_pos : ∀ page a, s.st.arenas page = some a → 0 < a.pages
  apart : ∀ page a page' a', s.st.arenas page = some a → s.st.arenas page' = some a' →
    page ≠ page' → page + a.pages ≤ page' ∨ page' + a'.pages ≤ page
  free_block : ∀ d b, b ∈ s.st.freeList d → ∃ page, IsBlock s.st page d b
  free_nodup : ∀ d, (s.st.freeList d).Nodup
  count : ∀ page a d, s.st.arenas page = some a → a.desc = some d →
    a.freeCnt = (s.st.freeList d).countP (fun b => b / pgSize = page)
  placed : ∀ x ∈ s.live, x.Placed s.st
  live_nodup : (s.live.map Live.addr).Nodup
  /-- No block is lost: it is free, or live. -/
  covered : ∀ page d b, IsBlock s.st page d b → b ∉ s.st.freeList d → ∃ x ∈ s.live, x.addr = b
  covered_big : ∀ page n b, IsBig s.st page n b → ∃ x ∈ s.live, x.addr = b

/-- Between calls every arena has a block in use. -/
structure Inv (s : Sys) : Prop extends Core s where
  in_use : ∀ page a d, s.st.arenas page = some a → a.desc = some d → a.freeCnt < d.blocksPerArena

/-- Nothing is allocated at first. -/
def initial : Sys := ⟨⟨fun _ => none, fun _ => []⟩, []⟩

theorem inv_initial : Inv initial where
  desc_mem _ _ _ h := by cases h
  page_pos _ _ h := by cases h
  apart _ _ _ _ h := by cases h
  free_block _ _ h := by cases h
  free_nodup _ := nodup_nil
  count _ _ _ h := by cases h
  in_use _ _ _ h := by cases h
  placed _ h := by cases h
  live_nodup := nodup_nil
  covered _ _ _ h := by
    obtain ⟨⟨a, ha, -⟩, -⟩ := h
    cases ha
  covered_big _ _ _ h := by cases h.1

/-! ### What follows from it -/

variable {s : Sys} {a : Arena} {x y : Live} {live : List Live} {st : State}

theorem IsBlock.desc_mem (h : Core s) (hb : IsBlock s.st page d b) : d ∈ descs := by
  obtain ⟨⟨a, ha, had⟩, -⟩ := hb
  exact h.desc_mem page a d ha had

theorem IsBlock.page_eq (h : Core s) (hb : IsBlock s.st page d b) : b / pgSize = page := by
  have hd := hb.desc_mem h
  obtain ⟨-, i, hi, rfl⟩ := hb
  exact block_page hd hi

theorem IsBig.page_eq (hb : IsBig st page n b) : b / pgSize = page := by
  rw [hb.2]
  simp only [pgSize, arenaSize]
  omega

/-- **No ASSERT of `block_to_arena` fails** for a block of an arena. -/
theorem IsBlock.toArena (h : Core s) (hb : IsBlock s.st page d b) :
    ∃ a, s.st.arenas page = some a ∧ a.desc = some d ∧
      blockToArena s.st b = .ok (page, a) := by
  have hd := hb.desc_mem h
  have hpage := hb.page_eq h
  obtain ⟨⟨a, ha, had⟩, i, hi, rfl⟩ := hb
  refine ⟨a, ha, had, ?_⟩
  have hlt : i * d.blockSize < 2 ^ 32 := by
    have hfits := (desc_fits hd).2.2
    have hle := mul_succ_le (k := d.blockSize) hi
    simp only [pgSize] at hfits
    omega
  have hmod : (arenaToBlock page d i % pgSize + 2 ^ 32 - arenaSize) % 2 ^ 32 % d.blockSize = 0 := by
    have hsub : arenaSize + i * d.blockSize + 2 ^ 32 - arenaSize = i * d.blockSize + 2 ^ 32 := by
      omega
    rw [block_ofs hd hi, hsub, add_mod_right, mod_eq_of_lt hlt, mul_mod_left]
  unfold blockToArena
  simp only [hpage, ha, had, hmod, if_true]

theorem IsBig.toArena (hb : IsBig st page n b) : blockToArena st b = .ok (page, ⟨none, n⟩) := by
  have hpage := hb.page_eq
  have hofs : b % pgSize = arenaSize := by
    rw [hb.2]
    simp only [pgSize, arenaSize]
    omega
  unfold blockToArena
  simp only [hpage, hb.1, hofs, if_true]

theorem length_arenaBlocks (page : ℕ) (d : Desc) :
    (arenaBlocks page d).length = d.blocksPerArena := by
  simp [arenaBlocks]

theorem Core.free_subperm (h : Core s) (page : ℕ) (d : Desc) :
    (s.st.freeList d).filter (fun b => b / pgSize = page) <+~ arenaBlocks page d := by
  refine subperm_of_subset ((h.free_nodup d).filter _) fun b hb => ?_
  obtain ⟨hmem, hpage⟩ := mem_filter.mp hb
  obtain ⟨page', hblock⟩ := h.free_block d b hmem
  obtain rfl := (hblock.page_eq h).symm.trans (of_decide_eq_true hpage)
  exact mem_arenaBlocks.mpr hblock.2

theorem Core.free_le (h : Core s) (ha : s.st.arenas page = some a) (had : a.desc = some d) :
    a.freeCnt ≤ d.blocksPerArena := by
  rw [h.count page a d ha had, countP_eq_length_filter, ← length_arenaBlocks page d]
  exact (h.free_subperm page d).length_le

theorem Core.free_of_page (h : Core s) (ha : s.st.arenas page = some a) (hb : b ∈ s.st.freeList d)
    (hp : b / pgSize = page) : a.desc = some d ∧ IsBlock s.st page d b := by
  obtain ⟨page', hblock⟩ := h.free_block d b hb
  obtain rfl := (hblock.page_eq h).symm.trans hp
  obtain ⟨a', ha', had'⟩ := hblock.1
  cases ha.symm.trans ha'
  exact ⟨had', hblock⟩

theorem Core.live_of_page (h : Core s) (ha : s.st.arenas page = some a) (had : a.desc = some d)
    (hx : x ∈ s.live) (hp : x.addr / pgSize = page) :
    IsBlock s.st page d x.addr ∧ x.addr ∉ s.st.freeList d ∧ x.size ≤ d.blockSize := by
  rcases h.placed x hx with ⟨page', d', hb, hfree, hfit⟩ | ⟨page', n, hb, -⟩
  · obtain rfl := (hb.page_eq h).symm.trans hp
    obtain ⟨a', ha', had'⟩ := hb.1
    cases ha.symm.trans ha'
    cases had.symm.trans had'
    exact ⟨hb, hfree, hfit⟩
  · obtain rfl := hb.page_eq.symm.trans hp
    rw [some.inj (ha.symm.trans hb.1)] at had
    cases had

theorem Core.live_of_big (h : Core s) (ha : s.st.arenas page = some ⟨none, n⟩) (hx : x ∈ s.live)
    (hp : x.addr / pgSize = page) : x.addr = page * pgSize + arenaSize := by
  rcases h.placed x hx with ⟨page', d', hb, -, -⟩ | ⟨page', n', hb, -⟩
  · obtain rfl := (hb.page_eq h).symm.trans hp
    obtain ⟨a', ha', had'⟩ := hb.1
    rw [← some.inj (ha.symm.trans ha')] at had'
    cases had'
  · obtain rfl := hb.page_eq.symm.trans hp
    exact hb.2

/-! ### A change in one page -/

/-- The system changes in `page` only: the arena there becomes `o`, and the free lists and the live
blocks are the same outside. -/
structure Changes (s s' : Sys) (page : ℕ) (o : Option Arena) : Prop where
  arenas : s'.st.arenas = update s.st.arenas page o
  pages : ∀ a, o = some a → 0 < a.pages ∧ ∀ page' a', page' ≠ page →
    s.st.arenas page' = some a' → page + a.pages ≤ page' ∨ page' + a'.pages ≤ page
  counts : ∀ a d, o = some a → a.desc = some d → d ∈ descs ∧
    a.freeCnt = (s'.st.freeList d).countP (fun b => b / pgSize = page)
  lists : ∀ d b, b / pgSize ≠ page → (b ∈ s'.st.freeList d ↔ b ∈ s.st.freeList d)
  free : ∀ d b, b ∈ s'.st.freeList d → b / pgSize = page → IsBlock s'.st page d b
  nodup : ∀ d, (s'.st.freeList d).Nodup
  rest : ∀ x, x.addr / pgSize ≠ page → (x ∈ s'.live ↔ x ∈ s.live)
  placed : ∀ x ∈ s'.live, x.addr / pgSize = page → x.Placed s'.st
  live_nodup : (s'.live.map Live.addr).Nodup
  covered : ∀ d b, IsBlock s'.st page d b → b ∉ s'.st.freeList d → ∃ x ∈ s'.live, x.addr = b
  covered_big : ∀ n b, IsBig s'.st page n b → ∃ x ∈ s'.live, x.addr = b

namespace Changes

variable {s s' : Sys} {page : ℕ} {o : Option Arena}

theorem arena_ne (hc : Changes s s' page o) (hp : page' ≠ page) :
    s'.st.arenas page' = s.st.arenas page' := by
  rw [hc.arenas, update_of_ne hp]

/-- In the other pages the free lists have the same blocks, each once. -/
theorem countP_eq (hc : Changes s s' page o) (h : Core s) (d : Desc) (hp : page' ≠ page) :
    (s'.st.freeList d).countP (fun b => b / pgSize = page') =
      (s.st.freeList d).countP (fun b => b / pgSize = page') := by
  rw [countP_eq_length_filter, countP_eq_length_filter]
  apply List.Perm.length_eq
  apply (perm_ext_iff_of_nodup ((hc.nodup d).filter _) ((h.free_nodup d).filter _)).mpr
  intro b
  simp only [mem_filter, decide_eq_true_eq]
  refine and_congr_left fun hb => hc.lists d b ?_
  rw [hb]
  exact hp

/-- **Such a change keeps what holds of the system.** -/
theorem core (hc : Changes s s' page o) (h : Core s) : Core s' := by
  have hcases : ∀ {page' a}, s'.st.arenas page' = some a →
      (page' = page ∧ o = some a) ∨ (page' ≠ page ∧ s.st.arenas page' = some a) := by
    intro page' a ha
    rw [hc.arenas] at ha
    exact Heap.update_eq_some.mp ha
  have hblock : ∀ {page' d b}, page' ≠ page → (IsBlock s'.st page' d b ↔ IsBlock s.st page' d b) := by
    intro page' d b hp
    rw [IsBlock, hc.arena_ne hp, IsBlock]
  have hbig : ∀ {page' n b}, page' ≠ page → (IsBig s'.st page' n b ↔ IsBig s.st page' n b) := by
    intro page' n b hp
    rw [IsBig, hc.arena_ne hp, IsBig]
  have hkept : ∀ {page' b}, page' ≠ page → b / pgSize = page' →
      (∃ x ∈ s.live, x.addr = b) → ∃ x ∈ s'.live, x.addr = b := by
    rintro page' b hp hb ⟨x, hx, rfl⟩
    exact ⟨x, (hc.rest x (hb ▸ hp)).mpr hx, rfl⟩
  refine ⟨?_, ?_, ?_, ?_, hc.nodup, ?_, ?_, hc.live_nodup, ?_, ?_⟩
  · intro page' a d ha had
    rcases hcases ha with ⟨-, ho⟩ | ⟨-, hold⟩
    · exact (hc.counts a d ho had).1
    · exact h.desc_mem page' a d hold had
  · intro page' a ha
    rcases hcases ha with ⟨-, ho⟩ | ⟨-, hold⟩
    · exact (hc.pages a ho).1
    · exact h.page_pos page' a hold
  · intro page1 a1 page2 a2 ha1 ha2 hne
    rcases hcases ha1 with ⟨rfl, ho1⟩ | ⟨hp1, hold1⟩
    · rw [hc.arena_ne hne.symm] at ha2
      exact (hc.pages a1 ho1).2 page2 a2 hne.symm ha2
    · rcases hcases ha2 with ⟨rfl, ho2⟩ | ⟨-, hold2⟩
      · exact ((hc.pages a2 ho2).2 page1 a1 hne hold1).symm
      · exact h.apart page1 a1 page2 a2 hold1 hold2 hne
  · intro d b hb
    by_cases hp : b / pgSize = page
    · exact ⟨page, hc.free d b hb hp⟩
    · obtain ⟨page', hold⟩ := h.free_block d b ((hc.lists d b hp).mp hb)
      rw [hold.page_eq h] at hp
      exact ⟨page', (hblock hp).mpr hold⟩
  · intro page' a d ha had
    rcases hcases ha with ⟨rfl, ho⟩ | ⟨hp, hold⟩
    · exact (hc.counts a d ho had).2
    · rw [hc.countP_eq h d hp]
      exact h.count page' a d hold had
  · intro x hx
    by_cases hp : x.addr / pgSize = page
    · exact hc.placed x hx hp
    · rcases h.placed x ((hc.rest x hp).mp hx) with ⟨page', d, hb, hfree, hfit⟩ | ⟨page', n, hb, hfit⟩
      · refine .inl ⟨page', d, (hblock ?_).mpr hb, fun hm => hfree ((hc.lists d _ hp).mp hm), hfit⟩
        rwa [hb.page_eq h] at hp
      · refine .inr ⟨page', n, (hbig ?_).mpr hb, hfit⟩
        rwa [hb.page_eq] at hp
  · intro page' d b hb hfree
    by_cases hp : page' = page
    · subst hp
      exact hc.covered d b hb hfree
    · have hold := (hblock hp).mp hb
      have hpage := hold.page_eq h
      refine hkept hp hpage (h.covered page' d b hold fun hm => hfree ?_)
      exact (hc.lists d b (hpage ▸ hp)).mpr hm
  · intro page' n b hb
    by_cases hp : page' = page
    · subst hp
      exact hc.covered_big n b hb
    · have hold := (hbig hp).mp hb
      exact hkept hp hold.page_eq (h.covered_big page' n b hold)

/-- Every arena has a block in use, if that of the page has. -/
theorem inv (hc : Changes s s' page o) (h : Inv s)
    (huse : ∀ a d, o = some a → a.desc = some d → a.freeCnt < d.blocksPerArena) : Inv s' := by
  refine ⟨hc.core h.toCore, fun page' a d ha had => ?_⟩
  rw [hc.arenas] at ha
  rcases Heap.update_eq_some.mp ha with ⟨-, ho⟩ | ⟨-, hold⟩
  · exact huse a d ho had
  · exact h.in_use page' a d hold had

end Changes

/-! ### Taking a block -/

/-- What an arena of which only the count changes has to satisfy. -/
theorem Core.recount (h : Core s) (ha : s.st.arenas page = some a) (had : a.desc = some d) (k : ℕ) :
    0 < Arena.pages { a with freeCnt := k } ∧ ∀ page' a', page' ≠ page →
      s.st.arenas page' = some a' →
      page + Arena.pages { a with freeCnt := k } ≤ page' ∨ page' + a'.pages ≤ page := by
  have hpages : Arena.pages { a with freeCnt := k } = a.pages := by simp [Arena.pages, had]
  rw [hpages]
  exact ⟨h.page_pos page a ha, fun page' a' hp ha' => h.apart page a page' a' ha ha' hp.symm⟩

theorem isBlock_recount (k : ℕ) (ha : st.arenas page = some a) (had : a.desc = some d)
    (f : Desc → List ℕ) (d' : Desc) (b : ℕ) :
    IsBlock ⟨update st.arenas page (some { a with freeCnt := k }), f⟩ page d' b ↔
      d' = d ∧ IsBlock st page d b := by
  simp only [IsBlock, update_self, ha, some.injEq, exists_eq_left', had]
  constructor
  · rintro ⟨rfl, hi⟩
    exact ⟨rfl, trivial, hi⟩
  · rintro ⟨rfl, -, hi⟩
    exact ⟨rfl, hi⟩

/-- The free list of `d` becomes `l`, which differs from it in the blocks of `page` only. -/
theorem Core.changes_list (h : Core s) (ha : s.st.arenas page = some a) (had : a.desc = some d)
    {l : List ℕ} (hk : k = l.countP (fun b => b / pgSize = page)) (hnodup : l.Nodup)
    (hlist : ∀ b, b / pgSize ≠ page → (b ∈ l ↔ b ∈ s.st.freeList d))
    (hfree : ∀ b ∈ l, b / pgSize = page → IsBlock s.st page d b)
    (hrest : ∀ x, x.addr / pgSize ≠ page → (x ∈ live ↔ x ∈ s.live))
    (hplaced : ∀ x ∈ live, x.addr / pgSize = page →
      IsBlock s.st page d x.addr ∧ x.addr ∉ l ∧ x.size ≤ d.blockSize)
    (hlive : (live.map Live.addr).Nodup)
    (hcovered : ∀ b, IsBlock s.st page d b → b ∉ l → ∃ x ∈ live, x.addr = b) :
    Changes s ⟨⟨update s.st.arenas page (some { a with freeCnt := k }), update s.st.freeList d l⟩,
      live⟩ page (some { a with freeCnt := k }) := by
  have hiff := isBlock_recount k ha had (update s.st.freeList d l)
  refine ⟨rfl, ?_, ?_, ?_, ?_, ?_, hrest, ?_, hlive, ?_, ?_⟩
  · rintro _ ⟨⟩
    exact h.recount ha had _
  · rintro _ d' ⟨⟩ had'
    cases had.symm.trans had'
    exact ⟨h.desc_mem page a d ha had, by simpa using hk⟩
  · intro d' b hb
    by_cases hd : d' = d
    · subst hd
      simpa using hlist b hb
    · simp [hd]
  · intro d' b hb hp
    by_cases hd : d' = d
    · subst hd
      exact (hiff d' b).mpr ⟨rfl, hfree b (by simpa using hb) hp⟩
    · have had' := (h.free_of_page ha (by simpa [hd] using hb) hp).1
      exact absurd (some.inj (had'.symm.trans had)) hd
  · intro d'
    by_cases hd : d' = d
    · subst hd
      simpa using hnodup
    · simpa [hd] using h.free_nodup d'
  · intro x hx hp
    obtain ⟨hb, hnot, hfit⟩ := hplaced x hx hp
    exact .inl ⟨page, d, (hiff d _).mpr ⟨rfl, hb⟩, by simpa using hnot, hfit⟩
  · intro d' b hb hnot
    obtain ⟨rfl, hold⟩ := (hiff d' b).mp hb
    exact hcovered b hold (by simpa using hnot)
  · intro n b hb
    have heq := some.inj ((update_self page _ s.st.arenas).symm.trans hb.1)
    have hdesc : a.desc = none := congrArg Arena.desc heq
    cases had.symm.trans hdesc

theorem Core.changes_take (h : Core s) (hl : s.st.freeList d = b :: bs) (hsize : size ≤ d.blockSize)
    (ha : s.st.arenas page = some a) (had : a.desc = some d) (hblock : IsBlock s.st page d b) :
    Changes s ⟨⟨update s.st.arenas page (some { a with freeCnt := a.freeCnt - 1 }),
      update s.st.freeList d bs⟩, ⟨b, size⟩ :: s.live⟩ page
      (some { a with freeCnt := a.freeCnt - 1 }) := by
  have hpage := hblock.page_eq h
  have hcount := h.count page a d ha had
  have hnodup := h.free_nodup d
  have hfree := fun b' => @Core.free_of_page page b' d s a h ha
  have hcovered := h.covered page d
  have hplaced := fun x => @Core.live_of_page page d s a x h ha had
  rw [hl] at hcount hnodup hfree hcovered hplaced
  rw [countP_cons_of_pos (by simp [hpage])] at hcount
  obtain ⟨hnot, hnd⟩ := nodup_cons.mp hnodup
  refine h.changes_list ha had (by omega) hnd ?_ ?_ ?_ ?_ ?_ ?_
  · intro b' hb'
    rw [hl, mem_cons, or_iff_right]
    rintro rfl
    exact hb' hpage
  · exact fun b' hb' hp => (hfree b' (mem_cons_of_mem b hb') hp).2
  · intro x hx
    rw [mem_cons, or_iff_right]
    rintro rfl
    exact hx hpage
  · intro x hx hp
    rcases mem_cons.mp hx with rfl | hx
    · exact ⟨hblock, hnot, hsize⟩
    · obtain ⟨hb, hfree, hfit⟩ := hplaced x hx hp
      exact ⟨hb, fun hm => hfree (mem_cons_of_mem b hm), hfit⟩
  · refine nodup_cons.mpr ⟨fun hm => ?_, h.live_nodup⟩
    obtain ⟨x, hx, rfl⟩ := mem_map.mp hm
    exact (hplaced x hx hpage).2.1 mem_cons_self
  · intro b' hb' hnot'
    by_cases heq : b' = b
    · exact ⟨⟨b, size⟩, mem_cons_self, heq.symm⟩
    · obtain ⟨x, hx, hxa⟩ := hcovered b' hb' (by simp [heq, hnot'])
      exact ⟨x, mem_cons_of_mem _ hx, hxa⟩

/-! ### New arenas -/

/-- What is assumed of `palloc_get_multiple`: a run that shares no page with the arenas. -/
def Fresh (st : State) (page cnt : ℕ) : Prop :=
  ∀ page' a', st.arenas page' = some a' → page + cnt ≤ page' ∨ page' + a'.pages ≤ page

theorem Core.none_of_fresh (h : Core s) {cnt : ℕ} (hf : Fresh s.st page cnt) (hcnt : 0 < cnt) :
    s.st.arenas page = none := by
  cases ha : s.st.arenas page with
  | none => rfl
  | some a =>
    have hpos := h.page_pos page a ha
    have hor := hf page a ha
    omega

theorem Core.page_ne_of_none (h : Core s) (hnone : s.st.arenas page = none) :
    (∀ d, ∀ b ∈ s.st.freeList d, b / pgSize ≠ page) ∧ ∀ x ∈ s.live, x.addr / pgSize ≠ page := by
  refine ⟨?_, ?_⟩
  · rintro d b hb rfl
    obtain ⟨page', hblock⟩ := h.free_block d b hb
    obtain ⟨a, ha, -⟩ := hblock.1
    rw [← hblock.page_eq h, hnone] at ha
    cases ha
  · rintro x hx rfl
    rcases h.placed x hx with ⟨page', d, hb, -, -⟩ | ⟨page', n, hb, -⟩
    · obtain ⟨a, ha, -⟩ := hb.1
      rw [← hb.page_eq h, hnone] at ha
      cases ha
    · have ha := hb.1
      rw [← hb.page_eq, hnone] at ha
      cases ha

/-- **A new arena**: all its blocks are free. -/
theorem Core.addArena (h : Core s) (hd : d ∈ descs) (hl : s.st.freeList d = [])
    (hf : Fresh s.st page 1) : Core ⟨addArena d page s.st, s.live⟩ := by
  have hnone := h.none_of_fresh hf (by decide)
  obtain ⟨hlists, hlive⟩ := h.page_ne_of_none hnone
  have hlist : ∀ d', (Malloc.addArena d page s.st).freeList d' =
      if d' = d then arenaBlocks page d else s.st.freeList d' := by
    intro d'
    by_cases hdd : d' = d
    · subst hdd
      simp [Malloc.addArena, hl]
    · simp [Malloc.addArena, hdd]
  have hpageOf : ∀ b ∈ arenaBlocks page d, b / pgSize = page := by
    intro b hb
    obtain ⟨i, hi, rfl⟩ := mem_arenaBlocks.mp hb
    exact block_page hd hi
  have hblock : ∀ d' b, IsBlock (Malloc.addArena d page s.st) page d' b ↔
      d' = d ∧ b ∈ arenaBlocks page d := by
    intro d' b
    simp only [IsBlock, Malloc.addArena, update_self, some.injEq, exists_eq_left',
      mem_arenaBlocks]
    constructor
    · rintro ⟨rfl, hi⟩
      exact ⟨rfl, hi⟩
    · rintro ⟨rfl, hi⟩
      exact ⟨rfl, hi⟩
  have hc : Changes s ⟨Malloc.addArena d page s.st, s.live⟩ page
      (some ⟨some d, d.blocksPerArena⟩) := by
    refine ⟨rfl, ?_, ?_, ?_, ?_, ?_, fun _ _ => Iff.rfl, ?_, h.live_nodup, ?_, ?_⟩
    · rintro _ ⟨⟩
      exact ⟨one_pos, fun page' a' _ ha' => hf page' a' ha'⟩
    · rintro _ d' ⟨⟩ ⟨⟩
      rw [hlist, if_pos rfl, countP_eq_length.mpr fun b hb => decide_eq_true (hpageOf b hb)]
      exact ⟨hd, (length_arenaBlocks page d).symm⟩
    · intro d' b hb
      rw [hlist]
      split_ifs with hdd
      · rw [hdd, hl]
        exact iff_of_false (fun hm => hb (hpageOf b hm)) not_mem_nil
      · exact Iff.rfl
    · intro d' b hb hp
      rw [hlist] at hb
      split_ifs at hb with hdd
      · exact (hblock d' b).mpr ⟨hdd, hb⟩
      · exact absurd hp (hlists d' b hb)
    · intro d'
      rw [hlist]
      split_ifs
      · exact nodup_arenaBlocks hd page
      · exact h.free_nodup d'
    · exact fun x hx hp => absurd hp (hlive x hx)
    · intro d' b hb hfree
      obtain ⟨rfl, hm⟩ := (hblock d' b).mp hb
      rw [hlist, if_pos rfl] at hfree
      exact absurd hm hfree
    · intro n b hb
      have ha := hb.1
      simp [Malloc.addArena] at ha
  exact hc.core h

/-- **A big block** gets an arena of its own. -/
theorem Inv.addBig (h : Inv s) (hn : 0 < n) (hf : Fresh s.st page n)
    (hfit : arenaSize + size ≤ n * pgSize) :
    Inv ⟨{ s.st with arenas := update s.st.arenas page (some ⟨none, n⟩) },
      ⟨page * pgSize + arenaSize, size⟩ :: s.live⟩ := by
  obtain ⟨hlists, hlive⟩ := h.page_ne_of_none (h.none_of_fresh hf hn)
  have hpage : (page * pgSize + arenaSize) / pgSize = page := by
    simp only [pgSize, arenaSize]
    omega
  have hc : Changes s ⟨{ s.st with arenas := update s.st.arenas page (some ⟨none, n⟩) },
      ⟨page * pgSize + arenaSize, size⟩ :: s.live⟩ page (some ⟨none, n⟩) := by
    refine ⟨rfl, ?_, ?_, fun _ _ _ => Iff.rfl, ?_, h.free_nodup, ?_, ?_, ?_, ?_, ?_⟩
    · rintro _ ⟨⟩
      exact ⟨hn, fun page' a' _ ha' => hf page' a' ha'⟩
    · rintro _ d ⟨⟩ ⟨⟩
    · exact fun d b hb hp => absurd hp (hlists d b hb)
    · intro x hx
      refine ⟨fun hm => (mem_cons.mp hm).resolve_left ?_, mem_cons_of_mem _⟩
      rintro rfl
      exact hx hpage
    · intro x hx hp
      rcases mem_cons.mp hx with rfl | hx
      · exact .inr ⟨page, n, ⟨update_self .., rfl⟩, hfit⟩
      · exact absurd hp (hlive x hx)
    · refine nodup_cons.mpr ⟨fun hm => ?_, h.live_nodup⟩
      obtain ⟨x, hx, hxa⟩ := mem_map.mp hm
      exact hlive x hx (hxa ▸ hpage)
    · rintro d b ⟨⟨a, ha, had⟩, -⟩ _
      obtain rfl := some.inj ((update_self page _ s.st.arenas).symm.trans ha)
      cases had
    · intro n' b hb
      exact ⟨_, mem_cons_self, hb.2.symm⟩
  exact hc.inv h fun a d ho had => by
    cases ho
    cases had

/-! ### Freeing -/

/-- What is left of the live blocks when the one at `b` is freed. -/
def without (live : List Live) (b : ℕ) : List Live := live.filter fun x => x.addr ≠ b

theorem mem_without : x ∈ without live b ↔ x ∈ live ∧ x.addr ≠ b := by
  simp [without]

theorem nodup_without (h : (live.map Live.addr).Nodup) (b : ℕ) :
    ((without live b).map Live.addr).Nodup :=
  h.sublist (filter_sublist.map Live.addr)

theorem without_rest (hpage : b / pgSize = page) (x : Live) (hx : x.addr / pgSize ≠ page) :
    x ∈ without live b ↔ x ∈ live := by
  rw [mem_without, and_iff_left]
  rintro rfl
  exact hx hpage

/-- A block goes back to its free list. -/
theorem Core.changes_push (h : Core s) (ha : s.st.arenas page = some a) (had : a.desc = some d)
    (hblock : IsBlock s.st page d b) (hfree : b ∉ s.st.freeList d) :
    Changes s ⟨⟨update s.st.arenas page (some { a with freeCnt := a.freeCnt + 1 }),
      update s.st.freeList d (b :: s.st.freeList d)⟩, without s.live b⟩ page
      (some { a with freeCnt := a.freeCnt + 1 }) := by
  have hpage := hblock.page_eq h
  refine h.changes_list ha had ?_ (nodup_cons.mpr ⟨hfree, h.free_nodup d⟩) ?_ ?_
    (without_rest hpage) ?_ (nodup_without h.live_nodup b) ?_
  · rw [countP_cons_of_pos (by simp [hpage]), ← h.count page a d ha had]
  · intro b' hb'
    rw [mem_cons, or_iff_right]
    rintro rfl
    exact hb' hpage
  · intro b' hb' hp
    rcases mem_cons.mp hb' with rfl | hold
    · exact hblock
    · exact (h.free_of_page ha hold hp).2
  · intro x hx hp
    obtain ⟨hx', hne⟩ := mem_without.mp hx
    obtain ⟨hb, hnot, hfit⟩ := h.live_of_page ha had hx' hp
    exact ⟨hb, not_mem_cons_of_ne_of_not_mem hne hnot, hfit⟩
  · intro b' hb' hnot
    rw [mem_cons, not_or] at hnot
    obtain ⟨x, hx, rfl⟩ := h.covered page d b' hb' hnot.2
    exact ⟨x, mem_without.mpr ⟨hx, hnot.1⟩, rfl⟩

/-- An arena whose count has reached the number of its blocks has all of them on the list. -/
theorem Core.all_free (h : Core s) (ha : s.st.arenas page = some a) (had : a.desc = some d)
    (hfull : a.freeCnt = d.blocksPerArena) : ∀ b ∈ arenaBlocks page d, b ∈ s.st.freeList d := by
  have hcount := h.count page a d ha had
  rw [hfull, countP_eq_length_filter, ← length_arenaBlocks page d] at hcount
  have hperm := (h.free_subperm page d).perm_of_length_le hcount.le
  intro b hb
  exact (mem_filter.mp (hperm.mem_iff.mpr hb)).1

/-- **An arena goes back to the page allocator**: nothing else is live in it, and the free lists
lose exactly the blocks in its page. -/
theorem Inv.drop (h : Inv s) {f : Desc → List ℕ} (hpage : b / pgSize = page)
    (hf : ∀ d b, b ∈ f d ↔ b ∈ s.st.freeList d ∧ b / pgSize ≠ page) (hnodup : ∀ d, (f d).Nodup)
    (honly : ∀ x ∈ s.live, x.addr / pgSize = page → x.addr = b) :
    Inv ⟨⟨update s.st.arenas page none, f⟩, without s.live b⟩ := by
  have hc : Changes s ⟨⟨update s.st.arenas page none, f⟩, without s.live b⟩ page none := by
    refine ⟨rfl, nofun, nofun, ?_, ?_, hnodup, without_rest hpage, ?_,
      nodup_without h.live_nodup b, ?_, ?_⟩
    · exact fun d b' hb' => (hf d b').trans (and_iff_left hb')
    · exact fun d b' hb' hp => absurd hp ((hf d b').mp hb').2
    · intro x hx hp
      obtain ⟨hx', hne⟩ := mem_without.mp hx
      exact absurd (honly x hx' hp) hne
    · rintro d b' ⟨⟨a, ha, -⟩, -⟩ _
      cases (update_self page none s.st.arenas).symm.trans ha
    · rintro n b' ⟨ha, -⟩
      cases (update_self page none s.st.arenas).symm.trans ha
  exact hc.inv h nofun

/-! ### What a call does -/

/-- The pages `malloc` asks for, if it asks for any. -/
def askedPages (size : ℕ) : ℕ :=
  match findDesc size with
  | none => bigPages size
  | some _ => 1

/-- The live blocks with the one that was handed out, if any. -/
def withNew (r : Option ℕ) (size : ℕ) (live : List Live) : List Live :=
  match r with
  | some b => ⟨b, size⟩ :: live
  | none => live

/-- What `block_size` says of a block that was asked for with `size`. -/
def usable (size : ℕ) : ℕ :=
  match findDesc size with
  | some d => d.blockSize
  | none => (pgSize * bigPages size % 2 ^ 32 + 2 ^ 32 - arenaSize) % 2 ^ 32

theorem findDesc_none (h : findDesc size = none) : 1024 < size := by
  have hall := find?_eq_none.mp h ⟨1024, 3⟩ (by decide)
  simpa using hall

theorem findDesc_le (h : findDesc size = some d) : d.blockSize + arenaSize ≤ pgSize := by
  obtain ⟨-, hone, hfits⟩ := desc_fits (findDesc_spec h).1
  have hle := Nat.le_mul_of_pos_left d.blockSize (Nat.zero_lt_of_lt hone)
  omega

theorem usable_lt (size : ℕ) : usable size < 2 ^ 32 := by
  unfold usable
  cases hd : findDesc size with
  | none => exact mod_lt _ (by decide)
  | some d => exact lt_of_le_of_lt (le_of_add_right_le (findDesc_le hd)) (by decide)

/-- A block has room for what was asked for, unless the sum with the header wraps. -/
theorem le_usable_iff (hsize : size < 2 ^ 32) : size ≤ usable size ↔ size + arenaSize ≤ 2 ^ 32 := by
  unfold usable
  cases hd : findDesc size with
  | none =>
    have hbig := findDesc_none hd
    simp only [bigPages, arenaSize, pgSize]
    omega
  | some d =>
    have hle := (findDesc_spec hd).2
    have hpage := findDesc_le hd
    simp only [pgSize] at hpage
    exact iff_of_true hle (by omega)

/-- No pages are asked for if rounding up wraps, or the sum with the header is `2 ^ 32`. -/
theorem askedPages_eq_zero_iff (hsize : size < 2 ^ 32) :
    askedPages size = 0 ↔ 2 ^ 32 - 4107 ≤ size ∧ size + arenaSize ≤ 2 ^ 32 := by
  unfold askedPages
  cases hd : findDesc size with
  | none =>
    have hbig := findDesc_none hd
    simp only [bigPages, arenaSize, pgSize]
    omega
  | some d =>
    have hle := (findDesc_spec hd).2
    have hpage := findDesc_le hd
    simp only [pgSize] at hpage
    exact iff_of_false one_ne_zero (by omega)

theorem Core.take_inv (h : Core s) (hl : s.st.freeList d = b :: bs) (hsize : size ≤ d.blockSize)
    (huse : ∀ page a d', s.st.arenas page = some a → a.desc = some d' →
      b / pgSize ≠ page → a.freeCnt < d'.blocksPerArena) :
    ∃ st', Malloc.takeBlock d s.st = .ok (some b, st') ∧ Inv ⟨st', ⟨b, size⟩ :: s.live⟩ ∧
      blockSize st' b = .ok d.blockSize := by
  obtain ⟨page, hblock⟩ := h.free_block d b (by rw [hl]; exact mem_cons_self)
  obtain ⟨a, ha, had, harena⟩ := hblock.toArena h
  have hc := h.changes_take hl hsize ha had hblock
  refine ⟨_, ?_, ⟨hc.core h, ?_⟩, ?_⟩
  · unfold Malloc.takeBlock
    simp only [hl]
    rw [harena]
    rfl
  · intro page1 a1 d1 ha1 had1
    rcases Heap.update_eq_some.mp ha1 with ⟨rfl, ho⟩ | ⟨hp, hold⟩
    · cases ho
      cases had.symm.trans had1
      have hle := h.free_le ha had
      have hpos := (desc_fits (hblock.desc_mem h)).2.1
      change a.freeCnt - 1 < d.blocksPerArena
      omega
    · apply huse page1 a1 d1 hold had1
      rw [hblock.page_eq h]
      exact hp.symm
  · obtain ⟨a', -, had', harena'⟩ := IsBlock.toArena (hc.core h)
      ((isBlock_recount (a.freeCnt - 1) ha had (update s.st.freeList d bs) d b).mpr ⟨rfl, hblock⟩)
    rw [blockSize, harena', Except.map, had']

/-- **`malloc`** hits no ASSERT, and hands out nothing or a new block, of a size that depends on
the request only.  It hands one out if it asks for pages and gets them. -/
theorem Inv.malloc (h : Inv s) {answer : Option ℕ} (hk : k ≤ usable size)
    (hans : ∀ page, answer = some page → Fresh s.st page (askedPages size)) :
    ∃ r st', Malloc.malloc size answer s.st = .ok (r, st') ∧
      (r = none → st' = s.st ∧ (size = 0 ∨ askedPages size = 0 ∨ answer = none)) ∧
      Inv ⟨st', withNew r k s.live⟩ ∧
      ∀ b, r = some b → size ≠ 0 ∧ askedPages size ≠ 0 ∧ blockSize st' b = .ok (usable size) := by
  unfold Malloc.malloc
  by_cases hz : size = 0
  · rw [if_pos hz]
    exact ⟨none, s.st, rfl, fun _ => ⟨rfl, .inl hz⟩, h, nofun⟩
  · rw [if_neg hz]
    unfold askedPages at hans ⊢
    unfold usable at hk ⊢
    cases hd : findDesc size with
    | none =>
      rw [hd] at hans hk
      dsimp only at hans hk ⊢
      unfold pallocGet
      by_cases hpages : bigPages size = 0
      · rw [if_pos hpages]
        exact ⟨none, s.st, rfl, fun _ => ⟨rfl, .inr (.inl hpages)⟩, h, nofun⟩
      · rw [if_neg hpages]
        cases answer with
        | none => exact ⟨none, s.st, rfl, fun _ => ⟨rfl, .inr (.inr rfl)⟩, h, nofun⟩
        | some page =>
          have hpos := pos_of_ne_zero hpages
          have hroom : arenaSize + k ≤ bigPages size * pgSize := by
            have hlt : bigPages size < 2 ^ 20 := by
              simp only [bigPages, pgSize]
              omega
            simp only [arenaSize, pgSize] at hk ⊢
            omega
          refine ⟨_, _, rfl, nofun, h.addBig hpos (hans page rfl) hroom, ?_⟩
          rintro _ ⟨⟩
          have hbig : IsBig ⟨update s.st.arenas page (some ⟨none, bigPages size⟩), s.st.freeList⟩
              page (bigPages size) (page * pgSize + arenaSize) := ⟨update_self .., rfl⟩
          have hofs : (page * pgSize + arenaSize) % pgSize = arenaSize := by
            simp only [pgSize, arenaSize]
            omega
          refine ⟨hz, hpages, ?_⟩
          rw [blockSize, hbig.toArena, Except.map, hofs]
    | some d =>
      rw [hd] at hans hk
      dsimp only at hans hk ⊢
      have hmem := (findDesc_spec hd).1
      cases hl : s.st.freeList d with
      | cons b bs =>
        obtain ⟨st', htake, hinv, hsize⟩ := h.take_inv hl hk
          fun page a d' ha had _ => h.in_use page a d' ha had
        refine ⟨some b, st', htake, nofun, hinv, ?_⟩
        rintro _ ⟨⟩
        exact ⟨hz, one_ne_zero, hsize⟩
      | nil =>
        cases answer with
        | none => exact ⟨none, s.st, rfl, fun _ => ⟨rfl, .inr (.inr rfl)⟩, h, nofun⟩
        | some page =>
          have hcore := h.addArena hmem hl (hans page rfl)
          have hblocks : (addArena d page s.st).freeList d = arenaBlocks page d := by
            simp [Malloc.addArena, hl]
          cases hlist : arenaBlocks page d with
          | nil =>
            have hlen := length_arenaBlocks page d
            have hone := (desc_fits hmem).2.1
            rw [hlist, length_nil] at hlen
            omega
          | cons b bs =>
            have hb : b / pgSize = page := by
              obtain ⟨i, hi, rfl⟩ :=
                mem_arenaBlocks.mp (hlist ▸ (mem_cons_self : b ∈ b :: bs))
              exact block_page hmem hi
            obtain ⟨st', htake, hinv, hsize⟩ := hcore.take_inv (hblocks.trans hlist) hk (by
              intro page' a d' ha had hne
              have hp : page' ≠ page := fun heq => hne (hb.trans heq.symm)
              simp only [Malloc.addArena, update_of_ne hp] at ha
              exact h.in_use page' a d' ha had)
            refine ⟨some b, st', htake, nofun, hinv, ?_⟩
            rintro _ ⟨⟩
            exact ⟨hz, one_ne_zero, hsize⟩

/-- `free` of a block of a descriptor, behind the ASSERTs of `block_to_arena`. -/
theorem free_small (harena : blockToArena st b = .ok (page, a)) (had : a.desc = some d) :
    Malloc.free (some b) st =
      if d.blocksPerArena ≤ a.freeCnt + 1 then
        if a.freeCnt + 1 = d.blocksPerArena then
          (removeAll (arenaBlocks page d) (b :: st.freeList d)).map fun l =>
            ⟨update st.arenas page none, update st.freeList d l⟩
        else .error .assertion
      else
        .ok ⟨update st.arenas page (some { a with freeCnt := a.freeCnt + 1 }),
          update st.freeList d (b :: st.freeList d)⟩ := by
  unfold Malloc.free
  simp only [harena, bind, Except.bind]
  split
  · rename_i hnone
    rw [had] at hnone
    cases hnone
  · rename_i d0 hd0
    obtain rfl : d = d0 := some.inj (had.symm.trans hd0)
    cases removeAll (arenaBlocks page d) (b :: st.freeList d) with
    | error f | ok l => rfl

/-- **`free`** of a live block hits no ASSERT.  The arena of the block goes back to the page
allocator exactly if nothing else in it is live. -/
theorem Inv.free (h : Inv s) (hx : x ∈ s.live) :
    ∃ st', Malloc.free (some x.addr) s.st = .ok st' ∧ Inv ⟨st', without s.live x.addr⟩ ∧
      (st'.arenas (x.addr / pgSize) = none ↔
        ∀ y ∈ s.live, y.addr / pgSize = x.addr / pgSize → y.addr = x.addr) := by
  cases h.placed x hx with
  | inl hsmall =>
    obtain ⟨page, d, hblock, hnot, -⟩ := hsmall
    obtain ⟨a, ha, had, harena⟩ := hblock.toArena h.toCore
    have hd := hblock.desc_mem h.toCore
    have hpage := hblock.page_eq h.toCore
    have huse := h.in_use page a d ha had
    have hc := h.changes_push ha had hblock hnot
    rw [free_small harena had]
    by_cases hlast : a.freeCnt + 1 = d.blocksPerArena
    · -- the last block in use: the whole arena goes
      rw [if_pos (by omega), if_pos hlast]
      have hall := (hc.core h.toCore).all_free
        (show update s.st.arenas page (some { a with freeCnt := a.freeCnt + 1 }) page =
          some { a with freeCnt := a.freeCnt + 1 } from update_self _ _ _) had hlast
      simp only [update_self] at hall
      obtain ⟨l, hl, hlnd, hlmem⟩ := removeAll_ok (nodup_arenaBlocks hd page)
        (nodup_cons.mpr ⟨hnot, h.free_nodup d⟩) hall
      have honly : ∀ y ∈ s.live, y.addr / pgSize = page → y.addr = x.addr := by
        intro y hy hyp
        obtain ⟨hb, hfree, -⟩ := h.live_of_page ha had hy hyp
        exact (mem_cons.mp (hall y.addr (mem_arenaBlocks.mpr hb.2))).resolve_right hfree
      have hown : ∀ {d' b}, b ∈ s.st.freeList d' → b / pgSize = page →
          d' = d ∧ b ∈ arenaBlocks page d := by
        intro d' b hb hp
        obtain ⟨had', hbl⟩ := h.free_of_page ha hb hp
        cases had.symm.trans had'
        exact ⟨rfl, mem_arenaBlocks.mpr hbl.2⟩
      refine ⟨_, by rw [hl]; rfl, h.drop hpage ?_ ?_ honly, ?_⟩
      · intro d' b
        by_cases hdd : d' = d
        · subst hdd
          rw [update_self, hlmem, mem_cons]
          constructor
          · rintro ⟨hm, hb⟩
            have hm := hm.resolve_left fun heq => hb (heq ▸ mem_arenaBlocks.mpr hblock.2)
            exact ⟨hm, fun hp => hb (hown hm hp).2⟩
          · rintro ⟨hm, hp⟩
            refine ⟨.inr hm, fun hb => hp ?_⟩
            obtain ⟨i, hi, rfl⟩ := mem_arenaBlocks.mp hb
            exact block_page hd hi
        · rw [update_of_ne hdd]
          exact ⟨fun hm => ⟨hm, fun hp => hdd (hown hm hp).1⟩, And.left⟩
      · intro d'
        by_cases hdd : d' = d
        · subst hdd
          rw [update_self]
          exact hlnd
        · rw [update_of_ne hdd]
          exact h.free_nodup d'
      · rw [hpage]
        exact iff_of_true (update_self _ _ _) honly
    · rw [if_neg (by omega)]
      refine ⟨_, rfl, hc.inv h ?_, ?_⟩
      · rintro _ d' ⟨⟩ had'
        cases had.symm.trans had'
        change a.freeCnt + 1 < d.blocksPerArena
        omega
      · rw [hpage]
        simp only [update_self, reduceCtorEq, false_iff]
        -- some other block of the arena is not free, so it is live
        intro honly
        have hfull : ∀ b ∈ arenaBlocks page d, b ∈ x.addr :: s.st.freeList d := by
          intro b hb
          by_contra hnb
          rw [mem_cons, not_or] at hnb
          have hbl : IsBlock s.st page d b := ⟨⟨a, ha, had⟩, mem_arenaBlocks.mp hb⟩
          obtain ⟨y, hy, hya⟩ := h.covered page d b hbl hnb.2
          exact hnb.1 (hya ▸ honly y hy (by rw [hya]; exact hbl.page_eq h.toCore))
        have hsub : arenaBlocks page d ⊆
            x.addr :: (s.st.freeList d).filter (fun b => b / pgSize = page) := by
          intro b hb
          cases mem_cons.mp (hfull b hb) with
          | inl heq => exact heq ▸ mem_cons_self
          | inr hm =>
            obtain ⟨i, hi, rfl⟩ := mem_arenaBlocks.mp hb
            apply mem_cons_of_mem
            exact mem_filter.mpr ⟨hm, decide_eq_true (block_page hd hi)⟩
        have hlen := (subperm_of_subset (nodup_arenaBlocks hd page) hsub).length_le
        rw [length_cons, ← countP_eq_length_filter, ← h.count page a d ha had] at hlen
        rw [length_arenaBlocks] at hlen
        omega
  | inr hbig =>
    obtain ⟨page, n, hb, -⟩ := hbig
    have hpage := hb.page_eq
    have honly : ∀ y ∈ s.live, y.addr / pgSize = page → y.addr = x.addr := fun y hy hyp => by
      rw [h.live_of_big hb.1 hy hyp, hb.2]
    unfold Malloc.free
    simp only [hb.toArena, bind, Except.bind]
    refine ⟨_, rfl, h.drop hpage (fun d b => ?_) h.free_nodup honly, ?_⟩
    · refine ⟨fun hm => ⟨hm, fun hp => ?_⟩, And.left⟩
      cases (h.free_of_page hb.1 hm hp).1
    · rw [hpage]
      exact iff_of_true (update_self _ _ _) honly

/-! ### Whole runs -/

inductive Event
  | malloc (size : ℕ) (answer : Option ℕ)
  | calloc (a b : ℕ) (answer : Option ℕ)
  | realloc (old : Option Live) (size : ℕ) (answer : Option ℕ)
  | free (x : Option Live)

/-- The live blocks without the one that was given up, if any. -/
def withoutOld (old : Option Live) (live : List Live) : List Live :=
  match old with
  | some x => without live x.addr
  | none => live

/-- A call, and what is live behind it: `calloc (a, b)` is asked for `a * b` bytes, and a `realloc`
that fails leaves its block live. -/
def call (s : Sys) : Event → Except Fault Sys
  | .malloc size answer =>
    (malloc size answer s.st).map fun r => ⟨r.2, withNew r.1 size s.live⟩
  | .calloc a b answer =>
    (calloc a b answer s.st).map fun r => ⟨r.2, withNew r.1 (a * b) s.live⟩
  | .realloc old size answer =>
    (realloc (old.map Live.addr) size answer s.st).map fun r =>
      ⟨r.2, if size = 0 ∨ r.1.isSome then withNew r.1 size (withoutOld old s.live) else s.live⟩
  | .free x => (free (x.map Live.addr) s.st).map fun st => ⟨st, withoutOld x s.live⟩

/-- A run stops at a fault. -/
def step (s : Sys) (e : Event) : Option Sys := (call s e).toOption

/-- Only live blocks are given up, and the page allocator hands out runs that are not in use. -/
def Allowed (s : Sys) : Event → Prop
  | .malloc size answer => ∀ page, answer = some page → Fresh s.st page (askedPages size)
  | .calloc a b answer =>
    ∀ page, answer = some page → Fresh s.st page (askedPages (a * b % 2 ^ 32))
  | .realloc old size answer =>
    (∀ x, old = some x → x ∈ s.live) ∧
      ∀ page, answer = some page → Fresh s.st page (askedPages size)
  | .free x => ∀ y, x = some y → y ∈ s.live

/-- The bytes asked for and an arena header fit into a `size_t`. -/
def Fits : Event → Prop
  | .malloc size _ => size + arenaSize < 2 ^ 32
  | .calloc a b _ => a * b + arenaSize < 2 ^ 32
  | .realloc _ size _ => size + arenaSize < 2 ^ 32
  | .free _ => True

theorem le_usable (hfit : size + arenaSize < 2 ^ 32) : size ≤ usable size :=
  (le_usable_iff (by omega)).mpr hfit.le

theorem without_cons_of_ne (h : x.addr ≠ y.addr) :
    without (x :: live) y.addr = x :: without live y.addr := by
  simp [without, h]

theorem Inv.blockToArena_ok (h : Inv s) (hx : x ∈ s.live) :
    ∃ r, blockToArena s.st x.addr = .ok r := by
  cases h.placed x hx with
  | inl hsmall =>
    obtain ⟨page, d, hblock, -, -⟩ := hsmall
    obtain ⟨a, -, -, harena⟩ := hblock.toArena h.toCore
    exact ⟨(page, a), harena⟩
  | inr hbig =>
    obtain ⟨page, n, hb, -⟩ := hbig
    exact ⟨(page, ⟨none, n⟩), hb.toArena⟩

variable {e : Event}

/-- **No call hits an ASSERT**, and each keeps the invariant. -/
theorem Inv.call (h : Inv s) (hok : Allowed s e) (hfit : Fits e) :
    ∃ s', Malloc.call s e = .ok s' ∧ Inv s' := by
  cases e with
  | malloc size answer =>
    obtain ⟨r, st', hcall, -, hinv, -⟩ := h.malloc (le_usable hfit) hok
    exact ⟨⟨st', withNew r size s.live⟩, by rw [Malloc.call, hcall]; rfl, hinv⟩
  | calloc a b answer =>
    have hmod : a * b % 2 ^ 32 = a * b := by
      change a * b + arenaSize < 2 ^ 32 at hfit
      exact mod_eq_of_lt (by omega)
    by_cases hlt : a * b % 2 ^ 32 < a ∨ a * b % 2 ^ 32 < b
    · refine ⟨s, ?_, h⟩
      rw [Malloc.call, Malloc.calloc, if_pos hlt]
      rfl
    · change ∀ page, answer = some page → Fresh s.st page (askedPages (a * b % 2 ^ 32)) at hok
      rw [hmod] at hok
      obtain ⟨r, st', hcall, -, hinv, -⟩ := h.malloc (le_usable hfit) hok
      refine ⟨⟨st', withNew r (a * b) s.live⟩, ?_, hinv⟩
      rw [Malloc.call, Malloc.calloc, if_neg hlt, hmod, hcall]
      rfl
  | free x =>
    cases x with
    | none => exact ⟨s, rfl, h⟩
    | some y =>
      obtain ⟨st', hcall, hinv, -⟩ := h.free (hok y rfl)
      exact ⟨⟨st', without s.live y.addr⟩, by
        rw [Malloc.call, map_some, hcall]
        rfl, hinv⟩
  | realloc old size answer =>
    obtain ⟨hold, hans⟩ := hok
    by_cases hz : size = 0
    · subst hz
      cases old with
      | none => exact ⟨s, rfl, h⟩
      | some y =>
        obtain ⟨st', hcall, hinv, -⟩ := h.free (hold y rfl)
        refine ⟨⟨st', without s.live y.addr⟩, ?_, hinv⟩
        rw [Malloc.call, Malloc.realloc, if_pos rfl, map_some, hcall]
        rfl
    · obtain ⟨r, st', hcall, hnone, hinv, -⟩ := h.malloc (le_usable hfit) hans
      cases r with
      | none =>
        obtain rfl := (hnone rfl).1
        refine ⟨s, ?_, h⟩
        rw [Malloc.call, Malloc.realloc, if_neg hz, hcall]
        cases old <;> simp [bind, Except.bind, Except.map, hz]
      | some b =>
        change Inv ⟨st', ⟨b, size⟩ :: s.live⟩ at hinv
        cases old with
        | none =>
          refine ⟨⟨st', ⟨b, size⟩ :: s.live⟩, ?_, hinv⟩
          rw [Malloc.call, Malloc.realloc, if_neg hz, hcall]
          simp [bind, Except.bind, Except.map, withNew, withoutOld]
        | some y =>
          have hy : y ∈ (⟨b, size⟩ : Live) :: s.live := mem_cons_of_mem _ (hold y rfl)
          have hne : (⟨b, size⟩ : Live).addr ≠ y.addr := by
            intro heq
            apply (nodup_cons.mp hinv.live_nodup).1
            exact mem_map.mpr ⟨y, hold y rfl, heq.symm⟩
          obtain ⟨q, hq⟩ := hinv.blockToArena_ok hy
          obtain ⟨st'', hfree, hinv', -⟩ := hinv.free hy
          rw [without_cons_of_ne hne] at hinv'
          refine ⟨⟨st'', ⟨b, size⟩ :: without s.live y.addr⟩, ?_, hinv'⟩
          rw [Malloc.call, Malloc.realloc, if_neg hz, hcall]
          simp only [map_some, bind, Except.bind]
          rw [hq]
          simp only [hfree, Except.map, withNew, withoutOld, isSome_some, or_true,
            if_true]

theorem Inv.step {s' : Sys} (h : Inv s) (hok : Allowed s e ∧ Fits e)
    (hs : step s e = some s') : Inv s' := by
  obtain ⟨s1, hcall, hinv⟩ := h.call hok.1 hok.2
  rw [Malloc.step, hcall] at hs
  cases hs
  exact hinv

/-! ### Bytes -/

/-- The bytes of a live block. -/
def Live.Has (x : Live) (n : ℕ) : Prop := x.addr ≤ n ∧ n < x.addr + x.size

theorem Core.span (h : Core s) (hx : x ∈ s.live) :
    ∃ page a, s.st.arenas page = some a ∧ x.addr / pgSize = page ∧
      page * pgSize + arenaSize ≤ x.addr ∧ x.addr + x.size ≤ (page + a.pages) * pgSize := by
  cases h.placed x hx with
  | inl hsmall =>
    obtain ⟨page, d, hblock, -, hfit⟩ := hsmall
    have hd := hblock.desc_mem h
    have hpage := hblock.page_eq h
    obtain ⟨⟨a, ha, had⟩, i, hi, hb⟩ := hblock
    obtain ⟨hlo, hhi⟩ := block_in_page page hd hi
    refine ⟨page, a, ha, hpage, by omega, ?_⟩
    have hone : a.pages = 1 := by simp [Arena.pages, had]
    rw [hone, add_mul, one_mul]
    omega
  | inr hbig =>
    obtain ⟨page, n, hb, hfit⟩ := hbig
    refine ⟨page, ⟨none, n⟩, hb.1, hb.page_eq, by rw [hb.2], ?_⟩
    change x.addr + x.size ≤ (page + n) * pgSize
    rw [add_mul, hb.2]
    omega

theorem Core.page_eq (h : Core s) {a' : Arena} (n : ℕ) (ha : s.st.arenas page = some a)
    (ha' : s.st.arenas page' = some a') (h1 : page * pgSize ≤ n)
    (h2 : n < (page + a.pages) * pgSize) (h3 : page' * pgSize ≤ n)
    (h4 : n < (page' + a'.pages) * pgSize) : page = page' := by
  by_contra hne
  cases h.apart page a page' a' ha ha' hne with
  | inl hle | inr hle =>
    have hmul := mul_le_mul_right pgSize hle
    omega

/-- Live blocks share no byte. -/
theorem Core.live_disjoint (h : Core s) (hx : x ∈ s.live) (hy : y ∈ s.live)
    (hxn : x.Has n) (hyn : y.Has n) : x.addr = y.addr := by
  obtain ⟨page, a, ha, hxp, hx1, hx2⟩ := h.span hx
  obtain ⟨page', a', ha', hyp, hy1, hy2⟩ := h.span hy
  obtain ⟨hx3, hx4⟩ := hxn
  obtain ⟨hy3, hy4⟩ := hyn
  have hp : page = page' := h.page_eq n ha ha' ((le_add_right _ _).trans (hx1.trans hx3))
    (hx4.trans_le hx2) ((le_add_right _ _).trans (hy1.trans hy3)) (hy4.trans_le hy2)
  subst hp
  obtain ⟨desc, cnt⟩ := a
  cases desc with
  | some d =>
    obtain ⟨⟨-, i, hi, hbi⟩, -, hfit⟩ := h.live_of_page ha rfl hx hxp
    obtain ⟨⟨-, j, hj, hbj⟩, -, hfit'⟩ := h.live_of_page ha rfl hy hyp
    have hij : i = j :=
      block_index_eq (by omega : arenaToBlock page d i ≤ n) (by omega) (by omega) (by omega)
    rw [← hbi, ← hbj, hij]
  | none => rw [h.live_of_big ha hx hxp, h.live_of_big ha hy hyp]

theorem Core.header_disjoint (h : Core s) (hx : x ∈ s.live) (ha : s.st.arenas page = some a)
    (hxn : x.Has n) (h1 : page * pgSize ≤ n) : ¬n < page * pgSize + arenaSize := by
  intro h2
  obtain ⟨page', a', ha', -, hx1, hx2⟩ := h.span hx
  obtain ⟨hx3, hx4⟩ := hxn
  have hpos := h.page_pos page a ha
  have hle : page * pgSize + pgSize ≤ (page + a.pages) * pgSize := by
    rw [Nat.add_mul]
    exact Nat.add_le_add_left (Nat.le_mul_of_pos_left pgSize hpos) _
  have hin : n < (page + a.pages) * pgSize :=
    (h2.trans_le (Nat.add_le_add_left (by decide) _)).trans_le hle
  have hp : page = page' := h.page_eq n ha ha' h1 hin
    ((Nat.le_add_right _ _).trans (hx1.trans hx3)) (hx4.trans_le hx2)
  subst hp
  exact absurd h2 (not_lt.mpr (hx1.trans hx3))

theorem Core.free_disjoint (h : Core s) (hx : x ∈ s.live) (hb : b ∈ s.st.freeList d) (hxn : x.Has n)
    (h1 : b ≤ n) : ¬n < b + d.blockSize := by
  intro h2
  obtain ⟨page, hblock⟩ := h.free_block d b hb
  have hd := hblock.desc_mem h
  obtain ⟨⟨a, ha, had⟩, i, hi, hbi⟩ := hblock
  obtain ⟨hlo, hhi⟩ := block_in_page page hd hi
  have hone : (page + a.pages) * pgSize = page * pgSize + pgSize := by
    have hp1 : a.pages = 1 := by simp [Arena.pages, had]
    rw [hp1, add_mul, one_mul]
  obtain ⟨page', a', ha', hxp, hx1, hx2⟩ := h.span hx
  obtain ⟨hx3, hx4⟩ := hxn
  have hbn : n < page * pgSize + pgSize := (hbi ▸ h2).trans_le hhi
  have hp : page = page' := h.page_eq n ha ha'
    ((le_add_right _ _).trans (hlo.trans (hbi ▸ h1))) (hone ▸ hbn)
    ((le_add_right _ _).trans (hx1.trans hx3)) (hx4.trans_le hx2)
  subst hp
  obtain ⟨⟨-, j, hj, hbj⟩, hnot, hfit⟩ := h.live_of_page ha had hx hxp
  have hij : i = j :=
    block_index_eq (by omega : arenaToBlock page d i ≤ n) (by omega) (by omega) (by omega)
  apply hnot
  rw [← hbj, ← hij, hbi]
  exact hb

/-- **The block allocator is sound**, in every run whose requests leave room for an arena header in
a `size_t`.

* Live blocks share no byte with each other, with an arena header or with a free block, and lie in
  the pages of their arena.
* The count of an arena is the number of its blocks on the free list, which has each free block
  once; every arena has a block in use, and every block on a free list is in an arena.
* No call hits an ASSERT, and `free` returns an arena exactly if nothing else in it is live. -/
theorem malloc_sound (es : List Event) (s : Sys)
    (hok : Transition.Meets step (fun s e => Allowed s e ∧ Fits e) initial es)
    (hrun : Transition.run step initial es = some s) :
    (∀ x ∈ s.live, ∀ y ∈ s.live, ∀ n, x.Has n → y.Has n → x.addr = y.addr) ∧
      (s.live.map Live.addr).Nodup ∧
      (∀ x ∈ s.live, ∀ page a, s.st.arenas page = some a → ∀ n, x.Has n → page * pgSize ≤ n →
        ¬n < page * pgSize + arenaSize) ∧
      (∀ x ∈ s.live, ∀ d, ∀ b ∈ s.st.freeList d, ∀ n, x.Has n → b ≤ n → ¬n < b + d.blockSize) ∧
      (∀ x ∈ s.live, ∃ page a, s.st.arenas page = some a ∧ page * pgSize ≤ x.addr ∧
        x.addr + x.size ≤ (page + a.pages) * pgSize) ∧
      (∀ page a d, s.st.arenas page = some a → a.desc = some d →
        a.freeCnt = (s.st.freeList d).countP (fun b => b / pgSize = page) ∧
          a.freeCnt < d.blocksPerArena) ∧
      (∀ d, (s.st.freeList d).Nodup ∧ ∀ b ∈ s.st.freeList d, ∃ page, IsBlock s.st page d b) ∧
      (∀ e, Allowed s e → Fits e → ∃ s', call s e = .ok s') ∧
      ∀ x ∈ s.live, ∃ st', free (some x.addr) s.st = .ok st' ∧
        (st'.arenas (x.addr / pgSize) = none ↔
          ∀ y ∈ s.live, y.addr / pgSize = x.addr / pgSize → y.addr = x.addr) := by
  have h : Inv s := Transition.run_invariant (fun _ _ _ h hok hs => h.step hok hs) es
    inv_initial hok hrun
  refine ⟨?_, h.live_nodup, ?_, ?_, ?_, ?_, ?_, ?_, ?_⟩
  · intro x hx y hy n hxn hyn
    exact h.live_disjoint hx hy hxn hyn
  · intro x hx page a ha n hxn h1
    exact h.header_disjoint hx ha hxn h1
  · intro x hx d b hb n hxn h1
    exact h.free_disjoint hx hb hxn h1
  · intro x hx
    obtain ⟨page, a, ha, -, hlo, hhi⟩ := h.span hx
    exact ⟨page, a, ha, (le_add_right _ _).trans hlo, hhi⟩
  · intro page a d ha had
    exact ⟨h.count page a d ha had, h.in_use page a d ha had⟩
  · intro d
    exact ⟨h.free_nodup d, h.free_block d⟩
  · intro e hallowed hfit
    obtain ⟨s', hcall, -⟩ := h.call hallowed hfit
    exact ⟨s', hcall⟩
  · intro x hx
    obtain ⟨st', hcall, -, hiff⟩ := h.free hx
    exact ⟨st', hcall, hiff⟩

/-- Two blocks from one arena; the second needs no page. -/
def twoBlocks : List Event := [.malloc 1000 (some 1), .malloc 900 none]

theorem twoBlocks_live : (Transition.run step initial twoBlocks).map Sys.live =
    some [⟨5132, 900⟩, ⟨4108, 1000⟩] := by
  decide +kernel

theorem malloc_sound_twoBlocks :
    ∃ s, Transition.run step initial twoBlocks = some s ∧
      s.live = [⟨5132, 900⟩, ⟨4108, 1000⟩] ∧
      ∀ x ∈ s.live, ∀ y ∈ s.live, ∀ n, x.Has n → y.Has n → x.addr = y.addr := by
  obtain ⟨s, hs, hlive⟩ := map_eq_some_iff.mp twoBlocks_live
  have hok : Transition.Meets step (fun s e => Allowed s e ∧ Fits e) initial twoBlocks := by
    refine ⟨⟨?_, by simp [Fits, arenaSize]⟩, ?_⟩
    · intro page _ page' a ha
      cases ha
    · intro s1 _
      refine ⟨⟨?_, by simp [Fits, arenaSize]⟩, fun _ _ => trivial⟩
      intro page hpage
      cases hpage
  exact ⟨s, hs, hlive, (malloc_sound twoBlocks s hok hs).1⟩

/-- A request that leaves no room for the header gets one page for four gigabytes. -/
theorem not_malloc_sound :
    ∃ s, Transition.run step initial [.malloc 0xffffffff (some 1)] = some s ∧
      s.live = [⟨4108, 0xffffffff⟩] ∧ s.st.arenas 1 = some ⟨none, 1⟩ ∧
      ¬∃ page a, s.st.arenas page = some a ∧ page * pgSize ≤ 4108 ∧
        4108 + 0xffffffff ≤ (page + a.pages) * pgSize := by
  have hcall : malloc 0xffffffff (some 1) initial.st =
      .ok (some 4108, ⟨update (fun _ => none) 1 (some ⟨none, 1⟩), fun _ => []⟩) := by
    rfl
  refine ⟨⟨⟨update (fun _ => none) 1 (some ⟨none, 1⟩), fun _ => []⟩,
    [⟨4108, 0xffffffff⟩]⟩, ?_, rfl, by simp, ?_⟩
  · rfl
  · intro hex
    obtain ⟨page, a, ha, -, hhi⟩ := hex
    by_cases hp : page = 1
    · subst hp
      simp only [update_self, some.injEq] at ha
      subst ha
      simp only [Arena.pages, pgSize] at hhi
      omega
    · simp only [update_of_ne hp] at ha
      cases ha

/-! ### Sizes -/

/-- Whatever the state and the pages that are found, a block that `malloc (size)` returns has room
for `k` bytes. -/
def Room (size k : ℕ) : Prop :=
  ∀ s answer b st', Inv s → (∀ page, answer = some page → Fresh s.st page (askedPages size)) →
    malloc size answer s.st = .ok (some b, st') → ∃ n, blockSize st' b = .ok n ∧ k ≤ n

/-- A block that `calloc (a, b)` returns has room for `a * b` bytes, and all of them are zero. -/
def CallocRoom (a b : ℕ) : Prop :=
  ∀ s answer mem p st' mem', Inv s →
    (∀ page, answer = some page → Fresh s.st page (askedPages (a * b % 2 ^ 32))) →
    callocMem a b answer s.st mem = .ok (some p, st', mem') →
    (∃ n, blockSize st' p = .ok n ∧ a * b ≤ n) ∧ ∀ i < a * b, mem' (p + i) = 0

theorem room_iff :
    Room size k ↔ (size ≠ 0 → askedPages size ≠ 0 → k ≤ usable size) := by
  constructor
  · intro h hz hpages
    have hfresh : ∀ page, some 1 = some page → Fresh initial.st page (askedPages size) :=
      fun _ _ _ _ ha => by cases ha
    obtain ⟨r, st', hm, hnone, -, hsize⟩ := inv_initial.malloc (zero_le _) hfresh
    cases r with
    | none => simp [hz, hpages] at hnone
    | some b =>
      obtain ⟨n, hn, hle⟩ := h initial (some 1) b st' inv_initial hfresh hm
      cases hn.symm.trans (hsize b rfl).2.2
      exact hle
  · intro h s answer b st' hinv hans hm
    obtain ⟨r, st1, hm1, -, -, hsize⟩ := hinv.malloc (zero_le _) hans
    cases hm.symm.trans hm1
    obtain ⟨hz, hpages, hn⟩ := hsize b rfl
    exact ⟨usable size, hn, h hz hpages⟩

theorem zeroLoop_eq (n : ℕ) : ∀ (p : ℕ) (mem : ℕ → UInt8) (i : ℕ),
    zeroLoop p n mem i = if p ≤ i ∧ i < p + n then 0 else mem i := by
  induction n with
  | zero =>
    intro p mem i
    rw [zeroLoop, if_neg (by omega)]
  | succ n ih =>
    intro p mem i
    rw [zeroLoop, ih]
    by_cases hi : i = p
    · rw [hi, update_self, ite_self, if_pos (by omega)]
    · rw [update_of_ne hi]
      exact if_congr (by omega) rfl rfl

theorem callocRoom_iff {a b : ℕ} : CallocRoom a b ↔
    (a * b % 2 ^ 32 < a ∨ a * b % 2 ^ 32 < b) ∨ Room (a * b % 2 ^ 32) (a * b) := by
  unfold CallocRoom callocMem calloc
  by_cases hlt : a * b % 2 ^ 32 < a ∨ a * b % 2 ^ 32 < b
  · simp only [if_pos hlt]
    refine iff_of_true ?_ (.inl hlt)
    intro s answer mem p st' mem' _ _ h
    cases h
  · rw [or_iff_right hlt]
    simp only [if_neg hlt]
    constructor
    · intro h s answer p st' hinv hans hm
      exact (h s answer (fun _ => 0) p st' _ hinv hans (by rw [hm]; rfl)).1
    · intro h s answer mem p st' mem' hinv hans hm
      obtain ⟨r, st1, hmalloc, -, -, hsize⟩ := hinv.malloc (zero_le _) hans
      rw [hmalloc] at hm
      cases r with
      | none => cases hm
      | some p' =>
        cases hm
        obtain ⟨hz, hpages, hn⟩ := hsize p rfl
        have hle := room_iff.mp h hz hpages
        have hlt := usable_lt (a * b % 2 ^ 32)
        refine ⟨⟨_, hn, hle⟩, fun i hi => ?_⟩
        rw [zeroLoop_eq, if_pos (by omega)]

/-- **Blocks are as large as requested** exactly if the request and the arena header make no more
than `2 ^ 32` bytes.  For `calloc` that is the product, if the block is not refused: the test finds
a product that wraps below a factor, and no pages are asked for just below `2 ^ 32`. -/
theorem block_room_iff (size a b : UInt32) :
    (Room size.toNat size.toNat ↔ size.toNat + arenaSize ≤ 2 ^ 32) ∧
      (CallocRoom a.toNat b.toNat ↔ a.toNat * b.toNat + arenaSize ≤ 2 ^ 32 ∨
        (a * b).toNat < a.toNat ∨ (a * b).toNat < b.toNat ∨
        2 ^ 32 - 4107 ≤ (a * b).toNat ∧ (a * b).toNat + arenaSize ≤ 2 ^ 32) := by
  constructor
  · have hlt := size.toNat_lt
    rw [room_iff, ne_eq, ne_eq, askedPages_eq_zero_iff hlt, le_usable_iff hlt]
    simp only [arenaSize]
    omega
  · have hw := (a * b).toNat_lt
    have hzero : a.toNat = 0 → a.toNat * b.toNat = 0 := fun ha => by rw [ha, zero_mul]
    have hroom := le_usable_iff hw
    have hlt := usable_lt (a * b).toNat
    rw [callocRoom_iff, room_iff, ← UInt32.toNat_mul, ne_eq, ne_eq, askedPages_eq_zero_iff hw]
    rw [UInt32.toNat_mul] at *
    generalize usable _ = u at *
    generalize a.toNat * b.toNat = m at *
    simp only [arenaSize] at *
    omega

/-- A request that wraps with the header gets one page, and a product of `2 ^ 32 + 131073` bytes
gets 33. -/
theorem not_block_room : ¬Room 0xffffffff 0xffffffff ∧ ¬CallocRoom 65537 65537 := by
  refine ⟨?_, ?_⟩
  · rw [room_iff]
    decide +kernel
  · rw [callocRoom_iff, room_iff]
    decide +kernel

end Pintos.Malloc

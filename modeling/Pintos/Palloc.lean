import Pintos.Bitmap
import Pintos.Transition

/-! # The page allocator: `threads/palloc.c`

Memory behind the first megabyte is divided into a kernel pool and a user pool.  The bitmap of a
pool lies in the first pages of its own memory.

* **Memory size.**  `initRamPages` is what `threads/start.S` makes of the answer of the BIOS.
* **Numbers.**  `size_t` and addresses are taken modulo `2 ^ 32`; the difference of two pointers is
  signed.
* **Panics.**  A failed `ASSERT`, `NOT_REACHED` and `PANIC` are faults.
* **Soundness.**  `Inv` ties the bits of each pool to the runs that are live, and `palloc_sound`
  says what follows in every sequence of calls. -/

namespace Pintos.Palloc

abbrev pgSize : ℕ := 4096

/-- `PHYS_BASE`. -/
abbrev physStart : ℕ := 0xc0000000

def pgNo (va : ℕ) : ℕ := va / pgSize

def pgOfs (va : ℕ) : ℕ := va % pgSize

def ptov (paddr : ℕ) : Except Fault ℕ :=
  if paddr < physStart then .ok ((paddr + physStart) % 2 ^ 32) else .error .assertion

/-- Pages of memory: `ax` is the kilobytes behind the first megabyte that the BIOS reports. -/
def initRamPages (ax : BitVec 16) : ℕ := min (ax.toNat + 1024) 0x10000 / 4

/-- `bitmap_buf_size`: a `struct bitmap` has eight bytes. -/
def bitmapBufSize (bitCnt : ℕ) : ℕ := (8 + byteCnt bitCnt) % 2 ^ 32

/-- `DIV_ROUND_UP (x, PGSIZE)`. -/
def pagesFor (x : ℕ) : ℕ := (x + pgSize - 1) % 2 ^ 32 / pgSize

/-- `struct pool`; the mutual exclusion of its lock is that calls follow one another. -/
structure Pool where
  usedMap : Bitmap
  base : ℕ

/-- `bitmap_create_in_buf`, with what was in the buffer. -/
def bitmapCreateInBuf (memory : ℕ → BitVec elemBits) (bitCnt blockSize : ℕ) :
    Except Fault Bitmap :=
  if h : bitCnt < 2 ^ 32 then
    if bitmapBufSize bitCnt ≤ blockSize then
      bitmapSetMultiple { bitCnt := bitCnt, bits := memory, bitCnt_lt := h } 0 bitCnt false
    else .error .assertion
  else .error .assertion

def initPool (memory : ℕ → BitVec elemBits) (base pageCnt : ℕ) : Except Fault Pool :=
  let bmPages := pagesFor (bitmapBufSize pageCnt)
  if pageCnt < bmPages then .error .assertion
  else
    (bitmapCreateInBuf memory (pageCnt - bmPages) (bmPages * pgSize % 2 ^ 32)).map fun usedMap =>
      ⟨usedMap, (base + bmPages * pgSize) % 2 ^ 32⟩

structure State where
  kernelPool : Pool
  userPool : Pool

def pallocInit (memory : ℕ → ℕ → BitVec elemBits) (ramPages userPageLimit : ℕ) :
    Except Fault State := do
  let freeStart ← ptov (1024 * 1024)
  let freeEnd ← ptov (ramPages * pgSize % 2 ^ 32)
  let freePages := (((freeEnd : ℤ) - freeStart).tdiv pgSize % 2 ^ 32).toNat
  let userPages := min (freePages / 2) userPageLimit
  let kernelPages := freePages - userPages
  let kernelPool ← initPool (memory 0) freeStart kernelPages
  let userPool ← initPool (memory 1) ((freeStart + kernelPages * pgSize) % 2 ^ 32) userPages
  .ok ⟨kernelPool, userPool⟩

/-- `flags & PAL_USER`. -/
def State.pool (st : State) : Bool → Pool
  | true => st.userPool
  | false => st.kernelPool

def State.setPool (st : State) : Bool → Pool → State
  | true, p => { st with userPool := p }
  | false, p => { st with kernelPool := p }

/-- `palloc_get_multiple`; the contents of the pages are left out, and with them `PAL_ZERO`. -/
def pallocGetMultiple (user mustHave : Bool) (pageCnt : ℕ) (st : State) :
    Except Fault (Option ℕ × State) :=
  if pageCnt = 0 then .ok (none, st)
  else do
    let p := st.pool user
    let (pageIdx, usedMap) ← bitmapScanAndFlip p.usedMap 0 pageCnt false
    match pageIdx with
    | some i =>
      .ok (some ((p.base + pgSize * i) % 2 ^ 32), st.setPool user { p with usedMap := usedMap })
    | none => if mustHave then .error .assertion else .ok (none, st)

def pageFromPool (p : Pool) (page : ℕ) : Bool :=
  pgNo p.base ≤ pgNo page && pgNo page < (pgNo p.base + p.usedMap.bitCnt) % 2 ^ 32

/-- The pool `palloc_free_multiple` finds for a page; `none` is `NOT_REACHED`. -/
def poolOf (st : State) (page : ℕ) : Option Bool :=
  if pageFromPool st.kernelPool page then some false
  else if pageFromPool st.userPool page then some true
  else none

def pallocFreeMultiple (pages pageCnt : ℕ) (st : State) : Except Fault State :=
  if pgOfs pages ≠ 0 then .error .assertion
  else if pages = 0 ∨ pageCnt = 0 then .ok st
  else
    match poolOf st pages with
    | none => .error .assertion
    | some user => do
      let p := st.pool user
      let pageIdx := pgNo pages - pgNo p.base
      let all ← bitmapAll p.usedMap pageIdx pageCnt
      if all then do
        let usedMap ← bitmapSetMultiple p.usedMap pageIdx pageCnt false
        .ok (st.setPool user { p with usedMap := usedMap })
      else .error .assertion

/-! ### The layout of the pools -/

/-- The pool owns the pages from `lo` to `hi`: its bitmap lies in the first `bm` of them, and each
of the others has a bit. -/
structure Layout (p : Pool) (lo bm hi : ℕ) : Prop where
  base : p.base = pgSize * (lo + bm)
  size : lo + bm + p.usedMap.bitCnt = hi
  bound : hi < 2 ^ 20
  first : 0 < lo

variable {p : Pool} {lo bm hi n : ℕ}

theorem Layout.pgNo_base (h : Layout p lo bm hi) : pgNo p.base = lo + bm := by
  rw [pgNo, h.base]
  exact Nat.mul_div_cancel_left _ (by decide)

/-- The address of a page of the pool, as `palloc_get_multiple` computes it. -/
theorem Layout.address (h : Layout p lo bm hi) {i : ℕ} (hi' : i < p.usedMap.bitCnt) :
    (p.base + pgSize * i) % 2 ^ 32 = pgSize * (lo + bm + i) := by
  have hsize := h.size
  have hbound := h.bound
  rw [h.base, Nat.mod_eq_of_lt]
  · ring
  · simp only [pgSize]
    omega

/-- `page_from_pool` finds exactly the pages that have a bit. -/
theorem Layout.pageFromPool_iff (h : Layout p lo bm hi) (n : ℕ) :
    pageFromPool p (pgSize * n) = true ↔ lo + bm ≤ n ∧ n < hi := by
  have hno : pgNo (pgSize * n) = n := Nat.mul_div_cancel_left _ (by decide)
  have hsize := h.size
  have hbound := h.bound
  rw [pageFromPool, Bool.and_eq_true, decide_eq_true_eq, decide_eq_true_eq, hno, h.pgNo_base,
    hsize, Nat.mod_eq_of_lt (by omega)]

/-- `bitmap_set_all (b, false)` in the buffer. -/
theorem bitmapCreateInBuf_ok (memory : ℕ → BitVec elemBits) {bitCnt blockSize : ℕ}
    (hlt : bitCnt < 2 ^ 32) (hsize : bitmapBufSize bitCnt ≤ blockSize) :
    ∃ b, bitmapCreateInBuf memory bitCnt blockSize = .ok b ∧ b.bitCnt = bitCnt ∧
      ∀ i < bitCnt, b.get i = false := by
  obtain ⟨b, hb, hcnt, hget⟩ := bitmapSetMultiple_ok
    (b := { bitCnt := bitCnt, bits := memory, bitCnt_lt := hlt })
    (show 0 + bitCnt ≤ bitCnt by omega) false
  refine ⟨b, ?_, hcnt, ?_⟩
  · rw [bitmapCreateInBuf, dif_pos hlt, if_pos hsize]
    exact hb
  · intro i hi
    rw [hget, if_pos (by omega)]

/-- Pages for the bitmap of a pool. -/
def bmPages (pageCnt : ℕ) : ℕ := pagesFor (bitmapBufSize pageCnt)

theorem bitmapBufSize_eq (h : n < 2 ^ 20) : bitmapBufSize n = 8 + 4 * ((n + 31) / 32) := by
  have helem : elemCnt n = (n + 31) / 32 := by
    rw [elemCnt, Nat.mod_eq_of_lt (by simp only [elemBits]; omega)]
    rfl
  rw [bitmapBufSize, byteCnt, helem, Nat.mod_eq_of_lt (by omega)]

theorem bmPages_eq (h : n < 2 ^ 20) : bmPages n = (8 + 4 * ((n + 31) / 32) + 4095) / 4096 := by
  rw [bmPages, bitmapBufSize_eq h, pagesFor, Nat.mod_eq_of_lt (by simp only [pgSize]; omega)]
  rfl

theorem bmPages_pos (h : n < 2 ^ 20) : 0 < bmPages n := by
  rw [bmPages_eq h]
  omega

/-- The space for the bitmap is computed for more bits than the bitmap has in the end. -/
theorem bitmapBufSize_le (h : n < 2 ^ 20) :
    bitmapBufSize (n - bmPages n) ≤ bmPages n * pgSize % 2 ^ 32 := by
  have hbm := bmPages_eq h
  have hsmall : bmPages n * pgSize < 2 ^ 32 := by
    simp only [pgSize]
    omega
  rw [bitmapBufSize_eq (by omega), Nat.mod_eq_of_lt hsmall]
  simp only [pgSize]
  omega

variable {pageCnt : ℕ}

/-- **`init_pool`** panics, or lays out the pages it is given with no page used. -/
theorem initPool_spec {memory : ℕ → BitVec elemBits} {base : ℕ} (hbase : base = pgSize * lo)
    (hfirst : 0 < lo) (hbound : lo + pageCnt < 2 ^ 20) (h : initPool memory base pageCnt = .ok p) :
    Layout p lo (bmPages pageCnt) (lo + pageCnt) ∧ 0 < bmPages pageCnt ∧
      ∀ i < p.usedMap.bitCnt, p.usedMap.get i = false := by
  change (if pageCnt < bmPages pageCnt then _ else _) = _ at h
  split at h
  · cases h
  · obtain ⟨b, hb, hcnt, hget⟩ := bitmapCreateInBuf_ok memory
      (show pageCnt - bmPages pageCnt < 2 ^ 32 by omega)
      (bitmapBufSize_le (show pageCnt < 2 ^ 20 by omega))
    change Except.map _ (bitmapCreateInBuf memory (pageCnt - bmPages pageCnt)
      (bmPages pageCnt * pgSize % 2 ^ 32)) = _ at h
    rw [hb] at h
    obtain rfl := Except.ok.inj h
    refine ⟨⟨?_, ?_, hbound, hfirst⟩, bmPages_pos (by omega), ?_⟩
    · change (base + bmPages pageCnt * pgSize) % 2 ^ 32 = _
      rw [hbase, Nat.mod_eq_of_lt]
      · ring
      · simp only [pgSize]
        omega
    · change lo + bmPages pageCnt + b.bitCnt = _
      omega
    · intro i hi
      exact hget i (by rw [← hcnt]; exact hi)

/-! ### Live runs -/

/-- A run of pages that was handed out: from which pool, its address, and its length. -/
structure Run where
  user : Bool
  addr : ℕ
  cnt : ℕ
deriving DecidableEq

/-- The pages of a run. -/
def Run.Has (r : Run) (n : ℕ) : Prop := pgNo r.addr ≤ n ∧ n < pgNo r.addr + r.cnt

/-- The allocator, and the runs that were obtained and not yet freed. -/
structure Sys where
  st : State
  live : List Run

inductive Event
  | get (user mustHave : Bool) (pageCnt : ℕ)
  | free (r : Run)

/-- A call.  A caller frees only runs that are live; `none` is a call that does not return. -/
def step (s : Sys) : Event → Option Sys
  | .get user mustHave pageCnt =>
    match pallocGetMultiple user mustHave pageCnt s.st with
    | .ok (some addr, st) => some ⟨st, ⟨user, addr, pageCnt⟩ :: s.live⟩
    | .ok (none, st) => some { s with st := st }
    | .error _ => none
  | .free r =>
    if r ∈ s.live then
      match pallocFreeMultiple r.addr r.cnt s.st with
      | .ok st => some ⟨st, s.live.erase r⟩
      | .error _ => none
    else none

/-- Where the two pools are: the pages of each, and how many of them hold its bitmap. -/
structure Map where
  lo : Bool → ℕ
  bm : Bool → ℕ
  hi : Bool → ℕ

/-- The pool of a run: the pages that may be handed out from it. -/
def Map.Owns (m : Map) (user : Bool) (n : ℕ) : Prop := m.lo user + m.bm user ≤ n ∧ n < m.hi user

/-- The pages in which the bitmap of a pool lies. -/
def Map.Bitmap (m : Map) (user : Bool) (n : ℕ) : Prop := m.lo user ≤ n ∧ n < m.lo user + m.bm user

structure Inv (m : Map) (s : Sys) : Prop where
  layout : ∀ user, Layout (s.st.pool user) (m.lo user) (m.bm user) (m.hi user)
  /-- The user pool lies behind the kernel pool. -/
  apart : m.hi false ≤ m.lo true
  aligned : ∀ r ∈ s.live, pgSize * pgNo r.addr = r.addr
  positive : ∀ r ∈ s.live, 0 < r.cnt
  inside : ∀ r ∈ s.live, ∀ n, r.Has n → m.Owns r.user n
  disjoint : s.live.Pairwise fun r r' => ∀ n, ¬(r.Has n ∧ r'.Has n)
  used : ∀ user i, i < (s.st.pool user).usedMap.bitCnt →
    ((s.st.pool user).usedMap.get i = true ↔
      ∃ r ∈ s.live, r.user = user ∧ r.Has (m.lo user + m.bm user + i))

@[simp] theorem pool_setPool_self (st : State) (user : Bool) (p : Pool) :
    (st.setPool user p).pool user = p := by
  cases user <;> rfl

theorem pool_setPool_of_ne (st : State) {user user' : Bool} (h : user' ≠ user) (p : Pool) :
    (st.setPool user p).pool user' = st.pool user' := by
  cases user <;> cases user' <;> first | rfl | exact absurd rfl h

variable {m : Map} {s : Sys}

theorem Inv.owns_unique (h : Inv m s) {u u' : Bool} (hu : m.Owns u n) (hu' : m.Owns u' n) :
    u = u' := by
  have hapart := h.apart
  cases u with
  | false =>
    cases u' with
    | false => rfl
    | true =>
      have h1 := hu.2
      have h2 := hu'.1
      omega
  | true =>
    cases u' with
    | true => rfl
    | false =>
      have h1 := hu.1
      have h2 := hu'.2
      omega

theorem Inv.not_bitmap (h : Inv m s) {u u' : Bool} (hu : m.Owns u n) : ¬m.Bitmap u' n := by
  intro hb
  have hapart := h.apart
  have hk := (h.layout false).size
  have h1 := hu.1
  have h2 := hu.2
  have h3 := hb.1
  have h4 := hb.2
  cases u <;> cases u' <;> omega

/-! ### Obtaining a run -/

/-- What `palloc_get_multiple` does: it finds a free run and marks it, or there is none. -/
theorem pallocGetMultiple_cases (user mustHave : Bool) (hne : pageCnt ≠ 0) (st : State) :
    (∃ i b', pallocGetMultiple user mustHave pageCnt st =
        .ok (some (((st.pool user).base + pgSize * i) % 2 ^ 32),
          st.setPool user { st.pool user with usedMap := b' }) ∧
      i + pageCnt ≤ (st.pool user).usedMap.bitCnt ∧
      (∀ k < pageCnt, (st.pool user).usedMap.get (i + k) = false) ∧
      b'.bitCnt = (st.pool user).usedMap.bitCnt ∧
      ∀ j, b'.get j =
        if i ≤ j ∧ j < i + pageCnt then true else (st.pool user).usedMap.get j) ∨
    pallocGetMultiple user mustHave pageCnt st =
      if mustHave then .error .assertion else .ok (none, st) := by
  unfold pallocGetMultiple
  rw [if_neg hne]
  cases bitmapScanAndFlip_spec (st.pool user).usedMap pageCnt false with
  | inl hfound =>
    obtain ⟨i, b', hscan, hin, hfree, hcnt, hget⟩ := hfound
    left
    refine ⟨i, b', ?_, hin, hfree, hcnt, hget⟩
    simp only [hscan]
    rfl
  | inr hnone =>
    right
    simp only [hnone.1]
    rfl

/-- **A run that is handed out** is new, and lies in the pool it was asked from. -/
theorem Inv.get (h : Inv m s) {user : Bool} {i : ℕ} {b' : Bitmap}
    (hne : pageCnt ≠ 0) (hin : i + pageCnt ≤ (s.st.pool user).usedMap.bitCnt)
    (hfree : ∀ k < pageCnt, (s.st.pool user).usedMap.get (i + k) = false)
    (hcnt : b'.bitCnt = (s.st.pool user).usedMap.bitCnt)
    (hget : ∀ j, b'.get j =
      if i ≤ j ∧ j < i + pageCnt then true else (s.st.pool user).usedMap.get j) :
    Inv m ⟨s.st.setPool user { s.st.pool user with usedMap := b' },
      ⟨user, ((s.st.pool user).base + pgSize * i) % 2 ^ 32, pageCnt⟩ :: s.live⟩ := by
  have hl := h.layout user
  have haddr := hl.address (i := i) (by omega)
  have hno : pgNo (((s.st.pool user).base + pgSize * i) % 2 ^ 32) =
      m.lo user + m.bm user + i := by
    rw [haddr, pgNo]
    exact Nat.mul_div_cancel_left _ (by decide)
  have hhas : ∀ n, Run.Has ⟨user, ((s.st.pool user).base + pgSize * i) % 2 ^ 32, pageCnt⟩ n ↔
      m.lo user + m.bm user + i ≤ n ∧ n < m.lo user + m.bm user + i + pageCnt := by
    intro n
    rw [Run.Has, hno]
  have hsize := hl.size
  have howns : ∀ n, Run.Has ⟨user, ((s.st.pool user).base + pgSize * i) % 2 ^ 32, pageCnt⟩ n →
      m.Owns user n := by
    intro n hn
    have hn' := (hhas n).mp hn
    exact ⟨by omega, by omega⟩
  -- a page of a live run has its bit set, and these bits were clear
  have hnew : ∀ r ∈ s.live, ∀ n,
      ¬(Run.Has ⟨user, ((s.st.pool user).base + pgSize * i) % 2 ^ 32, pageCnt⟩ n ∧ r.Has n) := by
    intro r hr n hboth
    obtain ⟨hn, hrn⟩ := hboth
    have huser : r.user = user := h.owns_unique (h.inside r hr n hrn) (howns n hn)
    have hn' := (hhas n).mp hn
    obtain ⟨k, rfl⟩ : ∃ k, n = m.lo user + m.bm user + (i + k) :=
      ⟨n - (m.lo user + m.bm user + i), by omega⟩
    have hset := (h.used user (i + k) (by omega)).mpr ⟨r, hr, huser, hrn⟩
    rw [hfree k (by omega)] at hset
    cases hset
  constructor
  · intro u
    by_cases hu : u = user
    · subst hu
      rw [pool_setPool_self]
      exact ⟨hl.base, by rw [← hsize]; exact congrArg _ hcnt, hl.bound, hl.first⟩
    · rw [pool_setPool_of_ne _ hu]
      exact h.layout u
  · exact h.apart
  · exact List.forall_mem_cons.mpr ⟨by rw [hno, haddr], h.aligned⟩
  · exact List.forall_mem_cons.mpr ⟨Nat.pos_of_ne_zero hne, h.positive⟩
  · exact List.forall_mem_cons.mpr ⟨howns, h.inside⟩
  · exact List.pairwise_cons.mpr ⟨hnew, h.disjoint⟩
  · intro u j hj
    by_cases hu : u = user
    · subst hu
      rw [pool_setPool_self] at hj ⊢
      rw [hget]
      have hold := h.used u j (by rw [← hcnt]; exact hj)
      by_cases hrange : i ≤ j ∧ j < i + pageCnt
      · rw [if_pos hrange]
        refine iff_of_true rfl ⟨_, List.mem_cons_self, rfl, ?_⟩
        rw [hhas]
        exact ⟨by omega, by omega⟩
      · rw [if_neg hrange, hold, List.exists_mem_cons_iff, or_iff_right]
        rintro ⟨-, hn⟩
        rw [hhas] at hn
        exact hrange ⟨by omega, by omega⟩
    · rw [pool_setPool_of_ne _ hu] at hj ⊢
      rw [h.used u j hj, List.exists_mem_cons_iff, or_iff_right]
      exact fun hr => hu hr.1.symm

/-! ### Freeing a run -/

variable {r : Run}

theorem Inv.has_first (h : Inv m s) (hr : r ∈ s.live) : r.Has (pgNo r.addr) := by
  have hpos := h.positive r hr
  exact ⟨le_rfl, by omega⟩

/-- `palloc_free_multiple` finds the pool a live run came from. -/
theorem Inv.poolOf_live (h : Inv m s) (hr : r ∈ s.live) : poolOf s.st r.addr = some r.user := by
  have howns := h.inside r hr _ (h.has_first hr)
  have hfrom : ∀ u, pageFromPool (s.st.pool u) r.addr = true ↔ m.Owns u (pgNo r.addr) := by
    intro u
    have hiff := (h.layout u).pageFromPool_iff (pgNo r.addr)
    rw [h.aligned r hr] at hiff
    exact hiff
  unfold poolOf
  cases huser : r.user with
  | false =>
    rw [huser] at howns
    exact if_pos ((hfrom false).mpr howns)
  | true =>
    rw [huser] at howns
    have hnot : ¬pageFromPool s.st.kernelPool r.addr = true := by
      intro hf
      have heq := h.owns_unique howns ((hfrom false).mp hf)
      cases heq
    rw [if_neg hnot]
    exact if_pos ((hfrom true).mpr howns)

theorem Inv.bits_live (h : Inv m s) (hr : r ∈ s.live) : m.lo r.user + m.bm r.user ≤ pgNo r.addr ∧
      pgNo r.addr - (m.lo r.user + m.bm r.user) + r.cnt ≤ (s.st.pool r.user).usedMap.bitCnt ∧
      ∀ k < r.cnt, (s.st.pool r.user).usedMap.get
        (pgNo r.addr - (m.lo r.user + m.bm r.user) + k) = true := by
  have hpos := h.positive r hr
  have hsize := (h.layout r.user).size
  have hfirst := h.inside r hr _ (h.has_first hr)
  have hlast := h.inside r hr (pgNo r.addr + (r.cnt - 1)) ⟨by omega, by omega⟩
  have hlo := hfirst.1
  have hhi := hlast.2
  refine ⟨hlo, by omega, ?_⟩
  intro k hk
  apply (h.used r.user _ (by omega)).mpr
  refine ⟨r, hr, rfl, ?_⟩
  exact ⟨by omega, by omega⟩

theorem Inv.nodup (h : Inv m s) : s.live.Nodup := by
  apply h.disjoint.imp_of_mem
  intro r r' hr _ hdis heq
  subst heq
  exact hdis _ ⟨h.has_first hr, h.has_first hr⟩

theorem Inv.disjoint_of_ne (h : Inv m s) {r' : Run} (hr : r ∈ s.live) (hr' : r' ∈ s.live)
    (hne : r ≠ r') (n : ℕ) : ¬(r.Has n ∧ r'.Has n) := by
  have : Std.Symm fun r r' : Run => ∀ n, ¬(r.Has n ∧ r'.Has n) :=
    ⟨fun _ _ hdis n hboth => hdis n hboth.symm⟩
  exact h.disjoint.forall hr hr' hne n

/-- **Freeing a live run** hits no ASSERT, and clears exactly its bits in its pool. -/
theorem Inv.free (h : Inv m s) (hr : r ∈ s.live) : ∃ b', pallocFreeMultiple r.addr r.cnt s.st =
        .ok (s.st.setPool r.user { s.st.pool r.user with usedMap := b' }) ∧
      b'.bitCnt = (s.st.pool r.user).usedMap.bitCnt ∧
      (∀ j, b'.get j = true ↔ (s.st.pool r.user).usedMap.get j = true ∧
        ¬r.Has (m.lo r.user + m.bm r.user + j)) ∧
      Inv m ⟨s.st.setPool r.user { s.st.pool r.user with usedMap := b' }, s.live.erase r⟩ := by
  have hl := h.layout r.user
  have hpos := h.positive r hr
  obtain ⟨hlo, hin, hset⟩ := h.bits_live hr
  obtain ⟨all, hall, halliff⟩ := bitmapAll_ok hin
  obtain ⟨b', hb', hcnt, hget⟩ := bitmapSetMultiple_ok hin false
  have hzero : r.addr ≠ 0 := by
    intro heq
    have hfirst := hl.first
    rw [heq] at hlo
    change _ ≤ 0 / pgSize at hlo
    rw [Nat.zero_div] at hlo
    omega
  have hcall : pallocFreeMultiple r.addr r.cnt s.st =
      .ok (s.st.setPool r.user { s.st.pool r.user with usedMap := b' }) := by
    have hofs : pgOfs r.addr = 0 := by
      rw [← h.aligned r hr, pgOfs]
      exact Nat.mul_mod_right _ _
    unfold pallocFreeMultiple
    rw [if_neg (not_not.mpr hofs), if_neg (by omega)]
    simp only [h.poolOf_live hr, hl.pgNo_base, hall, halliff.mpr hset]
    rw [hb']
    rfl
  have hbit : ∀ j, b'.get j = true ↔ (s.st.pool r.user).usedMap.get j = true ∧
      ¬r.Has (m.lo r.user + m.bm r.user + j) := by
    intro j
    rw [hget]
    by_cases hj : r.Has (m.lo r.user + m.bm r.user + j)
    · have h1 := hj.1
      have h2 := hj.2
      rw [if_pos ⟨by omega, by omega⟩]
      simp [hj]
    · rw [if_neg]
      · simp [hj]
      · intro hrange
        exact hj ⟨by omega, by omega⟩
  have hmem : ∀ r', r' ∈ s.live.erase r ↔ r' ≠ r ∧ r' ∈ s.live :=
    fun r' => h.nodup.mem_erase_iff
  refine ⟨b', hcall, hcnt, hbit, ?_⟩
  constructor
  · intro u
    by_cases hu : u = r.user
    · subst hu
      rw [pool_setPool_self]
      exact ⟨hl.base, by rw [← hl.size]; exact congrArg _ hcnt, hl.bound, hl.first⟩
    · rw [pool_setPool_of_ne _ hu]
      exact h.layout u
  · exact h.apart
  · intro r' hr'
    exact h.aligned r' ((hmem r').mp hr').2
  · intro r' hr'
    exact h.positive r' ((hmem r').mp hr').2
  · intro r' hr'
    exact h.inside r' ((hmem r').mp hr').2
  · exact h.disjoint.sublist List.erase_sublist
  · intro u j hj
    by_cases hu : u = r.user
    · subst hu
      rw [pool_setPool_self] at hj ⊢
      rw [hbit, h.used r.user j (by rw [← hcnt]; exact hj)]
      constructor
      · intro hex
        obtain ⟨⟨r', hr', hru, hrn⟩, hnot⟩ := hex
        refine ⟨r', (hmem r').mpr ⟨?_, hr'⟩, hru, hrn⟩
        intro heq
        exact hnot (heq ▸ hrn)
      · intro hex
        obtain ⟨r', hr', hru, hrn⟩ := hex
        obtain ⟨hne, hr''⟩ := (hmem r').mp hr'
        refine ⟨⟨r', hr'', hru, hrn⟩, ?_⟩
        intro hboth
        exact h.disjoint_of_ne hr'' hr hne _ ⟨hrn, hboth⟩
    · rw [pool_setPool_of_ne _ hu] at hj ⊢
      rw [h.used u j hj]
      constructor
      · intro hex
        obtain ⟨r', hr', hru, hrn⟩ := hex
        refine ⟨r', (hmem r').mpr ⟨?_, hr'⟩, hru, hrn⟩
        intro heq
        exact hu (by rw [← hru, heq])
      · intro hex
        obtain ⟨r', hr', hru, hrn⟩ := hex
        exact ⟨r', ((hmem r').mp hr').2, hru, hrn⟩

/-! ### Whole runs -/

/-- `start.S` finds at least one megabyte of memory, and uses no more than 64. -/
theorem initRamPages_bounds (ax : BitVec 16) :
    256 ≤ initRamPages ax ∧ initRamPages ax ≤ 16384 := by
  unfold initRamPages
  omega

theorem freePages_eq {freeStart freeEnd : ℕ} (hlo : 256 ≤ n) (hhi : n ≤ 16384)
    (hs : freeStart = pgSize * 0xc0100) (he : freeEnd = n * pgSize + physStart) :
    (((freeEnd : ℤ) - freeStart).tdiv pgSize % 2 ^ 32).toNat = n - 256 := by
  have hdiff : (freeEnd : ℤ) - freeStart = ((n - 256 : ℕ) : ℤ) * pgSize := by
    simp only [pgSize, physStart] at hs he ⊢
    omega
  rw [hdiff, Int.mul_tdiv_cancel _ (by decide), Int.emod_eq_of_lt (by omega) (by omega)]
  omega

theorem bind_eq_ok {α β : Type} {x : Except Fault α} {f : α → Except Fault β} {r : β}
    (h : x >>= f = .ok r) : ∃ a, x = .ok a ∧ f a = .ok r := by
  cases x with
  | error _ => cases h
  | ok a => exact ⟨a, rfl, h⟩

/-- **`palloc_init`** panics, or leaves two pools, one behind the other, with no page used. -/
theorem pallocInit_spec {memory : ℕ → ℕ → BitVec elemBits} {ax : BitVec 16} {limit : ℕ}
    {st : State} (h : pallocInit memory (initRamPages ax) limit = .ok st) :
    ∃ m, Inv m ⟨st, []⟩ := by
  obtain ⟨hlo, hhi⟩ := initRamPages_bounds ax
  generalize initRamPages ax = n at h hlo hhi
  obtain ⟨freeStart, hstart, h⟩ := bind_eq_ok h
  obtain ⟨freeEnd, hend, h⟩ := bind_eq_ok h
  have hs : freeStart = pgSize * 0xc0100 := by
    rw [← Except.ok.inj hstart]
    norm_num
  have he : freeEnd = n * pgSize + physStart := by
    have hmod : n * pgSize % 2 ^ 32 = n * pgSize :=
      Nat.mod_eq_of_lt (by simp only [pgSize]; omega)
    rw [hmod, ptov, if_pos (by simp only [pgSize, physStart]; omega)] at hend
    rw [← Except.ok.inj hend, Nat.mod_eq_of_lt (by simp only [pgSize, physStart]; omega)]
  dsimp only at h
  rw [freePages_eq hlo hhi hs he] at h
  generalize huser : min ((n - 256) / 2) limit = userPages at h
  obtain ⟨kernelPool, hk, h⟩ := bind_eq_ok h
  obtain ⟨userPool, hu, h⟩ := bind_eq_ok h
  obtain rfl := Except.ok.inj h
  have hubase : (freeStart + (n - 256 - userPages) * pgSize) % 2 ^ 32 =
      pgSize * (0xc0100 + (n - 256 - userPages)) := by
    rw [hs, Nat.mod_eq_of_lt (by simp only [pgSize]; omega)]
    simp only [pgSize]
    omega
  obtain ⟨hklay, -, hkfree⟩ := initPool_spec hs (by norm_num) (by omega) hk
  obtain ⟨hulay, -, hufree⟩ := initPool_spec hubase (by omega) (by omega) hu
  refine ⟨⟨fun u => if u then 0xc0100 + (n - 256 - userPages) else 0xc0100,
    fun u => if u then bmPages userPages else bmPages (n - 256 - userPages),
    fun u => if u then 0xc0100 + (n - 256 - userPages) + userPages
      else 0xc0100 + (n - 256 - userPages)⟩, ?_⟩
  constructor
  · intro u
    cases u with
    | false => exact hklay
    | true => exact hulay
  · exact le_rfl
  · intro r hr
    cases hr
  · intro r hr
    cases hr
  · intro r hr
    cases hr
  · exact List.Pairwise.nil
  · intro u i hi
    have hfalse : ((⟨kernelPool, userPool⟩ : State).pool u).usedMap.get i = false := by
      cases u with
      | false => exact hkfree i hi
      | true => exact hufree i hi
    rw [hfalse]
    constructor
    · intro heq
      cases heq
    · intro hex
      obtain ⟨r, hr, -⟩ := hex
      cases hr

theorem Inv.step {s' : Sys} {e : Event} (h : Inv m s) (hs : step s e = some s') : Inv m s' := by
  cases e with
  | get user mustHave pageCnt =>
    unfold Palloc.step at hs
    by_cases hz : pageCnt = 0
    · have hcall : pallocGetMultiple user mustHave pageCnt s.st = .ok (none, s.st) := by
        rw [pallocGetMultiple, if_pos hz]
      simp only [hcall] at hs
      cases hs
      exact h
    · cases pallocGetMultiple_cases user mustHave hz s.st with
      | inl hfound =>
        obtain ⟨i, b', hcall, hin, hfree, hcnt, hget⟩ := hfound
        simp only [hcall] at hs
        cases hs
        exact h.get hz hin hfree hcnt hget
      | inr hnone =>
        cases mustHave with
        | true =>
          simp only [hnone, if_true] at hs
          cases hs
        | false =>
          simp only [hnone, Bool.false_eq_true, if_false] at hs
          cases hs
          exact h
  | free r =>
    unfold Palloc.step at hs
    dsimp only at hs
    split at hs
    · rename_i hr
      obtain ⟨b', hcall, -, -, hinv⟩ := h.free hr
      rw [hcall] at hs
      cases hs
      exact hinv
    · cases hs

/-- Two pages for each pool; one of the user pool is handed out. -/
def smallRun : Option Sys :=
  (pallocInit (fun _ _ => 0) (initRamPages 16) 1000).toOption.bind fun st =>
    Transition.run step ⟨st, []⟩ [.get true false 1]

theorem smallRun_live : smallRun.map Sys.live = some [⟨true, 0xc0103000, 1⟩] := by
  decide +kernel

end Pintos.Palloc

import Mathlib.Data.BitVec
import Pintos.RadixTable

/-! # Page directories: `userprog/pagedir.c`, `threads/pte.h`, `threads/vaddr.h`

A page directory and its page tables are pages of 1024 words in kernel memory; an entry packs the
physical address of a page with flag bits.

* `pgOfs`, `ptNo`, `pdNo`: the fields of an address.
* `lookupPage`: the entry for an address, with the page table created on demand; `setPage`,
  `getPage`, `clearPage`, `setDirty`, `setAccessed`, `isDirty`, `isAccessed` work on it.
* `pagingInit`, `pagedirCreate`: the kernel's page directory, and a copy of it.
* `pte`: the entry of an address, zero where there is no page table.  The two levels refine it
  (`lookupPage_spec`), and a call changes it at one page only (`step_spec`).
* **`pagedir_refines`**: over every history of calls on a directory, `getPage` answers as the
  partial map that the history describes (`lastSet`).

A function whose `ASSERT` fails has no result (`none`).  The answers of `palloc_get_page` are
arguments: `none` where it fails, else the page.  `invalidate_pagedir` acts on the processor's
cache of entries only and is left out. -/

namespace Pintos.Pagedir

open RadixTable

/-- A virtual or physical address. -/
abbrev Addr := BitVec 32

/-- A page directory entry or page table entry. -/
abbrev Word := BitVec 32

def physBase : Addr := 0xc0000000#32

/-! ### Fields of an address -/

def pgOfs (va : Addr) : Addr := va &&& 0xfff#32

def pgNo (va : Addr) : Addr := va >>> 12

def ptNo (va : Addr) : BitVec 10 := ((va &&& 0x3ff000#32) >>> 12).setWidth 10

def pdNo (va : Addr) : BitVec 10 := (va >>> 22).setWidth 10

def isUserVaddr (va : Addr) : Prop := va < physBase

def isKernelVaddr (va : Addr) : Prop := physBase ≤ va

instance (va : Addr) : Decidable (isUserVaddr va) := inferInstanceAs (Decidable (va < physBase))

instance (va : Addr) : Decidable (isKernelVaddr va) := inferInstanceAs (Decidable (physBase ≤ va))

def ptov (paddr : Addr) : Option Addr :=
  if paddr < physBase then some (paddr + physBase) else none

def vtop (vaddr : Addr) : Option Addr :=
  if isKernelVaddr vaddr then some (vaddr - physBase) else none

/-! ### Entries -/

def pteAddr : Word := 0xfffff000#32

def pteP : Word := 0x1#32

def pteW : Word := 0x2#32

def pteU : Word := 0x4#32

def pteA : Word := 0x20#32

def pteD : Word := 0x40#32

def pdeCreate (pt : Addr) : Option Word :=
  if pgOfs pt = 0 then (vtop pt).map fun p => p ||| pteU ||| pteP ||| pteW else none

def pdeGetPt (pde : Word) : Option Addr :=
  if pde &&& pteP ≠ 0 then ptov (pde &&& pteAddr) else none

def pteCreateKernel (page : Addr) (writable : Bool) : Option Word :=
  if pgOfs page = 0 then (vtop page).map fun p => p ||| pteP ||| (if writable then pteW else 0)
  else none

def pteCreateUser (page : Addr) (writable : Bool) : Option Word :=
  (pteCreateKernel page writable).map (· ||| pteU)

def pteGetPage (pte : Word) : Option Addr := ptov (pte &&& pteAddr)

/-! ### The functions of `pagedir.c` -/

/-- The pages of kernel memory that hold page directories and page tables. -/
abbrev Mem := Store Addr (BitVec 10) Word

/-- A pointer to an entry: the page it is in, and its index. -/
abbrev Slot := Addr × BitVec 10

/-- `lookup_page`; `fresh` is what `palloc_get_page (PAL_ZERO)` returns, if it is called. -/
def lookupPage (m : Mem) (pd vaddr : Addr) (create : Bool) (fresh : Option Addr) :
    Option (Option Slot × Mem) :=
  if pd = 0 ∨ (create = true ∧ ¬ isUserVaddr vaddr) then none
  else if m pd (pdNo vaddr) = 0 then
    if create then
      match fresh with
      | none => some (none, m)
      | some page =>
        (pdeCreate page).bind fun pde =>
          let m' := set (RadixTable.fill m page 0) pd (pdNo vaddr) pde
          (pdeGetPt (m' pd (pdNo vaddr))).map fun pt => (some (pt, ptNo vaddr), m')
    else some (none, m)
  else (pdeGetPt (m pd (pdNo vaddr))).map fun pt => (some (pt, ptNo vaddr), m)

/-- The globals `init_ram_pages` and `init_page_dir`. -/
structure Boot where
  initRamPages : ℕ
  initPageDir : Addr

/-- `pagedir_set_page`. -/
def setPage (b : Boot) (m : Mem) (pd upage kpage : Addr) (writable : Bool) (fresh : Option Addr) :
    Option (Bool × Mem) :=
  if pgOfs upage = 0 ∧ pgOfs kpage = 0 ∧ isUserVaddr upage ∧
      (∃ p ∈ vtop kpage, (p >>> 12).toNat < b.initRamPages) ∧ pd ≠ b.initPageDir then
    (lookupPage m pd upage true fresh).bind fun r =>
      match r.1 with
      | some (pt, j) =>
        if r.2 pt j &&& pteP = 0 then
          (pteCreateUser kpage writable).map fun w => (true, set r.2 pt j w)
        else none
      | none => some (false, r.2)
  else none

/-- `pagedir_get_page`: the kernel address, or `none` for a null pointer. -/
def getPage (m : Mem) (pd uaddr : Addr) : Option (Option Addr) :=
  if isUserVaddr uaddr then
    (lookupPage m pd uaddr false none).bind fun r =>
      match r.1 with
      | some (pt, j) =>
        if m pt j &&& pteP ≠ 0 then
          (pteGetPage (m pt j)).map fun page => some (page + pgOfs uaddr)
        else some none
      | none => some none
  else none

/-- `pagedir_clear_page`. -/
def clearPage (m : Mem) (pd upage : Addr) : Option Mem :=
  if pgOfs upage = 0 ∧ isUserVaddr upage then
    (lookupPage m pd upage false none).map fun r =>
      match r.1 with
      | some (pt, j) =>
        if m pt j &&& pteP ≠ 0 then set m pt j (m pt j &&& ~~~pteP) else m
      | none => m
  else none

/-- `pagedir_is_dirty` and `pagedir_is_accessed` test one flag. -/
def isSet (flag : Word) (m : Mem) (pd vpage : Addr) : Option Bool :=
  (lookupPage m pd vpage false none).map fun r =>
    match r.1 with
    | some (pt, j) => decide (m pt j &&& flag ≠ 0)
    | none => false

/-- `pagedir_set_dirty` and `pagedir_set_accessed` write one flag. -/
def setFlag (flag : Word) (m : Mem) (pd vpage : Addr) (value : Bool) : Option Mem :=
  (lookupPage m pd vpage false none).map fun r =>
    match r.1 with
    | some (pt, j) =>
      set m pt j (if value then m pt j ||| flag else m pt j &&& ~~~flag)
    | none => m

def isDirty (m : Mem) (pd vpage : Addr) : Option Bool := isSet pteD m pd vpage

def setDirty (m : Mem) (pd vpage : Addr) (dirty : Bool) : Option Mem := setFlag pteD m pd vpage dirty

def isAccessed (m : Mem) (pd vpage : Addr) : Option Bool := isSet pteA m pd vpage

def setAccessed (m : Mem) (pd vpage : Addr) (accessed : Bool) : Option Mem :=
  setFlag pteA m pd vpage accessed

/-- `pagedir_create`; `fresh` is what `palloc_get_page (0)` returns. -/
def pagedirCreate (b : Boot) (m : Mem) (fresh : Option Addr) : Option Addr × Mem :=
  match fresh with
  | none => (none, m)
  | some pd => (some pd, fun k i => if k = pd then m b.initPageDir i else m k i)

/-! ### `paging_init` -/

/-- The state of the loop: the memory, `pt`, and how many pages `palloc_get_page` has given. -/
structure Paging where
  mem : Mem
  pt : Addr
  allocated : ℕ

/-- One round of the loop; `pages n` is the page that call `n` of `palloc_get_page` returns, and
`inText` tells the pages of the kernel's text. -/
def pagingInitRound (pages : ℕ → Addr) (inText : Addr → Bool) (pd : Addr) (s : Paging) (page : ℕ) :
    Option Paging :=
  (ptov (BitVec.ofNat 32 (page * 4096))).bind fun vaddr =>
    (if s.mem pd (pdNo vaddr) = 0 then
      (pdeCreate (pages s.allocated)).map fun pde =>
        ⟨set (RadixTable.fill s.mem (pages s.allocated) 0) pd (pdNo vaddr) pde, pages s.allocated,
          s.allocated + 1⟩
    else some s).bind fun s' =>
      (pteCreateKernel vaddr (!inText vaddr)).map fun w =>
        { s' with mem := set s'.mem s'.pt (ptNo vaddr) w }

/-- The loop over the first `n` pages of memory. -/
def pagingInitLoop (pages : ℕ → Addr) (inText : Addr → Bool) (pd : Addr) :
    ℕ → Paging → Option Paging
  | 0, s => some s
  | n + 1, s => (pagingInitLoop pages inText pd n s).bind fun s' =>
    pagingInitRound pages inText pd s' n

/-- `paging_init`: the memory, and `init_page_dir`. -/
def pagingInit (pages : ℕ → Addr) (inText : Addr → Bool) (initRamPages : ℕ) (m : Mem) :
    Option (Boot × Mem) :=
  (pagingInitLoop pages inText (pages 0) initRamPages ⟨RadixTable.fill m (pages 0) 0, 0, 1⟩).map fun s =>
    (⟨initRamPages, pages 0⟩, s.mem)

/-! ### Bit fields -/

variable {w : Word}

theorem and_addr_of_aligned (h : pgOfs w = 0) : w &&& pteAddr = w := by
  have hw : w &&& (0xfff#32 ||| pteAddr) = w := BitVec.and_allOnes
  rw [BitVec.and_or_distrib_left] at hw
  rw [pgOfs] at h
  rw [h] at hw
  simpa using hw

variable {f : Word}

theorem or_flags_and_addr (h : pgOfs w = 0) (hf : f &&& pteAddr = 0) :
    (w ||| f) &&& pteAddr = w := by
  rw [BitVec.and_comm, BitVec.and_or_distrib_left, BitVec.and_comm _ w, BitVec.and_comm _ f, hf,
    and_addr_of_aligned h]
  simp

variable {g : Word}

theorem or_and_of_disjoint (w : Word) (h : f &&& g = 0) : (w ||| f) &&& g = w &&& g := by
  rw [BitVec.and_comm, BitVec.and_or_distrib_left, BitVec.and_comm _ w, BitVec.and_comm _ f, h]
  simp

theorem or_and_ne_zero (w : Word) (h : f &&& g ≠ 0) : (w ||| f) &&& g ≠ 0 := by
  intro h0
  rw [BitVec.and_comm, BitVec.and_or_distrib_left] at h0
  have hf := (BitVec.or_eq_zero_iff.mp h0).2
  rw [BitVec.and_comm] at hf
  exact h hf

theorem and_not_and_of_disjoint (w : Word) (h : ~~~f &&& g = g) : (w &&& ~~~f) &&& g = w &&& g := by
  rw [BitVec.and_assoc, h]

theorem toNat_pgNo (va : Addr) : (pgNo va).toNat = va.toNat / 4096 := by
  rw [pgNo, BitVec.toNat_ushiftRight, Nat.shiftRight_eq_div_pow]

theorem isUserVaddr_iff_pgNo (va : Addr) : isUserVaddr va ↔ (pgNo va).toNat < 0xc0000 := by
  rw [toNat_pgNo, isUserVaddr, BitVec.lt_def, show physBase.toNat = 0xc0000000 from rfl]
  omega

theorem pgNo_eq_iff (va va' : Addr) :
    pgNo va = pgNo va' ↔ pdNo va = pdNo va' ∧ ptNo va = ptNo va' := by
  constructor
  · intro h
    have hd : ∀ a : Addr, pdNo a = (pgNo a >>> 10).setWidth 10 := by
      intro a
      rw [pdNo, pgNo, ← BitVec.shiftRight_add]
    have ht : ∀ a : Addr, ptNo a = (pgNo a).setWidth 10 := by
      intro a
      apply BitVec.eq_of_getLsbD_eq
      intro i hi
      simp only [ptNo, pgNo, BitVec.getLsbD_setWidth, BitVec.getLsbD_ushiftRight,
        BitVec.getLsbD_and]
      interval_cases i <;> simp
    rw [hd, hd, ht, ht, h]
    exact ⟨rfl, rfl⟩
  · intro h
    apply BitVec.eq_of_getLsbD_eq
    intro i hi
    by_cases hlow : i < 10
    · have hbit := congrArg (fun w => w.getLsbD i) h.2
      simp only [ptNo, BitVec.getLsbD_setWidth, BitVec.getLsbD_ushiftRight,
        BitVec.getLsbD_and] at hbit
      simp only [pgNo, BitVec.getLsbD_ushiftRight]
      interval_cases i <;> simpa using hbit
    · have hbit := congrArg (fun w => w.getLsbD (i - 10)) h.1
      simp only [pdNo, BitVec.getLsbD_setWidth, BitVec.getLsbD_ushiftRight] at hbit
      simp only [pgNo, BitVec.getLsbD_ushiftRight]
      by_cases htop : i < 20
      · simpa [show i - 10 < 10 by omega, show 22 + (i - 10) = 12 + i by omega] using hbit
      · rw [BitVec.getLsbD_of_ge va (12 + i) (by omega), BitVec.getLsbD_of_ge va' (12 + i) (by omega)]

variable {va : Addr}

theorem vtop_lt {p : Addr} (h : vtop va = some p) : p < physBase ∧ p + physBase = va := by
  unfold vtop at h
  split at h
  · next hk =>
      cases h
      rw [isKernelVaddr, BitVec.le_def] at hk
      refine ⟨?_, BitVec.sub_add_cancel va physBase⟩
      rw [BitVec.lt_def, BitVec.toNat_sub]
      simp only [show physBase.toNat = 0xc0000000 from rfl] at hk ⊢
      omega
  · cases h

theorem toNat_pgOfs (va : Addr) : (pgOfs va).toNat = va.toNat % 4096 := by
  exact Nat.and_two_pow_sub_one_eq_mod va.toNat 12

theorem pgOfs_vtop {p : Addr} (h : vtop va = some p) (hva : pgOfs va = 0) : pgOfs p = 0 := by
  obtain ⟨hlt, hsum⟩ := vtop_lt h
  have hnat : va.toNat = p.toNat + 0xc0000000 - if p.toNat + 0xc0000000 < 2 ^ 32 then 0 else 2 ^ 32 := by
    rw [← hsum, BitVec.toNat_add, show physBase.toNat = 0xc0000000 from rfl]
    split <;> omega
  apply BitVec.eq_of_toNat_eq
  have hzero : va.toNat % 4096 = 0 := by rw [← toNat_pgOfs, hva]; rfl
  rw [toNat_pgOfs]
  change p.toNat % 4096 = 0
  split at hnat <;> omega

variable {pt : Addr} {pde : Word}

theorem pdeGetPt_pdeCreate (h : pdeCreate pt = some pde) : pdeGetPt pde = some pt ∧ pde ≠ 0 := by
  unfold pdeCreate at h
  split at h
  · next hofs =>
      obtain ⟨p, hp, rfl⟩ := Option.map_eq_some_iff.mp h
      have hpres : (p ||| pteU ||| pteP ||| pteW) &&& pteP ≠ 0 := by
        rw [BitVec.or_assoc, BitVec.or_assoc]
        exact or_and_ne_zero p (by decide)
      have haddr : (p ||| pteU ||| pteP ||| pteW) &&& pteAddr = p := by
        rw [BitVec.or_assoc, BitVec.or_assoc]
        exact or_flags_and_addr (pgOfs_vtop hp hofs) rfl
      obtain ⟨hlt, hsum⟩ := vtop_lt hp
      refine ⟨?_, ?_⟩
      · rw [pdeGetPt, if_pos hpres, haddr, ptov, if_pos hlt, hsum]
      · intro h0
        rw [h0] at hpres
        exact hpres (BitVec.zero_and)
  · cases h

variable {page : Addr}

theorem pteCreateUser_bits {writable : Bool} (h : pteCreateUser page writable = some w) :
    w &&& pteP ≠ 0 ∧ pteGetPage w = some page := by
  obtain ⟨v, hv, rfl⟩ := Option.map_eq_some_iff.mp h
  unfold pteCreateKernel at hv
  split at hv
  · next hofs =>
      obtain ⟨p, hp, rfl⟩ := Option.map_eq_some_iff.mp hv
      obtain ⟨hlt, hsum⟩ := vtop_lt hp
      have haddr : ((p ||| pteP ||| if writable then pteW else 0) ||| pteU) &&& pteAddr = p := by
        rw [BitVec.or_assoc, BitVec.or_assoc]
        apply or_flags_and_addr (pgOfs_vtop hp hofs)
        cases writable <;> rfl
      refine ⟨?_, ?_⟩
      · rw [BitVec.or_assoc, BitVec.or_assoc]
        apply or_and_ne_zero p
        cases writable <;> decide
      · rw [pteGetPage, haddr, ptov, if_pos hlt, hsum]
  · cases hv

/-! ### What the two levels stand for -/

/-- The page table that a page directory entry points to. -/
def table (pde : Word) : Option Addr := if pde = 0 then none else pdeGetPt pde

/-- The entry for an address, zero where there is no page table. -/
def pte (m : Mem) (pd va : Addr) : Word := view table 0 m pd (pdNo va) (ptNo va)

/-- A page directory whose entries are zero or point to tables of their own. -/
structure Inv (m : Mem) (pd : Addr) : Prop where
  notNull : pd ≠ 0
  wf : Wf table m pd
  present : ∀ i, m pd i ≠ 0 → ∃ pt, pdeGetPt (m pd i) = some pt

/-- A page that is in use neither for the directory nor for one of its tables. -/
structure Fresh (m : Mem) (pd page : Addr) : Prop where
  aligned : pgOfs page = 0
  kernel : isKernelVaddr page
  ne_pd : page ≠ pd
  ne_table : ∀ i, table (m pd i) ≠ some page

variable {pd : Addr} {m : Mem}

theorem table_eq_none_iff (h : Inv m pd) (i : BitVec 10) : table (m pd i) = none ↔ m pd i = 0 := by
  unfold table
  constructor
  · intro hn
    by_contra h0
    obtain ⟨pt, hpt⟩ := h.present i h0
    rw [if_neg h0, hpt] at hn
    cases hn
  · intro h0
    rw [if_pos h0]

theorem Inv.set (h : Inv m pd) {i : BitVec 10} (ht : table (m pd i) = some pt) (j : BitVec 10)
    (w : Word) : Inv (set m pt j w) pd where
  notNull := h.notNull
  wf := wf_set h.wf ht j w
  present := by
    intro i'
    rw [root_set h.wf ht]
    exact h.present i'

theorem table_pdeCreate (h : pdeCreate pt = some pde) : table pde = some pt := by
  obtain ⟨hget, hne⟩ := pdeGetPt_pdeCreate h
  rw [table, if_neg hne, hget]

theorem exists_pdeCreate (ha : pgOfs page = 0) (hk : isKernelVaddr page) :
    ∃ pde, pdeCreate page = some pde := by
  rw [pdeCreate, if_pos ha, vtop, if_pos hk]
  exact ⟨_, rfl⟩

/-- A fresh page can become a page table. -/
theorem Inv.install (h : Inv m pd) (hf : Fresh m pd page) (hpde : pdeCreate page = some pde)
    (i : BitVec 10) : Inv (RadixTable.set (RadixTable.fill m page 0) pd i pde) pd where
  notNull := h.notNull
  wf := wf_install hf.ne_pd hf.ne_table (table_pdeCreate hpde) h.wf
  present := by
    intro i'
    rw [root_install hf.ne_pd]
    by_cases hi : i' = i
    · rw [if_pos hi]
      exact fun _ => ⟨page, (pdeGetPt_pdeCreate hpde).1⟩
    · rw [if_neg hi]
      exact h.present i'

theorem pte_set (h : Inv m pd) (ht : table (m pd (pdNo va)) = some pt) (w : Word) (va' : Addr) :
    pte (set m pt (ptNo va) w) pd va' = if pgNo va' = pgNo va then w else pte m pd va' := by
  unfold pte
  rw [view_set h.wf ht]
  simp only [pgNo_eq_iff]

/-! ### `lookup_page` -/

theorem lookupPage_false (h : Inv m pd) (va : Addr) (fresh : Option Addr) :
    lookupPage m pd va false fresh =
      some ((table (m pd (pdNo va))).map fun pt => (pt, ptNo va), m) := by
  unfold lookupPage
  rw [if_neg (not_or.mpr ⟨h.notNull, by simp⟩)]
  by_cases h0 : m pd (pdNo va) = 0
  · rw [if_pos h0, (table_eq_none_iff h _).mpr h0]
    rfl
  · obtain ⟨pt, hpt⟩ := h.present _ h0
    rw [if_neg h0, table, if_neg h0, hpt]
    rfl

/-- **What `lookup_page` does when it may create a table**: no entry changes; it fails only if
the allocation does. -/
theorem lookupPage_true (h : Inv m pd) (hva : isUserVaddr va) {fresh : Option Addr}
    (hfresh : ∀ page ∈ fresh, Fresh m pd page) :
    ∃ r m', lookupPage m pd va true fresh = some (r, m') ∧ Inv m' pd ∧
      (∀ va', pte m' pd va' = pte m pd va') ∧
      (r = none ∨ ∃ pt, r = some (pt, ptNo va) ∧ table (m' pd (pdNo va)) = some pt) := by
  unfold lookupPage
  rw [if_neg (not_or.mpr ⟨h.notNull, by simp [hva]⟩)]
  by_cases h0 : m pd (pdNo va) = 0
  · rw [if_pos h0, if_pos rfl]
    cases fresh with
    | none => exact ⟨none, m, rfl, h, fun _ => rfl, .inl rfl⟩
    | some page =>
      obtain ⟨haligned, hkernel, hne, htable⟩ := hfresh page rfl
      obtain ⟨pde, hpde⟩ := exists_pdeCreate haligned hkernel
      have hget := (pdeGetPt_pdeCreate hpde).1
      have hptr := table_pdeCreate hpde
      have hnone := (table_eq_none_iff h _).mpr h0
      refine ⟨some (page, ptNo va), RadixTable.set (RadixTable.fill m page 0) pd (pdNo va) pde, ?_,
        h.install (hfresh page rfl) hpde _, ?_, .inr ⟨page, rfl, ?_⟩⟩
      · simp [hpde, hget]
      · intro va'
        exact view_install hne htable hnone hptr h.wf _ _
      · rw [root_install hne, if_pos rfl, hptr]
  · obtain ⟨pt, hpt⟩ := h.present _ h0
    rw [if_neg h0, hpt]
    exact ⟨_, m, rfl, h, fun _ => rfl, .inr ⟨pt, rfl, by rw [table, if_neg h0, hpt]⟩⟩

end Pintos.Pagedir

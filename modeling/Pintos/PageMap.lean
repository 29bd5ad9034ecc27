import Pintos.Pagedir

/-! # A page directory refines a partial map

* `Op`, `Op.step`: the calls that change a page directory; `Op.Allowed` are their preconditions.
* `Rewrites`: how a call rewrites the entry of the page it names; **`step_spec`**: it changes no
  other entry.
* `KernelDir`: a page directory without user mappings; `pagedir_create` copies it
  (`KernelDir.create`).
* `History`, `lastSet`: the calls made so far, and the map from pages to kernel pages that they
  describe.
* **`pagedir_refines`**: `pagedir_get_page` answers as `lastSet` does after every history. -/

namespace Pintos.Pagedir

open RadixTable Option

/-- The calls that change a page directory. -/
inductive Op
  | setPage (upage kpage : Addr) (writable : Bool) (fresh : Option Addr)
  | clearPage (upage : Addr)
  | setDirty (vpage : Addr) (dirty : Bool)
  | setAccessed (vpage : Addr) (accessed : Bool)

namespace Op

/-- The address that a call names. -/
def addr : Op → Addr
  | setPage upage _ _ _ => upage
  | clearPage upage => upage
  | setDirty vpage _ => vpage
  | setAccessed vpage _ => vpage

/-- The call, with what `pagedir_set_page` returns (`true` for the others). -/
def step (b : Boot) (m : Mem) (pd : Addr) : Op → Option (Bool × Mem)
  | setPage upage kpage writable fresh => Pagedir.setPage b m pd upage kpage writable fresh
  | clearPage upage => (Pagedir.clearPage m pd upage).map fun m' => (true, m')
  | setDirty vpage dirty => (Pagedir.setDirty m pd vpage dirty).map fun m' => (true, m')
  | setAccessed vpage accessed =>
    (Pagedir.setAccessed m pd vpage accessed).map fun m' => (true, m')

/-- A call that its caller may make: `pagedir_set_page` for a page that is not present, with
what its `ASSERT`s demand of the arguments. -/
def Allowed (b : Boot) (m : Mem) (pd : Addr) : Op → Prop
  | setPage upage kpage _ fresh =>
    pgOfs upage = 0 ∧ pgOfs kpage = 0 ∧ isUserVaddr upage ∧
      (∃ p ∈ vtop kpage, (p >>> 12).toNat < b.initRamPages) ∧ pd ≠ b.initPageDir ∧
      pte m pd upage &&& pteP = 0 ∧ ∀ page ∈ fresh, Fresh m pd page
  | clearPage upage => pgOfs upage = 0 ∧ isUserVaddr upage
  | setDirty _ _ => True
  | setAccessed _ _ => True

/-- How a call rewrites the entry of the page it names. -/
def Rewrites : Op → Bool → Word → Word → Prop
  | setPage _ kpage writable _, ok, old, new =>
    if ok then pteCreateUser kpage writable = some new else new = old
  | clearPage _, _, old, new => new = old &&& ~~~pteP
  | setDirty _ dirty, _, old, new =>
    new = old ∨ new = if dirty then old ||| pteD else old &&& ~~~pteD
  | setAccessed _ accessed, _, old, new =>
    new = old ∨ new = if accessed then old ||| pteA else old &&& ~~~pteA

end Op

/-! ### What one call does -/

variable {b : Boot} {m m' : Mem} {pd pt va va' : Addr} {op : Op} {old new : Word}

/-- The memory after a call that has rewritten one entry. -/
def Rewritten (m m' : Mem) (pd va : Addr) (new : Word) : Prop :=
  Inv m' pd ∧ ∀ va', pte m' pd va' = if pgNo va' = pgNo va then new else pte m pd va'

theorem pte_congr (m : Mem) (pd : Addr) (h : pgNo va = pgNo va') : pte m pd va = pte m pd va' := by
  obtain ⟨hd, ht⟩ := (pgNo_eq_iff va va').mp h
  rw [pte, pte, hd, ht]

theorem rewritten_self (h : Inv m pd) (va : Addr) : Rewritten m m pd va (pte m pd va) := by
  refine ⟨h, fun va' => ?_⟩
  split
  · next he => exact pte_congr m pd he
  · rfl

theorem rewritten_set (h : Inv m pd) (ht : table (m pd (pdNo va)) = some pt) (new : Word) :
    Rewritten m (RadixTable.set m pt (ptNo va) new) pd va new :=
  ⟨h.set ht _ _, pte_set h ht new⟩

theorem pte_of_table (ht : table (m pd (pdNo va)) = some pt) : pte m pd va = m pt (ptNo va) :=
  view_of_some ht _

theorem pte_of_no_table (ht : table (m pd (pdNo va)) = none) : pte m pd va = 0 :=
  view_of_none ht _

theorem setPage_spec {upage kpage : Addr} {writable : Bool} {fresh : Option Addr} (h : Inv m pd)
    (ha : (Op.setPage upage kpage writable fresh).Allowed b m pd) :
    ∃ ok m' new, setPage b m pd upage kpage writable fresh = some (ok, m') ∧
      (Op.setPage upage kpage writable fresh).Rewrites ok (pte m pd upage) new ∧
      Rewritten m m' pd upage new := by
  obtain ⟨hu, hk, huser, hram, hinit, hfree, hfresh⟩ := ha
  obtain ⟨r, m', hlook, hinv, hpte, hr⟩ := lookupPage_true h huser hfresh
  unfold setPage
  rw [if_pos ⟨hu, hk, huser, hram, hinit⟩, hlook]
  cases hr with
  | inl hnone =>
    rw [hnone]
    refine ⟨false, m', pte m pd upage, rfl, rfl, hinv, fun va' => ?_⟩
    rw [hpte]
    exact (rewritten_self h upage).2 va'
  | inr hsome =>
    obtain ⟨pt, rfl, ht⟩ := hsome
    obtain ⟨p, hp, -⟩ := hram
    have hw : ∃ w, pteCreateUser kpage writable = some w := by
      rw [pteCreateUser, pteCreateKernel, if_pos hk, hp]
      exact ⟨_, rfl⟩
    obtain ⟨w, hw⟩ := hw
    have hfree' : m' pt (ptNo upage) &&& pteP = 0 := by
      rw [← pte_of_table ht, hpte, hfree]
    obtain ⟨hinv', hset⟩ := rewritten_set hinv ht w
    refine ⟨true, _, w, ?_, hw, hinv', fun va' => ?_⟩
    · simp [hfree', hw]
    · rw [hset, hpte]

theorem clearPage_spec {upage : Addr} (h : Inv m pd) (hu : pgOfs upage = 0)
    (huser : isUserVaddr upage) :
    ∃ m', clearPage m pd upage = some m' ∧
      Rewritten m m' pd upage (pte m pd upage &&& ~~~pteP) := by
  unfold clearPage
  rw [if_pos ⟨hu, huser⟩, lookupPage_false h]
  refine ⟨_, rfl, ?_⟩
  cases ht : table (m pd (pdNo upage)) with
  | none =>
    have h0 := pte_of_no_table ht
    have hself := rewritten_self h upage
    rw [h0] at hself ⊢
    exact hself
  | some pt =>
    rw [pte_of_table ht]
    simp only [map_some]
    by_cases hpres : m pt (ptNo upage) &&& pteP = 0
    · rw [if_neg (not_not.mpr hpres)]
      have hsame : m pt (ptNo upage) &&& ~~~pteP = m pt (ptNo upage) := by
        have hall : m pt (ptNo upage) &&& (pteP ||| ~~~pteP) = m pt (ptNo upage) :=
          BitVec.and_allOnes
        rw [BitVec.and_or_distrib_left, hpres] at hall
        simpa using hall
      rw [hsame, ← pte_of_table ht]
      exact rewritten_self h upage
    · rw [if_pos hpres]
      exact rewritten_set h ht _

theorem setFlag_spec (h : Inv m pd) (flag : Word) (vpage : Addr) (value : Bool) :
    ∃ m' new, setFlag flag m pd vpage value = some m' ∧
      (new = pte m pd vpage ∨
        new = if value then pte m pd vpage ||| flag else pte m pd vpage &&& ~~~flag) ∧
      Rewritten m m' pd vpage new := by
  unfold setFlag
  rw [lookupPage_false h]
  cases ht : table (m pd (pdNo vpage)) with
  | none => exact ⟨m, _, rfl, .inl rfl, rewritten_self h vpage⟩
  | some pt =>
    rw [pte_of_table ht]
    exact ⟨_, _, rfl, .inr rfl, rewritten_set h ht _⟩

/-- **An allowed call fails no `ASSERT`, and rewrites the entry of one page.** -/
theorem step_spec (h : Inv m pd) (ha : op.Allowed b m pd) :
    ∃ ok m' new, op.step b m pd = some (ok, m') ∧ op.Rewrites ok (pte m pd op.addr) new ∧
      Rewritten m m' pd op.addr new := by
  cases op with
  | setPage upage kpage writable fresh => exact setPage_spec h ha
  | clearPage upage =>
    obtain ⟨m', hm', hr⟩ := clearPage_spec h ha.1 ha.2
    exact ⟨true, m', _, by rw [Op.step, hm']; rfl, rfl, hr⟩
  | setDirty vpage dirty =>
    obtain ⟨m', new, hm', hnew, hr⟩ := setFlag_spec h pteD vpage dirty
    exact ⟨true, m', new, by rw [Op.step, setDirty, hm']; rfl, hnew, hr⟩
  | setAccessed vpage accessed =>
    obtain ⟨m', new, hm', hnew, hr⟩ := setFlag_spec h pteA vpage accessed
    exact ⟨true, m', new, by rw [Op.step, setAccessed, hm']; rfl, hnew, hr⟩

/-! ### Mappings and flags -/

/-- Where a present page is, and how it may be used. -/
structure Mapping where
  page : Addr
  writable : Bool
  user : Bool
deriving DecidableEq

def mappingOf (w : Word) : Option Mapping :=
  if w &&& pteP = 0 then none
  else some ⟨w &&& pteAddr, decide (w &&& pteW ≠ 0), decide (w &&& pteU ≠ 0)⟩

/-- The mapping of a user or kernel address. -/
def mapping (m : Mem) (pd va : Addr) : Option Mapping := mappingOf (pte m pd va)

theorem mappingOf_congr {w w' : Word} (hp : w' &&& pteP = w &&& pteP)
    (ha : w' &&& pteAddr = w &&& pteAddr) (hw : w' &&& pteW = w &&& pteW)
    (hu : w' &&& pteU = w &&& pteU) : mappingOf w' = mappingOf w := by
  unfold mappingOf
  rw [hp, ha, hw, hu]

/-- A flag that is neither an address bit nor one of `PTE_P`, `PTE_W`, `PTE_U`. -/
structure Aside (flag : Word) : Prop where
  p : flag &&& pteP = 0 ∧ ~~~flag &&& pteP = pteP
  addr : flag &&& pteAddr = 0 ∧ ~~~flag &&& pteAddr = pteAddr
  w : flag &&& pteW = 0 ∧ ~~~flag &&& pteW = pteW
  u : flag &&& pteU = 0 ∧ ~~~flag &&& pteU = pteU

theorem aside_pteD : Aside pteD := ⟨by decide, by decide, by decide, by decide⟩

theorem aside_pteA : Aside pteA := ⟨by decide, by decide, by decide, by decide⟩

theorem writeFlag_and (old : Word) (value : Bool) {flag g : Word}
    (h : flag &&& g = 0 ∧ ~~~flag &&& g = g) :
    (if value then old ||| flag else old &&& ~~~flag) &&& g = old &&& g := by
  cases value with
  | true => exact or_and_of_disjoint old h.1
  | false => exact and_not_and_of_disjoint old h.2

theorem Aside.mappingOf_eq {flag : Word} (hf : Aside flag) {value : Bool}
    (h : new = old ∨ new = if value then old ||| flag else old &&& ~~~flag) :
    mappingOf new = mappingOf old := by
  cases h with
  | inl h => rw [h]
  | inr h =>
    rw [h]
    exact mappingOf_congr (writeFlag_and old value hf.p) (writeFlag_and old value hf.addr)
      (writeFlag_and old value hf.w) (writeFlag_and old value hf.u)

theorem isSet_eq (h : Inv m pd) (flag : Word) (va : Addr) :
    isSet flag m pd va = some (decide (pte m pd va &&& flag ≠ 0)) := by
  unfold isSet
  rw [lookupPage_false h]
  cases ht : table (m pd (pdNo va)) with
  | none =>
    rw [pte_of_no_table ht, show (0 : Word) &&& flag = 0 from BitVec.zero_and]
    rfl
  | some pt =>
    rw [pte_of_table ht]
    rfl

theorem getPage_eq {ua : Addr} (h : Inv m pd) (hu : isUserVaddr ua) :
    getPage m pd ua =
      if pte m pd ua &&& pteP ≠ 0 then
        (pteGetPage (pte m pd ua)).map fun page => some (page + pgOfs ua)
      else some none := by
  unfold getPage
  rw [if_pos hu, lookupPage_false h]
  cases ht : table (m pd (pdNo ua)) with
  | none =>
    rw [pte_of_no_table ht, show (0 : Word) &&& pteP = 0 from rfl, if_neg (not_not.mpr rfl)]
    rfl
  | some pt =>
    rw [pte_of_table ht]
    rfl

/-! ### The kernel's page directory -/

/-- A page directory without user mappings. -/
structure KernelDir (m : Mem) (pd : Addr) : Prop where
  inv : Inv m pd
  user : ∀ va, isUserVaddr va → m pd (pdNo va) = 0

/-- `pagedir_create` makes a page directory without user mappings. -/
theorem KernelDir.create (h : KernelDir m b.initPageDir) (hfresh : Fresh m b.initPageDir pd)
    (hc : pagedirCreate b m (some pd) = (some pd, m')) : KernelDir m' pd := by
  have hroot : ∀ i, m' pd i = m b.initPageDir i := by
    intro i
    rw [← (Prod.mk.inj hc).2]
    simp
  refine ⟨⟨?_, ⟨?_, ?_⟩, ?_⟩, ?_⟩
  · intro h0
    have hk := hfresh.kernel
    rw [h0] at hk
    exact absurd hk (by decide)
  · intro i k hk he
    rw [hroot] at hk
    exact hfresh.ne_table i (he ▸ hk)
  · intro i i' k hk hk'
    rw [hroot] at hk hk'
    exact h.inv.wf.inj hk hk'
  · intro i
    rw [hroot]
    exact h.inv.present i
  · intro va hva
    rw [hroot]
    exact h.user va hva

theorem toNat_pdNo (va : Addr) : (pdNo va).toNat = va.toNat / 0x400000 := by
  rw [pdNo, BitVec.toNat_setWidth, BitVec.toNat_ushiftRight, Nat.shiftRight_eq_div_pow]
  omega

/-! ### Histories -/

/-- The calls made so far, the last one first, with what they returned. -/
abbrev History := List (Op × Bool)

/-- The kernel page of the last successful `pagedir_set_page` of a page, unless the page was
cleared after it. -/
def lastSet : History → Addr → Option Addr
  | [], _ => none
  | (op, ok) :: h, page =>
    match op with
    | .setPage upage kpage _ _ =>
      if page = pgNo upage ∧ ok = true then some kpage else lastSet h page
    | .clearPage upage => if page = pgNo upage then none else lastSet h page
    | .setDirty _ _ => lastSet h page
    | .setAccessed _ _ => lastSet h page

/-- The histories of allowed calls, with the memory they lead to. -/
inductive Runs (b : Boot) (pd : Addr) (m₀ : Mem) : History → Mem → Prop
  | start : Runs b pd m₀ [] m₀
  | call {h : History} {m m' : Mem} {op : Op} {ok : Bool} : Runs b pd m₀ h m →
      op.Allowed b m pd → op.step b m pd = some (ok, m') → Runs b pd m₀ ((op, ok) :: h) m'

/-- The entry is present if and only if the map is defined, and then it leads to that page. -/
def Agrees : Option Addr → Word → Prop
  | none, w => w &&& pteP = 0
  | some kpage, w => w &&& pteP ≠ 0 ∧ pteGetPage w = some kpage

theorem Agrees.congr {o : Option Addr} {w w' : Word} (h : Agrees o w)
    (hp : w' &&& pteP = w &&& pteP) (ha : w' &&& pteAddr = w &&& pteAddr) : Agrees o w' := by
  cases o with
  | none => exact hp.trans h
  | some kpage =>
    obtain ⟨hpres, hget⟩ := h
    refine ⟨hp ▸ hpres, ?_⟩
    rw [pteGetPage, ha]
    exact hget

theorem Agrees.flag {o : Option Addr} {flag : Word} {value : Bool} (h : Agrees o old)
    (hf : Aside flag) (hn : new = old ∨ new = if value then old ||| flag else old &&& ~~~flag) :
    Agrees o new := by
  cases hn with
  | inl hn => rw [hn]; exact h
  | inr hn =>
    rw [hn]
    exact h.congr (writeFlag_and old value hf.p) (writeFlag_and old value hf.addr)

theorem Agrees.rewrites {h : History} {ok : Bool} (ha : Agrees (lastSet h (pgNo op.addr)) old)
    (hr : op.Rewrites ok old new) : Agrees (lastSet ((op, ok) :: h) (pgNo op.addr)) new := by
  cases op with
  | setPage upage kpage writable fresh =>
    cases ok with
    | true =>
      simp only [lastSet, Op.addr, and_self, if_true]
      exact pteCreateUser_bits hr
    | false =>
      have he : new = old := hr
      simpa [lastSet, he] using ha
  | clearPage upage =>
    have he : new = old &&& ~~~pteP := hr
    simp only [lastSet, Op.addr, if_true]
    rw [he, Agrees, BitVec.and_assoc]
    exact BitVec.and_zero
  | setDirty vpage dirty => exact Agrees.flag ha aside_pteD hr
  | setAccessed vpage accessed => exact Agrees.flag ha aside_pteA hr

theorem lastSet_of_ne {page : Addr} (hne : page ≠ pgNo op.addr) (ok : Bool) (h : History) :
    lastSet ((op, ok) :: h) page = lastSet h page := by
  cases op with
  | setPage upage kpage writable fresh => exact if_neg fun hp => hne hp.1
  | clearPage upage => exact if_neg hne
  | setDirty vpage dirty => rfl
  | setAccessed vpage accessed => rfl

/-- What holds along every history. -/
structure Refines (m : Mem) (pd : Addr) (h : History) : Prop where
  inv : Inv m pd
  agrees : ∀ ua, isUserVaddr ua → Agrees (lastSet h (pgNo ua)) (pte m pd ua)

theorem KernelDir.refines (h : KernelDir m pd) : Refines m pd [] := by
  refine ⟨h.inv, fun ua hua => ?_⟩
  rw [pte_of_no_table ((table_eq_none_iff h.inv _).mpr (h.user ua hua))]
  rfl

theorem Refines.step {h : History} {ok : Bool} (hr : Refines m pd h) (ha : op.Allowed b m pd)
    (hs : op.step b m pd = some (ok, m')) : Refines m' pd ((op, ok) :: h) := by
  obtain ⟨ok', m'', new, hs', hrew, hinv, hpte⟩ := step_spec hr.inv ha
  obtain ⟨rfl, rfl⟩ := Prod.mk.inj (some.inj (hs.symm.trans hs'))
  refine ⟨hinv, fun ua hua => ?_⟩
  rw [hpte]
  by_cases hp : pgNo ua = pgNo op.addr
  · rw [if_pos hp, hp]
    have hold := hr.agrees ua hua
    rw [hp, pte_congr m pd hp] at hold
    exact hold.rewrites hrew
  · rw [if_neg hp, lastSet_of_ne hp]
    exact hr.agrees ua hua

theorem Runs.refines {m0 : Mem} {h : History} (hk : KernelDir m0 pd) (hr : Runs b pd m0 h m) :
    Refines m pd h := by
  induction hr with
  | start => exact hk.refines
  | call _ ha hs ih => exact ih.step ha hs

theorem Refines.getPage {ua : Addr} {h : History} (hr : Refines m pd h) (hu : isUserVaddr ua) :
    getPage m pd ua = some ((lastSet h (pgNo ua)).map fun page => page + pgOfs ua) := by
  rw [getPage_eq hr.inv hu]
  have ha := hr.agrees ua hu
  cases hl : lastSet h (pgNo ua) with
  | none =>
    rw [hl] at ha
    have hfree : pte m pd ua &&& pteP = 0 := ha
    rw [if_neg (not_not.mpr hfree)]
    rfl
  | some kpage =>
    rw [hl] at ha
    rw [if_pos ha.1, ha.2]
    rfl

/-- What a call keeps: the mappings and flags of the other pages, every kernel mapping, and all
mappings if it fails. -/
structure Keeps (m m' : Mem) (pd : Addr) (op : Op) (ok : Bool) : Prop where
  others : ∀ va, pgNo va ≠ pgNo op.addr → mapping m' pd va = mapping m pd va ∧
    isDirty m' pd va = isDirty m pd va ∧ isAccessed m' pd va = isAccessed m pd va
  kernel : ∀ va, isKernelVaddr va → mapping m' pd va = mapping m pd va
  failed : ok = false → ∀ va, mapping m' pd va = mapping m pd va

theorem pgNo_ne_of_kernel (hk : isKernelVaddr va) (hu : isUserVaddr va') : pgNo va ≠ pgNo va' := by
  intro h
  have hua := (isUserVaddr_iff_pgNo va').mp hu
  rw [← h] at hua
  exact absurd ((isUserVaddr_iff_pgNo va).mpr hua) (BitVec.not_lt.mpr hk)

/-- A call on a kernel page writes a flag, and keeps its mapping. -/
theorem mappingOf_rewrites_kernel {ok : Bool} (ha : op.Allowed b m pd) (hk : isKernelVaddr op.addr)
    (hr : op.Rewrites ok old new) : mappingOf new = mappingOf old := by
  cases op with
  | setPage upage kpage writable fresh => exact absurd ha.2.2.1 (BitVec.not_lt.mpr hk)
  | clearPage upage => exact absurd ha.2 (BitVec.not_lt.mpr hk)
  | setDirty vpage dirty => exact aside_pteD.mappingOf_eq hr
  | setAccessed vpage accessed => exact aside_pteA.mappingOf_eq hr

theorem eq_of_rewrites_failed (hs : op.step b m pd = some (false, m'))
    (hr : op.Rewrites false old new) : new = old := by
  cases op with
  | setPage upage kpage writable fresh => exact hr
  | clearPage upage | setDirty vpage dirty | setAccessed vpage accessed =>
    obtain ⟨m'', -, he⟩ := map_eq_some_iff.mp hs
    cases he

theorem keeps_of_rewritten {ok : Bool} (h : Inv m pd) (ha : op.Allowed b m pd)
    (hs : op.step b m pd = some (ok, m')) (hrew : op.Rewrites ok (pte m pd op.addr) new)
    (hr : Rewritten m m' pd op.addr new) : Keeps m m' pd op ok := by
  obtain ⟨hinv, hpte⟩ := hr
  refine ⟨?_, ?_, ?_⟩
  · intro va hne
    have he : pte m' pd va = pte m pd va := by rw [hpte, if_neg hne]
    unfold mapping isDirty isAccessed
    rw [isSet_eq hinv, isSet_eq h, isSet_eq hinv, isSet_eq h, he]
    exact ⟨rfl, rfl, rfl⟩
  · intro va hk
    unfold mapping
    rw [hpte]
    split
    · next he =>
        have hk' : isKernelVaddr op.addr := by
          rw [isKernelVaddr, ← BitVec.not_lt]
          exact fun hu => pgNo_ne_of_kernel hk hu he
        rw [mappingOf_rewrites_kernel ha hk' hrew, pte_congr m pd he]
    · rfl
  · intro hfail va
    have hnew : new = pte m pd op.addr := by
      subst hfail
      exact eq_of_rewrites_failed hs hrew
    unfold mapping
    rw [hpte, hnew]
    split
    · next he => rw [pte_congr m pd he]
    · rfl

/-- **A page directory refines a partial map.**  After every history of allowed calls on a
directory made by `pagedir_create`, `pagedir_get_page` answers as the history says; and every
further call fails no `ASSERT` and keeps what it does not name. -/
theorem pagedir_refines (b : Boot) {m₀ m₁ m : Mem} {pd : Addr} {h : History}
    (hk : KernelDir m₀ b.initPageDir) (hpd : Fresh m₀ b.initPageDir pd)
    (hc : pagedirCreate b m₀ (some pd) = (some pd, m₁)) (hr : Runs b pd m₁ h m) :
    (∀ ua, isUserVaddr ua →
      getPage m pd ua = some ((lastSet h (pgNo ua)).map fun page => page + pgOfs ua)) ∧
    ∀ op : Op, op.Allowed b m pd →
      ∃ ok m', op.step b m pd = some (ok, m') ∧ Keeps m m' pd op ok := by
  have href : Refines m pd h := Runs.refines (hk.create hpd hc) hr
  refine ⟨fun ua hua => href.getPage hua, fun op ha => ?_⟩
  obtain ⟨ok, m', new, hs, hrew, hw⟩ := step_spec href.inv ha
  exact ⟨ok, m', hs, keeps_of_rewritten href.inv ha hs hrew hw⟩

/-! ### An empty directory -/

/-- Memory without any mapping. -/
def zeroMem : Mem := fun _ _ => 0

theorem kernelDir_zeroMem (h : pd ≠ 0) : KernelDir zeroMem pd := by
  refine ⟨⟨h, ⟨fun ht => ?_, fun ht => ?_⟩, fun i h => absurd rfl h⟩, fun _ _ => rfl⟩
  · cases ht
  · cases ht

theorem fresh_zeroMem {page : Addr} (ha : pgOfs page = 0) (hk : isKernelVaddr page)
    (hne : page ≠ pd) : Fresh zeroMem pd page := by
  refine ⟨ha, hk, hne, fun i ht => ?_⟩
  cases ht

/-- The first page of a program is mapped to the second page of memory. -/
def mapFirst : Op := .setPage 0x08048000 0xc0001000 true (some 0xc0011000)

theorem mapFirst_allowed : mapFirst.Allowed ⟨2, 0xc0010000⟩ zeroMem 0xc0012000 := by
  refine ⟨by decide, by decide, by decide, ⟨0x1000, by decide, by decide⟩, by decide, ?_, ?_⟩
  · decide
  · intro page hpage
    cases hpage
    exact fresh_zeroMem (by decide) (by decide) (by decide)

/-- The memory after that call: a page table, and the entry in it. -/
def firstMem : Mem :=
  RadixTable.set (RadixTable.set (RadixTable.fill zeroMem 0xc0011000 0) 0xc0012000 (pdNo 0x08048000) 0x11007)
    0xc0011000 (ptNo 0x08048000) 0x1007

theorem runs_mapFirst :
    Runs ⟨2, 0xc0010000⟩ 0xc0012000 zeroMem [(mapFirst, true)] firstMem := by
  have ha := mapFirst_allowed
  have hlook : lookupPage zeroMem 0xc0012000 0x08048000 true (some 0xc0011000) =
      some (some (0xc0011000, ptNo 0x08048000),
        RadixTable.set (RadixTable.fill zeroMem 0xc0011000 0) 0xc0012000 (pdNo 0x08048000) 0x11007) := by
    rfl
  have hw : pteCreateUser 0xc0001000 true = some 0x1007 := by
    rfl
  refine .call .start ha ?_
  rw [mapFirst, Op.step, setPage,
    if_pos ⟨ha.1, ha.2.1, ha.2.2.1, ha.2.2.2.1, ha.2.2.2.2.1⟩, hlook]
  rfl

theorem fresh_first : Fresh zeroMem 0xc0010000 0xc0012000 :=
  fresh_zeroMem (by decide) (by decide) (by decide)

theorem pagedirCreate_zeroMem : pagedirCreate ⟨2, 0xc0010000⟩ zeroMem (some 0xc0012000) =
    (some 0xc0012000, zeroMem) := by
  simp only [pagedirCreate, zeroMem, ite_self]
  rfl

/-- Two pages of memory and a directory without any mapping; a page of the program is mapped. -/
theorem pagedir_refines_mapped :
    Runs ⟨2, 0xc0010000⟩ 0xc0012000 zeroMem [(mapFirst, true)] firstMem ∧
      getPage firstMem 0xc0012000 0x08048123 = some (some 0xc0001123) := by
  exact ⟨runs_mapFirst, (pagedir_refines ⟨2, 0xc0010000⟩ (kernelDir_zeroMem (by decide)) fresh_first
    pagedirCreate_zeroMem runs_mapFirst).1 0x08048123 (by decide)⟩

end Pintos.Pagedir

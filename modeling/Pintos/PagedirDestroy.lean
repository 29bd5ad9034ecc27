import Pintos.PageMap

/-! # Tearing down a page directory

`pagedir_destroy` of `userprog/pagedir.c` walks the user half of a directory.  Every page that is
mapped there goes to `palloc_free_page`, then the page table, and in the end the directory; a page
that is freed is overwritten.

* `Teardown`: the memory, and the pages freed so far; `pagedirDestroy` is the function.
* `Unfreed`: a page that was not freed is as it was.  So the walk reads what the calls before have
  written, as long as no page is in use twice (`freeEntries_spec`, `freeTables_spec`).
* **`pagedirDestroy_exact`**: after every history of calls with kernel pages of their own, exactly
  the directory, its user page tables and the pages still mapped are freed, each once. -/

namespace Pintos.Pagedir

open RadixTable List

/-! ### The source -/

/-- The memory, and the pages that were freed. -/
structure Teardown where
  mem : Mem
  freed : List Addr

/-- `palloc_free_page`, which overwrites the page with the byte 0xcc. -/
def Teardown.freePage (t : Teardown) (page : Addr) : Option Teardown :=
  if pgOfs page = 0 then some ⟨RadixTable.fill t.mem page 0xcccccccc, t.freed ++ [page]⟩ else none

/-- One round of the loop over the entries of a page table. -/
def freeEntry (pt : Addr) (t : Teardown) (j : BitVec 10) : Option Teardown :=
  if t.mem pt j &&& pteP ≠ 0 then (pteGetPage (t.mem pt j)).bind t.freePage else some t

/-- The first `n` indices of a table. -/
def indices (n : ℕ) : List (BitVec 10) := (List.range n).map (BitVec.ofNat 10)

/-- One round of the loop over the entries of the directory. -/
def freeTable (pd : Addr) (t : Teardown) (i : BitVec 10) : Option Teardown :=
  if t.mem pd i &&& pteP ≠ 0 then
    (pdeGetPt (t.mem pd i)).bind fun pt =>
      ((indices 1024).foldlM (freeEntry pt) t).bind fun t => t.freePage pt
  else some t

/-- `pagedir_destroy`; the null pointer is 0. -/
def pagedirDestroy (b : Boot) (m : Mem) (pd : Addr) : Option Teardown :=
  if pd = 0 then some ⟨m, []⟩
  else if pd = b.initPageDir then none
  else ((indices (pdNo physBase).toNat).foldlM (freeTable pd) ⟨m, []⟩).bind fun t => t.freePage pd

/-! ### The two loops -/

section Loops

variable {m : Mem} {pd pt page : Addr} {t : Teardown} {i : BitVec 10}

theorem pgOfs_of_ptov {w : Word} (h : ptov (w &&& pteAddr) = some page) : pgOfs page = 0 := by
  unfold ptov at h
  split at h
  · obtain rfl := Option.some.inj h
    have hw : pgOfs (w &&& pteAddr) = 0 := by
      rw [pgOfs, BitVec.and_assoc]
      exact BitVec.and_zero
    have hmod : (w &&& pteAddr).toNat % 4096 = 0 := by rw [← toNat_pgOfs, hw]; rfl
    apply BitVec.eq_of_toNat_eq
    rw [toNat_pgOfs, BitVec.toNat_add, show physBase.toNat = 0xc0000000 from rfl]
    change _ = 0
    omega
  · cases h

theorem mem_indices {n : ℕ} (hn : n ≤ 1024) : i ∈ indices n ↔ i.toNat < n := by
  simp only [indices, mem_map, mem_range]
  constructor
  · rintro ⟨k, hk, rfl⟩
    rw [BitVec.toNat_ofNat, Nat.mod_eq_of_lt (by omega)]
    exact hk
  · exact fun hi => ⟨i.toNat, hi, BitVec.ofNat_toNat .. |>.trans (BitVec.setWidth_eq i)⟩

theorem nodup_indices {n : ℕ} (hn : n ≤ 1024) : (indices n).Nodup := by
  apply List.Nodup.map_on _ nodup_range
  intro a ha b hb heq
  have ha' := mem_range.mp ha
  have hb' := mem_range.mp hb
  have hmod := congrArg BitVec.toNat heq
  rw [BitVec.toNat_ofNat, BitVec.toNat_ofNat] at hmod
  omega

/-- A page that was not freed is as it was. -/
def Unfreed (m : Mem) (t : Teardown) : Prop := ∀ k, k ∉ t.freed → t.mem k = m k

theorem Unfreed.freePage (hu : Unfreed m t) (ha : pgOfs page = 0) :
    ∃ t', t.freePage page = some t' ∧ t'.freed = t.freed ++ [page] ∧ Unfreed m t' := by
  refine ⟨_, if_pos ha, rfl, fun k hk => ?_⟩
  simp only [mem_append, mem_singleton, not_or] at hk
  funext i
  change RadixTable.fill t.mem page _ k i = _
  rw [fill_of_ne _ _ _ hk.2, hu k hk.1]

/-- The page that an entry of a table maps, if it is present. -/
def mapped (m : Mem) (pt : Addr) (j : BitVec 10) : Option Addr :=
  if m pt j &&& pteP ≠ 0 then pteGetPage (m pt j) else none

/-- The loop over a table in which every present entry leads to another page. -/
theorem freeEntries_spec
    (hpages : ∀ j, m pt j &&& pteP ≠ 0 → ∃ page, pteGetPage (m pt j) = some page ∧ page ≠ pt)
    (js : List (BitVec 10)) : ∀ {t : Teardown}, Unfreed m t → pt ∉ t.freed →
      ∃ t', js.foldlM (freeEntry pt) t = some t' ∧
        t'.freed = t.freed ++ js.filterMap (mapped m pt) ∧ Unfreed m t' := by
  induction js with
  | nil => exact fun {t} hu _ => ⟨t, rfl, (append_nil _).symm, hu⟩
  | cons j js ih =>
    intro t hu hpt
    rw [foldlM_cons, freeEntry, hu pt hpt]
    by_cases hp : m pt j &&& pteP ≠ 0
    · obtain ⟨page, hget, hne⟩ := hpages j hp
      obtain ⟨t1, hfree, hfreed, hu1⟩ := hu.freePage (pgOfs_of_ptov hget)
      obtain ⟨t', hrun, hfreed', hu'⟩ := ih hu1 (by simp [hfreed, hpt, hne.symm])
      have hmapped : mapped m pt j = some page := by rw [mapped, if_pos hp, hget]
      refine ⟨t', ?_, ?_, hu'⟩
      · rw [if_pos hp, hget, Option.bind_some, hfree]
        exact hrun
      · rw [hfreed', hfreed, filterMap_cons_some hmapped, append_assoc]
        rfl
    · obtain ⟨t', hrun, hfreed', hu'⟩ := ih hu hpt
      refine ⟨t', ?_, ?_, hu'⟩
      · rw [if_neg hp]
        exact hrun
      · rw [hfreed', filterMap_cons_none (show mapped m pt j = none from if_neg hp)]

/-- What is freed for an entry of the directory. -/
def freedBy (m : Mem) (pd : Addr) (i : BitVec 10) : List Addr :=
  match table (m pd i) with
  | some pt => (indices 1024).filterMap (mapped m pt) ++ [pt]
  | none => []

theorem mem_freedBy : page ∈ freedBy m pd i ↔
    ∃ pt, table (m pd i) = some pt ∧ (page = pt ∨ ∃ j, mapped m pt j = some page) := by
  unfold freedBy
  cases table (m pd i) with
  | none => simp
  | some pt =>
    have hall : ∀ j : BitVec 10, j ∈ indices 1024 := fun j => (mem_indices le_rfl).mpr j.isLt
    simp only [mem_append, mem_filterMap, hall, true_and, mem_singleton,
      Option.some.injEq, exists_eq_left']
    exact or_comm

/-- The pages that entry `i` of the directory maps are in use for nothing else. -/
def Separate (m : Mem) (pd : Addr) (i : BitVec 10) : Prop :=
  ∀ pt, table (m pd i) = some pt → ∀ j, m pt j &&& pteP ≠ 0 →
    ∃ page, pteGetPage (m pt j) = some page ∧ Fresh m pd page

theorem Separate.fresh (h : Separate m pd i) (ht : table (m pd i) = some pt) {j : BitVec 10}
    (hj : mapped m pt j = some page) : Fresh m pd page := by
  unfold mapped at hj
  split at hj
  · next hp =>
      obtain ⟨page', hget, hfresh⟩ := h pt ht j hp
      obtain rfl : page' = page := Option.some.inj (hget.symm.trans hj)
      exact hfresh
  · cases hj

theorem pdeGetPt_of_table (h : table (m pd i) = some pt) : pdeGetPt (m pd i) = some pt := by
  unfold table at h
  split at h
  · cases h
  · exact h

theorem present_of_pdeGetPt {pde : Word} (h : pdeGetPt pde = some pt) :
    pde &&& pteP ≠ 0 ∧ pgOfs pt = 0 := by
  unfold pdeGetPt at h
  split at h
  · next hp => exact ⟨hp, pgOfs_of_ptov h⟩
  · cases h

/-- The loop over the directory frees nothing that it still has to read. -/
theorem freeTables_spec (hinv : Inv m pd) (is : List (BitVec 10)) : is.Nodup →
    (∀ i ∈ is, Separate m pd i) → ∀ {t : Teardown}, Unfreed m t → pd ∉ t.freed →
      (∀ i ∈ is, ∀ pt, table (m pd i) = some pt → pt ∉ t.freed) →
      ∃ t', is.foldlM (freeTable pd) t = some t' ∧
        t'.freed = t.freed ++ is.flatMap (freedBy m pd) ∧ Unfreed m t' := by
  induction is with
  | nil => exact fun _ _ {t} hu _ _ => ⟨t, rfl, (append_nil _).symm, hu⟩
  | cons i is ih =>
    intro hnodup hsep t hu hpd hts
    obtain ⟨hi, hnodup⟩ := nodup_cons.mp hnodup
    have hsep' := fun i hi => hsep i (mem_cons_of_mem _ hi)
    rw [foldlM_cons, freeTable, hu pd hpd, flatMap_cons, ← append_assoc]
    cases ht : table (m pd i) with
    | none =>
      obtain ⟨t', hrun, hfreed, hu'⟩ := ih hnodup hsep' hu hpd
        fun i hi => hts i (mem_cons_of_mem _ hi)
      refine ⟨t', ?_, ?_, hu'⟩
      · rw [(table_eq_none_iff hinv i).mp ht, if_neg (by simp)]
        exact hrun
      · rw [hfreed, freedBy, ht, append_nil]
    | some pt =>
      have hget := pdeGetPt_of_table ht
      obtain ⟨hp, haligned⟩ := present_of_pdeGetPt hget
      obtain ⟨t1, hrun1, hfreed1, hu1⟩ := freeEntries_spec (fun j hj => by
        obtain ⟨page, hpage, hfresh⟩ := hsep i mem_cons_self pt ht j hj
        exact ⟨page, hpage, fun heq => hfresh.ne_table i (heq ▸ ht)⟩) (indices 1024) hu
          (hts i mem_cons_self pt ht)
      obtain ⟨t2, hfree2, hfreed2, hu2⟩ := hu1.freePage haligned
      have hfreed : t2.freed = t.freed ++ freedBy m pd i := by
        rw [hfreed2, hfreed1, freedBy, ht, append_assoc]
      -- neither the directory nor a table that comes later was freed for this entry
      have hpd2 : pd ∉ t2.freed := by
        rw [hfreed, mem_append, mem_freedBy]
        rintro (hold | ⟨pt', ht', rfl | ⟨j, hj⟩⟩)
        · exact hpd hold
        · exact hinv.wf.ne_root ht' rfl
        · exact ((hsep i mem_cons_self).fresh ht' hj).ne_pd rfl
      have hts2 : ∀ i' ∈ is, ∀ pt', table (m pd i') = some pt' → pt' ∉ t2.freed := by
        intro i' hi' pt' ht'
        rw [hfreed, mem_append, mem_freedBy]
        rintro (hold | ⟨pt'', ht'', rfl | ⟨j, hj⟩⟩)
        · exact hts i' (mem_cons_of_mem _ hi') pt' ht' hold
        · exact hi (hinv.wf.inj ht'' ht' ▸ hi')
        · exact ((hsep i mem_cons_self).fresh ht'' hj).ne_table i' ht'
      obtain ⟨t', hrun, hfreed', hu'⟩ := ih hnodup hsep' hu2 hpd2 hts2
      refine ⟨t', ?_, by rw [hfreed', hfreed], hu'⟩
      rw [if_pos hp, hget, Option.bind_some, hrun1, Option.bind_some, hfree2]
      exact hrun

end Loops

/-! ### Histories -/

/-- The kernel page of a `pagedir_set_page` that succeeded. -/
def kernelPage? : Op × Bool → Option Addr
  | (.setPage _ kpage _ _, true) => some kpage
  | _ => none

/-- The kernel pages of the successful calls of `pagedir_set_page`. -/
def setPages (h : History) : List Addr := h.filterMap kernelPage?

section Histories

variable {m : Mem} {pd pt page ua : Addr} {h : History} {i : BitVec 10}

theorem lastSet_cons {c : Op × Bool} {p : Addr} (hl : lastSet (c :: h) p = some page) :
    (kernelPage? c = some page ∧ p = pgNo c.1.addr) ∨ lastSet h p = some page := by
  obtain ⟨op, ok⟩ := c
  cases op with
  | setPage upage kpage writable fresh =>
    by_cases hp : p = pgNo upage ∧ ok = true
    · obtain ⟨rfl, rfl⟩ := hp
      simp only [lastSet, and_self, if_true] at hl
      exact .inl ⟨hl, rfl⟩
    · simp only [lastSet, if_neg hp] at hl
      exact .inr hl
  | clearPage upage =>
    simp only [lastSet] at hl
    split at hl
    · cases hl
    · exact .inr hl
  | setDirty vpage dirty | setAccessed vpage accessed => exact .inr hl

theorem mem_setPages {p : Addr} (hl : lastSet h p = some page) : page ∈ setPages h := by
  induction h with
  | nil => cases hl
  | cons c h ih =>
    rcases lastSet_cons hl with ⟨hc, -⟩ | hl
    · rw [setPages, filterMap_cons_some hc]
      exact mem_cons_self
    · exact ((sublist_cons_self c h).filterMap kernelPage?).subset (ih hl)

theorem lastSet_inj (hnodup : (setPages h).Nodup) {p p' : Addr} (hl : lastSet h p = some page)
    (hl' : lastSet h p' = some page) : p = p' := by
  induction h with
  | nil => cases hl
  | cons c h ih =>
    cases hc : kernelPage? c with
    | none =>
      rw [setPages, filterMap_cons_none hc] at hnodup
      have hold : ∀ {p}, lastSet (c :: h) p = some page → lastSet h p = some page := fun hl =>
        (lastSet_cons hl).resolve_left fun hk => by rw [hc] at hk; cases hk.1
      exact ih hnodup (hold hl) (hold hl')
    | some kpage =>
      rw [setPages, filterMap_cons_some hc] at hnodup
      obtain ⟨hnot, hnodup⟩ := nodup_cons.mp hnodup
      rcases lastSet_cons hl with ⟨hk, rfl⟩ | hold
      · rcases lastSet_cons hl' with ⟨-, rfl⟩ | hold'
        · rfl
        · cases hc.symm.trans hk
          exact absurd (mem_setPages hold') hnot
      · rcases lastSet_cons hl' with ⟨hk, rfl⟩ | hold'
        · cases hc.symm.trans hk
          exact absurd (mem_setPages hold) hnot
        · exact ih hnodup hold hold'

theorem isUserVaddr_iff_pdNo (va : Addr) : isUserVaddr va ↔ (pdNo va).toNat < 768 := by
  rw [toNat_pdNo, isUserVaddr, BitVec.lt_def, show physBase.toNat = 0xc0000000 from rfl]
  omega

theorem exists_addr (i j : BitVec 10) : ∃ ua : Addr, pdNo ua = i ∧ ptNo ua = j := by
  refine ⟨i ++ j ++ (0 : BitVec 12), ?_, ?_⟩
  · apply BitVec.eq_of_getLsbD_eq
    intro k hk
    simp only [pdNo, BitVec.getLsbD_setWidth, BitVec.getLsbD_ushiftRight, BitVec.getLsbD_append, hk]
    simp [show ¬ 22 + k < 12 by omega, show ¬ 22 + k - 12 < 10 by omega,
      show 22 + k - 12 - 10 = k by omega]
  · apply BitVec.eq_of_getLsbD_eq
    intro k hk
    simp only [ptNo, BitVec.getLsbD_setWidth, BitVec.getLsbD_ushiftRight, BitVec.getLsbD_and,
      BitVec.getLsbD_append, hk]
    interval_cases k <;> simp

namespace Refines

theorem mapped_eq (hr : Refines m pd h) (hu : isUserVaddr ua)
    (ht : table (m pd (pdNo ua)) = some pt) : mapped m pt (ptNo ua) = lastSet h (pgNo ua) := by
  have ha := hr.agrees ua hu
  rw [pte_of_table ht] at ha
  unfold mapped
  cases hl : lastSet h (pgNo ua) with
  | none =>
    rw [hl] at ha
    exact if_neg (not_not.mpr ha)
  | some page =>
    rw [hl] at ha
    rw [if_pos ha.1, ha.2]

theorem exists_table (hr : Refines m pd h) (hu : isUserVaddr ua)
    (hl : lastSet h (pgNo ua) = some page) : ∃ pt, table (m pd (pdNo ua)) = some pt := by
  have ha := hr.agrees ua hu
  rw [hl] at ha
  rw [← Option.isSome_iff_exists, Option.isSome_iff_ne_none]
  intro hnone
  rw [pte_of_no_table hnone] at ha
  exact ha.1 BitVec.zero_and

theorem separate (hr : Refines m pd h) (hown : ∀ p page, lastSet h p = some page → Fresh m pd page)
    (hi : i.toNat < 768) : Separate m pd i := by
  intro pt ht j hj
  obtain ⟨ua, rfl, rfl⟩ := exists_addr i j
  have ha := hr.agrees ua ((isUserVaddr_iff_pdNo ua).mpr hi)
  rw [pte_of_table ht] at ha
  cases hl : lastSet h (pgNo ua) with
  | none =>
    rw [hl] at ha
    exact absurd ha hj
  | some page =>
    rw [hl] at ha
    exact ⟨page, ha.2, hown _ page hl⟩

theorem mem_freed (hr : Refines m pd h) : page ∈ (indices 768).flatMap (freedBy m pd) ↔
    (∃ i, i.toNat < 768 ∧ table (m pd i) = some page) ∨
      ∃ ua, isUserVaddr ua ∧ lastSet h (pgNo ua) = some page := by
  simp only [mem_flatMap, mem_freedBy, mem_indices (show 768 ≤ 1024 by decide)]
  constructor
  · rintro ⟨i, hi, pt, ht, rfl | ⟨j, hj⟩⟩
    · exact .inl ⟨i, hi, ht⟩
    · obtain ⟨ua, rfl, rfl⟩ := exists_addr i j
      have hu := (isUserVaddr_iff_pdNo ua).mpr hi
      exact .inr ⟨ua, hu, (hr.mapped_eq hu ht).symm.trans hj⟩
  · rintro (⟨i, hi, ht⟩ | ⟨ua, hu, hl⟩)
    · exact ⟨i, hi, page, ht, .inl rfl⟩
    · obtain ⟨pt, ht⟩ := hr.exists_table hu hl
      exact ⟨pdNo ua, (isUserVaddr_iff_pdNo ua).mp hu, pt, ht, .inr ⟨_, (hr.mapped_eq hu ht).trans hl⟩⟩

theorem nodup_freed (hr : Refines m pd h) (hnodup : (setPages h).Nodup)
    (hown : ∀ p page, lastSet h p = some page → Fresh m pd page) :
    ((indices 768).flatMap (freedBy m pd)).Nodup := by
  have hlt : ∀ {i}, i ∈ indices 768 → i.toNat < 768 := (mem_indices (by decide)).mp
  -- a page is mapped by one entry only
  have hinj : ∀ {i i' j j' pt pt' page}, i.toNat < 768 → i'.toNat < 768 →
      table (m pd i) = some pt → table (m pd i') = some pt' → mapped m pt j = some page →
      mapped m pt' j' = some page → i = i' ∧ j = j' := by
    intro i i' j j' pt pt' page hi hi' ht ht' hj hj'
    obtain ⟨ua, rfl, rfl⟩ := exists_addr i j
    obtain ⟨ua', rfl, rfl⟩ := exists_addr i' j'
    rw [hr.mapped_eq ((isUserVaddr_iff_pdNo ua).mpr hi) ht] at hj
    rw [hr.mapped_eq ((isUserVaddr_iff_pdNo ua').mpr hi') ht'] at hj'
    exact (pgNo_eq_iff ua ua').mp (lastSet_inj hnodup hj hj')
  rw [nodup_flatMap]
  constructor
  · intro i hi
    unfold freedBy
    cases ht : table (m pd i) with
    | none => exact nodup_nil
    | some pt =>
      rw [nodup_append]
      refine ⟨(nodup_indices le_rfl).filterMap fun j j' page hj hj' =>
        (hinj (hlt hi) (hlt hi) ht ht hj hj').2, nodup_singleton pt, ?_⟩
      intro page hpage page' hpage' heq
      obtain ⟨j, -, hj⟩ := mem_filterMap.mp hpage
      obtain rfl := mem_singleton.mp hpage'
      exact ((hr.separate hown (hlt hi)).fresh ht hj).ne_table i (heq ▸ ht)
  · apply (nodup_indices (by decide)).pairwise_of_forall_ne
    intro i hi i' hi' hne page hpage hpage'
    obtain ⟨pt, ht, hp⟩ := mem_freedBy.mp hpage
    obtain ⟨pt', ht', hp'⟩ := mem_freedBy.mp hpage'
    rcases hp with rfl | ⟨j, hj⟩
    · rcases hp' with rfl | ⟨j', hj'⟩
      · exact hne (hr.inv.wf.inj ht ht')
      · exact ((hr.separate hown (hlt hi')).fresh ht' hj').ne_table i ht
    · rcases hp' with rfl | ⟨j', hj'⟩
      · exact ((hr.separate hown (hlt hi)).fresh ht hj).ne_table i' ht'
      · exact hne (hinj (hlt hi) (hlt hi') ht ht' hj hj').1

end Refines

end Histories

/-! ### The main result -/

/-- The directory is mapped as a page of the program. -/
def mapSelf : Op := .setPage 0x08048000 0xc0012000 true (some 0xc0011000)

/-- The memory after that call. -/
def selfMem : Mem :=
  RadixTable.set (RadixTable.set (RadixTable.fill zeroMem 0xc0011000 0) 0xc0012000 (pdNo 0x08048000) 0x11007)
    0xc0011000 (ptNo 0x08048000) 0x12007

theorem step_mapSelf :
    mapSelf.step ⟨0x13, 0xc0010000⟩ zeroMem 0xc0012000 = some (true, selfMem) := by
  simp [mapSelf, Op.step, setPage, lookupPage, isUserVaddr, physBase, pdeCreate, pgOfs, vtop,
    isKernelVaddr, pdeGetPt, pteP, pteU, pteW, ptov, pteAddr, zeroMem, pteCreateUser, pteCreateKernel,
    selfMem]
  decide

end Pintos.Pagedir

import Pintos.Descriptors

/-! # The calls on descriptors

What `SYS_FILESIZE`, `SYS_SEEK`, `SYS_TELL`, `SYS_CLOSE`, `SYS_READDIR`, `SYS_ISDIR` and
`SYS_INUMBER` do with the record that `files_helper` gives them.

* `Table`: the descriptor table with what its records point to.  The record of a directory has a
  null `file`.
* `Table.call`: a call, up to what the file system does behind the pointers.  It fails where an
  `ASSERT` fails or a null pointer is followed.
* **`call_completes_iff`**: which calls complete, in every table that opens and closes make. -/

namespace Pintos.Descriptors

open Function KernelList Links Transition

/-! ### The source -/

/-- The table, whether `f->file` is not null, and whether `f->dirent` is the entry of a
directory. -/
structure Table where
  machine : Machine
  file : ℕ → Bool
  isDir : ℕ → Bool

/-- `SYS_OPEN`, of a directory or of a regular file, and `SYS_CLOSE`.  After it has opened a
directory, `SYS_OPEN` closes the file again and sets `f->file` to null. -/
def Table.step (p : Layout) (t : Table) (e : Event × Bool) : Option Table :=
  (Descriptors.step p t.machine e.1).map fun m =>
    match e.1 with
    | .sysOpen _ f => ⟨m, update t.file f (!e.2), update t.isDir f e.2⟩
    | .sysClose _ => { t with machine := m }

/-- `f->file != NULL`.  If `files_helper` has taken the tail sentinel for a record, the field is
`open_list.head.prev`. -/
def Table.hasFile (p : Layout) (t : Table) (f : ℕ) : Bool :=
  if f = listEntry p.openList.tail then (t.machine.links.prev p.openList.head).isSome else t.file f

/-- `f->dirent != NULL`; at the sentinel the field is `open_list.head.next`. -/
def Table.hasDirent (p : Layout) (t : Table) (f : ℕ) : Bool :=
  if f = listEntry p.openList.tail then (t.machine.links.next p.openList.head).isSome else true

inductive Call
  | filesize
  | seek (position : UInt32)
  | tell
  | close
  | readdir (name : UInt32)
  | isdir
  | inumber

/-- What the file system answers: whether `dir_open` has memory for a directory, and whether
`dir_readdir` finds an entry to copy to the caller. -/
structure Answers where
  memory : Bool
  entry : ℕ → Bool

/-- One of the calls on the descriptor `fd`. -/
def Table.call (p : Layout) (t : Table) (a : Answers) (fd : Int32) (c : Call) :
    Except Stop Table := do
  match c, ← (filesHelper p t.machine (t.machine.infos.length + 2) fd).1 with
  | .readdir name, some f =>
    if !t.hasFile p f && !(t.hasDirent p f && a.memory) then .error .nullPointer
    -- the ASSERT of `strlcpy`
    else if a.entry f && name == 0 then .error .assertion
    else .ok { t with file := update t.file f true }
  | .isdir, some f | .inumber, some f => if t.hasDirent p f then .ok t else .error .nullPointer
  | .readdir _, none | .isdir, none | .inumber, none => .error .nullPointer
  | .filesize, some f | .tell, some f => if t.hasFile p f then .ok t else .error .assertion
  | .seek position, some f =>
    if t.hasFile p f && decide (0 ≤ position.toInt32) then .ok t else .error .assertion
  | .close, some _ => (sysClose p t.machine fd).map fun m => { t with machine := m }
  | .filesize, none | .tell, none | .seek _, none | .close, none =>
    .ok { t with machine := { t.machine with eax := -1 } }

/-! ### The table in every run -/

/-- The records of directories, and no others, have no file. -/
structure TableInv (p : Layout) (t : Table) : Prop where
  inv : Inv p t.machine
  file : ∀ f ∈ t.machine.infos, t.file f = !t.isDir f

variable {p : Layout} {t t' : Table} {fd : Int32}

theorem Inv.ne_sentinel {m : Machine} (h : Inv p m) {f : ℕ} (hf : f ∈ m.infos) :
    f ≠ listEntry p.openList.tail := by
  have hout := h.outside f hf
  unfold infoSize pgSize at hout
  unfold listEntry Layout.openList
  dsimp only
  omega

theorem TableInv.step {e : Event × Bool} (h : TableInv p t) (hs : t.step p e = some t') :
    TableInv p t' := by
  obtain ⟨m, hm, rfl⟩ := Option.map_eq_some_iff.mp hs
  have hinv := h.inv.step hm
  obtain ⟨e, isDir⟩ := e
  cases e with
  | sysOpen nowDir f =>
    refine ⟨hinv, fun g hg => ?_⟩
    rw [Descriptors.step] at hm
    split at hm
    · next hav =>
        obtain ⟨m1, hrun, -, hinfos, -⟩ := h.inv.sysOpen_spec hav
        rw [hrun] at hm
        cases hm
        by_cases hgf : g = f
        · subst hgf
          simp only [update_self]
        · simp only [update_of_ne hgf]
          rw [hinfos, List.mem_append, List.mem_singleton] at hg
          exact h.file g (hg.resolve_right hgf)
    · cases hm
  | sysClose fd =>
    refine ⟨hinv, fun g hg => h.file g ?_⟩
    rw [Descriptors.step] at hm
    by_cases hopen : t.machine.IsOpen fd
    · obtain ⟨f, hf, rfl⟩ := hopen
      obtain ⟨m1, hrun, -, hinfos, -⟩ := h.inv.sysClose_spec hf
      rw [hrun] at hm
      cases hm
      rw [hinfos] at hg
      exact List.mem_of_mem_erase hg
    · rw [h.inv.sysClose_closed hopen] at hm
      split at hm
      · cases hm
      · cases hm
        exact hg

theorem tableInv_run {t0 : Table} {es : List (Event × Bool)} (h0 : t0.machine.Initial p)
    (hrun : run (Table.step p) t0 es = some t) : TableInv p t := by
  have hok : Transition.Meets (Table.step p) (fun _ _ => True) t0 es :=
    meets_of_forall (fun _ _ => trivial) es t0
  refine run_invariant (fun _ _ _ hinv _ hs => hinv.step hs) es ⟨h0.inv, ?_⟩ hok hrun
  intro f hf
  rw [h0.2.2.1] at hf
  cases hf

/-! ### Which calls complete -/

/-- `fd` is open, for a directory or for a regular file. -/
def Table.Opened (t : Table) (fd : Int32) (isDir : Bool) : Prop :=
  ∃ f ∈ t.machine.infos, t.machine.descriptor f = fd ∧ t.isDir f = isDir

/-- `fd` is not open, and `files_helper` takes no record for it. -/
def Table.Unknown (p : Layout) (t : Table) (fd : Int32) : Prop :=
  ¬ t.machine.IsOpen fd ∧ fd ≠ t.machine.ints p.fdCount

/-- `fd` is not open, but it is `fd_count`, which the tail sentinel has for a descriptor. -/
def Table.Sentinel (p : Layout) (t : Table) (fd : Int32) : Prop :=
  ¬ t.machine.IsOpen fd ∧ fd = t.machine.ints p.fdCount

/-- The calls that complete. -/
def Table.Completes (p : Layout) (t : Table) (a : Answers) (fd : Int32) : Call → Prop
  | .filesize | .tell => t.Opened fd false ∨ t.Unknown p fd
  | .seek position => (t.Opened fd false ∧ 0 ≤ position.toInt32) ∨ t.Unknown p fd
  | .close => t.machine.IsOpen fd ∨ t.Unknown p fd
  | .isdir | .inumber => t.machine.IsOpen fd ∨ t.Sentinel p fd
  | .readdir name =>
    (∃ f ∈ t.machine.infos, t.machine.descriptor f = fd ∧ (t.isDir f = true → a.memory = true) ∧
      (a.entry f = true → name ≠ 0)) ∨
    (t.Sentinel p fd ∧ a.memory = true ∧
      (a.entry (listEntry p.openList.tail) = true → name ≠ 0))

theorem ok_of_test {P : Prop} [Decidable P] (s : Stop) :
    (∃ t' : Table, (if P then .ok t else .error s) = Except.ok t') ↔ P := by
  by_cases hP : P <;> simp [hP]

theorem error_of_test {P : Prop} [Decidable P] (s : Stop) :
    (∃ t' : Table, (if P then .error s else .ok t) = Except.ok t') ↔ ¬ P := by
  by_cases hP : P <;> simp [hP]

theorem TableInv.call_open (h : TableInv p t) (a : Answers) (c : Call)
    (hopen : t.machine.IsOpen fd) :
    (∃ t', t.call p a fd c = .ok t') ↔ t.Completes p a fd c := by
  have hnot : ¬ t.Unknown p fd ∧ ¬ t.Sentinel p fd := ⟨fun hu => hu.1 hopen, fun hs => hs.1 hopen⟩
  obtain ⟨f, hf, rfl⟩ := id hopen
  have hfound : (filesHelper p t.machine (t.machine.infos.length + 2) (t.machine.descriptor f)).1 =
      .ok (some f) := by
    rw [(h.inv.exact_of_open (by omega) hopen).1, h.inv.find_eq hf]
  have hfile : t.hasFile p f = !t.isDir f := by
    rw [Table.hasFile, if_neg (h.inv.ne_sentinel hf), h.file f hf]
  have hdirent : t.hasDirent p f = true := if_neg (h.inv.ne_sentinel hf)
  have honly : ∀ {g}, g ∈ t.machine.infos → t.machine.descriptor g = t.machine.descriptor f →
      g = f := fun hg heq => h.inv.descriptor_inj hg hf heq
  have hregular : t.Opened (t.machine.descriptor f) false ↔ t.isDir f = false :=
    ⟨fun ⟨g, hg, heq, hk⟩ => honly hg heq ▸ hk, fun hk => ⟨f, hf, rfl, hk⟩⟩
  unfold Table.call
  rw [hfound, ok_bind]
  cases c with
  | filesize | tell | seek position =>
    simp [hfile, Table.Completes, hregular, hnot.1, ok_of_test]
  | close =>
    obtain ⟨m', hrun, -⟩ := h.inv.sysClose_spec hf
    exact iff_of_true ⟨_, by rw [hrun]; rfl⟩ (.inl hopen)
  | readdir name =>
    have hrecord : (∃ g ∈ t.machine.infos, t.machine.descriptor g = t.machine.descriptor f ∧
        (t.isDir g = true → a.memory = true) ∧ (a.entry g = true → name ≠ 0)) ↔
        (t.isDir f = true → a.memory = true) ∧ (a.entry f = true → name ≠ 0) :=
      ⟨fun ⟨g, hg, heq, hk⟩ => honly hg heq ▸ hk, fun hk => ⟨f, hf, rfl, hk⟩⟩
    simp only [hfile, hdirent, Table.Completes, hrecord, hnot.2, false_and, or_false]
    cases t.isDir f <;> cases a.memory <;> cases a.entry f <;> simp [error_of_test]
  | isdir | inumber => exact iff_of_true ⟨t, if_pos hdirent⟩ (.inl hopen)

theorem TableInv.call_closed (h : TableInv p t) (a : Answers) (c : Call)
    (hclosed : ¬ t.machine.IsOpen fd) :
    (∃ t', t.call p a fd c = .ok t') ↔ t.Completes p a fd c := by
  have hopened : ∀ b, ¬ t.Opened fd b := fun _ ⟨f, hf, heq, _⟩ => hclosed ⟨f, hf, heq⟩
  have hrecord : ∀ P : ℕ → Prop,
      ¬ ∃ f ∈ t.machine.infos, t.machine.descriptor f = fd ∧ P f :=
    fun _ ⟨f, hf, heq, _⟩ => hclosed ⟨f, hf, heq⟩
  have hfile : t.hasFile p (listEntry p.openList.tail) = false := by
    rw [Table.hasFile, if_pos rfl, h.inv.list.head_prev]
    rfl
  have hdirent : t.hasDirent p (listEntry p.openList.tail) = true := by
    rw [Table.hasDirent, if_pos rfl,
      show t.machine.links.next p.openList.head = _ from h.inv.list.listBegin_eq]
    rfl
  unfold Table.call
  rw [h.inv.filesHelper_closed (by omega) hclosed, ok_bind]
  by_cases hfd : t.machine.ints p.fdCount = fd
  · have hunknown : ¬ t.Unknown p fd := fun hu => hu.2 hfd.symm
    have hsentinel : t.Sentinel p fd := ⟨hclosed, hfd.symm⟩
    rw [if_pos hfd]
    cases c with
    | filesize | tell | seek position =>
      simp [hfile, Table.Completes, hopened, hunknown]
    | close =>
      simp [h.inv.sysClose_closed hclosed, hfd, Table.Completes, hclosed, hunknown, Except.map]
    | readdir name =>
      simp only [hfile, hdirent, Table.Completes, hrecord, hsentinel, true_and, false_or]
      cases a.memory <;> cases a.entry (listEntry p.openList.tail) <;> simp [error_of_test]
    | isdir | inumber => exact iff_of_true ⟨t, if_pos hdirent⟩ (.inr hsentinel)
  · have hunknown : t.Unknown p fd := ⟨hclosed, Ne.symm hfd⟩
    have hsentinel : ¬ t.Sentinel p fd := fun hs => hfd hs.2.symm
    rw [if_neg hfd]
    cases c with
    | filesize | tell | seek position | close => exact iff_of_true ⟨_, rfl⟩ (.inr hunknown)
    | readdir name | isdir | inumber =>
      simp [Table.Completes, hrecord, hclosed, hsentinel]

/-- **Which calls complete**, in every table that opens and closes make: on an open descriptor
`SYS_FILESIZE`, `SYS_SEEK` and `SYS_TELL` need a regular file, and `SYS_SEEK` a position that is not
negative; on one that is not open `SYS_READDIR`, `SYS_ISDIR` and `SYS_INUMBER` follow a null
pointer, and the others fail an `ASSERT` if it is `fd_count`. -/
theorem call_completes_iff (p : Layout) (t₀ t : Table) (es : List (Event × Bool))
    (h₀ : t₀.machine.Initial p) (hrun : run (Table.step p) t₀ es = some t)
    (a : Answers) (fd : Int32) (c : Call) :
    (∃ t', t.call p a fd c = .ok t') ↔ t.Completes p a fd c := by
  have h := tableInv_run h₀ hrun
  by_cases hopen : t.machine.IsOpen fd
  · exact h.call_open a c hopen
  · exact h.call_closed a c hopen

/-- A process opens a regular file. -/
theorem call_completes_iff_regular : ∃ t,
    run (Table.step sampleLayout) ⟨sampleMachine, fun _ => false, fun _ => false⟩
      [(.sysOpen 9000 8192, false)] = some t ∧
    ∃ t', t.call sampleLayout ⟨true, fun _ => true⟩ 4 .filesize = .ok t' := by
  have hsome : (run (Table.step sampleLayout)
      ⟨sampleMachine, fun _ => false, fun _ => false⟩ [(.sysOpen 9000 8192, false)]).map
      (fun t => (t.machine.infos, t.machine.descriptor 8192, t.isDir 8192)) =
      some ([8192], 4, false) := by decide +kernel
  obtain ⟨t, hrun, ht⟩ := Option.map_eq_some_iff.mp hsome
  simp only [Prod.mk.injEq] at ht
  refine ⟨t, hrun, (call_completes_iff sampleLayout _ t _ sampleMachine_initial hrun _ 4
    .filesize).mpr (.inl ⟨8192, ?_, ht.2⟩)⟩
  rw [ht.1]
  exact List.mem_singleton_self _

/-- It opens a directory and asks for its size; and it asks for the kind of a descriptor that is
not open. -/
theorem not_call_completes :
    ((run (Table.step sampleLayout)
      ⟨sampleMachine, fun _ => false, fun _ => false⟩ [(.sysOpen 9000 8192, true)]).map
      fun t => ((t.call sampleLayout ⟨true, fun _ => true⟩ 4 .filesize).toOption.isSome,
        (t.call sampleLayout ⟨true, fun _ => true⟩ 7 .isdir).toOption.isSome)) =
      some (false, false) := by
  decide +kernel

end Pintos.Descriptors

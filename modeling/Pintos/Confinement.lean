import Pintos.UserMemory

/-! # Confinement to user memory

* `UsesBadByte`: a byte of the argument words that a system call uses, of its path or of its buffer
  is not a mapped byte below `PHYS_BASE`.
* `Accepts`: the arguments for which a system call checks enough.
* **`confined_iff`**: `syscall_handler` is confined exactly for these. -/

namespace Pintos.UserMemory

open Pintos.Pagedir

variable {s : Space} {ans : Answers} {r : Ram} {args : Addr} {bad : Prop}

theorem confined_congr {α : Type} {x : Call α} {bad' : Prop} (h : bad ↔ bad') :
    Confined s x r bad ↔ Confined s x r bad' := by
  rw [propext h]

/-! ### Paths and buffers -/

theorem confined_readString (n : ℕ) (p : Addr) :
    Confined s (readString s n p) r bad ↔ PrefixOk s r n p ∧ ¬ bad := by
  rw [← bind_pure (readString s n p), confined_readString_bind, confined_pure]

variable {p : Addr}

theorem confined_followPath (h : ¬ bad → StringOk s r p) :
    Confined s (followPath s ans p) r bad ↔ ¬ bad := by
  unfold followPath
  rw [confined_assertNotNull_bind, confined_readString]
  split
  · rfl
  · exact and_iff_right_of_imp fun hb => (h hb).prefixOk _

theorem confined_handleExec (h : ¬ bad → StringOk s r p) :
    Confined s (handleExec s p) r bad ↔ ¬ bad := by
  unfold handleExec
  split
  · exact confined_pure ()
  · rw [confined_assertNotNull_bind, confined_readString]
    split
    · rfl
    · exact and_iff_right_of_imp fun hb => (h hb).prefixOk _

theorem confined_isEmptyString_bind {β : Type} (hp : p ≠ 0) (f : Bool → Call β) :
    Confined s (isEmptyString s p >>= f) r bad ↔
      s.UserByte p ∧ Confined s (f (decide (s.byte r p = 0))) r bad := by
  unfold isEmptyString
  rw [bind_assoc, confined_assertNotNull_bind, if_neg hp, bind_assoc, confined_load_bind, pure_bind]

/-- `args[1] == NULL || !strcmp (args[1], "")`, and the path used otherwise. -/
theorem confined_unlessEmpty (h : ¬ bad → StringOk s r p) :
    Confined s (if p = 0 then pure () else do
      let empty ← isEmptyString s p
      (if empty then pure () else followPath s ans p)) r bad ↔ ¬ bad := by
  split
  · exact confined_pure ()
  · next hp =>
      rw [confined_isEmptyString_bind hp]
      by_cases hb : s.byte r p = 0
      · rw [if_pos (decide_eq_true hb), confined_pure]
        exact and_iff_right_of_imp fun hbad => (h hbad).userByte
      · rw [if_neg (fun hd => hb (of_decide_eq_true hd)), confined_followPath h]
        exact and_iff_right_of_imp fun hbad => (h hbad).userByte

variable {fd buffer length : Word} {f : Word → Call Unit}

theorem confined_read (h : ¬ bad → BufferOk s buffer length.toNat) :
    Confined s (read s ans fd buffer length) r bad ↔
      ¬ isUserVaddr buffer ∨ buffer = 0 ∨ ¬ bad := by
  unfold read
  split
  · next hc =>
      rw [confined_terminate]
      exact iff_of_true trivial (hc.imp_right .inl)
  · next hc =>
      have hleaf : ¬ isUserVaddr buffer ∨ buffer = 0 ∨ ¬ bad ↔ ¬ bad := by tauto
      rw [hleaf]
      cases ans.filesHelper fd with
      | none => exact confined_pure ()
      | some t =>
        cases t with
        | isDir => exact confined_pure ()
        | isReg =>
          rw [confined_storeRange]
          exact and_iff_right_of_imp fun hb => (h hb).mono (min_le_right _ _)

theorem confined_requirePage_leaf {f : Unit → Call Unit}
    (h : s.UserByte p → (Confined s (f ()) r bad ↔ ¬ bad)) :
    Confined s (requirePage s p >>= f) r bad ↔ s.Unmapped p ∨ ¬ bad := by
  rw [confined_requirePage_bind]
  by_cases hu : isUserVaddr p
  · cases Space.userByte_or_unmapped (s := s) hu with
    | inl hb =>
      tauto
    | inr hm => exact iff_of_true (.inl hm) (.inl hm)
  · tauto

theorem confined_write (h : ¬ bad → BufferOk s buffer length.toNat) :
    Confined s (write s ans fd buffer length) r bad ↔
      (fd ≠ 1 ∧ s.Unmapped buffer) ∨ ¬ bad := by
  unfold write
  split
  · next hfd =>
      rw [confined_loadRange, and_iff_right_of_imp h]
      tauto
  · next hfd =>
      rw [confined_requirePage_leaf, and_iff_right hfd]
      intro _
      cases ans.filesHelper fd with
      | none => exact confined_pure ()
      | some t =>
        cases t with
        | isDir => exact confined_pure ()
        | isReg =>
          rw [confined_loadRange]
          exact and_iff_right_of_imp fun hb => (h hb).mono (min_le_right _ _)

/-! ### The keyboard -/

/-- The memory after the first `n` typed bytes have been stored. -/
def typed (s : Space) (ans : Answers) (buffer : Addr) (r : Ram) : ℕ → Ram
  | 0 => r
  | n + 1 => s.put (typed s ans buffer r n) (buffer + BitVec.ofNat 32 n) (ans.inputGetc n)

/-- The bytes up to number `i` are typed: no line ends before, and the length word, which the
bytes before may have overwritten, lets every one of them in. -/
def Types (s : Space) (ans : Answers) (r : Ram) (args buffer : Addr) (i : ℕ) : Prop :=
  ∀ j ≤ i, j < (s.word (typed s ans buffer r j) (args + 12)).toNat ∧
    (j < i → ans.inputGetc j ≠ 0x0a#8)

theorem confined_readKeys (ans : Answers) (r : Ram) (buffer : Addr) (bad : Prop)
    (hw : WordOk s (args + 12)) (n i : ℕ)
    (hi : ∀ j < i, j < (s.word (typed s ans buffer r j) (args + 12)).toNat ∧
      ans.inputGetc j ≠ 0x0a#8) :
    Confined s (readKeys s ans args buffer n i) (typed s ans buffer r i) bad ↔
      (∀ k, i ≤ k → k < i + n → Types s ans r args buffer k →
        s.UserByte (buffer + BitVec.ofNat 32 k)) ∧ ¬ bad := by
  induction n generalizing i with
  | zero =>
    rw [readKeys, confined_pure]
    exact (and_iff_right fun k hk hlt => absurd hlt (by omega)).symm
  | succ n ih =>
    rw [readKeys, confined_loadWord_bind, and_iff_right hw]
    by_cases hlen : i < (s.word (typed s ans buffer r i) (args + 12)).toNat
    · rw [if_pos hlen, confined_store_bind, confined_load_bind]
      have htypes : Types s ans r args buffer i := by
        intro j hj
        cases Nat.lt_or_eq_of_le hj with
        | inl hlt => exact ⟨(hi j hlt).1, fun _ => (hi j hlt).2⟩
        | inr heq => exact ⟨heq ▸ hlen, fun hlt => absurd hlt (by omega)⟩
      by_cases hbyte : s.UserByte (buffer + BitVec.ofNat 32 i)
      · rw [and_iff_right hbyte, and_iff_right hbyte, Space.byte_put hbyte]
        by_cases hnl : ans.inputGetc i = 0x0a#8
        · rw [if_pos hnl, confined_pure]
          refine (and_iff_right fun k hk _ hk' => ?_).symm
          cases Nat.lt_or_eq_of_le hk with
          | inl hlt => exact absurd hnl ((hk' i hk).2 hlt)
          | inr heq => exact heq ▸ hbyte
        · have hi' : ∀ j < i + 1, j < (s.word (typed s ans buffer r j) (args + 12)).toNat ∧
              ans.inputGetc j ≠ 0x0a#8 := by
            intro j hj
            cases Nat.lt_or_eq_of_le (Nat.le_of_lt_succ hj) with
            | inl hlt => exact hi j hlt
            | inr heq => exact heq ▸ ⟨hlen, hnl⟩
          rw [if_neg hnl]
          refine (ih (i + 1) hi').trans (and_congr_left fun _ => ⟨fun h k hk hlt hk' => ?_,
            fun h k hk hlt => h k (by omega) (by omega)⟩)
          cases Nat.lt_or_eq_of_le hk with
          | inl hlt' => exact h k hlt' (by omega) hk'
          | inr heq => exact heq ▸ hbyte
      · exact iff_of_false (fun h => hbyte h.1)
          fun h => hbyte (h.1 i le_rfl (by omega) htypes)
    · rw [if_neg hlen, confined_pure]
      refine (and_iff_right fun k hk _ htypes => ?_).symm
      exact absurd (htypes i hk).1 hlen

/-! ### The arguments of a system call -/

/-- A byte of the argument words that the system call uses, of its path, or of its buffer is not
a mapped byte below `PHYS_BASE`.  `SYS_CREATE` uses its second word if it finds the path,
`SYS_SEEK` if the descriptor is open. -/
def UsesBadByte (s : Space) (ans : Answers) (r : Ram) (args : Addr) : Nr → Prop
  | .sysHalt | .sysBufferReadcnt | .sysBufferWritecnt => False
  | .sysExec | .sysRemove | .sysOpen | .sysChdir | .sysMkdir =>
    ¬ WordOk s (args + 4) ∨ ¬ StringOk s r (s.word r (args + 4))
  | .sysCreate =>
    ¬ WordOk s (args + 4) ∨ ¬ StringOk s r (s.word r (args + 4)) ∨
      (ans.findPath = true ∧ s.byte r (s.word r (args + 4)) ≠ 0 ∧ ¬ WordOk s (args + 8))
  | .sysRead | .sysWrite =>
    ¬ WordOk s (args + 4) ∨ ¬ WordOk s (args + 8) ∨ ¬ WordOk s (args + 12) ∨
      ¬ BufferOk s (s.word r (args + 8)) (s.word r (args + 12)).toNat
  | .sysReaddir =>
    ¬ WordOk s (args + 4) ∨ ¬ WordOk s (args + 8) ∨ ¬ BufferOk s (s.word r (args + 8)) 15
  | .sysSeek =>
    ¬ WordOk s (args + 4) ∨
      (ans.filesHelper (s.word r (args + 4)) ≠ none ∧ ¬ WordOk s (args + 8))
  | _ => ¬ WordOk s (args + 4)

/-- The arguments for which the system call checks enough: every word it uses is there, and its
path or buffer is there as well, or fails one of the checks that are made. -/
def Accepts (s : Space) (ans : Answers) (r : Ram) (args : Addr) : Nr → Prop
  | .sysHalt | .sysBufferReadcnt | .sysBufferWritecnt => True
  | .sysExec =>
    WordOk s (args + 4) ∧
      (s.Unmapped (s.word r (args + 4)) ∨ StringOk s r (s.word r (args + 4)))
  | .sysRemove | .sysChdir | .sysMkdir =>
    WordOk s (args + 4) ∧ StringOk s r (s.word r (args + 4))
  | .sysOpen =>
    WordOk s (args + 4) ∧
      (¬ isUserVaddr (s.word r (args + 4)) ∨ s.Unmapped (s.word r (args + 4)) ∨
        StringOk s r (s.word r (args + 4)))
  | .sysCreate =>
    WordOk s (args + 4) ∧
      (s.word r (args + 4) = 0 ∨ s.Unmapped (s.word r (args + 4)) ∨
        (StringOk s r (s.word r (args + 4)) ∧
          (ans.findPath = true → s.byte r (s.word r (args + 4)) ≠ 0 → WordOk s (args + 8))))
  | .sysRead =>
    WordOk s (args + 4) ∧ WordOk s (args + 8) ∧ WordOk s (args + 12) ∧
      if s.word r (args + 4) = 0 then
        BufferOk s (s.word r (args + 8)) (s.word r (args + 12)).toNat ∧
          ∀ i, Types s ans r args (s.word r (args + 8)) i →
            s.UserByte (s.word r (args + 8) + BitVec.ofNat 32 i)
      else ¬ isUserVaddr (s.word r (args + 8)) ∨ s.word r (args + 8) = 0 ∨
        BufferOk s (s.word r (args + 8)) (s.word r (args + 12)).toNat
  | .sysWrite =>
    WordOk s (args + 4) ∧ WordOk s (args + 8) ∧ WordOk s (args + 12) ∧
      ((s.word r (args + 4) ≠ 1 ∧ s.Unmapped (s.word r (args + 8))) ∨
        BufferOk s (s.word r (args + 8)) (s.word r (args + 12)).toNat)
  | .sysReaddir =>
    WordOk s (args + 4) ∧ WordOk s (args + 8) ∧ BufferOk s (s.word r (args + 8)) 15
  | .sysSeek =>
    WordOk s (args + 4) ∧
      (ans.filesHelper (s.word r (args + 4)) ≠ none → WordOk s (args + 8))
  | _ => WordOk s (args + 4)

theorem quiet_pure (a : Unit) : Quiet s (pure a) r := fun _ hva => absurd hva List.not_mem_nil

theorem quiet_stop (e : Stop) : Quiet s (Call.stop e : Call Unit) r :=
  fun _ hva => absurd hva List.not_mem_nil

theorem confined_oneWord (hf : ∀ w, Quiet s (f w) r) :
    Confined s (loadWord s (args + 4) >>= f) r (¬ WordOk s (args + 4)) ↔ WordOk s (args + 4) := by
  rw [confined_loadWord_bind]
  exact and_iff_left_of_imp fun hw => ⟨hf _, fun hb => absurd hw hb⟩

theorem confined_onePath (ok : Word → Prop)
    (hf : ∀ w, Confined s (f w) r (¬ StringOk s r w) ↔ ok w) :
    Confined s (loadWord s (args + 4) >>= f) r
        (¬ WordOk s (args + 4) ∨ ¬ StringOk s r (s.word r (args + 4))) ↔
      WordOk s (args + 4) ∧ ok (s.word r (args + 4)) := by
  rw [confined_loadWord_bind]
  refine and_congr_right fun hw => ?_
  rw [← hf]
  exact confined_congr (or_iff_right (not_not.mpr hw))

theorem confined_sizeWord (h : ¬ bad → ans.findPath = true → WordOk s (args + 8)) :
    Confined s (if ans.findPath = true then do
      let _ ← loadWord s (args + 8)
      return
    else pure ()) r bad ↔ ¬ bad := by
  split
  · next hf =>
      rw [confined_loadWord_bind, confined_pure]
      exact and_iff_right_of_imp fun hb => h hb hf
  · exact confined_pure ()

theorem confined_create :
    Confined s (dispatch s ans args .sysCreate) r (UsesBadByte s ans r args .sysCreate) ↔
      Accepts s ans r args .sysCreate := by
  rw [dispatch, confined_loadWord_bind]
  refine and_congr_right fun hw => ?_
  rw [UsesBadByte, confined_congr (or_iff_right (not_not.mpr hw))]
  generalize s.word r (args + 4) = p
  split
  · next hp =>
      rw [confined_terminate]
      exact iff_of_true trivial (.inl hp)
  · next hp =>
      rw [or_iff_right hp, confined_requirePage_leaf]
      · tauto
      · intro hbyte
        rw [confined_isEmptyString_bind hp, and_iff_right hbyte]
        by_cases hb : s.byte r p = 0
        · rw [if_pos (decide_eq_true hb), confined_pure]
        · rw [if_neg (fun hd => hb (of_decide_eq_true hd)), followPath, bind_assoc,
            confined_assertNotNull_bind, if_neg hp, confined_readString_bind]
          rw [confined_sizeWord fun hbad hf => by tauto]
          exact and_iff_right_of_imp fun hbad => StringOk.prefixOk (by tauto) _

theorem confined_sysRead :
    Confined s (dispatch s ans args .sysRead) r (UsesBadByte s ans r args .sysRead) ↔
      Accepts s ans r args .sysRead := by
  rw [dispatch]
  simp only [confined_loadWord_bind]
  refine and_congr_right fun hw1 => and_congr_right fun hw2 => and_congr_right fun hw3 => ?_
  have hbad : UsesBadByte s ans r args .sysRead ↔
      ¬ BufferOk s (s.word r (args + 8)) (s.word r (args + 12)).toNat := by
    simp only [UsesBadByte, hw1, hw2, hw3, not_true, false_or]
  rw [confined_congr hbad]
  split
  · have hkeys := confined_readKeys ans r (s.word r (args + 8))
      (¬ BufferOk s (s.word r (args + 8)) (s.word r (args + 12)).toNat) hw3 (2 ^ 32) 0
      (fun j hj => absurd hj (Nat.not_lt_zero j))
    refine hkeys.trans ?_
    rw [not_not, and_comm]
    refine and_congr_right fun _ => ⟨fun h i hi => ?_, fun h k _ _ hk => h k hk⟩
    have hlt := (hi i le_rfl).1
    exact h i (Nat.zero_le i) (by omega) hi
  · rw [confined_read fun hb => not_not.mp hb, not_not]

theorem confined_sysWrite :
    Confined s (dispatch s ans args .sysWrite) r (UsesBadByte s ans r args .sysWrite) ↔
      Accepts s ans r args .sysWrite := by
  rw [dispatch]
  simp only [confined_loadWord_bind]
  refine and_congr_right fun hw1 => and_congr_right fun hw2 => and_congr_right fun hw3 => ?_
  have hbad : UsesBadByte s ans r args .sysWrite ↔
      ¬ BufferOk s (s.word r (args + 8)) (s.word r (args + 12)).toNat := by
    simp only [UsesBadByte, hw1, hw2, hw3, not_true, false_or]
  rw [confined_congr hbad, confined_write fun hb => not_not.mp hb, not_not]

theorem confined_readdir :
    Confined s (dispatch s ans args .sysReaddir) r (UsesBadByte s ans r args .sysReaddir) ↔
      Accepts s ans r args .sysReaddir := by
  rw [dispatch]
  simp only [confined_loadWord_bind]
  refine and_congr_right fun hw1 => and_congr_right fun hw2 => ?_
  have hbad : UsesBadByte s ans r args .sysReaddir ↔ ¬ BufferOk s (s.word r (args + 8)) 15 := by
    simp only [UsesBadByte, hw1, hw2, not_true, false_or]
  rw [confined_congr hbad]
  cases ans.filesHelper (s.word r (args + 4)) with
  | none =>
    rw [confined_stop]
    simp
  | some t =>
    cases ans.readdirName with
    | none => rw [confined_pure, not_not]
    | some name =>
      simp only [copyName]
      rw [confined_assertNotNull_bind, confined_storeRange, not_not]
      split
      · rfl
      · exact and_iff_right_of_imp fun hb => hb.mono (by omega)

theorem confined_seek :
    Confined s (dispatch s ans args .sysSeek) r (UsesBadByte s ans r args .sysSeek) ↔
      Accepts s ans r args .sysSeek := by
  rw [dispatch, confined_loadWord_bind]
  refine and_congr_right fun hw => ?_
  rw [UsesBadByte, confined_congr (or_iff_right (not_not.mpr hw))]
  split
  · next hf =>
      rw [confined_pure]
      tauto
  · next hf =>
      rw [confined_loadWord_bind, confined_pure]
      tauto

theorem confined_dispatch (nr : Nr) :
    Confined s (dispatch s ans args nr) r (UsesBadByte s ans r args nr) ↔
      Accepts s ans r args nr := by
  cases nr with
  | sysHalt => exact (confined_stop _).trans ⟨fun _ => trivial, fun _ h => absurd h id⟩
  | sysBufferReadcnt | sysBufferWritecnt =>
    exact (confined_pure _).trans ⟨fun _ => trivial, fun _ => id⟩
  | sysExec =>
    refine confined_onePath (fun p => s.Unmapped p ∨ StringOk s r p) fun p => ?_
    rw [confined_requirePage_leaf fun _ => confined_handleExec fun h => not_not.mp h, not_not]
  | sysRemove =>
    refine confined_onePath (StringOk s r) fun p => ?_
    rw [confined_followPath fun h => not_not.mp h, not_not]
  | sysChdir | sysMkdir =>
    refine confined_onePath (StringOk s r) fun p => ?_
    rw [confined_unlessEmpty fun h => not_not.mp h, not_not]
  | sysOpen =>
    refine confined_onePath
      (fun p => ¬ isUserVaddr p ∨ s.Unmapped p ∨ StringOk s r p) fun p => ?_
    split
    · next hu =>
        rw [confined_terminate]
        exact iff_of_true trivial (.inl hu)
    · next hu =>
        rw [confined_requirePage_leaf fun _ => confined_unlessEmpty fun h => not_not.mp h, not_not,
          or_iff_right hu]
  | sysCreate => exact confined_create
  | sysRead => exact confined_sysRead
  | sysWrite => exact confined_sysWrite
  | sysReaddir => exact confined_readdir
  | sysSeek => exact confined_seek
  | sysExit => exact confined_oneWord fun _ => quiet_stop _
  | sysIsdir | sysInumber =>
    apply confined_oneWord
    intro w
    split
    · exact quiet_stop _
    · exact quiet_pure _
  | sysWait | sysPractice | sysFilesize | sysTell | sysClose | sysMmap | sysMunmap | unknown =>
    exact confined_oneWord fun _ => quiet_pure _

/-- The bytes that a system call may not touch show in what it uses: the word at the stack
pointer, its number, or what the number asks for. -/
def BadCall (s : Space) (ans : Answers) (r : Ram) (esp : Addr) : Prop :=
  ¬ WordOk s esp ∨ UsesBadByte s ans r esp (Nr.ofWord (s.word r esp))

/-- **Confinement to user memory.**  `syscall_handler` touches mapped bytes below `PHYS_BASE` only,
and terminates the process with status -1 if its arguments use another byte, exactly if the first
checks of the stack pointer end the process, or if the word there can be read and the system call
checks enough of its arguments. -/
theorem confined_iff (s : Space) (ans : Answers) (r : Ram) (esp : Addr) :
    Confined s (syscallHandler s ans esp) r (BadCall s ans r esp) ↔
      esp ≤ 0x08048000#32 ∨ Pagedir.physBase ≤ esp + 4 ∨ s.Unmapped esp ∨
        (WordOk s esp ∧ Accepts s ans r esp (Nr.ofWord (s.word r esp))) := by
  unfold syscallHandler
  split
  · next hc =>
      rw [confined_terminate]
      exact iff_of_true trivial (hc.imp_right .inl)
  · next hc =>
      rw [← or_assoc, or_iff_right hc, confined_requirePage_bind, confined_loadWord_bind]
      have hbyte : WordOk s esp → s.UserByte esp := fun hw => hw.1
      have hbad : WordOk s esp → (BadCall s ans r esp ↔
          UsesBadByte s ans r esp (Nr.ofWord (s.word r esp))) :=
        fun hw => or_iff_right (not_not.mpr hw)
      have hkernel : ¬ isUserVaddr esp → BadCall s ans r esp := fun hu => .inl fun hw => hu hw.1.1
      refine or_congr_right ⟨?_, fun h => .inl ⟨hbyte h.1, h.1, ?_⟩⟩
      · intro h
        cases h with
        | inl h => exact ⟨h.2.1, confined_dispatch _ |>.mp ((confined_congr (hbad h.2.1)).mp h.2.2)⟩
        | inr h => exact absurd (hkernel h.1) h.2
      · exact (confined_congr (hbad h.1)).mpr ((confined_dispatch _).mpr h.2)

/-! ### A kernel byte on the console -/

/-- Answers of a kernel in which nothing is open. -/
def noAnswers : Answers := ⟨fun _ => none, 0, false, 0, fun _ => 0, fun _ => 0, none⟩

/-- Memory with the words `SYS_WRITE`, 1, `PHYS_BASE` and 1 at offset 0x100 of the page. -/
def writeArgs : Ram := fun k =>
  if k = 0xc0001100#32 then 9 else if k = 0xc0001104#32 then 1
  else if k = 0xc000110b#32 then 0xc0 else if k = 0xc000110c#32 then 1 else 0

/-- A process with one page, and a kernel that has memory behind every address. -/
def onePage : Space :=
  ⟨Dir.ofRefines (Runs.refines (kernelDir_zeroMem (by decide)) runs_mapFirst), fun _ => true⟩

/-- `write (1, PHYS_BASE, 1)` prints a byte of the kernel, and the process goes on. -/
theorem write_kernelByte :
    Pagedir.physBase ∈ (syscallHandler onePage noAnswers 0x08048100 writeArgs).touched ∧
      (syscallHandler onePage noAnswers 0x08048100 writeArgs).result = .ok () ∧
      ¬ Confined onePage (syscallHandler onePage noAnswers 0x08048100) writeArgs
        (BadCall onePage noAnswers writeArgs 0x08048100) := by
  have hmem : Pagedir.physBase ∈ (syscallHandler onePage noAnswers 0x08048100 writeArgs).touched := by
    decide
  refine ⟨hmem, ?_, fun h => ?_⟩
  · rfl
  · exact absurd (h.1 Pagedir.physBase hmem).1 (by decide)

end Pintos.UserMemory

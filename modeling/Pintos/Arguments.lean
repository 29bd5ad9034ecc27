import Pintos.Endian
import Pintos.Fields
import Pintos.Words

/-! # Passing arguments

The parts of `load` (`userprog/process.c`) that copy the command line to `argument_maxlength`, cut it
into tokens with `strtok_r` and lay the arguments out on the user stack.

* **Arrays.**  What is written or read outside of `argument_maxlength`, `argument_address` or the
  stack page is a fault.
* `Holds`: the stack from `esp` up, as one list of bytes; what is pushed comes in front of it.
* **`load_arguments`**: what a program finds on its stack; **`load_confined_iff`**: for which command
  lines the copies stay inside their arrays. -/

namespace Pintos.Arguments

open Fields List

/-! ### The source -/

/-- A string without its terminator. -/
abbrev Text := List UInt8

inductive Fault
  | outOfBounds
  -- `ASSERT (name != NULL)` of `dir_lookup`
  | nullName

/-- `strtok_r (s, " ", &save_ptr)`: the token, and the string at `save_ptr`. -/
def strtokR (s : Text) : Option (Text × Text) :=
  match s.dropWhile (· == 32) with
  | [] => none
  | c :: s => some ((c :: s).takeWhile (· != 32), ((c :: s).dropWhile (· != 32)).drop 1)

variable {cmd token rest high : Text} {a w : ℕ}

theorem strtokR_length {s : Text} (h : strtokR s = some (token, rest)) :
    rest.length < s.length := by
  have hle := (s.dropWhile_suffix (· == 32)).length_le
  unfold strtokR at h
  split at h
  · cases h
  · next c u hs =>
      cases h
      have hle' := ((c :: u).dropWhile_suffix (· != 32)).length_le
      rw [hs, length_cons] at hle
      rw [length_cons] at hle'
      rw [length_drop]
      omega

/-- The tokens of a string, by calls of `strtok_r` until it returns null. -/
def tokens (s : Text) : List Text :=
  match _h : strtokR s with
  | none => []
  | some (token, rest) => token :: tokens rest
termination_by s.length
decreasing_by exact strtokR_length _h

/-- `argument_maxlength` after the `memset` and the `memcpy` of the string. -/
def argumentMaxlength (fileName : Text) : Except Fault Text :=
  if fileName.length ≤ 100 then .ok (fileName ++ replicate (100 - fileName.length) 0)
  else .error .outOfBounds

/-- The string in an array. -/
def cString (a : Text) : Except Fault Text :=
  if 0 ∈ a then .ok (a.takeWhile (· != 0)) else .error .outOfBounds

def physBase : ℕ := 0xc0000000

/-- The user's memory, `*esp`, and the elements of `argument_address` that are set. -/
structure Stack where
  mem : ℕ → UInt8
  esp : ℕ
  addresses : List ℕ

/-- `*esp` is decreased and the bytes are copied there. -/
def Stack.push (s : Stack) (bytes : Text) : Except Fault Stack :=
  if physBase - 4096 + bytes.length ≤ s.esp then
    .ok { s with mem := put s.mem (s.esp - bytes.length) bytes, esp := s.esp - bytes.length }
  else .error .outOfBounds

/-- `*esp -= 4;` -/
def Stack.skip (s : Stack) : Stack := { s with esp := s.esp - 4 }

def wordBytes (w : ℕ) : Text := (finRange 4).map (Endian.byteOf (UInt32.ofNat w))

/-- One round of the loop over the tokens. -/
def Stack.pushToken (s : Stack) (token : Text) : Except Fault Stack :=
  if s.addresses.length < 20 then
    (s.push (token ++ [0])).map fun s => { s with addresses := s.addresses ++ [s.esp] }
  else .error .outOfBounds

def setupArguments (tokens : List Text) (s : Stack) : Except Fault Stack := do
  let s ← tokens.foldlM Stack.pushToken s
  let s ← s.addresses.reverse.foldlM (fun s a => s.push (wordBytes a)) s.skip
  let s ← s.push (wordBytes s.esp)
  let s ← s.push (wordBytes s.addresses.length)
  return s.skip

/-- `load`; `none` is false.  `ready` says whether the page directory, the executable, its segments
and the page of the stack, which is cleared, could be set up. -/
def load (ready : Bool) (fileName : Text) : Except Fault (Option Stack) := do
  let a ← argumentMaxlength fileName
  if ready then
    -- `filesys_open (token_filename)`
    if strtokR fileName = none then .error .nullName
    else do
      let s ← setupArguments (tokens (← cString a)) ⟨fun _ => 0, physBase, []⟩
      return some s
  else return none

/-- The command line of `process_execute` gets to `load` in a page. -/
def processExecute (ready : Bool) (fileName : Text) : Except Fault (Option Stack) :=
  load ready (fileName.take 4095)

/-! ### Tokens -/

/-- The maximal substrings without spaces. -/
def words (s : Text) : List Text := (s.splitOn 32).filter (· ≠ [])

/-- `strtok_r` finds the first word, and the other words are behind it. -/
theorem strtokR_cases (s : Text) : (strtokR s = none ∧ words s = []) ∨
    ∃ token rest, strtokR s = some (token, rest) ∧ words s = token :: words rest ∧
      (token.length + 1 + rest.length ≤ s.length ∨ rest = [] ∧ token.length ≤ s.length) := by
  have hle := (s.dropWhile_suffix (· == 32)).length_le
  unfold strtokR
  rcases Words.split (· == 32) s with ⟨hnil, hwords⟩ | ⟨w, l, hdrop, hne, -, hl, htoken, hrest, hwords⟩
  · exact .inl ⟨by rw [hnil], hwords⟩
  obtain ⟨c, u, rfl⟩ := exists_cons_of_ne_nil hne
  have htoken : (c :: u ++ l).takeWhile (· != 32) = c :: u := htoken
  have hrest : (c :: u ++ l).dropWhile (· != 32) = l := hrest
  refine .inr ⟨c :: u, l.drop 1, ?_, ?_⟩
  · rw [hdrop]
    change some ((c :: u ++ l).takeWhile (· != 32), ((c :: u ++ l).dropWhile (· != 32)).drop 1) = _
    rw [htoken, hrest]
  rw [hdrop, length_append] at hle
  cases l with
  | nil => exact ⟨hwords, .inr ⟨rfl, by simpa using hle⟩⟩
  | cons x l =>
    refine ⟨hwords.trans (congrArg _ (Words.words_cons (p := (· == 32)) (hl x rfl) l)), .inl ?_⟩
    rw [drop_one, tail_cons]
    simp only [length_cons] at hle ⊢
    omega

theorem strtokR_spec {s : Text} (h : strtokR s = some (token, rest)) :
    words s = token :: words rest ∧
      (token.length + 1 + rest.length ≤ s.length ∨ rest = [] ∧ token.length ≤ s.length) := by
  rcases strtokR_cases s with ⟨h', -⟩ | ⟨token', rest', h', hspec⟩
  · cases h.symm.trans h'
  · cases h.symm.trans h'
    exact hspec

theorem strtokR_eq_none_iff (s : Text) : strtokR s = none ↔ words s = [] := by
  rcases strtokR_cases s with ⟨h, hwords⟩ | ⟨token, rest, h, hwords, -⟩ <;> simp [h, hwords]

theorem tokens_eq_words (s : Text) : tokens s = words s := by
  induction s using tokens.induct with
  | case1 s h =>
    rw [tokens, h, (strtokR_eq_none_iff s).mp h]
  | case2 s token rest h ih =>
    rw [tokens, h, (strtokR_spec h).1, ← ih]

/-- The tokens with their terminators take no more room than the string with its own. -/
theorem length_words_le (s : Text) : ((words s).map fun t => t.length + 1).sum ≤ s.length + 1 := by
  rw [← tokens_eq_words]
  induction s using tokens.induct with
  | case1 s h =>
    rw [tokens, h]
    exact Nat.zero_le _
  | case2 s token rest h ih =>
    rw [tokens, h, map_cons, sum_cons]
    rcases (strtokR_spec h).2 with hlen | ⟨rfl, hlen⟩
    · omega
    · rw [show tokens [] = [] from tokens_eq_words []]
      exact Nat.succ_le_succ hlen

/-! ### The stack -/

/-- The stack holds `block` from `esp` up to `PHYS_BASE`, and zeros below. -/
structure Holds (s : Stack) (block : Text) : Prop where
  top : s.esp + block.length = physBase
  bytes : slice s.mem s.esp block.length = block
  clear : ∀ k < s.esp, s.mem k = 0

theorem length_wordBytes (w : ℕ) : (wordBytes w).length = 4 := rfl

theorem length_flatMap_wordBytes (ws : List ℕ) : (ws.flatMap wordBytes).length = 4 * ws.length := by
  simp [length_flatMap, length_wordBytes, Nat.mul_comm]

section Stack

variable {s : Stack} {block : Text}

theorem Holds.push (h : Holds s block) (bytes : Text) (hroom : bytes.length + block.length ≤ 4096) :
    ∃ s', s.push bytes = .ok s' ∧ Holds s' (bytes ++ block) ∧ s'.addresses = s.addresses ∧
      s'.esp = s.esp - bytes.length := by
  have htop := h.top
  unfold physBase at htop
  refine ⟨_, if_pos (by unfold physBase; omega), ⟨?_, ?_, fun k hk => ?_⟩, rfl, rfl⟩
  · rw [length_append]
    unfold physBase
    dsimp only
    omega
  · rw [length_append, slice_append, slice_put, Nat.sub_add_cancel (by omega),
      slice_put_of_disjoint (.inr (by omega)), h.bytes]
  · dsimp only at hk ⊢
    rw [put_of_lt hk]
    exact h.clear k (by omega)

theorem Holds.skip (h : Holds s block) (hroom : block.length ≤ 4096) :
    Holds s.skip (replicate 4 0 ++ block) := by
  have htop := h.top
  unfold physBase at htop
  refine ⟨?_, ?_, fun k hk => h.clear k (by unfold Stack.skip at hk; dsimp only at hk; omega)⟩
  · rw [length_append, length_replicate]
    unfold Stack.skip physBase
    dsimp only
    omega
  · rw [length_append, length_replicate, slice_append]
    unfold Stack.skip
    dsimp only
    rw [Nat.sub_add_cancel (by omega), h.bytes, append_cancel_right_eq, eq_replicate_iff]
    refine ⟨length_slice .., fun b hb => ?_⟩
    obtain ⟨i, hi, rfl⟩ := mem_map.mp hb
    exact h.clear _ (by have := mem_range.mp hi; omega)

/-- The strings of the arguments, the first one on top. -/
def strings : List Text → Text
  | [] => []
  | t :: ts => strings ts ++ (t ++ [0])

/-- Their addresses. -/
def addressesFrom (esp : ℕ) : List Text → List ℕ
  | [] => []
  | t :: ts => (esp - (t ++ [0]).length) :: addressesFrom (esp - (t ++ [0]).length) ts

theorem Holds.pushTokens (ts : List Text) : ∀ {s : Stack} {block : Text}, Holds s block →
    s.addresses.length + ts.length ≤ 20 → (strings ts).length + block.length ≤ 4096 →
    ∃ s', ts.foldlM Stack.pushToken s = .ok s' ∧ Holds s' (strings ts ++ block) ∧
      s'.addresses = s.addresses ++ addressesFrom s.esp ts := by
  induction ts with
  | nil => exact fun {s block} h _ _ => ⟨s, rfl, h, (append_nil _).symm⟩
  | cons t ts ih =>
    intro s block h hcount hroom
    rw [strings, length_append] at hroom
    obtain ⟨s1, hpush, h1, haddr, hesp⟩ := h.push (t ++ [0]) (by omega)
    have hstep : s.pushToken t = .ok { s1 with addresses := s1.addresses ++ [s1.esp] } := by
      rw [length_cons] at hcount
      rw [Stack.pushToken, if_pos (by omega), hpush]
      rfl
    obtain ⟨s', hrun, h', haddr'⟩ := ih
      (s := { s1 with addresses := s1.addresses ++ [s1.esp] }) ⟨h1.top, h1.bytes, h1.clear⟩ (by
        rw [length_cons] at hcount
        simp only [haddr, length_append, length_singleton]
        omega) (by rw [length_append]; omega)
    refine ⟨s', ?_, ?_, ?_⟩
    · rw [foldlM_cons, hstep]
      exact hrun
    · rwa [strings, append_assoc]
    · rw [haddr', haddr, hesp, append_assoc]
      rfl

theorem Holds.pushWords (ws : List ℕ) (h : Holds s block)
    (hroom : 4 * ws.length + block.length ≤ 4096) :
    ∃ s', ws.reverse.foldlM (fun s w => s.push (wordBytes w)) s = .ok s' ∧
      Holds s' (ws.flatMap wordBytes ++ block) ∧ s'.addresses = s.addresses := by
  induction ws with
  | nil => exact ⟨s, rfl, h, rfl⟩
  | cons w ws ih =>
    rw [length_cons] at hroom
    obtain ⟨s1, hrun, h1, haddr⟩ := ih (by omega)
    obtain ⟨s', hpush, h', haddr', -⟩ := h1.push (wordBytes w) (by
      rw [length_append, length_flatMap_wordBytes, length_wordBytes]
      omega)
    refine ⟨s', ?_, ?_, haddr'.trans haddr⟩
    · rw [reverse_cons, foldlM_append, hrun]
      change (s1.push (wordBytes w) >>= pure) = _
      rw [hpush]
      rfl
    · rwa [flatMap_cons, append_assoc]

theorem Holds.slice_eq {low part : Text} (h : Holds s (low ++ (part ++ high))) :
    slice s.mem (s.esp + low.length) part.length = part := by
  have hbytes := h.bytes
  rw [length_append, slice_append, length_append, slice_append] at hbytes
  exact (append_inj (append_inj hbytes (length_slice ..)).2 (length_slice ..)).1

end Stack

/-- The word at an address. -/
def wordAt (mem : ℕ → UInt8) (a : ℕ) : ℕ := (Endian.wordOf fun k => mem (a + k)).toNat

theorem wordAt_of_slice {mem : ℕ → UInt8} (hw : w < 2 ^ 32)
    (h : slice mem a 4 = wordBytes w) : wordAt mem a = w := by
  have hbytes : (fun k : Fin 4 => mem (a + k)) = Endian.byteOf (UInt32.ofNat w) := by
    funext k
    have hk := congrArg (·[k.val]?) h
    simpa [slice, wordBytes] using hk
  rw [wordAt, hbytes, Endian.wordOf_byteOf]
  exact UInt32.toNat_ofNat_of_lt' hw

theorem Holds.wordAt_eq {s : Stack} {block : Text} (h : Holds s block) (low : Text)
    (hblock : block = low ++ (wordBytes w ++ high)) (hw : w < 2 ^ 32)
    (ha : a = s.esp + low.length) : wordAt s.mem a = w := by
  subst ha hblock
  exact wordAt_of_slice hw h.slice_eq

/-! ### The arguments -/

theorem strings_append (ts us : List Text) : strings (ts ++ us) = strings us ++ strings ts := by
  induction ts with
  | nil => exact (append_nil _).symm
  | cons t ts ih => rw [cons_append, strings, ih, append_assoc, strings]

theorem length_strings (ts : List Text) :
    (strings ts).length = (ts.map fun t => t.length + 1).sum := by
  induction ts with
  | nil => rfl
  | cons t ts ih =>
    rw [strings, length_append, ih, length_append, map_cons, sum_cons,
      length_singleton, Nat.add_comm]

theorem length_addressesFrom (ts : List Text) : ∀ esp, (addressesFrom esp ts).length = ts.length := by
  induction ts with
  | nil => exact fun _ => rfl
  | cons t ts ih => exact fun _ => congrArg (· + 1) (ih _)

theorem addressesFrom_append (ts us : List Text) : ∀ esp, addressesFrom esp (ts ++ us) =
    addressesFrom esp ts ++ addressesFrom (esp - (strings ts).length) us := by
  induction ts with
  | nil => exact fun _ => rfl
  | cons t ts ih =>
    intro esp
    have hlen : (strings (t :: ts)).length = (t ++ [0]).length + (strings ts).length := by
      rw [strings, length_append, Nat.add_comm]
    rw [cons_append, addressesFrom, addressesFrom, ih, hlen, Nat.sub_sub]
    rfl

/-- Where the arguments begin and what the stack holds in the end. -/
def argvOf (ts : List Text) : ℕ := physBase - (4 * ts.length + (4 + (strings ts).length))

def blockOf (ts : List Text) : Text :=
  replicate 4 0 ++ (wordBytes ts.length ++ (wordBytes (argvOf ts) ++
    ((addressesFrom physBase ts).flatMap wordBytes ++ (replicate 4 0 ++ strings ts))))

theorem setupArguments_eq {ts : List Text} (hcount : ts.length ≤ 20)
    (hroom : (strings ts).length ≤ 100) :
    ∃ s, setupArguments ts ⟨fun _ => 0, physBase, []⟩ = .ok s ∧ Holds s (blockOf ts) := by
  have hstart : Holds ⟨fun _ => 0, physBase, []⟩ [] := ⟨rfl, rfl, fun _ _ => rfl⟩
  obtain ⟨s1, hrun1, h1, haddr1⟩ := hstart.pushTokens ts
    (by rw [length_nil]; omega) (by rw [length_nil]; omega)
  rw [append_nil] at h1
  rw [nil_append] at haddr1
  have hlen := length_addressesFrom ts physBase
  obtain ⟨s2, hrun2, h2, haddr2⟩ := (h1.skip (by omega)).pushWords s1.addresses (by
    rw [haddr1, hlen, length_append, length_replicate]
    omega)
  have hsize2 : (s1.addresses.flatMap wordBytes ++ (replicate 4 0 ++ strings ts)).length =
      4 * ts.length + (4 + (strings ts).length) := by
    rw [length_append, length_flatMap_wordBytes, haddr1, hlen, length_append,
      length_replicate]
  obtain ⟨s3, hrun3, h3, haddr3, -⟩ := h2.push (wordBytes s2.esp)
    (by rw [hsize2, length_wordBytes]; omega)
  obtain ⟨s4, hrun4, h4, -, -⟩ := h3.push (wordBytes s3.addresses.length)
    (by rw [length_append, hsize2, length_wordBytes, length_wordBytes]; omega)
  have hesp2 : s2.esp = argvOf ts := by
    rw [argvOf, ← hsize2, ← h2.top]
    omega
  have hargc : s3.addresses.length = ts.length := by
    rw [haddr3, haddr2, Stack.skip, haddr1, hlen]
  refine ⟨s4.skip, ?_, ?_⟩
  · simp only [setupArguments, hrun1, hrun2, hrun3, hrun4, bind, Except.bind, pure, Except.pure]
  · have h := h4.skip (by
      rw [length_append, length_append, hsize2, length_wordBytes, length_wordBytes]
      omega)
    rwa [hesp2, hargc, haddr1] at h

section Block

variable {s : Stack} {ts : List Text}

theorem argvOf_lt (ts : List Text) : argvOf ts < 2 ^ 32 :=
  Nat.lt_of_le_of_lt (Nat.sub_le ..) (by decide)

theorem Holds.esp_add (h : Holds s (blockOf ts)) :
    s.esp + 16 + 4 * ts.length + (strings ts).length = physBase := by
  have htop := h.top
  simp only [blockOf, length_append, length_wordBytes, length_flatMap_wordBytes,
    length_addressesFrom, length_replicate] at htop
  omega

theorem Holds.argvOf_eq (h : Holds s (blockOf ts)) : argvOf ts = s.esp + 12 := by
  have hesp := h.esp_add
  rw [argvOf]
  omega

theorem Holds.wordAt_null (h : Holds s (blockOf ts)) :
    wordAt s.mem (s.esp + 12 + 4 * ts.length) = 0 := by
  apply h.wordAt_eq (replicate 4 0 ++ (wordBytes ts.length ++ (wordBytes (argvOf ts) ++
    (addressesFrom physBase ts).flatMap wordBytes)))
  · rfl
  · decide
  · simp only [length_append, length_wordBytes, length_flatMap_wordBytes,
      length_addressesFrom, length_replicate]
    omega

theorem Holds.argument (h : Holds s (blockOf ts)) {i : ℕ} (hi : i < ts.length) :
    ∃ p, wordAt s.mem (argvOf ts + 4 * i) = p ∧ slice s.mem p (ts[i].length + 1) = ts[i] ++ [0] ∧
      argvOf ts + 4 * (ts.length + 1) ≤ p ∧ p + (ts[i].length + 1) ≤ physBase := by
  have hesp := h.esp_add
  rw [h.argvOf_eq]
  obtain ⟨before, t, after, rfl, rfl, ht⟩ :
      ∃ before t after, ts = before ++ t :: after ∧ before.length = i ∧ ts[i] = t :=
    ⟨ts.take i, ts[i], ts.drop (i + 1), by simp, by simp; omega, rfl⟩
  rw [ht]
  simp only [strings_append, strings, length_append, length_cons, length_nil] at hesp
  refine ⟨physBase - (strings before).length - (t ++ [0]).length, ?_, ?_, ?_, ?_⟩
  · apply h.wordAt_eq (replicate 4 0 ++ (wordBytes (before ++ t :: after).length ++
      (wordBytes (argvOf (before ++ t :: after)) ++
      (addressesFrom physBase before).flatMap wordBytes)))
    · rw [blockOf, addressesFrom_append, addressesFrom]
      simp only [flatMap_append, flatMap_cons, append_assoc]
      rfl
    · exact Nat.lt_of_le_of_lt (Nat.le_trans (Nat.sub_le ..) (Nat.sub_le ..)) (by decide)
    · simp only [length_append, length_wordBytes, length_flatMap_wordBytes,
        length_addressesFrom, length_replicate]
      omega
  · have hpart : Holds s ((replicate 4 0 ++ (wordBytes (before ++ t :: after).length ++
        (wordBytes (argvOf (before ++ t :: after)) ++
        ((addressesFrom physBase (before ++ t :: after)).flatMap wordBytes ++ (replicate 4 0 ++
        strings after))))) ++ ((t ++ [0]) ++ strings before)) := by
      simpa only [blockOf, strings_append, strings, append_assoc] using h
    refine (congrArg₂ (slice s.mem) ?_ (length_append ..).symm).trans hpart.slice_eq
    simp only [length_append, length_wordBytes, length_flatMap_wordBytes,
      length_addressesFrom, length_replicate, length_cons, length_nil]
    omega
  · rw [length_append, length_cons, length_append, length_singleton]
    omega
  · rw [length_append, length_singleton]
    omega

end Block

theorem argumentMaxlength_eq (hlen : cmd.length ≤ 100) :
    argumentMaxlength cmd = .ok (cmd ++ replicate (100 - cmd.length) 0) := if_pos hlen

/-- A shorter command line is terminated in its array. -/
theorem cString_eq (hzero : 0 ∉ cmd) (hlen : cmd.length ≤ 99) :
    cString (cmd ++ replicate (100 - cmd.length) 0) = .ok cmd := by
  obtain ⟨n, hn⟩ : ∃ n, 100 - cmd.length = n + 1 := ⟨99 - cmd.length, by omega⟩
  rw [hn, replicate_succ, cString, if_pos (by simp), takeWhile_append_of_pos]
  · rw [takeWhile_cons_of_neg (by decide), append_nil]
  · intro c hc
    simpa using fun heq : c = 0 => hzero (heq ▸ hc)

theorem load_eq (hzero : 0 ∉ cmd) (hlen : cmd.length ≤ 99) (hne : words cmd ≠ []) :
    load true cmd = (setupArguments (words cmd) ⟨fun _ => 0, physBase, []⟩).map some := by
  have hfile : ¬strtokR cmd = none := fun h => hne ((strtokR_eq_none_iff cmd).mp h)
  rw [load, argumentMaxlength_eq (by omega)]
  simp only [bind, Except.bind, hfile, if_true, if_false, cString_eq hzero hlen, tokens_eq_words]
  cases setupArguments (words cmd) ⟨fun _ => 0, physBase, []⟩ <;> rfl

/-- **A program finds its arguments on the stack.** -/
theorem load_arguments (cmd : Text) (hzero : 0 ∉ cmd) (hlen : cmd.length ≤ 99)
    (hpos : 1 ≤ (words cmd).length) (hcount : (words cmd).length ≤ 20) :
    ∃ s, load true cmd = .ok (some s) ∧ wordAt s.mem (s.esp + 4) = (words cmd).length ∧
      ∃ argv, wordAt s.mem (s.esp + 8) = argv ∧
        wordAt s.mem (argv + 4 * (words cmd).length) = 0 ∧
        ∀ i (hi : i < (words cmd).length), ∃ p, wordAt s.mem (argv + 4 * i) = p ∧
          slice s.mem p ((words cmd)[i].length + 1) = (words cmd)[i] ++ [0] ∧
          argv + 4 * ((words cmd).length + 1) ≤ p ∧ p + ((words cmd)[i].length + 1) ≤ physBase := by
  have hstrings := length_words_le cmd
  rw [← length_strings] at hstrings
  rw [load_eq hzero hlen (ne_nil_of_length_pos hpos)]
  generalize words cmd = ts at hpos hcount hstrings ⊢
  obtain ⟨s, hrun, h⟩ := setupArguments_eq hcount (by omega)
  refine ⟨s, by rw [hrun]; rfl, ?_, argvOf ts, ?_, ?_, fun i hi => ?_⟩
  · exact h.wordAt_eq _ rfl (by omega) rfl
  · exact h.wordAt_eq _ (append_assoc ..).symm (argvOf_lt ts) rfl
  · rw [h.argvOf_eq]
    exact h.wordAt_null
  · exact h.argument hi

theorem load_arguments_args :
    ∃ s, load true [97, 32, 32, 98, 99, 32] = .ok (some s) ∧ wordAt s.mem (s.esp + 4) = 2 := by
  obtain ⟨s, hload, hargc, -⟩ := load_arguments [97, 32, 32, 98, 99, 32] (by decide) (by decide)
    (by decide) (by decide)
  exact ⟨s, hload, hargc⟩

/-- The copy is terminated in its array, and nothing is written or read outside of the arrays and of
the page of the stack. -/
def Confined (cmd : Text) : Prop :=
  (∃ a, argumentMaxlength (cmd.take 4095) = .ok a ∧ 0 ∈ a) ∧
    ∀ ready, processExecute ready cmd ≠ .error .outOfBounds

/-- With twenty addresses set, the next token is out of bounds. -/
theorem pushTokens_overflow (ts : List Text) : ∀ s : Stack, s.addresses.length ≤ 20 →
    20 < s.addresses.length + ts.length → ts.foldlM Stack.pushToken s = .error .outOfBounds := by
  induction ts with
  | nil => intro s hle hlt; rw [length_nil] at hlt; omega
  | cons t ts ih =>
    intro s hle hlt
    rw [length_cons] at hlt
    rw [foldlM_cons, Stack.pushToken]
    by_cases hfull : s.addresses.length < 20
    · rw [if_pos hfull, Stack.push]
      split
      · apply ih
        · simp only [length_append, length_singleton]
          omega
        · simp only [length_append, length_singleton]
          omega
      · rfl
    · rw [if_neg hfull]
      rfl

/-- **The arrays of `load` hold the command line exactly if it has at most 99 bytes and 20 words.** -/
theorem load_confined_iff (cmd : Text) (hzero : 0 ∉ cmd) :
    Confined cmd ↔ cmd.length ≤ 99 ∧ (words cmd).length ≤ 20 := by
  constructor
  · rintro ⟨⟨a, ha, hmem⟩, hall⟩
    have hlen : cmd.length ≤ 99 := by
      unfold argumentMaxlength at ha
      split at ha
      · next hle =>
          rw [length_take] at hle
          cases ha
          rw [take_of_length_le (by omega), mem_append] at hmem
          have := ne_nil_of_mem (hmem.resolve_left hzero)
          rw [Ne, replicate_eq_nil_iff] at this
          omega
      · cases ha
    refine ⟨hlen, Nat.le_of_not_lt fun hcount => hall true ?_⟩
    rw [processExecute, take_of_length_le (by omega),
      load_eq hzero hlen (ne_nil_of_length_pos (by omega)), setupArguments,
      pushTokens_overflow _ _ (Nat.zero_le _) (by rw [length_nil]; omega)]
    rfl
  · rintro ⟨hlen, hcount⟩
    have htake : cmd.take 4095 = cmd := take_of_length_le (by omega)
    refine ⟨⟨_, by rw [htake, argumentMaxlength_eq (by omega)], mem_append_right _ ?_⟩,
      fun ready => ?_⟩
    · exact mem_replicate.mpr ⟨by omega, rfl⟩
    · rw [processExecute, htake]
      cases ready with
      | false =>
        rw [load, argumentMaxlength_eq (by omega)]
        exact nofun
      | true =>
        by_cases hne : words cmd = []
        · rw [load, argumentMaxlength_eq (by omega)]
          simp [bind, Except.bind, (strtokR_eq_none_iff cmd).mpr hne]
        · have hstrings := length_words_le cmd
          rw [← length_strings] at hstrings
          obtain ⟨s, hrun, -⟩ := setupArguments_eq hcount (by omega)
          rw [load_eq hzero hlen hne, hrun]
          exact nofun

theorem load_confined_args : Confined [97, 32, 98] :=
  (load_confined_iff [97, 32, 98] (by decide)).mpr (by decide)

/-- A command line of 200 bytes is copied to an array of 100. -/
theorem not_confined_long :
    0 ∉ replicate 200 (97 : UInt8) ∧ ¬Confined (replicate 200 97) := by
  refine ⟨fun h => absurd (eq_of_mem_replicate h) (by decide), fun h => h.2 false ?_⟩
  rw [processExecute, load, argumentMaxlength,
    if_neg (by rw [length_take, length_replicate]; decide)]
  rfl

end Pintos.Arguments

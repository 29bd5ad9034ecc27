import Pintos.Words
import Mathlib.Tactic

/-! # `strtok_r`

`lib/string.c` on the bytes of a string from its first one to its terminator.  A byte outside of them
is not accessed: the model has no value there (`none`).

* **`strtokR`**: one call, with the memory and `save_ptr` after it.
* **`strtok_exact`**: the calls return the words of the string, each followed by a null byte. -/

namespace Pintos.Strtok

open List

/-! ### The source -/

/-- `strchr (string, c) != NULL`, for a string without its terminator. -/
def strchr : List UInt8 → UInt8 → Bool
  | [], c => c == 0
  | d :: string, c => d == c || strchr string c

/-- `while (q (*s)) s++`, for at most `fuel` rounds. -/
def advance (q : UInt8 → Bool) (mem : List UInt8) : ℕ → ℕ → Option ℕ
  | 0, _ => none
  | fuel + 1, s => mem[s]?.bind fun c => if q c then advance q mem fuel (s + 1) else some s

variable (delims : List UInt8)

/-- `strtok_r` from the position `s`: the token, the memory and `save_ptr`. -/
def strtokR (mem : List UInt8) (s : ℕ) : Option (Option ℕ × List UInt8 × ℕ) := do
  -- the loop returns at the terminator
  let s ← advance (fun c => strchr delims c && c != 0) mem mem.length s
  if (← mem[s]?) = 0 then some (none, mem, s)
  else
    let token := s
    let s ← advance (fun c => !strchr delims c) mem mem.length s
    if (← mem[s]?) ≠ 0 then some (some token, mem.set s 0, s + 1) else some (some token, mem, s)

/-- Calls until one returns a null pointer. -/
def strtokAll : ℕ → List UInt8 → ℕ → Option (List ℕ × List UInt8 × ℕ)
  | 0, _, _ => none
  | fuel + 1, mem, s => do
    let r ← strtokR delims mem s
    match r.1 with
    | none => some ([], r.2)
    | some token => do
      let rs ← strtokAll fuel r.2.1 r.2.2
      some (token :: rs.1, rs.2)

/-! ### One call -/

/-- The delimiters, as separators of words. -/
def isDelim (c : UInt8) : Bool := decide (c ∈ delims)

variable {delims} {mem rest : List UInt8} {s : ℕ}

theorem strchr_eq (c : UInt8) : strchr delims c = (isDelim delims c || c == 0) := by
  induction delims with
  | nil => simp [strchr, isDelim]
  | cons d delims ih =>
    rw [strchr, ih]
    by_cases hd : d = c
    · simp [hd, isDelim]
    · simp [isDelim, hd, Ne.symm hd]

theorem getElem?_of_drop {u v : List UInt8} {c : UInt8} (h : mem.drop s = u ++ c :: v) :
    mem[s + u.length]? = some c := by
  rw [← getElem?_drop, h]
  simp

theorem drop_of_append {u v : List UInt8} (h : mem.drop s = u ++ v) : mem.drop (s + u.length) = v := by
  rw [← drop_drop, h, drop_left]

theorem advance_eq {q : UInt8 → Bool} {u v : List UInt8} {c : UInt8} {fuel : ℕ}
    (hmem : mem.drop s = u ++ c :: v) (hu : ∀ x ∈ u, q x = true) (hc : q c = false)
    (hfuel : u.length < fuel) : advance q mem fuel s = some (s + u.length) := by
  induction u generalizing s fuel with
  | nil =>
    obtain ⟨fuel, rfl⟩ := Nat.exists_eq_add_of_lt hfuel
    have hget : mem[s]? = some c := getElem?_of_drop (u := []) hmem
    simp [advance, hget, hc]
  | cons x u ih =>
    obtain ⟨fuel, rfl⟩ : ∃ n, fuel = n + 1 := ⟨fuel - 1, by omega⟩
    have hnext := ih (drop_of_append (u := [x]) hmem) (fun y hy => hu y (mem_cons_of_mem x hy))
      (Nat.lt_of_succ_lt_succ hfuel)
    have hget : mem[s]? = some x := getElem?_of_drop (u := []) hmem
    rw [advance, hget, Option.bind_some, if_pos (hu x mem_cons_self), length_cons, ← Nat.add_assoc,
      Nat.add_right_comm]
    exact hnext

/-- A call has returned the token `w` at `t`: a null byte follows it, in the place of a delimiter
unless it is the terminator. -/
structure Took (delims mem : List UInt8) (t : ℕ) (w mem' : List UInt8) : Prop where
  string : w ++ [0] <+: mem'.drop t
  length : mem'.length = mem.length
  same : ∀ i ≠ t + w.length, mem'[i]? = mem[i]?
  delim : mem' = mem ∨ ∃ d ∈ delims, mem[t + w.length]? = some d

theorem strtokR_cases (delims : List UInt8) (hmem : mem.drop s = rest ++ [0]) (hrest : 0 ∉ rest) :
    (strtokR delims mem s = some (none, mem, s + rest.length) ∧
      Words.words (isDelim delims) rest = []) ∨
    ∃ t w mem' save rest', strtokR delims mem s = some (some t, mem', save) ∧
      Words.words (isDelim delims) rest = w :: Words.words (isDelim delims) rest' ∧
      mem'.drop save = rest' ++ [0] ∧ rest' <:+ rest ∧ rest'.length < rest.length ∧
      s ≤ t ∧ t + w.length ≤ save ∧ Took delims mem t w mem' := by
  have hlen : rest.length < mem.length := by
    have := congrArg List.length hmem
    simp only [length_drop, length_append, length_singleton] at this
    omega
  have hskipped : ∀ c ∈ rest.takeWhile (isDelim delims), (strchr delims c && c != 0) = true := by
    intro c hc
    have hne : c ≠ 0 := by
      rintro rfl
      exact hrest ((takeWhile_sublist _).subset hc)
    simp [strchr_eq, mem_takeWhile_imp hc, hne]
  have hpre := rest.takeWhile_append_dropWhile (p := isDelim delims)
  unfold strtokR
  rcases Words.split (isDelim delims) rest with ⟨hnil, hwords⟩ | ⟨w, l, hdrop, hne, hw, hl, -, -, hwords⟩
  · rw [hnil, append_nil] at hpre
    rw [hpre] at hskipped
    refine .inl ⟨?_, hwords⟩
    simp [advance_eq hmem hskipped (by simp) hlen, getElem?_of_drop hmem]
  right
  rw [hdrop] at hpre
  generalize rest.takeWhile (isDelim delims) = pre at hpre hskipped
  subst hpre
  obtain ⟨x, u, hxu⟩ := exists_cons_of_ne_nil hne
  have hnonzero : ∀ c ∈ w ++ l, c ≠ 0 := by
    rintro c hc rfl
    exact hrest (mem_append_right _ hc)
  have htoken : ∀ c ∈ w, strchr delims c = false := by
    intro c hc
    simpa [strchr_eq, hw c hc] using hnonzero c (mem_append_left _ hc)
  have hx : x ∈ w := hxu ▸ mem_cons_self
  have hfirst : mem.drop s = pre ++ x :: (u ++ l ++ [0]) := by simp [hmem, hxu]
  have hmem' : mem.drop (s + pre.length) = w ++ (l ++ [0]) := drop_of_append (by simp [hmem])
  simp only [length_append] at hlen
  have hskip : advance _ mem mem.length s = _ :=
    advance_eq hfirst hskipped (by simp [htoken x hx]) (by omega)
  simp only [hskip, Option.bind_eq_bind, Option.bind_some, getElem?_of_drop hfirst,
    if_neg (hnonzero x (mem_append_left _ hx))]
  have hst : s ≤ s + pre.length := Nat.le_add_right ..
  generalize s + pre.length = t at hmem' hst ⊢
  have hscan : ∀ {c v}, mem.drop t = w ++ c :: v → strchr delims c = true →
      advance (fun c => !strchr delims c) mem mem.length t = some (t + w.length) :=
    fun h hc => advance_eq h (by simpa using htoken) (by simp [hc]) (by omega)
  cases l with
  | nil =>
    refine ⟨t, w, mem, t + w.length, [], ?_, hwords, drop_of_append hmem', nil_suffix,
      by simp [hxu], hst, le_rfl, by rw [hmem']; exact prefix_rfl, rfl, fun _ _ => rfl, .inl rfl⟩
    simp [hscan hmem' (by simp [strchr_eq]), getElem?_of_drop hmem']
  | cons d l =>
    have hd := hl d rfl
    rw [Words.words_cons hd] at hwords
    refine ⟨t, w, mem.set (t + w.length) 0, t + w.length + 1, l, ?_, hwords, ?_,
      ⟨pre ++ w ++ [d], by simp⟩, by simp; omega, hst, Nat.le_succ _, ?_, length_set ..,
      fun i hi => getElem?_set_ne (Ne.symm hi),
      .inr ⟨d, by simpa [isDelim] using hd, getElem?_of_drop hmem'⟩⟩
    · simp [hscan hmem' (by rw [strchr_eq, hd]; rfl), getElem?_of_drop hmem', hnonzero d (by simp)]
    · rw [drop_set_of_lt (Nat.lt_add_one _), ← drop_drop, drop_of_append hmem',
        cons_append, drop_one, tail_cons]
    · rw [drop_set, if_neg (by omega), hmem', Nat.add_sub_cancel_left, set_append_right _ _ le_rfl,
        Nat.sub_self]
      exact ⟨l ++ [0], by simp⟩

/-! ### All calls -/

/-- What the calls that return the tokens `ws` at `ts` have made of the memory. -/
structure Cut (delims mem : List UInt8) (ts : List ℕ) (ws : List (List UInt8)) (mem' : List UInt8) :
    Prop where
  /-- Each token is a string. -/
  strings : Forall₂ (fun t w => w ++ [0] <+: mem'.drop t) ts ws
  length : mem'.length = mem.length
  /-- Only delimiters behind a token have changed. -/
  changed : ∀ i, mem'[i]? = mem[i]? ∨ mem'[i]? = some 0 ∧ (∃ d ∈ delims, mem[i]? = some d) ∧
    ∃ x ∈ ts.zip ws, i = x.1 + x.2.length

theorem Cut.cons {mem1 mem' w : List UInt8} {ts : List ℕ} {ws : List (List UInt8)} {t save : ℕ}
    (hle : t + w.length ≤ save) (htook : Took delims mem t w mem1) (h : Cut delims mem1 ts ws mem')
    (hbefore : ∀ i < save, mem'[i]? = mem1[i]?) : Cut delims mem (t :: ts) (w :: ws) mem' := by
  have hstring := prefix_iff_getElem?.mp htook.string
  have hend : mem1[t + w.length]? = some 0 := by simpa using hstring w.length (by simp)
  have hend' : mem'[t + w.length]? = some 0 := by
    rcases h.changed (t + w.length) with hsame | ⟨hzero, -⟩
    · rw [hsame, hend]
    · exact hzero
  refine ⟨.cons (prefix_iff_getElem?.mpr fun i hi => ?_) h.strings, h.length.trans htook.length,
    fun i => ?_⟩
  · rw [← hstring i hi, getElem?_drop, getElem?_drop]
    rw [length_append, length_singleton, Nat.lt_succ_iff_lt_or_eq] at hi
    rcases hi with hi | rfl
    · exact hbefore _ (by omega)
    · rw [hend, hend']
  · by_cases hi : i = t + w.length
    · subst hi
      rcases htook.delim with rfl | hd
      · exact .inl (hend'.trans hend.symm)
      · exact .inr ⟨hend', hd, (t, w), by simp, rfl⟩
    · rw [← htook.same i hi]
      refine (h.changed i).imp_right ?_
      rintro ⟨hzero, hd, x, hx, hix⟩
      exact ⟨hzero, hd, x, mem_cons_of_mem _ hx, hix⟩

theorem strtokAll_spec (delims : List UInt8) {fuel : ℕ} (hmem : mem.drop s = rest ++ [0])
    (hrest : 0 ∉ rest) (hfuel : rest.length < fuel) :
    ∃ ts mem' save, strtokAll delims fuel mem s = some (ts, mem', save) ∧
      Cut delims mem ts (Words.words (isDelim delims) rest) mem' ∧
      (∀ i < s, mem'[i]? = mem[i]?) ∧ strtokR delims mem' save = some (none, mem', save) := by
  induction fuel generalizing mem s rest with
  | zero => cases hfuel
  | succ fuel ih =>
    rcases strtokR_cases delims hmem hrest with
      ⟨hcall, hwords⟩ | ⟨t, w, mem1, save, rest', hcall, hwords, hmem1, hsuf, hlen, hst, hle, htook⟩
    · refine ⟨[], mem, s + rest.length, by simp [strtokAll, hcall], ?_, fun _ _ => rfl, ?_⟩
      · rw [hwords]
        exact ⟨.nil, rfl, fun _ => .inl rfl⟩
      · -- the next call starts at the terminator
        rcases strtokR_cases delims (drop_of_append hmem) not_mem_nil with
          ⟨hnext, -⟩ | ⟨_, _, _, _, _, -, -, -, -, hlt, -⟩
        · exact hnext
        · cases hlt
    · obtain ⟨ts, mem', save', hrun, hcut, hbefore, hlast⟩ :=
        ih hmem1 (fun h => hrest (hsuf.subset h)) (by omega)
      refine ⟨t :: ts, mem', save', by simp [strtokAll, hcall, hrun], ?_, fun i hi => ?_, hlast⟩
      · rw [hwords]
        exact hcut.cons hle htook hbefore
      · rw [hbefore i (by omega), htook.same i (by omega)]

/-- **`strtok_r`** returns the words of the string one after the other, and null from then on: each
word has become a string of its own, and no byte has changed but delimiters behind a word. -/
theorem strtok_exact (text delims : List UInt8) (htext : 0 ∉ text) : ∃ ts mem save,
    strtokAll delims (text.length + 1) (text ++ [0]) 0 = some (ts, mem, save) ∧
      Cut delims (text ++ [0]) ts (Words.words (isDelim delims) text) mem ∧
      strtokR delims mem save = some (none, mem, save) := by
  obtain ⟨ts, mem, save, hrun, hcut, -, hlast⟩ := strtokAll_spec delims
    (drop_zero (l := text ++ [0])) htext (Nat.lt_succ_self _)
  exact ⟨ts, mem, save, hrun, hcut, hlast⟩

theorem strtok_exact_two : Words.words (isDelim [32]) [32, 97, 32, 32, 98] = [[97], [98]] ∧
    ∃ ts mem save, strtokAll [32] 6 [32, 97, 32, 32, 98, 0] 0 = some (ts, mem, save) ∧
      Cut [32] [32, 97, 32, 32, 98, 0] ts (Words.words (isDelim [32]) [32, 97, 32, 32, 98]) mem ∧
      strtokR [32] mem save = some (none, mem, save) :=
  ⟨by decide, strtok_exact [32, 97, 32, 32, 98] [32] (by decide)⟩

end Pintos.Strtok

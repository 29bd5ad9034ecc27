import Mathlib.Tactic

/-! # The kernel command line

`read_command_line` (`threads/init.c`): the loader leaves the number of arguments and, in an area of
128 bytes, the arguments, with a null byte behind each.

* **`readCommandLine`**: the assignments to `argv`, in their order; a string is its offset in the area.
* `IsString`: which string of the area an offset stands for.
* **`inBounds_iff`**: for which counts and areas the assignments are sound. -/

namespace Pintos.CommandLine

open List

/-- The length of `argv`, for an area of `LOADER_ARGS_LEN` bytes. -/
def argvLen : ℤ := 128 / 2 + 1

/-- `strnlen (p, end - p)`, with the bytes from `p` to `end`.  The byte at `end`, which the source
reads if there is no null byte before it, makes no difference. -/
def strnlen (s : List UInt8) : ℕ := (s.takeWhile (· != 0)).length

/-- The loop from `p` on, with `n` arguments left; none stands for the panic. -/
def argLoop (area : List UInt8) : ℕ → ℕ → Option (List ℕ)
  | 0, _ => some []
  | n + 1, p =>
    if area.length ≤ p then none
    else (argLoop area n (p + strnlen (area.drop p) + 1)).map (p :: ·)

/-- The indices of `argv` that are assigned, each with a string or with `NULL`. -/
def readCommandLine (argc : Int32) (area : Fin 128 → UInt8) : Option (List (ℤ × Option ℕ)) :=
  (argLoop (ofFn area) argc.toInt.toNat 0).map fun ps =>
    ps.mapIdx (fun i p => ((i : ℤ), some p)) ++ [(argc.toInt, none)]

/-- The string at `p` is the one behind `i` null bytes. -/
def IsString (area : List UInt8) (i p : ℕ) : Prop :=
  (area.take p).count 0 = i ∧ (p = 0 ∨ area[p - 1]? = some 0)

/-- The strings in the bytes `s`; the last one may have no null byte behind it. -/
def stringCount (s : List UInt8) : ℕ := s.count 0 + if s.getLast?.getD 0 = 0 then 0 else 1

section Loop

variable {pre rest word : List UInt8}

theorem strnlen_append (hword : 0 ∉ word) (rest : List UInt8) :
    strnlen (word ++ rest) = word.length + strnlen rest := by
  rw [strnlen, takeWhile_append_of_pos, length_append, strnlen]
  intro c hc
  simpa using fun h0 : c = 0 => hword (h0 ▸ hc)

theorem argLoop_word (hword : 0 ∉ word) (n : ℕ) :
    argLoop (pre ++ (word ++ 0 :: rest)) (n + 1) pre.length =
      (argLoop (pre ++ word ++ [0] ++ rest) n (pre ++ word ++ [0]).length).map (pre.length :: ·) := by
  have hlen : strnlen (word ++ 0 :: rest) = word.length := strnlen_append hword _
  rw [argLoop, if_neg (by simp), drop_left, hlen]
  simp [Nat.add_assoc]

theorem stringCount_word (hword : 0 ∉ word) :
    stringCount (word ++ 0 :: rest) = stringCount rest + 1 := by
  simp [stringCount, count_eq_zero.mpr hword, getLast?_cons]
  omega

/-- The loop panics if there are more arguments than strings. -/
theorem argLoop_eq_none_iff (n : ℕ) (pre rest : List UInt8) :
    argLoop (pre ++ rest) n pre.length = none ↔ stringCount rest < n := by
  induction n generalizing pre rest with
  | zero => simp [argLoop]
  | succ n ih =>
    by_cases hmem : 0 ∈ rest
    · obtain ⟨word, rest, rfl, hword⟩ := eq_append_cons_of_mem hmem
      rw [argLoop_word hword, Option.map_eq_none_iff, ih, stringCount_word hword]
      omega
    · have hnone : ∀ p, (pre ++ rest).length < p → (argLoop (pre ++ rest) n p = none ↔ 0 < n) := by
        intro p hp
        cases n with
        | zero => simp [argLoop]
        | succ n => exact iff_of_true (if_pos hp.le) n.succ_pos
      have hall : strnlen rest = rest.length := by
        simpa [strnlen] using strnlen_append hmem []
      rw [argLoop, drop_left, hall]
      cases hlast : rest.getLast? with
      | none =>
        obtain rfl := getLast?_eq_none_iff.mp hlast
        simp [stringCount]
      | some c =>
        have hc : c ≠ 0 := fun h0 => hmem (h0 ▸ mem_of_getLast? hlast)
        have hne : rest ≠ [] := fun hnil => by simp [hnil] at hlast
        rw [if_neg (by simpa using hne), Option.map_eq_none_iff, hnone _ (by simp)]
        simp [stringCount, count_eq_zero.mpr hmem, hlast, hc]

theorem argLoop_strings {n : ℕ} (pre : List UInt8) (hpre : pre = [] ∨ pre.getLast? = some 0)
    (hn : n ≤ rest.count 0) :
    ∃ ps, argLoop (pre ++ rest) n pre.length = some ps ∧ ps.length = n ∧
      ∀ i p, ps[i]? = some p → IsString (pre ++ rest) (pre.count 0 + i) p := by
  induction n generalizing pre rest with
  | zero => exact ⟨[], rfl, rfl, nofun⟩
  | succ n ih =>
    have hmem : 0 ∈ rest := count_pos_iff.mp (by omega)
    obtain ⟨word, rest, rfl, hword⟩ := eq_append_cons_of_mem hmem
    have hcount : n ≤ rest.count 0 := by
      simpa [count_eq_zero.mpr hword] using hn
    obtain ⟨ps, hrun, hlen, hps⟩ := ih (pre ++ word ++ [0]) (.inr (by simp)) hcount
    refine ⟨pre.length :: ps, by rw [argLoop_word hword, hrun]; rfl, by simp [hlen], ?_⟩
    rintro (_ | i) p hp
    · obtain rfl : pre.length = p := by simpa using hp
      refine ⟨by simp, hpre.imp (by simp +contextual) fun hlast => ?_⟩
      rw [getLast?_eq_getElem?] at hlast
      rw [getElem?_append_left (List.getElem?_eq_some_iff.mp hlast).1, hlast]
    · have hp' := hps i p (by simpa using hp)
      simpa [count_eq_zero.mpr hword, Nat.add_assoc, Nat.add_comm] using hp'

end Loop

theorem count_split (area : List UInt8) (p : ℕ) :
    (area.take p).count 0 + (area.drop p).count 0 = area.count 0 := by
  rw [← count_append, take_append_drop]

/-- Every index that is assigned is one of `argv`, and `argv[i]` is the string number `i`, which ends
inside the area. -/
def InBounds (argc : Int32) (area : Fin 128 → UInt8) : Prop :=
  ∀ ws, readCommandLine argc area = some ws →
    (∀ w ∈ ws, 0 ≤ w.1 ∧ w.1 < argvLen) ∧
    ∀ i : ℕ, i < argc.toInt → ∃ p, ((i : ℤ), some p) ∈ ws ∧
      IsString (ofFn area) i p ∧ 0 ∈ (ofFn area).drop p

/-- **The command line.**  Unless it panics because there are fewer strings than arguments,
`read_command_line` is sound just if the count is not negative, is at most 64, and is at most the
number of null bytes. -/
theorem inBounds_iff (argc : Int32) (area : Fin 128 → UInt8) :
    InBounds argc area ↔ stringCount (ofFn area) < argc.toInt ∨
      0 ≤ argc.toInt ∧ argc.toInt ≤ 64 ∧ argc.toInt ≤ (ofFn area).count 0 := by
  have hnone := argLoop_eq_none_iff argc.toInt.toNat [] (ofFn area)
  rw [nil_append, length_nil] at hnone
  constructor
  · intro h
    by_cases hcount : stringCount (ofFn area) < argc.toInt
    · exact .inl hcount
    · right
      obtain ⟨ps, hps⟩ := Option.ne_none_iff_exists'.mp (mt hnone.mp (by omega))
      obtain ⟨hrange, hstrings⟩ := h _ (by rw [readCommandLine, hps]; rfl)
      have hargc := hrange (argc.toInt, none) (by simp)
      refine ⟨hargc.1, Int.lt_add_one_iff.mp hargc.2, ?_⟩
      by_contra hlt
      obtain ⟨p, -, hp, hmem⟩ := hstrings ((ofFn area).count 0) (by omega)
      have hsum := count_split (ofFn area) p
      have hpos := count_pos_iff.mpr hmem
      have hcount := hp.1
      omega
  · rintro (hcount | ⟨hnonneg, hle, hcount⟩) ws hws
    · rw [readCommandLine, hnone.mpr (by omega)] at hws
      cases hws
    · have hn : argc.toInt.toNat ≤ (ofFn area).count 0 := by omega
      obtain ⟨ps, hrun, hlen, hps⟩ := argLoop_strings [] (.inl rfl) hn
      rw [nil_append, length_nil] at hrun
      rw [readCommandLine, hrun] at hws
      obtain rfl := Option.some.inj hws
      constructor
      · intro w hw
        rw [mem_append, mem_mapIdx, mem_singleton] at hw
        obtain ⟨i, hi, rfl⟩ | rfl := hw
        · exact ⟨Int.natCast_nonneg i, by rw [argvLen]; omega⟩
        · exact ⟨hnonneg, Int.lt_add_one_iff.mpr hle⟩
      · intro i hi
        have hilt : i < ps.length := by omega
        have hstring := hps i _ (getElem?_eq_getElem hilt)
        rw [nil_append, count_nil, Nat.zero_add] at hstring
        refine ⟨ps[i], mem_append_left _ (mem_mapIdx.mpr ⟨i, hilt, rfl⟩), hstring, ?_⟩
        have hsum := count_split (ofFn area) ps[i]
        have hcount := hstring.1
        exact count_pos_iff.mp (by omega)

/-- With 65 empty arguments the null pointer is written behind `argv`. -/
theorem not_inBounds_empty : ¬ InBounds 65 fun _ => 0 := by
  intro h
  have hmem : ∃ ws, readCommandLine 65 (fun _ => 0) = some ws ∧ (65, none) ∈ ws := by decide +kernel
  obtain ⟨ws, hws, hmem⟩ := hmem
  exact absurd ((h ws hws).1 _ hmem).2 (by decide)

end Pintos.CommandLine

import Pintos.DirEntries
import Pintos.Kernel
import Pintos.Walk
import Pintos.Words

/-! # Paths

What a path means, and what `find_path` makes of it, over a tree of directories that is given by the
entry of each name in each directory.

* `components` splits a path at its slashes, and `resolve` is the directory and the name that the
  path stands for.
* `arrive` is what the loop of `find_path` comes to.  It descends through the components that are
  followed by a slash (`descended`), so a slash at the end of the path makes it descend through the
  last one too.
* `get_next_part` takes the components from the path one after another (`getNextPart_cases`), into
  a buffer of `NAME_MAX + 1` bytes (**`splitPath_exact`**). -/

namespace Pintos

open Walk List

namespace Pathname

/-! ### The meaning of a path -/

def components (path : CString) : List CString := (path.splitOn 47).filter (· ≠ [])

/-- Where a path starts. -/
def base (start : Sector) (path : CString) : Sector :=
  if path.head? = some 47 then rootDirSector else start

/-- The directory and the name that a path stands for. -/
def resolve (child : Sector → CString → Option Sector) (start : Sector) (path : CString) :
    Option (Sector × CString) :=
  if ∀ c ∈ components path, c.length ≤ nameMax then
    (walk child (base start path) (components path).dropLast).map fun dir =>
      (dir, (components path).getLast?.getD [46])
  else none

/-! ### What `find_path` makes of it -/

/-- The components that `find_path` looks up. -/
def descended (path : CString) : List CString :=
  if path.getLast? = some 47 then components path else (components path).dropLast

/-- What the loop of `find_path` comes to from the directory `dir`, with `fileName` in the variable
of that name. -/
def arrive (child : Sector → CString → Option Sector) (dir : Sector) (fileName path : CString) :
    Option (Sector × CString) :=
  match (components path).getLast? with
  | none => some (dir, fileName)
  | some c => if nameMax < c.length then none else (walk child dir (descended path)).map fun dir => (dir, c)

/-! ### Splitting -/

theorem components_eq_nil {path : CString} (h : components path = []) : ∀ b ∈ path, b = 47 :=
  fun b hb => beq_iff_eq.mp (Words.words_eq_nil h b hb)

end Pathname

namespace Kernel

open Pathname Function

/-- **`get_next_part`** takes the first component from the path. -/
theorem getNextPart_cases (path : CString) :
    (getNextPart path = .done ∧ components path = []) ∨
    (∃ c cs, getNextPart path = .tooLong ∧ components path = c :: cs ∧ nameMax < c.length) ∨
    (∃ c rest, getNextPart path = .part c rest ∧ components path = c :: components rest ∧
      c.length ≤ nameMax ∧ rest.length < path.length ∧
      (rest = [] → path.getLast? ≠ some 47) ∧ (rest ≠ [] → path.getLast? = rest.getLast?)) := by
  have hsrc := takeWhile_append_dropWhile (p := fun b : UInt8 => b == 47) (l := path)
  generalize path.takeWhile (· == 47) = pre at hsrc
  unfold getNextPart
  rcases Words.split (· == 47) path with ⟨hnil, hcomp⟩ | ⟨c, rest, hdrop, hne, hc, -, hpart, hrest, hcomp⟩
  · exact .inl ⟨by rw [hnil]; rfl, hcomp⟩
  have hpart : (c ++ rest).takeWhile (· != 47) = c := hpart
  have hrest : (c ++ rest).dropWhile (· != 47) = rest := hrest
  rw [hdrop] at hsrc ⊢
  simp only [append_eq_nil_iff, hne, false_and, if_false, hpart, hrest]
  split_ifs with hlen
  · refine .inr (.inr ⟨c, rest, rfl, hcomp, hlen, ?_, ?_, ?_⟩)
    · have := length_pos_iff.mpr hne
      rw [← hsrc]
      simp only [length_append]
      omega
    · rintro rfl hlast
      rw [← hsrc, append_nil, List.getLast?_append_of_ne_nil _ hne] at hlast
      simpa using hc 47 (mem_of_getLast? hlast)
    · intro hrest
      rw [← hsrc, List.getLast?_append_of_ne_nil _ (by simp [hrest]),
        List.getLast?_append_of_ne_nil _ hrest]
  · exact .inr (.inl ⟨c, _, rfl, hcomp, not_le.mp hlen⟩)

/-! ### The buffer -/

/-- The second loop of `get_next_part`: the buffer, and `dst` and `src` unless it returns. -/
def copyPart : CString → ℕ → (ℕ → UInt8) → (ℕ → UInt8) × Option (ℕ × CString)
  | [], dst, part => (part, some (dst, []))
  | c :: src, dst, part =>
    if c = 47 then (part, some (dst, c :: src))
    else if dst < nameMax then copyPart src (dst + 1) (update part dst c)
    else (part, none)

/-- `get_next_part (part, srcp)`: what it returns, the buffer and `*srcp`. -/
def getNextPartTo (part : ℕ → UInt8) (srcp : CString) : ℤ × (ℕ → UInt8) × CString :=
  let src := srcp.dropWhile (· == 47)
  if src = [] then (0, part, srcp)
  else
    match copyPart src 0 part with
    | (part, none) => (-1, part, srcp)
    | (part, some (dst, src)) => (1, update part dst 0, src)

/-- Calls until one does not return 1: the buffer after each, and what the last one returns and
leaves of the path. -/
def splitPath : ℕ → (ℕ → UInt8) → CString → Option (List (ℕ → UInt8) × ℤ × CString)
  | 0, _, _ => none
  | fuel + 1, part, srcp =>
    let (r, part, srcp) := getNextPartTo part srcp
    if r = 1 then (splitPath fuel part srcp).map fun rs => (part :: rs.1, rs.2)
    else some ([], r, srcp)

/-- The buffer holds the string `c`. -/
structure HoldsName (part : ℕ → UInt8) (c : CString) : Prop where
  length_le : c.length ≤ nameMax
  chars : (range c.length).map part = c
  null : part c.length = 0

theorem copyPart_spec (src : CString) : ∀ (dst : ℕ) (part : ℕ → UInt8), ∃ part',
    copyPart src dst part = (part', if dst + (src.takeWhile (· != 47)).length ≤ max dst nameMax then
      some (dst + (src.takeWhile (· != 47)).length, src.dropWhile (· != 47)) else none) ∧
    (∀ i, i < dst ∨ nameMax ≤ i → part' i = part i) ∧
    (dst + (src.takeWhile (· != 47)).length ≤ max dst nameMax →
      (range' dst (src.takeWhile (· != 47)).length).map part' = src.takeWhile (· != 47)) := by
  induction src with
  | nil => exact fun dst part => ⟨part, by simp [copyPart], fun _ _ => rfl, fun _ => rfl⟩
  | cons c src ih =>
    intro dst part
    by_cases hc : c = 47
    · subst hc
      exact ⟨part, by simp [copyPart], fun _ _ => rfl, fun _ => rfl⟩
    have htake : (c :: src).takeWhile (· != 47) = c :: src.takeWhile (· != 47) := by simp [hc]
    have hdrop : (c :: src).dropWhile (· != 47) = src.dropWhile (· != 47) := by simp [hc]
    rw [copyPart, if_neg hc, htake, hdrop, length_cons]
    by_cases hdst : dst < nameMax
    · obtain ⟨part', hcopy, hsame, hchars⟩ := ih (dst + 1) (update part dst c)
      rw [max_eq_right hdst, Nat.add_assoc, Nat.add_comm 1] at hcopy hchars
      rw [max_eq_right hdst.le, if_pos hdst]
      refine ⟨part', hcopy, fun i hi => ?_, fun hle => ?_⟩
      · rw [hsame i (by omega), update_of_ne (by omega)]
      · rw [range'_succ, map_cons, hchars hle, hsame dst (.inl dst.lt_succ_self), update_self]
    · rw [if_neg hdst, if_neg (by omega)]
      exact ⟨part, rfl, fun _ _ => rfl, fun h => absurd h (by omega)⟩

/-- Only slashes are left, or the next component is too long. -/
def Stops (r : ℤ) (srcp : CString) : Prop :=
  (r = 0 ∧ ∀ b ∈ srcp, b = 47) ∨ r = -1 ∧ ∃ c cs, components srcp = c :: cs ∧ nameMax < c.length

/-- A call stops in front of `srcp`, or it takes the next component from it. -/
inductive NextCall (srcp : CString) : ℤ × (ℕ → UInt8) × CString → Prop
  | stops {r part} (h : Stops r srcp) : NextCall srcp (r, part, srcp)
  | next {part rest} (c) (first : components srcp = c :: components rest) (holds : HoldsName part c)
      (suffix : rest <:+ srcp) (advances : rest.length < srcp.length) : NextCall srcp (1, part, rest)

/-- The call does in the buffer what `getNextPart` says. -/
theorem getNextPartTo_spec (part : ℕ → UInt8) (srcp : CString) : ∃ part',
    (∀ i, nameMax < i → part' i = part i) ∧
    match getNextPart srcp with
    | .done => getNextPartTo part srcp = (0, part', srcp)
    | .tooLong => getNextPartTo part srcp = (-1, part', srcp)
    | .part c rest =>
      getNextPartTo part srcp = (1, part', rest) ∧ HoldsName part' c ∧ rest <:+ srcp := by
  have hsuf := dropWhile_suffix (l := srcp) (· == 47)
  unfold getNextPartTo getNextPart
  dsimp only
  generalize srcp.dropWhile (· == 47) = src at hsuf
  obtain ⟨part', hcopy, hsame, hchars⟩ := copyPart_spec src 0 part
  rw [Nat.zero_add, Nat.max_eq_right (Nat.zero_le _)] at hcopy hchars
  rw [hcopy]
  split_ifs with hnil hlen
  · exact ⟨part, fun _ _ => rfl, rfl⟩
  · refine ⟨_, fun i hi => ?_, rfl, ⟨hlen, ?_, update_self ..⟩, (dropWhile_suffix _).trans hsuf⟩
    · rw [update_of_ne (by omega), hsame i (.inr hi.le)]
    · rw [map_congr_left fun i hi => update_of_ne (mem_range.mp hi).ne .., range_eq_range']
      exact hchars hlen
  · exact ⟨part', fun i hi => hsame i (.inr hi.le), rfl⟩

theorem nextCall (part : ℕ → UInt8) (srcp : CString) :
    NextCall srcp (getNextPartTo part srcp) ∧
      ∀ i, nameMax < i → (getNextPartTo part srcp).2.1 i = part i := by
  obtain ⟨part', hsame, hpart⟩ := getNextPartTo_spec part srcp
  rcases getNextPart_cases srcp with
    ⟨hnext, hnil⟩ | ⟨c, cs, hnext, hcs, hlong⟩ | ⟨c, rest, hnext, hcs, -, hlt, -⟩ <;>
    rw [hnext] at hpart
  · rw [hpart]
    exact ⟨.stops (.inl ⟨rfl, components_eq_nil hnil⟩), hsame⟩
  · rw [hpart]
    exact ⟨.stops (.inr ⟨rfl, c, cs, hcs, hlong⟩), hsame⟩
  · obtain ⟨heq, hholds, hsuf⟩ := hpart
    rw [heq]
    exact ⟨.next c hcs hholds hsuf hlt, hsame⟩

theorem splitPath_spec (fuel : ℕ) : ∀ (part : ℕ → UInt8) (path : CString), path.length < fuel →
    ∃ parts r last cs, splitPath fuel part path = some (parts, r, last) ∧ Stops r last ∧
      components path = cs ++ components last ∧ Forall₂ HoldsName parts cs := by
  induction fuel with
  | zero => exact fun _ _ h => absurd h (Nat.not_lt_zero _)
  | succ fuel ih =>
    intro part path hlen
    have hcall := (nextCall part path).1
    rw [splitPath]
    generalize getNextPartTo part path = out at hcall
    cases hcall with
    | @stops r _ h =>
      have hr : r ≠ 1 := by rcases h with ⟨rfl, -⟩ | ⟨rfl, -⟩ <;> decide
      exact ⟨[], r, path, [], if_neg hr, h, rfl, .nil⟩
    | @next part' rest c hcs hholds _ hlt =>
      obtain ⟨parts, r, last, cs, hrun, hstops, happ, hall⟩ := ih part' rest (by omega)
      refine ⟨part' :: parts, r, last, c :: cs, ?_, hstops, ?_, .cons hholds hall⟩
      · simp only [hrun, if_true, Option.map_some]
      · rw [hcs, happ, cons_append]

/-- **`get_next_part`** splits a path at its slashes: each call takes the next component into the
buffer, up to the first that is too long. -/
theorem splitPath_exact (part : ℕ → UInt8) (path : CString) :
    (NextCall path (getNextPartTo part path) ∧
      ∀ i, nameMax < i → (getNextPartTo part path).2.1 i = part i) ∧
    ∃ parts r last cs, splitPath (path.length + 1) part path = some (parts, r, last) ∧ Stops r last ∧
      components path = cs ++ components last ∧ Forall₂ HoldsName parts cs :=
  ⟨nextCall part path, splitPath_spec _ part path (Nat.lt_succ_self _)⟩

end Kernel

namespace Pathname

/-! ### One round of the loop -/

section

variable {child : Sector → CString → Option Sector} {dir : Sector} {fileName path c rest : CString}

theorem descended_done (h : components path = []) : descended path = [] := by
  unfold descended
  rw [h]
  split_ifs <;> rfl

theorem descended_cons {cs : List CString} (h : components path = c :: cs) :
    descended path = [] ∨ ∃ l, descended path = c :: l := by
  unfold descended
  rw [h]
  split_ifs
  · exact .inr ⟨cs, rfl⟩
  · cases cs with
    | nil => exact .inl rfl
    | cons c' cs => exact .inr ⟨_, rfl⟩

theorem descended_last (h : components path = [c]) (hlast : path.getLast? ≠ some 47) :
    descended path = [] := by
  rw [descended, if_neg hlast, h]
  rfl

theorem descended_part (h : components path = c :: components rest) (hne : rest ≠ [])
    (hlast : path.getLast? = rest.getLast?) : descended path = c :: descended rest := by
  unfold descended
  rw [hlast, h]
  split_ifs with hslash
  · rfl
  · cases hrest : components rest with
    | nil =>
      have hb := List.getLast?_eq_some_getLast hne
      rw [components_eq_nil hrest _ (getLast_mem hne)] at hb
      exact absurd hb hslash
    | cons c' cs => rfl

theorem arrive_done (h : components path = []) : arrive child dir fileName path = some (dir, fileName) := by
  rw [arrive, h]
  rfl

theorem arrive_last (h : components path = [c]) (hlen : c.length ≤ nameMax)
    (hlast : path.getLast? ≠ some 47) : arrive child dir fileName path = some (dir, c) := by
  rw [arrive, descended_last h hlast, h]
  exact if_neg (not_lt.mpr hlen)

theorem arrive_tooLong {cs : List CString} (h : components path = c :: cs) (hlen : nameMax < c.length)
    (hchild : ∀ dir, child dir c = none) : arrive child dir fileName path = none := by
  rw [arrive, h, List.getLast?_cons]
  dsimp only
  split_ifs with hlong
  · rfl
  · rcases descended_cons h with hnil | ⟨l, hl⟩
    · cases cs with
      | nil => exact absurd hlen hlong
      | cons c' cs =>
        unfold descended at hnil
        rw [h] at hnil
        split_ifs at hnil; cases hnil
    · rw [hl, walk, hchild, Option.bind_none, Option.map_none]

theorem arrive_part (h : components path = c :: components rest) (hlen : c.length ≤ nameMax)
    (hne : rest ≠ []) (hlast : path.getLast? = rest.getLast?) :
    arrive child dir fileName path = (child dir c).bind fun dir' => arrive child dir' c rest := by
  rw [arrive, descended_part h hne hlast, h, walk]
  cases hrest : components rest with
  | nil =>
    simp only [List.getLast?_singleton, if_neg (not_lt.mpr hlen), descended_done hrest, walk,
      arrive_done hrest, Option.map_bind]
    rfl
  | cons c' cs =>
    rw [List.getLast?_cons_cons]
    simp only [arrive, hrest]
    cases hc : (c' :: cs).getLast? with
    | none => simp at hc
    | some l =>
      dsimp only
      split_ifs with hlong
      · cases child dir c <;> rfl
      · rw [Option.map_bind]
        rfl

end

end Pathname

end Pintos

import Mathlib.Tactic

/-! # Searching and sorting arrays

`lib/stdlib.c`, on arrays of `cnt` elements of `size` bytes.

* **`Consistent`**: what is assumed of a `compare` function.
* **`binarySearch_complete`**: `binary_search` on a sorted array returns an element that compares
  equal to the key, or a null pointer if there is none. -/

namespace Pintos.Stdlib

variable {α : Type}

/-- The results of `compare` are those of a total preorder. -/
structure Consistent (compare : α → α → ℤ) : Prop where
  swap : ∀ a b, compare a b < 0 ↔ 0 < compare b a
  trans : ∀ a b c, compare a b ≤ 0 → compare b c ≤ 0 → compare a c ≤ 0

theorem Consistent.lt_of_lt_of_le {compare : α → α → ℤ} (h : Consistent compare) {a b c : α}
    (hab : compare a b < 0) (hbc : compare b c ≤ 0) : compare a c < 0 := by
  by_contra hnot
  have hca : compare c a ≤ 0 := Int.not_lt.mp ((h.swap a c).not.mp hnot)
  have hba := h.trans b c a hbc hca
  have hlt := (h.swap a b).mp hab
  omega

/-! ### Binary search -/

section

variable (compare : α → α → ℤ) (value : ℕ → α) (key : α) (array cnt size : ℕ)

/-- The loop of `binary_search`, with the addresses that are compared; `value p` is the element at
`p`.  `none` stands for more than `fuel` rounds. -/
def searchLoop : ℕ → ℕ → ℕ → Option (Option ℕ × List ℕ)
  | 0, _, _ => none
  | fuel + 1, first, last =>
    if first < last then
      let range := (last - first) / size
      let middle := first + range / 2 * size
      let cmp := compare key (value middle)
      let rest :=
        if cmp < 0 then searchLoop fuel first middle
        else if 0 < cmp then searchLoop fuel (middle + size) last
        else some (some middle, [])
      rest.map fun r => (r.1, middle :: r.2)
    else some (none, [])

def binarySearch (fuel : ℕ) : Option (Option ℕ × List ℕ) :=
  searchLoop compare value key size fuel array (array + size * cnt)

/-- An element of the array begins at `p`. -/
def IsElement (p : ℕ) : Prop := p < array + size * cnt ∧ ∃ i, p = array + size * i

/-- The elements are in order. -/
def Sorted : Prop :=
  ∀ p q, IsElement array cnt size p → IsElement array cnt size q → p ≤ q →
    compare (value p) (value q) ≤ 0

/-- What a search has to return, and which addresses it may compare. -/
structure Found (r : Option ℕ × List ℕ) : Prop where
  inside : ∀ p ∈ r.2, IsElement array cnt size p
  equal : ∀ p, r.1 = some p → IsElement array cnt size p ∧ compare key (value p) = 0
  complete : r.1 = none ↔ ∀ p, IsElement array cnt size p → compare key (value p) ≠ 0

end

section

variable {compare : α → α → ℤ} {value : ℕ → α} {key : α} {array cnt size : ℕ}

theorem Found.visit {r : Option ℕ × List ℕ} {p : ℕ} (hp : IsElement array cnt size p)
    (h : Found compare value key array cnt size r) :
    Found compare value key array cnt size (r.1, p :: r.2) :=
  ⟨List.forall_mem_cons.mpr ⟨hp, h.inside⟩, h.equal, h.complete⟩

/-- The loop between the elements `a` and `b`: those before are less than the key, those behind are
greater. -/
theorem searchLoop_spec (hcmp : Consistent compare) (hsorted : Sorted compare value array cnt size)
    (hsize : 0 < size) {fuel a b : ℕ} (hab : a ≤ b) (hb : b ≤ cnt) (hfuel : b - a < fuel)
    (hless : ∀ i < a, 0 < compare key (value (array + size * i)))
    (hgreater : ∀ i, b ≤ i → i < cnt → compare key (value (array + size * i)) < 0) :
    ∃ r, searchLoop compare value key size fuel (array + size * a) (array + size * b) = some r ∧
      Found compare value key array cnt size r := by
  have helem : ∀ i, IsElement array cnt size (array + size * i) ↔ i < cnt := by
    intro i
    rw [IsElement, Nat.add_lt_add_iff_left, Nat.mul_lt_mul_left hsize]
    exact and_iff_left ⟨i, rfl⟩
  have hle : ∀ {i j}, i ≤ j → j < cnt →
      compare (value (array + size * i)) (value (array + size * j)) ≤ 0 := by
    intro i j hij hj
    apply hsorted _ _ ((helem i).mpr (by omega)) ((helem j).mpr hj)
    exact Nat.add_le_add_left (Nat.mul_le_mul_left size hij) array
  induction fuel generalizing a b with
  | zero => exact absurd hfuel (Nat.not_lt_zero _)
  | succ fuel ih =>
    simp only [searchLoop, Nat.add_lt_add_iff_left, Nat.mul_lt_mul_left hsize]
    split
    · -- the middle is the element `m`, and both sides of it are shorter
      obtain ⟨m, hm⟩ : ∃ m, m = a + (b - a) / 2 := ⟨_, rfl⟩
      have hmiddle : array + size * a +
          (array + size * b - (array + size * a)) / size / 2 * size = array + size * m := by
        rw [Nat.add_sub_add_left, ← Nat.mul_sub, Nat.mul_div_cancel_left _ hsize, hm]
        ring
      have hmem : IsElement array cnt size (array + size * m) := (helem m).mpr (by omega)
      simp only [hmiddle]
      split_ifs with hneg hpos
      · obtain ⟨r, hr, hfound⟩ := ih (a := a) (b := m) (by omega) (by omega) (by omega) hless
          fun i hi hic => hcmp.lt_of_lt_of_le hneg (hle hi hic)
        exact ⟨_, by rw [hr]; rfl, hfound.visit hmem⟩
      · have hbefore : ∀ i < m + 1, 0 < compare key (value (array + size * i)) := by
          intro i hi
          by_contra hnot
          have := hcmp.trans _ _ _ (Int.not_lt.mp hnot) (hle (j := m) (by omega) (by omega))
          omega
        obtain ⟨r, hr, hfound⟩ := ih (a := m + 1) (by omega) hb (by omega) hbefore hgreater
        rw [Nat.add_assoc, ← Nat.mul_succ]
        exact ⟨_, by rw [hr]; rfl, hfound.visit hmem⟩
      · have heq : compare key (value (array + size * m)) = 0 := by omega
        refine ⟨_, rfl, List.forall_mem_cons.mpr ⟨hmem, nofun⟩, ?_, iff_of_false nofun fun h => ?_⟩
        · rintro p ⟨⟩
          exact ⟨hmem, heq⟩
        · exact h _ hmem heq
    · refine ⟨_, rfl, nofun, nofun, iff_of_true rfl ?_⟩
      rintro p ⟨hp, i, rfl⟩
      by_cases hi : i < a
      · exact (hless i hi).ne'
      · exact (hgreater i (by omega) ((helem i).mp ⟨hp, i, rfl⟩)).ne

/-- **Binary search is complete.**  On a sorted array it ends, compares the key with elements only,
and returns an element that compares equal to it, or a null pointer exactly if there is none. -/
theorem binarySearch_complete (hcmp : Consistent compare)
    (hsorted : Sorted compare value array cnt size) :
    ∃ r, binarySearch compare value key array cnt size (cnt + 1) = some r ∧
      Found compare value key array cnt size r := by
  rcases Nat.eq_zero_or_pos size with rfl | hsize
  · refine ⟨(none, []), by simp [binarySearch, searchLoop], nofun, nofun, iff_of_true rfl ?_⟩
    rintro p ⟨hlt, i, rfl⟩
    simp at hlt
  · exact searchLoop_spec hcmp hsorted hsize (Nat.zero_le cnt) le_rfl (Nat.lt_succ_self _) nofun
      fun i hi hic => absurd hic (Nat.not_lt.mpr hi)

end

/-- Five numbers that are equal to their addresses. -/
theorem binarySearch_complete_five :
    ∃ r, binarySearch (fun a b : ℤ => a - b) (fun p => p) 104 100 5 4 6 = some r ∧
      Found (fun a b : ℤ => a - b) (fun p => p) 104 100 5 4 r := by
  apply binarySearch_complete
  · exact ⟨fun a b => by omega, fun a b c => by omega⟩
  · intro p q _ _ hle
    show (p : ℤ) - q ≤ 0
    omega

end Pintos.Stdlib

import Mathlib.Tactic

/-! # Two-level tables

A store keeps tables of entries under keys.  The entries of the root table may point to other
tables, and `view` is the table of leaf entries that the two levels stand for: where the root
points nowhere, every leaf counts as `zero`.

* `set`, `fill`: one entry is replaced, or every entry of one table.
* `Wf`: the root points to no table twice and not to itself.
* **`view_set`**: a leaf that is replaced is replaced at one index of the view;
  **`view_install`**: an empty table that is installed under a root entry does not show. -/

namespace RadixTable

variable {K I V : Type}

/-- Tables of entries, by key. -/
abbrev Store (K I V : Type) := K → I → V

section View

variable (ptr : V → Option K) (zero : V)

/-- The leaf at index `i` of the root and index `j` of the table below. -/
def view (m : Store K I V) (root : K) (i j : I) : V :=
  match ptr (m root i) with
  | none => zero
  | some k => m k j

/-- The root points to no table twice, and not to itself. -/
structure Wf (m : Store K I V) (root : K) : Prop where
  ne_root : ∀ {i k}, ptr (m root i) = some k → k ≠ root
  inj : ∀ {i i' k}, ptr (m root i) = some k → ptr (m root i') = some k → i = i'

variable {ptr} {zero} {m : Store K I V} {root k : K} {i : I}

theorem view_of_none (h : ptr (m root i) = none) (j : I) : view ptr zero m root i j = zero := by
  simp [view, h]

theorem view_of_some (h : ptr (m root i) = some k) (j : I) :
    view ptr zero m root i j = m k j := by
  simp [view, h]

end View

/-! ### Updates -/

variable [DecidableEq K]

def fill (m : Store K I V) (k : K) (v : V) : Store K I V :=
  fun k' i' => if k' = k then v else m k' i'

@[simp] theorem fill_same (m : Store K I V) (k : K) (i : I) (v : V) : fill m k v k i = v := by
  simp [fill]

theorem fill_of_ne (m : Store K I V) {k k' : K} (i : I) (v : V) (h : k' ≠ k) :
    fill m k v k' i = m k' i := by
  simp [fill, h]

variable [DecidableEq I]

def set (m : Store K I V) (k : K) (i : I) (v : V) : Store K I V :=
  fun k' i' => if k' = k ∧ i' = i then v else m k' i'

@[simp] theorem set_same (m : Store K I V) (k : K) (i : I) (v : V) : set m k i v k i = v := by
  simp [set]

theorem set_of_key_ne (m : Store K I V) {k k' : K} (i i' : I) (v : V) (h : k' ≠ k) :
    set m k i v k' i' = m k' i' := by
  simp [set, h]

theorem set_of_ne (m : Store K I V) (k k' : K) {i i' : I} (v : V) (h : i' ≠ i) :
    set m k i v k' i' = m k' i' := by
  simp [set, h]

variable {ptr : V → Option K} {zero : V} {m : Store K I V} {root k : K} {i : I}

/-! ### Replacing a leaf -/

section

variable (hw : Wf ptr m root) (h : ptr (m root i) = some k)
include hw h

theorem root_set (j i' : I) (v : V) : set m k j v root i' = m root i' :=
  set_of_key_ne m j i' v (hw.ne_root h).symm

theorem wf_set (j : I) (v : V) : Wf ptr (set m k j v) root where
  ne_root := by
    intro i' k' h'
    rw [root_set hw h] at h'
    exact hw.ne_root h'
  inj := by
    intro i1 i2 k' h1 h2
    rw [root_set hw h] at h1 h2
    exact hw.inj h1 h2

/-- A leaf that is replaced is replaced at one index. -/
theorem view_set (j : I) (v : V) (i' j' : I) : view ptr zero (set m k j v) root i' j' =
      if i' = i ∧ j' = j then v else view ptr zero m root i' j' := by
  unfold view
  rw [root_set hw h]
  cases h' : ptr (m root i') with
  | none =>
    have hne : i' ≠ i := by
      intro he
      rw [he, h] at h'
      cases h'
    simp [hne]
  | some k' =>
    by_cases hi : i' = i
    · subst hi
      obtain rfl : k' = k := Option.some.inj (h'.symm.trans h)
      simp [set]
    · have hk : k' ≠ k := fun he => hi (hw.inj (he ▸ h') h)
      simp [set_of_key_ne m j j' v hk, hi]

/-! ### Installing a table -/

end

section Install

variable (hroot : k ≠ root) (hfresh : ∀ i', ptr (m root i') ≠ some k) (hnone : ptr (m root i) = none)
  {v : V} (hv : ptr v = some k)

include hroot in
theorem root_install (i' : I) :
    set (fill m k zero) root i v root i' = if i' = i then v else m root i' := by
  by_cases hi : i' = i
  · simp [hi]
  · simp [set_of_ne _ _ _ _ hi, fill_of_ne m i' zero hroot.symm, hi]

include hroot hfresh hv in
theorem wf_install (hw : Wf ptr m root) : Wf ptr (set (fill m k zero) root i v) root where
  ne_root := by
    intro i' k' h'
    rw [root_install hroot] at h'
    by_cases hi : i' = i
    · rw [if_pos hi, hv] at h'
      exact Option.some.inj h' ▸ hroot
    · rw [if_neg hi] at h'
      exact hw.ne_root h'
  inj := by
    intro i1 i2 k' h1 h2
    rw [root_install hroot] at h1 h2
    by_cases hi1 : i1 = i <;> by_cases hi2 : i2 = i
    · exact hi1.trans hi2.symm
    · rw [if_pos hi1, hv] at h1
      rw [if_neg hi2] at h2
      exact absurd (h2.trans h1.symm) (hfresh i2)
    · rw [if_neg hi1] at h1
      rw [if_pos hi2, hv] at h2
      exact absurd (h1.trans h2.symm) (hfresh i1)
    · rw [if_neg hi1] at h1
      rw [if_neg hi2] at h2
      exact hw.inj h1 h2

include hroot hfresh hnone hv in
/-- An empty table that is installed does not show. -/
theorem view_install (hw : Wf ptr m root) (i' j' : I) :
    view ptr zero (set (fill m k zero) root i v) root i' j' = view ptr zero m root i' j' := by
  unfold view
  rw [root_install hroot]
  by_cases hi : i' = i
  · rw [if_pos hi, hv, hi, hnone]
    simp [set_of_key_ne _ _ _ _ hroot]
  · rw [if_neg hi]
    cases h' : ptr (m root i') with
    | none => rfl
    | some k' =>
      have hk : k' ≠ k := fun he => hfresh i' (he ▸ h')
      simp [set_of_key_ne _ _ _ _ (hw.ne_root h'), fill_of_ne m j' zero hk]

end Install

end RadixTable

import Mathlib.Tactic

/-! # Fields in a record of cells

A record is a sequence of cells; a field is an interval of them.  `put` writes a list of cells at
an offset, `slice` reads an interval.  Reading a field that was just written gives what was written
(`slice_put`), and reading a field apart from it what was there before (`slice_put_of_disjoint`). -/

namespace Fields

open List

variable {α : Type}

/-- The cells `xs` written at offset `ofs`. -/
def put (v : ℕ → α) (ofs : ℕ) (xs : List α) : ℕ → α :=
  fun p => if h : ofs ≤ p ∧ p - ofs < xs.length then xs.get ⟨p - ofs, h.2⟩ else v p

/-- The `n` cells from offset `ofs` on. -/
def slice (v : ℕ → α) (ofs n : ℕ) : List α := (range n).map fun i => v (ofs + i)

@[simp] theorem length_slice (v : ℕ → α) (ofs n : ℕ) : (slice v ofs n).length = n := by
  simp [slice]

variable {ofs p : ℕ}

theorem put_of_lt (h : p < ofs) (v : ℕ → α) (xs : List α) : put v ofs xs p = v p :=
  dif_neg fun hp => absurd hp.1 (Nat.not_le.mpr h)

variable {xs : List α}

theorem put_of_ge (h : ofs + xs.length ≤ p) (v : ℕ → α) : put v ofs xs p = v p := by
  apply dif_neg
  omega

theorem put_add {i : ℕ} (h : i < xs.length) (v : ℕ → α) (ofs : ℕ) :
    put v ofs xs (ofs + i) = xs.get ⟨i, h⟩ := by
  have hsub : ofs + i - ofs = i := Nat.add_sub_cancel_left ofs i
  rw [put, dif_pos ⟨Nat.le_add_right ofs i, by omega⟩]
  simp only [hsub]

theorem put_apply (hle : ofs ≤ p) (h : p - ofs < xs.length) (v : ℕ → α) :
    put v ofs xs p = xs.get ⟨p - ofs, h⟩ := dif_pos ⟨hle, h⟩

theorem slice_congr {v w : ℕ → α} {n : ℕ} (h : ∀ p, ofs ≤ p → p < ofs + n → v p = w p) :
    slice v ofs n = slice w ofs n := by
  apply map_congr_left
  intro i hi
  exact h _ (Nat.le_add_right ofs i) (by have := mem_range.mp hi; omega)

theorem slice_put (v : ℕ → α) (ofs : ℕ) (xs : List α) :
    slice (put v ofs xs) ofs xs.length = xs := by
  apply ext_getElem
  · simp
  · intro i h1 h2
    simp only [slice, getElem_map, getElem_range]
    exact put_add h2 v ofs

theorem slice_put_of_disjoint {ofs' n : ℕ} (h : ofs + n ≤ ofs' ∨ ofs' + xs.length ≤ ofs)
    (v : ℕ → α) : slice (put v ofs' xs) ofs n = slice v ofs n := by
  apply slice_congr
  intro p hle hlt
  cases h with
  | inl h => exact put_of_lt (by omega) v xs
  | inr h => exact put_of_ge (by omega) v

theorem slice_append (v : ℕ → α) (ofs m n : ℕ) :
    slice v ofs (m + n) = slice v ofs m ++ slice v (ofs + m) n := by
  unfold slice
  rw [range_add, map_append, map_map]
  simp only [Function.comp_def, Nat.add_assoc]

theorem slice_succ (v : ℕ → α) (ofs n : ℕ) : slice v ofs (n + 1) = v ofs :: slice v (ofs + 1) n := by
  rw [Nat.add_comm n 1, slice_append]
  rfl

end Fields

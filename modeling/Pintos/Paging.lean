import Mathlib.Tactic

/-! # Vectors kept in pages

A store keeps pages of `P` cells under keys; a page map lists the keys of the pages that make
up a vector, and `flat` is that vector.  Writing inside one page writes one interval of the
vector and nothing else, if the map names no page twice (`flat_splice`); a long write is a
sequence of such writes (`overwrite_append`). -/

namespace Paging

variable {K α : Type} {P : ℕ} [NeZero P]

/-- The vector whose page `i` is kept under key `m i`. -/
def flat (store : K → Fin P → α) (m : ℕ → K) (p : ℕ) : α :=
  store (m (p / P)) ⟨p % P, Nat.mod_lt p (NeZero.pos P)⟩

/-- A page with the `len` cells from `ofs` on replaced. -/
def splice (page : Fin P → α) (ofs len : ℕ) (f : ℕ → α) : Fin P → α :=
  fun k => if ofs ≤ k.val ∧ k.val < ofs + len then f (k.val - ofs) else page k

/-- A vector with the `len` cells from `off` on replaced. -/
def overwrite (v : ℕ → α) (off len : ℕ) (f : ℕ → α) : ℕ → α :=
  fun p => if off ≤ p ∧ p < off + len then f (p - off) else v p

theorem overwrite_zero (v : ℕ → α) (off : ℕ) (f : ℕ → α) : overwrite v off 0 f = v := by
  funext p
  rw [overwrite, if_neg (by omega)]

theorem overwrite_append (v : ℕ → α) (off a b : ℕ) (f : ℕ → α) :
    overwrite (overwrite v off a f) (off + a) b (fun k => f (a + k)) =
      overwrite v off (a + b) f := by
  funext p
  simp only [overwrite]
  by_cases h1 : off + a ≤ p ∧ p < off + a + b
  · rw [if_pos h1, if_pos (by omega)]
    congr 1
    omega
  · rw [if_neg h1]
    by_cases h2 : off ≤ p ∧ p < off + a
    · rw [if_pos h2, if_pos (by omega)]
    · rw [if_neg h2, if_neg (by omega)]

theorem overwrite_congr {v v' : ℕ → α} {p : ℕ} (h : v p = v' p) (off len : ℕ) (f : ℕ → α) :
    overwrite v off len f p = overwrite v' off len f p := by
  simp only [overwrite, h]

theorem overwrite_congr_right (v : ℕ → α) (off : ℕ) {len : ℕ} {f g : ℕ → α}
    (h : ∀ k < len, f k = g k) : overwrite v off len f = overwrite v off len g := by
  funext p
  simp only [overwrite]
  by_cases hp : off ≤ p ∧ p < off + len
  · rw [if_pos hp, if_pos hp, h (p - off) (by omega)]
  · rw [if_neg hp, if_neg hp]

omit [NeZero P] in
theorem splice_full (page : Fin P → α) (f : ℕ → α) : splice page 0 P f = fun k => f k.val := by
  funext k
  rw [splice, if_pos ⟨Nat.zero_le _, by omega⟩, Nat.sub_zero]

theorem page_eq_flat (store : K → Fin P → α) (m : ℕ → K) (i : ℕ) (k : Fin P) :
    store (m i) k = flat store m (P * i + k.val) := by
  have hdiv : (P * i + k.val) / P = i := by
    rw [Nat.mul_add_div (NeZero.pos P), Nat.div_eq_of_lt k.isLt, Nat.add_zero]
  have hmod : (P * i + k.val) % P = k.val := by
    rw [Nat.mul_add_mod, Nat.mod_eq_of_lt k.isLt]
  simp only [flat, hdiv, hmod]

theorem page_add (store : K → Fin P → α) (m : ℕ → K) (p k : ℕ) (h : p % P + k < P) :
    store (m (p / P)) ⟨p % P + k, h⟩ = flat store m (p + k) := by
  rw [page_eq_flat store m (p / P), ← Nat.add_assoc, Nat.div_add_mod]

theorem flat_congr {store store' : K → Fin P → α} {m m' : ℕ → K} {p : ℕ}
    (h : store' (m' (p / P)) = store (m (p / P))) : flat store' m' p = flat store m p := by
  unfold flat
  rw [h]

variable [DecidableEq K]

/-- **Writing inside a page** writes an interval of the vector. -/
theorem flat_splice (store : K → Fin P → α) {m : ℕ → K} {n i ofs len : ℕ} (f : ℕ → α)
    (hm : ∀ a < n, ∀ b < n, m a = m b → a = b) (hi : i < n) (hlen : ofs + len ≤ P) {p : ℕ}
    (hp : p / P < n) :
    flat (Function.update store (m i) (splice (store (m i)) ofs len f)) m p =
      overwrite (flat store m) (P * i + ofs) len f p := by
  have hdm := Nat.div_add_mod p P
  by_cases hpi : p / P = i
  · subst hpi
    simp only [flat, Function.update_self, splice, overwrite]
    by_cases hin : ofs ≤ p % P ∧ p % P < ofs + len
    · rw [if_pos hin, if_pos (by omega)]
      congr 1
      omega
    · rw [if_neg hin, if_neg (by omega)]
  · have hne : m (p / P) ≠ m i := fun h => hpi (hm _ hp _ hi h)
    -- a position in another page is outside the interval
    have hout : ¬ (P * i + ofs ≤ p ∧ p < P * i + ofs + len) := by
      rintro ⟨h1, h2⟩
      refine hpi (Nat.div_eq_of_lt_le ?_ ?_)
      · rw [Nat.mul_comm]; omega
      · rw [Nat.add_mul, Nat.one_mul, Nat.mul_comm]; omega
    rw [overwrite, if_neg hout]
    exact flat_congr (Function.update_of_ne hne ..)

end Paging

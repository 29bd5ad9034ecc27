import Mathlib.Tactic

/-! # 64-bit division on a 32-bit processor: `lib/arithmetic.c`

GCC calls these functions for `/` and `%` on 64-bit operands.

* **Instructions.**  `divl` is the x86 instruction: a 64-bit dividend in `edx:eax`, a 32-bit divisor
  and quotient.  It traps when the quotient does not fit, and on a divisor of zero (`none`).
* **Quotient.**  A divisor below `2 ^ 32` takes two divisions of 32-bit digits.  A larger one is
  shifted up until its top bit is set (`nlz`), and half of the dividend is divided by its upper half:
  the result is the quotient or one more (`estimate_le`, `le_estimate`), and one comparison decides.
* **Remainder.**  `umod64` and `smod64` compute `n - d * (n / d)` in 64 bits and return it through
  a 32-bit type. -/

namespace Pintos.Arithmetic

/-! ### The source -/

/-- The `divl` instruction on `edx:eax`. -/
def divl (n : BitVec 64) (d : BitVec 32) : Option (BitVec 32) :=
  let n1 : BitVec 32 := (n >>> 32).setWidth 32
  let n0 : BitVec 32 := n.setWidth 32
  let num := n1.toNat * 2 ^ 32 + n0.toNat
  if d = 0 ∨ 2 ^ 32 ≤ num / d.toNat then none else some (BitVec.ofNat 32 (num / d.toNat))

/-- One test of `nlz`: the top `w` bits are zero, and are shifted out. -/
def nlzTest (bound : BitVec 32) (w : ℕ) (p : ℕ × BitVec 32) : ℕ × BitVec 32 :=
  if p.2 ≤ bound then (p.1 + w, p.2 <<< w) else p

/-- `nlz`, the number of leading zero bits. -/
def nlz (x : BitVec 32) : ℕ :=
  let p := nlzTest 0x0000FFFF 16 (0, x)
  let p := nlzTest 0x00FFFFFF 8 p
  let p := nlzTest 0x0FFFFFFF 4 p
  let p := nlzTest 0x3FFFFFFF 2 p
  if p.2 ≤ 0x7FFFFFFF then p.1 + 1 else p.1

/-- `udiv64`; `none` is a trap. -/
def udiv64 (n d : BitVec 64) : Option (BitVec 64) :=
  if d >>> 32 = 0 then do
    let b : BitVec 64 := 1 <<< 32
    let n1 : BitVec 32 := (n >>> 32).setWidth 32
    let n0 : BitVec 32 := n.setWidth 32
    let d0 : BitVec 32 := d.setWidth 32
    let q ← divl (b * (n1 % d0).setWidth 64 + n0.setWidth 64) d0
    return q.setWidth 64 + b * (n1 / d0).setWidth 64
  else if n < d then some 0
  else do
    let d1 : BitVec 32 := (d >>> 32).setWidth 32
    let s := nlz d1
    let q₀ ← divl (n >>> 1) (((d <<< s) >>> 32).setWidth 32)
    let q : BitVec 64 := (q₀ >>> (31 - s)).setWidth 64
    return if n - (q - 1) * d < d then q - 1 else q

/-- `umod64`, which returns a `uint32_t`. -/
def umod64 (n d : BitVec 64) : Option (BitVec 32) := do
  let q ← udiv64 n d
  return (n - d * q).setWidth 32

/-- The absolute value as an unsigned number. -/
def magnitude (n : BitVec 64) : BitVec 64 := if 0 ≤ n.toInt then n else -n

/-- `sdiv64`; negation wraps, as the instruction does. -/
def sdiv64 (n d : BitVec 64) : Option (BitVec 64) := do
  let q ← udiv64 (magnitude n) (magnitude d)
  return if (n.toInt < 0) ↔ (d.toInt < 0) then q else -q

/-- `smod64`, which returns an `int32_t`. -/
def smod64 (n d : BitVec 64) : Option (BitVec 32) := do
  let q ← sdiv64 n d
  return (n - d * q).setWidth 32

/-- `__divdi3`. -/
def divdi3 (n d : BitVec 64) : Option (BitVec 64) := sdiv64 n d

/-- `__moddi3`. -/
def moddi3 (n d : BitVec 64) : Option (BitVec 64) := (smod64 n d).map (BitVec.signExtend 64)

/-- `__udivdi3`. -/
def udivdi3 (n d : BitVec 64) : Option (BitVec 64) := udiv64 n d

/-- `__umoddi3`. -/
def umoddi3 (n d : BitVec 64) : Option (BitVec 64) := (umod64 n d).map (BitVec.setWidth 64)

/-! ### The instruction -/

theorem toNat_high (n : BitVec 64) :
    ((n >>> 32).setWidth 32 : BitVec 32).toNat = n.toNat / 2 ^ 32 := by
  rw [BitVec.toNat_setWidth, BitVec.toNat_ushiftRight, Nat.shiftRight_eq_div_pow]
  apply Nat.mod_eq_of_lt
  omega

theorem toNat_low (n : BitVec 64) : (n.setWidth 32 : BitVec 32).toNat = n.toNat % 2 ^ 32 :=
  BitVec.toNat_setWidth ..

theorem toNat_words (n : BitVec 64) :
    ((n >>> 32).setWidth 32 : BitVec 32).toNat * 2 ^ 32 + (n.setWidth 32 : BitVec 32).toNat =
      n.toNat := by
  rw [toNat_high, toNat_low]
  omega

variable {n : BitVec 64}

/-- **`divl` does not trap if the quotient fits**, and then it is the quotient. -/
theorem divl_eq {d : BitVec 32} (hd : d ≠ 0) (hfit : n.toNat / d.toNat < 2 ^ 32) :
    ∃ q, divl n d = some q ∧ q.toNat = n.toNat / d.toNat := by
  refine ⟨BitVec.ofNat 32 (n.toNat / d.toNat), ?_, ?_⟩
  · unfold divl
    simp only [toNat_words]
    apply if_neg
    intro h
    cases h with
    | inl hzero => exact hd hzero
    | inr hbig => omega
  · exact Nat.mod_eq_of_lt hfit

/-! ### Leading zeros -/

/-- What is left is the number, shifted by the zeros that were counted, and has at most
`31 - low` of them. -/
def Shifted (x : BitVec 32) (low : ℕ) (p : ℕ × BitVec 32) : Prop :=
  p.2.toNat = x.toNat * 2 ^ p.1 ∧ 2 ^ low ≤ p.2.toNat

/-- A test halves the number of leading zeros that are still possible. -/
theorem Shifted.test {x : BitVec 32} {low w : ℕ} {p : ℕ × BitVec 32} {b : BitVec 32}
    (h : Shifted x low p) (hbound : b.toNat = 2 ^ (32 - w) - 1) (hlow : low + w + w = 32) :
    Shifted x (low + w) (nlzTest b w p) := by
  obtain ⟨hval, hge⟩ := h
  have hpow : 2 ^ (32 - w) * 2 ^ w = 2 ^ 32 := by
    rw [← pow_add]
    congr 1
    omega
  have hpos : 0 < 2 ^ (32 - w) := Nat.two_pow_pos _
  unfold nlzTest
  split
  · rename_i hle
    rw [BitVec.le_def, hbound] at hle
    have hlt : p.2.toNat * 2 ^ w < 2 ^ 32 := by
      rw [← hpow]
      exact Nat.mul_lt_mul_of_pos_right (by omega) (Nat.two_pow_pos w)
    have hshift : (p.2 <<< w).toNat = p.2.toNat * 2 ^ w := by
      rw [BitVec.toNat_shiftLeft, Nat.shiftLeft_eq]
      exact Nat.mod_eq_of_lt hlt
    refine ⟨?_, ?_⟩
    · rw [hshift, hval, pow_add, mul_assoc]
    · rw [hshift, pow_add]
      exact Nat.mul_le_mul_right _ hge
  · rename_i hgt
    rw [BitVec.le_def, hbound, not_le] at hgt
    refine ⟨hval, ?_⟩
    have heq : low + w = 32 - w := by omega
    rw [heq]
    omega

/-- **`nlz`** is the shift that moves the highest bit to the top. -/
theorem nlz_spec {x : BitVec 32} (hx : x ≠ 0) :
    nlz x ≤ 31 ∧ 2 ^ 31 ≤ x.toNat * 2 ^ nlz x ∧ x.toNat * 2 ^ nlz x < 2 ^ 32 := by
  have hpos : 0 < x.toNat := by
    apply Nat.pos_of_ne_zero
    intro hzero
    exact hx (BitVec.eq_of_toNat_eq hzero)
  have h0 : Shifted x 0 (0, x) := ⟨by simp, hpos⟩
  have h1 := h0.test (b := 0x0000FFFF) (w := 16) rfl rfl
  have h2 := h1.test (b := 0x00FFFFFF) (w := 8) rfl rfl
  have h3 := h2.test (b := 0x0FFFFFFF) (w := 4) rfl rfl
  have h4 := h3.test (b := 0x3FFFFFFF) (w := 2) rfl rfl
  have h5 := h4.test (b := 0x7FFFFFFF) (w := 1) rfl rfl
  have hnlz : nlz x = (nlzTest 0x7FFFFFFF 1 (nlzTest 0x3FFFFFFF 2 (nlzTest 0x0FFFFFFF 4
      (nlzTest 0x00FFFFFF 8 (nlzTest 0x0000FFFF 16 (0, x)))))).1 := by
    unfold nlz
    dsimp only
    generalize nlzTest 0x3FFFFFFF 2 _ = p
    unfold nlzTest
    split <;> rfl
  obtain ⟨hval, hge⟩ := h5
  have hlt := (nlzTest 0x7FFFFFFF 1 (nlzTest 0x3FFFFFFF 2 (nlzTest 0x0FFFFFFF 4
    (nlzTest 0x00FFFFFF 8 (nlzTest 0x0000FFFF 16 (0, x)))))).2.isLt
  rw [hval, ← hnlz] at hge hlt
  refine ⟨?_, hge, hlt⟩
  have hle : 2 ^ nlz x < 2 ^ 32 := lt_of_le_of_lt (Nat.le_mul_of_pos_left _ hpos) hlt
  have := (Nat.pow_lt_pow_iff_right (by omega : 1 < 2)).mp hle
  omega

/-! ### The small divisor -/

theorem two_digits (b n1 n0 d : ℕ) (hd : 0 < d) :
    (b * (n1 % d) + n0) / d + b * (n1 / d) = (b * n1 + n0) / d := by
  have hsplit : b * n1 + n0 = b * (n1 % d) + n0 + d * (b * (n1 / d)) := by
    conv_lhs => rw [← Nat.mod_add_div n1 d]
    ring
  rw [hsplit, Nat.add_mul_div_left _ _ hd]

theorem toNat_join (h l : BitVec 32) :
    ((1 <<< 32 : BitVec 64) * h.setWidth 64 + l.setWidth 64).toNat = 2 ^ 32 * h.toNat + l.toNat := by
  have hb : (1 <<< 32 : BitVec 64).toNat = 2 ^ 32 := rfl
  simp only [BitVec.toNat_add, BitVec.toNat_mul, BitVec.toNat_setWidth, hb]
  omega

theorem toNat_pos {w : ℕ} {d : BitVec w} (hd : d ≠ 0) : 0 < d.toNat := by
  apply Nat.pos_of_ne_zero
  intro hzero
  exact hd (BitVec.eq_of_toNat_eq hzero)

variable {d : BitVec 64}

theorem udiv64_small (hd : d ≠ 0) (hsmall : d >>> 32 = 0) :
    ∃ q, udiv64 n d = some q ∧ q.toNat = n.toNat / d.toNat := by
  have hhigh : d.toNat / 2 ^ 32 = 0 := by
    rw [← Nat.shiftRight_eq_div_pow, ← BitVec.toNat_ushiftRight, hsmall]
    rfl
  have hpos : 0 < d.toNat := toNat_pos hd
  have hd0 : (d.setWidth 32 : BitVec 32).toNat = d.toNat := by
    rw [toNat_low]
    omega
  have hn := toNat_words n
  unfold udiv64
  rw [if_pos hsmall]
  generalize (d.setWidth 32 : BitVec 32) = d0 at hd0
  generalize ((n >>> 32).setWidth 32 : BitVec 32) = n1 at hn
  generalize (n.setWidth 32 : BitVec 32) = n0 at hn
  -- The quotient of the second digit fits: the first digit is below the divisor.
  have hnum := toNat_join (n1 % d0) n0
  have hfit : (2 ^ 32 * (n1 % d0).toNat + n0.toNat) / d0.toNat < 2 ^ 32 := by
    have hmod : n1.toNat % d0.toNat < d0.toNat := Nat.mod_lt _ (by omega)
    rw [BitVec.toNat_umod, Nat.div_lt_iff_lt_mul (by omega)]
    omega
  have hd0' : d0 ≠ 0 := by
    intro hzero
    rw [hzero] at hd0
    exact hpos.ne hd0
  obtain ⟨q, hq, hqval⟩ := divl_eq hd0' (by rw [hnum]; exact hfit)
  refine ⟨q.setWidth 64 + (1 <<< 32) * (n1 / d0).setWidth 64, ?_, ?_⟩
  · simp only [hq, bind, Option.bind, pure]
  · have hexact := two_digits (2 ^ 32) n1.toNat n0.toNat d0.toNat (by omega)
    rw [BitVec.add_comm, toNat_join, hqval, hnum, BitVec.toNat_umod, BitVec.toNat_udiv,
      Nat.add_comm, hexact, ← hd0, ← hn, Nat.mul_comm]

/-! ### The large divisor -/

theorem le_estimate {n d v : ℕ} (hv : 0 < v) (hle : v ≤ d) : n / d ≤ n / v :=
  Nat.div_le_div_left hle hv

theorem estimate_le {n d v e : ℕ} (hd : 0 < d) (hv : 0 < v) (hle : d ≤ v + e)
    (herr : (n / d + 1) * e ≤ v) : n / v ≤ n / d + 1 := by
  have hlt : n < (n / d + 1) * d := by
    have hquot := Nat.lt_div_mul_add hd (a := n)
    linarith [Nat.succ_mul (n / d) d]
  have hbound : n < (n / d + 2) * v := by
    calc n < (n / d + 1) * d := hlt
      _ ≤ (n / d + 1) * (v + e) := Nat.mul_le_mul_left _ hle
      _ = (n / d + 1) * v + (n / d + 1) * e := Nat.mul_add ..
      _ ≤ (n / d + 1) * v + v := Nat.add_le_add_left herr _
      _ = (n / d + 2) * v := by ring
  have hdiv := (Nat.div_lt_iff_lt_mul hv).mpr hbound
  omega

variable {s : ℕ}

/-- The divisor without its lowest `32 - s` bits, as the code has it: `d` is shifted up by `s`, and
its upper word taken. -/
theorem upper_word {d : ℕ} (hs : s ≤ 31) : d * 2 ^ s / 2 ^ 32 = d / 2 ^ (32 - s) := by
  have hsplit : 2 ^ 32 = 2 ^ s * 2 ^ (32 - s) := by
    rw [← pow_add]
    congr 1
    omega
  rw [hsplit, mul_comm d, Nat.mul_div_mul_left _ _ (Nat.two_pow_pos s)]

/-- **The estimate.**  With `s` leading zeros in the divisor, half of the dividend over its upper
word, scaled down again, is the quotient or one more. -/
theorem estimate {n d : ℕ} (hn : n < 2 ^ 64) (hs : s ≤ 31) (hlow : 2 ^ 63 ≤ d * 2 ^ s) :
    n / d ≤ n / 2 / (d / 2 ^ (32 - s)) / 2 ^ (31 - s) ∧
      n / 2 / (d / 2 ^ (32 - s)) / 2 ^ (31 - s) ≤ n / d + 1 := by
  have hd : 0 < d := by
    apply Nat.pos_of_ne_zero
    intro hzero
    rw [hzero, Nat.zero_mul] at hlow
    omega
  have hsp : 2 ^ s * 2 ^ (32 - s) = 2 ^ 32 := by
    rw [← pow_add]
    congr 1
    omega
  have hhalf : 2 * 2 ^ (31 - s) = 2 ^ (32 - s) := by
    rw [← pow_succ']
    congr 1
    omega
  have hupper : 2 ^ 31 ≤ d / 2 ^ (32 - s) := by
    rw [← upper_word hs]
    omega
  have hbig : 2 ^ (32 - s) = 2 ∧ 2 ^ s = 2 ^ 31 ∨ 4 ≤ 2 ^ (32 - s) := by
    by_cases heq : s = 31
    · subst heq
      exact .inl ⟨rfl, rfl⟩
    · refine .inr ?_
      calc 4 = 2 ^ 2 := rfl
        _ ≤ 2 ^ (32 - s) := Nat.pow_le_pow_right (by omega) (by omega)
  have hmod := Nat.mod_add_div d (2 ^ (32 - s))
  have hrest := Nat.mod_lt d (Nat.two_pow_pos (32 - s))
  -- The two shifts of the quotient are one division, by the divisor rounded down.
  have hdivs : n / 2 / (d / 2 ^ (32 - s)) / 2 ^ (31 - s) =
      n / (2 ^ (32 - s) * (d / 2 ^ (32 - s))) := by
    rw [Nat.div_div_eq_div_mul, Nat.div_div_eq_div_mul, ← hhalf]
    congr 1
    ring
  rw [hdivs]
  generalize 2 ^ (32 - s) = r at *
  generalize 2 ^ s = t at *
  generalize d / r = w at *
  have hquot : n / d < 2 * t := by
    rw [Nat.div_lt_iff_lt_mul hd]
    have : 2 * t * d = 2 * (d * t) := by ring
    omega
  have hv : 0 < r * w := by
    have hr : 0 < r := by omega
    have hw : 0 < w := by omega
    exact Nat.mul_pos hr hw
  refine ⟨le_estimate hv (by omega), estimate_le (e := r - 1) hd hv (by omega) ?_⟩
  calc (n / d + 1) * (r - 1) ≤ 2 * t * (r - 1) := Nat.mul_le_mul_right _ (by omega)
    _ ≤ 2 ^ 31 * r := by
        cases hbig with
        | inl htwo =>
          rw [htwo.1, htwo.2]
          omega
        | inr hfour =>
          have hexp : 2 * t * (r - 1) + 2 * t = 2 * (t * r) := by
            have hr : r - 1 + 1 = r := by omega
            calc 2 * t * (r - 1) + 2 * t = 2 * t * (r - 1 + 1) := by ring
              _ = 2 * (t * r) := by rw [hr]; ring
          omega
    _ ≤ r * w := by
        rw [mul_comm]
        exact Nat.mul_le_mul_left _ hupper

theorem correct {q : BitVec 64} (hd : d ≠ 0) (hge : d ≤ n) (hlo : n.toNat / d.toNat ≤ q.toNat)
    (hhi : q.toNat ≤ n.toNat / d.toNat + 1) :
    (if n - (q - 1) * d < d then q - 1 else q).toNat = n.toNat / d.toNat := by
  have hpos := toNat_pos hd
  have hone : 1 ≤ n.toNat / d.toNat := (Nat.one_le_div_iff hpos).mpr hge
  have hq1 : (q - 1).toNat = q.toNat - 1 := by
    have h1 : (1 : BitVec 64).toNat = 1 := rfl
    rw [BitVec.toNat_sub, h1]
    omega
  have hmod := Nat.mod_add_div n.toNat d.toNat
  have hrest := Nat.mod_lt n.toNat hpos
  have hle : (q.toNat - 1) * d.toNat ≤ n.toNat := by
    calc (q.toNat - 1) * d.toNat ≤ n.toNat / d.toNat * d.toNat :=
          Nat.mul_le_mul_right _ (by omega)
      _ ≤ n.toNat := Nat.div_mul_le_self ..
  have hmul : ((q - 1) * d).toNat = (q.toNat - 1) * d.toNat := by
    rw [BitVec.toNat_mul, hq1]
    exact Nat.mod_eq_of_lt (by omega)
  have hsub : (n - (q - 1) * d).toNat = n.toNat - (q.toNat - 1) * d.toNat := by
    rw [BitVec.toNat_sub, hmul]
    omega
  have hcases : q.toNat = n.toNat / d.toNat ∨ q.toNat = n.toNat / d.toNat + 1 := by omega
  cases hcases with
  | inl heq =>
    have hexp : (n.toNat / d.toNat - 1) * d.toNat + d.toNat = d.toNat * (n.toNat / d.toNat) := by
      rw [← Nat.succ_mul, Nat.succ_eq_add_one, Nat.sub_add_cancel hone, mul_comm]
    rw [if_neg, heq]
    rw [BitVec.lt_def, hsub, heq]
    omega
  | inr heq =>
    have hexp : n.toNat / d.toNat * d.toNat = d.toNat * (n.toNat / d.toNat) := mul_comm ..
    rw [if_pos, hq1, heq, Nat.add_sub_cancel]
    rw [BitVec.lt_def, hsub, heq, Nat.add_sub_cancel]
    omega

/-- The shift that moves the highest bit of the upper word to the top does so for the number. -/
theorem normalised {d : ℕ} (hs : s ≤ 31) (hlow : 2 ^ 31 ≤ d / 2 ^ 32 * 2 ^ s)
    (hhigh : d / 2 ^ 32 * 2 ^ s < 2 ^ 32) : 2 ^ 63 ≤ d * 2 ^ s ∧ d * 2 ^ s < 2 ^ 64 := by
  have hspos := Nat.two_pow_pos s
  have hpow : 2 ^ (32 - s) * 2 ^ s = 2 ^ 32 := by
    rw [← pow_add]
    congr 1
    omega
  have hroom : (d / 2 ^ 32 + 1) * 2 ^ s ≤ 2 ^ 32 := by
    rw [← hpow] at hhigh ⊢
    exact Nat.mul_le_mul_right _ (Nat.lt_of_mul_lt_mul_right hhigh)
  constructor
  · calc 2 ^ 63 = 2 ^ 31 * 2 ^ 32 := rfl
      _ ≤ d / 2 ^ 32 * 2 ^ s * 2 ^ 32 := Nat.mul_le_mul_right _ hlow
      _ = 2 ^ 32 * (d / 2 ^ 32) * 2 ^ s := by ring
      _ ≤ d * 2 ^ s := Nat.mul_le_mul_right _ (by omega)
  · calc d * 2 ^ s < (2 ^ 32 * (d / 2 ^ 32) + 2 ^ 32) * 2 ^ s :=
          Nat.mul_lt_mul_of_pos_right (by omega) hspos
      _ = (d / 2 ^ 32 + 1) * 2 ^ s * 2 ^ 32 := by ring
      _ ≤ 2 ^ 32 * 2 ^ 32 := Nat.mul_le_mul_right _ hroom
      _ = 2 ^ 64 := rfl

theorem udiv64_large (hlarge : d >>> 32 ≠ 0) :
    ∃ q, udiv64 n d = some q ∧ q.toNat = n.toNat / d.toNat := by
  have hn := n.isLt
  have hd : d ≠ 0 := by
    intro hzero
    rw [hzero] at hlarge
    exact hlarge rfl
  unfold udiv64
  rw [if_neg hlarge]
  by_cases hlt : n < d
  · rw [if_pos hlt]
    exact ⟨0, rfl, (Nat.div_eq_of_lt hlt).symm⟩
  · rw [if_neg hlt]
    rw [BitVec.not_lt] at hlt
    have hd1val := toNat_high d
    have hd1 : ((d >>> 32).setWidth 32 : BitVec 32) ≠ 0 := by
      intro hzero
      rw [hzero] at hd1val
      apply hlarge
      apply BitVec.eq_of_toNat_eq
      rw [BitVec.toNat_ushiftRight, Nat.shiftRight_eq_div_pow]
      exact hd1val.symm
    obtain ⟨hs, hlow, hhigh⟩ := nlz_spec hd1
    rw [hd1val] at hlow hhigh
    dsimp only
    generalize nlz ((d >>> 32).setWidth 32) = s at hs hlow hhigh ⊢
    obtain ⟨hge, hbits⟩ := normalised hs hlow hhigh
    obtain ⟨hlo, hhi⟩ := estimate hn hs hge
    -- The divisor of the instruction, and why the quotient fits.
    have hv : (((d <<< s) >>> 32).setWidth 32 : BitVec 32).toNat = d.toNat / 2 ^ (32 - s) := by
      rw [toNat_high, BitVec.toNat_shiftLeft, Nat.shiftLeft_eq, Nat.mod_eq_of_lt hbits,
        upper_word hs]
    have htop : 2 ^ 31 ≤ d.toNat / 2 ^ (32 - s) := by
      rw [← upper_word hs]
      omega
    have hhalf : (n >>> 1).toNat = n.toNat / 2 := by
      rw [BitVec.toNat_ushiftRight, Nat.shiftRight_eq_div_pow, pow_one]
    have hv0 : (((d <<< s) >>> 32).setWidth 32 : BitVec 32) ≠ 0 := by
      intro hzero
      rw [hzero] at hv
      rw [← hv] at htop
      exact absurd htop (by decide)
    have hfit : n.toNat / 2 / (d.toNat / 2 ^ (32 - s)) < 2 ^ 32 := by
      rw [Nat.div_lt_iff_lt_mul (by omega)]
      omega
    obtain ⟨q, hq, hqval⟩ := divl_eq hv0 (by rw [hhalf, hv]; exact hfit)
    rw [hhalf, hv] at hqval
    have hshift : ((q >>> (31 - s)).setWidth 64 : BitVec 64).toNat =
        n.toNat / 2 / (d.toNat / 2 ^ (32 - s)) / 2 ^ (31 - s) := by
      rw [BitVec.toNat_setWidth, Nat.mod_eq_of_lt (by omega), BitVec.toNat_ushiftRight,
        Nat.shiftRight_eq_div_pow, hqval]
    refine ⟨_, ?_, correct hd hlt (by rw [hshift]; exact hlo) (by rw [hshift]; exact hhi)⟩
    simp only [hq, bind, Option.bind, pure]

/-- **`udiv64` is the quotient, and no instruction traps.** -/
theorem udiv64_eq (hd : d ≠ 0) : udiv64 n d = some (n / d) := by
  have hex : ∃ q, udiv64 n d = some q ∧ q.toNat = n.toNat / d.toNat := by
    by_cases hsmall : d >>> 32 = 0
    · exact udiv64_small hd hsmall
    · exact udiv64_large hsmall
  obtain ⟨q, hq, hqval⟩ := hex
  rw [hq]
  congr 1
  apply BitVec.eq_of_toNat_eq
  rw [hqval, BitVec.toNat_udiv]

/-! ### Signed division -/

theorem magnitude_eq (n : BitVec 64) : magnitude n = if n.msb then -n else n := by
  unfold magnitude
  rw [BitVec.msb_eq_toInt]
  by_cases h : 0 ≤ n.toInt
  · rw [if_pos h, if_neg (by simpa using h)]
  · rw [if_neg h, if_pos (by simpa using h)]

theorem magnitude_ne_zero (hd : d ≠ 0) : magnitude d ≠ 0 := by
  rw [magnitude_eq]
  split
  · intro hzero
    exact hd (BitVec.neg_eq_zero_iff.mp hzero)
  · exact hd

/-- **`sdiv64` is the signed division of bit vectors.** -/
theorem sdiv64_eq (hd : d ≠ 0) : sdiv64 n d = some (n.sdiv d) := by
  unfold sdiv64
  simp only [udiv64_eq (magnitude_ne_zero hd), bind, Option.bind, pure]
  congr 1
  rw [magnitude_eq, magnitude_eq, BitVec.sdiv_eq]
  have hneg : ∀ x : BitVec 64, x.toInt < 0 ↔ x.msb = true := by
    intro x
    rw [BitVec.msb_eq_toInt, decide_eq_true_iff]
  simp only [hneg]
  cases n.msb <;> cases d.msb <;> simp

theorem toInt_sdiv (hmin : ¬(n = BitVec.intMin 64 ∧ d = -1)) :
    (n.sdiv d).toInt = n.toInt.tdiv d.toInt := by
  apply BitVec.toInt_sdiv_of_ne_or_ne
  by_contra hboth
  apply hmin
  rw [not_or, not_not, not_not] at hboth
  exact hboth

/-- **Division is exact.**  For every dividend and every divisor but zero, no `divl` traps, `udiv64`
returns the quotient rounded down, and `sdiv64` the quotient rounded towards zero, if that is not
`2 ^ 63`. -/
theorem division_exact (n d : BitVec 64) (hd : d ≠ 0) :
    (∃ q, udiv64 n d = some q ∧ q.toNat = n.toNat / d.toNat) ∧
      (¬(n = BitVec.intMin 64 ∧ d = -1) →
        ∃ q, sdiv64 n d = some q ∧ q.toInt = n.toInt.tdiv d.toInt) := by
  refine ⟨⟨n / d, udiv64_eq hd, BitVec.toNat_udiv⟩, fun hmin => ?_⟩
  exact ⟨n.sdiv d, sdiv64_eq hd, toInt_sdiv hmin⟩

theorem division_exact_large :
    udiv64 0xFFFFFFFFFFFFFFFF 0x100000001 = some 0xFFFFFFFF ∧
      ∃ q, sdiv64 0xFFFFFFFFFFFFFFFF 0x100000001 = some q ∧ q.toInt = (-1 : ℤ).tdiv 4294967297 := by
  refine ⟨by decide +kernel, ?_⟩
  exact (division_exact 0xFFFFFFFFFFFFFFFF 0x100000001 (by decide)).2 (by decide)

/-! ### Remainders -/

theorem umoddi3_eq (hd : d ≠ 0) : umoddi3 n d = some ((n % d).setWidth 32 |>.setWidth 64) := by
  have hrem : n - d * (n / d) = n % d := by
    apply BitVec.eq_of_toNat_eq
    have hn := n.isLt
    have hmod := Nat.mod_add_div n.toNat d.toNat
    have hle := Nat.mul_div_le n.toNat d.toNat
    rw [BitVec.toNat_umod, BitVec.toNat_sub, BitVec.toNat_mul, BitVec.toNat_udiv,
      Nat.mod_eq_of_lt (lt_of_le_of_lt hle hn)]
    omega
  simp only [umoddi3, umod64, udiv64_eq hd, bind, Option.bind, pure, Option.map_some, hrem]

/-- What `moddi3` returns is the remainder, cut down to 32 bits with their sign. -/
theorem moddi3_eq (hd : d ≠ 0) :
    ∃ r, moddi3 n d = some r ∧ r.toInt = (n.toInt - d.toInt * (n.sdiv d).toInt).bmod (2 ^ 32) := by
  refine ⟨((n - d * n.sdiv d).setWidth 32).signExtend 64, ?_, ?_⟩
  · simp only [moddi3, smod64, sdiv64_eq hd, bind, Option.bind, pure, Option.map_some]
  · have hcut : ((n - d * n.sdiv d).setWidth 32).toInt =
        (n - d * n.sdiv d).toInt.bmod (2 ^ 32) := by
      rw [BitVec.toInt_setWidth, BitVec.toInt_eq_toNat_bmod]
      exact (Int.bmod_bmod_of_dvd (by decide)).symm
    rw [BitVec.toInt_signExtend, hcut, BitVec.toInt_sub, BitVec.toInt_mul]
    rw [Int.sub_bmod_bmod, Nat.min_eq_right (by omega : 32 ≤ 64), Int.bmod_bmod,
      Int.bmod_bmod_of_dvd (by decide : (2 ^ 32 : ℕ) ∣ 2 ^ 64)]

theorem bmod_eq_self_iff (x : ℤ) : x.bmod (2 ^ 32) = x ↔ -2 ^ 31 ≤ x ∧ x < 2 ^ 31 := by
  rw [Int.bmod_def]
  split <;> omega

/-- **When a remainder is exact.**  `__umoddi3` is the remainder exactly if that fits into an
unsigned word, and `__moddi3` belongs to the quotient of `__divdi3` exactly if the remainder fits
into a signed word. -/
theorem remainder_exact_iff (n d : BitVec 64) (hd : d ≠ 0) :
    ((∃ r, umoddi3 n d = some r ∧ r.toNat = n.toNat % d.toNat) ↔ n.toNat % d.toNat < 2 ^ 32) ∧
      (¬(n = BitVec.intMin 64 ∧ d = -1) →
        ((∃ q r, divdi3 n d = some q ∧ moddi3 n d = some r ∧
            r.toInt = n.toInt - d.toInt * q.toInt) ↔
          -2 ^ 31 ≤ n.toInt.tmod d.toInt ∧ n.toInt.tmod d.toInt < 2 ^ 31)) := by
  constructor
  · rw [umoddi3_eq hd]
    have hval : (((n % d).setWidth 32 : BitVec 32).setWidth 64 : BitVec 64).toNat =
        n.toNat % d.toNat % 2 ^ 32 := by
      rw [BitVec.toNat_setWidth, toNat_low, BitVec.toNat_umod]
      omega
    constructor
    · rintro ⟨r, hr, hexact⟩
      rw [← Option.some.inj hr, hval] at hexact
      omega
    · intro hlt
      exact ⟨_, rfl, hval.trans (Nat.mod_eq_of_lt hlt)⟩
  · intro hmin
    obtain ⟨r, hr, hrval⟩ := moddi3_eq hd (n := n)
    have hrem : n.toInt - d.toInt * (n.sdiv d).toInt = n.toInt.tmod d.toInt := by
      rw [toInt_sdiv hmin]
      have := Int.tmod_add_mul_tdiv n.toInt d.toInt
      omega
    rw [← bmod_eq_self_iff, ← hrem]
    constructor
    · rintro ⟨q', r', hq', hr', hexact⟩
      obtain rfl : n.sdiv d = q' := Option.some.inj ((sdiv64_eq hd).symm.trans hq')
      cases hr.symm.trans hr'
      rw [← hrval]
      exact hexact
    · intro hexact
      exact ⟨_, r, sdiv64_eq hd, hr, hrval.trans hexact⟩

theorem remainder_exact_iff_ten : ∃ r, umoddi3 0xFFFFFFFFFFFFFFFF 10 = some r ∧ r.toNat = 5 :=
  (remainder_exact_iff 0xFFFFFFFFFFFFFFFF 10 (by decide)).1.mpr (by decide)

/-- A remainder of `2 ^ 32` comes back as zero, and one of `2 ^ 31` with the other sign. -/
theorem not_remainder_exact :
    umoddi3 0x100000000 0x200000000 = some 0 ∧ 0x100000000 % 0x200000000 = (0x100000000 : ℕ) ∧
      divdi3 0x80000000 0x100000000 = some 0 ∧
      moddi3 0x80000000 0x100000000 = some 0xFFFFFFFF80000000 := by
  decide +kernel

end Pintos.Arithmetic

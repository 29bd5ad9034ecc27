import Pintos.BlockDevice
import Pintos.Fields
import Pintos.Stdio
import Mathlib.Data.List.TakeWhile

/-! # Archive headers: `lib/ustar.c`

* `stripAntisocialPrefixes`: the name under which a file is archived.
* `makeHeader`: `ustar_make_header`, the 512 bytes of a header; `parseHeader`:
  `ustar_parse_header`, with its messages (`ParseError`).
* `parseOctalField_octalField`: a number is read back from its octal field.
* **`parseHeader_makeHeader`**: what is written into a header is what is read from it.
* `stripBytes`: the same stripping on the bytes in memory, with every read it makes.
* **`accepted_name_harmless`**, **`parseHeader_detects`**: what an accepted header is safe for. -/

namespace Pintos.Ustar

open Fields Function List Option Stdio

/-- A string: its bytes without the null byte that ends it. -/
abbrev Chars := List UInt8

/-- `enum ustar_type`, for the members of an archive. -/
inductive UstarType
  | regular | directory
deriving DecidableEq

/-- The byte of a type in the file format. -/
def UstarType.code : UstarType → UInt8
  | regular => 48
  | directory => 53

/-- The name starts with `/`, `./` or `../`. -/
def isAntisocial (name : Chars) : Bool :=
  name.take 1 == [47] || name.take 2 == [46, 47] || name.take 3 == [46, 46, 47]

/-- `strchr (name, '/') + 1`. -/
def afterSlash (name : Chars) : Chars := (name.dropWhile (· != 47)).tail

theorem length_afterSlash_lt {name : Chars} (h : isAntisocial name = true) :
    (afterSlash name).length < name.length := by
  have hpos : 0 < name.length := by
    cases name with
    | nil => cases h
    | cons c s => exact Nat.succ_pos _
  have hle : (name.dropWhile (· != 47)).length ≤ name.length :=
    (dropWhile_sublist _).length_le
  rw [afterSlash, length_tail]
  omega

def stripAntisocialPrefixes (name : Chars) : Chars :=
  if _h : isAntisocial name = true then stripAntisocialPrefixes (afterSlash name)
  else if name = [] ∨ name = [46, 46] then [46] else name
termination_by name.length
decreasing_by exact length_afterSlash_lt _h

/-- The bytes that `strlcpy` writes into a buffer of the given size. -/
def strlcpy (size : ℕ) (src : Chars) : List UInt8 :=
  if size = 0 then [] else src.take (size - 1) ++ [0]

/-- `snprintf (field, size, "%0wo", value)`. -/
def octalField (size w value : ℕ) : List UInt8 :=
  snprintf size (formatInteger value false false baseO (zeroOctal w))

/-- `calculate_chksum`: the sum of the bytes, with the checksum field taken as spaces. -/
def calculateChksum (h : ℕ → UInt8) : ℕ :=
  (∑ i ∈ Finset.range 512, if 148 ≤ i ∧ i < 156 then 32 else (h i).toNat) % 2 ^ 32

/-- The header but for its checksum. -/
def composeHeader (name : Chars) (type : UstarType) (size : Int32) : ℕ → UInt8 :=
  let h := fun _ => 0
  let h := put h 0 (strlcpy 100 name)
  let h := put h 100 (octalField 8 7 (if type = .regular then 0o644 else 0o755))
  let h := put h 108 (strlcpy 8 [48, 48, 48, 48, 48, 48, 48])
  let h := put h 116 (strlcpy 8 [48, 48, 48, 48, 48, 48, 48])
  let h := put h 124 (octalField 12 11 size.toUInt32.toNat)
  let h := put h 136 (octalField 12 11 1136102400)
  let h := put h 156 [type.code]
  let h := put h 257 (strlcpy 6 [117, 115, 116, 97, 114])
  let h := put h 263 [48, 48]
  let h := put h 297 (strlcpy 32 [114, 111, 111, 116])
  put h 265 (strlcpy 32 [114, 111, 111, 116])

/-- `ustar_make_header`; no header stands for `false`. -/
def makeHeader (fileName : Chars) (type : UstarType) (size : Int32) : Option Block :=
  let name := stripAntisocialPrefixes fileName
  if 99 < name.length then none
  else
    let h := composeHeader name type size
    let h := put h 148 (octalField 8 7 (calculateChksum h))
    some fun p => h p.val

/-- The loop of `parse_octal_field`. -/
def parseOctalLoop : List UInt8 → ℕ → ℕ → Option ℕ
  | [], _, _ => none
  | c :: s, ofs, value =>
    if 48 ≤ c ∧ c ≤ 55 then
      if (2 ^ 32 - 1) / 8 < value then none
      else parseOctalLoop s (ofs + 1) (c.toNat - 48 + value * 8)
    else if c = 32 ∨ c = 0 then if 0 < ofs then some value else none
    else none

def parseOctalField (s : List UInt8) : Option ℕ := parseOctalLoop s 0 0

/-- The messages of `ustar_parse_header`. -/
inductive ParseError
  /-- "not a ustar archive" -/
  | notUstar
  /-- "invalid ustar version" -/
  | version
  /-- "corrupt chksum field" -/
  | chksumField
  /-- "checksum mismatch" -/
  | chksum
  /-- "file name too long" -/
  | nameTooLong
  /-- "unimplemented file type" -/
  | fileType
  /-- "corrupt file size field" -/
  | sizeField
  /-- "file too large" -/
  | tooLarge
deriving DecidableEq

/-- What a header stands for. -/
inductive Parsed
  | eof
  | member (name : Chars) (type : UstarType) (size : Int32)
deriving DecidableEq

/-- The bytes of a sector. -/
def bytesOf (b : Block) : ℕ → UInt8 := fun p => if h : p < 512 then b ⟨p, h⟩ else 0

/-- `h->name`, which ends at its first null byte. -/
def nameOf (h : ℕ → UInt8) : Chars := (slice h 0 100).takeWhile (· != 0)

/-- `ustar_parse_header`. -/
def parseHeader (b : Block) : Except ParseError Parsed :=
  let h := bytesOf b
  if ∀ p : Fin 512, b p = 0 then .ok .eof
  else if slice h 257 6 ≠ [117, 115, 116, 97, 114, 0] then .error .notUstar
  else if h 263 ≠ 48 ∨ h 264 ≠ 48 then .error .version
  else
    match parseOctalField (slice h 148 8) with
    | none => .error .chksumField
    | some chksum =>
      if chksum ≠ calculateChksum h then .error .chksum
      else if h 99 ≠ 0 ∨ h 345 ≠ 0 then .error .nameTooLong
      else if h 156 = UstarType.regular.code then
        match parseOctalField (slice h 124 12) with
        | none => .error .sizeField
        | some size =>
          if 2 ^ 31 - 1 < size then .error .tooLarge
          else .ok (.member (stripAntisocialPrefixes (nameOf h)) .regular (Int32.ofNat size))
      else if h 156 = UstarType.directory.code then
        .ok (.member (stripAntisocialPrefixes (nameOf h)) .directory 0)
      else .error .fileType

/-! ### Octal fields -/

variable {value w : ℕ}

theorem octalField_eq (hw : 0 < w) (h : value < 8 ^ w) :
    octalField (w + 1) w value = ((octalDigits w value).map octalDigit).reverse ++ [0] := by
  rw [octalField, snprintf, if_neg (Nat.succ_ne_zero w), formatInteger_octal hw h,
    Nat.add_sub_cancel, take_of_length_le]
  rw [length_reverse, length_map, length_octalDigits h]

theorem length_octalField (hw : 0 < w) (h : value < 8 ^ w) :
    (octalField (w + 1) w value).length = w + 1 := by
  rw [octalField_eq hw h, length_append, length_reverse, length_map,
    length_octalDigits h]
  rfl

variable {d : ℕ} {h' : ℕ → UInt8} {xs : List UInt8} {b : Block} {t s : Chars}

theorem toNat_octalDigit (h : d < 8) : (octalDigit d).toNat = 48 + d := by
  rw [octalDigit, UInt8.toNat_ofNat']
  omega

theorem octalDigit_range (h : d < 8) : 48 ≤ octalDigit d ∧ octalDigit d ≤ 55 := by
  rw [UInt8.le_iff_toNat_le, UInt8.le_iff_toNat_le, toNat_octalDigit h]
  exact ⟨Nat.le_add_right 48 d, by change 48 + d ≤ 55; omega⟩

theorem le_foldl_octal (ds : List ℕ) (value : ℕ) :
    value ≤ ds.foldl (fun v d => v * 8 + d) value := by
  induction ds generalizing value with
  | nil => exact le_rfl
  | cons d ds ih => exact le_trans (by omega) (ih (value * 8 + d))

theorem parseOctalLoop_digits (ds : List ℕ) (hds : ∀ d ∈ ds, d < 8) (ofs value : ℕ)
    (hlen : 0 < ofs + ds.length) (hlt : ds.foldl (fun v d => v * 8 + d) value < 2 ^ 32) :
    parseOctalLoop (ds.map octalDigit ++ [0]) ofs value =
      some (ds.foldl (fun v d => v * 8 + d) value) := by
  induction ds generalizing ofs value with
  | nil =>
    have hofs : 0 < ofs := by simpa using hlen
    simp [parseOctalLoop, hofs]
  | cons d ds ih =>
    have hd : d < 8 := hds d mem_cons_self
    have hle := le_foldl_octal ds (value * 8 + d)
    rw [foldl_cons] at hlt ⊢
    rw [map_cons, cons_append, parseOctalLoop, if_pos (octalDigit_range hd),
      if_neg (by omega), toNat_octalDigit hd,
      show 48 + d - 48 + value * 8 = value * 8 + d by omega]
    exact ih (fun d' hd' => hds d' (mem_cons_of_mem d hd')) (ofs + 1) _ (by omega) hlt

/-- A number is read back from its octal field. -/
theorem parseOctalField_octalField (hw : 0 < w) (h : value < 8 ^ w) (hlt : value < 2 ^ 32) :
    parseOctalField (octalField (w + 1) w value) = some value := by
  have hfold : (octalDigits w value).reverse.foldl (fun v d => v * 8 + d) 0 = value := by
    rw [foldl_reverse]
    conv_rhs => rw [← ofDigits_octalDigits w value, Nat.ofDigits_eq_foldr]
    congr 1
    funext d v
    simp [Nat.mul_comm, Nat.add_comm]
  rw [octalField_eq hw h, parseOctalField, ← map_reverse, parseOctalLoop_digits, hfold]
  · exact fun d hd => octalDigits_lt (mem_reverse.mp hd)
  · rw [length_reverse, length_octalDigits h]
    omega
  · rw [hfold]
    exact hlt

/-! ### Names -/

theorem not_isAntisocial_strip (name : Chars) :
    isAntisocial (stripAntisocialPrefixes name) = false := by
  induction name using stripAntisocialPrefixes.induct with
  | case1 name h ih => rw [stripAntisocialPrefixes, dif_pos h]; exact ih
  | case2 name h hdot => rw [stripAntisocialPrefixes, dif_neg h, if_pos hdot]; rfl
  | case3 name h hdot =>
    rw [stripAntisocialPrefixes, dif_neg h, if_neg hdot]
    exact Bool.not_eq_true _ ▸ h

theorem strip_ne_nil (name : Chars) :
    stripAntisocialPrefixes name ≠ [] ∧ stripAntisocialPrefixes name ≠ [46, 46] := by
  induction name using stripAntisocialPrefixes.induct with
  | case1 name h ih => rw [stripAntisocialPrefixes, dif_pos h]; exact ih
  | case2 name h hdot => rw [stripAntisocialPrefixes, dif_neg h, if_pos hdot]; decide
  | case3 name h hdot =>
    rw [stripAntisocialPrefixes, dif_neg h, if_neg hdot]
    exact not_or.mp hdot

theorem strip_strip (name : Chars) :
    stripAntisocialPrefixes (stripAntisocialPrefixes name) = stripAntisocialPrefixes name := by
  rw [stripAntisocialPrefixes, dif_neg (Bool.eq_false_iff.mp (not_isAntisocial_strip name)),
    if_neg (not_or.mpr (strip_ne_nil name))]

theorem mem_afterSlash {name : Chars} {c : UInt8} (h : c ∈ afterSlash name) : c ∈ name :=
  (dropWhile_sublist _).subset (mem_of_mem_tail h)

theorem zero_notMem_strip {name : Chars} (h : 0 ∉ name) : 0 ∉ stripAntisocialPrefixes name := by
  induction name using stripAntisocialPrefixes.induct with
  | case1 name hs ih =>
    rw [stripAntisocialPrefixes, dif_pos hs]
    exact ih fun hc => h (mem_afterSlash hc)
  | case2 name hs hdot => rw [stripAntisocialPrefixes, dif_neg hs, if_pos hdot]; decide
  | case3 name hs hdot => rw [stripAntisocialPrefixes, dif_neg hs, if_neg hdot]; exact h

/-! ### The checksum -/

/-- The sum is too small to wrap. -/
theorem calculateChksum_eq (h : ℕ → UInt8) : calculateChksum h < 8 ^ 7 ∧ calculateChksum h =
    ∑ i ∈ Finset.range 512, if 148 ≤ i ∧ i < 156 then 32 else (h i).toNat := by
  have hle : ∑ i ∈ Finset.range 512, (if 148 ≤ i ∧ i < 156 then 32 else (h i).toNat) ≤
      (Finset.range 512).card • 255 := by
    apply Finset.sum_le_card_nsmul
    intro i _
    have hlt := (h i).toNat_lt
    split <;> omega
  rw [Finset.card_range, smul_eq_mul] at hle
  unfold calculateChksum
  omega

theorem calculateChksum_lt (h : ℕ → UInt8) : calculateChksum h < 8 ^ 7 := (calculateChksum_eq h).1

variable {p : ℕ} {h : ℕ → UInt8}

/-- Headers that differ in one byte only, which is summed, have different sums. -/
theorem eq_of_calculateChksum_eq (hp : p < 512) (hout : p < 148 ∨ 156 ≤ p)
    (hsame : ∀ q, q ≠ p → h q = h' q) (he : calculateChksum h = calculateChksum h') :
    h p = h' p := by
  have hmem := Finset.mem_range.mpr hp
  have hfield : ¬(148 ≤ p ∧ p < 156) := by omega
  rw [(calculateChksum_eq h).2, (calculateChksum_eq h').2, ← Finset.add_sum_erase _ _ hmem,
    ← Finset.add_sum_erase _ _ hmem, if_neg hfield, if_neg hfield] at he
  rw [Finset.sum_congr rfl fun q hq => by rw [hsame q (Finset.ne_of_mem_erase hq)]] at he
  exact UInt8.toNat_inj.mp (Nat.add_right_cancel he)

theorem calculateChksum_put (h : ℕ → UInt8) (hx : xs.length = 8) :
    calculateChksum (put h 148 xs) = calculateChksum h := by
  refine congrArg (· % 2 ^ 32) (Finset.sum_congr rfl fun i _ => ?_)
  split
  · rfl
  · next hi =>
      by_cases hlt : i < 148
      · rw [put_of_lt hlt]
      · rw [put_of_ge (by omega)]

theorem calculateChksum_congr (he : ∀ i < 512, h i = h' i) :
    calculateChksum h = calculateChksum h' := by
  refine congrArg (· % 2 ^ 32) (Finset.sum_congr rfl fun i hi => ?_)
  rw [he i (Finset.mem_range.mp hi)]

/-! ### The fields of a header -/

theorem toNat_size_lt {size : Int32} (h : 0 ≤ size) : size.toUInt32.toNat < 2 ^ 31 := by
  have hnonneg : (0 : ℤ) ≤ size.toBitVec.toInt := by simpa using Int32.le_iff_toInt_le.mp h
  rw [BitVec.toInt_eq_toNat_cond] at hnonneg
  change size.toBitVec.toNat < 2 ^ 31
  split at hnonneg <;> omega

theorem ofNat_toNat_size (size : Int32) : Int32.ofNat size.toUInt32.toNat = size := by
  apply Int32.toBitVec_inj.mp
  exact BitVec.eq_of_toNat_eq (by simp)

variable {n ofs : ℕ}

theorem slice_put_eq {v : ℕ → UInt8} (h : xs.length = n) :
    slice (put v ofs xs) ofs n = xs := h ▸ slice_put v ofs xs

section Header

variable (name : Chars) (type : UstarType) (size : Int32)

/-- The bytes that `ustar_make_header` composes. -/
def headerBytes : ℕ → UInt8 :=
  put (composeHeader name type size) 148
    (octalField 8 7 (calculateChksum (composeHeader name type size)))

theorem length_chksumField (h : ℕ → UInt8) : (octalField 8 7 (calculateChksum h)).length = 8 :=
  length_octalField (by decide) (calculateChksum_lt h)

theorem slice_headerBytes (h : ofs + n ≤ 148 ∨ 156 ≤ ofs) :
    slice (headerBytes name type size) ofs n = slice (composeHeader name type size) ofs n := by
  apply slice_put_of_disjoint
  rw [length_chksumField]
  exact h

theorem headerBytes_apply (h : p < 148 ∨ 156 ≤ p) :
    headerBytes name type size p = composeHeader name type size p := by
  cases h with
  | inl h => exact put_of_lt h _ _
  | inr h => exact put_of_ge (by rw [length_chksumField]; exact h) _

theorem header_chksum :
    slice (headerBytes name type size) 148 8 =
      octalField 8 7 (calculateChksum (headerBytes name type size)) := by
  rw [headerBytes, slice_put_eq (length_chksumField _), calculateChksum_put _ (length_chksumField _)]

theorem header_magic :
    slice (headerBytes name type size) 257 6 = [117, 115, 116, 97, 114, 0] := by
  rw [slice_headerBytes _ _ _ (by decide)]
  unfold composeHeader
  rw [slice_put_of_disjoint (by decide), slice_put_of_disjoint (by decide),
    slice_put_of_disjoint (by decide)]
  exact slice_put_eq rfl

theorem header_version :
    headerBytes name type size 263 = 48 ∧ headerBytes name type size 264 = 48 := by
  constructor
  · rw [headerBytes_apply _ _ _ (by decide)]
    unfold composeHeader
    rfl
  · rw [headerBytes_apply _ _ _ (by decide)]
    unfold composeHeader
    rfl

theorem header_type : headerBytes name type size 156 = type.code := by
  rw [headerBytes_apply _ _ _ (by decide)]
  unfold composeHeader
  rfl

variable {name} {size}

theorem header_size (hsize : 0 ≤ size) :
    slice (headerBytes name type size) 124 12 = octalField 12 11 size.toUInt32.toNat := by
  have hlt := toNat_size_lt hsize
  rw [slice_headerBytes _ _ _ (by decide)]
  unfold composeHeader
  rw [slice_put_of_disjoint (by decide), slice_put_of_disjoint (by decide),
    slice_put_of_disjoint (by decide), slice_put_of_disjoint (by decide),
    slice_put_of_disjoint (.inl (by decide)), slice_put_of_disjoint (.inl (by decide))]
  exact slice_put_eq (length_octalField (by decide) (by omega))

theorem length_mode : (octalField 8 7 (if type = .regular then 0o644 else 0o755)).length = 8 := by
  apply length_octalField (by decide)
  split <;> decide

theorem length_sizeField (hsize : 0 ≤ size) :
    (octalField 12 11 size.toUInt32.toNat).length = 12 := by
  have hlt := toNat_size_lt hsize
  exact length_octalField (by decide) (by omega)

theorem length_mtime : (octalField 12 11 1136102400).length = 12 :=
  length_octalField (by decide) (by decide)

/-- Only the name is written before offset 100, and nothing from offset 329 on. -/
theorem header_outside (hsize : 0 ≤ size) (h : p < 100 ∨ 329 ≤ p) :
    headerBytes name type size p = put (fun _ => 0) 0 (strlcpy 100 name) p := by
  rw [headerBytes_apply _ _ _ (by omega)]
  unfold composeHeader
  cases h with
  | inl h =>
    iterate 10 rw [put_of_lt (by omega)]
  | inr h =>
    have hroot : (strlcpy 32 [114, 111, 111, 116]).length = 5 := rfl
    have hid : (strlcpy 8 [48, 48, 48, 48, 48, 48, 48]).length = 8 := rfl
    have hmagic : (strlcpy 6 [117, 115, 116, 97, 114]).length = 6 := rfl
    have hmode := length_mode type
    have hsizeField := length_sizeField hsize
    have hmtime := length_mtime
    rw [put_of_ge (by omega), put_of_ge (by omega), put_of_ge (by simp; omega),
      put_of_ge (by omega), put_of_ge (by simp; omega), put_of_ge (by omega),
      put_of_ge (by omega), put_of_ge (by omega), put_of_ge (by omega), put_of_ge (by omega)]

theorem strlcpy_eq (hname : name.length ≤ 99) : strlcpy 100 name = name ++ [0] := by
  rw [strlcpy, if_neg (by decide), take_of_length_le hname]

theorem header_zero (hsize : 0 ≤ size) (hname : name.length ≤ 99) (hp : name.length ≤ p)
    (h : p < 100 ∨ 329 ≤ p) : headerBytes name type size p = 0 := by
  rw [header_outside type hsize h, strlcpy_eq hname]
  by_cases he : p = name.length
  · rw [put_apply (Nat.zero_le p) (by simp [he])]
    simp [he]
  · rw [put_of_ge (by simp; omega)]

theorem header_name (hsize : 0 ≤ size) (hname : name.length ≤ 99) (hzero : 0 ∉ name) :
    nameOf (headerBytes name type size) = name := by
  have hfirst : slice (headerBytes name type size) 0 name.length = name := by
    apply ext_getElem
    · simp
    · intro i h1 h2
      simp only [slice, getElem_map, getElem_range]
      rw [header_outside type hsize (.inl (by omega)), strlcpy_eq hname, put_add (by simp; omega)]
      simp [getElem_append_left h2]
  have hnext : slice (headerBytes name type size) name.length (100 - name.length) =
      0 :: slice (headerBytes name type size) (name.length + 1) (99 - name.length) := by
    rw [show 100 - name.length = 99 - name.length + 1 by omega, slice_succ,
      header_zero type hsize hname le_rfl (.inl (by omega))]
  rw [nameOf, show 100 = name.length + (100 - name.length) by omega, slice_append, hfirst,
    Nat.zero_add, hnext, takeWhile_append_of_pos]
  · simp
  · intro c hc
    simpa using fun h0 : c = 0 => hzero (h0 ▸ hc)

end Header

theorem bytesOf_apply (h : ℕ → UInt8) (hp : p < 512) :
    bytesOf (fun q => h q.val) p = h p := dif_pos hp

theorem slice_bytesOf (h : ℕ → UInt8) (hle : ofs + n ≤ 512) :
    slice (bytesOf fun q => h q.val) ofs n = slice h ofs n :=
  slice_congr fun _ _ hlt => bytesOf_apply h (by omega)

theorem parseHeader_headerBytes {name : Chars} {type : UstarType} {size : Int32}
    (hname : name.length ≤ 99) (hzero : 0 ∉ name) (hstrip : stripAntisocialPrefixes name = name)
    (hsize : 0 ≤ size) :
    parseHeader (fun p => headerBytes name type size p.val) =
      .ok (.member name type (if type = .regular then size else 0)) := by
  have hall : ¬ ∀ p : Fin 512, headerBytes name type size p.val = 0 := by
    intro h0
    have h263 := h0 ⟨263, by decide⟩
    rw [(header_version name type size).1] at h263
    cases h263
  have hchk : calculateChksum (bytesOf fun q => headerBytes name type size q.val) =
      calculateChksum (headerBytes name type size) :=
    calculateChksum_congr fun i hi => bytesOf_apply _ hi
  have hnameOf : nameOf (bytesOf fun q => headerBytes name type size q.val) = name := by
    rw [nameOf, slice_bytesOf _ (by decide)]
    exact header_name type hsize hname hzero
  have hlt := calculateChksum_lt (headerBytes name type size)
  have hsizeLt := toNat_size_lt hsize
  unfold parseHeader
  rw [if_neg hall, slice_bytesOf _ (by decide), header_magic, if_neg (by simp),
    bytesOf_apply _ (by decide), bytesOf_apply _ (by decide),
    (header_version name type size).1, (header_version name type size).2, if_neg (by simp),
    slice_bytesOf _ (by decide), header_chksum,
    parseOctalField_octalField (by decide) hlt (by omega)]
  dsimp only
  rw [hchk, if_neg (not_not.mpr rfl), bytesOf_apply _ (by decide), bytesOf_apply _ (by decide),
    header_zero type hsize hname (by omega) (by decide),
    header_zero type hsize hname (by omega) (by decide), if_neg (by simp),
    bytesOf_apply _ (by decide), header_type, hnameOf, hstrip]
  cases type with
  | regular =>
    rw [if_pos rfl, slice_bytesOf _ (by decide), header_size _ hsize,
      parseOctalField_octalField (by decide) (by omega) (by omega)]
    dsimp only
    rw [if_neg (by omega), ofNat_toNat_size]
    rfl
  | directory => rfl

theorem makeHeader_eq_some {fileName : Chars} {type : UstarType} {size : Int32}
    (h : makeHeader fileName type size = some b) :
    (stripAntisocialPrefixes fileName).length ≤ 99 ∧
      b = fun p => headerBytes (stripAntisocialPrefixes fileName) type size p.val := by
  unfold makeHeader at h
  dsimp only at h
  split at h
  · cases h
  · next hlong => exact ⟨Nat.not_lt.mp hlong, (some.inj h).symm⟩

/-- **The header round trip.** -/
theorem parseHeader_makeHeader (fileName : Chars) (type : UstarType) (size : Int32) (b : Block)
    (hzero : 0 ∉ fileName) (hsize : 0 ≤ size) (hmake : makeHeader fileName type size = some b) :
    parseHeader b = .ok (.member (stripAntisocialPrefixes fileName) type
      (if type = .regular then size else 0)) := by
  obtain ⟨hname, rfl⟩ := makeHeader_eq_some hmake
  exact parseHeader_headerBytes hname (zero_notMem_strip hzero) (strip_strip fileName) hsize

theorem strip_slash_a : stripAntisocialPrefixes [47, 97] = [97] := by
  decide +kernel

/-- A file `/a` of five bytes. -/
theorem parseHeader_makeHeader_slash :
    ∃ b, makeHeader [47, 97] .regular 5 = some b ∧ parseHeader b = .ok (.member [97] .regular 5) := by
  have hmake : ∃ b, makeHeader [47, 97] .regular 5 = some b := by
    unfold makeHeader
    rw [strip_slash_a]
    exact ⟨_, if_neg (by decide)⟩
  obtain ⟨b, hb⟩ := hmake
  refine ⟨b, hb, ?_⟩
  have h := parseHeader_makeHeader [47, 97] .regular 5 b (by decide) (by decide) hb
  rw [strip_slash_a] at h
  exact h

/-! ### The bytes that are read

A string in memory is its bytes up to the terminator and the terminator; there is nothing to read
behind that. -/

/-- `!memcmp (s, t, n)` for the `n` bytes `t`: they are compared up to the first difference. -/
def memcmp : List UInt8 → List UInt8 → Option Bool
  | _, [] => some true
  | [], _ :: _ => none
  | a :: s, c :: t => if a = c then memcmp s t else some false

/-- `!strcmp (s, t)`. -/
def strcmp : List UInt8 → List UInt8 → Option Bool
  | a :: s, c :: t => if a ≠ 0 ∧ a = c then strcmp s t else some (a == c)
  | _, _ => none

/-- `strchr (s, c)`; a null pointer, which is no string, is no result either. -/
def strchr (c : UInt8) : List UInt8 → Option (List UInt8)
  | [] => none
  | a :: s => if a = c then some (a :: s) else if a = 0 then none else strchr c s

/-- `strip_antisocial_prefixes` with its reads.  There is no result if one of them is behind the
terminator, or if the loop takes `fuel` rounds. -/
def stripBytes : ℕ → List UInt8 → Option (List UInt8)
  | 0, _ => none
  | fuel + 1, s => do
    let c ← s.head?
    let antisocial ←
      (if c = 47 then some true
      else do if ← memcmp s [46, 47] then some true else memcmp s [46, 46, 47])
    if antisocial then stripBytes fuel (← strchr 47 s).tail
    else if c = 0 then some [46, 0]
    else if ← strcmp s [46, 46, 0] then some [46, 0] else some s

theorem memcmp_string (h : 0 ∉ t) (s : Chars) :
    memcmp (s ++ [0]) t = some (s.take t.length == t) := by
  induction t generalizing s with
  | nil => cases s <;> rfl
  | cons c t ih =>
    cases s with
    | nil => exact if_neg fun h0 : 0 = c => h (h0 ▸ mem_cons_self)
    | cons a s =>
      rw [cons_append, memcmp, ih fun hc => h (mem_cons_of_mem c hc)]
      by_cases hac : a = c <;> simp [hac]

theorem strcmp_string (hs : 0 ∉ s) (ht : 0 ∉ t) :
    strcmp (s ++ [0]) (t ++ [0]) = some (s == t) := by
  induction s generalizing t with
  | nil =>
    cases t with
    | nil => rfl
    | cons c t =>
      have hc : (0 : UInt8) ≠ c := fun h0 => ht (h0 ▸ mem_cons_self)
      simp [strcmp, hc]
  | cons a s ih =>
    have ha : a ≠ 0 := fun h0 => hs (h0 ▸ mem_cons_self)
    cases t with
    | nil => simp [strcmp, ha]
    | cons c t =>
      rw [cons_append, cons_append, strcmp, ih (not_mem_of_not_mem_cons hs) (not_mem_of_not_mem_cons ht)]
      by_cases hac : a = c
      · simp [← hac, ha]
      · simp [hac]

theorem strchr_string (hs : 0 ∉ s) (h : 47 ∈ s) :
    strchr 47 (s ++ [0]) = some (s.dropWhile (· != 47) ++ [0]) := by
  induction s with
  | nil => cases h
  | cons a s ih =>
    have ha : a ≠ 0 := fun h0 => hs (h0 ▸ mem_cons_self)
    rw [cons_append, strchr]
    by_cases hac : a = 47
    · simp [hac]
    · rw [if_neg hac, if_neg ha, ih (not_mem_of_not_mem_cons hs)
        ((mem_cons.mp h).resolve_left (Ne.symm hac))]
      simp [hac]

theorem antisocial_string (name : Chars) :
    (if name.headD 0 = 47 then some true
      else do
        if ← memcmp (name ++ [0]) [46, 47] then some true
        else memcmp (name ++ [0]) [46, 46, 47]) = some (isAntisocial name) := by
  have hslash : (name.headD 0 = 47) = ((name.take 1 == [47]) = true) := by cases name <;> simp
  have hor : ∀ x y z : Bool, (if x then some true
      else do if ← some y then some true else some z) = some (x || y || z) := by decide
  rw [memcmp_string (by decide), memcmp_string (by decide)]
  simp only [hslash]
  exact hor _ _ _

theorem slash_mem {name : Chars} (h : isAntisocial name = true) : 47 ∈ name := by
  simp only [isAntisocial, Bool.or_eq_true, beq_iff_eq] at h
  obtain (h | h) | h := h
  · exact mem_of_mem_take (h.symm ▸ mem_cons_self)
  · exact mem_of_mem_take (h.symm ▸ by decide : 47 ∈ name.take 2)
  · exact mem_of_mem_take (h.symm ▸ by decide : 47 ∈ name.take 3)

/-- The loop ends before the name does, and reads no byte behind the terminator. -/
theorem stripBytes_string {name : Chars} (hzero : 0 ∉ name) {fuel : ℕ} (hfuel : name.length < fuel) :
    stripBytes fuel (name ++ [0]) = some (stripAntisocialPrefixes name ++ [0]) := by
  induction fuel generalizing name with
  | zero => cases hfuel
  | succ fuel ih =>
    have hhead : (name ++ [0]).head? = some (name.headD 0) := by cases name <;> rfl
    rw [stripBytes, hhead, bind_eq_bind, bind_some, antisocial_string,
      bind_eq_bind, bind_some, stripAntisocialPrefixes]
    by_cases hs : isAntisocial name = true
    · have hlt := length_afterSlash_lt hs
      have hne : name.dropWhile (· != 47) ≠ [] := by
        intro hnil
        simpa using dropWhile_eq_nil_iff.mp hnil 47 (slash_mem hs)
      rw [if_pos hs, dif_pos hs, strchr_string hzero (slash_mem hs)]
      change stripBytes fuel (name.dropWhile (· != 47) ++ [0]).tail = _
      rw [tail_append_of_ne_nil hne]
      exact ih (fun hc => hzero (mem_afterSlash hc)) (Nat.lt_of_lt_of_le hlt (Nat.le_of_lt_succ hfuel))
    · have hnil : name.headD 0 = 0 ↔ name = [] := by
        cases name with
        | nil => simp
        | cons a name => simpa using fun h0 : a = 0 => hzero (h0 ▸ mem_cons_self)
      have hdots : strcmp (name ++ [0]) [46, 46, 0] = some (name == [46, 46]) :=
        strcmp_string hzero (show 0 ∉ [46, 46] by decide)
      rw [if_neg hs, dif_neg hs, hdots]
      by_cases h1 : name = []
      · rw [if_pos (hnil.mpr h1), if_pos (.inl h1)]
        rfl
      · rw [if_neg (mt hnil.mp h1)]
        by_cases h2 : name = [46, 46] <;> simp [h1, h2]

/-! ### Accepted headers -/

/-- What an accepted header is: zeros, or a member that has passed the checks. -/
theorem parseHeader_ok {parsed : Parsed} (h : parseHeader b = .ok parsed) :
    (parsed = .eof ∧ ∀ p : Fin 512, b p = 0) ∨
    slice (bytesOf b) 257 6 = [117, 115, 116, 97, 114, 0] ∧
      parseOctalField (slice (bytesOf b) 148 8) = some (calculateChksum (bytesOf b)) ∧
      bytesOf b 99 = 0 ∧
      ∃ type size, parsed = .member (stripAntisocialPrefixes (nameOf (bytesOf b))) type size := by
  unfold parseHeader at h
  dsimp only at h
  split at h
  · next hall => exact .inl ⟨(Except.ok.inj h).symm, hall⟩
  right
  split at h
  · cases h
  split at h
  · cases h
  split at h
  · cases h
  split at h
  · cases h
  split at h
  · cases h
  rename_i hmagic _ _ _ hchk hsum hname
  rw [not_not] at hmagic hsum
  rw [not_or, not_not] at hname
  refine ⟨hmagic, hchk.trans (congrArg some hsum), hname.1, ?_⟩
  split at h
  · split at h
    · cases h
    split at h
    · cases h
    · exact ⟨_, _, (Except.ok.inj h).symm⟩
  split at h
  · exact ⟨_, _, (Except.ok.inj h).symm⟩
  · cases h

theorem strip_suffix (name : Chars) :
    stripAntisocialPrefixes name = [46] ∨ stripAntisocialPrefixes name <:+ name := by
  induction name using stripAntisocialPrefixes.induct with
  | case1 name h ih =>
    rw [stripAntisocialPrefixes, dif_pos h]
    exact ih.imp_right fun hs => hs.trans ((tail_suffix _).trans (dropWhile_suffix _))
  | case2 name h hdot => rw [stripAntisocialPrefixes, dif_neg h, if_pos hdot]; exact .inl rfl
  | case3 name h hdot => rw [stripAntisocialPrefixes, dif_neg h, if_neg hdot]; exact .inr suffix_rfl

/-- A name field whose last byte is zero holds the name and its terminator. -/
theorem nameOf_terminated (hlast : h 99 = 0) :
    (nameOf h).length < 100 ∧ slice h 0 ((nameOf h).length + 1) = nameOf h ++ [0] := by
  have hsplit : nameOf h ++ (slice h 0 100).dropWhile (· != 0) = slice h 0 100 :=
    takeWhile_append_dropWhile
  cases hd : (slice h 0 100).dropWhile (· != 0) with
  | nil =>
    have hmem : h 99 ∈ slice h 0 100 := mem_map.mpr ⟨99, by decide, rfl⟩
    simpa [hlast] using dropWhile_eq_nil_iff.mp hd _ hmem
  | cons c rest =>
    have hc : c = 0 := by
      have hnot := head?_dropWhile_not (· != 0) (slice h 0 100)
      simpa [hd] using hnot
    rw [hd, hc] at hsplit
    have hlen := congrArg length hsplit
    rw [length_append, length_cons, length_slice] at hlen
    refine ⟨by omega, ?_⟩
    rw [show 100 = (nameOf h).length + 1 + rest.length by omega, slice_append,
      append_cons] at hsplit
    exact (append_inj_left hsplit (by simp)).symm

/-- **Accepted names are harmless.**  The name of a member is a string in the name field, or ".";
it is neither empty nor "..", and starts with none of the prefixes.  Stripping ends on every
string, reads nothing behind the terminator, and a second time changes nothing. -/
theorem accepted_name_harmless :
    (∀ (b : Block) (name : Chars) (type : UstarType) (size : Int32),
      parseHeader b = .ok (.member name type size) →
      (name = [46] ∨ ∃ i, i + name.length < 100 ∧
        slice (bytesOf b) i (name.length + 1) = name ++ [0]) ∧
      0 ∉ name ∧ name ≠ [] ∧ name ≠ [46, 46] ∧
      ¬ [47] <+: name ∧ ¬ [46, 47] <+: name ∧ ¬ [46, 46, 47] <+: name) ∧
    ∀ s : Chars, 0 ∉ s →
      (∀ fuel, s.length < fuel →
        stripBytes fuel (s ++ [0]) = some (stripAntisocialPrefixes s ++ [0])) ∧
      stripAntisocialPrefixes (stripAntisocialPrefixes s) = stripAntisocialPrefixes s := by
  refine ⟨?_, fun s hs => ⟨fun fuel hfuel => stripBytes_string hs hfuel, strip_strip s⟩⟩
  intro b name type size hok
  obtain ⟨-, -, hlast, _, _, hname⟩ := (parseHeader_ok hok).resolve_left fun heof => by cases heof.1
  cases hname
  have hzero : 0 ∉ nameOf (bytesOf b) := fun hmem => by simpa using mem_takeWhile_imp hmem
  obtain ⟨hlt, hname⟩ := nameOf_terminated hlast
  have hsocial := not_isAntisocial_strip (nameOf (bytesOf b))
  simp only [isAntisocial, Bool.or_eq_false_iff, beq_eq_false_iff_ne] at hsocial
  obtain ⟨⟨hslash, hdot⟩, hdots⟩ := hsocial
  refine ⟨(strip_suffix _).imp_right ?_, zero_notMem_strip hzero, (strip_ne_nil _).1,
    (strip_ne_nil _).2, fun hp => hslash (prefix_iff_eq_take.mp hp).symm,
    fun hp => hdot (prefix_iff_eq_take.mp hp).symm, fun hp => hdots (prefix_iff_eq_take.mp hp).symm⟩
  rintro ⟨pre, hpre⟩
  have hlen := congrArg length hpre
  rw [length_append] at hlen
  refine ⟨pre.length, by omega, ?_⟩
  rw [← hpre, length_append, Nat.add_assoc, slice_append, append_assoc, Nat.zero_add] at hname
  exact append_inj_right hname (length_slice _ _ _)

theorem accepted_name_harmless_a :
    (stripAntisocialPrefixes [47, 97] = [97] ∧ stripBytes 3 [47, 97, 0] = some [97, 0]) ∧
      ∃ i, i + 1 < 100 ∧ slice (bytesOf fun p => headerBytes [97] .regular 5 p.val) i 2 = [97, 0] := by
  obtain ⟨hname, hstrip⟩ := accepted_name_harmless
  have hstrip' := (hstrip [47, 97] (by decide)).1 3 (by decide)
  rw [strip_slash_a] at hstrip'
  refine ⟨⟨strip_slash_a, hstrip'⟩, ?_⟩
  exact (hname _ [97] .regular 5 (parseHeader_headerBytes (by decide) (by decide)
    (by decide +kernel) (by decide))).1.resolve_left (by decide)

/-- **Corruption is detected.**  One byte of an accepted header, other than those of the checksum,
is changed: the header is rejected. -/
theorem parseHeader_detects (b : Block) (name : Chars) (type : UstarType) (size : Int32)
    (hok : parseHeader b = .ok (.member name type size)) (p : Fin 512)
    (hp : p.val < 148 ∨ 156 ≤ p.val) (v : UInt8) (hv : v ≠ b p) :
    ∃ e, parseHeader (update b p v) = .error e := by
  obtain ⟨hmagic, hchk, -⟩ := (parseHeader_ok hok).resolve_left fun heof => by cases heof.1
  have hself : bytesOf (update b p v) p.val = v := by
    rw [bytesOf, dif_pos p.isLt, update_self]
  have hother : ∀ q, q ≠ p.val → bytesOf b q = bytesOf (update b p v) q := by
    intro q hq
    unfold bytesOf
    split
    · rw [update_of_ne fun heq => hq (congrArg Fin.val heq)]
    · rfl
  cases hres : parseHeader (update b p v) with
  | error e => exact ⟨e, rfl⟩
  | ok parsed =>
    exfalso
    obtain ⟨-, hzero⟩ | ⟨-, hchk', -⟩ := parseHeader_ok hres
    · -- two bytes of the magic string would have become zero
      have hbyte : ∀ q < 512, q ≠ p.val → bytesOf b q = 0 := by
        intro q hq hne
        rw [hother q hne, bytesOf, dif_pos hq]
        exact hzero ⟨q, hq⟩
      have h257 : bytesOf b 257 = 117 := congrArg (·.headD 0) hmagic
      have h258 : bytesOf b 258 = 115 := congrArg (·.tail.headD 0) hmagic
      by_cases hq : 257 = p.val
      · exact absurd (h258.symm.trans (hbyte 258 (by decide) (by omega))) (by decide)
      · exact absurd (h257.symm.trans (hbyte 257 (by decide) hq)) (by decide)
    · rw [← slice_congr fun q hle hlt => hother q (by omega), hchk] at hchk'
      have heq := eq_of_calculateChksum_eq p.isLt hp hother (some.inj hchk')
      rw [hself, bytesOf, dif_pos p.isLt] at heq
      exact hv heq.symm

/-- The name of a file `a` is changed to `b`. -/
theorem parseHeader_detects_name :
    ∃ e, parseHeader (update (fun p => headerBytes [97] .regular 5 p.val) 0 98) =
      .error e :=
  parseHeader_detects _ [97] .regular 5 (parseHeader_headerBytes (by decide) (by decide)
    (by decide +kernel) (by decide)) 0 (by decide) 98 (by decide +kernel)

/-! ### Octal fields -/

/-- `parse_octal_field` on the bytes from `s` on, `n` of which are left at `ofs`, with the offsets of
the bytes that it examines. -/
def parseOctalFrom (s : ℕ → UInt8) : ℕ → ℕ → ℕ → Option ℕ × List ℕ
  | 0, _, _ => (none, [])
  | n + 1, ofs, value =>
    let c := s ofs
    let r :=
      if 48 ≤ c ∧ c ≤ 55 then
        if (2 ^ 32 - 1) / 8 < value then (none, [])
        else parseOctalFrom s n (ofs + 1) (c.toNat - 48 + value * 8)
      else if c = 32 ∨ c = 0 then (if 0 < ofs then some value else none, [])
      else (none, [])
    (r.1, ofs :: r.2)

theorem parseOctalFrom_fst (s : ℕ → UInt8) (n ofs value : ℕ) : (parseOctalFrom s n ofs value).1 =
    parseOctalLoop ((List.range' ofs n).map s) ofs value := by
  induction n generalizing ofs value with
  | zero => rfl
  | succ n ih =>
    rw [range'_succ, map_cons, parseOctalLoop, ← ih, parseOctalFrom]
    split_ifs <;> rfl

/-- The number that the first `n` bytes denote. -/
def octalValue (s : ℕ → UInt8) : ℕ → ℕ
  | 0 => 0
  | n + 1 => (s n).toNat - 48 + octalValue s n * 8

theorem octalValue_mono (s : ℕ → UInt8) : Monotone (octalValue s) :=
  monotone_nat_of_le_succ fun n => by rw [octalValue]; omega

/-- A number of `n` octal digits, followed by a space or a null byte. -/
structure IsOctal (s : ℕ → UInt8) (n : ℕ) : Prop where
  pos : 0 < n
  digit : ∀ i < n, 48 ≤ s i ∧ s i ≤ 55
  stop : s n = 32 ∨ s n = 0

theorem parseOctalFrom_iff {s : ℕ → UInt8} (n v ofs : ℕ)
    (hdigit : ∀ i < ofs, 48 ≤ s i ∧ s i ≤ 55) (hle : octalValue s ofs ≤ 2 ^ 32 - 1) :
    (parseOctalFrom s n ofs (octalValue s ofs)).1 = some v ↔
      ∃ k, ofs ≤ k ∧ k < ofs + n ∧ IsOctal s k ∧ octalValue s k = v ∧ v ≤ 2 ^ 32 - 1 := by
  induction n generalizing ofs with
  | zero =>
    simp only [parseOctalFrom, reduceCtorEq, false_iff]
    rintro ⟨k, hk, hlt, -⟩
    omega
  | succ n ih =>
    have hstop : ∀ k, ofs ≤ k → IsOctal s k → ¬(48 ≤ s ofs ∧ s ofs ≤ 55) → k = ofs := by
      intro k hk hoct hnot
      by_contra hne
      exact hnot (hoct.digit ofs (by omega))
    rw [parseOctalFrom]
    dsimp only
    by_cases hd : 48 ≤ s ofs ∧ s ofs ≤ 55
    · have hmore : ∀ k, ofs ≤ k → IsOctal s k → ofs + 1 ≤ k := by
        rintro k hk hoct
        rcases Nat.eq_or_lt_of_le hk with rfl | hlt
        · rcases hoct.stop with h | h <;> rw [h] at hd <;> exact absurd hd (by decide)
        · exact hlt
      rw [if_pos hd]
      split_ifs with hbig
      · simp only [false_iff]
        rintro ⟨k, hk, -, hoct, rfl, hmax⟩
        have := octalValue_mono s (hmore k hk hoct)
        rw [octalValue] at this
        omega
      · have hdigit' : ∀ i < ofs + 1, 48 ≤ s i ∧ s i ≤ 55 := by
          intro i hi
          rcases Nat.lt_succ_iff_lt_or_eq.mp hi with hi | rfl
          · exact hdigit i hi
          · exact hd
        have hc : (s ofs).toNat ≤ 55 := UInt8.le_iff_toNat_le.mp hd.2
        refine (ih (ofs + 1) hdigit' (by rw [octalValue]; omega)).trans ⟨?_, ?_⟩
        · rintro ⟨k, hk, hlt, hrest⟩
          exact ⟨k, by omega, by omega, hrest⟩
        · rintro ⟨k, hk, hlt, hoct, hrest⟩
          exact ⟨k, hmore k hk hoct, by omega, hoct, hrest⟩
    · rw [if_neg hd]
      split_ifs with hend hofs
      · refine ⟨fun h => ⟨ofs, le_rfl, by omega, ⟨hofs, hdigit, hend⟩, some.inj h,
          some.inj h ▸ hle⟩, ?_⟩
        rintro ⟨k, hk, -, hoct, rfl, -⟩
        rw [hstop k hk hoct hd]
      · simp only [false_iff]
        rintro ⟨k, hk, -, hoct, -⟩
        exact hofs (hstop k hk hoct hd ▸ hoct.pos)
      · simp only [false_iff]
        rintro ⟨k, hk, -, hoct, -⟩
        exact hend (hstop k hk hoct hd ▸ hoct.stop)

theorem examined_lt (s : ℕ → UInt8) (n : ℕ) {ofs value : ℕ} :
    ∀ i ∈ (parseOctalFrom s n ofs value).2, i < ofs + n := by
  induction n generalizing ofs value with
  | zero => simp [parseOctalFrom]
  | succ n ih =>
    intro i hi
    rw [parseOctalFrom] at hi
    rcases mem_cons.mp hi with rfl | hi
    · omega
    · have := @ih (ofs + 1) ((s ofs).toNat - 48 + value * 8) i
      grind

/-- **`parse_octal_field`** accepts exactly the octal numbers below `2 ^ 32` that end inside of the
field, and examines no byte behind it. -/
theorem parseOctal_exact (s : ℕ → UInt8) (size v : ℕ) :
    ((parseOctalFrom s size 0 0).1 = some v ↔
      ∃ n < size, IsOctal s n ∧ octalValue s n = v ∧ v ≤ 2 ^ 32 - 1) ∧
    ∀ ofs ∈ (parseOctalFrom s size 0 0).2, ofs < size := by
  have hiff := parseOctalFrom_iff (s := s) size v 0 (by simp) (by simp [octalValue])
  simp only [Nat.zero_le, true_and, Nat.zero_add] at hiff
  refine ⟨hiff, fun ofs hofs => ?_⟩
  simpa using examined_lt s size ofs hofs

end Pintos.Ustar

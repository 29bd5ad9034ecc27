import Pintos.BlockDevice
import Pintos.Endian

/-! # Bitmaps

A model of the part of `lib/kernel/bitmap.c` that the free map uses.  A bitmap is an array of
32-bit elements of which the first `bit_cnt` bits count; what a function does is stated in
terms of the bits (`Bitmap.get`), the bit numbered `i` being bit `i % 32` of element `i / 32`.
The `ASSERT`s are faults, and `size_t` sums are taken modulo `2 ^ 32`. -/

namespace Pintos

open BitVec Function List

abbrev elemBits : ℕ := 32

/-- `struct bitmap`. -/
structure Bitmap where
  bitCnt : ℕ
  bits : ℕ → BitVec elemBits
  bitCnt_lt : bitCnt < 2 ^ 32

/-- The bitmap of eight bits whose elements are `elem`. -/
def Bitmap.eight (elem : BitVec elemBits) : Bitmap where
  bitCnt := 8
  bits := fun _ => elem
  bitCnt_lt := by decide

/-- The bit numbered `i`. -/
def Bitmap.get (b : Bitmap) (i : ℕ) : Bool := (b.bits (i / elemBits)).getLsbD (i % elemBits)

def elemIdx (bitIdx : ℕ) : ℕ := bitIdx / elemBits

def bitMask (bitIdx : ℕ) : BitVec elemBits := 1#32 <<< (bitIdx % elemBits)

/-- `elem_cnt`: `DIV_ROUND_UP (bit_cnt, ELEM_BITS)`. -/
def elemCnt (bitCnt : ℕ) : ℕ := (bitCnt + (elemBits - 1)) % 2 ^ 32 / elemBits

def byteCnt (bitCnt : ℕ) : ℕ := 4 * elemCnt bitCnt

/-! ### Single bits -/

def bitmapMark (b : Bitmap) (bitIdx : ℕ) : Bitmap :=
  let elem := b.bits (elemIdx bitIdx) ||| bitMask bitIdx
  { b with bits := update b.bits (elemIdx bitIdx) elem }

def bitmapReset (b : Bitmap) (bitIdx : ℕ) : Bitmap :=
  let elem := b.bits (elemIdx bitIdx) &&& ~~~ bitMask bitIdx
  { b with bits := update b.bits (elemIdx bitIdx) elem }

def bitmapFlip (b : Bitmap) (bitIdx : ℕ) : Bitmap :=
  let elem := b.bits (elemIdx bitIdx) ^^^ bitMask bitIdx
  { b with bits := update b.bits (elemIdx bitIdx) elem }

def bitmapSet (b : Bitmap) (idx : ℕ) (value : Bool) : Except Fault Bitmap :=
  if idx < b.bitCnt then .ok (if value then bitmapMark b idx else bitmapReset b idx)
  else .error .assertion

def bitmapTest (b : Bitmap) (idx : ℕ) : Except Fault Bool :=
  if idx < b.bitCnt then .ok ((b.bits (elemIdx idx) &&& bitMask idx) != 0#32)
  else .error .assertion

/-! ### Several bits -/

/-- The first `n` rounds of the loop of `bitmap_set_multiple`. -/
def setMultipleTo (b : Bitmap) (start : ℕ) (value : Bool) : ℕ → Except Fault Bitmap
  | 0 => .ok b
  | i + 1 => do
    let b ← setMultipleTo b start value i
    bitmapSet b ((start + i) % 2 ^ 32) value

def bitmapSetMultiple (b : Bitmap) (start cnt : ℕ) (value : Bool) : Except Fault Bitmap :=
  if start ≤ b.bitCnt ∧ (start + cnt) % 2 ^ 32 ≤ b.bitCnt then setMultipleTo b start value cnt
  else .error .assertion

def bitmapSetAll (b : Bitmap) (value : Bool) : Except Fault Bitmap :=
  bitmapSetMultiple b 0 b.bitCnt value

/-- The first `n` rounds of the loop of `bitmap_count`. -/
def countTo (b : Bitmap) (start : ℕ) (value : Bool) : ℕ → Except Fault ℕ
  | 0 => .ok 0
  | i + 1 => do
    let valueCnt ← countTo b start value i
    let bit ← bitmapTest b ((start + i) % 2 ^ 32)
    .ok (if bit == value then valueCnt + 1 else valueCnt)

def bitmapCount (b : Bitmap) (start cnt : ℕ) (value : Bool) : Except Fault ℕ :=
  if start ≤ b.bitCnt ∧ (start + cnt) % 2 ^ 32 ≤ b.bitCnt then countTo b start value cnt
  else .error .assertion

/-- The first `n` rounds of the loop of `bitmap_contains`. -/
def containsTo (b : Bitmap) (start : ℕ) (value : Bool) : ℕ → Except Fault Bool
  | 0 => .ok false
  | i + 1 => do
    let found ← containsTo b start value i
    if found then .ok true
    else do
      let bit ← bitmapTest b ((start + i) % 2 ^ 32)
      .ok (bit == value)

def bitmapContains (b : Bitmap) (start cnt : ℕ) (value : Bool) : Except Fault Bool :=
  if start ≤ b.bitCnt ∧ (start + cnt) % 2 ^ 32 ≤ b.bitCnt then containsTo b start value cnt
  else .error .assertion

def bitmapAny (b : Bitmap) (start cnt : ℕ) : Except Fault Bool := bitmapContains b start cnt true

def bitmapNone (b : Bitmap) (start cnt : ℕ) : Except Fault Bool := do
  let found ← bitmapContains b start cnt true
  .ok (!found)

def bitmapAll (b : Bitmap) (start cnt : ℕ) : Except Fault Bool := do
  let found ← bitmapContains b start cnt false
  .ok (!found)

/-- The loop of `bitmap_scan` from `i` on, for at most `n` rounds; `none` is `BITMAP_ERROR`. -/
def scanFrom (b : Bitmap) (cnt : ℕ) (value : Bool) : ℕ → ℕ → Except Fault (Option ℕ)
  | 0, _ => .ok none
  | n + 1, i => do
    let found ← bitmapContains b i cnt (!value)
    if found then scanFrom b cnt value n (i + 1) else .ok (some i)

def bitmapScan (b : Bitmap) (start cnt : ℕ) (value : Bool) : Except Fault (Option ℕ) :=
  if start ≤ b.bitCnt then
    if cnt ≤ b.bitCnt then scanFrom b cnt value (b.bitCnt - cnt + 1 - start) start
    else .ok none
  else .error .assertion

def bitmapScanAndFlip (b : Bitmap) (start cnt : ℕ) (value : Bool) :
    Except Fault (Option ℕ × Bitmap) := do
  match ← bitmapScan b start cnt value with
  | none => .ok (none, b)
  | some idx => do
    let b ← bitmapSetMultiple b idx cnt (!value)
    .ok (some idx, b)

/-- The bytes of the elements, as `bitmap_write` hands them to `file_write_at`. -/
def Bitmap.fileBytes (b : Bitmap) (i : ℕ) : UInt8 :=
  Endian.byteOf (UInt32.ofBitVec (b.bits (i / 4))) ⟨i % 4, by omega⟩

theorem Bitmap.get_eq_testBit (b : Bitmap) (i : ℕ) :
    b.get i = (b.fileBytes (i / 8)).toNat.testBit (i % 8) := by
  have hpow : (256 : ℕ) ^ (i / 8 % 4) = 2 ^ (8 * (i / 8 % 4)) := by rw [Nat.pow_mul]
  have hidx : 8 * (i / 8 % 4) + i % 8 = i % elemBits := by unfold elemBits; omega
  have hlt : i % 8 < 8 := Nat.mod_lt i (by decide)
  rw [Bitmap.get, getLsbD, Bitmap.fileBytes, Endian.byteOf_toNat, hpow,
    show 256 = 2 ^ 8 from rfl, Nat.testBit_mod_two_pow, decide_eq_true hlt, Bool.true_and,
    Nat.testBit_div_two_pow, Nat.add_comm, hidx, Nat.div_div_eq_div_mul]
  rfl

/-! ### What they do to the bits -/

theorem getLsbD_bitMask (i k : ℕ) :
    (bitMask i).getLsbD k = decide (k = i % elemBits) := by
  rw [bitMask, ← twoPow_eq, getLsbD_twoPow]
  have hi : i % elemBits < elemBits := Nat.mod_lt i (by decide)
  simp [hi, eq_comm]

/-- An element that changes in the bit numbered `i` only. -/
theorem Bitmap.get_update (b : Bitmap) (i j : ℕ) {elem : BitVec elemBits} {value : Bool}
    (h : ∀ k < elemBits, elem.getLsbD k =
      if k = i % elemBits then value else (b.bits (elemIdx i)).getLsbD k) :
    ({ b with bits := update b.bits (elemIdx i) elem } : Bitmap).get j =
      if j = i then value else b.get j := by
  simp only [Bitmap.get, elemIdx] at *
  by_cases he : j / elemBits = i / elemBits
  · have hji : j % elemBits = i % elemBits ↔ j = i := by unfold elemBits at *; omega
    rw [he, update_self, h _ (Nat.mod_lt j (by decide))]
    simp only [hji]
  · have hne : j ≠ i := fun h => he (by rw [h])
    rw [update_of_ne he, if_neg hne]

theorem get_bitmapMark (b : Bitmap) (i j : ℕ) :
    (bitmapMark b i).get j = if j = i then true else b.get j := by
  refine b.get_update i j fun k hk => ?_
  by_cases h : k = i % elemBits <;> simp [getLsbD_bitMask, h]

theorem get_bitmapReset (b : Bitmap) (i j : ℕ) :
    (bitmapReset b i).get j = if j = i then false else b.get j := by
  refine b.get_update i j fun k hk => ?_
  rw [getLsbD_and, getLsbD_not, getLsbD_bitMask]
  by_cases h : k = i % elemBits <;> simp [h, hk]

theorem get_bitmapFlip (b : Bitmap) (i j : ℕ) :
    (bitmapFlip b i).get j = if j = i then !b.get i else b.get j := by
  refine b.get_update i j fun k hk => ?_
  by_cases h : k = i % elemBits <;> simp [getLsbD_bitMask, h, Bitmap.get, elemIdx]

variable {i : ℕ}

theorem bitmapSet_ok {b : Bitmap} (hi : i < b.bitCnt) (value : Bool) :
    ∃ b', bitmapSet b i value = .ok b' ∧ b'.bitCnt = b.bitCnt ∧
      ∀ j, b'.get j = if j = i then value else b.get j := by
  refine ⟨_, if_pos hi, ?_, fun j => ?_⟩
  · cases value <;> rfl
  · cases value
    · exact get_bitmapReset b i j
    · exact get_bitmapMark b i j

theorem bitmapTest_ok {b : Bitmap} (hi : i < b.bitCnt) : bitmapTest b i = .ok (b.get i) := by
  have hlt : i % elemBits < elemBits := Nat.mod_lt i (by decide)
  have hne : twoPow elemBits (i % elemBits) ≠ 0#32 := fun h => by
    have := congrArg (fun v => v.getLsbD (i % elemBits)) h
    simp [hlt] at this
  rw [bitmapTest, if_pos hi, bitMask, ← twoPow_eq, and_twoPow, Bitmap.get, elemIdx]
  cases (b.bits (i / elemBits)).getLsbD (i % elemBits) <;> simp [hne]

theorem setMultipleTo_ok (b : Bitmap) (start : ℕ) (value : Bool) : ∀ n, start + n ≤ b.bitCnt →
    ∃ b', setMultipleTo b start value n = .ok b' ∧ b'.bitCnt = b.bitCnt ∧
      ∀ j, b'.get j = if start ≤ j ∧ j < start + n then value else b.get j
  | 0, _ => ⟨b, rfl, rfl, fun j => by rw [if_neg (by omega)]⟩
  | i + 1, h => by
    obtain ⟨b1, h1, hcnt, hget⟩ := setMultipleTo_ok b start value i (by omega)
    have hlt := b.bitCnt_lt
    have hmod : (start + i) % 2 ^ 32 = start + i := Nat.mod_eq_of_lt (by omega)
    obtain ⟨b2, h2, hcnt2, hget2⟩ := bitmapSet_ok (b := b1) (i := start + i) (by omega) value
    refine ⟨b2, ?_, hcnt2.trans hcnt, fun j => ?_⟩
    · simp only [setMultipleTo, h1, hmod]
      exact h2
    · rw [hget2, hget]
      split_ifs <;> first | rfl | omega

variable {cnt start : ℕ}

theorem bitmapSetMultiple_ok {b : Bitmap} (h : start + cnt ≤ b.bitCnt) (value : Bool) :
    ∃ b', bitmapSetMultiple b start cnt value = .ok b' ∧
      b'.bitCnt = b.bitCnt ∧
      ∀ j, b'.get j = if start ≤ j ∧ j < start + cnt then value else b.get j := by
  have hmod : (start + cnt) % 2 ^ 32 = start + cnt :=
    Nat.mod_eq_of_lt (lt_of_le_of_lt h b.bitCnt_lt)
  rw [bitmapSetMultiple, if_pos ⟨by omega, by rw [hmod]; exact h⟩]
  exact setMultipleTo_ok b start value cnt h

/-- The `cnt` bits from `start` on. -/
def bitRange (v : ℕ → Bool) (start cnt : ℕ) : List Bool := (range cnt).map fun k => v (start + k)

theorem bitRange_succ (v : ℕ → Bool) (start n : ℕ) :
    bitRange v start (n + 1) = bitRange v start n ++ [v (start + n)] := by
  simp [bitRange, range_succ]

section

variable {b : Bitmap} (value : Bool)

theorem containsTo_ok : ∀ n, start + n ≤ b.bitCnt →
    containsTo b start value n = .ok ((bitRange b.get start n).contains value)
  | 0, _ => rfl
  | i + 1, h => by
    have hlt := b.bitCnt_lt
    rw [containsTo, containsTo_ok i (by omega), Nat.mod_eq_of_lt (by omega), bitmapTest_ok (by omega),
      bitRange_succ, contains_eq_any_beq, contains_eq_any_beq, any_append]
    cases any _ _ <;> simp [bind, Except.bind, Bool.beq_comm]

theorem countTo_ok : ∀ n, start + n ≤ b.bitCnt →
    countTo b start value n = .ok ((bitRange b.get start n).count value)
  | 0, _ => rfl
  | i + 1, h => by
    have hlt := b.bitCnt_lt
    rw [countTo, countTo_ok i (by omega), Nat.mod_eq_of_lt (by omega), bitmapTest_ok (by omega),
      bitRange_succ, count_append, count_singleton]
    simp only [bind, Except.bind]
    split_ifs <;> rfl

variable (h : start + cnt ≤ b.bitCnt)

include h

theorem in_range : start ≤ b.bitCnt ∧ (start + cnt) % 2 ^ 32 ≤ b.bitCnt :=
  ⟨by omega, (Nat.mod_le _ _).trans h⟩

theorem bitmapContains_ok :
    bitmapContains b start cnt value = .ok ((bitRange b.get start cnt).contains value) := by
  rw [bitmapContains, if_pos (in_range h)]
  exact containsTo_ok value cnt h

theorem bitmapCount_ok :
    bitmapCount b start cnt value = .ok ((bitRange b.get start cnt).count value) := by
  rw [bitmapCount, if_pos (in_range h)]
  exact countTo_ok value cnt h

omit value in
theorem bitmapAll_ok :
    ∃ all, bitmapAll b start cnt = .ok all ∧ (all = true ↔ ∀ k < cnt, b.get (start + k) = true) := by
  rw [bitmapAll, bitmapContains_ok false h]
  exact ⟨_, rfl, by simp [bitRange]⟩

end

/-- `bitmap_contains` says no only after it has tested every bit of the run. -/
theorem containsTo_false {b : Bitmap} {value : Bool} : ∀ {n : ℕ},
    containsTo b start value n = .ok false →
      ∀ k < n, (start + k) % 2 ^ 32 < b.bitCnt ∧ b.get ((start + k) % 2 ^ 32) ≠ value
  | 0, _, k, hk => absurd hk (Nat.not_lt_zero k)
  | i + 1, h, k, hk => by
    cases hf : containsTo b start value i with
    | error f => rw [containsTo, hf] at h; cases h
    | ok found =>
      cases found with
      | true => rw [containsTo, hf] at h; cases h
      | false =>
        rcases Nat.lt_succ_iff_lt_or_eq.mp hk with hlt | rfl
        · exact containsTo_false hf k hlt
        · simp only [containsTo, hf] at h
          by_cases hin : (start + k) % 2 ^ 32 < b.bitCnt
          · rw [bitmapTest_ok hin] at h
            exact ⟨hin, by simpa using Except.ok.inj h⟩
          · rw [bitmapTest, if_neg hin] at h
            cases h

theorem bitmapAll_true {b : Bitmap} (h : bitmapAll b start cnt = .ok true) :
    start + cnt ≤ b.bitCnt ∧ ∀ k < cnt, b.get (start + k) = true := by
  have hcontains : bitmapContains b start cnt false = .ok false := by
    cases hf : bitmapContains b start cnt false with
    | error f => rw [bitmapAll, hf] at h; cases h
    | ok found =>
      rw [bitmapAll, hf] at h
      cases found with
      | true => cases h
      | false => rfl
  unfold bitmapContains at hcontains
  split at hcontains
  · rename_i hin
    have hall := containsTo_false hcontains
    have hlt := b.bitCnt_lt
    -- otherwise the bit numbered `bit_cnt` would have been tested
    have hle : start + cnt ≤ b.bitCnt := by
      by_contra hgt
      have := (hall (b.bitCnt - start) (by omega)).1
      rw [Nat.add_sub_cancel' hin.1, Nat.mod_eq_of_lt hlt] at this
      exact lt_irrefl _ this
    refine ⟨hle, fun k hk => ?_⟩
    have := (hall k hk).2
    rw [Nat.mod_eq_of_lt (by omega)] at this
    simpa using this
  · cases hcontains

/-- Where a run of `cnt` bits equal to `value` starts, at or after `start`. -/
def bitRuns (v : ℕ → Bool) (n start cnt : ℕ) (value : Bool) : Set ℕ :=
  {i | start ≤ i ∧ i + cnt ≤ n ∧ ∀ k < cnt, v (i + k) = value}

/-- The scan stops at the first run, or there is none. -/
theorem scanFrom_ok {b : Bitmap} (hcnt : cnt ≤ b.bitCnt) (value : Bool) :
    ∀ n i, n = b.bitCnt - cnt + 1 - i → ∃ r, scanFrom b cnt value n i = .ok r ∧
      (∀ p, r = some p → IsLeast (bitRuns b.get b.bitCnt i cnt value) p) ∧
      (r = none → bitRuns b.get b.bitCnt i cnt value = ∅)
  | 0, i, hn => ⟨none, rfl, nofun, fun _ => Set.eq_empty_of_forall_notMem fun p ⟨_, _, _⟩ => by omega⟩
  | n + 1, i, hn => by
    rw [scanFrom, bitmapContains_ok _ (by omega)]
    cases hany : (bitRange b.get i cnt).contains (!value) with
    | false =>
      have hrun : ∀ k < cnt, b.get (i + k) = value := by simpa [bitRange] using hany
      exact ⟨some i, rfl, by rintro _ ⟨⟩; exact ⟨⟨le_rfl, by omega, hrun⟩, fun p hp => hp.1⟩, nofun⟩
    | true =>
      have hruns : bitRuns b.get b.bitCnt i cnt value = bitRuns b.get b.bitCnt (i + 1) cnt value := by
        ext p
        refine ⟨fun hp => ⟨lt_of_le_of_ne hp.1 ?_, hp.2⟩, fun hp => ⟨Nat.le_of_succ_le hp.1, hp.2⟩⟩
        rintro rfl
        obtain ⟨k, hk, hne⟩ : ∃ k < cnt, b.get (i + k) = !value := by simpa [bitRange] using hany
        simp [hp.2.2 k hk] at hne
      rw [hruns]
      exact scanFrom_ok hcnt value n (i + 1) (by omega)

/-- **`bitmap_scan`** finds the first run from `start` on. -/
theorem bitmapScan_spec {b : Bitmap} (hstart : start ≤ b.bitCnt) (cnt : ℕ) (value : Bool) :
    ∃ r, bitmapScan b start cnt value = .ok r ∧
      (∀ p, r = some p → IsLeast (bitRuns b.get b.bitCnt start cnt value) p) ∧
      (r = none → bitRuns b.get b.bitCnt start cnt value = ∅) := by
  rw [bitmapScan, if_pos hstart]
  by_cases hcnt : cnt ≤ b.bitCnt
  · rw [if_pos hcnt]
    exact scanFrom_ok hcnt value _ start rfl
  · rw [if_neg hcnt]
    exact ⟨none, rfl, nofun, fun _ => Set.eq_empty_of_forall_notMem fun p ⟨_, _, _⟩ => by omega⟩

/-- **`bitmap_scan_and_flip`** finds a run of `cnt` bits equal to `value` and flips it, or there
is none. -/
theorem bitmapScanAndFlip_spec (b : Bitmap) (cnt : ℕ) (value : Bool) :
    (∃ i b', bitmapScanAndFlip b 0 cnt value = .ok (some i, b') ∧ i + cnt ≤ b.bitCnt ∧
      (∀ k < cnt, b.get (i + k) = value) ∧ b'.bitCnt = b.bitCnt ∧
      ∀ j, b'.get j = if i ≤ j ∧ j < i + cnt then !value else b.get j) ∨
    (bitmapScanAndFlip b 0 cnt value = .ok (none, b) ∧
      ∀ i, i + cnt ≤ b.bitCnt → ∃ k < cnt, b.get (i + k) ≠ value) := by
  obtain ⟨r, hscan, hsome, hnone⟩ := bitmapScan_spec (Nat.zero_le b.bitCnt) cnt value
  cases r with
  | some p =>
    left
    obtain ⟨-, hin, hv⟩ := (hsome p rfl).1
    obtain ⟨b', hb', hcnt', hget⟩ := bitmapSetMultiple_ok hin (!value)
    refine ⟨p, b', ?_, hin, hv, hcnt', hget⟩
    simp only [bitmapScanAndFlip, hscan]
    change (bitmapSetMultiple b p cnt (!value) >>= _) = _
    rw [hb']
    rfl
  | none =>
    right
    refine ⟨by simp only [bitmapScanAndFlip, hscan]; rfl, fun i hi => ?_⟩
    by_contra! hrun
    have hmem : i ∈ bitRuns b.get b.bitCnt 0 cnt value := ⟨Nat.zero_le i, hi, hrun⟩
    rw [hnone rfl] at hmem
    exact hmem

theorem bitmapScanAndFlip_one (b : Bitmap) (value : Bool) :
    (∃ i b', bitmapScanAndFlip b 0 1 value = .ok (some i, b') ∧ i < b.bitCnt ∧
      b.get i = value ∧ b'.bitCnt = b.bitCnt ∧ ∀ j, b'.get j = if j = i then !value else b.get j) ∨
    (bitmapScanAndFlip b 0 1 value = .ok (none, b) ∧ ∀ i < b.bitCnt, b.get i ≠ value) := by
  rcases bitmapScanAndFlip_spec b 1 value with ⟨i, b', hr, hi, hv, hcnt, hget⟩ | ⟨hr, hnone⟩
  · refine .inl ⟨i, b', hr, hi, hv 0 Nat.one_pos, hcnt, fun j => ?_⟩
    rw [hget]
    by_cases hj : j = i
    · rw [if_pos (by omega), if_pos hj]
    · rw [if_neg (by omega), if_neg hj]
  · refine .inr ⟨hr, fun i hi => ?_⟩
    obtain ⟨k, hk, hne⟩ := hnone i hi
    obtain rfl : k = 0 := by omega
    exact hne

/-! ### Bits from a file -/

/-- The bitmap with the elements that the bytes make up. -/
def Bitmap.ofBytes (b : Bitmap) (bytes : ℕ → UInt8) : Bitmap :=
  { b with bits := fun i => (Endian.wordOf fun k => bytes (4 * i + k.val)).toBitVec }

theorem Bitmap.fileBytes_ofBytes (b : Bitmap) (bytes : ℕ → UInt8) :
    (b.ofBytes bytes).fileBytes = bytes := by
  funext i
  have h := congrFun (Endian.byteOf_wordOf fun k => bytes (4 * (i / 4) + k.val)) ⟨i % 4, by omega⟩
  exact h.trans (congrArg bytes (Nat.div_add_mod i 4))

def lastMask (bitCnt : ℕ) : BitVec elemBits :=
  let lastBits := bitCnt % elemBits
  if lastBits ≠ 0 then 1#32 <<< lastBits - 1#32 else -1#32

theorem getLsbD_lastMask {bitCnt k : ℕ} (hk : k < elemBits)
    (h : bitCnt % elemBits ≠ 0 → k < bitCnt % elemBits) : (lastMask bitCnt).getLsbD k = true := by
  unfold lastMask
  by_cases hlast : bitCnt % elemBits = 0
  · rw [if_neg (not_not.mpr hlast), neg_one_eq_allOnes, getLsbD_allOnes]
    exact decide_eq_true hk
  · rw [if_pos hlast]
    have hlt : bitCnt % elemBits < elemBits := Nat.mod_lt _ (by decide)
    have hpow : 2 ^ (bitCnt % elemBits) < 2 ^ 32 := Nat.pow_lt_pow_right (by decide) hlt
    have hone := Nat.one_le_two_pow (n := bitCnt % elemBits)
    have hnat : (1#32 <<< (bitCnt % elemBits) - 1#32).toNat = 2 ^ (bitCnt % elemBits) - 1 := by
      rw [← twoPow_eq, toNat_sub, toNat_twoPow, Nat.mod_eq_of_lt hpow]
      change (2 ^ 32 - 1 + 2 ^ (bitCnt % elemBits)) % 2 ^ 32 = _
      omega
    rw [getLsbD, hnat, Nat.testBit_two_pow_sub_one, decide_eq_true (h hlast)]

/-- The last element without the bits that do not count. -/
def Bitmap.maskLast (b : Bitmap) : Bitmap :=
  let last := elemCnt b.bitCnt - 1
  { b with bits := update b.bits last (b.bits last &&& lastMask b.bitCnt) }

theorem Bitmap.get_maskLast (b : Bitmap) (helem : 0 < elemCnt b.bitCnt) (hi : i < b.bitCnt) :
    b.maskLast.get i = b.get i := by
  simp only [Bitmap.get, Bitmap.maskLast]
  by_cases hlast : i / elemBits = elemCnt b.bitCnt - 1
  · have hmask : (lastMask b.bitCnt).getLsbD (i % elemBits) = true := by
      refine getLsbD_lastMask (Nat.mod_lt _ (by decide)) fun hne => ?_
      have hlt := b.bitCnt_lt
      unfold elemCnt at hlast helem
      unfold elemBits at *
      omega
    rw [hlast, update_self, getLsbD_and, hmask, Bool.and_true]
  · rw [update_of_ne hlast]

/-! ### Creation -/

/-- `bitmap_create`, with what `malloc` found in memory; `none` is a null pointer. -/
def bitmapCreate (memory : ℕ → BitVec elemBits) (bitCnt : UInt32) : Except Fault (Option Bitmap) :=
  -- a request of no bytes fails
  if byteCnt bitCnt.toNat = 0 ∧ bitCnt ≠ 0 then .ok none
  else do
    let b ← bitmapSetMultiple
      { bitCnt := bitCnt.toNat, bits := memory, bitCnt_lt := bitCnt.toNat_lt } 0 bitCnt.toNat false
    .ok (some b)

theorem bitmapCreate_spec {memory : ℕ → BitVec elemBits} {bitCnt : UInt32} {b : Bitmap}
    (h : bitmapCreate memory bitCnt = .ok (some b)) :
    b.bitCnt = bitCnt.toNat ∧ ∀ i < bitCnt.toNat, b.get i = false := by
  unfold bitmapCreate at h
  split at h
  · cases h
  obtain ⟨b', hb', hcnt, hget⟩ := bitmapSetMultiple_ok
    (b := { bitCnt := bitCnt.toNat, bits := memory, bitCnt_lt := bitCnt.toNat_lt })
    (show 0 + bitCnt.toNat ≤ bitCnt.toNat by omega) false
  rw [hb'] at h
  obtain rfl : b' = b := Option.some.inj (Except.ok.inj h)
  exact ⟨hcnt, fun i hi => by rw [hget, if_pos (by omega)]⟩

theorem bitmapCreate_ok (memory : ℕ → BitVec elemBits) {bitCnt : UInt32}
    (h : 0 < elemCnt bitCnt.toNat) : ∃ b, bitmapCreate memory bitCnt = .ok (some b) := by
  obtain ⟨b, hb, -⟩ := bitmapSetMultiple_ok
    (b := { bitCnt := bitCnt.toNat, bits := memory, bitCnt_lt := bitCnt.toNat_lt })
    (show 0 + bitCnt.toNat ≤ bitCnt.toNat by omega) false
  refine ⟨b, ?_⟩
  rw [bitmapCreate, if_neg (fun hc => by unfold byteCnt at hc; omega), hb]
  rfl

/-! ### Boolean vectors -/

/-- The calls that change a bitmap. -/
inductive BitmapOp
  | set (idx : ℕ) (value : Bool)
  | mark (idx : ℕ)
  | reset (idx : ℕ)
  | flip (idx : ℕ)
  | setMultiple (start cnt : ℕ) (value : Bool)
  | setAll (value : Bool)

namespace BitmapOp

def exec (b : Bitmap) : BitmapOp → Except Fault Bitmap
  | set idx value => bitmapSet b idx value
  | mark idx => .ok (bitmapMark b idx)
  | reset idx => .ok (bitmapReset b idx)
  | flip idx => .ok (bitmapFlip b idx)
  | setMultiple start cnt value => bitmapSetMultiple b start cnt value
  | setAll value => bitmapSetAll b value

def InRange (n : ℕ) : BitmapOp → Prop
  | set idx _ | mark idx | reset idx | flip idx => idx < n
  | setMultiple start cnt _ => start + cnt ≤ n
  | setAll _ => True

/-- The same change to a vector. -/
def change (v : ℕ → Bool) : BitmapOp → ℕ → Bool
  | set idx value => update v idx value
  | mark idx => update v idx true
  | reset idx => update v idx false
  | flip idx => update v idx (!v idx)
  | setMultiple start cnt value => fun i => if start ≤ i ∧ i < start + cnt then value else v i
  | setAll value => fun _ => value

end BitmapOp

/-- The first `n` bits are those of the vector. -/
structure Bitmap.Refines (b : Bitmap) (n : ℕ) (v : ℕ → Bool) : Prop where
  bitCnt : b.bitCnt = n
  bits : ∀ i < n, b.get i = v i

/-- What the functions that read a bitmap return, if its bits are those of the vector. -/
structure Bitmap.Answers (b : Bitmap) (n : ℕ) (v : ℕ → Bool) : Prop where
  test : ∀ i < n, bitmapTest b i = .ok (v i)
  count : ∀ start cnt value, start + cnt ≤ n →
    bitmapCount b start cnt value = .ok ((bitRange v start cnt).count value)
  any : ∀ start cnt, start + cnt ≤ n →
    bitmapAny b start cnt = .ok ((bitRange v start cnt).contains true)
  none : ∀ start cnt, start + cnt ≤ n →
    bitmapNone b start cnt = .ok (!(bitRange v start cnt).contains true)
  all : ∀ start cnt, start + cnt ≤ n →
    bitmapAll b start cnt = .ok (!(bitRange v start cnt).contains false)
  scan : ∀ start cnt value, start ≤ n → ∃ r, bitmapScan b start cnt value = .ok r ∧
    (∀ i, r = some i ↔ IsLeast (bitRuns v n start cnt value) i) ∧
    (r = .none ↔ bitRuns v n start cnt value = ∅)

variable {b : Bitmap} {n : ℕ} {v : ℕ → Bool}

theorem Bitmap.Refines.exec (h : b.Refines n v) {op : BitmapOp} (hop : op.InRange n) :
    ∃ b', op.exec b = .ok b' ∧ b'.Refines n (op.change v) := by
  obtain ⟨rfl, hbits⟩ := h
  -- a change of one bit
  have hone : ∀ {b' : Bitmap} {idx : ℕ} {value : Bool}, b'.bitCnt = b.bitCnt →
      (∀ j, b'.get j = if j = idx then value else b.get j) →
      b'.Refines b.bitCnt (update v idx value) := by
    intro b' idx value hcnt hget
    refine ⟨hcnt, fun j hj => ?_⟩
    rw [hget, update_apply, hbits j hj]
  cases op with
  | set idx value =>
    obtain ⟨b', hb', hcnt, hget⟩ := bitmapSet_ok hop value
    exact ⟨b', hb', hone hcnt hget⟩
  | mark idx => exact ⟨_, rfl, hone rfl (get_bitmapMark b idx)⟩
  | reset idx => exact ⟨_, rfl, hone rfl (get_bitmapReset b idx)⟩
  | flip idx => exact ⟨_, rfl, hone rfl (hbits idx hop ▸ get_bitmapFlip b idx)⟩
  | setMultiple start cnt value =>
    obtain ⟨b', hb', hcnt, hget⟩ := bitmapSetMultiple_ok hop value
    exact ⟨b', hb', hcnt, fun j hj => by rw [hget, hbits j hj]; rfl⟩
  | setAll value =>
    obtain ⟨b', hb', hcnt, hget⟩ := bitmapSetMultiple_ok (Nat.zero_add _).le value
    exact ⟨b', hb', hcnt, fun j hj => by rw [hget, if_pos (by omega)]; rfl⟩

theorem Bitmap.Refines.answers (h : b.Refines n v) : b.Answers n v := by
  obtain ⟨rfl, hbits⟩ := h
  have hrange : ∀ {start cnt}, start + cnt ≤ b.bitCnt →
      bitRange v start cnt = bitRange b.get start cnt := fun hle =>
    map_congr_left fun k hk => (hbits _ (by have := mem_range.mp hk; omega)).symm
  have hruns : ∀ start cnt value, bitRuns v b.bitCnt start cnt value =
      bitRuns b.get b.bitCnt start cnt value := by
    intro start cnt value
    ext i
    refine and_congr_right fun _ => and_congr_right fun hle => forall₂_congr fun k hk => ?_
    rw [hbits _ (by omega)]
  refine ⟨fun i hi => ?_, fun start cnt value hle => ?_, fun start cnt hle => ?_,
    fun start cnt hle => ?_, fun start cnt hle => ?_, fun start cnt value hle => ?_⟩
  · rw [bitmapTest_ok hi, hbits i hi]
  · rw [bitmapCount_ok value hle, hrange hle]
  · rw [bitmapAny, bitmapContains_ok true hle, hrange hle]
  · rw [bitmapNone, bitmapContains_ok true hle, hrange hle]; rfl
  · rw [bitmapAll, bitmapContains_ok false hle, hrange hle]; rfl
  · obtain ⟨r, hr, hsome, hnone⟩ := bitmapScan_spec hle cnt value
    rw [hruns]
    refine ⟨r, hr, fun i => ⟨hsome i, fun hi => ?_⟩, hnone, fun hempty => ?_⟩
    · cases r with
      | none => exact absurd hi.1 (by rw [hnone rfl]; exact Set.notMem_empty i)
      | some p => rw [(hsome p rfl).unique hi]
    · cases r with
      | none => rfl
      | some p => exact absurd (hsome p rfl).1 (by rw [hempty]; exact Set.notMem_empty p)

/-- **Bitmaps refine boolean vectors**: after any changes within range, a bitmap that
`bitmap_create` made answers as the vector changed in the same way.  It has fewer bits than
`BITMAP_ERROR` says. -/
theorem bitmap_refines (memory : ℕ → BitVec elemBits) (n : UInt32) (b₀ : Bitmap)
    (hcreate : bitmapCreate memory n = .ok (some b₀)) (ops : List BitmapOp)
    (hops : ∀ op ∈ ops, op.InRange n.toNat) :
    n.toNat < 2 ^ 32 - 1 ∧ ∃ b, ops.foldlM BitmapOp.exec b₀ = .ok b ∧
      b.Answers n.toNat (ops.foldl BitmapOp.change fun _ => false) := by
  refine ⟨?_, ?_⟩
  · have hlt := n.toNat_lt
    by_contra hge
    have hn : n.toNat = 2 ^ 32 - 1 := by omega
    -- the sum in `elem_cnt` wraps, and `malloc` is asked for no bytes
    rw [bitmapCreate, if_pos ⟨by rw [hn]; decide, by rintro rfl; cases hn⟩] at hcreate
    cases hcreate
  · obtain ⟨hcnt, hget⟩ := bitmapCreate_spec hcreate
    have hinit : b₀.Refines n.toNat fun _ => false := ⟨hcnt, hget⟩
    clear hcreate hcnt hget
    generalize (fun _ : ℕ => false) = v at hinit ⊢
    induction ops generalizing b₀ v with
    | nil => exact ⟨b₀, rfl, hinit.answers⟩
    | cons op ops ih =>
      obtain ⟨b, hb, hnext⟩ := hinit.exec (hops op mem_cons_self)
      rw [foldlM_cons, hb, foldl_cons]
      exact ih b (fun o ho => hops o (mem_cons_of_mem op ho)) _ hnext

/-- Twelve bits, in memory that was all ones. -/
theorem bitmap_refines_twelve : ∃ b₀ b, bitmapCreate (fun _ => -1#32) 12 = .ok (some b₀) ∧
    [.flip 3, .setMultiple 8 4 true, .reset 9].foldlM BitmapOp.exec b₀ = .ok b ∧
      b.Answers 12 ([.flip 3, .setMultiple 8 4 true, .reset 9].foldl BitmapOp.change fun _ => false) := by
  obtain ⟨b₀, hb0⟩ := bitmapCreate_ok (fun _ => -1#32)
    (show 0 < elemCnt (12 : UInt32).toNat by decide)
  obtain ⟨-, b, hb, hanswers⟩ := bitmap_refines (fun _ => -1#32) 12 b₀ hb0
    [.flip 3, .setMultiple 8 4 true, .reset 9] (by simp [BitmapOp.InRange])
  exact ⟨b₀, b, hb0, hb, hanswers⟩

end Pintos

import Mathlib.Tactic

/-! # Little-endian words in byte arrays

An array of `4 n` bytes read as an array of `n` words of 32 bits, and back.  The two
directions are inverse to each other (`toWords_ofWords`, `ofWords_toWords`), so that a block
of bytes can be specified by its words. -/

namespace Endian

/-- Byte `k` of a word, the least significant one first. -/
def byteOf (w : UInt32) (k : Fin 4) : UInt8 := UInt8.ofNat (w.toNat / 256 ^ k.val)

/-- The word with the given bytes. -/
def wordOf (b : Fin 4 → UInt8) : UInt32 :=
  UInt32.ofNat ((b 0).toNat + 256 * (b 1).toNat + 65536 * (b 2).toNat + 16777216 * (b 3).toNat)

theorem wordOf_toNat (b : Fin 4 → UInt8) : (wordOf b).toNat =
    (b 0).toNat + 256 * (b 1).toNat + 65536 * (b 2).toNat + 16777216 * (b 3).toNat := by
  have h0 := (b 0).toNat_lt
  have h1 := (b 1).toNat_lt
  have h2 := (b 2).toNat_lt
  have h3 := (b 3).toNat_lt
  rw [wordOf, UInt32.toNat_ofNat']
  omega

theorem byteOf_toNat (w : UInt32) (k : Fin 4) :
    (byteOf w k).toNat = w.toNat / 256 ^ k.val % 256 := by
  rw [byteOf, UInt8.toNat_ofNat']

theorem wordOf_byteOf (w : UInt32) : wordOf (byteOf w) = w := by
  apply UInt32.toNat_inj.mp
  have hw := w.toNat_lt
  simp only [wordOf_toNat, byteOf_toNat, Fin.val_zero, Fin.val_one, Fin.val_two,
    show (3 : Fin 4).val = 3 from rfl]
  omega

theorem byteOf_wordOf (b : Fin 4 → UInt8) : byteOf (wordOf b) = b := by
  have h0 := (b 0).toNat_lt
  have h1 := (b 1).toNat_lt
  have h2 := (b 2).toNat_lt
  have h3 := (b 3).toNat_lt
  funext k
  apply UInt8.toNat_inj.mp
  rw [byteOf_toNat, wordOf_toNat]
  match k with
  | 0 => simp only [Fin.val_zero]; omega
  | 1 => simp only [Fin.val_one]; omega
  | 2 => simp only [Fin.val_two]; omega
  | 3 => simp only [show (3 : Fin 4).val = 3 from rfl]; omega

variable {n : ℕ}

/-- The words of a byte array. -/
def toWords (b : Fin (4 * n) → UInt8) : Fin n → UInt32 :=
  fun i => wordOf fun k => b ⟨4 * i.val + k.val, by omega⟩

/-- The byte array with the given words. -/
def ofWords (w : Fin n → UInt32) : Fin (4 * n) → UInt8 :=
  fun p => byteOf (w ⟨p.val / 4, by omega⟩) ⟨p.val % 4, by omega⟩

@[simp] theorem toWords_ofWords (w : Fin n → UInt32) : toWords (ofWords w) = w := by
  funext i
  have h : (fun k : Fin 4 => ofWords w ⟨4 * i.val + k.val, by omega⟩) = byteOf (w i) := by
    funext k
    have hi : (4 * i.val + k.val) / 4 = i.val := by omega
    have hk : (4 * i.val + k.val) % 4 = k.val := by omega
    simp only [ofWords, hi, hk]
  rw [toWords, h, wordOf_byteOf]

@[simp] theorem ofWords_toWords (b : Fin (4 * n) → UInt8) : ofWords (toWords b) = b := by
  funext p
  have h := congrFun (byteOf_wordOf fun k => b ⟨4 * (p.val / 4) + k.val, by omega⟩)
    ⟨p.val % 4, by omega⟩
  rw [ofWords, toWords, h]
  exact congrArg b (Fin.ext (Nat.div_add_mod p.val 4))

end Endian

import Mathlib.Data.BitVec

/-! The bit operators of a language whose numbers are integers here: both sides are cut to 32 bits,
and the result is signed, except that of the unsigned shift. -/
namespace Word32

variable {n m : ℤ} {k : ℕ}

def word (n : ℤ) : BitVec 32 := BitVec.ofInt 32 n

/-- `n << k` -/
def shl (n : ℤ) (k : ℕ) : ℤ := (word n <<< (k % 32)).toInt

/-- `n >>> k` -/
def ushr (n : ℤ) (k : ℕ) : ℤ := (word n >>> (k % 32)).toNat

/-- `n & m` -/
def band (n m : ℤ) : ℤ := (word n &&& word m).toInt

/-- `n | m` -/
def bor (n m : ℤ) : ℤ := (word n ||| word m).toInt

@[simp] theorem word_toInt (x : BitVec 32) : word x.toInt = x := BitVec.ofInt_toInt

@[simp] theorem word_toNat (x : BitVec 32) : word (x.toNat : ℤ) = x := by
  rw [word, BitVec.ofInt_natCast, BitVec.ofNat_toNat, BitVec.setWidth_eq]

@[simp] theorem word_shl : word (shl n k) = word n <<< (k % 32) := word_toInt _

@[simp] theorem word_ushr : word (ushr n k) = word n >>> (k % 32) := word_toNat _

@[simp] theorem word_band : word (band n m) = word n &&& word m := word_toInt _

@[simp] theorem word_bor : word (bor n m) = word n ||| word m := word_toInt _

/-- `>>> 0` makes the number unsigned. -/
theorem ushr_zero (n : ℤ) : ushr n 0 = (word n).toNat := rfl

/-- A shift that fits below the sign changes nothing but the factor. -/
theorem shl_of_lt {a : ℕ} (h : a * 2 ^ (k % 32) < 2 ^ 31) : shl a k = a * 2 ^ (k % 32) := by
  have hpos : 0 < 2 ^ (k % 32) := Nat.two_pow_pos _
  have ha : a < 2 ^ 32 := by
    have hle : a * 1 ≤ a * 2 ^ (k % 32) := Nat.mul_le_mul_left a hpos
    omega
  have hword : (word (a : ℤ) <<< (k % 32)).toNat = a * 2 ^ (k % 32) := by
    rw [word, BitVec.ofInt_natCast, BitVec.toNat_shiftLeft, BitVec.toNat_ofNat, Nat.mod_eq_of_lt ha,
      Nat.shiftLeft_eq,
      Nat.mod_eq_of_lt (by omega)]
  rw [shl, BitVec.toInt_eq_toNat_of_lt (by omega), hword]
  push_cast
  rfl

end Word32

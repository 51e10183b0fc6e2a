import Mathlib.Algebra.Group.Nat.Defs
import Mathlib.Data.Nat.Bitwise

/-!
# Machine words and their bytes

A word that is cut into bytes, from the most significant to the least, is put together
again by shifting each byte to its place.  The lemmas are about the shifts and the
conversions between machine words that C programs write for the two directions, so a
byte may also have been widened with its sign before it is masked.

Addresses have 64 bits: a `size_t` is an unsigned word of 64 bits, and a signed number that
is used for one is widened with its sign.
-/

namespace DistributedLab.BigEndian

/-! ### Digits of a number -/

/-- The digit of `b` bits at position `k`, put back in its place. -/
theorem testBit_digit (n k b w i : Nat) :
    (((n >>> k) % 2 ^ b) <<< k % 2 ^ w).testBit i =
      (decide (k ≤ i ∧ i < k + b ∧ i < w) && n.testBit i) := by
  simp only [Nat.testBit_mod_two_pow, Nat.testBit_shiftLeft, Nat.testBit_shiftRight]
  by_cases hk : k ≤ i
  · have hindex : k + (i - k) = i := by omega
    rw [hindex]
    grind
  · simp [hk]

theorem testBit_of_le {n w i : Nat} (h : n < 2 ^ w) (hi : w ≤ i) : n.testBit i = false :=
  Nat.testBit_eq_false_of_lt (Nat.lt_of_lt_of_le h (Nat.pow_le_pow_right (by decide) hi))

theorem four_digits {n : Nat} (h : n < 2 ^ 32) :
    ((n >>> 24) % 2 ^ 8) <<< 24 % 2 ^ 32 ||| ((n >>> 16) % 2 ^ 8) <<< 16 % 2 ^ 32 |||
      ((n >>> 8) % 2 ^ 8) <<< 8 % 2 ^ 32 ||| n % 2 ^ 8 = n := by
  apply Nat.eq_of_testBit_eq
  intro i
  have hhigh : 32 ≤ i → n.testBit i = false := testBit_of_le h
  simp only [Nat.testBit_lor, testBit_digit]
  rw [Nat.testBit_mod_two_pow]
  cases hbit : n.testBit i <;> grind

/-- Two digits of `b` bits, the upper one reduced to `w` bits on its way. -/
theorem two_digits {n b w : Nat} (h : n < 2 ^ (b + b)) (hw : b + b ≤ w) :
    ((n >>> b) % 2 ^ b) <<< b % 2 ^ w ||| n % 2 ^ b = n := by
  apply Nat.eq_of_testBit_eq
  intro i
  have hhigh : b + b ≤ i → n.testBit i = false := testBit_of_le h
  simp only [Nat.testBit_lor, testBit_digit]
  rw [Nat.testBit_mod_two_pow]
  cases hbit : n.testBit i <;> grind

/-! ### Masks and signs -/

theorem getLsbD_and_255 (x : UInt32) (i : Nat) :
    (x &&& 0xff).toBitVec.getLsbD i = (decide (i < 8) && x.toBitVec.getLsbD i) := by
  have hmask : (255#32).getLsbD i = decide (i < 8) := by
    simp only [BitVec.getLsbD, BitVec.toNat_ofNat]
    rw [show 255 % 2 ^ 32 = 2 ^ 8 - 1 from rfl, Nat.testBit_two_pow_sub_one]
  simp [hmask, Bool.and_comm]

theorem mod_and_255 (n : Nat) : n % 256 &&& 255 = n % 256 :=
  (Nat.and_two_pow_sub_one_eq_mod (n % 256) 8).trans (Nat.mod_mod n 256)

@[simp] theorem toUInt8_and_255 (x : UInt32) : (x &&& 0xff).toUInt8 = x.toUInt8 := by
  apply UInt8.toNat_inj.mp
  simp [mod_and_255]

@[simp] theorem toUInt8_and_255_of_short (x : UInt16) : (x &&& 0xff).toUInt8 = x.toUInt8 := by
  apply UInt8.toNat_inj.mp
  simp [mod_and_255]

/-- A shift that keeps the sign differs from one that does not in the upper bits only. -/
theorem setWidth_sshiftRight (x : BitVec 32) {k : Nat} (hk : k ≤ 24) :
    (x.sshiftRight k &&& 255#32).setWidth 8 = (x >>> k).setWidth 8 := by
  apply BitVec.eq_of_getLsbD_eq
  intro i hi
  have hmask : (255#32).getLsbD i = true := by
    simp only [BitVec.getLsbD, BitVec.toNat_ofNat]
    rw [show 255 % 2 ^ 32 = 2 ^ 8 - 1 from rfl, Nat.testBit_two_pow_sub_one]
    simp [hi]
  have hin : k + i < 32 := by omega
  rw [BitVec.getLsbD_setWidth, BitVec.getLsbD_setWidth, BitVec.getLsbD_and,
    BitVec.getLsbD_sshiftRight, BitVec.getLsbD_ushiftRight, hmask]
  simp [hi, hin]
  omega

/-- The mask undoes the widening of a byte with its sign. -/
@[simp] theorem signed_and_255 (c : UInt8) : c.toInt8.toInt32.toUInt32 &&& 0xff = c.toUInt32 := by
  apply UInt32.toBitVec_inj.mp
  apply BitVec.eq_of_getLsbD_eq
  intro i hi
  rw [getLsbD_and_255]
  simp [BitVec.getLsbD_signExtend]
  grind

/-! ### Words -/

theorem ofBytes32 (x : UInt32) :
    (x >>> 24).toUInt8.toUInt32 <<< 24 ||| (x >>> 16).toUInt8.toUInt32 <<< 16 |||
      (x >>> 8).toUInt8.toUInt32 <<< 8 ||| x.toUInt8.toUInt32 = x := by
  apply UInt32.toNat_inj.mp
  simp only [UInt32.toNat_or, UInt32.toNat_shiftLeft, UInt8.toNat_toUInt32, UInt32.toNat_toUInt8,
    UInt32.toNat_shiftRight]
  exact four_digits (UInt32.toNat_lt x)

theorem ofHalves64 (x : UInt64) :
    (x >>> 32).toUInt32.toUInt64 <<< 32 ||| x.toUInt32.toUInt64 = x := by
  apply UInt64.toNat_inj.mp
  simp only [UInt64.toNat_or, UInt64.toNat_shiftLeft, UInt32.toNat_toUInt64, UInt64.toNat_toUInt32,
    UInt64.toNat_shiftRight]
  exact two_digits (UInt64.toNat_lt x) (Nat.le_refl _)

theorem ofBytes16 (x : UInt16) :
    ((((x >>> 8).toUInt8.toUInt32 <<< 8).toUInt16).toUInt32 ||| x.toUInt8.toUInt32).toUInt16 =
      x := by
  apply UInt16.toNat_inj.mp
  simp only [UInt32.toNat_or, UInt32.toNat_shiftLeft, UInt8.toNat_toUInt32, UInt16.toNat_toUInt8,
    UInt32.toNat_toUInt16, UInt16.toNat_toUInt32, UInt16.toNat_shiftRight]
  rw [Nat.mod_mod_of_dvd _ (by decide : 2 ^ 16 ∣ 2 ^ 32)]
  have hdigits : ((x.toNat >>> 8) % 2 ^ 8) <<< 8 % 2 ^ 16 ||| x.toNat % 2 ^ 8 = x.toNat :=
    two_digits (UInt16.toNat_lt x) (Nat.le_refl 16)
  exact (congrArg (· % 2 ^ 16) hdigits).trans (Nat.mod_eq_of_lt (UInt16.toNat_lt x))

/-- The first byte of a short may have made the short negative before the second one is added. -/
theorem ofBytes16_signed (x : UInt16) (low : UInt32) :
    (x.toInt16.toInt32.toUInt32 ||| low).toUInt16 = (x.toUInt32 ||| low).toUInt16 := by
  apply UInt16.toBitVec_inj.mp
  show (x.toBitVec.signExtend 32 ||| low.toBitVec).setWidth 16 =
    (x.toBitVec.setWidth 32 ||| low.toBitVec).setWidth 16
  apply BitVec.eq_of_getLsbD_eq
  intro i hi
  have hin : i < 32 := by omega
  rw [BitVec.getLsbD_setWidth, BitVec.getLsbD_setWidth, BitVec.getLsbD_or, BitVec.getLsbD_or,
    BitVec.getLsbD_signExtend, BitVec.getLsbD_setWidth]
  simp [hi, hin]

/-! ### Sizes -/

/-- An `int` or an `off_t` as a `size_t`. -/
def sizeT (n : Int) : Nat := (Int64.ofInt n).toUInt64.toNat

theorem sizeT_natCast {n : Nat} (h : n < 2 ^ 64) : sizeT n = n := by
  have hbits : (Int64.ofInt (n : Int)).toUInt64 = UInt64.ofNat n :=
    UInt64.toBitVec_inj.mp (BitVec.ofInt_natCast 64 n)
  rw [sizeT, hbits]
  exact UInt64.toNat_ofNat_of_lt h

end DistributedLab.BigEndian

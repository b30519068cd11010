import Mathlib.Data.Nat.Bitwise

namespace Xv6.Framework.Words

/-! Fields of machine words, as arithmetic on their values. -/

variable {a b : UInt64} {k : Nat}

theorem and_bit (a : UInt64) (hk : k < 64) :
    a &&& UInt64.ofNat (2 ^ k) ≠ 0 ↔ a.toNat.testBit k = true := by
  have hpow : 2 ^ k < 2 ^ 64 := Nat.pow_lt_pow_right (by decide) hk
  have hval : (a &&& UInt64.ofNat (2 ^ k)).toNat = a.toNat &&& 2 ^ k := by
    rw [UInt64.toNat_and, UInt64.toNat_ofNat', Nat.mod_eq_of_lt hpow]
  have hzero : a &&& UInt64.ofNat (2 ^ k) = 0 ↔ (a &&& UInt64.ofNat (2 ^ k)).toNat = 0 := by
    rw [← UInt64.toNat_inj]
    rfl
  rw [ne_eq, hzero, hval, Nat.and_two_pow]
  cases a.toNat.testBit k <;> simp

theorem toNat_and_mask (a : UInt64) (hk : k < 64) :
    (a &&& UInt64.ofNat (2 ^ k - 1)).toNat = a.toNat % 2 ^ k := by
  have hpow : 2 ^ k < 2 ^ 64 := Nat.pow_lt_pow_right (by decide) hk
  rw [UInt64.toNat_and, UInt64.toNat_ofNat', Nat.mod_eq_of_lt (by omega),
    Nat.and_two_pow_sub_one_eq_mod]

theorem toNat_and_not_mask (a : UInt64) (hk : k < 64) :
    (a &&& ~~~(UInt64.ofNat (2 ^ k - 1))).toNat = a.toNat / 2 ^ k * 2 ^ k := by
  have hpow : 2 ^ k < 2 ^ 64 := Nat.pow_lt_pow_right (by decide) hk
  have hnot : (~~~(UInt64.ofNat (2 ^ k - 1))).toNat = 2 ^ 64 - (2 ^ k - 1 + 1) := by
    rw [UInt64.toNat_not, UInt64.toNat_ofNat', UInt64.size]
    omega
  rw [UInt64.toNat_and, hnot]
  apply Nat.eq_of_testBit_eq
  intro i
  rw [Nat.testBit_and, Nat.testBit_two_pow_sub_succ (by omega), Nat.testBit_mul_two_pow,
    Nat.testBit_div_two_pow]
  by_cases hi : k ≤ i
  · rw [Nat.sub_add_cancel hi]
    by_cases h64 : i < 64
    · simp [hi, h64]
    · have hbit : a.toNat.testBit i = false :=
        Nat.testBit_lt_two_pow (a.toNat_lt.trans_le (Nat.pow_le_pow_right (by decide) (by omega)))
      simp [hbit]
  · have hlt : i < k := by omega
    simp [hlt]

theorem amount (hk : k < 64) : (UInt64.ofNat k).toNat % 64 = k := by
  rw [UInt64.toNat_ofNat']
  omega

/-- A field above another one. -/
theorem toNat_shiftLeft_or (hb : b.toNat < 2 ^ k) (hk : k < 64) (ha : a.toNat * 2 ^ k < 2 ^ 64) :
    (a <<< UInt64.ofNat k ||| b).toNat = a.toNat * 2 ^ k + b.toNat := by
  have hsh : (a <<< UInt64.ofNat k).toNat = a.toNat <<< k := by
    rw [UInt64.toNat_shiftLeft, amount hk, Nat.shiftLeft_eq, Nat.mod_eq_of_lt ha]
  rw [UInt64.toNat_or, hsh, ← Nat.shiftLeft_add_eq_or_of_lt hb, Nat.shiftLeft_eq]

theorem toNat_shiftRight (a : UInt64) (hk : k < 64) :
    (a >>> UInt64.ofNat k).toNat = a.toNat / 2 ^ k := by
  rw [UInt64.toNat_shiftRight, amount hk, Nat.shiftRight_eq_div_pow]

/-- An int that is not negative is its word. -/
theorem toInt_toInt32 {x : UInt32} (h : x.toNat < 2 ^ 31) : x.toInt32.toInt = x.toNat :=
  BitVec.toInt_eq_toNat_of_lt (show 2 * x.toNat < 2 ^ 32 by omega)

/-- The size of a signed number, as an unsigned one. -/
theorem natAbs_toInt {w : Nat} (b : BitVec w) :
    (if b.toInt < 0 then -b else b).toNat = b.toInt.natAbs := by
  have hint := b.toInt_eq_toNat_cond
  split_ifs with h
  · rw [BitVec.toNat_neg, Nat.mod_eq_of_lt (by omega)]
    split_ifs at hint <;> omega
  · split_ifs at hint <;> omega

end Xv6.Framework.Words

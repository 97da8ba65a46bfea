import Mathlib.Data.Nat.Bitwise
import Mathlib.Tactic.Common

/-!
# Masks of low bits

A number with the low `k` bits set masks the place in a block of `2 ^ k` bytes, and its
complement masks the block.

* `exists_twoPow` — what `x & (x - 1)` tells of `x`;
* `twoPow_sub_one`, `low_add_one` — from a size to its mask and back;
* `and_low_eq_zero` — a multiple of the size has no bits in the mask;
* `block_iff` — the addresses that agree with the address of a block outside the mask are those
  of the block.
-/

namespace Machine

variable {w k l : Nat}

/-- The low `k` bits. -/
def low (w k : Nat) : BitVec w := BitVec.ofNat w (2 ^ k - 1)

theorem getLsbD_low (i : Nat) : (low w k).getLsbD i = (decide (i < w) && decide (i < k)) := by
  unfold low
  rw [BitVec.getLsbD_ofNat, Nat.testBit_two_pow_sub_one]

theorem toNat_low (h : k ≤ w) : (low w k).toNat = 2 ^ k - 1 := by
  have hPow := Nat.pow_le_pow_right (n := 2) (by decide) h
  have hPos := Nat.two_pow_pos k
  unfold low
  rw [BitVec.toNat_ofNat, Nat.mod_eq_of_lt (by omega)]

theorem twoPow_sub_one (h : k < w) : BitVec.twoPow w k - 1 = low w k := by
  have hPow := Nat.pow_lt_pow_right (a := 2) (by decide) h
  have hPos := Nat.two_pow_pos k
  have hOne : (1 : BitVec w).toNat = 1 := BitVec.toNat_one (by omega)
  refine BitVec.eq_of_toNat_eq ?_
  rw [BitVec.toNat_sub, BitVec.toNat_twoPow_of_lt h, hOne, toNat_low (Nat.le_of_lt h)]
  rw [show 2 ^ w - 1 + 2 ^ k = (2 ^ k - 1) + 2 ^ w by omega, Nat.add_mod_right]
  exact Nat.mod_eq_of_lt (by omega)

theorem low_add_one (h : k < w) : low w k + 1 = BitVec.twoPow w k := by
  rw [← twoPow_sub_one h, BitVec.sub_add_cancel]

/-- A number without two bits is a power of two, or 0. -/
theorem exists_twoPow {x : BitVec w} (hNot : x ≠ 0) (h : x &&& (x - 1) = 0) :
    ∃ k, k < w ∧ x = BitVec.twoPow w k := by
  have hPos : x.toNat ≠ 0 := fun hZero => hNot (BitVec.eq_of_toNat_eq (by rw [hZero]; rfl))
  have hWidth : 0 < w := by
    by_contra hNone
    obtain rfl : w = 0 := by omega
    exact hNot (BitVec.eq_nil x)
  have hSub : (x - 1).toNat = x.toNat - 1 := by
    have hOne : (1 : BitVec w).toNat = 1 := BitVec.toNat_one hWidth
    rw [BitVec.toNat_sub_of_le, hOne]
    rw [BitVec.le_def, hOne]
    omega
  have hAnd := congrArg BitVec.toNat h
  rw [BitVec.toNat_and, hSub] at hAnd
  obtain ⟨k, hk⟩ := (Nat.and_sub_one_eq_zero_iff_isPowerOfTwo hPos).mp hAnd
  have hLt : k < w := (Nat.pow_lt_pow_iff_right (a := 2) (by decide)).mp (by rw [← hk]; exact x.isLt)
  exact ⟨k, hLt, BitVec.eq_of_toNat_eq (by rw [BitVec.toNat_twoPow_of_lt hLt, hk])⟩

theorem toNat_and_low (x : BitVec w) (h : k ≤ w) : (x &&& low w k).toNat = x.toNat % 2 ^ k := by
  rw [BitVec.toNat_and, toNat_low h, Nat.and_two_pow_sub_one_eq_mod]

theorem and_low_eq_zero {x : BitVec w} (h : k ≤ w) : x &&& low w k = 0 ↔ x.toNat % 2 ^ k = 0 := by
  rw [← toNat_and_low x h]
  refine ⟨fun hZero => by rw [hZero]; rfl, fun hZero => BitVec.eq_of_toNat_eq (by rw [hZero]; rfl)⟩

/-- A multiple of the size has its bits above the mask. -/
theorem getLsbD_of_aligned {x : BitVec w} (h : x &&& low w k = 0) {i : Nat} (hi : i < k) :
    x.getLsbD i = false := by
  by_cases hw : i < w
  · have hBit := congrArg (fun v => v.getLsbD i) h
    simp only [BitVec.getLsbD_and, getLsbD_low, decide_eq_true hw, decide_eq_true hi,
      Bool.and_true] at hBit
    exact hBit.trans BitVec.getLsbD_zero
  · exact BitVec.getLsbD_of_ge x i (Nat.le_of_not_lt hw)

/-- Numbers below `2 ^ l` that agree in the bits from `k` on. -/
theorem agree_iff {x y : BitVec w} (hx : x.toNat < 2 ^ l) (hy : y.toNat < 2 ^ l) :
    (∀ i, k ≤ i → i < l → x.getLsbD i = y.getLsbD i) ↔ x.toNat / 2 ^ k = y.toNat / 2 ^ k := by
  constructor
  · intro h
    refine Nat.eq_of_testBit_eq fun i => ?_
    rw [Nat.testBit_div_two_pow, Nat.testBit_div_two_pow]
    by_cases hi : i + k < l
    · exact h (i + k) (Nat.le_add_left k i) hi
    · have hPow : 2 ^ l ≤ 2 ^ (i + k) := Nat.pow_le_pow_right (by decide) (Nat.le_of_not_lt hi)
      rw [Nat.testBit_lt_two_pow (Nat.lt_of_lt_of_le hx hPow),
        Nat.testBit_lt_two_pow (Nat.lt_of_lt_of_le hy hPow)]
  · intro h i hk _
    have hBit := congrArg (fun v => v.testBit (i - k)) h
    simp only [Nat.testBit_div_two_pow, Nat.sub_add_cancel hk] at hBit
    exact hBit

/-- The numbers in the block of a multiple of its size. -/
theorem block_iff {x y s : Nat} (hs : 0 < s) (hAligned : y % s = 0) :
    x / s = y / s ↔ y ≤ x ∧ x < y + s := by
  have hx := Nat.div_add_mod x s
  have hy := Nat.div_add_mod y s
  have hRest := Nat.mod_lt x hs
  constructor
  · intro h
    rw [h] at hx
    omega
  · rintro ⟨hLow, hHigh⟩
    obtain ⟨q, rfl⟩ := Nat.dvd_of_mod_eq_zero hAligned
    rw [Nat.mul_div_cancel_left q hs]
    refine Nat.div_eq_of_lt_le ?_ ?_
    · rw [Nat.mul_comm]
      exact hLow
    · rw [Nat.add_mul, Nat.one_mul, Nat.mul_comm]
      exact hHigh

end Machine

import Mathlib.Algebra.Group.Nat.Defs
import Mathlib.Algebra.Ring.Int.Defs

/- Address blocks: the words of `w` bits that agree with one in their first `len` bits.

   1. `agree_iff_div`: agreement is division by the size of the block;
   2. `le_last_iff`: the words of the block from one of its own on are the ones up to
      `last`, the greatest word of the block;
   3. `agree_iff_mask`: agreement is equality under the mask. -/

namespace Cidr

variable {w : Nat}

/-- The two agree in their first `len` bits. -/
def Agree (len : Nat) (a x : BitVec w) : Prop := ∀ i < len, a.getMsbD i = x.getMsbD i

instance (len : Nat) (a x : BitVec w) : Decidable (Agree len a x) := inferInstanceAs (Decidable (∀ i < len, _))

theorem agree_iff_ushiftRight {len : Nat} (h : len ≤ w) (a x : BitVec w) :
    Agree len a x ↔ a >>> (w - len) = x >>> (w - len) := by
  constructor
  · intro hbits
    refine BitVec.eq_of_getMsbD_eq ?_
    intro i hi
    rw [BitVec.getMsbD_ushiftRight, BitVec.getMsbD_ushiftRight]
    by_cases hlow : i < w - len
    · simp [hlow]
    · rw [hbits (i - (w - len)) (by omega)]
  · intro heq i hi
    have hbit := congrArg (fun v => BitVec.getMsbD v (i + (w - len))) heq
    simp only [BitVec.getMsbD_ushiftRight] at hbit
    rw [Nat.add_sub_cancel] at hbit
    simpa [show i + (w - len) < w by omega, show ¬i + (w - len) < w - len by omega] using hbit

/-- **Agreement is division by the size of the block.** -/
theorem agree_iff_div {len : Nat} (h : len ≤ w) (a x : BitVec w) :
    Agree len a x ↔ a.toNat / 2 ^ (w - len) = x.toNat / 2 ^ (w - len) := by
  rw [agree_iff_ushiftRight h, BitVec.toNat_eq, BitVec.toNat_ushiftRight, BitVec.toNat_ushiftRight,
    Nat.shiftRight_eq_div_pow, Nat.shiftRight_eq_div_pow]

/-- `a` with its last `k` bits set. -/
def last (k a : Nat) : Nat := a / 2 ^ k * 2 ^ k + (2 ^ k - 1)

/-- Its low bits set by a disjunction. -/
theorem or_two_pow_sub_one (k a : Nat) : a ||| (2 ^ k - 1) = last k a := by
  have hpos : 0 < 2 ^ k := Nat.two_pow_pos k
  rw [last, Nat.mul_comm, Nat.two_pow_add_eq_or_of_lt (by omega)]
  apply Nat.eq_of_testBit_eq
  intro i
  by_cases hi : i < k
  · simp [Nat.testBit_two_pow_sub_one, hi]
  · have hk : k ≤ i := by omega
    simp [Nat.testBit_two_pow_sub_one, Nat.testBit_two_pow_mul, Nat.testBit_div_two_pow, hi, hk]

theorem last_div (k a : Nat) : last k a / 2 ^ k = a / 2 ^ k := by
  have hpos : 0 < 2 ^ k := Nat.two_pow_pos k
  calc last k a / 2 ^ k = a / 2 ^ k + (2 ^ k - 1) / 2 ^ k := by rw [last, Nat.mul_comm, Nat.mul_add_div hpos]
    _ = a / 2 ^ k + 0 := by rw [Nat.div_eq_of_lt (show 2 ^ k - 1 < 2 ^ k by omega)]
    _ = a / 2 ^ k := Nat.add_zero _

theorem le_last (k a : Nat) : a ≤ last k a := by
  have hpos : 0 < 2 ^ k := Nat.two_pow_pos k
  have hmod : a % 2 ^ k < 2 ^ k := Nat.mod_lt a hpos
  have hdiv : 2 ^ k * (a / 2 ^ k) + a % 2 ^ k = a := Nat.div_add_mod a (2 ^ k)
  rw [last, Nat.mul_comm]
  omega

/-- **From `a` on the block ends at `last`.** -/
theorem le_last_iff {k a x : Nat} (hax : a ≤ x) : x ≤ last k a ↔ a / 2 ^ k = x / 2 ^ k := by
  have hpos : 0 < 2 ^ k := Nat.two_pow_pos k
  constructor
  · intro hx
    apply Nat.le_antisymm (Nat.div_le_div_right hax)
    calc x / 2 ^ k ≤ last k a / 2 ^ k := Nat.div_le_div_right hx
      _ = a / 2 ^ k := last_div k a
  · intro heq
    have hlast := le_last k x
    rwa [last, ← heq, ← last] at hlast

/-- A block lies on one side of every boundary of a larger one. -/
theorem last_div_of_le {k m : Nat} (h : k ≤ m) (a : Nat) : last k a / 2 ^ m = a / 2 ^ m := by
  rw [show m = k + (m - k) by omega, Nat.pow_add, ← Nat.div_div_eq_div_mul, ← Nat.div_div_eq_div_mul, last_div]

/-- Bits below the ones kept are all set. -/
theorem last_mul_add (k m x : Nat) {lo : Nat} (hlo : lo < 2 ^ m) :
    last (m + k) (x * 2 ^ m + lo) = last k x * 2 ^ m + (2 ^ m - 1) := by
  have hm : 0 < 2 ^ m := Nat.two_pow_pos m
  have hk : 0 < 2 ^ k := Nat.two_pow_pos k
  have hdiv : (x * 2 ^ m + lo) / 2 ^ m = x := by
    rw [Nat.mul_comm, Nat.mul_add_div hm, Nat.div_eq_of_lt hlo, Nat.add_zero]
  have hones : 2 ^ k * 2 ^ m - 1 = (2 ^ k - 1) * 2 ^ m + (2 ^ m - 1) := by
    rw [Nat.sub_mul, Nat.one_mul]
    have := Nat.le_mul_of_pos_left (2 ^ m) hk
    omega
  calc last (m + k) (x * 2 ^ m + lo)
      = x / 2 ^ k * (2 ^ k * 2 ^ m) + (2 ^ k * 2 ^ m - 1) := by
        rw [last, Nat.pow_add, ← Nat.div_div_eq_div_mul, hdiv, Nat.mul_comm (2 ^ m)]
    _ = x / 2 ^ k * 2 ^ k * 2 ^ m + ((2 ^ k - 1) * 2 ^ m + (2 ^ m - 1)) := by rw [hones, Nat.mul_assoc]
    _ = last k x * 2 ^ m + (2 ^ m - 1) := by rw [last, Nat.add_mul, Nat.add_assoc]

/-- Bits above stay. -/
theorem last_add_mul {k m : Nat} (h : k ≤ m) (hi x : Nat) : last k (hi * 2 ^ m + x) = hi * 2 ^ m + last k x := by
  have hk : 0 < 2 ^ k := Nat.two_pow_pos k
  have hsplit : hi * 2 ^ m = 2 ^ k * (hi * 2 ^ (m - k)) := by
    rw [Nat.mul_left_comm, ← Nat.pow_add, Nat.add_sub_cancel' h]
  calc last k (hi * 2 ^ m + x)
      = (hi * 2 ^ (m - k) + x / 2 ^ k) * 2 ^ k + (2 ^ k - 1) := by rw [last, hsplit, Nat.mul_add_div hk]
    _ = hi * 2 ^ (m - k) * 2 ^ k + (x / 2 ^ k * 2 ^ k + (2 ^ k - 1)) := by rw [Nat.add_mul, Nat.add_assoc]
    _ = hi * 2 ^ m + last k x := by rw [hsplit, last, Nat.mul_comm (hi * 2 ^ (m - k))]

/-- The first `len` bits set. -/
def mask (w len : Nat) : BitVec w := BitVec.allOnes w <<< (w - len)

theorem getMsbD_mask {len i : Nat} (h : len ≤ w) : (mask w len).getMsbD i = decide (i < len) := by
  rw [mask, BitVec.getMsbD_shiftLeft, BitVec.getMsbD_allOnes]
  exact decide_eq_decide.mpr (by omega)

/-- **Agreement is equality under the mask.** -/
theorem agree_iff_mask {len : Nat} (h : len ≤ w) (a x : BitVec w) :
    Agree len a x ↔ a &&& mask w len = x &&& mask w len := by
  constructor
  · intro hbits
    refine BitVec.eq_of_getMsbD_eq ?_
    intro i _
    rw [BitVec.getMsbD_and, BitVec.getMsbD_and, getMsbD_mask h]
    by_cases hi : i < len
    · rw [hbits i hi]
    · simp [hi]
  · intro heq i hi
    have hbit := congrArg (fun v => BitVec.getMsbD v i) heq
    simpa only [BitVec.getMsbD_and, getMsbD_mask h, hi, decide_true, Bool.and_true] using hbit

end Cidr

import Mathlib.Algebra.Group.Nat.Defs
import Mathlib.Algebra.Ring.Int.Defs

/- Sums with an end-around carry. Digits of a base `B` are added up, and what stands
   above the lowest digit is added back to it.

   1. `fold_mod`: the carry is worth 1, so adding it back keeps the sum modulo `B - 1`;
   2. `fold_fold_lt`: below `B ^ 2` twice is enough to be left with one digit;
   3. `fold_fold_check`: the complement of that digit, added to the sum, makes it `B - 1`. -/

namespace OnesSum

/-- The digits above the lowest one are added to it. -/
def fold (B s : Nat) : Nat := s / B + s % B

variable {B s : Nat}

theorem fold_of_lt (h : s < B) : fold B s = s := by
  rw [fold, Nat.div_eq_of_lt h, Nat.mod_eq_of_lt h, Nat.zero_add]

/-- **Adding the carry back keeps the sum modulo `B - 1`.** -/
theorem fold_mod (hB : 1 ≤ B) (s : Nat) : fold B s % (B - 1) = s % (B - 1) := by
  have hs : (B - 1) * (s / B) + fold B s = s := by
    calc (B - 1) * (s / B) + (s / B + s % B)
        = ((B - 1) * (s / B) + 1 * (s / B)) + s % B := by rw [Nat.one_mul, Nat.add_assoc]
      _ = B * (s / B) + s % B := by rw [← Nat.add_mul, Nat.sub_add_cancel hB]
      _ = s := Nat.div_add_mod s B
  calc fold B s % (B - 1) = ((B - 1) * (s / B) + fold B s) % (B - 1) := (Nat.mul_add_mod _ _ _).symm
    _ = s % (B - 1) := by rw [hs]

theorem fold_pos (hs : 0 < s) : 0 < fold B s := by
  by_contra hzero
  have hsum : s / B + s % B = 0 := Nat.eq_zero_of_not_pos hzero
  have hdiv := Nat.div_add_mod s B
  rw [(Nat.add_eq_zero_iff.mp hsum).1, (Nat.add_eq_zero_iff.mp hsum).2, Nat.mul_zero] at hdiv
  omega

theorem fold_le (h : s < B * B) : fold B s ≤ 2 * B - 2 := by
  have hB : 0 < B := by
    by_contra hB
    have hzero : B = 0 := by omega
    rw [hzero] at h
    omega
  have hq : s / B < B := Nat.div_lt_of_lt_mul h
  have hr : s % B < B := Nat.mod_lt s hB
  rw [fold]
  omega

/-- **Twice is enough.** -/
theorem fold_fold_lt (hB : 1 ≤ B) (h : s < B * B) : fold B (fold B s) < B := by
  have hle := fold_le h
  by_cases hsmall : fold B s < B
  · rwa [fold_of_lt hsmall]
  · have hq : fold B s / B = 1 := Nat.div_eq_of_lt_le (by omega) (by omega)
    have hdiv := Nat.div_add_mod (fold B s) B
    rw [hq, Nat.mul_one] at hdiv
    rw [fold, hq]
    omega

/-- Where one digit is left, adding the carry and cutting to one digit is a fold. -/
theorem add_div_mod (h : fold B s < B) : (s + s / B) % B = fold B s := by
  have hdiv := Nat.div_add_mod s B
  calc (s + s / B) % B = (B * (s / B) + fold B s) % B := by
        rw [fold]
        congr 1
        omega
    _ = fold B s := by rw [Nat.mul_add_mod, Nat.mod_eq_of_lt h]

/-- **The complement of the sum checks it.** -/
theorem fold_fold_check (hB : 2 ≤ B) (hs : s < B * B) (hcheck : s + (B - 1 - fold B (fold B s)) < B * B) :
    fold B (fold B (s + (B - 1 - fold B (fold B s)))) = B - 1 := by
  have hdigit : fold B (fold B s) < B := fold_fold_lt (by omega) hs
  have hlast : fold B (fold B (s + (B - 1 - fold B (fold B s)))) < B := fold_fold_lt (by omega) hcheck
  have hpos : 0 < s + (B - 1 - fold B (fold B s)) := by
    rcases Nat.eq_zero_or_pos s with rfl | hs0
    · rw [fold_of_lt (show 0 < B by omega), fold_of_lt (show 0 < B by omega)]
      omega
    · omega
  have hmod : fold B (fold B (s + (B - 1 - fold B (fold B s)))) % (B - 1) = 0 := by
    calc fold B (fold B (s + (B - 1 - fold B (fold B s)))) % (B - 1)
        = (s + (B - 1 - fold B (fold B s))) % (B - 1) := by rw [fold_mod (by omega), fold_mod (by omega)]
      _ = (fold B (fold B s) + (B - 1 - fold B (fold B s))) % (B - 1) := by
          rw [Nat.add_mod, ← fold_mod (by omega) s, ← fold_mod (by omega) (fold B s), ← Nat.add_mod]
      _ = 0 := by rw [Nat.add_sub_cancel' (by omega), Nat.mod_self]
  have hsum := fold_pos (B := B) (fold_pos (B := B) hpos)
  obtain ⟨k, hk⟩ := Nat.dvd_of_mod_eq_zero hmod
  have hone : k = 1 := by
    rcases k with _ | _ | k
    · omega
    · rfl
    · rw [Nat.mul_add, Nat.mul_add] at hk
      omega
  rw [hk, hone, Nat.mul_one]

end OnesSum

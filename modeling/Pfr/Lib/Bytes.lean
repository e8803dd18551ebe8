import Mathlib.Algebra.Group.Nat.Defs
import Mathlib.Algebra.Ring.Int.Defs

/- A reused receive buffer and the numbers read from it. `Bytes.load pkt buf` is the
   buffer after `pkt` was received into it: what lies beyond the packet is what was
   there before. A reader is shown to depend on the packet alone by `load_agree` and
   the congruence of the reads, and to depend on the rest by `beNat_mod`.

   1. `leNat`, `beNat`: the number in `k` bytes, in either order;
   2. `leNat_congr`, `beNat_congr`: they read those bytes only;
   3. `signed_inj`: a conversion to a signed type keeps the low bits;
   4. `leNat_of_holds`, `beNat_of_holds`: a number written in either order is read back. -/

namespace Bytes

abbrev Buf := Nat → UInt8

def Buf.zero : Buf := fun _ => 0

/-- The buffer after a packet was received into it. -/
def load (pkt : List UInt8) (buf : Buf) : Buf := fun i => pkt[i]?.getD (buf i)

/-- Two buffers hold the same `k` bytes from offset `o` on. -/
def AgreeOn (b b' : Buf) (o k : Nat) : Prop := ∀ i, o ≤ i → i < o + k → b i = b' i

theorem load_lt {pkt : List UInt8} {i : Nat} (h : i < pkt.length) (buf buf' : Buf) :
    load pkt buf i = load pkt buf' i := by
  rw [load, load, List.getElem?_eq_getElem h]
  rfl

theorem load_ge {pkt : List UInt8} {i : Nat} (h : pkt.length ≤ i) (buf : Buf) : load pkt buf i = buf i := by
  rw [load, List.getElem?_eq_none h]
  rfl

/-- Within the packet the buffer is the packet. -/
theorem load_agree {pkt : List UInt8} {o k : Nat} (h : o + k ≤ pkt.length) (buf buf' : Buf) :
    AgreeOn (load pkt buf) (load pkt buf') o k :=
  fun _ _ hi => load_lt (by omega) buf buf'

theorem AgreeOn.mono {b b' : Buf} {o k o' k' : Nat} (h : AgreeOn b b' o k) (ho : o ≤ o') (hk : o' + k' ≤ o + k) :
    AgreeOn b b' o' k' :=
  fun i hi hi' => h i (by omega) (by omega)

/-- The number in `k` bytes, least significant first. -/
def leNat (b : Buf) (o : Nat) : Nat → Nat
  | 0 => 0
  | k + 1 => leNat b o k + 256 ^ k * (b (o + k)).toNat

/-- The number in `k` bytes, most significant first. -/
def beNat (b : Buf) (o : Nat) : Nat → Nat
  | 0 => 0
  | k + 1 => 256 * beNat b o k + (b (o + k)).toNat

theorem leNat_congr {b b' : Buf} {o : Nat} : ∀ {k : Nat}, AgreeOn b b' o k → leNat b o k = leNat b' o k
  | 0, _ => rfl
  | k + 1, h => by
    rw [leNat, leNat, leNat_congr (h.mono (Nat.le_refl _) (by omega)), h (o + k) (by omega) (by omega)]

theorem beNat_congr {b b' : Buf} {o : Nat} : ∀ {k : Nat}, AgreeOn b b' o k → beNat b o k = beNat b' o k
  | 0, _ => rfl
  | k + 1, h => by
    rw [beNat, beNat, beNat_congr (h.mono (Nat.le_refl _) (by omega)), h (o + k) (by omega) (by omega)]

/-- The last byte is the low one. -/
theorem beNat_mod (b : Buf) (o k : Nat) : beNat b o (k + 1) % 256 = (b (o + k)).toNat := by
  have := (b (o + k)).toNat_lt
  rw [beNat]
  omega

/-- `n` converted to a signed type of `w` bits. -/
def signed (w n : Nat) : Int := Int.bmod n (2 ^ w)

theorem signed_inj {w a b : Nat} (h : signed w a = signed w b) : (a : Int) % (2 ^ w : Nat) = (b : Int) % (2 ^ w : Nat) := by
  have hmod : Int.bmod (a : Int) (2 ^ w) % (2 ^ w : Nat) = Int.bmod (b : Int) (2 ^ w) % (2 ^ w : Nat) :=
    congrArg (· % ((2 ^ w : Nat) : Int)) h
  rwa [Int.bmod_emod, Int.bmod_emod] at hmod

/-- Below half of the range it keeps the number. -/
theorem signed_of_lt {w n : Nat} (h : 2 * n < 2 ^ w) : signed w n = n := by
  rw [signed]
  exact Int.bmod_eq_of_le_mul_two (by omega) (by omega)

/-! ## Written numbers -/

/-- The low `k` bytes of a number, least significant first. -/
def leBytes : Nat → Nat → List UInt8
  | 0, _ => []
  | k + 1, n => UInt8.ofNat n :: leBytes k (n / 256)

/-- The same most significant first. -/
def beBytes (k n : Nat) : List UInt8 := (leBytes k n).reverse

@[simp] theorem length_leBytes : ∀ k n : Nat, (leBytes k n).length = k
  | 0, _ => rfl
  | k + 1, n => by rw [leBytes, List.length_cons, length_leBytes k (n / 256)]

@[simp] theorem length_beBytes (k n : Nat) : (beBytes k n).length = k := by
  rw [beBytes, List.length_reverse, length_leBytes]

theorem getElem?_leBytes : ∀ {k n i : Nat}, i < k → (leBytes k n)[i]? = some (UInt8.ofNat (n / 256 ^ i))
  | k + 1, n, 0, _ => by simp [leBytes]
  | k + 1, n, i + 1, h => by
    have ih : (leBytes k (n / 256))[i]? = some (UInt8.ofNat (n / 256 / 256 ^ i)) := getElem?_leBytes (by omega)
    rw [leBytes, List.getElem?_cons_succ, ih, Nat.div_div_eq_div_mul, Nat.pow_succ, Nat.mul_comm (256 ^ i)]

/-- The buffer holds the bytes from offset `o` on. -/
def Holds (b : Buf) (o : Nat) (bs : List UInt8) : Prop := ∀ i (x : UInt8), bs[i]? = some x → b (o + i) = x

/-- One part is held behind the other. -/
theorem holds_append {b : Buf} {o : Nat} {bs cs : List UInt8} :
    Holds b o (bs ++ cs) ↔ Holds b o bs ∧ Holds b (o + bs.length) cs := by
  constructor
  · intro h
    refine ⟨fun i x hi => h i x ?_, fun i x hi => ?_⟩
    · rw [List.getElem?_append_left (List.getElem?_eq_some_iff.mp hi).1, hi]
    · rw [Nat.add_assoc]
      apply h
      rw [List.getElem?_append_right (Nat.le_add_right _ _), Nat.add_sub_cancel_left, hi]
  · rintro ⟨hbs, hcs⟩ i x hi
    by_cases hlt : i < bs.length
    · rw [List.getElem?_append_left hlt] at hi
      exact hbs i x hi
    · rw [List.getElem?_append_right (by omega)] at hi
      have := hcs (i - bs.length) x hi
      rwa [show o + bs.length + (i - bs.length) = o + i by omega] at this

/-- A received packet is held from the start. -/
theorem holds_load (pkt : List UInt8) (buf : Buf) : Holds (load pkt buf) 0 pkt := by
  intro i x hi
  rw [Nat.zero_add, load, hi, Option.getD_some]

theorem toNat_ofNat_byte (n : Nat) : (UInt8.ofNat n).toNat = n % 256 := UInt8.toNat_ofNat

/-- The bytes of a number, least significant first. -/
theorem leNat_of_bytes {b : Buf} {o n : Nat} : ∀ {k : Nat},
    (∀ i < k, b (o + i) = UInt8.ofNat (n / 256 ^ i)) → leNat b o k = n % 256 ^ k
  | 0, _ => by simp [leNat, Nat.mod_one]
  | k + 1, h => by
    have ih : leNat b o k = n % 256 ^ k := leNat_of_bytes fun i hi => h i (by omega)
    rw [leNat, ih, h k (by omega), toNat_ofNat_byte, Nat.mod_pow_succ]

theorem beNat_of_bytes {b : Buf} {o : Nat} : ∀ {k n : Nat},
    (∀ i < k, b (o + i) = UInt8.ofNat (n / 256 ^ (k - 1 - i))) → beNat b o k = n % 256 ^ k
  | 0, _, _ => by simp [beNat, Nat.mod_one]
  | k + 1, n, h => by
    have ih : beNat b o k = n / 256 % 256 ^ k := by
      apply beNat_of_bytes
      intro i hi
      rw [h i (by omega), Nat.div_div_eq_div_mul, ← Nat.pow_succ', show k + 1 - 1 - i = k - 1 - i + 1 by omega]
    have hlast : b (o + k) = UInt8.ofNat n := by
      rw [h k (by omega), Nat.add_sub_cancel, Nat.sub_self, Nat.pow_zero, Nat.div_one]
    rw [beNat, ih, hlast, toNat_ofNat_byte, Nat.pow_succ', Nat.mod_mul, Nat.add_comm]

/-- **A number written least significant first is read back.** -/
theorem leNat_of_holds {b : Buf} {o k n : Nat} (h : Holds b o (leBytes k n)) : leNat b o k = n % 256 ^ k :=
  leNat_of_bytes fun i hi => h i _ (getElem?_leBytes hi)

/-- **So is one written most significant first.** -/
theorem beNat_of_holds {b : Buf} {o k n : Nat} (h : Holds b o (beBytes k n)) : beNat b o k = n % 256 ^ k := by
  apply beNat_of_bytes
  intro i hi
  apply h i
  rw [beBytes, List.getElem?_reverse (by rw [length_leBytes]; exact hi), length_leBytes, getElem?_leBytes (by omega)]

end Bytes

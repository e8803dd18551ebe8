import Mathlib.Algebra.Order.Floor.Ring
import Mathlib.Data.Rat.Floor
import Mathlib.Data.Nat.Sqrt
import Mathlib.Order.Defs.Unbundled
import Mathlib.Tactic.Linarith

/- The arithmetic of a C `double`, as far as a program computes with it: the four
   operations, conversion from an integer, `<`, `ceil` and `sqrt`. No law is part
   of the interface, so that what is proved over it holds whatever the rounding is;
   `DblOrder` adds that `<` is a strict total order, which holds of finite doubles
   as of exact numbers, and `DblMean` that a mean of two lies between them.
   `Dbl.exact` reads the operations exactly in an ordered field, up to the square
   root, which is a parameter there. -/

/-- The operations on doubles. -/
class Dbl (F : Type) extends Add F, Sub F, Mul F, Div F, LT F, IntCast F where
  ceil : F → F
  sqrt : F → F
  decLt : ∀ a b : F, Decidable (a < b)

namespace Dbl

variable {F : Type}

instance [Dbl F] (a b : F) : Decidable (a < b) := decLt a b

/-- The double an integer literal denotes. -/
def num [Dbl F] (n : Int) : F := IntCast.intCast n

/-- The operations read exactly. -/
@[reducible] def exact (F : Type) [Field F] [LinearOrder F] [FloorRing F] (sqrt : F → F) : Dbl F where
  ceil x := (⌈x⌉ : Int)
  sqrt := sqrt
  decLt _ _ := inferInstance

/-- The square root of a rational, rounded down to a multiple of 2⁻⁵². -/
def ratSqrt (q : ℚ) : ℚ := (Nat.sqrt ⌊q * 4 ^ 52⌋.toNat : ℚ) / 2 ^ 52

instance : Dbl ℚ := exact ℚ ratSqrt

end Dbl

/-- `<` is a strict total order, as it is on doubles other than NaN. -/
class DblOrder (F : Type) [Dbl F] : Prop where
  irrefl : ∀ a : F, ¬a < a
  trans : ∀ a b c : F, a < b → b < c → a < c
  total : ∀ a b : F, a < b ∨ a = b ∨ b < a

namespace DblOrder

variable {F : Type}

theorem exact (F : Type) [Field F] [LinearOrder F] [FloorRing F] (sqrt : F → F) :
    @DblOrder F (Dbl.exact F sqrt) :=
  letI := Dbl.exact F sqrt
  { irrefl := fun a => lt_irrefl a
    trans := fun _ _ _ => lt_trans
    total := fun a b => lt_trichotomy a b }

instance : DblOrder ℚ := DblOrder.exact ℚ Dbl.ratSqrt

variable [Dbl F] [DblOrder F]

theorem asymm {a b : F} (h : a < b) : ¬b < a := fun h' => irrefl a (trans a b a h h')

theorem le_trans {a b c : F} (hab : ¬b < a) (hbc : ¬c < b) : ¬c < a := by
  intro hca
  rcases total b c with h | rfl | h
  · exact hab (trans b c a h hca)
  · exact hab hca
  · exact hbc h

instance : Std.Total fun a b : F => ¬b < a where
  total a b := by
    by_cases h : b < a
    · exact Or.inr (asymm h)
    · exact Or.inl h

instance : IsTrans F fun a b => ¬b < a := ⟨fun _ _ _ => le_trans⟩

instance : Std.Antisymm fun a b : F => ¬b < a where
  antisymm a b hab hba := by
    rcases total a b with h | h | h
    · exact absurd h hba
    · exact h
    · exact absurd h hab

end DblOrder

/-- Half the sum of two numbers lies between them, as it does on doubles whose sum does
not overflow. -/
class DblMean (F : Type) [Dbl F] : Prop where
  notBelow : ∀ a b : F, ¬b < a → ¬(a + b) / Dbl.num 2 < a
  notAbove : ∀ a b : F, ¬b < a → ¬b < (a + b) / Dbl.num 2

theorem DblMean.exact (F : Type) [Field F] [LinearOrder F] [IsStrictOrderedRing F] [FloorRing F] (sqrt : F → F) :
    @DblMean F (Dbl.exact F sqrt) :=
  letI := Dbl.exact F sqrt
  { notBelow := by
      intro a b h
      have h2 : (Dbl.num 2 : F) = 2 := Int.cast_ofNat 2
      rw [h2, not_lt, le_div_iff₀ two_pos]
      have := not_lt.mp h
      linarith
    notAbove := by
      intro a b h
      have h2 : (Dbl.num 2 : F) = 2 := Int.cast_ofNat 2
      rw [h2, not_lt, div_le_iff₀ two_pos]
      have := not_lt.mp h
      linarith }

instance : DblMean ℚ := DblMean.exact ℚ Dbl.ratSqrt

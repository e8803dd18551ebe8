import Pfr.Lib.OrdMap

/- A map of numbered items that slides: item n is put in as number n, and the item d
   numbers behind is taken out. After n items were put and m taken turns, what is left is
   the items from m - d on.

   1. `Holds d xs m w`: the map after the items `xs` and `m` turns of taking;
   2. `Holds.put`, `Holds.take`, `Holds.early`: what each keeps;
   3. `Holds.maxKey`: the last item is the greatest key. -/

namespace Slide

open Std

variable {α : Type} {d m : Nat} {xs : List α} {w : ExtTreeMap Int α}

/-- The items put so far, less those taken. -/
def Holds (d : Nat) (xs : List α) (m : Nat) (w : ExtTreeMap Int α) : Prop :=
  ∀ j : Int, w[j]? = if 0 ≤ j ∧ (m : Int) ≤ j + d then xs[j.toNat]? else none

theorem Holds.empty : Holds d ([] : List α) 0 ∅ := by
  intro j
  simp

theorem Holds.at (h : Holds d xs m w) {n : Nat} (hn : m ≤ n + d) : w[(n : Int)]? = xs[n]? := by
  rw [h n, if_pos (by omega), Int.toNat_natCast]

theorem Holds.put (h : Holds d xs m w) (hm : m ≤ xs.length + d) (x : α) :
    Holds d (xs ++ [x]) m (w.insert xs.length x) := by
  intro j
  rw [ExtTreeMap.getElem?_insert, h j]
  simp only [LawfulEqCmp.compare_eq_iff_eq]
  by_cases hj : (xs.length : Int) = j
  · subst hj
    rw [if_pos rfl, if_pos (by omega), Int.toNat_natCast, List.getElem?_concat_length]
  · rw [if_neg hj]
    split
    · next hrange =>
      rw [List.getElem?_append]
      split
      · rfl
      · next hlen => rw [List.getElem?_eq_none (by omega), List.getElem?_eq_none (by simp; omega)]
    · rfl

/-- Nothing lies far enough behind. -/
theorem Holds.early (h : Holds d xs m w) (hm : m < d) : Holds d xs (m + 1) w := by
  intro j
  rw [h j]
  by_cases hj : 0 ≤ j
  · rw [if_pos (by omega), if_pos (by omega)]
  · rw [if_neg (by omega), if_neg (by omega)]

/-- The item taken is that of its number. -/
theorem Holds.take (h : Holds d xs m w) (hm : d ≤ m) :
    w[(m : Int) - d]? = xs[m - d]? ∧ Holds d xs (m + 1) (w.erase ((m : Int) - d)) := by
  have hnum : ((m - d : Nat) : Int) = (m : Int) - d := by omega
  constructor
  · rw [← hnum]
    exact h.at (by omega)
  · intro j
    rw [ExtTreeMap.getElem?_erase, h j]
    simp only [LawfulEqCmp.compare_eq_iff_eq]
    by_cases hj : (m : Int) - d = j
    · rw [if_pos hj, if_neg (by omega)]
    · rw [if_neg hj]
      by_cases hrange : 0 ≤ j ∧ (m : Int) ≤ j + d
      · rw [if_pos hrange, if_pos (by omega)]
      · rw [if_neg hrange, if_neg (by omega)]

theorem Holds.mem_iff (h : Holds d xs m w) {j : Int} : j ∈ w ↔ ∃ n : Nat, j = n ∧ m ≤ n + d ∧ n < xs.length := by
  rw [ExtTreeMap.mem_iff_isSome_getElem?, h j]
  constructor
  · intro hsome
    split at hsome
    · next hrange =>
      have hlt : j.toNat < xs.length := by simpa using hsome
      exact ⟨j.toNat, by omega, by omega, hlt⟩
    · cases hsome
  · rintro ⟨n, rfl, hm, hn⟩
    rw [if_pos (by omega), Int.toNat_natCast, List.getElem?_eq_getElem hn]
    rfl

/-- **The last item is the greatest key.** -/
theorem Holds.maxKey (h : Holds d xs m w) {n : Nat} (hlen : xs.length = n + 1) (hm : m ≤ n + d) :
    w.maxKey? = some (n : Int) := by
  rw [ExtTreeMap.maxKey?_eq_some_iff_mem_and_forall]
  constructor
  · exact h.mem_iff.mpr ⟨n, rfl, hm, by omega⟩
  · intro j hj
    obtain ⟨i, rfl, -, hi⟩ := h.mem_iff.mp hj
    rw [Int.isLE_compare]
    omega

end Slide

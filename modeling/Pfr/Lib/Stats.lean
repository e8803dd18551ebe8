import Mathlib.Algebra.Order.BigOperators.Group.List
import Mathlib.Algebra.Order.Field.Basic
import Mathlib.Algebra.Order.Floor.Ring
import Mathlib.Data.List.Sort
import Mathlib.Order.Bounds.Basic
import Mathlib.Tactic.Linarith

/- What a program computes of a list of measurements in one pass.

   1. `isLeast_foldl_min`, `isGreatest_foldl_max`: a running minimum that starts no
      lower than the values, and a running maximum that starts no higher;
   2. `le_mean`, `mean_le`: the mean lies between any bounds of the values;
   3. `isLeast_roundUp`, `roundUp_lt`: a value rounded up to a multiple of `1 / n`;
   4. `ceil_div_eq_iff`: when dividing before rounding up changes nothing;
   5. `IsMedian`: the median, over any total order and any mean of two; it splits the
      values in halves (`IsMedian.halves`). -/

namespace Stats

section Extremes
variable {α : Type} [LinearOrder α]

/-- The running minimum is the least of the start and the values. -/
theorem isLeast_foldl_min_cons : ∀ (xs : List α) (b : α), IsLeast {x | x ∈ b :: xs} (xs.foldl min b)
  | [], b => by simp [IsLeast, lowerBounds]
  | y :: xs, b => by
    obtain ⟨hmem, hle⟩ := isLeast_foldl_min_cons xs (min b y)
    rw [List.foldl_cons]
    constructor
    · rcases List.mem_cons.mp hmem with h | h
      · rcases min_choice b y with hb | hy
        · rw [h, hb]; simp
        · rw [h, hy]; simp
      · exact List.mem_cons_of_mem _ (List.mem_cons_of_mem _ h)
    · intro x hx
      have hstart : xs.foldl min (min b y) ≤ min b y := hle List.mem_cons_self
      rcases List.mem_cons.mp hx with rfl | hx
      · exact hstart.trans (min_le_left _ _)
      · rcases List.mem_cons.mp hx with rfl | hx
        · exact hstart.trans (min_le_right _ _)
        · exact hle (List.mem_cons_of_mem _ hx)

/-- **Started above the values it is the least of them.** -/
theorem isLeast_foldl_min {xs : List α} {b : α} (hne : xs ≠ []) (hb : ∀ x ∈ xs, x ≤ b) :
    IsLeast {x | x ∈ xs} (xs.foldl min b) := by
  obtain ⟨hmem, hle⟩ := isLeast_foldl_min_cons xs b
  refine ⟨?_, fun x hx => hle (List.mem_cons_of_mem _ hx)⟩
  rcases List.mem_cons.mp hmem with h | h
  · -- the start is the result, so it is a value
    obtain ⟨x, hx⟩ := List.exists_mem_of_ne_nil xs hne
    have hxb : x = b := le_antisymm (hb x hx) (h ▸ hle (List.mem_cons_of_mem _ hx))
    rw [h, ← hxb]
    exact hx
  · exact h

theorem isGreatest_foldl_max {xs : List α} {b : α} (hne : xs ≠ []) (hb : ∀ x ∈ xs, b ≤ x) :
    IsGreatest {x | x ∈ xs} (xs.foldl max b) :=
  @isLeast_foldl_min αᵒᵈ _ xs b hne hb

end Extremes

section Mean
variable {K : Type} [Field K] [LinearOrder K] [IsStrictOrderedRing K]

def mean (xs : List K) : K := xs.sum / xs.length

theorem length_pos {xs : List K} (hne : xs ≠ []) : (0 : K) < xs.length :=
  Nat.cast_pos.mpr (List.length_pos_iff.mpr hne)

theorem le_mean {xs : List K} {a : K} (hne : xs ≠ []) (h : ∀ x ∈ xs, a ≤ x) : a ≤ mean xs := by
  have hsum := List.card_nsmul_le_sum xs a h
  rw [nsmul_eq_mul] at hsum
  rw [mean, le_div_iff₀ (length_pos hne), mul_comm]
  exact hsum

theorem mean_le {xs : List K} {a : K} (hne : xs ≠ []) (h : ∀ x ∈ xs, x ≤ a) : mean xs ≤ a := by
  have hsum := List.sum_le_card_nsmul xs a h
  rw [nsmul_eq_mul] at hsum
  rw [mean, div_le_iff₀ (length_pos hne), mul_comm]
  exact hsum

end Mean

section Rounding
variable {K : Type} [Field K] [LinearOrder K] [IsStrictOrderedRing K] [FloorRing K]

/-- `x` rounded up to a multiple of `1 / n`. -/
def roundUp (n x : K) : K := ⌈x * n⌉ / n

/-- **It is the least multiple not below `x`.** -/
theorem isLeast_roundUp {n : K} (hn : 0 < n) (x : K) :
    IsLeast {y | (∃ i : ℤ, y = i / n) ∧ x ≤ y} (roundUp n x) := by
  refine ⟨⟨⟨_, rfl⟩, ?_⟩, ?_⟩
  · rw [roundUp, le_div_iff₀ hn]
    exact Int.le_ceil _
  · intro y hy
    obtain ⟨⟨i, rfl⟩, hxi⟩ := hy
    rw [le_div_iff₀ hn] at hxi
    rw [roundUp, div_le_div_iff_of_pos_right hn]
    exact Int.cast_le.mpr (Int.ceil_le.mpr hxi)

theorem roundUp_lt {n : K} (hn : 0 < n) (x : K) : roundUp n x < x + 1 / n := by
  rw [roundUp, div_lt_iff₀ hn, add_mul, one_div_mul_cancel hn.ne']
  exact Int.ceil_lt_add_one _

/-- **Only a division by 1, or of at most 1, does not show.** -/
theorem ceil_div_eq_iff {x : K} (hx : 0 ≤ x) {n : ℕ} (hn : 1 ≤ n) : ⌈x / n⌉ = ⌈x⌉ ↔ n = 1 ∨ x ≤ 1 := by
  have hpos : (0 : K) < n := Nat.cast_pos.mpr hn
  constructor
  · intro heq
    by_contra hcon
    rw [not_or, not_le] at hcon
    obtain ⟨hn1, hx1⟩ := hcon
    have htwo : (2 : K) ≤ n := by
      have : 2 ≤ n := by omega
      exact_mod_cast this
    have hhalf : x / n ≤ x / 2 := div_le_div_of_nonneg_left hx two_pos htwo
    -- both roundings give `⌈x⌉`, and so does every number between
    have hup : (⌈x⌉ : K) < x / 2 + 1 := by
      rw [← heq]
      exact (Int.ceil_lt_add_one _).trans_le (by linarith)
    have hle := Int.le_ceil x
    have hceil : (2 : K) ≤ ⌈x⌉ := by
      have : 1 < ⌈x⌉ := Int.lt_ceil.mpr (by simpa using hx1)
      exact_mod_cast this
    linarith
  · intro h
    rcases h with rfl | h
    · rw [Nat.cast_one, div_one]
    · by_cases hzero : x = 0
      · rw [hzero, zero_div]
      · have hx0 : 0 < x := lt_of_le_of_ne hx (Ne.symm hzero)
        have hdiv : x / n ≤ x := div_le_self hx (by exact_mod_cast hn)
        have hone : ⌈x⌉ = 1 := Int.ceil_eq_iff.mpr ⟨by simpa using hx0, by simpa using h⟩
        rw [hone]
        exact Int.ceil_eq_iff.mpr ⟨by simpa using div_pos hx0 hpos, by simpa using hdiv.trans h⟩

end Rounding

section Median
variable {α : Type} (le : α → α → Prop) (mid : α → α → α)

/-- The middle of the values in ascending order; of an even number of them, `mid` of the
two in the middle. -/
def IsMedian (xs : List α) (m : α) : Prop :=
  ∃ l : List α, l.Perm xs ∧ l.Pairwise le ∧
    if xs.length % 2 = 1 then l[xs.length / 2]? = some m
    else ∃ a b, l[xs.length / 2 - 1]? = some a ∧ l[xs.length / 2]? = some b ∧ m = mid a b

/-- At least half of the values are not above `m`, and at least half not below. -/
def Halves [DecidableRel le] (xs : List α) (m : α) : Prop :=
  (xs.length + 1) / 2 ≤ xs.countP (fun x => le x m) ∧ (xs.length + 1) / 2 ≤ xs.countP (fun x => le m x)

variable {le mid}

section Counting
variable [DecidableRel le] [IsTrans α le] [Std.Total le] {l : List α} {i : Nat} {a m : α}

/-- In ascending order all values up to one that is not above `m` are not above it. -/
theorem countP_le_of_getElem (hl : l.Pairwise le) (ha : l[i]? = some a) (ham : le a m) :
    i + 1 ≤ l.countP (fun x => le x m) := by
  obtain ⟨hi, rfl⟩ := List.getElem?_eq_some_iff.mp ha
  have hall : ∀ x ∈ l.take (i + 1), (fun x => decide (le x m)) x = true := by
    intro x hx
    obtain ⟨j, hj, rfl⟩ := List.getElem_of_mem hx
    rw [List.length_take] at hj
    rw [List.getElem_take]
    refine decide_eq_true (IsTrans.trans _ l[i] _ ?_ ham)
    rcases Nat.lt_or_eq_of_le (show j ≤ i by omega) with hlt | rfl
    · exact List.pairwise_iff_getElem.mp hl j i (by omega) hi hlt
    · exact Std.Refl.refl _
  have hcount : (l.take (i + 1)).countP (fun x => decide (le x m)) = i + 1 := by
    rw [List.countP_eq_length.mpr hall, List.length_take]
    omega
  calc i + 1 = (l.take (i + 1)).countP (fun x => decide (le x m)) := hcount.symm
    _ ≤ l.countP (fun x => decide (le x m)) := (List.take_sublist _ _).countP_le

theorem countP_ge_of_getElem (hl : l.Pairwise le) (ha : l[i]? = some a) (ham : le m a) :
    l.length - i ≤ l.countP (fun x => le m x) := by
  obtain ⟨hi, rfl⟩ := List.getElem?_eq_some_iff.mp ha
  have hall : ∀ x ∈ l.drop i, (fun x => decide (le m x)) x = true := by
    intro x hx
    obtain ⟨j, hj, rfl⟩ := List.getElem_of_mem hx
    rw [List.length_drop] at hj
    rw [List.getElem_drop]
    refine decide_eq_true (IsTrans.trans _ l[i] _ ham ?_)
    rcases Nat.eq_zero_or_pos j with rfl | hpos
    · exact Std.Refl.refl _
    · exact List.pairwise_iff_getElem.mp hl i (i + j) hi (by omega) (by omega)
  have hcount : (l.drop i).countP (fun x => decide (le m x)) = l.length - i := by
    rw [List.countP_eq_length.mpr hall, List.length_drop]
  calc l.length - i = (l.drop i).countP (fun x => decide (le m x)) := hcount.symm
    _ ≤ l.countP (fun x => decide (le m x)) := (List.drop_sublist _ _).countP_le

/-- **A median splits the values in halves**, if `mid` of two lies between them. -/
theorem IsMedian.halves (hmid : ∀ a b, le a b → le a (mid a b) ∧ le (mid a b) b) {xs : List α}
    (h : IsMedian le mid xs m) (hne : xs ≠ []) : Halves le xs m := by
  obtain ⟨l, hperm, hl, hm⟩ := h
  have hlen : 0 < xs.length := List.length_pos_iff.mpr hne
  rw [Halves, ← hperm.countP_eq, ← hperm.countP_eq]
  rw [← hperm.length_eq] at hm hlen ⊢
  split at hm
  · next hodd =>
    have hbelow := countP_le_of_getElem hl hm (Std.Refl.refl m)
    have habove := countP_ge_of_getElem hl hm (Std.Refl.refl m)
    exact ⟨by omega, by omega⟩
  · next heven =>
    obtain ⟨a, b, ha, hb, rfl⟩ := hm
    obtain ⟨hi, rfl⟩ := List.getElem?_eq_some_iff.mp ha
    obtain ⟨hj, rfl⟩ := List.getElem?_eq_some_iff.mp hb
    have hab : le l[l.length / 2 - 1] l[l.length / 2] :=
      List.pairwise_iff_getElem.mp hl _ _ hi hj (by omega)
    have hbelow := countP_le_of_getElem hl ha (hmid _ _ hab).1
    have habove := countP_ge_of_getElem hl hb (hmid _ _ hab).2
    exact ⟨by omega, by omega⟩

end Counting

/-- The sorted values are the only ones in ascending order. -/
theorem isMedian_iff [DecidableRel le] [IsTrans α le] [Std.Total le] [Std.Antisymm le] {xs : List α} {m : α} :
    IsMedian le mid xs m ↔ if xs.length % 2 = 1 then (xs.insertionSort le)[xs.length / 2]? = some m
      else ∃ a b, (xs.insertionSort le)[xs.length / 2 - 1]? = some a ∧ (xs.insertionSort le)[xs.length / 2]? = some b ∧
        m = mid a b := by
  constructor
  · intro h
    obtain ⟨l, hperm, hl, hm⟩ := h
    have hsame : l = xs.insertionSort le :=
      (hperm.trans (List.perm_insertionSort le xs).symm).eq_of_pairwise' hl (List.pairwise_insertionSort le xs)
    rw [← hsame]
    exact hm
  · intro h
    exact ⟨_, List.perm_insertionSort le xs, List.pairwise_insertionSort le xs, h⟩

end Median

end Stats

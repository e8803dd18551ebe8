import Mathlib.Data.List.TakeWhile
import Pfr.Lib.CText

/- Addresses in their usual notation, and what the readings of `CText` make of them.

   1. `number_toText`, `stoi_toText`, `atoi_toText`: a decimal number is read back, as an
      `int` if it is one;
   2. `dotted_split`: the parts of an address;
   3. `inetAton_dotted`, `inetAton_ipText`: an address is read back. -/

namespace CText

/-! ## Decimal -/

theorem toText_natCast (n : Nat) : toText n = Nat.toDigits 10 n := by
  simp [toText, Int.repr_eq_if]

theorem toText_ne_nil (n : Nat) : toText n ≠ [] := by
  rw [toText_natCast]
  exact Nat.toDigits_ne_nil

theorem isDigit_of_mem_toText {n : Nat} {c : Char} (hc : c ∈ toText n) : c.isDigit := by
  rw [toText_natCast] at hc
  exact Nat.isDigit_of_mem_toDigits (by omega) (by omega) hc

theorem not_mem_toText (n : Nat) {c : Char} (hc : c.isDigit = false) : c ∉ toText n := by
  intro hmem
  rw [isDigit_of_mem_toText hmem] at hc
  cases hc

theorem isDigit_range {c : Char} (hc : c.isDigit) : 48 ≤ c.toNat ∧ c.toNat ≤ 57 := by
  simp only [Char.isDigit, Bool.and_eq_true, decide_eq_true_eq, ge_iff_le] at hc
  exact ⟨UInt32.le_iff_toNat_le.mp hc.1, UInt32.le_iff_toNat_le.mp hc.2⟩

theorem not_isSpace {c : Char} (hc : c.isDigit) : isSpace c = false := by
  have hrange := isDigit_range hc
  simp [isSpace]
  omega

theorem digit_digitChar : ∀ d : Fin 10, digit 10 d.val.digitChar = some d.val := by
  decide

theorem digits_append_singleton {base n d : Nat} {cs : Text} {c : Char} (hcs : digits base cs = some n)
    (hc : digit base c = some d) : digits base (cs ++ [c]) = some (n * base + d) := by
  rw [digits] at hcs ⊢
  simp [List.foldlM_append, hcs, hc]

/-- By the digits from the front: all but the last are those of `n / 10`. -/
theorem digits_toText (n : Nat) : digits 10 (toText n) = some n := by
  rw [toText_natCast]
  induction n using Nat.strongRecOn with
  | ind n ih =>
    have hlast := digit_digitChar ⟨n % 10, by omega⟩
    simp only at hlast
    rw [Nat.toDigits_eq_if (by omega)]
    split
    · next hsmall =>
      rw [Nat.mod_eq_of_lt hsmall] at hlast
      have hone : digits 10 ([] ++ [n.digitChar]) = some (0 * 10 + n) := digits_append_singleton rfl hlast
      rwa [List.nil_append, Nat.zero_mul, Nat.zero_add] at hone
    · rw [digits_append_singleton (ih (n / 10) (by omega)) hlast]
      congr 1
      omega

/-- Only 0 is written with a 0 in front. -/
theorem toText_head {n : Nat} (hn : n ≠ 0) : (toText n).head? ≠ some '0' := by
  rw [toText_natCast]
  induction n using Nat.strongRecOn with
  | ind n ih =>
    rw [Nat.toDigits_eq_if (by omega)]
    split
    · simpa using hn
    · have hfront := ih (n / 10) (by omega) (by omega)
      rwa [List.head?_append, Option.or_of_isSome (by simp)]

theorem number_of_head {c : Char} {cs : Text} (hc : c ≠ '0') : number (c :: cs) = digits 10 (c :: cs) := by
  rw [number]
  all_goals
    intros
    exact hc ‹_›

theorem number_toText (n : Nat) : number (toText n) = some n := by
  by_cases hn : n = 0
  · subst hn
    rfl
  · obtain ⟨c, cs, hcs⟩ := List.exists_cons_of_ne_nil (toText_ne_nil n)
    have hhead := toText_head hn
    have hval := digits_toText n
    rw [hcs] at hhead hval ⊢
    rw [number_of_head (fun hc => hhead (congrArg some hc)), hval]

theorem digit_of_isDigit {c : Char} (hc : c.isDigit) : (digit 10 c).isSome := by
  have hrange := isDigit_range hc
  have hchar : '0' ≤ c ∧ c ≤ '9' := ⟨UInt32.le_iff_toNat_le.mpr hrange.1, UInt32.le_iff_toNat_le.mpr hrange.2⟩
  have hval : c.toNat - 48 < 10 := by omega
  simp [digit, hchar, hval]

theorem isDigit_of_digit {c : Char} (hc : (digit 10 c).isSome) : c.isDigit := by
  by_cases hrange : '0' ≤ c ∧ c ≤ '9'
  · simp only [Char.isDigit, Bool.and_eq_true, decide_eq_true_eq, ge_iff_le]
    exact hrange
  · by_cases hlower : 'a' ≤ c ∧ c ≤ 'f'
    · have hfrom : 97 ≤ c.toNat := UInt32.le_iff_toNat_le.mp hlower.1
      simp [digit, hrange, hlower] at hc
      omega
    · by_cases hupper : 'A' ≤ c ∧ c ≤ 'F'
      · have hfrom : 65 ≤ c.toNat := UInt32.le_iff_toNat_le.mp hupper.1
        simp [digit, hrange, hlower, hupper] at hc
        omega
      · simp [digit, hrange, hlower, hupper] at hc

/-- What is read as a number is digits, from whatever value the reading starts. -/
theorem isDigit_of_foldlM {ds : Text} {start n : Nat}
    (h : ds.foldlM (fun n c => (digit 10 c).map (n * 10 + ·)) start = some n) : ∀ c ∈ ds, c.isDigit := by
  induction ds generalizing start with
  | nil => simp
  | cons d ds ih =>
    rw [List.foldlM_cons, Option.bind_eq_bind, Option.bind_eq_some_iff] at h
    obtain ⟨next, hnext, hrest⟩ := h
    obtain ⟨v, hv, -⟩ := Option.map_eq_some_iff.mp hnext
    intro c hc
    rcases List.mem_cons.mp hc with rfl | hc
    · exact isDigit_of_digit (by rw [hv]; rfl)
    · exact ih hrest c hc

theorem isDigit_of_digits {ds : Text} {n : Nat} (h : digits 10 ds = some n) : ∀ c ∈ ds, c.isDigit :=
  isDigit_of_foldlM h

section Digits
variable {ds : Text} (hds : ∀ c ∈ ds, c.isDigit)

include hds

theorem dropSpace_digits : ds.dropWhile isSpace = ds := by
  cases ds with
  | nil => rfl
  | cons c cs => simp [not_isSpace (hds c List.mem_cons_self)]

theorem takeDigits_digits : ds.takeWhile (fun c => (digit 10 c).isSome) = ds :=
  List.takeWhile_eq_self_iff.mpr fun c hc => digit_of_isDigit (hds c hc)

/-- No sign stands in front. -/
theorem digits_ne_cons {c : Char} (hc : c.isDigit = false) (cs : Text) : ds ≠ c :: cs := by
  intro heq
  rw [hds c (heq ▸ List.mem_cons_self)] at hc
  cases hc

end Digits

/-- Digits are read, leading zeros or not. -/
theorem stoi_digits {ds : Text} {n : Nat} (hne : ds ≠ []) (hval : digits 10 ds = some n) (h : n < 2147483648) :
    stoi ds = some (n : Int) := by
  have hds := isDigit_of_digits hval
  have hrange : -2 ^ 31 ≤ (n : Int) ∧ (n : Int) < 2 ^ 31 := by omega
  unfold stoi
  simp only [dropSpace_digits hds]
  split
  · exact absurd (hds '-' List.mem_cons_self) (by decide)
  · exact absurd (hds '+' List.mem_cons_self) (by decide)
  · rw [takeDigits_digits hds, if_neg (by simp [hne]), hval, Option.bind_eq_bind, Option.bind_some,
      if_neg Bool.false_ne_true, if_pos hrange]

theorem stoi_toText {n : Nat} (h : n < 2147483648) : stoi (toText n) = some (n : Int) :=
  stoi_digits (toText_ne_nil n) (digits_toText n) h

theorem atoi_toText {n : Nat} (h : n < 2147483648) : atoi (toText n) = some (n : Int) := by
  have hds : ∀ c ∈ toText n, c.isDigit := fun _ hc => isDigit_of_mem_toText hc
  unfold atoi
  simp only [dropSpace_digits hds]
  split
  · next heq => exact absurd heq (digits_ne_cons hds (by decide) _)
  · next heq => exact absurd heq (digits_ne_cons hds (by decide) _)
  · rw [takeDigits_digits hds, if_neg (by simp [toText_ne_nil]), stoi_toText h]

/-! ## Addresses -/

/-- `a.b.c.d` -/
def dotted (a b c d : Nat) : Text := toText a ++ '.' :: (toText b ++ '.' :: (toText c ++ '.' :: toText d))

section Dotted
variable {a b c d : Nat}

theorem dotted_char {x : Char} (hx : x ∈ dotted a b c d) : x = '.' ∨ x.isDigit := by
  simp only [dotted, List.mem_append, List.mem_cons] at hx
  rcases hx with hx | rfl | hx | rfl | hx | rfl | hx
  · exact Or.inr (isDigit_of_mem_toText hx)
  · exact Or.inl rfl
  · exact Or.inr (isDigit_of_mem_toText hx)
  · exact Or.inl rfl
  · exact Or.inr (isDigit_of_mem_toText hx)
  · exact Or.inl rfl
  · exact Or.inr (isDigit_of_mem_toText hx)

/-- Any other separator stands outside. -/
theorem not_mem_dotted {x : Char} (hdot : x ≠ '.') (hx : x.isDigit = false) : x ∉ dotted a b c d := by
  intro hmem
  rcases dotted_char hmem with h | h
  · exact hdot h
  · rw [h] at hx
    cases hx

theorem dotted_split : (dotted a b c d).splitOn '.' = [toText a, toText b, toText c, toText d] := by
  have hdot : ('.' : Char).isDigit = false := rfl
  rw [dotted, List.splitOn_append_cons_self_of_not_mem (not_mem_toText a hdot),
    List.splitOn_append_cons_self_of_not_mem (not_mem_toText b hdot),
    List.splitOn_append_cons_self_of_not_mem (not_mem_toText c hdot), List.splitOn_eq_singleton (not_mem_toText d hdot)]

/-- **An address is read back.** -/
theorem inetAton_dotted (ha : a < 256) (hb : b < 256) (hc : c < 256) (hd : d < 256) :
    inetAton (dotted a b c d) = some (UInt32.ofNat (((a * 256 + b) * 256 + c) * 256 + d)) := by
  have hspace : ∀ x ∈ dotted a b c d, (!isSpace x) = true := by
    intro x hx
    rcases dotted_char hx with rfl | hdigit
    · rfl
    · rw [not_isSpace hdigit, Bool.not_false]
  have htext : (dotted a b c d).takeWhile (fun x => !isSpace x) = dotted a b c d :=
    List.takeWhile_eq_self_iff.mpr hspace
  have hvals : [toText a, toText b, toText c, toText d].mapM number = some [a, b, c, d] := by
    simp [number_toText]
  rw [inetAton, htext, dotted_split, hvals]
  simp
  omega

end Dotted

/-- The notation of an address. -/
def ipText (x : UInt32) : Text :=
  dotted (x.toNat / 16777216) (x.toNat / 65536 % 256) (x.toNat / 256 % 256) (x.toNat % 256)

/-- The octets of an address put together. -/
theorem octets_value (n : Nat) :
    ((n / 16777216 * 256 + n / 65536 % 256) * 256 + n / 256 % 256) * 256 + n % 256 = n := by
  omega

theorem inetAton_ipText (x : UInt32) : inetAton (ipText x) = some x := by
  have hx : x.toNat < 4294967296 := x.toNat_lt
  rw [ipText, inetAton_dotted (by omega) (by omega) (by omega) (by omega), octets_value, UInt32.ofNat_toNat]

end CText

import Mathlib.Algebra.Group.Nat.Defs
import Mathlib.Algebra.Ring.Int.Defs

/- C texts as lists of characters, and the C library's readings of them: numbers as
   `strtoul` with base 0 and `std::stoi` read them, IPv4 addresses as `inet_aton`
   does. A reading that fails is `none`. All of it evaluates. -/

namespace CText

abbrev Text := List Char

/-- `isspace` in the C locale. -/
def isSpace (c : Char) : Bool := [9, 10, 11, 12, 13, 32].contains c.toNat

/-- The value of a digit in a base. -/
def digit (base : Nat) (c : Char) : Option Nat :=
  let v :=
    if '0' ≤ c ∧ c ≤ '9' then c.toNat - 48
    else if 'a' ≤ c ∧ c ≤ 'f' then c.toNat - 87
    else if 'A' ≤ c ∧ c ≤ 'F' then c.toNat - 55
    else base
  if v < base then some v else none

/-- A text made of digits only. -/
def digits (base : Nat) (cs : Text) : Option Nat :=
  cs.foldlM (fun n c => (digit base c).map (n * base + ·)) 0

/-- A number in C notation, with nothing behind it: hexadecimal, octal or decimal. -/
def number : Text → Option Nat
  | '0' :: 'x' :: c :: cs => digits 16 (c :: cs)
  | '0' :: 'X' :: c :: cs => digits 16 (c :: cs)
  | '0' :: cs => digits 8 cs
  | c :: cs => digits 10 (c :: cs)
  | [] => none

/-- `inet_aton`, in host order: up to four numbers, the last one filling the bytes that
are left. A space ends the text. -/
def inetAton (s : Text) : Option UInt32 := do
  let vals ← ((s.takeWhile fun c => !isSpace c).splitOn '.').mapM number
  let last ← vals.getLast?
  let front := vals.dropLast
  if front.length ≤ 3 ∧ front.all (· ≤ 255) ∧ last < 256 ^ (4 - front.length) then
    some (UInt32.ofNat (front.foldl (fun n v => n * 256 + v) 0 * 256 ^ (4 - front.length) + last))
  else none

/-- `std::stoi`, which throws where this is `none`. -/
def stoi (s : Text) : Option Int := do
  let s := s.dropWhile isSpace
  let (neg, s) := match s with
    | '-' :: s => (true, s)
    | '+' :: s => (false, s)
    | s => (false, s)
  let ds := s.takeWhile fun c => (digit 10 c).isSome
  if ds.isEmpty then none
  else
    let n ← digits 10 ds
    let v : Int := if neg then -n else n
    if -2 ^ 31 ≤ v ∧ v < 2 ^ 31 then some v else none

/-- `atoi`: 0 without digits, and undefined where the number is not an `int`. -/
def atoi (s : Text) : Option Int :=
  let s := s.dropWhile isSpace
  let unsigned := match s with
    | '-' :: s => s
    | '+' :: s => s
    | s => s
  if (unsigned.takeWhile fun c => (digit 10 c).isSome).isEmpty then some 0 else stoi s

/-- `std::to_string` of an `int`. -/
def toText (n : Int) : Text := (toString n).toList

/-- What stands before the first `c` and what behind it; all of it and nothing without one. -/
def cut (c : Char) (s : Text) : Text × Text := (s.takeWhile (· ≠ c), (s.dropWhile (· ≠ c)).tail)

theorem cut_append {c : Char} {s : Text} (h : c ∉ s) (t : Text) : cut c (s ++ c :: t) = (s, t) := by
  have hne : ∀ x ∈ s, decide (x ≠ c) = true := fun x hx => decide_eq_true fun hxc => h (hxc ▸ hx)
  have htake : (c :: t).takeWhile (· ≠ c) = [] := by simp
  have hdrop : (c :: t).dropWhile (· ≠ c) = c :: t := by simp
  rw [cut, List.takeWhile_append_of_pos hne, List.dropWhile_append_of_pos hne, htake, hdrop, List.append_nil, List.tail_cons]

/-- The tokens `strtok` finds up to the terminator. -/
def strtok (delim : Char) (s : Text) : List Text :=
  ((s.takeWhile (·.toNat ≠ 0)).splitOn delim).filter (· ≠ [])

example : inetAton "010.0x10.258".toList = some 135266562 := by decide +kernel

end CText

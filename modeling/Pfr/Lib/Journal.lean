import Mathlib.Data.List.Basic

/- A journal of a key-value table: a log of entries, newest first, each setting a
   key to a value or withdrawing a key with the value it is thought to hold.

   1. `table j`: what each key holds after the journal;
   2. `Matched j`: every withdrawal named the value its key held at the time. -/

namespace Journal

variable {κ α : Type} [DecidableEq κ]

inductive Entry (κ α : Type) where
  | set : κ → α → Entry κ α
  | unset : κ → α → Entry κ α
  deriving DecidableEq, Repr

def Entry.key : Entry κ α → κ
  | .set k _ => k
  | .unset k _ => k

def Entry.value : Entry κ α → α
  | .set _ v => v
  | .unset _ v => v

/-- What an entry leaves at its own key. -/
def Entry.left : Entry κ α → Option α
  | .set _ v => some v
  | .unset _ _ => none

/-- What each key holds: the newest entry naming it decides. -/
def table : List (Entry κ α) → κ → Option α
  | [], _ => none
  | e :: j, k => if e.key = k then e.left else table j k

/-- Every withdrawal names the value in force when it was written. -/
def Matched : List (Entry κ α) → Prop
  | [] => True
  | .set _ _ :: j => Matched j
  | .unset k v :: j => table j k = some v ∧ Matched j

@[simp] theorem table_nil (k : κ) : table ([] : List (Entry κ α)) k = none := rfl

theorem table_set (j : List (Entry κ α)) (k a : κ) (v : α) :
    table (.set k v :: j) a = if k = a then some v else table j a := rfl

theorem table_unset (j : List (Entry κ α)) (k a : κ) (v : α) :
    table (.unset k v :: j) a = if k = a then none else table j a := rfl

instance decMatched [DecidableEq α] : (j : List (Entry κ α)) → Decidable (Matched j)
  | [] => .isTrue trivial
  | .set _ _ :: j => decMatched j
  | .unset k v :: j =>
    have := decMatched j
    inferInstanceAs (Decidable (table j k = some v ∧ Matched j))

end Journal

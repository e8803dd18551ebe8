import Mathlib.Data.List.Basic
import Pfr.Lib.CText

/- Which texts are an `INSERT` statement, and of which rows. A value is a call, a word or a
   quoted text; items are separated by commas, with blanks around them where one likes.

   1. `Listed P as t`: `t` lists the items `as`, at least one;
   2. `IsInsert st q`: `q` is the statement `st`, each row as wide as the columns;
   3. `listed_commas`: a list joined by `", "`. -/

namespace Sql

open CText

/-- The character around a literal. -/
def quoteMark : Char := Char.ofNat 39

/-- A word: nothing in it ends one. -/
def Plain (t : Text) : Prop := t ≠ [] ∧ ∀ c ∈ t, c ∉ [' ', ',', ';', '(', ')', quoteMark]

instance (t : Text) : Decidable (Plain t) :=
  @instDecidableAnd _ _ inferInstance (List.decidableBAll (fun c => c ∉ [' ', ',', ';', '(', ')', quoteMark]) t)

def Blank (t : Text) : Prop := ∀ c ∈ t, c = ' '

instance (t : Text) : Decidable (Blank t) := List.decidableBAll (fun c => c = ' ') t

inductive Value where
  | call : Text → Value
  | word : Text → Value
  | quoted : Text → Value
  deriving DecidableEq, Repr

/-- A quote ends a literal, so none stands inside. -/
def Value.Ok : Value → Prop
  | .call f => Plain f
  | .word t => Plain t
  | .quoted t => quoteMark ∉ t

def Value.text : Value → Text
  | .call f => f ++ ['(', ')']
  | .word t => t
  | .quoted t => quoteMark :: (t ++ [quoteMark])

/-- How a value is written. -/
def Value.Written (v : Value) (s : Text) : Prop := v.Ok ∧ s = v.text

section Lists
variable {α : Type} {P : α → Text → Prop}

/-- An item with the blanks around it. -/
def Padded (P : α → Text → Prop) (a : α) (t : Text) : Prop :=
  ∃ l s r, Blank l ∧ P a s ∧ Blank r ∧ t = l ++ (s ++ r)

/-- One or more items separated by commas. -/
inductive Listed (P : α → Text → Prop) : List α → Text → Prop where
  | one {a : α} {s : Text} : Padded P a s → Listed P [a] s
  | more {a : α} {as : List α} {s t : Text} : Padded P a s → Listed P as t → Listed P (a :: as) (s ++ ',' :: t)

theorem Blank.nil : Blank [] := by simp [Blank]

theorem Blank.cons {t : Text} (h : Blank t) : Blank (' ' :: t) := by
  intro c hc
  rcases List.mem_cons.mp hc with rfl | hc
  · rfl
  · exact h c hc

theorem Padded.exact {a : α} {s : Text} (h : P a s) : Padded P a s :=
  ⟨[], s, [], Blank.nil, h, Blank.nil, by simp⟩

theorem Padded.cons {a : α} {s : Text} (h : Padded P a s) : Padded P a (' ' :: s) := by
  obtain ⟨l, u, r, hl, hu, hr, rfl⟩ := h
  exact ⟨' ' :: l, u, r, hl.cons, hu, hr, rfl⟩

theorem Listed.cons {as : List α} {t : Text} (h : Listed P as t) : Listed P as (' ' :: t) := by
  cases h with
  | one hs => exact .one hs.cons
  | more hs ht => exact .more hs.cons ht

theorem Listed.append {as bs : List α} {s t : Text} (hs : Listed P as s) (ht : Listed P bs t) :
    Listed P (as ++ bs) (s ++ ',' :: t) := by
  induction hs with
  | one ha => exact .more ha ht
  | more ha _ ih =>
    rw [List.append_assoc, List.cons_append]
    exact .more ha ih

theorem Listed.ne_nil {as : List α} {t : Text} (h : Listed P as t) : as ≠ [] := by
  cases h with
  | one _ => exact List.cons_ne_nil _ _
  | more _ _ => exact List.cons_ne_nil _ _

theorem Listed.mem {as : List α} {t : Text} (h : Listed P as t) : ∀ a ∈ as, ∃ s, P a s := by
  induction h with
  | one ha =>
    obtain ⟨-, s, -, -, hs, -⟩ := ha
    intro b hb
    rw [List.mem_singleton.mp hb]
    exact ⟨s, hs⟩
  | more ha _ ih =>
    obtain ⟨-, s, -, -, hs, -⟩ := ha
    intro b hb
    rcases List.mem_cons.mp hb with rfl | hb
    · exact ⟨s, hs⟩
    · exact ih b hb

/-- Texts joined by `", "`. -/
def commas : List Text → Text
  | [] => []
  | [t] => t
  | t :: u :: ts => t ++ (", ".toList ++ commas (u :: ts))

theorem commas_one (t : Text) : commas [t] = t := rfl

theorem commas_cons (t u : Text) (ts : List Text) : commas (t :: u :: ts) = t ++ (", ".toList ++ commas (u :: ts)) := rfl

/-- By the items, one and then more. -/
theorem listed_commas {f : α → Text} : ∀ {as : List α}, as ≠ [] → (∀ a ∈ as, Padded P a (f a)) →
    Listed P as (commas (as.map f))
  | [], hne, _ => absurd rfl hne
  | [a], _, h => .one (h a List.mem_cons_self)
  | a :: b :: as, _, h => by
    have ih := listed_commas (List.cons_ne_nil b as) fun x hx => h x (List.mem_cons_of_mem a hx)
    exact .more (h a List.mem_cons_self) ih.cons

/-- Items that each bring the separator with them. -/
theorem flatMap_commas {f : α → Text} : ∀ {as : List α}, as ≠ [] →
    as.flatMap (fun a => f a ++ ", ".toList) = commas (as.map f) ++ ", ".toList
  | [], hne => absurd rfl hne
  | [a], _ => by simp [commas]
  | a :: b :: as, _ => by
    have ih := flatMap_commas (f := f) (List.cons_ne_nil b as)
    calc (a :: b :: as).flatMap (fun a => f a ++ ", ".toList)
        = (f a ++ ", ".toList) ++ (commas ((b :: as).map f) ++ ", ".toList) := by rw [List.flatMap_cons, ih]
      _ = commas ((a :: b :: as).map f) ++ ", ".toList := by
        simp only [List.append_assoc, List.map_cons, commas_cons]

end Lists

/-! ## The statement -/

structure Insert where
  table : Text
  columns : List Text
  rows : List (List Value)
  deriving DecidableEq, Repr

def Column (name s : Text) : Prop := Plain name ∧ s = name

def Row (values : List Value) (s : Text) : Prop := ∃ t, Listed Value.Written values t ∧ s = '(' :: (t ++ [')'])

/-- The values between their parentheses. -/
def tuple (values : List Value) : Text := '(' :: (commas (values.map Value.text) ++ [')'])

theorem row_tuple {values : List Value} (hne : values ≠ []) (h : ∀ v ∈ values, v.Ok) : Row values (tuple values) :=
  ⟨commas (values.map Value.text), listed_commas hne fun v hv => Padded.exact ⟨h v hv, rfl⟩, rfl⟩

/-- `q` is the statement `st`: it has a row, and each row has one value for each column. -/
structure IsInsert (st : Insert) (q : Text) : Prop where
  widths : ∀ values ∈ st.rows, values.length = st.columns.length
  text : ∃ names rows, Listed Column st.columns names ∧ Listed Row st.rows rows ∧
    q = "insert into ".toList ++ (st.table ++ (" (".toList ++ (names ++ (") values ".toList ++ (rows ++ [';'])))))

theorem listed_names {names : List Text} (hne : names ≠ []) (h : ∀ n ∈ names, Plain n) :
    Listed Column names (commas names) := by
  have hlist := listed_commas (P := Column) (f := id) hne fun n hn => Padded.exact ⟨h n hn, rfl⟩
  rwa [List.map_id] at hlist

/-- No literal of a statement holds a quote. -/
theorem IsInsert.quoted {st : Insert} {q : Text} (h : IsInsert st q) {values : List Value} (hrow : values ∈ st.rows) {t : Text}
    (ht : .quoted t ∈ values) : quoteMark ∉ t := by
  obtain ⟨names, rows, -, hrows, -⟩ := h.text
  obtain ⟨s, u, hlist, -⟩ := hrows.mem values hrow
  obtain ⟨w, hw⟩ := hlist.mem _ ht
  exact hw.1

end Sql

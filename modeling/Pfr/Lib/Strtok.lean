import Mathlib.Data.List.TakeWhile
import Pfr.Lib.CText

/- `strtok` call by call. Each call returns a token and writes NUL over the delimiter
   behind it, in the text itself; `CText.strtok` gives the tokens of all calls.

   1. `strtokNext_cases`: everything a call can do;
   2. `strtok_of_next`: the calls return the tokens of `CText.strtok`;
   3. `Extends`: what is before the saved pointer is not touched again;
   4. `bytes_next`, `bytes_ne`: the calls leave the text as it is exactly if no
      delimiter is behind its first token. -/

namespace CText

/-- A text in the course of the calls: what is before the saved pointer, and the rest. -/
structure Scan where
  done : Text
  rest : Text
  deriving DecidableEq

def Scan.bytes (z : Scan) : Text := z.done ++ z.rest

def nul : Char := Char.ofNat 0

/-- A character of a token. -/
abbrev InToken (delim c : Char) : Prop := c ≠ delim ∧ c.toNat ≠ 0

/-- One call. -/
def strtokNext (delim : Char) (z : Scan) : Option Text × Scan :=
  let lead := z.rest.takeWhile fun c => c = delim
  let body := z.rest.dropWhile fun c => c = delim
  let tok := body.takeWhile fun c => InToken delim c
  if tok = [] then (none, ⟨z.done ++ lead, body⟩)
  else
    match body.dropWhile fun c => InToken delim c with
    | [] => (some tok, ⟨z.done ++ lead ++ tok, []⟩)
    | c :: rest =>
      if c = delim then (some tok, ⟨z.done ++ lead ++ tok ++ [nul], rest⟩)
      else (some tok, ⟨z.done ++ lead ++ tok, c :: rest⟩)

/-- The text ends here. -/
def AtEnd (s : Text) : Prop := ∀ c ∈ s.head?, c.toNat = 0

/-- A delimiter stands behind the first token. -/
def Delimited (delim : Char) (s : Text) : Prop :=
  delim ∈ (s.dropWhile fun c => c = delim).takeWhile fun c => c.toNat ≠ 0

instance (delim : Char) (s : Text) : Decidable (Delimited delim s) := inferInstanceAs (Decidable (_ ∈ _))

variable {d : Char}

/-- A text up to the first character that is not `q`, and from there. -/
theorem span_spec (q : Char → Prop) [DecidablePred q] (s : Text) :
    (∀ c ∈ s.takeWhile (fun c => q c), q c) ∧ ∀ c ∈ (s.dropWhile fun c => q c).head?, ¬q c := by
  constructor
  · intro c hc
    simpa using List.mem_takeWhile_imp hc
  · intro c hc
    have := List.head?_dropWhile_not (fun c => decide (q c)) s
    rw [hc] at this
    simpa using this

/-- **Everything a call can do.** It finds no token; a token at the end of the text; or a
token with a delimiter behind it, which it overwrites. -/
theorem strtokNext_cases (z : Scan) :
    (∃ lead body, z.rest = lead ++ body ∧ (∀ c ∈ lead, c = d) ∧ AtEnd body ∧
      strtokNext d z = (none, ⟨z.done ++ lead, body⟩)) ∨
    (∃ lead tok body, z.rest = lead ++ (tok ++ body) ∧ (∀ c ∈ lead, c = d) ∧ tok ≠ [] ∧ (∀ c ∈ tok, InToken d c) ∧ AtEnd body ∧
      strtokNext d z = (some tok, ⟨z.done ++ lead ++ tok, body⟩)) ∨
    ∃ lead tok rest, z.rest = lead ++ (tok ++ d :: rest) ∧ (∀ c ∈ lead, c = d) ∧ tok ≠ [] ∧ (∀ c ∈ tok, InToken d c) ∧
      strtokNext d z = (some tok, ⟨z.done ++ lead ++ tok ++ [nul], rest⟩) := by
  have hsplit : (z.rest.takeWhile fun c => c = d) ++ (z.rest.dropWhile fun c => c = d) = z.rest := List.takeWhile_append_dropWhile
  obtain ⟨hlead, hbody⟩ := span_spec (fun c => c = d) z.rest
  simp only [strtokNext]
  generalize z.rest.takeWhile (fun c => c = d) = lead at *
  generalize z.rest.dropWhile (fun c => c = d) = body at *
  have htok : (body.takeWhile fun c => InToken d c) ++ (body.dropWhile fun c => InToken d c) = body :=
    List.takeWhile_append_dropWhile
  obtain ⟨hin, hstop⟩ := span_spec (fun c => InToken d c) body
  generalize body.takeWhile (fun c => InToken d c) = tok at *
  generalize body.dropWhile (fun c => InToken d c) = rest at *
  -- a character that stops a token is the delimiter or ends the text
  have hend : ∀ c ∈ rest.head?, c ≠ d → c.toNat = 0 := by
    intro c hc hcd
    by_contra hnul
    exact hstop c hc ⟨hcd, hnul⟩
  by_cases hnone : tok = []
  · rw [hnone, List.nil_append] at htok
    refine Or.inl ⟨lead, body, hsplit.symm, hlead, ?_, by simp only [if_pos hnone]⟩
    intro c hc
    exact hend c (htok ▸ hc) (hbody c hc)
  · simp only [if_neg hnone]
    cases rest with
    | nil =>
      refine Or.inr (Or.inl ⟨lead, tok, [], by rw [htok, hsplit], hlead, hnone, hin, ?_, rfl⟩)
      intro c hc
      cases hc
    | cons c rest =>
      by_cases hc : c = d
      · subst hc
        exact Or.inr (Or.inr ⟨lead, tok, rest, by rw [htok, hsplit], hlead, hnone, hin, if_pos rfl⟩)
      · refine Or.inr (Or.inl ⟨lead, tok, c :: rest, by rw [htok, hsplit], hlead, hnone, hin, ?_, if_neg hc⟩)
        intro x hx
        exact hend x hx (Option.some.inj hx ▸ hc)

/-! ## The tokens -/

section Tokens
variable {s tok : Text}

theorem takeWhile_nul (h : ∀ c ∈ tok, c.toNat ≠ 0) (s : Text) :
    (tok ++ s).takeWhile (fun c => c.toNat ≠ 0) = tok ++ s.takeWhile fun c => c.toNat ≠ 0 :=
  List.takeWhile_append_of_pos fun c hc => decide_eq_true (h c hc)

theorem AtEnd.takeWhile (h : AtEnd s) : s.takeWhile (fun c => c.toNat ≠ 0) = [] := by
  cases s with
  | nil => rfl
  | cons c s => simp [h c rfl]

theorem strtok_atEnd (h : AtEnd s) : strtok d s = [] := by
  rw [strtok, h.takeWhile]
  rfl

/-- Delimiters in front do not count. -/
theorem strtok_lead (hd : d.toNat ≠ 0) : ∀ {lead : Text}, (∀ c ∈ lead, c = d) → strtok d (lead ++ s) = strtok d s
  | [], _ => rfl
  | c :: lead, h => by
    have ih : strtok d (lead ++ s) = strtok d s := strtok_lead hd fun x hx => h x (List.mem_cons_of_mem c hx)
    obtain rfl := h c List.mem_cons_self
    have hsplit := List.splitOn_append_cons_self_of_not_mem (a := c) List.not_mem_nil
      ((lead ++ s).takeWhile fun x => x.toNat ≠ 0)
    rw [List.nil_append] at hsplit
    rw [← ih, strtok, strtok, List.cons_append, List.takeWhile_cons_of_pos (by simpa using hd), hsplit]
    rfl

theorem strtok_token (hne : tok ≠ []) (h : ∀ c ∈ tok, InToken d c) (hs : AtEnd s) : strtok d (tok ++ s) = [tok] := by
  have hd : d ∉ tok := fun hmem => (h d hmem).1 rfl
  rw [strtok, takeWhile_nul (fun c hc => (h c hc).2), hs.takeWhile, List.append_nil, List.splitOn_eq_singleton hd]
  simp [hne]

theorem strtok_token_cons (hd : d.toNat ≠ 0) (hne : tok ≠ []) (h : ∀ c ∈ tok, InToken d c) :
    strtok d (tok ++ d :: s) = tok :: strtok d s := by
  have hmem : d ∉ tok := fun hmem => (h d hmem).1 rfl
  rw [strtok, takeWhile_nul (fun c hc => (h c hc).2), List.takeWhile_cons_of_pos (by simpa using hd),
    List.splitOn_append_cons_self_of_not_mem hmem, List.filter_cons_of_pos (by simpa using hne), strtok]

end Tokens

/-- **The calls return the tokens.** -/
theorem strtok_of_next (hd : d.toNat ≠ 0) (z : Scan) :
    (strtokNext d z).1 = none ∧ strtok d z.rest = [] ∨
      ∃ tok, (strtokNext d z).1 = some tok ∧ strtok d z.rest = tok :: strtok d (strtokNext d z).2.rest ∧
        (strtokNext d z).2.rest.length < z.rest.length := by
  obtain ⟨lead, body, hrest, hlead, hend, hnext⟩ | ⟨lead, tok, body, hrest, hlead, hne, hin, hend, hnext⟩ |
    ⟨lead, tok, rest, hrest, hlead, hne, hin, hnext⟩ := strtokNext_cases (d := d) z
  · exact Or.inl ⟨by rw [hnext], by rw [hrest, strtok_lead hd hlead, strtok_atEnd hend]⟩
  · have hpos := List.length_pos_iff.mpr hne
    refine Or.inr ⟨tok, by rw [hnext], ?_, ?_⟩
    · rw [hrest, hnext, strtok_lead hd hlead, strtok_token hne hin hend, strtok_atEnd hend]
    · rw [hnext, hrest, List.length_append, List.length_append]
      show body.length < _
      omega
  · refine Or.inr ⟨tok, by rw [hnext], ?_, ?_⟩
    · rw [hrest, hnext, strtok_lead hd hlead, strtok_token_cons hd hne hin]
    · rw [hnext, hrest, List.length_append, List.length_append, List.length_cons]
      show rest.length < _
      omega

/-! ## The text -/

/-- `z'` is later than `z`: what was before the saved pointer is still there. -/
def Extends (z z' : Scan) : Prop := ∃ s, z'.done = z.done ++ s

theorem Extends.refl (z : Scan) : Extends z z := ⟨[], (List.append_nil _).symm⟩

theorem Extends.trans {z z' z'' : Scan} (h : Extends z z') (h' : Extends z' z'') : Extends z z'' := by
  obtain ⟨s, hs⟩ := h
  obtain ⟨t, ht⟩ := h'
  exact ⟨s ++ t, by rw [ht, hs, List.append_assoc]⟩

theorem extends_next (z : Scan) : Extends z (strtokNext d z).2 := by
  obtain ⟨lead, body, -, -, -, hnext⟩ | ⟨lead, tok, body, -, -, -, -, -, hnext⟩ | ⟨lead, tok, rest, -, -, -, -, hnext⟩ :=
    strtokNext_cases (d := d) z
  · exact ⟨lead, by rw [hnext]⟩
  · exact ⟨lead ++ tok, by rw [hnext, List.append_assoc]⟩
  · exact ⟨lead ++ tok ++ [nul], by rw [hnext]; simp⟩

/-- Delimiters in front do not count. -/
theorem delimited_lead {lead s : Text} (hlead : ∀ c ∈ lead, c = d) (hs : ∀ c ∈ s.head?, c ≠ d) :
    Delimited d (lead ++ s) ↔ d ∈ s.takeWhile fun c => c.toNat ≠ 0 := by
  have hall : ∀ c ∈ lead, decide (c = d) = true := fun c hc => decide_eq_true (hlead c hc)
  have hkeep : s.dropWhile (fun c => c = d) = s := by
    cases s with
    | nil => rfl
    | cons c s => exact List.dropWhile_cons_of_neg (by simpa using hs c rfl)
  rw [Delimited, List.dropWhile_append_of_pos hall, hkeep]

theorem AtEnd.head_ne {s : Text} (h : AtEnd s) (hd : d.toNat ≠ 0) : ∀ c ∈ s.head?, c ≠ d := by
  intro c hc hcd
  exact hd (hcd ▸ h c hc)

theorem AtEnd.not_delimited {s : Text} (h : AtEnd s) (hd : d.toNat ≠ 0) : ¬Delimited d s := by
  have hiff : Delimited d ([] ++ s) ↔ _ := delimited_lead (fun c hc => absurd hc List.not_mem_nil) (h.head_ne hd)
  rw [List.nil_append] at hiff
  rw [hiff, h.takeWhile]
  exact List.not_mem_nil

theorem head_ne_of_token {tok s : Text} (hne : tok ≠ []) (h : ∀ c ∈ tok, InToken d c) : ∀ c ∈ (tok ++ s).head?, c ≠ d := by
  obtain ⟨x, t, rfl⟩ := List.exists_cons_of_ne_nil hne
  intro c hc
  cases hc
  exact (h x List.mem_cons_self).1

/-- **Without a delimiter behind its token a call leaves the text as it is**, and so do
those after it. -/
theorem bytes_next (hd : d.toNat ≠ 0) {z : Scan} (h : ¬Delimited d z.rest) :
    (strtokNext d z).2.bytes = z.bytes ∧ ¬Delimited d (strtokNext d z).2.rest := by
  obtain ⟨lead, body, hrest, -, hend, hnext⟩ | ⟨lead, tok, body, hrest, -, -, -, hend, hnext⟩ |
    ⟨lead, tok, rest, hrest, hlead, hne, hin, -⟩ := strtokNext_cases (d := d) z
  · rw [hnext]
    exact ⟨by simp [Scan.bytes, hrest], hend.not_delimited hd⟩
  · rw [hnext]
    exact ⟨by simp [Scan.bytes, hrest], hend.not_delimited hd⟩
  · refine absurd ?_ h
    rw [hrest, delimited_lead hlead (head_ne_of_token hne hin), takeWhile_nul (fun c hc => (hin c hc).2)]
    simp [hd]

/-- **A delimiter behind the token is overwritten**, and stays so. -/
theorem bytes_ne (hd : d.toNat ≠ 0) {z z' : Scan} (h : Delimited d z.rest) (hext : Extends (strtokNext d z).2 z') :
    z'.bytes ≠ z.bytes := by
  obtain ⟨s, hs⟩ := hext
  obtain ⟨lead, body, hrest, hlead, hend, -⟩ | ⟨lead, tok, body, hrest, hlead, hne, hin, hend, -⟩ |
    ⟨lead, tok, rest, hrest, -, -, -, hnext⟩ := strtokNext_cases (d := d) z
  · rw [hrest, delimited_lead hlead (hend.head_ne hd), hend.takeWhile] at h
    cases h
  · rw [hrest, delimited_lead hlead (head_ne_of_token hne hin), takeWhile_nul (fun c hc => (hin c hc).2), hend.takeWhile,
      List.append_nil] at h
    exact absurd rfl (hin d h).1
  · intro heq
    rw [Scan.bytes, Scan.bytes, hs, hnext, hrest] at heq
    simp only [List.append_assoc, List.append_cancel_left_eq, List.cons_append, List.nil_append,
      List.cons.injEq] at heq
    exact hd (by rw [← heq.1]; rfl)

end CText

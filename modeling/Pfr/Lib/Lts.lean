import Mathlib.Logic.Basic

/- Labelled transition systems with guarded runs. A system is a partial step
   function `step : σ → ε → Option σ`; a guard `G : σ → ε → Prop` says what a run
   is assumed to do at each of its steps, in the state before the step. `Path step
   G s t` is a run from `s` to `t` all of whose steps meet the guard.

   1. `Path.invariant`: what holds at the start and is preserved by every guarded
      step holds at the end of every guarded run;
   2. `Path.mono`, `Path.trans`: weaker guards have more runs, and runs compose;
   3. `Path.of_runG`: an executed list of events whose guards were checked is a run;
   4. `Counted`: runs whose steps cost something, with what they cost;
   5. `exec_sim`: two systems stepping on two readings of the same events, one
      following the other. -/

namespace Lts

variable {σ ε : Type} (step : σ → ε → Option σ)

/-- A run from `s` all of whose steps meet `G`. -/
inductive Path (G : σ → ε → Prop) (s : σ) : σ → Prop where
  | refl : Path G s s
  | tail {t u : σ} {e : ε} : Path G s t → G t e → step t e = some u → Path G s u

variable {step}

/-- **The invariant rule.** -/
theorem Path.invariant {G : σ → ε → Prop} {I : σ → Prop} {s t : σ} (h0 : I s)
    (hstep : ∀ t e u, I t → G t e → step t e = some u → I u) (h : Path step G s t) : I t := by
  induction h with
  | refl => exact h0
  | tail _ hg hs ih => exact hstep _ _ _ ih hg hs

/-- The invariant rule on top of an invariant already established. -/
theorem Path.invariant_on {G : σ → ε → Prop} {J I : σ → Prop} {s t : σ} (hJ : ∀ t, Path step G s t → J t)
    (h0 : I s) (hstep : ∀ t e u, J t → I t → G t e → step t e = some u → I u) (h : Path step G s t) :
    I t := by
  induction h with
  | refl => exact h0
  | tail hp hg hs ih => exact hstep _ _ _ (hJ _ hp) ih hg hs

theorem Path.mono {G H : σ → ε → Prop} {s t : σ} (hGH : ∀ t e, G t e → H t e) (h : Path step G s t) :
    Path step H s t := by
  induction h with
  | refl => exact .refl
  | tail _ hg hs ih => exact .tail ih (hGH _ _ hg) hs

theorem Path.trans {G : σ → ε → Prop} {s t u : σ} (h : Path step G s t) (h' : Path step G t u) :
    Path step G s u := by
  induction h' with
  | refl => exact h
  | tail _ hg hs ih => exact .tail ih hg hs

/-- Execute the events in order, checking the guard of each. -/
def runG (step : σ → ε → Option σ) (G : σ → ε → Prop) [∀ s e, Decidable (G s e)] : σ → List ε → Option σ
  | s, [] => some s
  | s, e :: es => if G s e then (step s e).bind (fun t => runG step G t es) else none

theorem Path.of_runG {G : σ → ε → Prop} [∀ s e, Decidable (G s e)] : ∀ {es : List ε} {s t : σ},
    runG step G s es = some t → Path step G s t
  | [], s, t, h => by
    rw [runG] at h
    cases h
    exact .refl
  | e :: es, s, t, h => by
    rw [runG] at h
    split at h
    · next hg =>
      obtain ⟨u, hu, hrest⟩ := Option.bind_eq_some_iff.mp h
      exact (Path.tail .refl hg hu).trans (Path.of_runG hrest)
    · contradiction

/-- An executed list of events whose end passes a test ends a run that passes it. -/
theorem Path.exists_of_runG {G : σ → ε → Prop} [∀ s e, Decidable (G s e)] (s : σ) (es : List ε)
    (P : σ → Prop) [DecidablePred P] (h : (runG step G s es).any (fun t => decide (P t)) = true) :
    ∃ t, Path step G s t ∧ P t := by
  cases hr : runG step G s es with
  | none => rw [hr] at h; cases h
  | some t =>
    rw [hr] at h
    exact ⟨t, .of_runG hr, of_decide_eq_true h⟩

/-! ## Lists of events -/

/-- The state a list of events ends in. -/
def exec (step : σ → ε → Option σ) (s : σ) (es : List ε) : Option σ := es.foldlM step s

theorem exec_cons (step : σ → ε → Option σ) (s : σ) (e : ε) (es : List ε) :
    exec step s (e :: es) = (step s e).bind fun t => exec step t es := List.foldlM_cons

/-- **The simulation rule.** Both systems read the same events, each in its own way. -/
theorem exec_sim {τ ε' α : Type} {step : σ → ε → Option σ} {step' : τ → ε' → Option τ} {f : α → ε} {g : α → ε'}
    {P : α → Prop} {R : σ → τ → Prop}
    (hstep : ∀ s t a s', P a → R s t → step s (f a) = some s' → ∃ t', step' t (g a) = some t' ∧ R s' t') :
    ∀ {as : List α} {s s' : σ} {t : τ}, (∀ a ∈ as, P a) → R s t → exec step s (as.map f) = some s' →
      ∃ t', exec step' t (as.map g) = some t' ∧ R s' t' := by
  intro as
  induction as with
  | nil =>
    intro s s' t _ hR h
    cases h
    exact ⟨t, rfl, hR⟩
  | cons a as ih =>
    intro s s' t hP hR h
    rw [List.map_cons, exec_cons] at h
    obtain ⟨u, hu, hrest⟩ := Option.bind_eq_some_iff.mp h
    obtain ⟨v, hv, hR'⟩ := hstep s t a u (hP a List.mem_cons_self) hR hu
    obtain ⟨t', ht', hR''⟩ := ih (fun b hb => hP b (List.mem_cons_of_mem _ hb)) hR' hrest
    exact ⟨t', by rw [List.map_cons, exec_cons, hv]; exact ht', hR''⟩

/-! ## Costs -/

/-- A run from `s` all of whose steps meet `G`, and the sum of the costs of its steps. -/
inductive Counted (step : σ → ε → Option σ) (cost : σ → ε → σ → Nat) (G : σ → ε → Prop) (s : σ) : Nat → σ → Prop where
  | refl : Counted step cost G s 0 s
  | tail {n : Nat} {t u : σ} {e : ε} : Counted step cost G s n t → G t e → step t e = some u →
      Counted step cost G s (n + cost t e u) u

/-- The invariant rule of a run with its cost. -/
theorem Counted.invariant {cost : σ → ε → σ → Nat} {G : σ → ε → Prop} {I : Nat → σ → Prop} {s t : σ} {n : Nat} (h0 : I 0 s)
    (hstep : ∀ n t e u, I n t → G t e → step t e = some u → I (n + cost t e u) u) (h : Counted step cost G s n t) : I n t := by
  induction h with
  | refl => exact h0
  | tail _ hg hs ih => exact hstep _ _ _ _ ih hg hs

/-- Execute the events in order, checking the guard of each and adding up what they cost. -/
def runC (step : σ → ε → Option σ) (cost : σ → ε → σ → Nat) (G : σ → ε → Prop) [∀ s e, Decidable (G s e)] :
    Nat → σ → List ε → Option (Nat × σ)
  | n, s, [] => some (n, s)
  | n, s, e :: es => if G s e then (step s e).bind (fun t => runC step cost G (n + cost s e t) t es) else none

theorem Counted.of_runC {cost : σ → ε → σ → Nat} {G : σ → ε → Prop} [∀ s e, Decidable (G s e)] {s₀ : σ} :
    ∀ {es : List ε} {n n' : Nat} {s t : σ}, Counted step cost G s₀ n s → runC step cost G n s es = some (n', t) →
      Counted step cost G s₀ n' t
  | [], n, n', s, t, hc, h => by
    rw [runC] at h
    cases h
    exact hc
  | e :: es, n, n', s, t, hc, h => by
    rw [runC] at h
    split at h
    · next hg =>
      obtain ⟨u, hu, hrest⟩ := Option.bind_eq_some_iff.mp h
      exact (Counted.tail hc hg hu).of_runC hrest
    · contradiction

end Lts

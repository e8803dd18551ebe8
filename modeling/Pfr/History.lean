import Pfr.Records

/- What `pfr_route_free` leaves behind. Its comment wants only the last two probes
   left; it frees the one probe before them, and of that probe's records only the
   levels below the probe's key.

   1. `free_mem_probes`, `free_mem_hops`: the keys of `r[d]` and of `route[d]` after it;
   2. `route_bounded_iff`: `route` is cut to two probes if and only if the round's
      predecessor left no older decision;
   3. `two_probes_left_iff`: with both maps, only an `r` without destinations passes;
   4. `history_survives`: a run where a skipped round leaves probe 0, its records and
      its decision behind for good. -/
namespace Pfr

open Std

variable {F : Type}

/-- Only the last two probes are left. -/
def TwoProbesLeft (p : Nat) (m : Mem F) : Prop :=
  (∀ (d : String) (q : Int), q ∈ m.r.idx d → p - 1 ≤ q) ∧ ∀ (d : String) (q : Int), q ∈ m.route.idx d → p - 1 ≤ q

/-- The freed probe's key is there afterwards, whether or not it was before. -/
theorem free_mem_probes {p : Nat} (hp : 2 ≤ p) {m : Mem F} {d : String} (hd : d ∈ m.r) (q : Int) :
    q ∈ (pfrRouteFree p m).r.idx d ↔ (p : Int) - 2 = q ∨ q ∈ m.r.idx d := by
  obtain ⟨probes, hprobes⟩ := ExtTreeMap.exists_getElem? hd
  have hget : (pfrRouteFree p m).r[d]? = some (probes.insert (p - 2 : Int) ∅) := by
    rw [free_r m hp, hprobes]; rfl
  rw [ExtTreeMap.idx_of_getElem? hget, ExtTreeMap.idx_of_getElem? hprobes, ExtTreeMap.mem_insert,
    LawfulEqCmp.compare_eq_iff_eq]

theorem free_mem_hops {p : Nat} (hp : 2 ≤ p) {m : Mem F} {d : String} (hd : d ∈ m.r) (q : Int) :
    q ∈ (pfrRouteFree p m).route.idx d ↔ (p : Int) - 2 ≠ q ∧ q ∈ m.route.idx d := by
  have hidx : (pfrRouteFree p m).route.idx d = (m.route.idx d).erase (p - 2 : Int) :=
    ExtTreeMap.idx_of_getElem? (by rw [free_route m hp, if_pos hd])
  rw [hidx, ExtTreeMap.mem_erase]
  simp only [ne_eq, LawfulEqCmp.compare_eq_iff_eq]

/-- One index is erased, so what is older than it decides. -/
theorem route_bounded_iff {p : Nat} (hp : 2 ≤ p) {m : Mem F} {d : String} (hd : d ∈ m.r) :
    (∀ q : Int, q ∈ (pfrRouteFree p m).route.idx d → p - 1 ≤ q) ↔ ∀ q : Int, q ∈ m.route.idx d → p - 2 ≤ q := by
  constructor
  · intro h q hq
    by_cases he : (p : Int) - 2 = q
    · omega
    · have := h q ((free_mem_hops hp hd q).mpr ⟨he, hq⟩)
      omega
  · intro h q hq
    obtain ⟨hne, hq⟩ := (free_mem_hops hp hd q).mp hq
    have := h q hq
    omega

variable [Dbl F]

/-- The step of `main` that runs `pfr_route_free`. -/
theorem step_free {s t : State F} (hpc : s.pc = .phase .free) :
    step s .phase = some t ↔ t = { s with mem := pfrRouteFree s.probeId s.mem, pc := .phase .delete } := by
  have hstep : step s .phase = some { s with mem := pfrRouteFree s.probeId s.mem, pc := .phase .delete } := by
    simp only [step, hpc, mainStep, runPhase, Phase.next]
    rfl
  rw [hstep, Option.some_inj, eq_comm]

/-- **When `pfr_route_free` bounds the history.** In a processed round p ≥ 2 of any
run, the maps are left with two probes if and only if there is no destination at all. -/
theorem two_probes_left_iff {cfg : Config} {v : F} {mm : PeerMap} {s t : State F}
    (h : Lts.Path step AnyStep (State.init cfg v mm) s) (hpc : s.pc = .phase .free) (hp : 2 ≤ s.probeId)
    (ht : step s .phase = some t) : TwoProbesLeft t.probeId t.mem ↔ ∀ d, d ∉ s.mem.r := by
  have hrec := recInv_path h
  rw [(step_free hpc).mp ht]
  constructor
  · intro hleft d hd
    have hkey := (free_mem_probes hp hd ((s.probeId : Int) - 2)).mpr (Or.inl rfl)
    have := hleft.1 d _ hkey
    simp only at this
    omega
  · intro hno
    refine ⟨?_, ?_⟩
    · intro d q hq
      rw [ExtTreeMap.idx_of_not_mem (fun hd => hno d ((free_mem_r s.mem).mp hd))] at hq
      exact absurd hq ExtTreeMap.not_mem_empty
    · intro d q hq
      have hd : d ∉ (pfrRouteFree s.probeId s.mem).route :=
        fun hd => hno d ((free_mem_r s.mem).mp ((hrec.of_free s.probeId).routeSub d hd))
      rw [ExtTreeMap.idx_of_not_mem hd] at hq
      exact absurd hq ExtTreeMap.not_mem_empty

/-- Round 2 of a run without destinations, and the same round with one. -/
theorem two_probes_left_runs :
    (∃ s t : State ℚ, (Lts.Path step AnyStep (State.boot [(1, ⟨"192.0.2.1", "1:1"⟩)]) s ∧ s.pc = .phase .free ∧
      s.probeId = 2 ∧ step s .phase = some t) ∧ TwoProbesLeft t.probeId t.mem) ∧
    ∃ s t : State ℚ, (Lts.Path step AnyStep (State.boot [(1, ⟨"192.0.2.1", "1:1"⟩)]) s ∧ s.pc = .phase .free ∧
      s.probeId = 2 ∧ step s .phase = some t) ∧ ¬TwoProbesLeft t.probeId t.mem := by
  refine ⟨?_, ?_⟩
  · obtain ⟨s, hs, hpc, hp, hno⟩ := exists_run (G := AnyStep) (State.boot (F := ℚ) [(1, ⟨"192.0.2.1", "1:1"⟩)])
      (roundEvents [] [] ++ roundEvents [] [] ++ (roundEvents [] []).take 9)
      (fun s => s.pc = .phase .free ∧ s.probeId = 2 ∧ s.mem.r.isEmpty = true) (by decide +kernel)
    have ht := (step_free hpc).mpr rfl
    refine ⟨s, _, ⟨hs, hpc, hp, ht⟩, (two_probes_left_iff hs hpc (by omega) ht).mpr ?_⟩
    intro d hd
    rw [ExtTreeMap.isEmpty_iff.mp hno] at hd
    exact ExtTreeMap.not_mem_empty hd
  · obtain ⟨s, hs, hpc, hp, hd⟩ := exists_run (G := AnyStep) (State.boot (F := ℚ) [(1, ⟨"192.0.2.1", "1:1"⟩)])
      (roundEvents ["198.51.100.7"] [⟨"198.51.100.7", 0, 1, 1, 20, 0⟩] ++
        roundEvents ["198.51.100.7"] [⟨"198.51.100.7", 1, 1, 1, 20, 1⟩] ++
        (roundEvents ["198.51.100.7"] [⟨"198.51.100.7", 2, 1, 1, 20, 2⟩]).take 12)
      (fun s => s.pc = .phase .free ∧ s.probeId = 2 ∧ "198.51.100.7" ∈ s.mem.r) (by decide +kernel)
    have ht := (step_free hpc).mpr rfl
    refine ⟨s, _, ⟨hs, hpc, hp, ht⟩, ?_⟩
    rw [two_probes_left_iff hs hpc (by omega) ht]
    exact fun hno => hno _ hd

/-- Round 2 is skipped and round 3 frees probe 1: probe 0 keeps its samples and its
decision, and no later round frees it. -/
theorem history_survives : ¬∀ s t : State ℚ,
    Lts.Path step AnyStep (State.boot [(1, ⟨"192.0.2.1", "1:1"⟩)]) s → s.pc = .phase .free → 2 ≤ s.probeId →
      step s .phase = some t → TwoProbesLeft t.probeId t.mem := by
  intro hall
  obtain ⟨s, hs, hpc, hp, -, hroute⟩ := exists_run (G := AnyStep)
    (State.boot (F := ℚ) [(1, ⟨"192.0.2.1", "1:1"⟩)])
    (roundEvents ["198.51.100.7"] [⟨"198.51.100.7", 0, 1, 1, 20, 0⟩] ++
      roundEvents ["198.51.100.7"] [⟨"198.51.100.7", 1, 1, 1, 20, 1⟩] ++ skippedEvents ["198.51.100.7"] [] ++
      (roundEvents ["198.51.100.7"] [⟨"198.51.100.7", 3, 1, 1, 20, 3⟩]).take 12)
    (fun s => s.pc = .phase .free ∧ s.probeId = 3 ∧
      1 ∈ peersAt (pfrRouteFree s.probeId s.mem).r "198.51.100.7" 0 ∧
      0 ∈ (pfrRouteFree s.probeId s.mem).route.idx "198.51.100.7")
    (by decide +kernel)
  have := (hall s _ hs hpc (by omega) ((step_free hpc).mpr rfl)).2 "198.51.100.7" 0 hroute
  simp only at this
  omega

end Pfr

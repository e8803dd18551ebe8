import Pfr.SilentPath

/- What the hysteresis of the scan compares. With `rtt_least_move` on, case 2.1 moves a
   route when the round's best metric is below `get_cmin_rtt()` of the previous decision
   by `rtt_least_thresh` per cent. That minimum is a measurement of the round in which the
   route was last moved, or 0 after a silent round; the variable's comment speaks of a new
   peer that has an rtt "less than the current path" has. Doubles are read as rationals.

   1. `Improves`: the comparison, and `fmove_iff_improves`: the scan's is one with the
      carried-over minimum;
   2. `MovesTo`, `moved_iff`: when the scan moves a route to the best peer;
   3. `compares_present_iff`: it does what the round's own metrics call for if and only
      if it meets no NULL and both comparisons come out alike;
   4. `kept_on_worse_path`: a run in which they do not. -/
namespace Pfr

open Std

/-- `mc` exceeds `mb` by more than `rtt_least_thresh` per cent of it. -/
def Improves (cfg : Config) (mc mb : ℚ) : Prop := mb < mc - mb * cfg.rttLeastThresh / 100

instance (cfg : Config) (mc mb : ℚ) : Decidable (Improves cfg mc mb) := inferInstanceAs (Decidable (_ < _))

theorem fmove_iff_improves (cfg : Config) (mc mb : ℚ) : fmove cfg mc mb ↔ Improves cfg mc mb := by
  have hdiv : mb * cfg.rttLeastThresh / 100 = mb * ((cfg.rttLeastThresh : ℚ) / 100) := mul_div_assoc _ _ _
  rw [Improves, hdiv]
  rfl

section Moved
variable {s t : State ℚ} {d : String} {rp : RtParm ℚ} {b : Int} {mb : ℚ}

/-- The scan finds `b` and takes it: it is not peer 0, it is below the cut-off, and it
improves on the minimum carried over. -/
def MovesTo (cfg : Config) (thr : ℚ) (peers : Peers ℚ) (cmin : ℚ) (b : Int) (mb : ℚ) : Prop :=
  b ≠ 0 ∧ mb < thr ∧ ¬ShadowedByZero cfg.pathMetric thr peers ∧ Improves cfg cmin mb

/-- **The decision over a previous one**, with `rtt_least_move` on. -/
theorem moved_iff (hpc : s.pc = .phase .scan) (hstep : step s .phase = some t) (hp : s.probeId ≠ 0)
    (hpm : s.cfg.pathMetric.Read) (hmove : s.cfg.rttLeastMove = true) (hd : d ∈ s.mem.r)
    (hrp : hopAt s.mem.route d (s.probeId - 1) = some rp)
    (hbest : IsBest (metricAt s.cfg.pathMetric (peersAt s.mem.r d s.probeId)) b mb) :
    ∃ rp', hopAt t.mem.route d s.probeId = some rp' ∧
      ((MovesTo s.cfg (scanThr s.mem d) (peersAt s.mem.r d s.probeId) rp.cminRtt b mb ∧ rp'.currPeerId = b) ∨
        (¬MovesTo s.cfg (scanThr s.mem d) (peersAt s.mem.r d s.probeId) rp.cminRtt b mb ∧
          rp'.currPeerId = rp.currPeerId)) := by
  obtain ⟨v, hhop, hfound⟩ := scanPeer_cases hpm hp (scan_spec (runPhase_of_step hpc hstep)) hd
  rw [hrp] at hhop
  refine ⟨_, hhop, ?_⟩
  rw [chooseHop_curr]
  rcases hfound with ⟨hne, hbest', hlt, hsh⟩ | ⟨hzero, hwhy⟩
  · -- the best peer is unique, so it is the one found
    obtain ⟨hb, hv⟩ := hbest'.unique hbest
    rw [hb] at hne
    rw [hv] at hlt
    rw [hb, hv]
    by_cases himp : fmove s.cfg rp.cminRtt mb
    · refine Or.inl ⟨⟨hne, hlt, hsh, (fmove_iff_improves _ _ _).mp himp⟩, if_neg ?_⟩
      intro h
      rcases h with h | h
      · exact hne h
      · exact h.2 himp
    · exact Or.inr ⟨fun h => himp ((fmove_iff_improves _ _ _).mpr h.2.2.2), if_pos (Or.inr ⟨hmove, himp⟩)⟩
  · refine Or.inr ⟨?_, if_pos (Or.inl hzero)⟩
    intro h
    obtain ⟨hb0, hlt, hsh, -⟩ := h
    rcases hwhy with ⟨w, hw⟩ | hnone | hsh'
    · exact hb0 (hbest.unique hw).1
    · exact hnone b mb hbest.val hlt
    · exact hsh hsh'

/-- **When the route moves exactly if the best peer improves on what the current one did
in the round.** For every scan of a round p ≥ 1 under `metric0` or `metric1`, if and only
if it meets no NULL and the minimum carried over calls for the same. -/
theorem compares_present_iff (hpc : s.pc = .phase .scan) (hp : s.probeId ≠ 0) (hpm : s.cfg.pathMetric.Read)
    (hmove : s.cfg.rttLeastMove = true) (hd : d ∈ s.mem.r) (hrp : hopAt s.mem.route d (s.probeId - 1) = some rp)
    (hbest : IsBest (metricAt s.cfg.pathMetric (peersAt s.mem.r d s.probeId)) b mb) :
    (∃ t, step s .phase = some t ∧ ∃ rp', hopAt t.mem.route d s.probeId = some rp' ∧
        ∀ mc, metricAt s.cfg.pathMetric (peersAt s.mem.r d s.probeId) rp.currPeerId = some mc →
          rp'.currPeerId = if Improves s.cfg mc mb then b else rp.currPeerId) ↔
      NoNull s.cfg s.probeId s.mem ∧
        ∀ mc, metricAt s.cfg.pathMetric (peersAt s.mem.r d s.probeId) rp.currPeerId = some mc → b ≠ rp.currPeerId →
          (MovesTo s.cfg (scanThr s.mem d) (peersAt s.mem.r d s.probeId) rp.cminRtt b mb ↔ Improves s.cfg mc mb) := by
  refine scan_and_iff hpc hp hpm ?_
  intro t hstep
  obtain ⟨rp', hhop, hcase⟩ := moved_iff hpc hstep hp hpm hmove hd hrp hbest
  rw [hhop]
  simp only [Option.some_inj, exists_eq_left']
  refine forall_congr' fun mc => imp_congr_right fun _ => ?_
  rcases hcase with ⟨hto, hb⟩ | ⟨hto, hc⟩
  · rw [hb]
    by_cases himp : Improves s.cfg mc mb
    · simp [hto, himp]
    · simp [hto, himp]
  · rw [hc]
    by_cases himp : Improves s.cfg mc mb
    · simp [hto, himp, eq_comm]
    · simp [hto, himp]

end Moved

/-- A best peer is found by looking through the peers. -/
theorem IsBest.of_keys {pm : PathMetric} {peers : Peers ℚ} {b : Int} {v : ℚ} (h : metricAt pm peers b = some v)
    (hall : ∀ k ∈ peers.keys, (metricAt pm peers k).all fun w => v < w ∨ (v = w ∧ b ≤ k)) :
    IsBest (metricAt pm peers) b v := by
  have hother : ∀ k w, metricAt pm peers k = some w → v < w ∨ (v = w ∧ b ≤ k) := by
    intro k w hw
    have hk := hall k (ExtTreeMap.mem_keys.mpr (mem_of_metricAt hw))
    rw [hw, Option.all_some] at hk
    exact of_decide_eq_true hk
  refine ⟨h, ?_, ?_⟩
  · intro k w hw hlt
    rcases hother k w hw with h' | ⟨h', -⟩
    · exact lt_asymm h' hlt
    · exact absurd hlt (by rw [h']; exact lt_irrefl w)
  · intro k hw
    rcases hother k v hw with h' | ⟨-, h'⟩
    · exact absurd h' (lt_irrefl v)
    · exact h'

/-- Peer 1 answers with 20 in both rounds and peer 2 with 10 in round 1. -/
theorem compares_present_run : ∃ (s : State ℚ) (rp : RtParm ℚ),
    (Lts.Path step AnyStep (State.boot [(1, ⟨"192.0.2.1", "1:1"⟩), (2, ⟨"192.0.2.2", "1:2"⟩)]) s ∧
      hopAt s.mem.route "198.51.100.7" (s.probeId - 1) = some rp) ∧
    ∃ t, step s .phase = some t ∧ ∃ rp', hopAt t.mem.route "198.51.100.7" s.probeId = some rp' ∧
      ∀ mc, metricAt s.cfg.pathMetric (peersAt s.mem.r "198.51.100.7" s.probeId) rp.currPeerId = some mc →
        rp'.currPeerId = if Improves s.cfg mc 10 then 2 else rp.currPeerId := by
  obtain ⟨s, hs, hpc, hp, hpm, hmove, hd, ⟨hone, htwo, hall, hzero⟩, hprev, hthr, hstep⟩ := exists_run (G := AnyStep)
    (State.boot (F := ℚ) [(1, ⟨"192.0.2.1", "1:1"⟩), (2, ⟨"192.0.2.2", "1:2"⟩)])
    (roundEvents ["198.51.100.7"] [⟨"198.51.100.7", 0, 1, 1, 20, 0⟩] ++
      (roundEvents ["198.51.100.7"] [⟨"198.51.100.7", 1, 1, 1, 20, 1⟩, ⟨"198.51.100.7", 1, 2, 1, 10, 1⟩]).take 14)
    (fun s => s.pc = .phase .scan ∧ s.probeId = 1 ∧ s.cfg.pathMetric.Read ∧ s.cfg.rttLeastMove = true ∧
      "198.51.100.7" ∈ s.mem.r ∧
      (metricAt s.cfg.pathMetric (peersAt s.mem.r "198.51.100.7" s.probeId) 1 = some 20 ∧
        metricAt s.cfg.pathMetric (peersAt s.mem.r "198.51.100.7" s.probeId) 2 = some 10 ∧
        (∀ k ∈ (peersAt s.mem.r "198.51.100.7" s.probeId).keys,
          (metricAt s.cfg.pathMetric (peersAt s.mem.r "198.51.100.7" s.probeId) k).all
            fun w => 10 < w ∨ (10 = w ∧ 2 ≤ k)) ∧
        0 ∉ (peersAt s.mem.r "198.51.100.7" s.probeId).keys) ∧
      ((hopAt s.mem.route "198.51.100.7" (s.probeId - 1)).any fun rp =>
        rp.currPeerId = 1 ∧ rp.cminRtt = 20 ∧ Improves s.cfg 20 10) ∧
      (10 : ℚ) < scanThr s.mem "198.51.100.7" ∧ (step s .phase).isSome) (by decide +kernel)
  obtain ⟨rp, hrp, hcurr⟩ := Option.any_eq_true _ _ |>.mp hprev
  obtain ⟨hcurr, hcmin, himp⟩ := of_decide_eq_true hcurr
  refine ⟨s, rp, ⟨hs, hrp⟩, ?_⟩
  refine (compares_present_iff hpc (by omega) hpm hmove hd hrp (.of_keys htwo hall)).mpr ⟨?_, ?_⟩
  · exact (scan_enabled_iff hpc (by omega) hpm).mp (Option.isSome_iff_exists.mp hstep)
  · intro mc hmc _
    rw [hcurr, hone] at hmc
    rw [← Option.some.inj hmc, hcmin]
    have hno : (0 : Int) ∉ peersAt s.mem.r "198.51.100.7" s.probeId := fun h => hzero (ExtTreeMap.mem_keys.mpr h)
    exact ⟨fun h => h.2.2.2, fun h => ⟨by decide, hthr, fun hsh => hno hsh.1.2.1, h⟩⟩

/-- Peer 1 answers with 10 in round 0 and with 100 in round 1, peer 2 with 50 in round 1:
the route stays on peer 1. -/
theorem kept_on_worse_path : ¬∀ (s t : State ℚ) (d : String) (rp : RtParm ℚ) (b : Int) (mb mc : ℚ),
    Lts.Path step AnyStep (State.boot [(1, ⟨"192.0.2.1", "1:1"⟩), (2, ⟨"192.0.2.2", "1:2"⟩)]) s →
      s.pc = .phase .scan → step s .phase = some t → s.probeId ≠ 0 → s.cfg.pathMetric.Read →
      s.cfg.rttLeastMove = true → 0 ≤ s.cfg.rttLeastThresh → d ∈ s.mem.r →
      hopAt s.mem.route d (s.probeId - 1) = some rp →
      metricAt s.cfg.pathMetric (peersAt s.mem.r d s.probeId) rp.currPeerId = some mc →
      IsBest (metricAt s.cfg.pathMetric (peersAt s.mem.r d s.probeId)) b mb → mb < 50000 →
      ∃ rp', hopAt t.mem.route d s.probeId = some rp' ∧
        rp'.currPeerId = if Improves s.cfg mc mb then b else rp.currPeerId := by
  intro hall
  obtain ⟨s, hs, hpc, hp, ⟨hpm, hmove, hthresh⟩, hd, ⟨hone, htwo, hkeys⟩, hprev, hstep⟩ := exists_run (G := AnyStep)
    (State.boot (F := ℚ) [(1, ⟨"192.0.2.1", "1:1"⟩), (2, ⟨"192.0.2.2", "1:2"⟩)])
    (roundEvents ["198.51.100.7"] [⟨"198.51.100.7", 0, 1, 1, 10, 0⟩] ++
      (roundEvents ["198.51.100.7"] [⟨"198.51.100.7", 1, 1, 1, 100, 1⟩, ⟨"198.51.100.7", 1, 2, 1, 50, 1⟩]).take 14)
    (fun s => s.pc = .phase .scan ∧ s.probeId = 1 ∧
      (s.cfg.pathMetric.Read ∧ s.cfg.rttLeastMove = true ∧ s.cfg.rttLeastThresh = 10) ∧ "198.51.100.7" ∈ s.mem.r ∧
      (metricAt s.cfg.pathMetric (peersAt s.mem.r "198.51.100.7" s.probeId) 1 = some 100 ∧
        metricAt s.cfg.pathMetric (peersAt s.mem.r "198.51.100.7" s.probeId) 2 = some 50 ∧
        ∀ k ∈ (peersAt s.mem.r "198.51.100.7" s.probeId).keys,
          (metricAt s.cfg.pathMetric (peersAt s.mem.r "198.51.100.7" s.probeId) k).all
            fun w => 50 < w ∨ (50 = w ∧ 2 ≤ k)) ∧
      ((hopAt s.mem.route "198.51.100.7" (s.probeId - 1)).any fun rp => rp.currPeerId = 1 ∧ Improves s.cfg 100 50) ∧
      (step s .phase).any fun t => (hopAt t.mem.route "198.51.100.7" s.probeId).all fun rp' => rp'.currPeerId = 1)
    (by decide +kernel)
  obtain ⟨t, ht, hkept⟩ := Option.any_eq_true _ _ |>.mp hstep
  obtain ⟨rp, hrp, hcurr⟩ := Option.any_eq_true _ _ |>.mp hprev
  obtain ⟨hcurr, himp⟩ := of_decide_eq_true hcurr
  obtain ⟨rp', hrp', hmoved⟩ := hall s t _ rp 2 50 100 hs hpc ht (by omega) hpm hmove (by omega) hd hrp
    (by rw [hcurr]; exact hone) (.of_keys htwo hkeys) (by decide)
  rw [hrp', Option.all_some] at hkept
  rw [if_pos himp, of_decide_eq_true hkept] at hmoved
  cases hmoved

end Pfr

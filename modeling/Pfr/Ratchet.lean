import Pfr.Hysteresis
import Pfr.Records

/- Why a route does not flap. With `rtt_least_move` on, the minimum a route is compared with
is the one of the round it was last moved in, so every move divides it by more than
1 + `rtt_least_thresh`/100, and nothing ever raises it again: a round in which the
destination is silent sets it to 0.

   1. `moves`: the cost of a step, 1 where a scan moves the route of `d` to another peer;
   2. `Ratchet`: what a run with n moves leaves of the minimum;
   3. `Ratchet.scan`: one scan keeps it;
   4. `moves_bounded`: so over any run of unbroken decisions n moves need metrics that fall
      by the n-th power, and after a silent round the route never moves again. -/
namespace Pfr

open Std

/-- A scan gives `d` another peer than the decision before had. -/
def moves {F : Type} (d : String) (s : State F) : Event F → State F → Nat
  | .phase, t =>
    if s.pc = .phase .scan ∧ ((hopAt t.mem.route d s.probeId).any fun rp => rp.prevPeerId ≠ rp.currPeerId) = true then 1 else 0
  | _, _ => 0

/-- The configuration asks for an improvement by `th` per cent at least. -/
structure Hysteretic (th : Int) (cfg : Config) : Prop where
  move : cfg.rttLeastMove = true
  thresh : th ≤ cfg.rttLeastThresh
  read : cfg.pathMetric.Read

instance (th : Int) (cfg : Config) : Decidable (Hysteretic th cfg) :=
  decidable_of_iff (cfg.rttLeastMove = true ∧ th ≤ cfg.rttLeastThresh ∧ (cfg.pathMetric = .metric0 ∨ cfg.pathMetric = .metric1))
    ⟨fun h => ⟨h.1, h.2.1, h.2.2⟩, fun h => ⟨h.move, h.thresh, h.read⟩⟩

/-- Every scan finds the decision of the round before, and hears peers above 0 with metrics of
`lo` at least; a configuration read again stays hysteretic. -/
def Unbroken (th : Int) (lo : ℚ) (d : String) (s : State ℚ) : Event ℚ → Prop
  | .phase => s.pc = .phase .scan → (hopAt s.mem.route d (s.probeId - 1)).isSome = true ∧
      ∀ k ∈ (peersAt s.mem.r d s.probeId).keys, k ≠ 0 ∧
        ∀ v ∈ metricAt s.cfg.pathMetric (peersAt s.mem.r d s.probeId) k, lo ≤ v
  | .signals (.reread cfg _) => Hysteretic th cfg
  | _ => True

instance (th : Int) (lo : ℚ) (d : String) (s : State ℚ) : (e : Event ℚ) → Decidable (Unbroken th lo d s e)
  | .phase => by dsimp only [Unbroken]; infer_instance
  | .signals (.reread cfg _) => inferInstanceAs (Decidable (Hysteretic th cfg))
  | .signals .none | .signals .shutdown | .signals .rereadFail => .isTrue trivial
  | .arrive _ | .receive | .timeout | .ack | .start _ | .ask | .take | .release => .isTrue trivial

/-- The round of the last decision made. -/
def State.decided {F : Type} (s : State F) : Int := if s.pc.scanned then s.probeId else s.probeId - 1

theorem decided_scanned {F : Type} {s : State F} (h : s.pc.scanned = true) : s.decided = s.probeId := if_pos h

theorem decided_before {F : Type} {s : State F} (h : s.pc.scanned = false) : s.decided = s.probeId - 1 := by
  rw [State.decided, h]
  rfl

section Run
variable {th : Int} {lo c : ℚ} {d : String} {s t : State ℚ} {n : Nat}

/-- What n moves leave of the minimum `c` of the first decision. -/
structure Ratchet (th : Int) (lo c : ℚ) (d : String) (n : Nat) (s : State ℚ) : Prop where
  maps : RecInv s.mem
  bound : HopBound s
  cfg : Hysteretic th s.cfg
  later : s.pc.scanned = false → s.probeId ≠ 0
  moved : n ≠ 0 → (1 + (th : ℚ) / 100) ^ n * lo < c
  least : ∀ rp, hopAt s.mem.route d s.decided = some rp → 0 ≤ rp.cminRtt ∧ (1 + (th : ℚ) / 100) ^ n * rp.cminRtt ≤ c

/-- The decision of a scan over the one before. -/
theorem chosen_over (hr : Ratchet th lo c d n s) (hpc : s.pc = .phase .scan) (hunb : Unbroken th lo d s .phase) {m : Mem ℚ}
    (hs : ScanSpec s.cfg s.probeId s.mem m) : ∃ rp rp', hopAt s.mem.route d (s.probeId - 1) = some rp ∧
      hopAt m.route d s.probeId = some rp' ∧ rp'.prevPeerId = rp.currPeerId ∧
      ((rp'.currPeerId = rp.currPeerId ∧ (rp'.cminRtt = 0 ∨ rp'.cminRtt = rp.cminRtt)) ∨
        (lo ≤ rp'.cminRtt ∧ Improves s.cfg rp.cminRtt rp'.cminRtt)) := by
  have hp : s.probeId ≠ 0 := hr.later (by rw [hpc]; rfl)
  obtain ⟨hsome, hlow⟩ := hunb hpc
  obtain ⟨rp, hrp⟩ := Option.isSome_iff_exists.mp hsome
  have hd : d ∈ s.mem.r := hr.maps.routeSub d (mem_of_hopAt hrp)
  obtain ⟨v, hrp', hv⟩ := scan_decision hp hs hd
  rw [hrp] at hrp'
  refine ⟨rp, _, hrp, hrp', chooseHop_prev s.cfg rp _ v, ?_⟩
  unfold chooseHop
  simp only
  split
  · -- case 2.0: nobody was found, and the minimum is that of no answer
    next h0 =>
    refine Or.inl ⟨rfl, ?_⟩
    rcases hv with ⟨-, hv⟩ | ⟨tp, htp, -⟩
    · left
      show v = 0
      rw [hv]
      rfl
    · rw [h0] at htp
      exact absurd rfl (hlow 0 (ExtTreeMap.mem_keys.mpr (mem_of_aggAt htp))).1
  · next hne =>
    split
    · exact Or.inl ⟨rfl, Or.inr rfl⟩
    · next hmv =>
      refine Or.inr ?_
      have himp : Improves s.cfg rp.cminRtt v := by
        rw [← fmove_iff_improves]
        by_contra hno
        exact hmv ⟨hr.cfg.move, hno⟩
      refine ⟨?_, himp⟩
      rcases hv with ⟨h0, -⟩ | ⟨tp, htp, hv⟩
      · exact absurd h0 hne
      · obtain ⟨w, hw⟩ := Option.isSome_iff_exists.mp (selMetric_isSome hr.cfg.read tp)
        rw [hw, Option.getD_some] at hv
        show lo ≤ v
        rw [hv]
        refine (hlow _ (ExtTreeMap.mem_keys.mpr (mem_of_aggAt htp))).2 w ?_
        rw [metricAt, htp]
        exact hw

variable (hlo : 0 ≤ lo)

include hlo in
/-- A minimum improved on is one divided by more than 1 + th/100. -/
theorem lt_of_improves {cfg : Config} (hcfg : Hysteretic th cfg) {mc mb : ℚ} (hmb : lo ≤ mb) (h : Improves cfg mc mb) :
    (1 + (th : ℚ) / 100) * mb < mc := by
  have hle : (th : ℚ) ≤ cfg.rttLeastThresh := by exact_mod_cast hcfg.thresh
  have hmul : mb * th ≤ mb * cfg.rttLeastThresh := mul_le_mul_of_nonneg_left hle (hlo.trans hmb)
  unfold Improves at h
  calc (1 + (th : ℚ) / 100) * mb = mb + mb * th / 100 := by ring
    _ ≤ mb + mb * cfg.rttLeastThresh / 100 := by linarith
    _ < mc := by linarith

variable (hth : 0 ≤ th) (hc : 0 ≤ c)

include hth hlo hc in
/-- **One scan.** -/
theorem Ratchet.scan (hr : Ratchet th lo c d n s) (hpc : s.pc = .phase .scan) (hunb : Unbroken th lo d s .phase) {m : Mem ℚ}
    (hrun : pfrRouteScan s.cfg s.probeId s.mem = some m) :
    Ratchet th lo c d (n + moves d s .phase { s with mem := m, pc := .phase .free }) { s with mem := m, pc := .phase .free } := by
  have hph : runPhase s.cfg s.probeId s.pfrList s.mem .scan = some m := hrun
  have hmaps := hr.maps.phase hph
  have hbound := hr.bound.move (Move.phase .scan m hpc hrun)
  obtain ⟨rp, rp', hrp, hrp', hprev, hcase⟩ := chosen_over hr hpc hunb (scan_spec hrun)
  have hq : (1 : ℚ) ≤ 1 + (th : ℚ) / 100 := by
    have : (0 : ℚ) ≤ th := by exact_mod_cast hth
    linarith [div_nonneg this (by norm_num : (0 : ℚ) ≤ 100)]
  have hpow : (0 : ℚ) < (1 + (th : ℚ) / 100) ^ n := pow_pos (by linarith) n
  obtain ⟨hpos, hle⟩ := hr.least rp (by rw [decided_before (by rw [hpc]; rfl)]; exact hrp)
  have hcost : moves d s .phase { s with mem := m, pc := .phase .free } =
      if rp'.prevPeerId ≠ rp'.currPeerId then 1 else 0 := by
    simp only [moves, hpc, hrp', Option.any_some, decide_eq_true_eq, true_and]
  refine ⟨hmaps, hbound, hr.cfg, nofun, ?_, ?_⟩
  · rw [hcost]
    split
    · next hne =>
      intro _
      rcases hcase with ⟨hsame, -⟩ | ⟨hlow, himp⟩
      · rw [hprev, hsame] at hne
        exact absurd rfl hne
      · have hlt := lt_of_improves hlo hr.cfg hlow himp
        calc (1 + (th : ℚ) / 100) ^ (n + 1) * lo ≤ (1 + (th : ℚ) / 100) ^ (n + 1) * rp'.cminRtt :=
              mul_le_mul_of_nonneg_left hlow (pow_nonneg (by linarith) _)
          _ = (1 + (th : ℚ) / 100) ^ n * ((1 + (th : ℚ) / 100) * rp'.cminRtt) := by rw [pow_succ, mul_assoc]
          _ < (1 + (th : ℚ) / 100) ^ n * rp.cminRtt := mul_lt_mul_of_pos_left hlt hpow
          _ ≤ c := hle
    · exact hr.moved
  · intro x hx
    rw [decided_scanned rfl] at hx
    change hopAt m.route d s.probeId = some x at hx
    rw [hrp'] at hx
    cases hx
    rw [hcost]
    rcases hcase with ⟨hsame, hzero | hkept⟩ | ⟨hlow, himp⟩
    · rw [hzero, mul_zero]
      exact ⟨by norm_num, hc⟩
    · rw [if_neg (by rw [hprev, hsame]; exact not_not.mpr rfl), hkept]
      exact ⟨hpos, hle⟩
    · have hlt := lt_of_improves hlo hr.cfg hlow himp
      have hnew : 0 ≤ rp'.cminRtt := hlo.trans hlow
      refine ⟨hnew, ?_⟩
      split
      · calc (1 + (th : ℚ) / 100) ^ (n + 1) * rp'.cminRtt = (1 + (th : ℚ) / 100) ^ n * ((1 + (th : ℚ) / 100) * rp'.cminRtt) := by
              rw [pow_succ, mul_assoc]
          _ ≤ (1 + (th : ℚ) / 100) ^ n * rp.cminRtt := mul_le_mul_of_nonneg_left hlt.le hpow.le
          _ ≤ c := hle
      · calc (1 + (th : ℚ) / 100) ^ (n + 0) * rp'.cminRtt ≤ (1 + (th : ℚ) / 100) ^ n * rp.cminRtt := by
              refine mul_le_mul_of_nonneg_left ?_ hpow.le
              exact (le_mul_of_one_le_left hnew hq).trans hlt.le
          _ ≤ c := hle

/-- A step that makes no decision and forgets none. -/
theorem Ratchet.keep {u : State ℚ} (hr : Ratchet th lo c d n s) (hmaps : RecInv u.mem) (hbound : HopBound u)
    (hcfg : Hysteretic th u.cfg) (hlater : u.pc.scanned = false → u.probeId ≠ 0)
    (hhop : ∀ rp, hopAt u.mem.route d u.decided = some rp → hopAt s.mem.route d s.decided = some rp) :
    Ratchet th lo c d n u :=
  ⟨hmaps, hbound, hcfg, hlater, hr.moved, fun rp hrp => hr.least rp (hhop rp hrp)⟩

theorem decided_phase {ph : Phase} (hpc : s.pc = .phase ph) (hph : ph ≠ .scan) (m : Mem ℚ) :
    ({ s with mem := m, pc := ph.next } : State ℚ).decided = s.decided := by
  rw [State.decided, State.decided, hpc]
  cases ph with
  | scan => exact absurd rfl hph
  | _ => rfl

include hth hlo hc in
/-- **Every step keeps the ratchet.** -/
theorem Ratchet.move {u : State ℚ} {e : Event ℚ} (hr : Ratchet th lo c d n s) (hunb : Unbroken th lo d s e)
    (hm : Move s e u) : Ratchet th lo c d (n + moves d s e u) u := by
  have hmaps := hr.maps.move hm
  have hbound := hr.bound.move hm
  cases hm with
  | arrive x => exact hr.keep hmaps hbound hr.cfg hr.later fun _ => id
  | receive x rest hrc hs =>
    refine hr.keep hmaps hbound hr.cfg hr.later ?_
    cases x <;> exact fun _ => id
  | timeout => exact hr.keep hmaps hbound hr.cfg hr.later fun _ => id
  | ack => exact hr.keep hmaps hbound hr.cfg hr.later fun _ => id
  | start l hpc =>
    refine hr.keep hmaps hbound hr.cfg (fun _ => hr.later (by rw [hpc]; rfl)) ?_
    have hs : s.decided = s.probeId - 1 := decided_before (by rw [hpc]; rfl)
    rw [hs, decided_before rfl]
    exact fun _ => id
  | ask hpc =>
    refine hr.keep hmaps hbound hr.cfg (fun _ => hr.later (by rw [hpc]; rfl)) ?_
    have hs : s.decided = s.probeId - 1 := decided_before (by rw [hpc]; rfl)
    rw [hs, decided_before rfl]
    exact fun _ => id
  | take hpc _ =>
    refine hr.keep hmaps hbound hr.cfg (fun _ => hr.later (by rw [hpc]; rfl)) ?_
    have hs : s.decided = s.probeId - 1 := decided_before (by rw [hpc]; rfl)
    rw [hs, decided_before rfl]
    exact fun _ => id
  | skip hpc _ =>
    -- the round that was skipped made no decision
    refine hr.keep hmaps hbound hr.cfg (fun _ => Nat.succ_ne_zero _) ?_
    intro rp hrp
    rw [decided_before rfl] at hrp
    have hlt := hr.bound.older (by rw [hpc]; rfl) hrp
    simp only at hlt
    omega
  | phase ph m hpc hrun =>
    by_cases hph : ph = .scan
    · subst hph
      exact hr.scan hlo hth hc hpc hunb hrun
    · have hzero : moves d s .phase { s with mem := m, pc := ph.next } = 0 := by
        rw [moves, if_neg (fun h => hph (by rw [hpc] at h; cases h.1; rfl))]
      rw [hzero]
      refine hr.keep hmaps hbound hr.cfg ?_ ?_
      · intro hsc
        refine hr.later ?_
        rw [hpc]
        cases ph <;> first | rfl | cases hsc
      · rw [decided_phase hpc hph]
        intro rp hrp
        rcases phase_hopAt hrun hrp with hold | ⟨hscan, -⟩
        · exact hold
        · exact absurd hscan hph
  | resume hpc =>
    refine hr.keep hmaps hbound hr.cfg (fun h => absurd h (by rw [clear_scanned]; nofun)) ?_
    have hs : s.decided = s.probeId := decided_scanned (by rw [hpc]; rfl)
    rw [hs, decided_scanned (clear_scanned s)]
    exact fun _ => id
  | shutdown m hpc hrun =>
    refine hr.keep hmaps hbound hr.cfg nofun ?_
    have hs : s.decided = s.probeId := decided_scanned (by rw [hpc]; rfl)
    rw [hs, decided_scanned rfl]
    exact fun rp hrp => (hopAt_of_erased (deleteWalk_spec hrun).route hrp).2
  | reread cfg v hpc =>
    refine hr.keep hmaps hbound hunb (fun h => absurd h (by rw [clear_scanned]; nofun)) ?_
    have hs : s.decided = s.probeId := decided_scanned (by rw [hpc]; rfl)
    rw [hs, decided_scanned (clear_scanned _)]
    exact fun _ => id
  | rereadFail hpc =>
    refine hr.keep hmaps hbound hr.cfg nofun ?_
    have hs : s.decided = s.probeId := decided_scanned (by rw [hpc]; rfl)
    rw [hs, decided_scanned rfl]
    exact fun _ => id
  | release hpc =>
    refine hr.keep hmaps hbound hr.cfg (fun _ => Nat.succ_ne_zero _) ?_
    have hs : s.decided = s.probeId := decided_scanned (by rw [hpc]; rfl)
    rw [hs, decided_before rfl]
    intro rp hrp
    have hidx : ((s.probeId + 1 : Nat) : Int) - 1 = s.probeId := by omega
    simp only at hrp
    rwa [hidx] at hrp

end Run

/-- **Routes do not flap.** Take any reachable state after a scan, with a decision of `d` whose
minimum is `c`, and any run on from there in which every scan finds the decision of the
round before and hears metrics of `lo` at least. If the route moves n times in it, `c` is above
`lo` times the n-th power of 1 + `th`/100; what it is compared with then is at most `c` divided
by that power; and where the decision was made in a silent round, which leaves `c = 0`, it
does not move at all. -/
theorem moves_bounded {th : Int} (hth : 0 ≤ th) {lo : ℚ} (hlo : 0 ≤ lo) {cfg : Config} {v : ℚ} {mm : PeerMap} {s₀ s : State ℚ}
    {d : String} {rp₀ : RtParm ℚ} {n : Nat} (h₀ : Lts.Path step AnyStep (State.init cfg v mm) s₀) (hcfg : Hysteretic th s₀.cfg)
    (hsc : s₀.pc.scanned = true) (hrp : hopAt s₀.mem.route d s₀.probeId = some rp₀) (hc : 0 ≤ rp₀.cminRtt)
    (h : Lts.Counted step (moves d) (Unbroken th lo d) s₀ n s) :
    (n ≠ 0 → (1 + (th : ℚ) / 100) ^ n * lo < rp₀.cminRtt) ∧ (rp₀.cminRtt = 0 → n = 0) ∧
      ∀ rp, hopAt s.mem.route d s.decided = some rp →
        0 ≤ rp.cminRtt ∧ (1 + (th : ℚ) / 100) ^ n * rp.cminRtt ≤ rp₀.cminRtt := by
  have hpow : (0 : ℚ) ≤ 1 + (th : ℚ) / 100 := by
    have hcast : (0 : ℚ) ≤ th := by exact_mod_cast hth
    positivity
  have hstart : Ratchet th lo rp₀.cminRtt d 0 s₀ := by
    refine ⟨recInv_path h₀, Path.preserves (hopBound_init cfg v mm) (fun _ _ _ hI _ _ hm => hI.move hm) h₀, hcfg,
      fun hno => absurd hsc (by rw [hno]; nofun), fun hno => absurd rfl hno, ?_⟩
    intro rp hrp'
    rw [decided_scanned hsc, hrp] at hrp'
    cases hrp'
    exact ⟨hc, by rw [pow_zero, one_mul]⟩
  have hend : Ratchet th lo rp₀.cminRtt d n s := by
    refine Lts.Counted.invariant (I := fun n s => Ratchet th lo rp₀.cminRtt d n s) hstart ?_ h
    intro n t e u hI hG hs
    exact hI.move hlo hth hc hG (move_of_step hs).2
  refine ⟨hend.moved, ?_, hend.least⟩
  intro hzero
  by_contra hn
  have hlt := hend.moved hn
  rw [hzero] at hlt
  exact absurd hlt (mul_nonneg (pow_nonneg hpow n) hlo).not_gt

/-- Peer 1 takes 100 ms in round 0; peer 2 takes 50 in round 1, peer 1 then takes 20: two moves. -/
theorem moves_bounded_run : ∃ (s₀ s : State ℚ) (rp₀ : RtParm ℚ), hopAt s₀.mem.route "198.51.100.7" s₀.probeId = some rp₀ ∧
    Lts.Counted step (moves "198.51.100.7") (Unbroken 10 20 "198.51.100.7") s₀ 2 s ∧
    (1 + ((10 : Int) : ℚ) / 100) ^ 2 * 20 < rp₀.cminRtt := by
  obtain ⟨s₀, hs₀, hcfg, hsc, ⟨hhop, hrun⟩⟩ := exists_run (G := AnyStep)
    (State.boot (F := ℚ) [(1, ⟨"192.0.2.1", "1:1"⟩), (2, ⟨"192.0.2.2", "1:2"⟩)])
    ((roundEvents ["198.51.100.7"] [⟨"198.51.100.7", 0, 1, 1, 100, 0⟩]).take 12)
    (fun s₀ => Hysteretic 10 s₀.cfg ∧ s₀.pc.scanned = true ∧
      ((hopAt s₀.mem.route "198.51.100.7" s₀.probeId).any fun rp => 0 ≤ rp.cminRtt) = true ∧
      ((Lts.runC step (moves "198.51.100.7") (Unbroken 10 20 "198.51.100.7") 0 s₀
        ((roundEvents ["198.51.100.7"] [⟨"198.51.100.7", 0, 1, 1, 100, 0⟩]).drop 12 ++
          roundEvents ["198.51.100.7"] [⟨"198.51.100.7", 1, 1, 1, 100, 1⟩, ⟨"198.51.100.7", 1, 2, 1, 50, 1⟩] ++
          roundEvents ["198.51.100.7"] [⟨"198.51.100.7", 2, 1, 1, 20, 2⟩, ⟨"198.51.100.7", 2, 2, 1, 50, 2⟩])).any
        fun x => x.1 = 2) = true) (by decide +kernel)
  obtain ⟨rp₀, hrp₀, hc⟩ := Option.any_eq_true _ _ |>.mp hhop
  obtain ⟨⟨n, s⟩, hs, hn⟩ := Option.any_eq_true _ _ |>.mp hrun
  have hcount : Lts.Counted step (moves "198.51.100.7") (Unbroken 10 20 "198.51.100.7") s₀ n s := .of_runC .refl hs
  have hn2 : n = 2 := of_decide_eq_true hn
  rw [hn2] at hcount
  refine ⟨s₀, s, rp₀, hrp₀, hcount, ?_⟩
  exact (moves_bounded (by decide) (by norm_num) hs₀ hcfg hsc hrp₀ (of_decide_eq_true hc) hcount).1 (by decide)

end Pfr

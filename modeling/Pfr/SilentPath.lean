import Pfr.MainLoop

/- When a route is kept on a silent path. The hysteresis of case 2.1 compares the
   round's best metric with the minimum carried over from earlier rounds, not with
   what the current peer did in this one; where `rtt_least_move` is on, a peer that
   answers nobody any more keeps the route as long as the best other peer is not
   better than that memory by the threshold. The comment on the cases reads
   "x y there is responses -> update route x -> y".

   1. `KeepsHeard`: the condition, case by case of the previous decision;
   2. `scan_and_iff`: a scan of a round p ≥ 1 ends unless it meets a NULL;
   3. `current_peer_heard_iff`: after a scan the current peer of a destination somebody
      answered for is one heard in the round if and only if, in that case, it meets no
      NULL and the condition holds;
   4. `route_kept_on_silent_peer`: a run where it fails. -/
namespace Pfr

open Std

variable {F : Type} [Dbl F]

/-- A reply carries peer 0, its peer is read first and without an aggregate, and no
metric is negative: the loop then ends at 0, as if nobody had answered. -/
def ShadowedByZero (pm : PathMetric) (thr : F) (peers : Peers F) : Prop :=
  LeadNull thr peers 0 ∧ ∀ k w, metricAt pm peers k = some w → ¬w < Dbl.num 0

/-- When the decision taken from the previous one is for a peer heard in the round. -/
def KeepsHeard (cfg : Config) (thr : F) (peers : Peers F) : Option (RtParm F) → Prop
  | none => HeardBelow cfg.pathMetric thr peers ∨ (0 : Int) ∈ peers
  | some rp => rp.currPeerId ∈ peers ∨
    (¬ShadowedByZero cfg.pathMetric thr peers ∧
      ∃ b v, IsBest (metricAt cfg.pathMetric peers) b v ∧ b ≠ 0 ∧ v < thr ∧
        (cfg.rttLeastMove = false ∨ fmove cfg rp.cminRtt v))

theorem heardBelow_iff {pm : PathMetric} (hpm : pm.Read) (thr : F) (peers : Peers F) :
    HeardBelow pm thr peers ↔ ∃ k w, metricAt pm peers k = some w ∧ w < thr := by
  constructor
  · rintro ⟨k, -, tp, htp, hlt⟩
    obtain ⟨w, hw⟩ := Option.isSome_iff_exists.mp (selMetric_isSome hpm tp)
    refine ⟨k, w, by rw [metricAt, htp, Option.bind_some, hw], ?_⟩
    rwa [currMetric, hw, Option.getD_some] at hlt
  · rintro ⟨k, w, hw, hlt⟩
    obtain ⟨tp, htp, hsel⟩ := Option.bind_eq_some_iff.mp hw
    exact ⟨k, ExtTreeMap.mem_keys.mpr (mem_of_aggAt htp), tp, htp, by rwa [currMetric, hsel]⟩

/-- Case 2.0 keeps the current peer; case 2.1 keeps it or takes the one found. -/
theorem chooseHop_curr (cfg : Config) (rp : RtParm F) (k : Int) (v : F) :
    (chooseHop cfg (some rp) k v).currPeerId =
      if k = 0 ∨ (cfg.rttLeastMove = true ∧ ¬fmove cfg rp.cminRtt v) then rp.currPeerId else k := by
  unfold chooseHop
  by_cases hk : k = 0
  · simp [hk]
  · by_cases hm : cfg.rttLeastMove = true ∧ ¬fmove cfg rp.cminRtt v
    · simp [hk, hm]
    · simp [hk, hm]

/-- What a scan can have found: a peer heard below the starting value, with its metric,
or none. -/
def ScanFound (pm : PathMetric) (thr : F) (peers : Peers F) (k : Int) (v : F) : Prop :=
  (k ≠ 0 ∧ IsBest (metricAt pm peers) k v ∧ v < thr ∧ ¬ShadowedByZero pm thr peers) ∨
    (k = 0 ∧ ((∃ v, IsBest (metricAt pm peers) 0 v) ∨ (∀ k w, metricAt pm peers k = some w → ¬w < thr) ∨
      ShadowedByZero pm thr peers))

/-- What a scan that met no NULL found. -/
theorem scanPeer_cases [DblOrder F] {cfg : Config} (hpm : cfg.pathMetric.Read) {p : Nat} (hp : p ≠ 0)
    {m m' : Mem F} (hs : ScanSpec cfg p m m') {d : String} (hd : d ∈ m.r) :
    ∃ v, hopAt m'.route d p = some (chooseHop cfg (hopAt m.route d (p - 1)) (scanPeer cfg p m d) v) ∧
      ScanFound cfg.pathMetric (scanThr m d) (peersAt m.r d p) (scanPeer cfg p m d) v := by
  obtain ⟨v, hrp, hmin⟩ := scan_decision hp hs hd
  refine ⟨v, hrp, ?_⟩
  have hcases := pickLoop_cases hpm (scanThr m d) (peersAt m.r d p)
  by_cases h0 : scanPeer cfg p m d = 0
  · refine Or.inr ⟨h0, ?_⟩
    rcases hcases with ⟨-, hnone⟩ | ⟨hbest, -, -⟩ | ⟨k, hlead, hk, hneg⟩
    · exact Or.inr (Or.inl hnone)
    · have h0' : (pickLoop cfg.pathMetric (scanThr m d) (peersAt m.r d p)).peerId = 0 := h0
      rw [h0'] at hbest
      exact Or.inl ⟨_, hbest⟩
    · have hk0 : k = 0 := hk.symm.trans h0
      rw [hk0] at hlead
      exact Or.inr (Or.inr ⟨hlead, hneg⟩)
  · obtain ⟨tp, htp, hv⟩ : ∃ tp, aggAt (peersAt m.r d p) (scanPeer cfg p m d) = some tp ∧
        v = (selMetric cfg.pathMetric tp).getD (pickLoop cfg.pathMetric (scanThr m d) (peersAt m.r d p)).minRtt := by
      rcases hmin with ⟨h, -⟩ | h
      · exact absurd h h0
      · exact h
    rcases hcases with ⟨h, -⟩ | ⟨hbest, hlt, hneg⟩ | ⟨k, hlead, hk, -⟩
    · exact absurd h h0
    · have hval := hbest.val
      change (aggAt (peersAt m.r d p) (scanPeer cfg p m d)).bind _ = _ at hval
      rw [htp, Option.bind_some] at hval
      rw [hval, Option.getD_some] at hv
      subst hv
      refine Or.inl ⟨h0, hbest, hlt, ?_⟩
      rintro ⟨hlead, hpos⟩
      exact hpos _ _ hbest.val (hneg ⟨0, hlead⟩)
    · -- a chosen peer without an aggregate would have been read as NULL
      have hnull := hlead.2.2.2
      rw [← hk] at hnull
      change aggAt (peersAt m.r d p) (scanPeer cfg p m d) = none at hnull
      rw [htp] at hnull
      cases hnull

section Found
variable {cfg : Config} {thr v : F} {peers : Peers F}

/-- Case 1.1: a newcomer is given the peer found. -/
theorem newcomer_heard_iff (hpm : cfg.pathMetric.Read)
    (hfound : ScanFound cfg.pathMetric thr peers (pickLoop cfg.pathMetric thr peers).peerId v) :
    (pickLoop cfg.pathMetric thr peers).peerId ∈ peers ↔ KeepsHeard cfg thr peers none := by
  constructor
  · intro hin
    rcases hfound with ⟨-, hbest, hlt, -⟩ | ⟨h0, -⟩
    · exact Or.inl ((heardBelow_iff hpm _ _).mpr ⟨_, v, hbest.val, hlt⟩)
    · exact Or.inr (h0 ▸ hin)
  · rintro (hb | h0)
    · exact pickLoop_heard hb
    · rcases pickLoop_peer cfg.pathMetric thr peers with h | h
      · rw [h]
        exact h0
      · exact h

/-- Cases 2.0 and 2.1: the current peer is kept, or the one found is taken. -/
theorem hop_heard_iff [DblOrder F] {k : Int} (hfound : ScanFound cfg.pathMetric thr peers k v) (rp : RtParm F) :
    (chooseHop cfg (some rp) k v).currPeerId ∈ peers ↔ KeepsHeard cfg thr peers (some rp) := by
  rw [chooseHop_curr]
  constructor
  · intro hin
    split at hin
    · exact Or.inl hin
    · next hmove =>
      rw [not_or, not_and_or, not_not] at hmove
      rcases hfound with ⟨h0, hbest, hlt, hsh⟩ | ⟨h0, -⟩
      · refine Or.inr ⟨hsh, _, v, hbest, h0, hlt, ?_⟩
        rcases hmove.2 with h | h
        · exact Or.inl (by simpa using h)
        · exact Or.inr h
      · exact absurd h0 hmove.1
  · rintro (hin | ⟨hsh, b, w, hbest, hb0, hlt, hmove⟩)
    · split
      · exact hin
      · rcases hfound with ⟨-, hbest, -⟩ | ⟨h0, -⟩
        · exact mem_of_metricAt hbest.val
        · next hno => exact absurd (Or.inl h0) hno
    · rcases hfound with ⟨h0, hbest', hlt', -⟩ | ⟨h0, hzero | hnone | hsh'⟩
      · -- the best peer is unique, and it is moved to
        obtain ⟨-, rfl⟩ := hbest.unique hbest'
        rw [if_neg]
        · exact mem_of_metricAt hbest'.val
        · rintro (h | ⟨hon, hoff⟩)
          · exact h0 h
          · rcases hmove with h | h
            · rw [h] at hon
              cases hon
            · exact hoff h
      · obtain ⟨v', hv'⟩ := hzero
        exact absurd (hbest.unique hv').1 hb0
      · exact absurd hlt (hnone b w hbest.val)
      · exact absurd hsh' hsh

end Found

/-- The scan of a round p ≥ 1 is a step of `main` exactly if it meets no NULL. -/
theorem scan_enabled_iff [DblOrder F] {s : State F} (hpc : s.pc = .phase .scan) (hp : s.probeId ≠ 0) (hpm : s.cfg.pathMetric.Read) :
    (∃ t, step s .phase = some t) ↔ NoNull s.cfg s.probeId s.mem := by
  rw [NoNull, ← scan_isSome_iff hpm hp]
  constructor
  · intro h
    obtain ⟨t, ht⟩ := h
    exact ⟨t.mem, runPhase_of_step hpc ht⟩
  · intro h
    obtain ⟨m, hm⟩ := h
    exact ⟨_, step_of_move (by rw [hpc]; nofun) (.phase .scan m hpc hm)⟩

/-- What is told of every scan that ends by `C` holds exactly if the scan meets no NULL and
`C` does. -/
theorem scan_and_iff [DblOrder F] {s : State F} (hpc : s.pc = .phase .scan) (hp : s.probeId ≠ 0) (hpm : s.cfg.pathMetric.Read)
    {Q : State F → Prop} {C : Prop} (h : ∀ t, step s .phase = some t → (Q t ↔ C)) :
    (∃ t, step s .phase = some t ∧ Q t) ↔ NoNull s.cfg s.probeId s.mem ∧ C := by
  rw [← scan_enabled_iff hpc hp hpm]
  constructor
  · intro hall
    obtain ⟨t, ht, hQ⟩ := hall
    exact ⟨⟨t, ht⟩, (h t ht).mp hQ⟩
  · intro hall
    obtain ⟨⟨t, ht⟩, hC⟩ := hall
    exact ⟨t, ht, (h t ht).mpr hC⟩

/-- The decision of a scan is for a peer heard in the round. -/
theorem decision_heard_iff [DblOrder F] {s t : State F} (hpc : s.pc = .phase .scan)
    (hstep : step s .phase = some t) (hp : s.probeId ≠ 0) (hpm : s.cfg.pathMetric.Read) {d : String}
    (hd : d ∈ s.mem.r) :
    (∃ rp, hopAt t.mem.route d s.probeId = some rp ∧ rp.currPeerId ∈ peersAt t.mem.r d s.probeId) ↔
      KeepsHeard s.cfg (scanThr s.mem d) (peersAt s.mem.r d s.probeId) (hopAt s.mem.route d (s.probeId - 1)) := by
  have hs : ScanSpec s.cfg s.probeId s.mem t.mem := scan_spec (runPhase_of_step hpc hstep)
  obtain ⟨v, hrp, hfound⟩ := scanPeer_cases hpm hp hs hd
  have hiff : (∃ rp, hopAt t.mem.route d s.probeId = some rp ∧ rp.currPeerId ∈ peersAt t.mem.r d s.probeId) ↔
      (chooseHop s.cfg (hopAt s.mem.route d (s.probeId - 1)) (scanPeer s.cfg s.probeId s.mem d) v).currPeerId ∈
        peersAt s.mem.r d s.probeId := by
    rw [hrp]
    simp only [Option.some_inj, exists_eq_left', scan_mem_peers hs]
  rw [hiff]
  cases hopAt s.mem.route d (s.probeId - 1) with
  | none => exact newcomer_heard_iff hpm hfound
  | some rp => exact hop_heard_iff hfound rp

/-- A peer was heard in the round with a metric below 50000. -/
def AnsweredBelow (pm : PathMetric) (peers : Peers F) : Prop := ∃ k w, metricAt pm peers k = some w ∧ w < Dbl.num 50000

/-- After the scan the current peer is one heard in the round. -/
def CurrentHeard (s : State F) (d : String) : Prop :=
  ∃ t, step s .phase = some t ∧ ∃ rp, hopAt t.mem.route d s.probeId = some rp ∧ rp.currPeerId ∈ peersAt t.mem.r d s.probeId

/-- **When a route is not kept on a silent path.** For every scan of a round p ≥ 1 under
`metric0` or `metric1` and every destination of `r`: where somebody answered below 50000
the scan ends with a current peer that answered, exactly if it meets no NULL and the
decision is for a peer heard. -/
theorem current_peer_heard_iff [DblOrder F] {s : State F} (hpc : s.pc = .phase .scan) (hp : s.probeId ≠ 0)
    (hpm : s.cfg.pathMetric.Read) {d : String} (hd : d ∈ s.mem.r) :
    (AnsweredBelow s.cfg.pathMetric (peersAt s.mem.r d s.probeId) → CurrentHeard s d) ↔
      (AnsweredBelow s.cfg.pathMetric (peersAt s.mem.r d s.probeId) → NoNull s.cfg s.probeId s.mem ∧
        KeepsHeard s.cfg (scanThr s.mem d) (peersAt s.mem.r d s.probeId) (hopAt s.mem.route d (s.probeId - 1))) := by
  refine imp_congr_right fun _ => scan_and_iff hpc hp hpm ?_
  intro t ht
  exact decision_heard_iff hpc ht hp hpm hd

/-- Peer 1 answers in round 0 after 20 ms and peer 2 alone in round 1, after 10 ms: the
threshold is passed, and the route moves. -/
theorem current_peer_heard_run : ∃ s : State ℚ,
    (Lts.Path step AnyStep (State.boot [(1, ⟨"192.0.2.1", "1:1"⟩), (2, ⟨"192.0.2.2", "1:2"⟩)]) s ∧
      (hopAt s.mem.route "198.51.100.7" (s.probeId - 1)).map RtParm.currPeerId = some 1 ∧
      (1 : Int) ∉ peersAt s.mem.r "198.51.100.7" s.probeId ∧
      AnsweredBelow s.cfg.pathMetric (peersAt s.mem.r "198.51.100.7" s.probeId)) ∧ CurrentHeard s "198.51.100.7" := by
  obtain ⟨s, hs, hpc, hp, hpm, hd, ⟨hmetric, hkeys, hall⟩, hprev, hstep⟩ := exists_run (G := AnyStep)
    (State.boot (F := ℚ) [(1, ⟨"192.0.2.1", "1:1"⟩), (2, ⟨"192.0.2.2", "1:2"⟩)])
    (roundEvents ["198.51.100.7"] [⟨"198.51.100.7", 0, 1, 1, 20, 0⟩] ++
      (roundEvents ["198.51.100.7"] [⟨"198.51.100.7", 1, 2, 1, 10, 1⟩]).take 11)
    (fun s => s.pc = .phase .scan ∧ s.probeId = 1 ∧ s.cfg.pathMetric.Read ∧ "198.51.100.7" ∈ s.mem.r ∧
      (metricAt s.cfg.pathMetric (peersAt s.mem.r "198.51.100.7" s.probeId) 2 = some 10 ∧
        (peersAt s.mem.r "198.51.100.7" s.probeId).keys = [2] ∧ (10 : ℚ) < scanThr s.mem "198.51.100.7") ∧
      ((hopAt s.mem.route "198.51.100.7" (s.probeId - 1)).any fun rp => rp.currPeerId = 1 ∧ fmove s.cfg rp.cminRtt 10) ∧
      (step s .phase).isSome) (by decide +kernel)
  obtain ⟨rp, hrp, hcurr⟩ := Option.any_eq_true _ _ |>.mp hprev
  obtain ⟨hcurr, hmove⟩ := of_decide_eq_true hcurr
  have honly : ∀ k, k ∈ peersAt s.mem.r "198.51.100.7" s.probeId ↔ k = 2 := by
    intro k
    rw [← ExtTreeMap.mem_keys, hkeys, List.mem_singleton]
  have hbest : IsBest (metricAt s.cfg.pathMetric (peersAt s.mem.r "198.51.100.7" s.probeId)) 2 10 := by
    have hother : ∀ k w, metricAt s.cfg.pathMetric (peersAt s.mem.r "198.51.100.7" s.probeId) k = some w → k = 2 :=
      fun k w hw => (honly k).mp (mem_of_metricAt hw)
    refine ⟨hmetric, ?_, ?_⟩
    · intro k w hw
      rw [hother k w hw, hmetric] at hw
      rw [← Option.some.inj hw]
      exact DblOrder.irrefl _
    · intro k hw
      rw [hother k _ hw]
  have hanswered : AnsweredBelow s.cfg.pathMetric (peersAt s.mem.r "198.51.100.7" s.probeId) := ⟨2, 10, hmetric, by decide⟩
  refine ⟨s, ⟨hs, by rw [hrp, Option.map_some, hcurr], fun h => absurd ((honly 1).mp h) (by decide), hanswered⟩, ?_⟩
  refine (current_peer_heard_iff hpc (by omega) hpm hd).mpr ?_ hanswered
  intro _
  refine ⟨(scan_enabled_iff hpc (by omega) hpm).mp (Option.isSome_iff_exists.mp hstep), ?_⟩
  rw [hrp]
  have hlead : ¬ShadowedByZero s.cfg.pathMetric (scanThr s.mem "198.51.100.7") (peersAt s.mem.r "198.51.100.7" s.probeId) :=
    fun h => absurd ((honly 0).mp h.1.2.1) (by decide)
  exact Or.inr ⟨hlead, 2, 10, hbest, by decide, hall, Or.inr hmove⟩

/-- Peer 1 answers in round 0 and peer 2 alone in round 1, with the same metric: the
route stays on peer 1, which answered nothing in round 1. -/
theorem route_kept_on_silent_peer : ¬∀ (s t : State ℚ) (d : String),
    Lts.Path step AnyStep (State.boot [(1, ⟨"192.0.2.1", "1:1"⟩), (2, ⟨"192.0.2.2", "1:2"⟩)]) s →
      s.pc = .phase .scan → step s .phase = some t → s.probeId ≠ 0 → s.cfg.pathMetric.Read → d ∈ s.mem.r →
      (∃ k w, metricAt s.cfg.pathMetric (peersAt s.mem.r d s.probeId) k = some w ∧ w < Dbl.num 50000) →
      ∃ rp, hopAt t.mem.route d s.probeId = some rp ∧ rp.currPeerId ∈ peersAt t.mem.r d s.probeId := by
  intro hall
  obtain ⟨s, hs, hpc, hp, hpm, hd, hheard, hstep⟩ := exists_run (G := AnyStep)
    (State.boot (F := ℚ) [(1, ⟨"192.0.2.1", "1:1"⟩), (2, ⟨"192.0.2.2", "1:2"⟩)])
    (roundEvents ["198.51.100.7"] [⟨"198.51.100.7", 0, 1, 1, 10, 0⟩] ++
      (roundEvents ["198.51.100.7"] [⟨"198.51.100.7", 1, 2, 1, 10, 1⟩]).take 11)
    (fun s => s.pc = .phase .scan ∧ s.probeId = 1 ∧ s.cfg.pathMetric.Read ∧ "198.51.100.7" ∈ s.mem.r ∧
      HeardBelow s.cfg.pathMetric (Dbl.num 50000) (peersAt s.mem.r "198.51.100.7" s.probeId) ∧
      (step s .phase).any (fun t => (hopAt t.mem.route "198.51.100.7" s.probeId).all
        (fun rp => rp.currPeerId ∉ peersAt t.mem.r "198.51.100.7" s.probeId))) (by decide +kernel)
  obtain ⟨t, ht, hno⟩ := Option.any_eq_true _ _ |>.mp hstep
  obtain ⟨rp, hrp, hin⟩ := hall s t _ hs hpc ht (by omega) hpm hd ((heardBelow_iff hpm _ _).mp hheard)
  rw [hrp] at hno
  simp [hin] at hno

end Pfr

import Pfr.NullSafe
import Pfr.SilentPath

/- Path selection refines "the best peer of the last answered round". With
   `rtt_least_move` off a destination's current peer is the lowest-numbered peer of
   the least metric in the last round, since it entered `route`, in which it had
   replies when `pfr_calc_avg_rtt` ran; the silent rounds after that carry it over,
   and `pfr_route_free` never drops the decision the next round reads.

   1. `roundMetric`: the metric of a peer, from its samples;
   2. `metricAt_calcAvg`, `metricAt_calcStddev`: what the scan reads is that metric;
   3. `Tracks`: what is kept of an answered round at each place of the rounds after
      it; `tracks_move`: every step keeps it;
   4. `best_of_last_answered`: the refinement, for every run and every round.

   The run is read as two: one to the state in which `pfr_calc_avg_rtt` of the
   answered round is about to run, and one from there on in which the destination
   stays in `route` and has no replies in any later round (`SilentSince`). -/
namespace Pfr

open Std

variable {F : Type} [Dbl F]

/-- The selected metric of a peer's samples, as `pfr_calc_avg_rtt` computes it. -/
def roundMetric (cfg : Config) (peers : Peers F) (k : Int) : Option F :=
  (peers[k]?.bind calcLoop).bind fun a => selMetric cfg.pathMetric (aggregate cfg a)

theorem metricAt_calcAvg {cfg : Config} {p : Int} {r r' : RData F} (h : pfrCalcAvgRtt cfg p r = some r') {d : String}
    (hd : d ∈ r) (k : Int) : metricAt cfg.pathMetric (peersAt r' d p) k = roundMetric cfg (peersAt r d p) k := by
  rw [metricAt, aggAt_eq, peersAt_mapPeers h hd, roundMetric]
  cases (peersAt r d p)[k]? with
  | none => rfl
  | some samples =>
    simp only [Option.bind_some, calcPeer]
    cases calcLoop samples with
    | none => rfl
    | some a => simp only [Option.map_some, Option.bind_some, ExtTreeMap.idx_insert, if_true]

theorem metricAt_calcStddev {pm : PathMetric} {p : Int} {r r' : RData F} (h : pfrCalcStddevRtt p r = some r')
    {d : String} (hd : d ∈ r) (k : Int) : metricAt pm (peersAt r' d p) k = metricAt pm (peersAt r d p) k := by
  rw [metricAt, aggAt_eq, peersAt_mapPeers h hd, metricAt, aggAt_eq]
  have hmem := mem_peersAt_mapPeers h hd (k := k)
  have hget := peersAt_mapPeers h hd k
  cases hs : (peersAt r d p)[k]? with
  | none => rfl
  | some samples =>
    have hk := hmem.mpr (ExtTreeMap.mem_of_getElem? hs)
    obtain ⟨s', hs'⟩ := ExtTreeMap.exists_getElem? hk
    rw [hs, hs', Option.bind_some] at hget
    rw [Option.bind_some, ← hget]
    obtain ⟨tp, med, dev, htp, rfl⟩ := stddevPeer_agg hget.symm
    rw [Option.bind_some, Option.bind_some, ExtTreeMap.idx_insert, if_pos rfl, htp]
    cases pm <;> rfl

/-! ## The setting -/

/-- `rtt_least_move` is off, `path_metric` is one the scan reads and `min_rtt` is
50000; peer ids are positive. -/
structure Plain (s : State F) : Prop where
  move : s.cfg.rttLeastMove = false
  metric : s.cfg.pathMetric.Read
  minRtt : s.mem.minRtt = Dbl.num 50000
  peers : ∀ (d : String) (q k : Int), k ∈ peersAt s.mem.r d q → 0 < k
  queued : ∀ x : Reply F, some x ∈ s.sock → 0 < x.peerId

/-- Replies carry positive peer ids and a reread configuration changes none of it. -/
def PlainStep : Event F → Prop
  | .arrive (some x) => 0 < x.peerId
  | .signals (.reread cfg v) => cfg.rttLeastMove = false ∧ cfg.pathMetric.Read ∧ v = Dbl.num 50000
  | _ => True

/-- Every metric of a round lies below 50000. -/
def BelowCut (s : State F) : Event F → Prop
  | .phase => s.pc = .phase .calcAvg → ∀ d ∈ s.mem.r.keys, ∀ k ∈ (peersAt s.mem.r d s.probeId).keys,
      ∀ w ∈ roundMetric s.cfg (peersAt s.mem.r d s.probeId) k, w < Dbl.num 50000
  | _ => True

/-- The steps of the runs considered. -/
def Exact (s : State F) (e : Event F) : Prop := Undisturbed s e ∧ NoSkip s e ∧ PlainStep e ∧ BelowCut s e

/-- From round `q` on the destination stays in `route` and is not heard. -/
def SilentSince (d : String) (q : Nat) (s : State F) : Event F → Prop
  | .phase => s.pc = .phase .calcAvg → s.probeId ≠ q →
      d ∈ s.mem.route ∧ (peersAt s.mem.r d s.probeId).isEmpty = true
  | _ => True

/-- The steps of the runs considered, from round `q` on. -/
def ExactSince (d : String) (q : Nat) (s : State F) (e : Event F) : Prop := Exact s e ∧ SilentSince d q s e

instance [DecidableEq F] : (e : Event F) → Decidable (PlainStep e)
  | .arrive (some x) => inferInstanceAs (Decidable (0 < x.peerId))
  | .signals (.reread _ _) => inferInstanceAs (Decidable (_ ∧ _ ∧ _))
  | .arrive none => .isTrue trivial
  | .signals .none | .signals .shutdown | .signals .rereadFail => .isTrue trivial
  | .receive | .timeout | .ack | .start _ | .ask | .take | .phase | .release => .isTrue trivial

instance (s : State F) : (e : Event F) → Decidable (BelowCut s e)
  | .phase => by dsimp only [BelowCut]; infer_instance
  | .arrive _ | .receive | .timeout | .ack | .start _ | .ask | .take | .signals _ | .release => .isTrue trivial

instance [DecidableEq F] (s : State F) (e : Event F) : Decidable (Exact s e) :=
  inferInstanceAs (Decidable (_ ∧ _ ∧ _ ∧ _))

instance (d : String) (q : Nat) (s : State F) : (e : Event F) → Decidable (SilentSince d q s e)
  | .phase => by dsimp only [SilentSince]; infer_instance
  | .arrive _ | .receive | .timeout | .ack | .start _ | .ask | .take | .signals _ | .release => .isTrue trivial

instance [DecidableEq F] (d : String) (q : Nat) (s : State F) (e : Event F) : Decidable (ExactSince d q s e) :=
  inferInstanceAs (Decidable (_ ∧ _))

/-- `min_rtt` is 50000 again after any phase. -/
theorem phase_minRtt {cfg : Config} {p : Nat} {l : List String} {m m' : Mem F} {ph : Phase}
    (h : m.minRtt = Dbl.num 50000) (hrun : runPhase cfg p l m ph = some m') : m'.minRtt = Dbl.num 50000 := by
  cases ph with
  | update => rw [(update_spec hrun).minRtt, h]
  | calcAvg => obtain ⟨r', -, rfl⟩ := Option.map_eq_some_iff.mp hrun; exact h
  | calcStddev => obtain ⟨r', -, rfl⟩ := Option.map_eq_some_iff.mp hrun; exact h
  | scan => rw [(scan_spec hrun).minRtt, h, ite_self]
  | free => cases hrun; rw [free_minRtt, h]
  | delete => rw [(delete_spec hrun).minRtt, h]
  | man => rw [(routesMan_frame hrun).2.2.2.1, h]

theorem Plain.step {s t : State F} {e : Event F} (h : Plain s) (hG : PlainStep e) (hm : Move s e t) : Plain t := by
  cases hm with
  | arrive x =>
    refine ⟨h.move, h.metric, h.minRtt, h.peers, ?_⟩
    intro y hy
    rcases List.mem_append.mp hy with hy | hy
    · exact h.queued y hy
    · rw [List.mem_singleton] at hy
      subst hy
      exact hG
  | receive x rest hr hsock =>
    have hrest : ∀ y, some y ∈ rest → 0 < y.peerId :=
      fun y hy => h.queued y (by rw [hsock]; exact List.mem_cons_of_mem _ hy)
    cases x with
    | none => exact ⟨h.move, h.metric, h.minRtt, h.peers, hrest⟩
    | some x =>
      refine ⟨h.move, h.metric, h.minRtt, ?_, hrest⟩
      intro d q k hk
      change k ∈ peersAt (record x s.mem.r) d q at hk
      rw [peersAt_record] at hk
      split at hk
      · rcases ExtTreeMap.mem_upd.mp hk with rfl | hk
        · exact h.queued x (by rw [hsock]; exact List.mem_cons_self)
        · exact h.peers d q k hk
      · exact h.peers d q k hk
  | phase ph m hpc hrun =>
    exact ⟨h.move, h.metric, phase_minRtt h.minRtt hrun, fun d q k hk => h.peers d q k (phase_peers hrun hk), h.queued⟩
  | shutdown m hpc hrun =>
    have hs := deleteWalk_spec hrun
    exact ⟨h.move, h.metric, by rw [hs.minRtt]; exact h.minRtt,
      fun d q k hk => h.peers d q k (mem_peersAt_of_erased hs.r hk), h.queued⟩
  | reread cfg v hpc => exact ⟨hG.1, hG.2.1, hG.2.2, h.peers, h.queued⟩
  | _ => exact ⟨h.move, h.metric, h.minRtt, h.peers, h.queued⟩

theorem plain_init {cfg : Config} (hmove : cfg.rttLeastMove = false) (hpm : cfg.pathMetric.Read) (mm : PeerMap) :
    Plain (State.init cfg (Dbl.num 50000 : F) mm) where
  move := hmove
  metric := hpm
  minRtt := rfl
  peers := fun _ _ _ hk => absurd (mem_of_mem_peersAt hk) ExtTreeMap.not_mem_empty
  queued := nofun

/-! ## The decision an answered round leaves -/

/-- The peer round `s0.probeId` calls for: in round 0 the lowest-numbered one that
answered, later the lowest-numbered one of the least metric. -/
def Expected (s0 : State F) (d : String) (curr : Int) : Prop :=
  if s0.probeId = 0 then
    curr ∈ peersAt s0.mem.r d s0.probeId ∧ ∀ k, k ∈ peersAt s0.mem.r d s0.probeId → curr ≤ k
  else ∃ v, IsBest (roundMetric s0.cfg (peersAt s0.mem.r d s0.probeId)) curr v

/-- The decision of a round is for that peer. -/
def Decided (s0 : State F) (d : String) (route : RouteMap F) (p : Int) : Prop :=
  ∃ rp, hopAt route d p = some rp ∧ Expected s0 d rp.currPeerId

/-- The aggregates of the answered round are those of the samples it started from. -/
structure Averaged (s0 : State F) (d : String) (t : State F) : Prop where
  metric : t.cfg.pathMetric = s0.cfg.pathMetric
  peers : ∀ k, k ∈ peersAt t.mem.r d s0.probeId ↔ k ∈ peersAt s0.mem.r d s0.probeId
  agg : ∀ k, metricAt s0.cfg.pathMetric (peersAt t.mem.r d s0.probeId) k =
    roundMetric s0.cfg (peersAt s0.mem.r d s0.probeId) k
  below : ∀ k w, roundMetric s0.cfg (peersAt s0.mem.r d s0.probeId) k = some w → w < Dbl.num 50000

/-- From `pfr_calc_avg_rtt` of the round on. -/
def MainPc.past : MainPc → Bool
  | .phase .calcAvg => true
  | pc => pc.averaged || pc.scanned

theorem MainPc.past_of_averaged {pc : MainPc} (h : pc.averaged = true) : pc.past = true := by
  cases pc with
  | phase ph => cases ph <;> first | rfl | cases h
  | _ => cases h

theorem MainPc.past_of_scanned {pc : MainPc} (h : pc.scanned = true) : pc.past = true := by
  cases pc with
  | phase ph => cases ph <;> first | rfl | cases h
  | signals | release | exited => rfl
  | _ => cases h

/-- What is kept of the answered round at each place of it and of the silent rounds
after it. -/
structure Tracks (s0 : State F) (d : String) (t : State F) : Prop where
  round : s0.probeId ≤ t.probeId
  start : t.probeId = s0.probeId → t.pc.past = true
  before : t.probeId = s0.probeId → t.pc = .phase .calcAvg → t.cfg = s0.cfg ∧ t.mem.r = s0.mem.r
  during : t.probeId = s0.probeId → t.pc.averaged = true → Averaged s0 d t
  silent : s0.probeId < t.probeId → t.pc.averaged = true → d ∈ t.mem.route ∧ ∀ k, k ∉ peersAt t.mem.r d t.probeId
  kept : s0.probeId < t.probeId → t.pc.scanned = false → d ∈ t.mem.route → Decided s0 d t.mem.route (t.probeId - 1)
  now : t.pc.scanned = true → d ∈ t.mem.route → Decided s0 d t.mem.route t.probeId

theorem tracks_self {s0 : State F} (d : String) (hpc : s0.pc = .phase .calcAvg) : Tracks s0 d s0 where
  round := Nat.le_refl _
  start := fun _ => by rw [hpc]; rfl
  before := fun _ _ => ⟨rfl, rfl⟩
  during := fun _ ha => by rw [hpc] at ha; cases ha
  silent := fun hlt => absurd hlt (Nat.lt_irrefl _)
  kept := fun hlt => absurd hlt (Nat.lt_irrefl _)
  now := fun hs => by rw [hpc] at hs; cases hs

section Steps
variable {s0 s u : State F} {d : String}

/-- Nothing of the round is under way, before the step or after it. -/
theorem Tracks.outside (h : Tracks s0 d s) (hs : s.pc.past = false) (hu : u.pc.past = false)
    (hp : u.probeId = s.probeId) (hroute : u.mem.route = s.mem.route) : Tracks s0 d u := by
  have hscan : s.pc.scanned = false := by
    by_contra hc
    rw [MainPc.past_of_scanned (by simpa using hc)] at hs
    cases hs
  have hno : ∀ {P : Prop}, u.pc.past = true → P := fun h => absurd (h.symm.trans hu) (by decide)
  refine ⟨by rw [hp]; exact h.round, ?_, ?_, ?_, ?_, ?_, ?_⟩
  · intro he
    rw [hp] at he
    exact absurd ((h.start he).symm.trans hs) (by decide)
  · intro _ hpc
    exact hno (by rw [hpc]; rfl)
  · exact fun _ ha => hno (MainPc.past_of_averaged ha)
  · exact fun _ ha => hno (MainPc.past_of_averaged ha)
  · intro hlt _ hd
    rw [hp] at hlt ⊢
    rw [hroute] at hd ⊢
    exact h.kept hlt hscan hd
  · exact fun hc => hno (MainPc.past_of_scanned hc)

/-- The decisions are taken, and the destination's is left alone. -/
theorem Tracks.later (h : Tracks s0 d s) (hs : s.pc.scanned = true) (hu : u.pc.scanned = true)
    (hp : u.probeId = s.probeId)
    (hroute : d ∈ u.mem.route → d ∈ s.mem.route ∧ hopAt u.mem.route d s.probeId = hopAt s.mem.route d s.probeId) :
    Tracks s0 d u := by
  have hcalc : u.pc ≠ .phase .calcAvg := fun he => by rw [he] at hu; cases hu
  have havg : u.pc.averaged = false := by
    cases hpc : u.pc with
    | phase ph =>
      rw [hpc] at hu
      cases ph <;> first | rfl | cases hu
    | _ => rfl
  refine ⟨by rw [hp]; exact h.round, fun _ => MainPc.past_of_scanned hu, fun _ hc => absurd hc hcalc, ?_, ?_, ?_, ?_⟩
  · exact fun _ ha => absurd (ha.symm.trans havg) (by decide)
  · exact fun _ ha => absurd (ha.symm.trans havg) (by decide)
  · exact fun _ hf => absurd (hf.symm.trans hu) (by decide)
  · intro _ hd
    obtain ⟨hds, hhop⟩ := hroute hd
    obtain ⟨rp, hrp, hexp⟩ := h.now hs hds
    exact ⟨rp, by rw [hp, hhop, hrp], hexp⟩

end Steps

/-! ## The scans -/

section Scans
variable {s0 s : State F} {m : Mem F} {d : String}

theorem Plain.scanThr (h : Plain s) (d : String) : scanThr s.mem d = Dbl.num 50000 := by
  rw [Pfr.scanThr, h.minRtt, ite_self]

/-- The answered round, after round 0: a peer is found, and with `rtt_least_move` off
it is taken whatever the decision before was. -/
theorem scan_answered [DblOrder F] (hq : Quiet s) (hpl : Plain s) (hav : Averaged s0 d s)
    (hans : ∃ k, k ∈ peersAt s0.mem.r d s0.probeId) (hpc : s.pc = .phase .scan) (hp : s.probeId = s0.probeId)
    (hp0 : s.probeId ≠ 0) (hs : ScanSpec s.cfg s.probeId s.mem m) : Decided s0 d m.route s.probeId := by
  obtain ⟨k, hk⟩ := hans
  rw [← hav.peers k, ← hp] at hk
  have hagg := hav.agg
  rw [← hav.metric, ← hp] at hagg
  obtain ⟨v, hrp, hfound⟩ := scanPeer_cases hpl.metric hp0 hs (mem_of_mem_peersAt hk)
  have hzero : (0 : Int) ∉ peersAt s.mem.r d s.probeId := fun h => absurd (hpl.peers d _ 0 h) (by omega)
  have hbest : scanPeer s.cfg s.probeId s.mem d ≠ 0 ∧
      IsBest (metricAt s.cfg.pathMetric (peersAt s.mem.r d s.probeId)) (scanPeer s.cfg s.probeId s.mem d) v := by
    rcases hfound with ⟨h0, hbest, -⟩ | ⟨-, ⟨w, hw⟩ | hnone | hshadow⟩
    · exact ⟨h0, hbest⟩
    · exact absurd (mem_of_metricAt hw.val) hzero
    · -- the peer that answered has a metric, and it lies below the starting value
      obtain ⟨tp, htp⟩ := Option.isSome_iff_exists.mp (hq.agg (by rw [hpc]; rfl) d k hk)
      obtain ⟨w, hw⟩ := Option.isSome_iff_exists.mp (selMetric_isSome hpl.metric tp)
      have hmet : metricAt s.cfg.pathMetric (peersAt s.mem.r d s.probeId) k = some w := by
        rw [metricAt, htp, Option.bind_some, hw]
      refine absurd ?_ (hnone k w hmet)
      rw [hpl.scanThr]
      exact hav.below k w (by rw [← hp, ← hagg, hmet])
    · exact absurd hshadow.1.2.1 hzero
  have hcurr : (chooseHop s.cfg (hopAt s.mem.route d (s.probeId - 1)) (scanPeer s.cfg s.probeId s.mem d) v).currPeerId =
      scanPeer s.cfg s.probeId s.mem d := by
    cases hopAt s.mem.route d (s.probeId - 1) with
    | none => rfl
    | some rp =>
      rw [chooseHop_curr, if_neg]
      rintro (h | ⟨h, -⟩)
      · exact hbest.1 h
      · rw [hpl.move] at h
        cases h
  refine ⟨_, hrp, ?_⟩
  rw [hcurr, Expected, if_neg (by omega), ← hp, ← funext hagg]
  exact ⟨v, hbest.2⟩

/-- Round 0 takes the first peer there is. -/
theorem scan_answered_zero (hav : Averaged s0 d s) (hans : ∃ k, k ∈ peersAt s0.mem.r d s0.probeId)
    (hp : s.probeId = s0.probeId) (hp0 : s.probeId = 0) (hs : ScanSpec s.cfg s.probeId s.mem m) :
    Decided s0 d m.route s.probeId := by
  have hpeers := hav.peers
  rw [← hp, hp0, Nat.cast_zero] at hpeers hans
  rw [hp0] at hs
  rw [hp0, Nat.cast_zero]
  rcases scan_decision_zero hs d with ⟨hnone, -⟩ | ⟨k, v, hk, hlow, hrp⟩
  · obtain ⟨k, hk⟩ := hans
    rw [← hpeers, hnone] at hk
    exact absurd hk ExtTreeMap.not_mem_empty
  · refine ⟨_, hrp, ?_⟩
    rw [Expected, if_pos (by omega), ← hp, hp0, Nat.cast_zero]
    exact ⟨(hpeers k).mp hk, fun k' hk' => hlow k' ((hpeers k').mpr hk')⟩

/-- A silent round keeps the peer of the decision before. -/
theorem scan_silent (hq : Quiet s) (h : Tracks s0 d s) (hpc : s.pc = .phase .scan) (hlt : s0.probeId < s.probeId)
    (hs : ScanSpec s.cfg s.probeId s.mem m) : Decided s0 d m.route s.probeId := by
  obtain ⟨hd, hnone⟩ := h.silent hlt (by rw [hpc]; rfl)
  obtain ⟨rp, hprev, hexp⟩ := h.kept hlt (by rw [hpc]; rfl) hd
  have hpeer : scanPeer s.cfg s.probeId s.mem d = 0 := by
    rcases pickLoop_peer s.cfg.pathMetric (Pfr.scanThr s.mem d) (peersAt s.mem.r d s.probeId) with h | h
    · exact h
    · exact absurd h (hnone _)
  obtain ⟨v, hrp, -⟩ := scan_decision (by omega) hs (hq.maps.routeSub d hd)
  refine ⟨_, hrp, ?_⟩
  rw [hpeer, hprev, chooseHop_curr, if_pos (Or.inl rfl)]
  exact hexp

end Scans

/-! ## The steps -/

section Moves
variable {s0 s : State F} {d : String}

/-- The average of the answered round, or of a silent one. -/
theorem Tracks.calcAvg (h : Tracks s0 d s) (hans : ∃ k, k ∈ peersAt s0.mem.r d s0.probeId)
    (hpc : s.pc = .phase .calcAvg) (hbelow : BelowCut s .phase) (hsil : SilentSince d s0.probeId s .phase)
    {r' : RData F} (hr : pfrCalcAvgRtt s.cfg s.probeId s.mem.r = some r') :
    Tracks s0 d { s with mem := { s.mem with r := r' }, pc := .phase .calcStddev } := by
  refine ⟨h.round, fun _ => rfl, fun _ => vacuous rfl, ?_, ?_, fun hlt _ hd => h.kept hlt (by rw [hpc]; rfl) hd,
    vacuous rfl⟩
  · intro hp _
    change s.probeId = s0.probeId at hp
    obtain ⟨hcfg, hsame⟩ := h.before hp hpc
    obtain ⟨k0, hk0⟩ := hans
    have hd : d ∈ s.mem.r := by
      rw [hsame]
      exact mem_of_mem_peersAt hk0
    have hcut := hbelow hpc d (ExtTreeMap.mem_keys.mpr hd)
    rw [hp] at hr hcut
    refine ⟨congrArg Config.pathMetric hcfg, ?_, ?_, ?_⟩
    · intro k
      change k ∈ peersAt r' d s0.probeId ↔ _
      rw [mem_peersAt_mapPeers hr hd, hsame]
    · intro k
      change metricAt s0.cfg.pathMetric (peersAt r' d s0.probeId) k = _
      rw [← hcfg, metricAt_calcAvg hr hd, hsame]
    · intro k w hw
      rw [← hcfg, ← hsame] at hw
      refine hcut k (ExtTreeMap.mem_keys.mpr ?_) w hw
      by_contra hk
      rw [roundMetric, ExtTreeMap.getElem?_eq_none hk] at hw
      cases hw
  · intro hlt _
    obtain ⟨hd, hempty⟩ := hsil hpc (Nat.ne_of_gt hlt)
    refine ⟨hd, fun k hk => ?_⟩
    have hk' := mem_peersAt_of_map hr hk
    rw [ExtTreeMap.isEmpty_iff.mp hempty] at hk'
    exact ExtTreeMap.not_mem_empty hk'

/-- The deviation changes no metric. -/
theorem Tracks.calcStddev (h : Tracks s0 d s) (hans : ∃ k, k ∈ peersAt s0.mem.r d s0.probeId)
    (hpc : s.pc = .phase .calcStddev) {r' : RData F} (hr : pfrCalcStddevRtt s.probeId s.mem.r = some r') :
    Tracks s0 d { s with mem := { s.mem with r := r' }, pc := .phase .scan } := by
  refine ⟨h.round, fun _ => rfl, fun _ => vacuous rfl, ?_, ?_, fun hlt _ hd => h.kept hlt (by rw [hpc]; rfl) hd,
    vacuous rfl⟩
  · intro hp _
    have hav := h.during hp (by rw [hpc]; rfl)
    change s.probeId = s0.probeId at hp
    obtain ⟨k0, hk0⟩ := hans
    have hd : d ∈ s.mem.r := mem_of_mem_peersAt ((hav.peers k0).mpr hk0)
    rw [hp] at hr
    refine ⟨hav.metric, ?_, ?_, hav.below⟩
    · intro k
      exact (mem_peersAt_mapPeers hr hd).trans (hav.peers k)
    · intro k
      exact (metricAt_calcStddev hr hd k).trans (hav.agg k)
  · intro hlt _
    obtain ⟨hd, hnone⟩ := h.silent hlt (by rw [hpc]; rfl)
    exact ⟨hd, fun k hk => hnone k (mem_peersAt_of_map hr hk)⟩

theorem Tracks.free (h : Tracks s0 d s) (hq : Quiet s) (hpc : s.pc = .phase .free) :
    Tracks s0 d { s with mem := pfrRouteFree s.probeId s.mem, pc := .phase .delete } := by
  have hscan : s.pc.scanned = true := by rw [hpc]; rfl
  refine h.later hscan rfl rfl ?_
  intro hd
  have hhop := free_hopAt (p := s.probeId) s.mem d (q := s.probeId) (by omega)
  -- an entry the function created would have a decision too, so there is none
  obtain ⟨rp, hrp⟩ := Option.isSome_iff_exists.mp (((hq.routed hscan).of_free hq.maps) d (Or.inl hd))
  exact ⟨mem_of_hopAt (hhop.symm.trans hrp), hhop⟩

theorem Tracks.erased {u : State F} {gone : String → Prop} [DecidablePred gone] (h : Tracks s0 d s)
    (hs : s.pc.scanned = true) (hu : u.pc.scanned = true) (hp : u.probeId = s.probeId)
    (hroute : ∀ d, u.mem.route[d]? = if gone d then none else s.mem.route[d]?) : Tracks s0 d u := by
  refine h.later hs hu hp ?_
  intro hd
  obtain ⟨hg, hd⟩ := (ExtTreeMap.mem_of_erased hroute).mp hd
  exact ⟨hd, hopAt_congr (by rw [hroute, if_neg hg]) _⟩

theorem Tracks.phase [DblOrder F] (h : Tracks s0 d s) (hq : Quiet s) (hpl : Plain s)
    (hans : ∃ k, k ∈ peersAt s0.mem.r d s0.probeId) (hbelow : BelowCut s .phase)
    (hsil : SilentSince d s0.probeId s .phase) {ph : Phase} {m : Mem F} (hpc : s.pc = .phase ph)
    (hrun : runPhase s.cfg s.probeId s.pfrList s.mem ph = some m) :
    Tracks s0 d { s with mem := m, pc := ph.next } := by
  cases ph with
  | update =>
    have hs := update_spec hrun
    -- the answered round is past its update, so the round is a later one
    have hlate : s.probeId ≠ s0.probeId := fun he => by
      have := h.start he
      rw [hpc] at this
      cases this
    refine ⟨h.round, fun he => absurd he hlate, fun he => absurd he hlate, fun _ => vacuous rfl, fun _ => vacuous rfl,
      ?_, vacuous rfl⟩
    intro hlt _ hd
    obtain ⟨hg, hd⟩ := (ExtTreeMap.mem_of_erased hs.route).mp hd
    obtain ⟨rp, hrp, hexp⟩ := h.kept hlt (by rw [hpc]; rfl) hd
    exact ⟨rp, by rw [← hrp]; exact hopAt_congr (by rw [hs.route, if_neg hg]) _, hexp⟩
  | calcAvg =>
    obtain ⟨r', hr, rfl⟩ := Option.map_eq_some_iff.mp hrun
    exact h.calcAvg hans hpc hbelow hsil hr
  | calcStddev =>
    obtain ⟨r', hr, rfl⟩ := Option.map_eq_some_iff.mp hrun
    exact h.calcStddev hans hpc hr
  | scan =>
    have hs := scan_spec hrun
    refine ⟨h.round, fun _ => rfl, fun _ => vacuous rfl, fun _ => vacuous rfl, fun _ => vacuous rfl,
      fun _ => vacuous rfl, ?_⟩
    intro _ _
    change Decided s0 d m.route s.probeId
    -- a later round is silent and keeps the peer, the answered one chooses it
    rcases Nat.lt_or_eq_of_le h.round with hlt | heq
    · exact scan_silent hq h hpc hlt hs
    · have hav := h.during heq.symm (by rw [hpc]; rfl)
      by_cases hp0 : s.probeId = 0
      · exact scan_answered_zero hav hans heq.symm hp0 hs
      · exact scan_answered hq hpl hav hans hpc heq.symm hp0 hs
  | free =>
    cases hrun
    exact h.free hq hpc
  | delete => exact h.erased (by rw [hpc]; rfl) rfl rfl (delete_spec hrun).route
  | man =>
    refine h.later (by rw [hpc]; rfl) rfl rfl fun hd => ?_
    change d ∈ m.route at hd
    change d ∈ s.mem.route ∧ hopAt m.route d s.probeId = _
    rw [(routesMan_frame hrun).2.1] at hd ⊢
    exact ⟨hd, rfl⟩

/-- Nothing the invariant speaks of has moved. -/
theorem Tracks.same {u : State F} (h : Tracks s0 d s) (hpc : u.pc = s.pc) (hp : u.probeId = s.probeId)
    (hcfg : u.cfg = s.cfg) (hr : u.mem.r = s.mem.r) (hroute : u.mem.route = s.mem.route) : Tracks s0 d u := by
  refine ⟨?_, ?_, ?_, ?_, ?_, ?_, ?_⟩ <;> simp only [hpc, hp, hr, hroute]
  · exact h.round
  · exact h.start
  · rw [hcfg]
    exact h.before
  · intro he ha
    have hav := h.during he ha
    exact ⟨by rw [hcfg]; exact hav.metric, by rw [hr]; exact hav.peers, by rw [hr]; exact hav.agg, hav.below⟩
  · exact h.silent
  · exact h.kept
  · exact h.now

/-- **Every step of the runs considered keeps what the answered round left.** -/
theorem Tracks.move [DblOrder F] {u : State F} {e : Event F} (h : Tracks s0 d s) (hq : Quiet s) (hpl : Plain s)
    (hans : ∃ k, k ∈ peersAt s0.mem.r d s0.probeId) (hG : ExactSince d s0.probeId s e)
    (hx : s.pc ≠ .exited) (hm : Move s e u) : Tracks s0 d u := by
  have hpast : s.pc.holding = false → s.pc.past = false := by
    intro hh
    have ho := MainPc.outside hh hx
    cases hpc : s.pc with
    | top | joined | asked => rfl
    | phase | signals | release => rw [hpc] at hh; cases hh
    | exited => exact absurd hpc hx
  cases hm with
  | arrive x => exact h.same rfl rfl rfl rfl rfl
  | receive x rest hr hsock =>
    cases x with
    | none => exact h.same rfl rfl rfl rfl rfl
    | some x =>
      have hfree : s.pc.holding = false := by
        by_contra hh
        have := hG.1.1 (by simpa using hh)
        rw [records, hsock] at this
        cases this
      exact h.outside (hpast hfree) (hpast hfree) rfl rfl
  | timeout => exact h.same rfl rfl rfl rfl rfl
  | ack => exact h.same rfl rfl rfl rfl rfl
  | start l hpc => exact h.outside (by rw [hpc]; rfl) rfl rfl rfl
  | ask hpc => exact h.outside (by rw [hpc]; rfl) rfl rfl rfl
  | take hpc _ => exact h.outside (by rw [hpc]; rfl) rfl rfl rfl
  | skip hpc hno => exact absurd (hno.symm.trans hG.1.2.1) (by decide)
  | phase ph m hpc hrun => exact h.phase hq hpl hans hG.1.2.2.2 hG.2 hpc hrun
  | resume hpc => exact h.later (by rw [hpc]; rfl) (clear_scanned _) rfl fun hd => ⟨hd, rfl⟩
  | shutdown m hpc hrun => exact h.erased (by rw [hpc]; rfl) rfl rfl (deleteWalk_spec hrun).route
  | reread cfg v hpc => exact h.later (by rw [hpc]; rfl) (clear_scanned _) rfl fun hd => ⟨hd, rfl⟩
  | rereadFail hpc => exact h.later (by rw [hpc]; rfl) rfl rfl fun hd => ⟨hd, rfl⟩
  | release hpc =>
    have hround := h.round
    have hlate : s.probeId + 1 ≠ s0.probeId := by omega
    refine ⟨Nat.le_succ_of_le hround, fun he => absurd he hlate, fun he => absurd he hlate, fun _ => vacuous rfl,
      fun _ => vacuous rfl, ?_, vacuous rfl⟩
    intro _ _ hd
    have hnow := h.now (by rw [hpc]; rfl) hd
    change Decided s0 d s.mem.route ((s.probeId + 1 : Nat) - 1 : Int)
    rwa [show ((s.probeId + 1 : Nat) - 1 : Int) = s.probeId by omega]

end Moves

/-! ## The refinement -/

/-- **Path selection is the best peer of the last answered round.** `s0` is the state
in which `pfr_calc_avg_rtt` is about to run in a round in which `d` was heard; `s` is
any later state past the scan of its round, `d` having stayed in `route` unheard. -/
theorem best_of_last_answered [DblOrder F] {cfg : Config} {mm : PeerMap} {s0 s : State F} {d : String}
    (hmove : cfg.rttLeastMove = false) (hpm : cfg.pathMetric.Read)
    (h0 : Lts.Path step Exact (State.init cfg (Dbl.num 50000) mm) s0) (hpc0 : s0.pc = .phase .calcAvg)
    (hans : ∃ k, k ∈ peersAt s0.mem.r d s0.probeId)
    (h : Lts.Path step (ExactSince d s0.probeId) s0 s) (hscan : s.pc.scanned = true)
    (hd : d ∈ s.mem.route) :
    ∃ rp, hopAt s.mem.route d s.probeId = some rp ∧ Expected s0 d rp.currPeerId := by
  have hquiet : ∀ t, Lts.Path step Exact (State.init cfg (Dbl.num 50000 : F) mm) t → Quiet t :=
    fun t ht => quiet_path (ht.mono fun _ _ hG => hG.1)
  have hplain : ∀ t, Lts.Path step Exact (State.init cfg (Dbl.num 50000 : F) mm) t → Plain t :=
    fun t ht => Path.preserves (plain_init hmove hpm mm) (fun _ _ _ hI hG _ hm => hI.step hG.2.2.1 hm) ht
  have htracks : Tracks s0 d s := by
    refine Lts.Path.invariant_on (J := fun t => Lts.Path step Exact (State.init cfg (Dbl.num 50000 : F) mm) t)
      (fun t ht => h0.trans (ht.mono fun _ _ hG => hG.1)) (tracks_self d hpc0) ?_ h
    intro t e u ht hI hG hs
    obtain ⟨hx, hm⟩ := move_of_step hs
    exact hI.move (hquiet t ht) (hplain t ht) hans hG hx hm
  exact htracks.now hscan hd

/-- Round 0 is answered by peer 2, round 1 by both, peer 2 being the faster, and round 2
by nobody. -/
theorem best_of_last_answered_run : ∃ s0 s : State ℚ,
    (Lts.Path step Exact (State.init { Config.default with rttLeastMove := false } (Dbl.num 50000)
        (.ofRows [(1, ⟨"192.0.2.1", "1:1"⟩), (2, ⟨"192.0.2.2", "1:2"⟩)])) s0 ∧
      Lts.Path step (ExactSince "198.51.100.7" s0.probeId) s0 s ∧ s0.probeId = 1 ∧ s.probeId = 2) ∧
    ∃ rp, hopAt s.mem.route "198.51.100.7" s.probeId = some rp ∧ Expected s0 "198.51.100.7" rp.currPeerId := by
  obtain ⟨s0, h0, hpc0, hp0, hans, hrest⟩ := exists_run (G := Exact)
    (State.init { Config.default with rttLeastMove := false } (Dbl.num 50000 : ℚ)
      (.ofRows [(1, ⟨"192.0.2.1", "1:1"⟩), (2, ⟨"192.0.2.2", "1:2"⟩)]))
    (roundEvents ["198.51.100.7"] [⟨"198.51.100.7", 0, 2, 1, 10, 0⟩] ++
      (roundEvents ["198.51.100.7"] [⟨"198.51.100.7", 1, 1, 1, 30, 1⟩, ⟨"198.51.100.7", 1, 2, 1, 25, 1⟩]).take 12)
    (fun s0 => s0.pc = .phase .calcAvg ∧ s0.probeId = 1 ∧ (2 : Int) ∈ peersAt s0.mem.r "198.51.100.7" s0.probeId ∧
      ((Lts.runG step (ExactSince "198.51.100.7" s0.probeId) s0
          ([.phase, .phase, .phase, .phase, .phase, .signals .none, .phase, .release] ++
            (roundEvents ["198.51.100.7"] []).take 9)).any
        fun s => decide (s.pc.scanned = true ∧ s.probeId = 2 ∧ "198.51.100.7" ∈ s.mem.route)) = true)
    (by decide +kernel)
  obtain ⟨s, h, hscan, hp, hd⟩ := exists_run s0 _ _ hrest
  exact ⟨s0, s, ⟨h0, h, hp0, hp⟩,
    best_of_last_answered rfl (by decide) h0 hpc0 ⟨2, hans⟩ h hscan hd⟩

end Pfr

import Pfr.Records

/- When no phase reads a missing record. Most reads of the maps are not guarded;
   what makes them safe is that nothing is recorded while `main` holds
   `mt_req_send`.

   1. `SamplesInv`, `AggInv`, `Routed`: every peer has samples and no NULL among
      them; from `pfr_calc_avg_rtt` on every peer of the round has an aggregate; from
      `pfr_route_scan` on every destination has a decision of the round;
   2. `Quiet.move`: a step that is `Undisturbed` keeps these;
   3. `no_missing_record`: no phase of such a run dereferences NULL, and the average
      never divides by zero.

   A reply recorded between the average and the scan breaks `AggInv`, and one for a
   new destination recorded after the scan breaks `Routed`. -/
namespace Pfr

open Std

variable {F : Type}

/-- Every peer of every round has samples, none of them NULL. -/
def SamplesInv (r : RData F) : Prop :=
  ∀ (d : String) (q k : Int) (samples : Samples F), (peersAt r d q)[k]? = some samples → SamplesOk samples

/-- Every peer of the round has samples, none of them NULL. -/
def RoundSamples (q : Int) (r : RData F) : Prop :=
  ∀ (d : String) (k : Int) (samples : Samples F), (peersAt r d q)[k]? = some samples → SamplesOk samples

/-- Every peer of the round has its aggregate. -/
def AggInv (p : Int) (r : RData F) : Prop :=
  ∀ (d : String) (k : Int), k ∈ peersAt r d p → (aggAt (peersAt r d p) k).isSome

/-- Every destination has its decision of the round; in round 0, if it is in `route`. -/
def Routed (p : Nat) (m : Mem F) : Prop :=
  ∀ d, d ∈ m.route ∨ (p ≠ 0 ∧ d ∈ m.r) → (hopAt m.route d p).isSome

theorem peersAt_of_not_mem {r : RData F} {d : String} (h : d ∉ r) (q k : Int) : (peersAt r d q)[k]? = none := by
  rw [peersAt, ExtTreeMap.idx_of_not_mem h]
  change ((∅ : Probes F).idx q)[k]? = none
  rw [ExtTreeMap.idx_empty]
  change (∅ : Peers F)[k]? = none
  simp

/-! ## The samples -/

theorem SamplesInv.of_erase {r r' : RData F} {gone : String → Prop} [DecidablePred gone] (h : SamplesInv r)
    (hr : ∀ d, r'[d]? = if gone d then none else r[d]?) : SamplesInv r' := by
  intro d q k samples hs
  by_cases hg : gone d
  · rw [peersAt_of_not_mem (fun hd => ((ExtTreeMap.mem_of_erased hr).mp hd).1 hg)] at hs
    cases hs
  · rw [peersAt, ExtTreeMap.idx_congr (by rw [hr, if_neg hg] : r'[d]? = r[d]?)] at hs
    exact h d q k samples hs

/-- A phase over the round's peers keeps the other rounds. -/
theorem SamplesInv.of_round {r r' : RData F} {g : Samples F → Option (Samples F)} {p : Int} (h : SamplesInv r)
    (hr : mapPeers g p r = some r') (hround : RoundSamples p r') : SamplesInv r' := by
  intro d q k samples hs
  by_cases hq : p = q
  · subst hq
    exact hround d k samples hs
  · rw [peersAt_mapPeers_ne hr d hq] at hs
    exact h d q k samples hs

/-- A phase whose function leaves samples and an aggregate leaves them at every peer. -/
theorem RoundSamples.of_map {r r' : RData F} {g : Samples F → Option (Samples F)} {p : Int}
    (hr : mapPeers g p r = some r')
    (hg : ∀ (d : String) (k : Int) (s : Samples F), (peersAt r d p)[k]? = some s →
      ∃ t, g s = some t ∧ SamplesOk t ∧ (t.idx 99).isSome) :
    RoundSamples p r' ∧ AggInv p r' := by
  have hpeer : ∀ (d : String) (k : Int) (samples : Samples F), (peersAt r' d p)[k]? = some samples →
      SamplesOk samples ∧ (samples.idx 99).isSome := by
    intro d k samples hs
    by_cases hd : d ∈ r
    · rw [peersAt_mapPeers hr hd] at hs
      obtain ⟨s, hs0, hgs⟩ := Option.bind_eq_some_iff.mp hs
      obtain ⟨t, ht, hok⟩ := hg d k s hs0
      rw [hgs] at ht
      cases ht
      exact hok
    · rw [peersAt_of_not_mem (fun hm => hd ((mem_mapPeers hr).mp hm))] at hs
      cases hs
  refine ⟨fun d k samples hs => (hpeer d k samples hs).1, ?_⟩
  intro d k hk
  rw [aggAt]
  exact (hpeer d k _ (ExtTreeMap.getElem?_idx hk)).2

theorem SamplesInv.of_free {m : Mem F} (h : SamplesInv m.r) (p : Nat) : SamplesInv (pfrRouteFree p m).r := by
  by_cases hp : p < 2
  · rw [free_small m hp]
    exact h
  · intro d q k samples hs
    have hget := free_r m (show 2 ≤ p by omega) d
    by_cases hd : d ∈ m.r
    · obtain ⟨probes, hprobes⟩ := ExtTreeMap.exists_getElem? hd
      rw [hprobes, Option.map_some] at hget
      rw [peersAt, ExtTreeMap.idx_of_getElem? hget, ExtTreeMap.idx_insert] at hs
      split at hs
      · simp at hs
      · apply h d q k samples
        rw [peersAt, ExtTreeMap.idx_of_getElem? hprobes]
        exact hs
    · rw [peersAt_of_not_mem (fun hm => hd ((free_mem_r m).mp hm))] at hs
      cases hs

variable [Dbl F]

/-- A reply leaves the samples of its round such, if they are. -/
theorem RoundSamples.record {r : RData F} {q : Int} (h : RoundSamples q r) (x : Reply F) :
    RoundSamples q (record x r) := by
  intro d k samples hs
  rw [peersAt_record] at hs
  split at hs
  · rw [ExtTreeMap.getElem?_upd] at hs
    split at hs
    · cases hs
      apply samplesOk_putSample
      intro s v hv
      by_cases hk : x.peerId ∈ peersAt r d q
      · exact (h d x.peerId _ (ExtTreeMap.getElem?_idx hk)).notNull s v hv
      · rw [ExtTreeMap.idx_of_not_mem hk] at hv
        change (∅ : Samples F)[s]? = some v at hv
        simp at hv
    · exact h d k samples hs
  · exact h d k samples hs

theorem SamplesInv.record {r : RData F} (h : SamplesInv r) (x : Reply F) : SamplesInv (record x r) :=
  fun d q => (RoundSamples.record (fun d => h d q) x) d

/-- The average leaves an aggregate at every peer of the round. -/
theorem RoundSamples.calcAvg {cfg : Config} {p : Int} {r r' : RData F} (h : RoundSamples p r)
    (hr : pfrCalcAvgRtt cfg p r = some r') : RoundSamples p r' ∧ AggInv p r' :=
  RoundSamples.of_map hr fun d k s hs => calcPeer_of_ok cfg (h d k s hs)

theorem RoundSamples.calcAvg_isSome {p : Int} {r : RData F} (h : RoundSamples p r) (cfg : Config) :
    ∃ r', pfrCalcAvgRtt cfg p r = some r' := by
  refine mapPeers_isSome ?_
  intro d k samples hs
  obtain ⟨s', hs', -⟩ := calcPeer_of_ok cfg (h d k samples hs)
  rw [hs']
  rfl

theorem SamplesInv.calcAvg {cfg : Config} {p : Int} {r r' : RData F} (h : SamplesInv r)
    (hr : pfrCalcAvgRtt cfg p r = some r') : SamplesInv r' ∧ AggInv p r' := by
  obtain ⟨hround, hagg⟩ := RoundSamples.calcAvg (fun d => h d p) hr
  exact ⟨h.of_round hr hround, hagg⟩

omit [Dbl F] in
theorem AggInv.idx_isSome {p : Int} {r : RData F} (h : AggInv p r) {d : String} {k : Int} {s : Samples F}
    (hs : (peersAt r d p)[k]? = some s) : (s.idx 99).isSome := by
  have := h d k (ExtTreeMap.mem_of_getElem? hs)
  rwa [aggAt, ExtTreeMap.idx_of_getElem? hs] at this

/-- With the aggregates there the deviation ends. -/
theorem RoundSamples.calcStddev_isSome {p : Int} {r : RData F} (h : RoundSamples p r) (hagg : AggInv p r) :
    ∃ r', pfrCalcStddevRtt p r = some r' := by
  refine mapPeers_isSome ?_
  intro d k samples hs
  obtain ⟨s', hs', -⟩ := stddevPeer_of_ok (h d k samples hs) (hagg.idx_isSome hs)
  rw [hs']
  rfl

/-- It keeps them there. -/
theorem SamplesInv.calcStddev {p : Int} {r r' : RData F} (h : SamplesInv r) (hagg : AggInv p r)
    (hr : pfrCalcStddevRtt p r = some r') : SamplesInv r' ∧ AggInv p r' := by
  obtain ⟨hround, hagg'⟩ := RoundSamples.of_map hr fun d k s hs => stddevPeer_of_ok (h d p k s hs) (hagg.idx_isSome hs)
  exact ⟨h.of_round hr hround, hagg'⟩

/-- With the aggregates there, the scan's reads insert nothing. -/
theorem SamplesInv.scan {cfg : Config} {p : Nat} {m m' : Mem F} (h : SamplesInv m.r) (hagg : AggInv p m.r)
    (hs : ScanSpec cfg p m m') : SamplesInv m'.r := by
  intro d q k samples hk
  by_cases hd : d ∈ m.r
  · obtain ⟨out, hout, hr, -⟩ := hs.dst d hd
    obtain ⟨peers, hpr, hpeers⟩ := scanDst_probes hout
    rw [peersAt, hr, hpr, ExtTreeMap.idx_insert] at hk
    split at hk
    · next he =>
      subst he
      rcases hpeers k with he | he
      · rw [he] at hk
        exact h d p k samples hk
      · rw [he] at hk
        obtain ⟨s, hs0, rfl⟩ := Option.map_eq_some_iff.mp hk
        have h99 : (99 : Int) ∈ s := by
          by_contra hno
          have hsome := hagg.idx_isSome (d := d) (k := k) (s := s) hs0
          rw [ExtTreeMap.idx_of_not_mem hno] at hsome
          cases hsome
        rw [ExtTreeMap.upd_id_of_mem h99]
        exact h d p k s hs0
    · exact h d q k samples hk
  · rw [peersAt_of_not_mem (fun hm => hd ((hs.mem_r d).mp hm))] at hk
    cases hk

/-! ## The decisions -/

theorem Routed.of_scan {cfg : Config} {p : Nat} {m m' : Mem F} (hfresh : p = 0 → ∀ d, d ∉ m.route)
    (h : RecInv m) (hs : ScanSpec cfg p m m') : Routed p m' := by
  intro d hd
  have hget : ∀ rp, m'.route[d]? = some ((m.route.idx d).insert p (some rp)) → (hopAt m'.route d p).isSome := by
    intro rp he
    rw [hopAt, ExtTreeMap.idx_of_getElem? he, ExtTreeMap.idx_insert, if_pos rfl]
    rfl
  rcases scan_hops hs d with heq | ⟨-, rp, heq⟩
  · -- only round 0 leaves a destination of `r` without a decision, and then `route` has none of it
    have hno : d ∉ m.route → d ∉ m'.route := by
      intro hno hm
      rw [ExtTreeMap.mem_iff_isSome_getElem?, heq, ← ExtTreeMap.mem_iff_isSome_getElem?] at hm
      exact hno hm
    by_cases hp : p = 0
    · rcases hd with hd | hd
      · exact absurd hd (hno (hfresh hp d))
      · exact absurd hp hd.1
    · have hdr : d ∈ m.r := by
        rcases hd with hd | hd
        · exact h.routeSub d (by by_contra hn; exact hno hn hd)
        · exact (hs.mem_r d).mp hd.2
      obtain ⟨out, hout, -, hroute, -⟩ := hs.dst d hdr
      obtain ⟨prev, v, -, hsome, -⟩ := scanDst_pos hp hout
      rw [hsome] at hroute
      exact hget _ hroute
  · exact hget rp heq

omit [Dbl F] in
theorem Routed.of_erase {p : Nat} {m m' : Mem F} {gone : String → Prop} [DecidablePred gone] (h : Routed p m)
    (hr : ∀ d, m'.r[d]? = if gone d then none else m.r[d]?)
    (hroute : ∀ d, m'.route[d]? = if gone d then none else m.route[d]?) : Routed p m' := by
  intro d hd
  rw [ExtTreeMap.mem_of_erased hroute, ExtTreeMap.mem_of_erased hr] at hd
  have hg : ¬gone d := by
    rcases hd with hd | hd
    · exact hd.1
    · exact hd.2.1
  rw [hopAt_congr (by rw [hroute, if_neg hg] : m'.route[d]? = m.route[d]?)]
  apply h d
  rcases hd with hd | hd
  · exact Or.inl hd.2
  · exact Or.inr ⟨hd.1, hd.2.2⟩

omit [Dbl F] in
theorem Routed.of_free {p : Nat} {m : Mem F} (h : Routed p m) (hrec : RecInv m) : Routed p (pfrRouteFree p m) := by
  intro d hd
  rw [free_hopAt m d (by omega)]
  by_cases hp : p < 2
  · rw [free_small m hp] at hd
    exact h d hd
  · refine h d (Or.inr ⟨by omega, ?_⟩)
    rcases hd with hd | hd
    · exact (free_mem_r m).mp ((hrec.of_free p).routeSub d hd)
    · exact (free_mem_r m).mp hd.2

/-! ## The runs -/

structure Quiet (s : State F) : Prop where
  maps : RecInv s.mem
  samples : SamplesInv s.mem.r
  agg : s.pc.averaged = true → AggInv s.probeId s.mem.r
  fresh : s.probeId = 0 → s.pc.scanned = false → ∀ d, d ∉ s.mem.route
  routed : s.pc.scanned = true → Routed s.probeId s.mem

omit [Dbl F] in
theorem quiet_init (cfg : Config) (v : F) (mm : PeerMap) : Quiet (State.init cfg v mm) where
  maps := recInv_init cfg v mm
  samples := by
    intro d q k samples hs
    change (peersAt ∅ d q)[k]? = some samples at hs
    rw [peersAt_of_not_mem ExtTreeMap.not_mem_empty] at hs
    cases hs
  agg := vacuous rfl
  fresh := fun _ _ _ => ExtTreeMap.not_mem_empty
  routed := vacuous rfl

/-- Each phase, from its own place in the round, leaves what the next place asks for. -/
theorem Quiet.phase {s : State F} {ph : Phase} {m : Mem F} (h : Quiet s) (hpc : s.pc = .phase ph)
    (hrun : runPhase s.cfg s.probeId s.pfrList s.mem ph = some m) :
    Quiet { s with mem := m, pc := ph.next } := by
  have hmaps := h.maps.phase hrun
  cases ph with
  | update =>
    have hs := update_spec hrun
    refine ⟨hmaps, h.samples.of_erase hs.r, vacuous rfl, ?_, vacuous rfl⟩
    intro hp _ d hd
    exact h.fresh hp (by rw [hpc]; rfl) d ((ExtTreeMap.mem_of_erased hs.route).mp hd).2
  | calcAvg =>
    obtain ⟨r', hr, rfl⟩ := Option.map_eq_some_iff.mp hrun
    have hc := h.samples.calcAvg hr
    exact ⟨hmaps, hc.1, fun _ => hc.2, fun hp _ => h.fresh hp (by rw [hpc]; rfl), vacuous rfl⟩
  | calcStddev =>
    obtain ⟨r', hr, rfl⟩ := Option.map_eq_some_iff.mp hrun
    have hc := h.samples.calcStddev (h.agg (by rw [hpc]; rfl)) hr
    exact ⟨hmaps, hc.1, fun _ => hc.2, fun hp _ => h.fresh hp (by rw [hpc]; rfl), vacuous rfl⟩
  | scan =>
    have hs := scan_spec hrun
    exact ⟨hmaps, h.samples.scan (h.agg (by rw [hpc]; rfl)) hs, vacuous rfl, fun _ => vacuous rfl,
      fun _ => Routed.of_scan (fun hp => h.fresh hp (by rw [hpc]; rfl)) h.maps hs⟩
  | free =>
    cases hrun
    exact ⟨hmaps, h.samples.of_free _, vacuous rfl, fun _ => vacuous rfl, fun _ => (h.routed (by rw [hpc]; rfl)).of_free h.maps⟩
  | delete =>
    have hs := delete_spec hrun
    exact ⟨hmaps, h.samples.of_erase hs.r, vacuous rfl, fun _ => vacuous rfl,
      fun _ => (h.routed (by rw [hpc]; rfl)).of_erase hs.r hs.route⟩
  | man =>
    obtain ⟨hr, hroute, -⟩ := routesMan_frame hrun
    refine ⟨hmaps, by rw [hr]; exact h.samples, vacuous rfl, fun _ => vacuous rfl, ?_⟩
    intro _ d hd
    rw [hr, hroute] at hd
    rw [hroute]
    exact h.routed (by rw [hpc]; rfl) d hd

omit [Dbl F] in
/-- The signals are looked at with the decisions in place, and what follows needs no more. -/
theorem Quiet.clear {s : State F} (h : Quiet s) (hpc : s.pc = .signals) (cfg : Config) (v : F) :
    Quiet { s with cfg := cfg, mem := { s.mem with minRtt := v } }.clear where
  maps := h.maps.minRtt v
  samples := h.samples
  agg := fun ha => by rw [clear_averaged] at ha; cases ha
  fresh := fun _ hs => by rw [clear_scanned] at hs; cases hs
  routed := fun _ => h.routed (by rw [hpc]; rfl)

/-- **Every undisturbed step keeps the records.** -/
theorem Quiet.move {s t : State F} {e : Event F} (h : Quiet s) (hG : Undisturbed s e) (hx : s.pc ≠ .exited)
    (hm : Move s e t) : Quiet t := by
  have hmaps := h.maps.move hm
  cases hm with
  | arrive x => exact ⟨hmaps, h.samples, h.agg, h.fresh, h.routed⟩
  | receive x rest hr hsock =>
    cases x with
    | none => exact ⟨hmaps, h.samples, h.agg, h.fresh, h.routed⟩
    | some x =>
      have hfree : s.pc.holding = false := by
        by_contra hh
        have := hG (by simpa using hh)
        rw [records, hsock] at this
        cases this
      -- outside the critical section no aggregate and no decision of the round is due yet
      have hpc := MainPc.outside hfree hx
      refine ⟨hmaps, h.samples.record x, ?_, h.fresh, ?_⟩
      · intro ha
        rw [hpc.1] at ha
        cases ha
      · intro hs
        rw [hpc.2] at hs
        cases hs
  | timeout => exact ⟨hmaps, h.samples, h.agg, h.fresh, h.routed⟩
  | ack => exact ⟨hmaps, h.samples, h.agg, h.fresh, h.routed⟩
  | start l hpc => exact ⟨hmaps, h.samples, vacuous rfl, fun hp _ => h.fresh hp (by rw [hpc]; rfl), vacuous rfl⟩
  | ask hpc => exact ⟨hmaps, h.samples, vacuous rfl, fun hp _ => h.fresh hp (by rw [hpc]; rfl), vacuous rfl⟩
  | take hpc _ => exact ⟨hmaps, h.samples, vacuous rfl, fun hp _ => h.fresh hp (by rw [hpc]; rfl), vacuous rfl⟩
  | skip hpc _ => exact ⟨hmaps, h.samples, vacuous rfl, fun hp _ => absurd hp (by simp), vacuous rfl⟩
  | phase ph m hpc hrun => exact h.phase hpc hrun
  | resume hpc => exact h.clear hpc s.cfg s.mem.minRtt
  | shutdown m hpc hrun =>
    have hs := deleteWalk_spec hrun
    exact ⟨hmaps, h.samples.of_erase hs.r, vacuous rfl, fun _ => vacuous rfl,
      fun _ => (h.routed (by rw [hpc]; rfl)).of_erase hs.r hs.route⟩
  | reread cfg v hpc => exact h.clear hpc cfg v
  | rereadFail hpc => exact ⟨hmaps, h.samples, vacuous rfl, fun _ => vacuous rfl, fun _ => h.routed (by rw [hpc]; rfl)⟩
  | release hpc => exact ⟨hmaps, h.samples, vacuous rfl, fun hp _ => absurd hp (by simp), vacuous rfl⟩

theorem quiet_path {cfg : Config} {v : F} {mm : PeerMap} {s : State F}
    (h : Lts.Path step Undisturbed (State.init cfg v mm) s) : Quiet s :=
  Path.preserves (quiet_init cfg v mm) (fun _ _ _ hI hG hx hm => hI.move hG hx hm) h

/-- With the records in place every phase reaches its end. -/
theorem Quiet.runPhase_isSome {s : State F} (h : Quiet s) {ph : Phase} (hpc : s.pc = .phase ph) :
    ∃ m, runPhase s.cfg s.probeId s.pfrList s.mem ph = some m := by
  cases ph with
  | update => exact routeUpdate_isSome _ _ h.maps.hopsSome
  | calcAvg =>
    obtain ⟨r', hr⟩ := RoundSamples.calcAvg_isSome (fun d => h.samples d s.probeId) s.cfg
    exact ⟨{ s.mem with r := r' }, by rw [runPhase, hr]; rfl⟩
  | calcStddev =>
    obtain ⟨r', hr⟩ := RoundSamples.calcStddev_isSome (fun d => h.samples d s.probeId) (h.agg (by rw [hpc]; rfl))
    exact ⟨{ s.mem with r := r' }, by rw [runPhase, hr]; rfl⟩
  | scan =>
    have hagg := h.agg (by rw [hpc]; rfl)
    exact scan_isSome fun d _ => scanDst_isSome (hagg d) (fun v hv => h.maps.hopsSome d _ v hv)
  | free => exact ⟨_, rfl⟩
  | delete => exact delete_isSome s.cfg s.probeId h.maps.logSome
  | man => exact routesMan_isSome fun d hd => h.routed (by rw [hpc]; rfl) d (Or.inl hd)

/-- **No phase reads a missing record.** In every run in which no reply is recorded
while `main` holds `mt_req_send` the maps' invariant holds, every phase due runs to
its end, and `pfr_calc_avg_rtt` divides by a positive count. -/
theorem no_missing_record {cfg : Config} {v : F} {mm : PeerMap} {s : State F}
    (h : Lts.Path step Undisturbed (State.init cfg v mm) s) :
    RecInv s.mem ∧
    (∀ ph, s.pc = .phase ph → ∃ m, runPhase s.cfg s.probeId s.pfrList s.mem ph = some m) ∧
    (s.pc = .signals → ∃ m, pfrDeleteAll s.probeId s.mem = some m) ∧
    (s.pc = .phase .calcAvg → ∀ (d : String) (k : Int) (samples : Samples F),
      (peersAt s.mem.r d s.probeId)[k]? = some samples → ∃ a, calcLoop samples = some a ∧ 0 < a.cntRtt) := by
  have hq := quiet_path h
  refine ⟨hq.maps, fun ph hpc => hq.runPhase_isSome hpc, fun _ => deleteAll_isSome _ _, ?_⟩
  intro _ d k samples hs
  obtain ⟨a, ha, -, hpos⟩ := calcLoop_of_ok (hq.samples d _ k samples hs)
  exact ⟨a, ha, hpos⟩

/-- A processed round, a skipped one with a late reply, and a third whose scan is due. -/
theorem no_missing_record_run : ∃ s : State ℚ,
    Lts.Path step Undisturbed (State.boot [(1, ⟨"192.0.2.1", "1:1"⟩)]) s ∧
      (s.probeId = 2 ∧ s.pc = .phase .scan ∧ "198.51.100.7" ∈ s.mem.r) ∧
      ∃ m, runPhase s.cfg s.probeId s.pfrList s.mem .scan = some m := by
  obtain ⟨s, hs, hend⟩ := exists_run (G := Undisturbed) (State.boot (F := ℚ) [(1, ⟨"192.0.2.1", "1:1"⟩)])
    (roundEvents ["198.51.100.7"] [⟨"198.51.100.7", 0, 1, 1, 20, 0⟩] ++
      skippedEvents ["198.51.100.7"] [⟨"198.51.100.7", 1, 1, 1, 30, 1⟩, ⟨"198.51.100.7", 0, 1, 2, 90, 0⟩] ++
      (roundEvents ["198.51.100.7"] [⟨"198.51.100.7", 2, 1, 1, 25, 2⟩]).take 11)
    (fun s => s.probeId = 2 ∧ s.pc = .phase .scan ∧ "198.51.100.7" ∈ s.mem.r) (by decide +kernel)
  exact ⟨s, hs, hend, (no_missing_record hs).2.1 _ hend.2.1⟩

end Pfr

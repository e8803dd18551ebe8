import Pfr.SilentPath

/- The cut-off of the scan. "No answer" is read off the running minimum: a
   destination whose metrics all reach the value `min_rtt` starts from is given
   peer 0, as if nobody had answered. For the first destination that value is the
   configured `min_rtt`; for every other one it is the literal 50000 which the loop
   body puts back.

   1. `Mem.only`, `SameEntries`: the scan of one destination alone, and what is compared;
   2. `silent_only_if_silent`: a destination is treated as silent exactly when it was,
      unless the scan meets a NULL or everything heard of it reaches the cut-off;
   3. `scan_alone_iff`: its entries are those of a scan of it alone, unless its least
      metric lies between the two cut-offs;
   4. `live_taken_for_silent`, `scan_depends_on_others`: where it is otherwise. -/
namespace Pfr

open Std

variable {F : Type} [Dbl F]

/-- `route_log1[dst_ip][probe_id]`. -/
def rowAt (log : LogMap F) (dstIp : String) (probeId : Int) : Option (Tlog F) := (log.idx dstIp).idx probeId

/-- The row a scan of a round p ≥ 1 logs has the peer the loop ended with. -/
theorem scan_row {cfg : Config} {p : Nat} (hp : p ≠ 0) {m m' : Mem F} (hs : ScanSpec cfg p m m') {d : String}
    (hd : d ∈ m.r) : ∃ row, rowAt m'.routeLog1 d p = some row ∧ row.peerId = scanPeer cfg p m d := by
  obtain ⟨out, hout, -, -, hlog, -⟩ := hs.dst d hd
  obtain ⟨_, _, -, -, hpeer, -⟩ := scanDst_pos hp hout
  refine ⟨out.log, ?_, hpeer⟩
  rw [rowAt, hlog, ExtTreeMap.idx_insert, if_pos rfl]

/-! ## Silence -/

/-- No reply of the round was recorded. -/
def NoReply (peers : Peers F) : Prop := peers = ∅

/-- The log row says that there was no answer. -/
def LoggedAsSilent (m : Mem F) (d : String) (p : Int) : Prop :=
  ∃ row, rowAt m.routeLog1 d p = some row ∧ row.peerId = 0

omit [Dbl F] in
theorem metricAt_of_noReply {pm : PathMetric} {peers : Peers F} (h : NoReply peers) (k : Int) : metricAt pm peers k = none := by
  cases hw : metricAt pm peers k with
  | none => rfl
  | some w =>
    have hk := mem_of_metricAt hw
    rw [NoReply] at h
    rw [h] at hk
    exact absurd hk ExtTreeMap.not_mem_empty

/-- With positive peer ids the loop ends at 0 when no metric is below the starting
value, and only then. -/
theorem scanPeer_zero_iff [DblOrder F] {cfg : Config} (hpm : cfg.pathMetric.Read) {p : Nat} (hp : p ≠ 0)
    {m m' : Mem F} (hs : ScanSpec cfg p m m') {d : String} (hd : d ∈ m.r)
    (hpos : ∀ k ∈ peersAt m.r d p, 0 < k) :
    scanPeer cfg p m d = 0 ↔
      ∀ k w, metricAt cfg.pathMetric (peersAt m.r d p) k = some w → ¬w < scanThr m d := by
  have h0 : (0 : Int) ∉ peersAt m.r d p := fun h => absurd (hpos 0 h) (Int.lt_irrefl 0)
  obtain ⟨v, -, hcase⟩ := scanPeer_cases hpm hp hs hd
  rcases hcase with ⟨hne, hbest, hlt, -⟩ | ⟨hz, ⟨w, hbest⟩ | hnone | hsh⟩
  · constructor
    · exact fun h => absurd h hne
    · exact fun hall => absurd hlt (hall _ v hbest.val)
  · exact absurd (mem_of_metricAt hbest.val) h0
  · exact ⟨fun _ => hnone, fun _ => hz⟩
  · exact absurd hsh.1.2.1 h0

/-- **When a destination is treated as silent only when it was.** For every scan of a
round p ≥ 1 under `metric0` or `metric1`, with positive peer ids: the scan ends, and logs
the destination as silent exactly if it was, exactly if it meets no NULL and the
destination was silent or somebody was heard below the starting value. -/
theorem silent_only_if_silent [DblOrder F] {s : State F} (hpc : s.pc = .phase .scan) (hp : s.probeId ≠ 0)
    (hpm : s.cfg.pathMetric.Read) {d : String} (hd : d ∈ s.mem.r) (hpos : ∀ k ∈ peersAt s.mem.r d s.probeId, 0 < k) :
    (∃ t, step s .phase = some t ∧
        (LoggedAsSilent t.mem d s.probeId ↔ NoReply (peersAt s.mem.r d s.probeId))) ↔
      NoNull s.cfg s.probeId s.mem ∧ (NoReply (peersAt s.mem.r d s.probeId) ∨
        ∃ k w, metricAt s.cfg.pathMetric (peersAt s.mem.r d s.probeId) k = some w ∧ w < scanThr s.mem d) := by
  refine scan_and_iff hpc hp hpm ?_
  intro t hstep
  have hs : ScanSpec s.cfg s.probeId s.mem t.mem := scan_spec (runPhase_of_step hpc hstep)
  have hlogged : LoggedAsSilent t.mem d s.probeId ↔
      ∀ k w, metricAt s.cfg.pathMetric (peersAt s.mem.r d s.probeId) k = some w → ¬w < scanThr s.mem d := by
    obtain ⟨row, hrow, hpeer⟩ := scan_row hp hs hd
    rw [← scanPeer_zero_iff hpm hp hs hd hpos, LoggedAsSilent, hrow, ← hpeer]
    simp
  rw [hlogged]
  by_cases hno : NoReply (peersAt s.mem.r d s.probeId)
  · simp [hno, metricAt_of_noReply hno]
  · simp [hno]

/-- Round 1 after a silent round 0, under `metric1`. -/
theorem silent_only_if_silent_run : ∃ s : State ℚ, (Lts.Path step AnyStep
      (State.init { Config.default with pathMetric := .metric1 } (Dbl.num 50000) (.ofRows [(1, ⟨"192.0.2.1", "1:1"⟩)])) s ∧
    s.pc = .phase .scan ∧ s.probeId ≠ 0 ∧ s.cfg.pathMetric.Read ∧ "198.51.100.7" ∈ s.mem.r ∧
    ∀ k ∈ peersAt s.mem.r "198.51.100.7" s.probeId, 0 < k) ∧
    ∃ t, step s .phase = some t ∧
      (LoggedAsSilent t.mem "198.51.100.7" s.probeId ↔ NoReply (peersAt s.mem.r "198.51.100.7" s.probeId)) := by
  obtain ⟨s, hs, hpc, hp, hpm, hd, hkeys, hheard, hstep⟩ := exists_run (G := AnyStep)
    (State.init { Config.default with pathMetric := .metric1 } (Dbl.num 50000 : ℚ) (.ofRows [(1, ⟨"192.0.2.1", "1:1"⟩)]))
    (roundEvents ["198.51.100.7"] [] ++ (roundEvents ["198.51.100.7"] [⟨"198.51.100.7", 1, 1, 1, 20, 1⟩]).take 11)
    (fun s => s.pc = .phase .scan ∧ s.probeId = 1 ∧ s.cfg.pathMetric.Read ∧ "198.51.100.7" ∈ s.mem.r ∧
      (∀ k ∈ (peersAt s.mem.r "198.51.100.7" s.probeId).keys, 0 < k) ∧
      HeardBelow s.cfg.pathMetric (scanThr s.mem "198.51.100.7") (peersAt s.mem.r "198.51.100.7" s.probeId) ∧
      (step s .phase).isSome) (by decide +kernel)
  have hpos : ∀ k ∈ peersAt s.mem.r "198.51.100.7" s.probeId, 0 < k := fun k hk => hkeys k (ExtTreeMap.mem_keys.mpr hk)
  have hnonull : NoNull s.cfg s.probeId s.mem :=
    (scan_enabled_iff hpc (by omega) hpm).mp (Option.isSome_iff_exists.mp hstep)
  refine ⟨s, ⟨hs, hpc, by omega, hpm, hd, hpos⟩, ?_⟩
  exact (silent_only_if_silent hpc (by omega) hpm hd hpos).mpr ⟨hnonull, Or.inr ((heardBelow_iff hpm _ _).mp hheard)⟩

/-- One of 50 requests is answered, after 1000 ms: `metric1` is 50000, and the row says
that there was no answer. -/
theorem live_taken_for_silent : ¬∀ (s t : State ℚ) (d : String),
    Lts.Path step AnyStep (State.init { Config.default with pathMetric := .metric1, pfrPingReq := 50 } (Dbl.num 50000)
      (.ofRows [(1, ⟨"192.0.2.1", "1:1"⟩)])) s →
      s.pc = .phase .scan → step s .phase = some t → s.probeId ≠ 0 → s.cfg.pathMetric.Read → d ∈ s.mem.r →
      (∀ k ∈ peersAt s.mem.r d s.probeId, 0 < k) →
      (LoggedAsSilent t.mem d s.probeId ↔ NoReply (peersAt s.mem.r d s.probeId)) := by
  intro hall
  obtain ⟨s, hs, hpc, hp, hpm, hd, hkeys, hstep⟩ := exists_run (G := AnyStep)
    (State.init { Config.default with pathMetric := .metric1, pfrPingReq := 50 } (Dbl.num 50000 : ℚ)
      (.ofRows [(1, ⟨"192.0.2.1", "1:1"⟩)]))
    (roundEvents ["198.51.100.7"] [⟨"198.51.100.7", 0, 1, 1, 20, 0⟩] ++
      (roundEvents ["198.51.100.7"] [⟨"198.51.100.7", 1, 1, 1, 1000, 1⟩]).take 11)
    (fun s => s.pc = .phase .scan ∧ s.probeId = 1 ∧ s.cfg.pathMetric.Read ∧ "198.51.100.7" ∈ s.mem.r ∧
      (peersAt s.mem.r "198.51.100.7" s.probeId).keys = [1] ∧
      (step s .phase).any (fun t => (rowAt t.mem.routeLog1 "198.51.100.7" s.probeId).any (fun row => row.peerId = 0)))
    (by decide +kernel)
  obtain ⟨t, ht, hrow⟩ := Option.any_eq_true _ _ |>.mp hstep
  obtain ⟨row, hrow, hzero⟩ := Option.any_eq_true _ _ |>.mp hrow
  have hpos : ∀ k ∈ peersAt s.mem.r "198.51.100.7" s.probeId, 0 < k := by
    intro k hk
    rw [← ExtTreeMap.mem_keys, hkeys, List.mem_singleton] at hk
    omega
  have hno := (hall s t _ hs hpc ht (by omega) hpm hd hpos).mp ⟨row, hrow, of_decide_eq_true hzero⟩
  have hmem : (1 : Int) ∈ peersAt s.mem.r "198.51.100.7" s.probeId := by
    rw [← ExtTreeMap.mem_keys, hkeys]
    exact List.mem_cons_self
  rw [hno] at hmem
  exact ExtTreeMap.not_mem_empty hmem

/-! ## One destination alone -/

/-- `r` and `route` restricted to one destination. -/
def Mem.only (m : Mem F) (d : String) : Mem F :=
  { m with
    r := m.r.filter (fun e _ => e = d)
    route := m.route.filter (fun e _ => e = d) }

section Only
omit [Dbl F]
variable {m : Mem F} {d : String}

theorem only_r (m : Mem F) (d : String) : (m.only d).r[d]? = m.r[d]? :=
  ExtTreeMap.getElem?_filter_self m.r d

theorem only_route (m : Mem F) (d : String) : (m.only d).route[d]? = m.route[d]? :=
  ExtTreeMap.getElem?_filter_self m.route d

theorem only_mem {e : String} : e ∈ (m.only d).r ↔ e = d ∧ d ∈ m.r := by
  rw [← ExtTreeMap.mem_keys]
  change e ∈ (m.r.filter (fun e _ => e = d)).keys ↔ _
  rw [ExtTreeMap.keys_filter_key, List.mem_filter, ExtTreeMap.mem_keys]
  constructor
  · intro h
    obtain rfl := of_decide_eq_true h.2
    exact ⟨rfl, h.1⟩
  · intro h
    obtain ⟨rfl, hd⟩ := h
    exact ⟨hd, decide_eq_true rfl⟩

/-- The scan of it alone reaches it first, with the configured value. -/
theorem only_thr [Dbl F] (hd : d ∈ m.r) : scanThr (m.only d) d = m.minRtt := by
  have hall : ∀ e ∈ (m.only d).r.keys, e = d := fun e he => (only_mem.mp (ExtTreeMap.mem_keys.mp he)).1
  have hmem : d ∈ (m.only d).r.keys := ExtTreeMap.mem_keys.mpr (only_mem.mpr ⟨rfl, hd⟩)
  rw [scanThr, if_pos]
  · rfl
  · cases hl : (m.only d).r.keys with
    | nil => rw [hl] at hmem; cases hmem
    | cons e l =>
      rw [hl] at hall
      rw [List.head?_cons, hall e List.mem_cons_self]

end Only

/-- The entries of a destination in the round. -/
def SameEntries (d : String) (p : Int) (m m' : Mem F) : Prop :=
  hopAt m.route d p = hopAt m'.route d p ∧ rowAt m.routeLog1 d p = rowAt m'.routeLog1 d p

section Body
variable {cfg : Config} {pm : PathMetric} {p : Nat} {thr thr' : F} {probes : Probes F} {peers : Peers F} {hops : Hops F}

/-- The starting value matters to the body only through the peer the loop ends with. -/
theorem scanDst_congr (hpm : cfg.pathMetric.Read) (hp : p ≠ 0)
    (h : (pickLoop cfg.pathMetric thr (probes.idx p)).peerId = (pickLoop cfg.pathMetric thr' (probes.idx p)).peerId) :
    scanDst cfg p thr probes hops = scanDst cfg p thr' probes hops := by
  have hrow : ∀ (peers : Peers F) (k : Int) (v v' : F),
      scanRow cfg.pathMetric peers k v = scanRow cfg.pathMetric peers k v' := by
    intro peers k v v'
    unfold scanRow
    split
    · cases aggAt peers k with
      | none => rfl
      | some tp =>
        obtain ⟨w, hw⟩ := Option.isSome_iff_exists.mp (selMetric_isSome hpm tp)
        simp [hw]
    · rfl
  unfold scanDst
  simp only [scanPeers, if_neg hp, h]
  rw [hrow _ _ _ (pickLoop cfg.pathMetric thr' (probes.idx p)).minRtt]

/-- With every aggregate there the loop ends with the best peer if that is below the
starting value. -/
theorem pickLoop_of_best [DblOrder F] (hpm : pm.Read) (hagg : ∀ k, k ∈ peers → (aggAt peers k).isSome) {b : Int} {v : F}
    (h : IsBest (metricAt pm peers) b v) : (pickLoop pm thr peers).peerId = if v < thr then b else 0 := by
  rcases pickLoop_best hpm thr hagg with ⟨h0, hnone⟩ | ⟨hbest, hlt⟩
  · rw [h0, if_neg (hnone b v h.val)]
  · obtain ⟨hb, hv⟩ := h.unique hbest
    rw [hv, if_pos hlt, hb]

/-- Two starting values give the same peer unless the best peer is between them. -/
theorem pickLoop_peer_eq_iff [DblOrder F] (hpm : pm.Read) (hagg : ∀ k, k ∈ peers → (aggAt peers k).isSome) :
    (pickLoop pm thr peers).peerId = (pickLoop pm thr' peers).peerId ↔
      ∀ b v, IsBest (metricAt pm peers) b v → b ≠ 0 → (v < thr ↔ v < thr') := by
  constructor
  · intro heq b v hbest hb
    rw [pickLoop_of_best hpm hagg hbest, pickLoop_of_best hpm hagg hbest] at heq
    by_cases h : v < thr <;> by_cases h' : v < thr' <;> simp_all
  · intro hsame
    have hbest : ∀ {t b v}, IsBest (metricAt pm peers) b v → (pickLoop pm t peers).peerId = if v < t then b else 0 :=
      fun h => pickLoop_of_best hpm hagg h
    rcases pickLoop_best hpm thr hagg with ⟨h0, hnone⟩ | ⟨hb, hlt⟩
    · rcases pickLoop_best hpm thr' hagg with ⟨h0', -⟩ | ⟨hb', hlt'⟩
      · rw [h0, h0']
      · by_cases hz : (pickLoop pm thr' peers).peerId = 0
        · rw [h0, hz]
        · exact absurd ((hsame _ _ hb' hz).mpr hlt') (hnone _ _ hb'.val)
    · by_cases hz : (pickLoop pm thr peers).peerId = 0
      · rw [hbest (t := thr') hb, hz, ite_self]
      · rw [hbest (t := thr') hb, if_pos ((hsame _ _ hb hz).mp hlt)]

end Body

/-- The entries a scan of a round p ≥ 1 writes are those of another one if and only if
the two loops end with the same peer. -/
theorem sameEntries_iff {cfg : Config} (hpm : cfg.pathMetric.Read) {p : Nat} (hp : p ≠ 0) {m m' n n' : Mem F}
    (hm : ScanSpec cfg p m m') (hn : ScanSpec cfg p n n') {d : String} (hd : d ∈ m.r) (hr : n.r[d]? = m.r[d]?)
    (hroute : n.route[d]? = m.route[d]?) :
    SameEntries d p m' n' ↔ scanPeer cfg p m d = scanPeer cfg p n d := by
  have hdn : d ∈ n.r := by rwa [ExtTreeMap.mem_iff_isSome_getElem?, hr, ← ExtTreeMap.mem_iff_isSome_getElem?]
  have hpeers : peersAt n.r d p = peersAt m.r d p := by rw [peersAt, ExtTreeMap.idx_congr hr, peersAt]
  constructor
  · intro h
    obtain ⟨row, hrow, hpeer⟩ := scan_row hp hm hd
    obtain ⟨row', hrow', hpeer'⟩ := scan_row hp hn hdn
    have heq := h.2
    rw [hrow, hrow'] at heq
    rw [← hpeer, ← hpeer', Option.some.inj heq]
  · intro h
    obtain ⟨out, hout, -, hhops, hlog, -⟩ := hm.dst d hd
    obtain ⟨out', hout', -, hhops', hlog', -⟩ := hn.dst d hdn
    rw [scanPeer, scanPeer, hpeers] at h
    rw [ExtTreeMap.idx_congr hr, ExtTreeMap.idx_congr hroute, ← scanDst_congr hpm hp h, hout] at hout'
    cases hout'
    refine ⟨hopAt_congr (by rw [hhops, hhops', hroute]) _, ?_⟩
    rw [rowAt, rowAt, hlog, hlog', ExtTreeMap.idx_insert, ExtTreeMap.idx_insert, if_pos rfl, if_pos rfl]

/-- **When a destination's entries are those of a scan of it alone.** In a round p ≥ 1
under `metric0` or `metric1`, whatever else is in the maps, for a destination all of
whose aggregates are there. -/
theorem scan_alone_iff [DblOrder F] {cfg : Config} (hpm : cfg.pathMetric.Read) {p : Nat} (hp : p ≠ 0) {m : Mem F}
    {d : String} (hd : d ∈ m.r) (hagg : ∀ k, k ∈ peersAt m.r d p → (aggAt (peersAt m.r d p) k).isSome) :
    (∃ m' n', pfrRouteScan cfg p m = some m' ∧ pfrRouteScan cfg p (m.only d) = some n' ∧ SameEntries d p m' n') ↔
      (∀ e ∈ m.r, ¬ReadsNull cfg.pathMetric p (scanThr m e) (peersAt m.r e p) (m.route.idx e)) ∧
        ∀ b v, IsBest (metricAt cfg.pathMetric (peersAt m.r d p)) b v → b ≠ 0 → (v < scanThr m d ↔ v < m.minRtt) := by
  have hpeers : peersAt (m.only d).r d p = peersAt m.r d p := by
    rw [peersAt, ExtTreeMap.idx_congr (only_r m d), peersAt]
  have hsame : ∀ {m' n'}, pfrRouteScan cfg p m = some m' → pfrRouteScan cfg p (m.only d) = some n' →
      (SameEntries d p m' n' ↔ ∀ b v, IsBest (metricAt cfg.pathMetric (peersAt m.r d p)) b v → b ≠ 0 →
        (v < scanThr m d ↔ v < m.minRtt)) := by
    intro m' n' hm' hn'
    rw [sameEntries_iff hpm hp (scan_spec hm') (scan_spec hn') hd (only_r m d) (only_route m d), scanPeer, scanPeer,
      hpeers, only_thr hd, pickLoop_peer_eq_iff hpm hagg]
  rw [← scan_isSome_iff hpm hp]
  constructor
  · intro h
    obtain ⟨m', n', hm', hn', hent⟩ := h
    exact ⟨⟨m', hm'⟩, (hsame hm' hn').mp hent⟩
  · intro h
    obtain ⟨⟨m', hm'⟩, hcut⟩ := h
    have halone : ∃ n', pfrRouteScan cfg p (m.only d) = some n' := by
      rw [scan_isSome_iff hpm hp]
      intro e he
      rw [(only_mem.mp he).1, hpeers, ExtTreeMap.idx_congr (only_route m d)]
      intro hnull
      rcases hnull with ⟨k, -, ⟨-, hk, -, hnone⟩, -⟩ | hprev
      · have hsome := hagg k hk
        rw [hnone] at hsome
        cases hsome
      · exact (scan_isSome_iff hpm hp m).mp ⟨m', hm'⟩ d hd (Or.inr hprev)
    obtain ⟨n', hn'⟩ := halone
    exact ⟨m', n', hm', hn', (hsame hm' hn').mpr hcut⟩

/-- Two destinations in round 1, with the default cut-off for both. -/
theorem scan_alone_run : ∃ s : State ℚ, (Lts.Path step AnyStep (State.boot [(1, ⟨"192.0.2.1", "1:1"⟩)]) s ∧
    s.pc = .phase .scan ∧ s.mem.r.keys = ["198.51.100.7", "198.51.100.9"]) ∧
    ∃ m' n', pfrRouteScan s.cfg s.probeId s.mem = some m' ∧
      pfrRouteScan s.cfg s.probeId (s.mem.only "198.51.100.9") = some n' ∧
      SameEntries "198.51.100.9" s.probeId m' n' := by
  obtain ⟨s, hs, hpc, hp, hpm, hkeys, hagg, hmin, hstep⟩ := exists_run (G := AnyStep)
    (State.boot (F := ℚ) [(1, ⟨"192.0.2.1", "1:1"⟩)])
    (roundEvents ["198.51.100.7", "198.51.100.9"] [] ++ (roundEvents ["198.51.100.7", "198.51.100.9"]
      [⟨"198.51.100.7", 1, 1, 1, 20, 1⟩, ⟨"198.51.100.9", 1, 1, 1, 40, 1⟩]).take 14)
    (fun s => s.pc = .phase .scan ∧ s.probeId = 1 ∧ s.cfg.pathMetric.Read ∧
      s.mem.r.keys = ["198.51.100.7", "198.51.100.9"] ∧
      (∀ k ∈ (peersAt s.mem.r "198.51.100.9" s.probeId).keys,
        (aggAt (peersAt s.mem.r "198.51.100.9" s.probeId) k).isSome) ∧
      s.mem.minRtt = Dbl.num 50000 ∧ (step s .phase).isSome) (by decide +kernel)
  obtain ⟨t, ht⟩ := Option.isSome_iff_exists.mp hstep
  have hd : "198.51.100.9" ∈ s.mem.r := by
    rw [← ExtTreeMap.mem_keys, hkeys]
    exact List.mem_cons_of_mem _ List.mem_cons_self
  refine ⟨s, ⟨hs, hpc, hkeys⟩, ?_⟩
  refine (scan_alone_iff hpm (by omega) hd fun k hk => hagg k (ExtTreeMap.mem_keys.mpr hk)).mpr ⟨?_, ?_⟩
  · exact (scan_isSome_iff hpm (by omega) s.mem).mp ⟨t.mem, runPhase_of_step hpc ht⟩
  · intro b v _ _
    rw [scanThr, hmin, ite_self]

/-- With `min_rtt` configured as 10 the same destination is heard at 20 behind another
one and not heard alone. -/
theorem scan_depends_on_others : ¬∀ (s : State ℚ) (d : String),
    Lts.Path step AnyStep (State.init Config.default (Dbl.num 10) (.ofRows [(1, ⟨"192.0.2.1", "1:1"⟩)])) s →
      s.pc = .phase .scan → s.probeId ≠ 0 → s.cfg.pathMetric.Read → d ∈ s.mem.r →
      (∀ k, k ∈ peersAt s.mem.r d s.probeId → (aggAt (peersAt s.mem.r d s.probeId) k).isSome) →
      ∃ m' n', pfrRouteScan s.cfg s.probeId s.mem = some m' ∧
        pfrRouteScan s.cfg s.probeId (s.mem.only d) = some n' ∧ SameEntries d s.probeId m' n' := by
  intro hall
  obtain ⟨s, hs, hpc, hp, hpm, hd, hagg, hscans⟩ := exists_run (G := AnyStep)
    (State.init Config.default (Dbl.num 10 : ℚ) (.ofRows [(1, ⟨"192.0.2.1", "1:1"⟩)]))
    (roundEvents ["198.51.100.7", "198.51.100.9"] [] ++ (roundEvents ["198.51.100.7", "198.51.100.9"]
      [⟨"198.51.100.7", 1, 1, 1, 20, 1⟩, ⟨"198.51.100.9", 1, 1, 1, 20, 1⟩]).take 14)
    (fun s => s.pc = .phase .scan ∧ s.probeId = 1 ∧ s.cfg.pathMetric.Read ∧ "198.51.100.9" ∈ s.mem.r ∧
      (∀ k ∈ (peersAt s.mem.r "198.51.100.9" s.probeId).keys,
        (aggAt (peersAt s.mem.r "198.51.100.9" s.probeId) k).isSome) ∧
      ((pfrRouteScan s.cfg s.probeId s.mem).all fun m' => (rowAt m'.routeLog1 "198.51.100.9" s.probeId).any
        fun row => row.peerId = 1) ∧
      (pfrRouteScan s.cfg s.probeId (s.mem.only "198.51.100.9")).all fun n' =>
        (rowAt n'.routeLog1 "198.51.100.9" s.probeId).any fun row => row.peerId = 0) (by decide +kernel)
  obtain ⟨m', n', hm', hn', -, hrow⟩ := hall s _ hs hpc (by omega) hpm hd fun k hk => hagg k (ExtTreeMap.mem_keys.mpr hk)
  rw [hm', hn', Option.all_some, Option.all_some, ← hrow] at hscans
  obtain ⟨row, hone, hzero⟩ : ∃ row : Tlog ℚ, row.peerId = 1 ∧ row.peerId = 0 := by
    obtain ⟨row, hr, hone⟩ := Option.any_eq_true _ _ |>.mp hscans.1
    have hzero := hscans.2
    rw [hr, Option.any_some] at hzero
    exact ⟨row, of_decide_eq_true hone, of_decide_eq_true hzero⟩
  rw [hone] at hzero
  cases hzero

end Pfr

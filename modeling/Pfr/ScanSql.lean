import Pfr.CutOff

/- `pfr_route_scan_sql`: the rows of the database log, made by a copy of the scan's
   loop. The copy compares `get_avg_rtt()` whatever `path_metric` is, as
   `pfr_route_scan` did before it had metrics; nothing else in the selection differs.

   1. `scanSqlDst`, `pfrRouteScanSql`: the copy, its rows and what it writes to the maps;
   2. `pickLoop_value`: the loop's peer under any metric, as the best of `scanValue`;
   3. `aggs`: the two loops read the same aggregates, whatever NULLs are inserted;
   4. `rows_agree_iff`: the rows name what the scan logged if and only if, for every
      destination, the best peer by `path_metric` is the best by average;
   5. `row_names_other_peer`: a state where it is not. -/
namespace Pfr

open Std

variable {F : Type} [Dbl F]

/-- The columns of a row of `pfr_log` that are given to `insert`. -/
structure SqlRow (F : Type) where
  ccase : Int
  dstIp : String
  probeId : Int
  peerId : Int
  minRtt : F
  avgRtt : F
  maxRtt : F
  stddevRtt : F
  medianaRtt : F
  lost : Int
  ts : Int

/-- The row read back from the chosen peer's aggregate, or zeros. -/
def sqlRow (ccase : Int) (dstIp : String) (probeId : Int) (peers : Peers F) (peerId : Int) : Option (SqlRow F) :=
  if peerId ≠ 0 then
    (aggAt peers peerId).map fun tp =>
      ⟨ccase, dstIp, probeId, peerId, tp.minRtt, tp.avgRtt, tp.maxRtt, tp.stddevRtt, tp.medianaRtt, tp.lost, tp.timestamp⟩
  else
    let z : F := Dbl.num 0
    some ⟨ccase, dstIp, probeId, peerId, z, z, z, z, z, 0, 0⟩

/-- The case of a decision: 10 in round 0; then 11 with no decision of the round
before, else 20 without a peer and 21 with one. -/
def caseOf (probeId : Nat) (prev : Option (RtParm F)) (peerId : Int) : Int :=
  if probeId = 0 then 10
  else match prev with
    | none => 11
    | some _ => if peerId = 0 then 20 else 21

/-- `route[dst_ip][probe_id - 1]`, which is dereferenced; round 0 does not look there. -/
def sqlPrev (probeId : Nat) (hops : Hops F) : Option (Option (RtParm F)) :=
  if probeId = 0 then some none else prevHop hops probeId

/-- The body at one destination, `min_rtt` being `thr`: the loop over the peers is the
scan's under `metric0`. -/
def scanSqlDst (probeId : Nat) (thr : F) (dstIp : String) (probes : Probes F) (hops : Hops F) :
    Option (Probes F × SqlRow F) := do
  let c := scanPeers .metric0 probeId thr (probes.idx probeId)
  let prev ← sqlPrev probeId hops
  let row ← sqlRow (caseOf probeId prev c.peerId) dstIp probeId c.peers c.peerId
  return (probes.insert probeId c.peers, row)

def scanSqlStep (probeId : Nat) (a : Mem F × List (SqlRow F)) (dstIp : String) :
    Option (Mem F × List (SqlRow F)) := do
  let out ← scanSqlDst probeId a.1.minRtt dstIp (a.1.r.idx dstIp) (a.1.route.idx dstIp)
  return ({ a.1 with r := a.1.r.insert dstIp out.1, minRtt := Dbl.num 50000 }, a.2 ++ [out.2])

/-- The thread's loop: the memory it leaves and the rows given to `insert`, in order. -/
def pfrRouteScanSql (probeId : Nat) (m : Mem F) : Option (Mem F × List (SqlRow F)) :=
  m.r.keys.foldlM (scanSqlStep probeId) (m, [])

/-! ## The whole loop -/

/-- What the loop does after the destinations of `done`. -/
structure SqlWalk (p : Nat) (m : Mem F) (done : List String) (a : Mem F × List (SqlRow F)) : Prop where
  mm : a.1.mm = m.mm
  calls : a.1.calls = m.calls
  cmds : a.1.cmds = m.cmds
  route : a.1.route = m.route
  routeLog1 : a.1.routeLog1 = m.routeLog1
  minRtt : a.1.minRtt = if done = [] then m.minRtt else Dbl.num 50000
  mem_r : ∀ d, d ∈ a.1.r ↔ d ∈ m.r
  off : ∀ d, d ∉ done → a.1.r.idx d = m.r.idx d
  dsts : a.2.map (·.dstIp) = done
  row : ∀ row ∈ a.2, ∃ probes, scanSqlDst p (scanThr m row.dstIp) row.dstIp (m.r.idx row.dstIp)
    (m.route.idx row.dstIp) = some (probes, row)

theorem sqlRow_dstIp {ccase probeId k : Int} {d : String} {peers : Peers F} {row : SqlRow F}
    (h : sqlRow ccase d probeId peers k = some row) : row.dstIp = d := by
  unfold sqlRow at h
  split at h
  · obtain ⟨tp, -, rfl⟩ := Option.map_eq_some_iff.mp h
    rfl
  · cases h
    rfl

theorem scanSqlDst_dstIp {p : Nat} {thr : F} {d : String} {probes probes' : Probes F} {hops : Hops F} {row : SqlRow F}
    (h : scanSqlDst p thr d probes hops = some (probes', row)) : row.dstIp = d := by
  obtain ⟨prev, -, h⟩ := Option.bind_eq_some_iff.mp h
  obtain ⟨row', hrow, h⟩ := Option.bind_eq_some_iff.mp h
  cases h
  exact sqlRow_dstIp hrow

theorem scanSqlStep_walk {p : Nat} {m : Mem F} {a a' : Mem F × List (SqlRow F)} {done rest : List String} {k : String}
    (hl : m.r.keys = done ++ k :: rest) (hk : k ∉ done) (hw : SqlWalk p m done a) (h : scanSqlStep p a k = some a') :
    SqlWalk p m (done ++ [k]) a' := by
  have hkr : k ∈ m.r := by rw [← ExtTreeMap.mem_keys, hl]; simp
  obtain ⟨out, hout, ha'⟩ := Option.bind_eq_some_iff.mp h
  cases ha'
  rw [hw.off k hk, hw.route, hw.minRtt, ← scanThr_of_split hl hk] at hout
  have hdst : out.2.dstIp = k := scanSqlDst_dstIp hout
  refine ⟨hw.mm, hw.calls, hw.cmds, hw.route, hw.routeLog1, by simp, ?_, ?_, ?_, ?_⟩
  · intro d
    rw [ExtTreeMap.mem_insert, LawfulEqCmp.compare_eq_iff_eq, hw.mem_r]
    constructor
    · intro hd
      rcases hd with hd | hd
      · rwa [← hd]
      · exact hd
    · exact Or.inr
  · intro d hd
    rw [List.mem_append, List.mem_singleton, not_or] at hd
    rw [ExtTreeMap.idx_insert, if_neg fun e => hd.2 e.symm, hw.off d hd.1]
  · simp [hw.dsts, hdst]
  · intro row hrow
    rcases List.mem_append.mp hrow with hrow | hrow
    · exact hw.row row hrow
    · rw [List.mem_singleton] at hrow
      rw [hrow, hdst]
      exact ⟨out.1, hout⟩

theorem sqlWalk_nil (p : Nat) (m : Mem F) : SqlWalk p m [] (m, []) where
  mm := rfl
  calls := rfl
  cmds := rfl
  route := rfl
  routeLog1 := rfl
  minRtt := by simp
  mem_r := fun _ => Iff.rfl
  off := fun _ _ => rfl
  dsts := rfl
  row := by simp

/-- **One row for each destination of `r`, in order; no other entry moves.** -/
theorem scanSql_spec {p : Nat} {m : Mem F} {a : Mem F × List (SqlRow F)} (h : pfrRouteScanSql p m = some a) :
    SqlWalk p m m.r.keys a :=
  List.foldlM_walk ExtTreeMap.nodup_keys (sqlWalk_nil p m) (fun _ _ _ _ _ hl hk hI hs => scanSqlStep_walk hl hk hI hs) h

/-- The loop meets no NULL when its body meets none at any destination. -/
theorem scanSql_isSome {p : Nat} {m : Mem F}
    (h : ∀ d, d ∈ m.r → (scanSqlDst p (scanThr m d) d (m.r.idx d) (m.route.idx d)).isSome) :
    ∃ a, pfrRouteScanSql p m = some a := by
  refine List.foldlM_walk_isSome (I := SqlWalk p m) ExtTreeMap.nodup_keys (sqlWalk_nil p m) ?_
  intro done k rest a hl hk hw
  have hkr : k ∈ m.r := by rw [← ExtTreeMap.mem_keys, hl]; simp
  obtain ⟨out, hout⟩ := Option.isSome_iff_exists.mp (h k hkr)
  have hstep : ∃ a', scanSqlStep p a k = some a' := by
    rw [scanThr_of_split hl hk, ← hw.minRtt, ← hw.off k hk, ← hw.route] at hout
    exact ⟨_, by rw [scanSqlStep, hout]; rfl⟩
  obtain ⟨a', ha'⟩ := hstep
  exact ⟨a', ha', scanSqlStep_walk hl hk hw ha'⟩

/-! ## The loop's peer under any metric -/

/-- `b` is the best peer by the metric, and below the value `min_rtt` starts from. -/
def BestBelow (pm : PathMetric) (thr : F) (peers : Peers F) (b : Int) : Prop :=
  ∃ v, IsBest (scanValue pm peers) b v ∧ v < thr

theorem pickLoop_eq_iff [DblOrder F] {pm : PathMetric} {thr : F} {peers : Peers F} {b : Int} (hb : b ≠ 0) :
    (pickLoop pm thr peers).peerId = b ↔ BestBelow pm thr peers b := by
  rcases pickLoop_value pm thr peers with ⟨h0, hnone⟩ | ⟨hbest, hlt⟩
  · constructor
    · intro h
      exact absurd (h.symm.trans h0) hb
    · intro h
      obtain ⟨v, hv, hlt⟩ := h
      exact absurd hlt (hnone b v hv.val)
  · constructor
    · intro h
      exact ⟨_, h ▸ hbest, hlt⟩
    · intro h
      obtain ⟨v, hv, -⟩ := h
      exact (hbest.unique hv).1

/-- Two metrics have the same best peer below a value, if any. -/
def SameBest (pm pm' : PathMetric) (thr : F) (peers : Peers F) : Prop :=
  ∀ b, b ≠ 0 → (BestBelow pm thr peers b ↔ BestBelow pm' thr peers b)

theorem pickLoop_same_iff [DblOrder F] {pm pm' : PathMetric} {thr : F} {peers : Peers F} :
    (pickLoop pm thr peers).peerId = (pickLoop pm' thr peers).peerId ↔ SameBest pm pm' thr peers := by
  constructor
  · intro h b hb
    rw [← pickLoop_eq_iff hb, ← pickLoop_eq_iff hb, h]
  · intro h
    by_cases hb : (pickLoop pm thr peers).peerId = 0
    · by_cases hb' : (pickLoop pm' thr peers).peerId = 0
      · rw [hb, hb']
      · exact (pickLoop_eq_iff hb').mpr ((h _ hb').mpr ((pickLoop_eq_iff hb').mp rfl))
    · exact ((pickLoop_eq_iff hb).mpr ((h _ hb).mp ((pickLoop_eq_iff hb).mp rfl))).symm

/-! ## The two loops on one state -/

/-- `[99]` of every peer. -/
def aggs (peers : Peers F) : ExtTreeMap Int (Option (Tparm F)) := peers.map fun _ s => s.idx 99

section Aggs
variable {peers peers' : Peers F}

omit [Dbl F] in
theorem aggAt_aggs (h : aggs peers = aggs peers') (k : Int) : aggAt peers k = aggAt peers' k := by
  have hget : (aggs peers)[k]? = (aggs peers')[k]? := by rw [h]
  rw [aggs, aggs, ExtTreeMap.getElem?_map, ExtTreeMap.getElem?_map] at hget
  rw [aggAt_eq, aggAt_eq]
  cases hk : peers[k]? <;> cases hk' : peers'[k]? <;> simp_all

/-- Which peer the loop ends with depends on the aggregates only. -/
theorem scanPeers_peer (pm : PathMetric) (p : Nat) (thr : F) (h : aggs peers = aggs peers') :
    (scanPeers pm p thr peers).peerId = (scanPeers pm p thr peers').peerId := by
  have hlist : peers.toList.map (fun kv => (kv.1, kv.2.idx 99)) = peers'.toList.map (fun kv => (kv.1, kv.2.idx 99)) := by
    rw [← ExtTreeMap.toList_map (f := fun _ (s : Samples F) => s.idx 99),
      ← ExtTreeMap.toList_map (f := fun _ (s : Samples F) => s.idx 99)]
    exact congrArg ExtTreeMap.toList h
  unfold scanPeers
  by_cases hp : p = 0
  · rw [if_pos hp, if_pos hp]
    cases hl : peers.toList <;> cases hl' : peers'.toList <;> simp_all
  · rw [if_neg hp, if_neg hp]
    have hfold : ∀ (l : List (Int × Samples F)) (a : Pick F), pickFold pm l a =
        (l.map fun kv => (kv.1, kv.2.idx 99)).foldl (fun a kv => pickStep pm a kv.1 kv.2) a := by
      intro l a
      rw [List.foldl_map]
    change (pickFold pm peers.toList _).peerId = (pickFold pm peers'.toList _).peerId
    rw [hfold, hfold, hlist]

/-- The peers a pass over them leaves have the same aggregates. -/
theorem scanPeers_aggs (pm : PathMetric) (p : Nat) (thr : F) (peers : Peers F) :
    aggs (scanPeers pm p thr peers).peers = aggs peers := by
  apply ExtTreeMap.ext_getElem?
  intro k
  rw [aggs, aggs, ExtTreeMap.getElem?_map, ExtTreeMap.getElem?_map]
  unfold scanPeers
  split
  · split
    · rfl
    · next k0 s rest hl =>
      have hk0 : peers[k0]? = some s := ExtTreeMap.mem_toList_iff_getElem?_eq_some.mp (by rw [hl]; simp)
      rw [ExtTreeMap.getElem?_insert]
      simp only [LawfulEqCmp.compare_eq_iff_eq]
      split
      · next he => rw [← he, hk0, Option.map_some, Option.map_some, ExtTreeMap.idx_upd_id]
      · rfl
  · rw [ExtTreeMap.getElem?_map]
    cases peers[k]? with
    | none => rfl
    | some s => rw [Option.map_some, Option.map_some, Option.map_some, ExtTreeMap.idx_upd_id]

end Aggs

/-- What the scan logged of a peer, or zeros without one. -/
def LogsPeer (peers : Peers F) (k : Int) (avg : F) (lost : Int) : Prop :=
  (k = 0 ∧ avg = Dbl.num 0 ∧ lost = 0) ∨ (k ≠ 0 ∧ ∃ tp, aggAt peers k = some tp ∧ avg = tp.avgRtt ∧ lost = tp.lost)

theorem LogsPeer.unique {peers : Peers F} {k : Int} {avg avg' : F} {lost lost' : Int} (h : LogsPeer peers k avg lost)
    (h' : LogsPeer peers k avg' lost') : avg = avg' ∧ lost = lost' := by
  rcases h with ⟨h0, ha, hl⟩ | ⟨hne, tp, htp, ha, hl⟩
  · rcases h' with ⟨-, ha', hl'⟩ | ⟨hne, -⟩
    · exact ⟨ha.trans ha'.symm, hl.trans hl'.symm⟩
    · exact absurd h0 hne
  · rcases h' with ⟨h0, -⟩ | ⟨-, tp', htp', ha', hl'⟩
    · exact absurd h0 hne
    · rw [htp] at htp'
      cases htp'
      exact ⟨ha.trans ha'.symm, hl.trans hl'.symm⟩

theorem scanRow_logs {pm : PathMetric} {peers : Peers F} {k : Int} {v : F} {row : F × Tlog F}
    (h : scanRow pm peers k v = some row) : row.2.peerId = k ∧ LogsPeer peers k row.2.avgRtt row.2.lost := by
  unfold scanRow at h
  split at h
  · next hk =>
    obtain ⟨tp, htp, h⟩ := Option.bind_eq_some_iff.mp h
    cases h
    exact ⟨rfl, Or.inr ⟨hk, tp, htp, rfl, rfl⟩⟩
  · next hk =>
    cases h
    exact ⟨rfl, Or.inl ⟨not_not.mp hk, rfl, rfl⟩⟩

theorem sqlRow_logs {ccase probeId k : Int} {d : String} {peers : Peers F} {row : SqlRow F}
    (h : sqlRow ccase d probeId peers k = some row) :
    row.ccase = ccase ∧ row.peerId = k ∧ LogsPeer peers k row.avgRtt row.lost := by
  unfold sqlRow at h
  split at h
  · next hk =>
    obtain ⟨tp, htp, rfl⟩ := Option.map_eq_some_iff.mp h
    exact ⟨rfl, rfl, Or.inr ⟨hk, tp, htp, rfl, rfl⟩⟩
  · next hk =>
    cases h
    exact ⟨rfl, rfl, Or.inl ⟨not_not.mp hk, rfl, rfl⟩⟩

/-- A peer that is logged has an aggregate, so there is a row. -/
theorem LogsPeer.sqlRow {peers peers' : Peers F} {k : Int} {avg : F} {lost : Int} (h : LogsPeer peers k avg lost)
    (haggs : aggs peers = aggs peers') (ccase : Int) (d : String) (probeId : Int) :
    ∃ row, sqlRow ccase d probeId peers' k = some row := by
  unfold Pfr.sqlRow
  split
  · next hk =>
    rcases h with ⟨h0, -⟩ | ⟨-, tp, htp, -⟩
    · exact absurd h0 hk
    · rw [aggAt_aggs haggs] at htp
      exact ⟨_, by rw [htp]; rfl⟩
  · exact ⟨_, rfl⟩

/-- A row names the peer, average and loss that the scan logged, and its case. -/
def RowAgrees (p : Nat) (m m' : Mem F) (row : SqlRow F) : Prop :=
  ∃ log, rowAt m'.routeLog1 row.dstIp p = some log ∧ row.peerId = log.peerId ∧ row.avgRtt = log.avgRtt ∧
    row.lost = log.lost ∧ row.ccase = caseOf p (hopAt m.route row.dstIp (p - 1)) log.peerId

/-- What the scan logs at a destination, and what it read for it. -/
theorem scanDst_logs {cfg : Config} {p : Nat} {thr : F} {probes : Probes F} {hops : Hops F} {out : ScanOut F}
    (h : scanDst cfg p thr probes hops = some out) :
    out.log.peerId = (scanPeers cfg.pathMetric p thr (probes.idx p)).peerId ∧
      LogsPeer (out.probes.idx p) out.log.peerId out.log.avgRtt out.log.lost ∧
      aggs (out.probes.idx p) = aggs (probes.idx p) ∧ ∃ prev, sqlPrev p hops = some prev := by
  unfold scanDst at h
  obtain ⟨row, hrow, h⟩ := Option.bind_eq_some_iff.mp h
  obtain ⟨hpeer, hlogs⟩ := scanRow_logs hrow
  have haggs := scanPeers_aggs cfg.pathMetric p thr (probes.idx p)
  split at h
  · next hp =>
    cases h
    refine ⟨hpeer, ?_, ?_, ⟨none, by rw [sqlPrev, if_pos hp]⟩⟩
    · rw [ExtTreeMap.idx_insert, if_pos rfl, hpeer]
      exact hlogs
    · rw [ExtTreeMap.idx_insert, if_pos rfl]
      exact haggs
  · next hp =>
    obtain ⟨prev, hprev, h⟩ := Option.bind_eq_some_iff.mp h
    cases h
    refine ⟨hpeer, ?_, ?_, ⟨prev, by rw [sqlPrev, if_neg hp]; exact hprev⟩⟩
    · rw [ExtTreeMap.idx_insert, if_pos rfl, hpeer]
      exact hlogs
    · rw [ExtTreeMap.idx_insert, if_pos rfl]
      exact haggs

/-- What the copy logs at a destination. -/
theorem scanSqlDst_logs {p : Nat} {thr : F} {d : String} {probes probes' : Probes F} {hops : Hops F} {row : SqlRow F}
    (h : scanSqlDst p thr d probes hops = some (probes', row)) :
    row.peerId = (scanPeers .metric0 p thr (probes.idx p)).peerId ∧
      LogsPeer (scanPeers .metric0 p thr (probes.idx p)).peers row.peerId row.avgRtt row.lost ∧
      ∃ prev, sqlPrev p hops = some prev ∧ row.ccase = caseOf p prev row.peerId := by
  obtain ⟨prev, hprev, h⟩ := Option.bind_eq_some_iff.mp h
  obtain ⟨row', hrow, h⟩ := Option.bind_eq_some_iff.mp h
  cases h
  obtain ⟨hcase, hpeer, hlogs⟩ := sqlRow_logs hrow
  refine ⟨hpeer, ?_, prev, hprev, ?_⟩
  · rw [hpeer]
    exact hlogs
  · rw [hcase, hpeer]

theorem scanSqlDst_isSome {p : Nat} {thr : F} {d : String} {probes : Probes F} {hops : Hops F}
    {prev : Option (RtParm F)} (hprev : sqlPrev p hops = some prev)
    (h : ∀ ccase, ∃ row, sqlRow ccase d p (scanPeers .metric0 p thr (probes.idx p)).peers
      (scanPeers .metric0 p thr (probes.idx p)).peerId = some row) : (scanSqlDst p thr d probes hops).isSome := by
  obtain ⟨row, hrow⟩ := h (caseOf p prev (scanPeers .metric0 p thr (probes.idx p)).peerId)
  simp [scanSqlDst, hprev, hrow]

/-- The two loops end at the same peer: always in round 0, where the first one is taken. -/
theorem scanPeers_same_iff [DblOrder F] {pm pm' : PathMetric} {p : Nat} {thr : F} {peers : Peers F} :
    (scanPeers pm p thr peers).peerId = (scanPeers pm' p thr peers).peerId ↔ p = 0 ∨ SameBest pm pm' thr peers := by
  unfold scanPeers
  by_cases hp : p = 0
  · rw [if_pos hp, if_pos hp]
    cases peers.toList <;> simp [hp]
  · rw [if_neg hp, if_neg hp, ← pickLoop_same_iff]
    simp [hp]

section Agree
variable {cfg : Config} {p : Nat} {m m' : Mem F}

/-- With `min_rtt` at 50000 every destination starts from there, in the copy too. -/
theorem scanThr_default (hmin : m.minRtt = Dbl.num 50000) (d : String) : scanThr m d = Dbl.num 50000 := by
  rw [scanThr, hmin, ite_self]

theorem scanThr_after (h : pfrRouteScan cfg p m = some m') (hmin : m.minRtt = Dbl.num 50000) (d : String) :
    scanThr m' d = Dbl.num 50000 := by
  apply scanThr_default
  rw [(scan_spec h).minRtt, hmin, ite_self]

/-- The decision the copy looks at is the one the scan looked at. -/
theorem sqlPrev_after (h : pfrRouteScan cfg p m = some m') {d : String} (hd : d ∈ m.r) :
    ∃ prev, sqlPrev p (m'.route.idx d) = some prev ∧
      ∀ k, caseOf p prev k = caseOf p (hopAt m.route d (p - 1)) k := by
  by_cases hp : p = 0
  · refine ⟨none, by rw [sqlPrev, if_pos hp], ?_⟩
    intro k
    unfold caseOf
    rw [if_pos hp, if_pos hp]
  · have hs := scan_spec h
    obtain ⟨out, hout, -, hroute, -⟩ := hs.dst d hd
    obtain ⟨-, -, -, prev, hprev⟩ := scanDst_logs hout
    rw [sqlPrev, if_neg hp] at hprev
    have hget : (m'.route.idx d)[(p : Int) - 1]? = (m.route.idx d)[(p : Int) - 1]? := by
      rcases scan_hops hs d with heq | ⟨-, rp, heq⟩
      · rw [ExtTreeMap.idx_congr heq]
      · rw [ExtTreeMap.idx_of_getElem? heq, ExtTreeMap.getElem?_insert, if_neg]
        rw [LawfulEqCmp.compare_eq_iff_eq]
        omega
    have hsome : (prevHop (m'.route.idx d) p).isSome := by
      rw [prevHop_isSome_iff, hget, ← prevHop_isSome_iff, hprev]
      rfl
    obtain ⟨prev', hprev'⟩ := Option.isSome_iff_exists.mp hsome
    refine ⟨prev', by rw [sqlPrev, if_neg hp]; exact hprev', ?_⟩
    intro k
    have heq : prev' = hopAt m.route d (p - 1) := by
      rw [prevHop_eq hprev', hopAt, ExtTreeMap.idx_congr hget]
    rw [heq]

/-- What was logged for a destination, and the peer the copy ends with. -/
theorem scan_logs (h : pfrRouteScan cfg p m = some m') (hmin : m.minRtt = Dbl.num 50000) {d : String} (hd : d ∈ m.r) :
    ∃ log, rowAt m'.routeLog1 d p = some log ∧
      log.peerId = (scanPeers cfg.pathMetric p (Dbl.num 50000) (peersAt m.r d p)).peerId ∧
      LogsPeer (peersAt m'.r d p) log.peerId log.avgRtt log.lost ∧
      (scanPeers .metric0 p (Dbl.num 50000) (peersAt m'.r d p)).peerId =
        (scanPeers .metric0 p (Dbl.num 50000) (peersAt m.r d p)).peerId := by
  obtain ⟨out, hout, hr, -, hlog, -⟩ := (scan_spec h).dst d hd
  rw [scanThr_default hmin] at hout
  obtain ⟨hpeer, hlogs, haggs, -⟩ := scanDst_logs hout
  refine ⟨out.log, ?_, hpeer, ?_, ?_⟩
  · rw [rowAt, hlog, ExtTreeMap.idx_insert, if_pos rfl]
  · rw [peersAt, hr]
    exact hlogs
  · apply scanPeers_peer
    rw [peersAt, hr]
    exact haggs

/-- A row of the copy agrees with what the scan logged if both loops end at one peer. -/
theorem rowAgrees_iff [DblOrder F] (h : pfrRouteScan cfg p m = some m') (hmin : m.minRtt = Dbl.num 50000)
    {a : Mem F × List (SqlRow F)} (ha : pfrRouteScanSql p m' = some a) {row : SqlRow F} (hrow : row ∈ a.2) :
    row.dstIp ∈ m.r ∧ (RowAgrees p m m' row ↔
      p = 0 ∨ SameBest cfg.pathMetric .metric0 (Dbl.num 50000) (peersAt m.r row.dstIp p)) := by
  have hw := scanSql_spec ha
  have hd : row.dstIp ∈ m.r := by
    have hmem : row.dstIp ∈ a.2.map (·.dstIp) := List.mem_map_of_mem hrow
    rw [hw.dsts, ExtTreeMap.mem_keys] at hmem
    exact ((scan_spec h).mem_r _).mp hmem
  obtain ⟨probes, hsql⟩ := hw.row row hrow
  rw [scanThr_after h hmin] at hsql
  obtain ⟨hpeer, hlogs, prev, hprev, hcase⟩ := scanSqlDst_logs hsql
  obtain ⟨prev', hprev', hsame⟩ := sqlPrev_after h hd
  rw [hprev] at hprev'
  cases hprev'
  obtain ⟨log, hlog, hlogPeer, hlogLogs, hcopy⟩ := scan_logs h hmin hd
  have hpeer' : row.peerId = (scanPeers .metric0 p (Dbl.num 50000) (peersAt m.r row.dstIp p)).peerId :=
    hpeer.trans hcopy
  refine ⟨hd, ?_⟩
  rw [← scanPeers_same_iff, ← hlogPeer, ← hpeer']
  constructor
  · intro hagree
    obtain ⟨log', hlog', hp', -⟩ := hagree
    rw [hlog] at hlog'
    cases hlog'
    exact hp'.symm
  · intro heq
    have haggs : LogsPeer (peersAt m'.r row.dstIp p) row.peerId row.avgRtt row.lost := by
      rcases hlogs with hz | ⟨hne, tp, htp, ha, hl⟩
      · exact Or.inl hz
      · rw [aggAt_aggs (scanPeers_aggs .metric0 p _ _)] at htp
        exact Or.inr ⟨hne, tp, htp, ha, hl⟩
    rw [heq] at hlogLogs
    obtain ⟨havg, hlost⟩ := haggs.unique hlogLogs
    exact ⟨log, hlog, heq.symm, havg, hlost, by rw [hcase, hsame, heq]⟩

/-- The copy meets no NULL where its loops end at the scan's peers. -/
theorem copy_isSome [DblOrder F] (h : pfrRouteScan cfg p m = some m') (hmin : m.minRtt = Dbl.num 50000)
    (hbest : ∀ d ∈ m.r, p = 0 ∨ SameBest cfg.pathMetric .metric0 (Dbl.num 50000) (peersAt m.r d p)) :
    ∃ a, pfrRouteScanSql p m' = some a := by
  apply scanSql_isSome
  intro d hd'
  have hd := ((scan_spec h).mem_r d).mp hd'
  obtain ⟨log, -, hlogPeer, hlogLogs, hcopy⟩ := scan_logs h hmin hd
  obtain ⟨prev, hprev, -⟩ := sqlPrev_after h hd
  rw [scanPeers_same_iff.mpr (hbest d hd), ← hcopy] at hlogPeer
  rw [hlogPeer] at hlogLogs
  rw [scanThr_after h hmin]
  apply scanSqlDst_isSome hprev
  intro ccase
  exact hlogLogs.sqlRow (scanPeers_aggs .metric0 p (Dbl.num 50000) (peersAt m'.r d p)).symm ccase d p

/-- **When the database log agrees with the decision.** In every round, under every
`path_metric`, the copy run after the scan logs one row for each destination, and each
agrees, if and only if this is round 0 or the best peers below 50000 are those by average. -/
theorem rows_agree_iff [DblOrder F] (h : pfrRouteScan cfg p m = some m') (hmin : m.minRtt = Dbl.num 50000) :
    (∃ a, pfrRouteScanSql p m' = some a ∧ a.2.map (·.dstIp) = m'.r.keys ∧ ∀ row ∈ a.2, RowAgrees p m m' row) ↔
      (p = 0 ∨ ∀ d ∈ m.r, SameBest cfg.pathMetric .metric0 (Dbl.num 50000) (peersAt m.r d p)) := by
  constructor
  · intro hall
    obtain ⟨a, ha, hkeys, hagree⟩ := hall
    by_cases hp : p = 0
    · exact Or.inl hp
    · refine Or.inr fun d hd => ?_
      have hmem : d ∈ a.2.map (·.dstIp) := by
        rw [hkeys, ExtTreeMap.mem_keys]
        exact ((scan_spec h).mem_r d).mpr hd
      obtain ⟨row, hin, rfl⟩ := List.mem_map.mp hmem
      rcases (rowAgrees_iff h hmin ha hin).2.mp (hagree row hin) with h0 | hsame
      · exact absurd h0 hp
      · exact hsame
  · intro hcond
    have hbest : ∀ d ∈ m.r, p = 0 ∨ SameBest cfg.pathMetric .metric0 (Dbl.num 50000) (peersAt m.r d p) :=
      fun d hd => hcond.imp_right fun hall => hall d hd
    obtain ⟨a, ha⟩ := copy_isSome h hmin hbest
    refine ⟨a, ha, (scanSql_spec ha).dsts, ?_⟩
    intro row hin
    obtain ⟨hd, hiff⟩ := rowAgrees_iff h hmin ha hin
    exact hiff.mpr (hbest _ hd)

end Agree

/-- One peer answers in round 1, under `metric1`. -/
theorem rows_agree_run : ∃ (s : State ℚ) (m' : Mem ℚ), (Lts.Path step AnyStep
      (State.init { Config.default with pathMetric := .metric1 } (Dbl.num 50000) (.ofRows [(1, ⟨"192.0.2.1", "1:1"⟩)])) s ∧
    s.pc = .phase .scan ∧ s.probeId = 1 ∧ pfrRouteScan s.cfg s.probeId s.mem = some m') ∧
    ∃ a, pfrRouteScanSql s.probeId m' = some a ∧ a.2.map (·.dstIp) = m'.r.keys ∧
      ∀ row ∈ a.2, RowAgrees s.probeId s.mem m' row := by
  obtain ⟨s, hs, hpc, hp, hmin, hkeys, hsame, hstep⟩ := exists_run (G := AnyStep)
    (State.init { Config.default with pathMetric := .metric1 } (Dbl.num 50000 : ℚ) (.ofRows [(1, ⟨"192.0.2.1", "1:1"⟩)]))
    (roundEvents ["198.51.100.7"] [] ++ (roundEvents ["198.51.100.7"] [⟨"198.51.100.7", 1, 1, 1, 20, 1⟩]).take 11)
    (fun s => s.pc = .phase .scan ∧ s.probeId = 1 ∧ s.mem.minRtt = Dbl.num 50000 ∧
      s.mem.r.keys = ["198.51.100.7"] ∧
      (pickLoop s.cfg.pathMetric (Dbl.num 50000) (peersAt s.mem.r "198.51.100.7" s.probeId)).peerId =
        (pickLoop .metric0 (Dbl.num 50000) (peersAt s.mem.r "198.51.100.7" s.probeId)).peerId ∧
      (pfrRouteScan s.cfg s.probeId s.mem).isSome) (by decide +kernel)
  obtain ⟨m', hm'⟩ := Option.isSome_iff_exists.mp hstep
  refine ⟨s, m', ⟨hs, hpc, hp, hm'⟩, (rows_agree_iff hm' hmin).mpr (Or.inr ?_)⟩
  intro d hd
  rw [← ExtTreeMap.mem_keys, hkeys, List.mem_singleton] at hd
  rw [hd]
  exact pickLoop_same_iff.mp hsame

/-- Peer 1 answers one request of two after 10 ms, peer 2 both after 15 ms. Under `metric1`
the scan takes peer 2 (15 against 20), and the row names peer 1. -/
theorem row_names_other_peer : ¬∀ (s : State ℚ) (m' : Mem ℚ),
    Lts.Path step AnyStep (State.init { Config.default with pathMetric := .metric1, pfrPingReq := 2 } (Dbl.num 50000)
      (.ofRows [(1, ⟨"192.0.2.1", "1:1"⟩), (2, ⟨"192.0.2.2", "1:2"⟩)])) s →
      s.pc = .phase .scan → s.mem.minRtt = Dbl.num 50000 → pfrRouteScan s.cfg s.probeId s.mem = some m' →
      ∃ a, pfrRouteScanSql s.probeId m' = some a ∧ a.2.map (·.dstIp) = m'.r.keys ∧
        ∀ row ∈ a.2, RowAgrees s.probeId s.mem m' row := by
  intro hall
  obtain ⟨s, hs, hpc, hmin, hscan⟩ := exists_run (G := AnyStep)
    (State.init { Config.default with pathMetric := .metric1, pfrPingReq := 2 } (Dbl.num 50000 : ℚ)
      (.ofRows [(1, ⟨"192.0.2.1", "1:1"⟩), (2, ⟨"192.0.2.2", "1:2"⟩)]))
    (roundEvents ["198.51.100.7"] [] ++ (roundEvents ["198.51.100.7"]
      [⟨"198.51.100.7", 1, 1, 1, 10, 1⟩, ⟨"198.51.100.7", 1, 2, 1, 15, 1⟩, ⟨"198.51.100.7", 1, 2, 2, 15, 1⟩]).take 17)
    (fun s => s.pc = .phase .scan ∧ s.mem.minRtt = Dbl.num 50000 ∧
      (pfrRouteScan s.cfg s.probeId s.mem).any fun m' => (pfrRouteScanSql s.probeId m').all fun a =>
        a.2.any fun row => (rowAt m'.routeLog1 row.dstIp s.probeId).all fun log => row.peerId ≠ log.peerId)
    (by decide +kernel)
  obtain ⟨m', hm', hrow⟩ := Option.any_eq_true _ _ |>.mp hscan
  obtain ⟨a, ha, -, hagree⟩ := hall s m' hs hpc hmin hm'
  rw [ha, Option.all_some] at hrow
  obtain ⟨row, hin, hne⟩ := List.any_eq_true.mp hrow
  obtain ⟨log, hlog, hpeer, -⟩ := hagree row hin
  rw [hlog, Option.all_some] at hne
  exact of_decide_eq_true hne hpeer

end Pfr

import Pfr.Pick

/- `pfr_route_scan`: for each destination, in key order, the peer of the round's
   least metric and the routing decision taken from it.

   The loop body at one destination reads only that destination's records and the
   global `min_rtt`, which it puts back to 50000; `scanDst` is that body, and
   `pfrRouteScan` runs it at each key. Proved here:
   1. `scan_spec`: what the whole scan stores for each destination, in terms of the
      body on the state before the scan (`scanThr` is the value of `min_rtt` the
      body starts from), and that nothing else moves;
   2. `scanDst_pos`, `scanDst_zero`: the decision in a round p ≥ 1 and in round 0;
   3. `scan_hops`, `scan_decision`: the decisions a scan leaves;
   4. `ReadsNull`, `scan_isSome_iff`: when the body dereferences NULL. -/
namespace Pfr

open Std

variable {F : Type} [Dbl F]

/-- The state after the loop over the peers: `min_rtt`, `peer_id`, the peers
(reading `[99]` inserts a NULL where it is absent), and in round 0 the decision. -/
structure PeersOut (F : Type) where
  minRtt : F
  peerId : Int
  peers : Peers F
  hop : Option (RtParm F)

def scanPeers (pm : PathMetric) (probeId : Nat) (thr : F) (peers : Peers F) : PeersOut F :=
  if probeId = 0 then
    -- the first peer is taken and the loop is left
    match peers.toList with
    | [] => ⟨thr, 0, peers, none⟩
    | (k, s) :: _ =>
      let minRtt := ((s.idx 99).bind (selMetric pm)).getD thr
      ⟨minRtt, k, peers.insert k (s.upd 99 id), some ⟨0, minRtt, k, minRtt⟩⟩
  else
    let a := pickLoop pm thr peers
    ⟨a.minRtt, a.peerId, peers.map (fun _ s => s.upd 99 id), none⟩

/-- `min_rtt` and the log row read back from the chosen peer's aggregate, or zeros
when `peer_id` is 0. -/
def scanRow (pm : PathMetric) (peers : Peers F) (peerId : Int) (minRtt : F) : Option (F × Tlog F) :=
  if peerId ≠ 0 then do
    let tp ← aggAt peers peerId
    let minRtt := (selMetric pm tp).getD minRtt
    return (minRtt, ⟨peerId, minRtt, tp.avgRtt, tp.minRtt, tp.maxRtt, tp.stddevRtt, tp.medianaRtt, tp.lost⟩)
  else
    let z : F := Dbl.num 0
    some (z, ⟨peerId, z, z, z, z, z, z, 0⟩)

/-- `delta1 > min_rtt`. -/
def fmove (cfg : Config) (prevMinRtt minRtt : F) : Prop :=
  minRtt < prevMinRtt - minRtt * (Dbl.num cfg.rttLeastThresh / Dbl.num 100)

instance (cfg : Config) (prevMinRtt minRtt : F) : Decidable (fmove cfg prevMinRtt minRtt) :=
  inferInstanceAs (Decidable (_ < _))

/-- The decision of a round p ≥ 1 from `route[dst_ip][probe_id - 1]`, if there is one. -/
def chooseHop (cfg : Config) (prev : Option (RtParm F)) (peerId : Int) (minRtt : F) : RtParm F :=
  match prev with
  | none => ⟨0, minRtt, peerId, minRtt⟩ -- case 1.1
  | some rp =>
    if peerId = 0 then ⟨rp.currPeerId, rp.cminRtt, rp.currPeerId, minRtt⟩ -- case 2.0
    else if cfg.rttLeastMove ∧ ¬fmove cfg rp.cminRtt minRtt then -- case 2.1, kept
      ⟨rp.currPeerId, rp.cminRtt, rp.currPeerId, rp.cminRtt⟩
    else ⟨rp.currPeerId, rp.cminRtt, peerId, minRtt⟩ -- case 2.1, moved

/-- What the body stores for a destination; `hops = none` leaves `route` as it is. -/
structure ScanOut (F : Type) where
  probes : Probes F
  hops : Option (Hops F)
  log : Tlog F

/-- The body of the scan at one destination, `min_rtt` being `thr`. -/
def scanDst (cfg : Config) (probeId : Nat) (thr : F) (probes : Probes F) (hops : Hops F) :
    Option (ScanOut F) := do
  let c := scanPeers cfg.pathMetric probeId thr (probes.idx probeId)
  let row ← scanRow cfg.pathMetric c.peers c.peerId c.minRtt
  if probeId = 0 then
    -- there is no earlier decision to compare with: the loop's own one is stored, if it made one
    return ⟨probes.insert probeId c.peers, c.hop.map (fun hop => hops.insert probeId (some hop)), row.2⟩
  else
    let prev ← prevHop hops probeId
    return ⟨probes.insert probeId c.peers,
      some (hops.insert probeId (some (chooseHop cfg prev c.peerId row.1))), row.2⟩

def scanStep (cfg : Config) (probeId : Nat) (m : Mem F) (dstIp : String) : Option (Mem F) := do
  let out ← scanDst cfg probeId m.minRtt (m.r.idx dstIp) (m.route.idx dstIp)
  return { m with
    r := m.r.insert dstIp out.probes
    route := out.hops.elim m.route (m.route.insert dstIp)
    routeLog1 := m.routeLog1.upd dstIp (fun l => l.insert probeId (some out.log))
    -- so only the first destination of a scan may meet another value
    minRtt := Dbl.num 50000 }

def pfrRouteScan (cfg : Config) (probeId : Nat) (m : Mem F) : Option (Mem F) :=
  m.r.keys.foldlM (scanStep cfg probeId) m

/-! ## The whole scan -/

/-- The value of `min_rtt` the walk reaches a destination with. -/
def scanThr (m : Mem F) (dstIp : String) : F :=
  if m.r.keys.head? = some dstIp then m.minRtt else Dbl.num 50000

/-- What a scan does: the part of the memory it does not touch, and each
destination's entries. -/
structure ScanSpec (cfg : Config) (p : Nat) (m m' : Mem F) : Prop where
  mm : m'.mm = m.mm
  calls : m'.calls = m.calls
  cmds : m'.cmds = m.cmds
  minRtt : m'.minRtt = if m.r.keys = [] then m.minRtt else Dbl.num 50000
  mem_r : ∀ d, d ∈ m'.r ↔ d ∈ m.r
  dst : ∀ d, d ∈ m.r → ∃ out, scanDst cfg p (scanThr m d) (m.r.idx d) (m.route.idx d) = some out ∧
    m'.r.idx d = out.probes ∧ m'.route[d]? = (out.hops <|> m.route[d]?) ∧
    m'.routeLog1.idx d = (m.routeLog1.idx d).insert p (some out.log) ∧ d ∈ m'.routeLog1
  off : ∀ d, d ∉ m.r → m'.route[d]? = m.route[d]? ∧ m'.routeLog1[d]? = m.routeLog1[d]?

/-- The walk after the destinations of `done`. -/
structure ScanWalk (cfg : Config) (p : Nat) (m : Mem F) (done : List String) (t : Mem F) : Prop where
  mm : t.mm = m.mm
  calls : t.calls = m.calls
  cmds : t.cmds = m.cmds
  minRtt : t.minRtt = if done = [] then m.minRtt else Dbl.num 50000
  mem_r : ∀ d, d ∈ t.r ↔ d ∈ m.r
  dst : ∀ d, d ∈ done → ∃ out, scanDst cfg p (scanThr m d) (m.r.idx d) (m.route.idx d) = some out ∧
    t.r.idx d = out.probes ∧ t.route[d]? = (out.hops <|> m.route[d]?) ∧
    t.routeLog1.idx d = (m.routeLog1.idx d).insert p (some out.log) ∧ d ∈ t.routeLog1
  off : ∀ d, d ∉ done → t.r.idx d = m.r.idx d ∧ t.route[d]? = m.route[d]? ∧ t.routeLog1[d]? = m.routeLog1[d]?

theorem scanThr_of_split {m : Mem F} {done rest : List String} {k : String}
    (hl : m.r.keys = done ++ k :: rest) (hk : k ∉ done) :
    scanThr m k = if done = [] then m.minRtt else Dbl.num 50000 := by
  rw [scanThr, hl]
  cases done with
  | nil => simp
  | cons a done =>
    have hak : a ≠ k := fun h => hk (by simp [h])
    simp [hak]

theorem scanStep_walk {cfg : Config} {p : Nat} {m t t' : Mem F} {done rest : List String} {k : String}
    (hl : m.r.keys = done ++ k :: rest) (hk : k ∉ done) (hw : ScanWalk cfg p m done t)
    (h : scanStep cfg p t k = some t') : ScanWalk cfg p m (done ++ [k]) t' := by
  obtain ⟨hr, hroute, hlog⟩ := hw.off k hk
  have hkr : k ∈ m.r := by rw [← ExtTreeMap.mem_keys, hl]; simp
  obtain ⟨out, hout, ht'⟩ := Option.bind_eq_some_iff.mp h
  cases ht'
  rw [hr, ExtTreeMap.idx_congr hroute, hw.minRtt, ← scanThr_of_split hl hk] at hout
  have hlogk : t.routeLog1.idx k = m.routeLog1.idx k := ExtTreeMap.idx_congr hlog
  refine ⟨hw.mm, hw.calls, hw.cmds, by simp, ?_, ?_, ?_⟩
  · intro d
    rw [ExtTreeMap.mem_insert, LawfulEqCmp.compare_eq_iff_eq, hw.mem_r]
    constructor
    · rintro (rfl | hd)
      · exact hkr
      · exact hd
    · exact Or.inr
  · intro d hd
    rcases List.mem_append.mp hd with hd | hd
    · have hne : k ≠ d := fun e => hk (e ▸ hd)
      obtain ⟨o, ho, h1, h2, h3, h4⟩ := hw.dst d hd
      refine ⟨o, ho, ?_, ?_, ?_, ?_⟩
      · rw [ExtTreeMap.idx_insert, if_neg hne, h1]
      · cases out.hops with
        | none => exact h2
        | some hops => simpa [ExtTreeMap.getElem?_insert, hne] using h2
      · rw [ExtTreeMap.idx_upd, if_neg hne, h3]
      · exact ExtTreeMap.mem_upd.mpr (Or.inr h4)
    · rw [List.mem_singleton] at hd
      subst hd
      refine ⟨out, hout, ?_, ?_, ?_, ?_⟩
      · rw [ExtTreeMap.idx_insert, if_pos rfl]
      · cases out.hops with
        | none => exact hroute
        | some hops => simp
      · rw [ExtTreeMap.idx_upd, if_pos rfl, hlogk]
      · exact ExtTreeMap.mem_upd.mpr (Or.inl rfl)
  · intro d hd
    rw [List.mem_append, List.mem_singleton, not_or] at hd
    have hne : k ≠ d := fun e => hd.2 e.symm
    obtain ⟨h1, h2, h3⟩ := hw.off d hd.1
    refine ⟨?_, ?_, ?_⟩
    · rw [ExtTreeMap.idx_insert, if_neg hne, h1]
    · cases out.hops with
      | none => exact h2
      | some hops => simpa [ExtTreeMap.getElem?_insert, hne] using h2
    · rw [ExtTreeMap.getElem?_upd, if_neg hne, h3]

theorem scanWalk_nil (cfg : Config) (p : Nat) (m : Mem F) : ScanWalk cfg p m [] m where
  mm := rfl
  calls := rfl
  cmds := rfl
  minRtt := by simp
  mem_r := fun _ => Iff.rfl
  dst := by simp
  off := fun _ _ => ⟨rfl, rfl, rfl⟩

/-- **The scan, destination by destination.** -/
theorem scan_spec {cfg : Config} {p : Nat} {m m' : Mem F} (h : pfrRouteScan cfg p m = some m') :
    ScanSpec cfg p m m' := by
  have hw : ScanWalk cfg p m m.r.keys m' :=
    List.foldlM_walk ExtTreeMap.nodup_keys (scanWalk_nil cfg p m)
      (fun _ _ _ _ _ hl hk hI hs => scanStep_walk hl hk hI hs) h
  exact {
    mm := hw.mm
    calls := hw.calls
    cmds := hw.cmds
    minRtt := hw.minRtt
    mem_r := hw.mem_r
    dst := fun d hd => hw.dst d (ExtTreeMap.mem_keys.mpr hd)
    off := fun d hd => (hw.off d (fun hm => hd (ExtTreeMap.mem_keys.mp hm))).2 }

/-- The scan meets no NULL when its body meets none at any destination. -/
theorem scan_isSome {cfg : Config} {p : Nat} {m : Mem F}
    (h : ∀ d, d ∈ m.r → (scanDst cfg p (scanThr m d) (m.r.idx d) (m.route.idx d)).isSome) :
    ∃ m', pfrRouteScan cfg p m = some m' := by
  refine List.foldlM_walk_isSome (I := ScanWalk cfg p m) ExtTreeMap.nodup_keys (scanWalk_nil cfg p m) ?_
  intro done k rest t hl hk hw
  have hkr : k ∈ m.r := by rw [← ExtTreeMap.mem_keys, hl]; simp
  obtain ⟨out, hout⟩ := Option.isSome_iff_exists.mp (h k hkr)
  have hstep : ∃ t', scanStep cfg p t k = some t' := by
    obtain ⟨hr, hroute, -⟩ := hw.off k hk
    rw [scanThr_of_split hl hk, ← hw.minRtt, ← hr, ← ExtTreeMap.idx_congr hroute] at hout
    exact ⟨_, by rw [scanStep, hout]; rfl⟩
  obtain ⟨t', ht'⟩ := hstep
  exact ⟨t', ht', scanStep_walk hl hk hw ht'⟩

/-! ## The decision at one destination -/

/-- A round p ≥ 1: the decision is `chooseHop` at the loop's peer, with the least
metric read back from that peer's aggregate. -/
theorem scanDst_pos {cfg : Config} {p : Nat} (hp : p ≠ 0) {thr : F} {probes : Probes F} {hops : Hops F}
    {out : ScanOut F} (h : scanDst cfg p thr probes hops = some out) :
    ∃ prev minRtt, prevHop hops p = some prev ∧
      out.hops = some (hops.insert p (some
        (chooseHop cfg prev (pickLoop cfg.pathMetric thr (probes.idx p)).peerId minRtt))) ∧
      out.log.peerId = (pickLoop cfg.pathMetric thr (probes.idx p)).peerId ∧
      out.probes = probes.insert p ((probes.idx p).map (fun _ s => s.upd 99 id)) ∧
      (((pickLoop cfg.pathMetric thr (probes.idx p)).peerId = 0 ∧ minRtt = Dbl.num 0) ∨
        ∃ tp, aggAt (probes.idx p) (pickLoop cfg.pathMetric thr (probes.idx p)).peerId = some tp ∧
          minRtt = (selMetric cfg.pathMetric tp).getD (pickLoop cfg.pathMetric thr (probes.idx p)).minRtt) := by
  unfold scanDst at h
  simp only [scanPeers, if_neg hp] at h
  obtain ⟨row, hrow, h⟩ := Option.bind_eq_some_iff.mp h
  obtain ⟨prev, hprev, h⟩ := Option.bind_eq_some_iff.mp h
  cases h
  refine ⟨prev, row.1, hprev, rfl, ?_, rfl, ?_⟩
  · unfold scanRow at hrow
    split at hrow
    · obtain ⟨tp, -, hrow⟩ := Option.bind_eq_some_iff.mp hrow
      cases hrow
      rfl
    · cases hrow
      rfl
  · unfold scanRow at hrow
    split at hrow
    · obtain ⟨tp, htp, hrow⟩ := Option.bind_eq_some_iff.mp hrow
      cases hrow
      rw [aggAt_touched] at htp
      exact Or.inr ⟨tp, htp, rfl⟩
    · next h0 =>
      cases hrow
      exact Or.inl ⟨not_not.mp h0, rfl⟩

/-- Round 0: no peer answered and `route` is left alone, or the lowest-numbered
one that did is taken. -/
theorem scanDst_zero {cfg : Config} {thr : F} {probes : Probes F} {hops : Hops F} {out : ScanOut F}
    (h : scanDst cfg 0 thr probes hops = some out) :
    (probes.idx 0 = ∅ ∧ out.hops = none) ∨
      ∃ k minRtt, k ∈ probes.idx 0 ∧ (∀ k' ∈ probes.idx 0, k ≤ k') ∧
        out.hops = some (hops.insert 0 (some ⟨0, minRtt, k, minRtt⟩)) := by
  unfold scanDst at h
  obtain ⟨row, -, h⟩ := Option.bind_eq_some_iff.mp h
  simp only [if_true] at h
  cases h
  simp only [scanPeers, if_true, Nat.cast_zero]
  split
  · next hl => exact Or.inl ⟨ExtTreeMap.toList_eq_nil_iff.mp hl, rfl⟩
  · next k s rest hl =>
    refine Or.inr ⟨k, _, ?_, ?_, rfl⟩
    · have hk : (k, s) ∈ (probes.idx 0).toList := by rw [hl]; simp
      exact ExtTreeMap.mem_of_getElem? (ExtTreeMap.mem_toList_iff_getElem?_eq_some.mp hk)
    · intro k' hk'
      have hmem := mem_toList_of_mem hk'
      rw [hl] at hmem
      have hsort := ExtTreeMap.ordered_keys_toList (t := probes.idx 0)
      rw [hl, List.pairwise_cons] at hsort
      rcases List.mem_cons.mp hmem with he | htl
      · cases he
        exact Int.le_refl _
      · exact Int.le_of_lt (Int.compare_eq_lt.mp (hsort.1 _ htl))

/-- The records a scan leaves at a destination: the other rounds' are the same,
and the round's peers are, up to an inserted NULL aggregate. -/
theorem scanDst_probes {cfg : Config} {p : Nat} {thr : F} {probes : Probes F} {hops : Hops F}
    {out : ScanOut F} (h : scanDst cfg p thr probes hops = some out) :
    ∃ peers, out.probes = probes.insert p peers ∧ ∀ k : Int,
      peers[k]? = (probes.idx p)[k]? ∨ peers[k]? = (probes.idx p)[k]?.map (fun s => s.upd 99 id) := by
  by_cases hp : p = 0
  · subst hp
    unfold scanDst at h
    obtain ⟨row, -, h⟩ := Option.bind_eq_some_iff.mp h
    simp only [if_true] at h
    cases h
    refine ⟨_, rfl, ?_⟩
    intro k
    simp only [scanPeers, if_true]
    split
    · exact Or.inl rfl
    · next k0 s rest hl =>
      have hk0 : (probes.idx (0 : Nat))[k0]? = some s :=
        ExtTreeMap.mem_toList_iff_getElem?_eq_some.mp (by rw [hl]; simp)
      simp only [ExtTreeMap.getElem?_insert, LawfulEqCmp.compare_eq_iff_eq]
      split
      · next he => rw [← he, hk0]; exact Or.inr rfl
      · exact Or.inl rfl
  · obtain ⟨_, _, -, -, -, hpr, -⟩ := scanDst_pos hp h
    exact ⟨_, hpr, fun k => Or.inr (by rw [ExtTreeMap.getElem?_map])⟩

/-- The body meets no NULL when the round's aggregates and the previous decision
are there. -/
theorem scanDst_isSome {cfg : Config} {p : Nat} {thr : F} {probes : Probes F} {hops : Hops F}
    (hagg : ∀ k, k ∈ probes.idx p → (aggAt (probes.idx p) k).isSome)
    (hprev : ∀ v, hops[(p - 1 : Int)]? = some v → v.isSome) : (scanDst cfg p thr probes hops).isSome := by
  have hrow : ∀ (peers : Peers F) (k : Int) (v : F), (k ≠ 0 → (aggAt peers k).isSome) →
      ∃ row, scanRow cfg.pathMetric peers k v = some row := by
    intro peers k v hk
    unfold scanRow
    split
    · next h0 =>
      obtain ⟨tp, htp⟩ := Option.isSome_iff_exists.mp (hk h0)
      exact ⟨_, by rw [htp]; rfl⟩
    · exact ⟨_, rfl⟩
  unfold scanDst
  by_cases hp : p = 0
  · subst hp
    simp only [scanPeers, if_true]
    split
    · obtain ⟨row, hr⟩ := hrow (probes.idx (0 : Nat)) 0 thr (fun h => absurd rfl h)
      rw [hr]; rfl
    · next k s rest hl =>
      have hmem : (k, s) ∈ (probes.idx (0 : Nat)).toList := by rw [hl]; simp
      have hs := aggAt_of_mem_toList hmem
      simp only at hs
      have hk : k ∈ probes.idx (0 : Nat) :=
        ExtTreeMap.mem_of_getElem? (ExtTreeMap.mem_toList_iff_getElem?_eq_some.mp hmem)
      obtain ⟨row, hr⟩ := hrow ((probes.idx (0 : Nat)).insert k (s.upd 99 id)) k
        (((s.idx 99).bind (selMetric cfg.pathMetric)).getD thr) (fun _ => by
          rw [aggAt, ExtTreeMap.idx_insert, if_pos rfl, ExtTreeMap.idx_upd_id, ← hs]
          exact hagg k hk)
      simp only [hr]
      rfl
  · simp only [scanPeers, if_neg hp]
    obtain ⟨row, hr⟩ := hrow ((probes.idx p).map (fun _ s => s.upd 99 id))
      (pickLoop cfg.pathMetric thr (probes.idx p)).peerId (pickLoop cfg.pathMetric thr (probes.idx p)).minRtt
      (fun h0 => by
        rw [aggAt_touched]
        rcases pickLoop_peer cfg.pathMetric thr (probes.idx p) with h | h
        · exact absurd h h0
        · exact hagg _ h)
    obtain ⟨prev, hpv⟩ := prevHop_isSome hprev
    simp only [hr, hpv]
    rfl

/-! ## The decisions after the scan -/

/-- The previous peer of a decision is the current one of the decision before it. -/
theorem chooseHop_prev (cfg : Config) (rp : RtParm F) (k : Int) (v : F) :
    (chooseHop cfg (some rp) k v).prevPeerId = rp.currPeerId := by
  unfold chooseHop
  simp only
  split
  · rfl
  · split <;> rfl

/-- A scan changes `route[d]` at the round's key only, where it stores a decision. -/
theorem scan_hops {cfg : Config} {p : Nat} {m m' : Mem F} (h : ScanSpec cfg p m m') (d : String) :
    m'.route[d]? = m.route[d]? ∨
      (d ∈ m.r ∧ ∃ rp, m'.route[d]? = some ((m.route.idx d).insert p (some rp))) := by
  by_cases hd : d ∈ m.r
  · obtain ⟨out, hout, -, hroute, -⟩ := h.dst d hd
    by_cases hp : p = 0
    · subst hp
      rcases scanDst_zero hout with ⟨-, hnone⟩ | ⟨k, v, -, -, hsome⟩
      · rw [hnone] at hroute
        exact Or.inl hroute
      · rw [hsome] at hroute
        exact Or.inr ⟨hd, _, hroute⟩
    · obtain ⟨prev, v, -, hsome, -⟩ := scanDst_pos hp hout
      rw [hsome] at hroute
      exact Or.inr ⟨hd, _, hroute⟩
  · exact Or.inl (h.off d hd).1

theorem scan_hopAt_ne {cfg : Config} {p : Nat} {m m' : Mem F} (h : ScanSpec cfg p m m') (d : String) {q : Int}
    (hq : (p : Int) ≠ q) : hopAt m'.route d q = hopAt m.route d q := by
  rcases scan_hops h d with heq | ⟨-, rp, heq⟩
  · exact hopAt_congr heq q
  · rw [hopAt, ExtTreeMap.idx_of_getElem? heq, ExtTreeMap.idx_insert, if_neg hq, hopAt]

/-- The peer a scan of a round p ≥ 1 finds for a destination, 0 for none. -/
def scanPeer (cfg : Config) (p : Nat) (m : Mem F) (d : String) : Int :=
  (pickLoop cfg.pathMetric (scanThr m d) (peersAt m.r d p)).peerId

/-- **The decision of a round p ≥ 1**: `chooseHop` on the decision of the round
before, with 0 or the metric read back from the chosen peer's aggregate. -/
theorem scan_decision {cfg : Config} {p : Nat} (hp : p ≠ 0) {m m' : Mem F} (h : ScanSpec cfg p m m') {d : String}
    (hd : d ∈ m.r) : ∃ minRtt,
      hopAt m'.route d p = some (chooseHop cfg (hopAt m.route d (p - 1)) (scanPeer cfg p m d) minRtt) ∧
      ((scanPeer cfg p m d = 0 ∧ minRtt = Dbl.num 0) ∨
        ∃ tp, aggAt (peersAt m.r d p) (scanPeer cfg p m d) = some tp ∧
          minRtt = (selMetric cfg.pathMetric tp).getD
            (pickLoop cfg.pathMetric (scanThr m d) (peersAt m.r d p)).minRtt) := by
  obtain ⟨out, hout, -, hroute, -⟩ := h.dst d hd
  obtain ⟨prev, minRtt, hprev, hsome, -, -, hmin⟩ := scanDst_pos hp hout
  rw [hsome] at hroute
  refine ⟨minRtt, ?_, hmin⟩
  rw [hopAt, ExtTreeMap.idx_of_getElem? hroute, ExtTreeMap.idx_insert, if_pos rfl, prevHop_eq hprev]
  rfl

/-- The decision of round 0, where there is one. -/
theorem scan_decision_zero {cfg : Config} {m m' : Mem F} (h : ScanSpec cfg 0 m m') (d : String) :
    (peersAt m.r d 0 = ∅ ∧ m'.route[d]? = m.route[d]?) ∨ ∃ k v, k ∈ peersAt m.r d 0 ∧ (∀ k' ∈ peersAt m.r d 0, k ≤ k') ∧
      hopAt m'.route d 0 = some ⟨0, v, k, v⟩ := by
  by_cases hd : d ∈ m.r
  · obtain ⟨out, hout, -, hroute, -⟩ := h.dst d hd
    rcases scanDst_zero hout with ⟨hnil, hnone⟩ | ⟨k, v, hk, hle, hsome⟩
    · rw [hnone] at hroute
      exact Or.inl ⟨hnil, hroute⟩
    · rw [hsome] at hroute
      refine Or.inr ⟨k, v, hk, hle, ?_⟩
      rw [hopAt, ExtTreeMap.idx_of_getElem? hroute, ExtTreeMap.idx_insert, if_pos rfl]
  · refine Or.inl ⟨?_, (h.off d hd).1⟩
    rw [peersAt, ExtTreeMap.idx_of_not_mem hd]
    exact ExtTreeMap.idx_empty 0

/-- The peers a scan leaves are those it found. -/
theorem scan_mem_peers {cfg : Config} {p : Nat} {m m' : Mem F} (h : ScanSpec cfg p m m') (d : String) (q k : Int) :
    k ∈ peersAt m'.r d q ↔ k ∈ peersAt m.r d q := by
  by_cases hd : d ∈ m.r
  · obtain ⟨out, hout, hr, -⟩ := h.dst d hd
    obtain ⟨peers, hpr, hpeers⟩ := scanDst_probes hout
    rw [peersAt, hr, hpr, ExtTreeMap.idx_insert]
    split
    · next he =>
      subst he
      rw [ExtTreeMap.mem_iff_isSome_getElem?, ExtTreeMap.mem_iff_isSome_getElem?, peersAt]
      rcases hpeers k with he | he
      · rw [he]
      · rw [he, Option.isSome_map]
    · rfl
  · have hd' : d ∉ m'.r := fun hm => hd ((h.mem_r d).mp hm)
    rw [peersAt, peersAt, ExtTreeMap.idx_of_not_mem hd, ExtTreeMap.idx_of_not_mem hd']

/-! ## When it meets a NULL -/

/-- What the body dereferences at a destination is NULL: the aggregate of a first peer
it takes at 0, or the decision of the round before. -/
def ReadsNull (pm : PathMetric) (p : Int) (thr : F) (peers : Peers F) (hops : Hops F) : Prop :=
  (∃ k, k ≠ 0 ∧ LeadNull thr peers k ∧ ∀ k' w, metricAt pm peers k' = some w → ¬w < Dbl.num 0) ∨
    hops[p - 1]? = some none

section Null
variable {cfg : Config} {pm : PathMetric} {p : Nat} {thr : F} {probes : Probes F} {peers : Peers F} {hops : Hops F}

/-- Such a first peer is the best one if no metric is negative. -/
theorem LeadNull.best [DblOrder F] (hpm : pm.Read) {k : Int} (h : LeadNull thr peers k)
    (hneg : ∀ k' w, metricAt pm peers k' = some w → ¬w < Dbl.num 0) : IsBest (scanValue pm peers) k (Dbl.num 0) := by
  have hlow : ∀ k', k' ∈ peers → k ≤ k' := fun k' hk' => h.2.2.1 k' (ExtTreeMap.mem_keys.mpr hk')
  refine ⟨h.value pm, ?_, ?_⟩
  · intro k' w hw
    rcases scanValue_cases hpm hw with hmet | ⟨hzero, -⟩
    · exact hneg k' w hmet
    · rw [hzero]
      exact DblOrder.irrefl _
  · intro k' hw
    rcases scanValue_cases hpm hw with hmet | ⟨-, hk', -⟩
    · exact hlow k' (mem_of_metricAt hmet)
    · exact hlow k' hk'

/-- The loop ends at a peer without an aggregate only as such a first peer. -/
theorem pickLoop_null_iff [DblOrder F] (hpm : pm.Read) :
    ((pickLoop pm thr peers).peerId ≠ 0 ∧ aggAt peers (pickLoop pm thr peers).peerId = none) ↔
      ∃ k, k ≠ 0 ∧ LeadNull thr peers k ∧ ∀ k' w, metricAt pm peers k' = some w → ¬w < Dbl.num 0 := by
  constructor
  · intro h
    obtain ⟨hne, hnull⟩ := h
    rcases pickLoop_cases hpm thr peers with ⟨h0, -⟩ | ⟨hbest, -⟩ | ⟨k, hlead, hk, hneg⟩
    · exact absurd h0 hne
    · have hval := hbest.val
      rw [metricAt, hnull] at hval
      cases hval
    · exact ⟨k, hk ▸ hne, hlead, hneg⟩
  · intro h
    obtain ⟨k, hne, hlead, hneg⟩ := h
    rcases pickLoop_value pm thr peers with ⟨-, hnone⟩ | ⟨hbest, -⟩
    · exact absurd hlead.1 (hnone k _ (hlead.value pm))
    · rw [(hbest.unique (hlead.best hpm hneg)).1]
      exact ⟨hne, hlead.2.2.2⟩

theorem scanRow_isSome_iff (pm : PathMetric) (peers : Peers F) (k : Int) (v : F) :
    (scanRow pm peers k v).isSome ↔ ¬(k ≠ 0 ∧ aggAt peers k = none) := by
  unfold scanRow
  by_cases hk : k = 0
  · simp [hk]
  · cases haggr : aggAt peers k <;> simp [hk]

omit [Dbl F] in
theorem prevHop_isSome_iff (q : Int) : (prevHop hops q).isSome ↔ hops[q - 1]? ≠ some none := by
  unfold prevHop
  by_cases hq : q - 1 ∈ hops
  · rw [if_pos hq, Option.isSome_map, ExtTreeMap.getElem?_idx hq]
    cases hops.idx (q - 1) <;> simp
  · rw [if_neg hq, ExtTreeMap.getElem?_eq_none hq]
    simp

/-- **When the body meets no NULL** in a round p ≥ 1. -/
theorem scanDst_isSome_iff [DblOrder F] (hpm : cfg.pathMetric.Read) (hp : p ≠ 0) :
    (scanDst cfg p thr probes hops).isSome ↔ ¬ReadsNull cfg.pathMetric p thr (probes.idx p) hops := by
  have hrow := scanRow_isSome_iff cfg.pathMetric ((probes.idx p).map (fun _ s => s.upd 99 id))
    (pickLoop cfg.pathMetric thr (probes.idx p)).peerId (pickLoop cfg.pathMetric thr (probes.idx p)).minRtt
  rw [aggAt_touched, pickLoop_null_iff hpm] at hrow
  rw [ReadsNull, not_or, ← hrow, ← ne_eq (a := hops[(p : Int) - 1]?), ← prevHop_isSome_iff]
  unfold scanDst
  simp only [scanPeers, if_neg hp]
  cases scanRow cfg.pathMetric ((probes.idx p).map (fun _ s => s.upd 99 id))
      (pickLoop cfg.pathMetric thr (probes.idx p)).peerId (pickLoop cfg.pathMetric thr (probes.idx p)).minRtt with
  | none => simp
  | some row => cases prevHop hops p <;> simp

end Null

/-- The scan of the round dereferences no NULL, at any destination. -/
def NoNull (cfg : Config) (p : Nat) (m : Mem F) : Prop :=
  ∀ e ∈ m.r, ¬ReadsNull cfg.pathMetric p (scanThr m e) (peersAt m.r e p) (m.route.idx e)

/-- The scan of a round p ≥ 1 ends if and only if its body meets no NULL anywhere. -/
theorem scan_isSome_iff [DblOrder F] {cfg : Config} (hpm : cfg.pathMetric.Read) {p : Nat} (hp : p ≠ 0) (m : Mem F) :
    (∃ m', pfrRouteScan cfg p m = some m') ↔
      ∀ e ∈ m.r, ¬ReadsNull cfg.pathMetric p (scanThr m e) (peersAt m.r e p) (m.route.idx e) := by
  constructor
  · intro h e he
    obtain ⟨m', hm'⟩ := h
    obtain ⟨out, hout, -⟩ := (scan_spec hm').dst e he
    exact (scanDst_isSome_iff hpm hp).mp (by rw [hout]; rfl)
  · intro h
    exact scan_isSome fun e he => (scanDst_isSome_iff hpm hp).mpr (h e he)

end Pfr

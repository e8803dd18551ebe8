import Pfr.Records

/- What a phase leaves at a path `r[dst_ip][probe_id][peer_id]` of the records and in the log,
   in terms of what it found there.

   1. `Touched`, `phase_path`: the samples of a path are those that were there, or what the
      phase makes of the ones of its round;
   2. `phase_row`: only the scan logs, and a row with the loss of an aggregate or with none;
   3. `Late`: the rounds that can have an aggregate. -/
namespace Pfr

open Std

section Paths
variable {F : Type} [Dbl F]

/-- What a phase makes of a peer's samples of its round. -/
inductive Touched (cfg : Config) (s : Samples F) : Phase → Samples F → Prop where
  | averaged (s' : Samples F) : calcPeer cfg s = some s' → Touched cfg s .calcAvg s'
  | deviated (s' : Samples F) : stddevPeer s = some s' → Touched cfg s .calcStddev s'
  | read : Touched cfg s .scan (s.upd 99 id)

variable {cfg : Config} {s s' : Samples F} {ph : Phase}

/-- After such a phase the aggregates of the round are due. -/
theorem Touched.due (h : Touched cfg s ph s') : ph.next.averaged = true ∨ ph.next.scanned = true := by
  cases h with
  | averaged => exact Or.inl rfl
  | deviated => exact Or.inl rfl
  | read => exact Or.inr rfl

/-- Every sample but the aggregate stays. -/
theorem Touched.sample (h : Touched cfg s ph s') {n : Int} (hn : n ≠ 99) : s'[n]? = s[n]? := by
  have hput : ∀ v : Option (Tparm F), (s.insert 99 v)[n]? = s[n]? := by
    intro v
    rw [ExtTreeMap.getElem?_insert, if_neg (by rw [LawfulEqCmp.compare_eq_iff_eq]; exact fun he => hn he.symm)]
  cases h with
  | averaged _ h =>
    obtain ⟨a, -, rfl⟩ := Option.map_eq_some_iff.mp h
    exact hput _
  | deviated _ h =>
    obtain ⟨tp, med, dev, -, rfl⟩ := stddevPeer_agg h
    exact hput _
  | read => exact hput _

/-- A phase takes no sample away. -/
theorem Touched.mem (h : Touched cfg s ph s') {n : Int} (hn : n ∈ s) : n ∈ s' := by
  cases h with
  | averaged _ h =>
    obtain ⟨a, -, rfl⟩ := Option.map_eq_some_iff.mp h
    exact ExtTreeMap.mem_insert.mpr (Or.inr hn)
  | deviated _ h =>
    obtain ⟨tp, med, dev, -, rfl⟩ := stddevPeer_agg h
    exact ExtTreeMap.mem_insert.mpr (Or.inr hn)
  | read => exact ExtTreeMap.mem_upd.mpr (Or.inr hn)

theorem foldlM_calcSample_alive : ∀ (l : List (Int × Option (Tparm F))) (a a' : CalcAcc F),
    l.foldlM (fun a kv => kv.2.map (calcSample a)) a = some a' → a'.alive = a.alive + l.length
  | [], a, a', h => by
    rw [List.foldlM_nil] at h
    cases h
    simp
  | (k, v) :: l, a, a', h => by
    rw [List.foldlM_cons] at h
    obtain ⟨b, hb, hrest⟩ := Option.bind_eq_some_iff.mp h
    obtain ⟨tp, -, rfl⟩ := Option.map_eq_some_iff.mp hb
    rw [foldlM_calcSample_alive l _ a' hrest, List.length_cons]
    simp only [calcSample]
    omega

/-- The loss of an aggregate is the one it had, or what the samples leave of the requests. -/
theorem Touched.lost (h : Touched cfg s ph s') {tp : Tparm F} (htp : s'.idx 99 = some tp) :
    (∃ tp', s.idx 99 = some tp' ∧ tp'.lost = tp.lost) ∨ (ph = .calcAvg ∧ tp.lost = cfg.pfrPingReq - s.size) := by
  cases h with
  | read =>
    rw [ExtTreeMap.idx_upd_id] at htp
    exact Or.inl ⟨tp, htp, rfl⟩
  | averaged _ h =>
    refine Or.inr ⟨rfl, ?_⟩
    obtain ⟨a, ha, rfl⟩ := Option.map_eq_some_iff.mp h
    rw [ExtTreeMap.idx_insert, if_pos rfl] at htp
    cases htp
    have halive := foldlM_calcSample_alive _ _ _ ha
    show cfg.pfrPingReq - a.alive = _
    rw [halive, ExtTreeMap.length_toList]
    simp [CalcAcc.init]
  | deviated _ h =>
    obtain ⟨tp', med, dev, htp', rfl⟩ := stddevPeer_agg h
    rw [ExtTreeMap.idx_insert, if_pos rfl] at htp
    cases htp
    exact Or.inl ⟨tp', htp', rfl⟩

omit [Dbl F] in
/-- What is left after destinations are erased was there. -/
theorem path_of_erased {r r' : RData F} {gone : String → Prop} [DecidablePred gone]
    (h : ∀ d, r'[d]? = if gone d then none else r[d]?) {d : String} {q k : Int} (hk : k ∈ peersAt r' d q) :
    peersAt r' d q = peersAt r d q := by
  have hg := ((ExtTreeMap.mem_of_erased h).mp (mem_of_mem_peersAt hk)).1
  rw [peersAt, peersAt, ExtTreeMap.idx_congr (by rw [h, if_neg hg] : r'[d]? = r[d]?)]

omit [Dbl F] in
theorem path_of_map {g : Samples F → Option (Samples F)} {p : Int} {r r' : RData F} (h : mapPeers g p r = some r')
    {d : String} {k : Int} (hk : k ∈ peersAt r' d p) :
    k ∈ peersAt r d p ∧ g ((peersAt r d p).idx k) = some ((peersAt r' d p).idx k) := by
  have hd : d ∈ r := (mem_mapPeers h).mp (mem_of_mem_peersAt hk)
  have hk0 := (mem_peersAt_mapPeers h hd).mp hk
  have hget := peersAt_mapPeers h hd k
  rw [ExtTreeMap.getElem?_idx hk0, Option.bind_some, ExtTreeMap.getElem?_idx hk] at hget
  exact ⟨hk0, hget.symm⟩

theorem path_of_scan {p : Nat} {m m' : Mem F} (h : ScanSpec cfg p m m') {d : String} {k : Int}
    (hk : k ∈ peersAt m'.r d p) : k ∈ peersAt m.r d p ∧ ((peersAt m'.r d p).idx k = (peersAt m.r d p).idx k ∨
      (peersAt m'.r d p).idx k = ((peersAt m.r d p).idx k).upd 99 id) := by
  have hk0 := (scan_mem_peers h d p k).mp hk
  refine ⟨hk0, ?_⟩
  obtain ⟨out, hout, hr, -⟩ := h.dst d (mem_of_mem_peersAt hk0)
  obtain ⟨peers, hpr, hpeers⟩ := scanDst_probes hout
  have heq : peersAt m'.r d p = peers := by rw [peersAt, hr, hpr, ExtTreeMap.idx_insert, if_pos rfl]
  rw [heq]
  rcases hpeers k with he | he
  · exact Or.inl (ExtTreeMap.idx_congr he)
  · right
    rw [← peersAt, ExtTreeMap.getElem?_idx hk0] at he
    exact ExtTreeMap.idx_of_getElem? he

/-- **A path after a phase**: its samples were there, and those of the round are what the
phase made of them. -/
theorem phase_path {p : Nat} {l : List String} {m m' : Mem F} {ph : Phase} (hrun : runPhase cfg p l m ph = some m')
    {d : String} {q k : Int} (hk : k ∈ peersAt m'.r d q) : k ∈ peersAt m.r d q ∧
      ((peersAt m'.r d q).idx k = (peersAt m.r d q).idx k ∨
        (p : Int) = q ∧ Touched cfg ((peersAt m.r d q).idx k) ph ((peersAt m'.r d q).idx k)) := by
  refine ⟨phase_peers hrun hk, ?_⟩
  cases ph with
  | update => exact Or.inl (by rw [path_of_erased (update_spec hrun).r hk])
  | calcAvg =>
    obtain ⟨r', hr, rfl⟩ := Option.map_eq_some_iff.mp hrun
    by_cases hq : (p : Int) = q
    · subst hq
      exact Or.inr ⟨rfl, .averaged _ (path_of_map hr hk).2⟩
    · exact Or.inl (by rw [peersAt_mapPeers_ne hr d hq])
  | calcStddev =>
    obtain ⟨r', hr, rfl⟩ := Option.map_eq_some_iff.mp hrun
    by_cases hq : (p : Int) = q
    · subst hq
      exact Or.inr ⟨rfl, .deviated _ (path_of_map hr hk).2⟩
    · exact Or.inl (by rw [peersAt_mapPeers_ne hr d hq])
  | scan =>
    have hs := scan_spec hrun
    by_cases hq : (p : Int) = q
    · subst hq
      rcases (path_of_scan hs hk).2 with he | he
      · exact Or.inl he
      · rw [he]
        exact Or.inr ⟨rfl, .read⟩
    · left
      obtain ⟨out, hout, hr, -⟩ := hs.dst d ((hs.mem_r d).mp (mem_of_mem_peersAt hk))
      obtain ⟨peers, hpr, -⟩ := scanDst_probes hout
      rw [peersAt, hr, hpr, ExtTreeMap.idx_insert, if_neg hq, peersAt]
  | free =>
    cases hrun
    left
    by_cases hp : p < 2
    · rw [free_small m hp]
    · have hget := free_r m (show 2 ≤ p by omega) d
      obtain ⟨probes, hprobes⟩ := ExtTreeMap.exists_getElem? ((free_mem_r m).mp (mem_of_mem_peersAt hk))
      rw [hprobes, Option.map_some] at hget
      rw [peersAt, ExtTreeMap.idx_of_getElem? hget, ExtTreeMap.idx_insert] at hk ⊢
      split at hk
      · exact absurd hk ExtTreeMap.not_mem_empty
      · next hq => rw [if_neg hq, peersAt, ExtTreeMap.idx_of_getElem? hprobes]
  | delete => exact Or.inl (by rw [path_of_erased (delete_spec hrun).r hk])
  | man => exact Or.inl (by rw [(routesMan_frame hrun).1])

/-- The row of a scan has no loss, or that of an aggregate of the round. -/
theorem scanDst_lost {p : Nat} {thr : F} {probes : Probes F} {hops : Hops F} {out : ScanOut F}
    (h : scanDst cfg p thr probes hops = some out) :
    out.log.lost = 0 ∨ ∃ k tp, aggAt (probes.idx p) k = some tp ∧ out.log.lost = tp.lost := by
  have hsame : ∀ k, aggAt (scanPeers cfg.pathMetric p thr (probes.idx p)).peers k = aggAt (probes.idx p) k := by
    intro k
    unfold scanPeers
    split
    · split
      · rfl
      · next k0 s0 rest hl =>
        have hk0 : (probes.idx p).idx k0 = s0 :=
          ExtTreeMap.idx_of_getElem? (ExtTreeMap.mem_toList_iff_getElem?_eq_some.mp (by rw [hl]; simp))
        simp only [aggAt, ExtTreeMap.idx_insert]
        split
        · next he => rw [ExtTreeMap.idx_upd_id, ← hk0, he]
        · rfl
    · exact aggAt_touched _ _
  unfold scanDst at h
  obtain ⟨row, hrow, h⟩ := Option.bind_eq_some_iff.mp h
  have hlog : out.log = row.2 := by
    split at h
    · cases h
      rfl
    · obtain ⟨prev, -, h⟩ := Option.bind_eq_some_iff.mp h
      cases h
      rfl
  rw [hlog]
  unfold scanRow at hrow
  split at hrow
  · obtain ⟨tp, htp, hrow⟩ := Option.bind_eq_some_iff.mp hrow
    cases hrow
    rw [hsame] at htp
    exact Or.inr ⟨_, tp, htp, rfl⟩
  · cases hrow
    exact Or.inl rfl

/-- A row of the log was there, or the scan of its round made it. -/
theorem phase_row {p : Nat} {l : List String} {m m' : Mem F} {ph : Phase} (hrun : runPhase cfg p l m ph = some m')
    {d : String} {q : Int} {row : Tlog F} (hrow : (m'.routeLog1.idx d)[q]? = some (some row)) :
    (m.routeLog1.idx d)[q]? = some (some row) ∨ (ph = .scan ∧ (p : Int) = q ∧
      (row.lost = 0 ∨ ∃ k tp, aggAt (peersAt m.r d q) k = some tp ∧ row.lost = tp.lost)) := by
  cases ph with
  | update => rw [(update_spec hrun).routeLog1] at hrow; exact Or.inl hrow
  | calcAvg => obtain ⟨r', -, rfl⟩ := Option.map_eq_some_iff.mp hrun; exact Or.inl hrow
  | calcStddev => obtain ⟨r', -, rfl⟩ := Option.map_eq_some_iff.mp hrun; exact Or.inl hrow
  | scan =>
    have hs := scan_spec hrun
    by_cases hd : d ∈ m.r
    · obtain ⟨out, hout, -, -, hlog, -⟩ := hs.dst d hd
      rw [hlog, ExtTreeMap.getElem?_insert] at hrow
      split at hrow
      · next he =>
        cases hrow
        rw [LawfulEqCmp.compare_eq_iff_eq] at he
        subst he
        exact Or.inr ⟨rfl, rfl, scanDst_lost hout⟩
      · exact Or.inl hrow
    · rw [ExtTreeMap.idx_congr (hs.off d hd).2] at hrow
      exact Or.inl hrow
  | free => cases hrun; rw [free_routeLog1] at hrow; exact Or.inl hrow
  | delete => rw [(delete_spec hrun).routeLog1] at hrow; exact Or.inl hrow
  | man => rw [(routesMan_frame hrun).2.2.1] at hrow; exact Or.inl hrow

end Paths

/-- The aggregates of round `q` are, or may be, there. -/
def Late {F : Type} (t : State F) (q : Int) : Prop :=
  q < t.probeId ∨ (q = t.probeId ∧ (t.pc.averaged = true ∨ t.pc.scanned = true))

/-- Before the aggregates are due they are those of older rounds. -/
theorem Late.older {F : Type} {t : State F} {q : Int} (h : Late t q) (ha : t.pc.averaged = false) (hs : t.pc.scanned = false) :
    q < t.probeId := by
  rcases h with hlt | ⟨-, hat⟩
  · exact hlt
  · rw [ha, hs] at hat
    simp at hat

/-- In the next round. -/
theorem Late.released {F : Type} {t u : State F} {q : Int} (h : Late t q) (hu : u.probeId = t.probeId + 1) : Late u q := by
  left
  rcases h with hlt | ⟨heq, -⟩ <;> omega

/-- No phase takes a round's aggregates back. -/
theorem Late.phase {F : Type} {t : State F} {q : Int} (h : Late t q) {ph : Phase} (hpc : t.pc = .phase ph) (m : Mem F) :
    Late { t with mem := m, pc := ph.next } q := by
  rcases h with hlt | ⟨heq, hat⟩
  · exact Or.inl hlt
  · refine Or.inr ⟨heq, ?_⟩
    rw [hpc] at hat
    cases ph <;> first | exact Or.inr rfl | exact Or.inl rfl | simp [MainPc.averaged, MainPc.scanned] at hat

end Pfr

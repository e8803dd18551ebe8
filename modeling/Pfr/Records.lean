import Pfr.MainLoop

/- The invariant of the maps in every run, whatever is recorded when. `operator[]`
   inserts NULL where it finds nothing, and the phases insert and erase at four
   nesting levels.

   1. `RecInv`: `route` has a destination only if `r` has it, `route[d]` a probe only
      if `r[d]` has it, and no decision and no log row is NULL;
   2. `RecInv.phase`, `RecInv.move`: every phase, and every step, keeps it;
   3. `recInv_path`: it holds in every state of every run. -/
namespace Pfr

open Std

variable {F : Type}

/-- What the maps keep in every run. -/
structure RecInv (m : Mem F) : Prop where
  routeSub : ∀ d, d ∈ m.route → d ∈ m.r
  hopsSub : ∀ (d : String) (q : Int), q ∈ m.route.idx d → q ∈ m.r.idx d
  hopsSome : ∀ (d : String) (q : Int) (v : Option (RtParm F)), (m.route.idx d)[q]? = some v → v.isSome
  logSome : ∀ (d : String) (q : Int) (v : Option (Tlog F)), (m.routeLog1.idx d)[q]? = some v → v.isSome

theorem recInv_init (cfg : Config) (minRtt : F) (mm : PeerMap) : RecInv (State.init cfg minRtt mm).mem where
  routeSub := fun d hd => absurd hd ExtTreeMap.not_mem_empty
  hopsSub := by
    intro d q hq
    change q ∈ (∅ : RouteMap F).idx d at hq
    rw [ExtTreeMap.idx_empty] at hq
    exact absurd hq ExtTreeMap.not_mem_empty
  hopsSome := by
    intro d q v hv
    change ((∅ : RouteMap F).idx d)[q]? = some v at hv
    rw [ExtTreeMap.idx_empty] at hv
    exact absurd hv (by change (∅ : Hops F)[q]? ≠ some v; simp)
  logSome := by
    intro d q v hv
    change ((∅ : LogMap F).idx d)[q]? = some v at hv
    rw [ExtTreeMap.idx_empty] at hv
    exact absurd hv (by change (∅ : ExtTreeMap Int (Option (Tlog F)))[q]? ≠ some v; simp)

/-- Destinations leave `r` and `route` together. -/
theorem RecInv.of_erase {m m' : Mem F} {gone : String → Prop} [DecidablePred gone] (h : RecInv m)
    (hr : ∀ d, m'.r[d]? = if gone d then none else m.r[d]?)
    (hroute : ∀ d, m'.route[d]? = if gone d then none else m.route[d]?)
    (hlog : m'.routeLog1 = m.routeLog1) : RecInv m' := by
  have hstay : ∀ d, d ∈ m'.route → ¬gone d ∧ m'.route.idx d = m.route.idx d ∧ m'.r.idx d = m.r.idx d := by
    intro d hd
    have hg : ¬gone d := ((ExtTreeMap.mem_of_erased hroute).mp hd).1
    refine ⟨hg, ExtTreeMap.idx_congr ?_, ExtTreeMap.idx_congr ?_⟩
    · rw [hroute, if_neg hg]
    · rw [hr, if_neg hg]
  have hempty : ∀ d, d ∉ m'.route → ∀ q : Int, (m'.route.idx d)[q]? = none := by
    intro d hd q
    rw [ExtTreeMap.idx_of_not_mem hd]
    change (∅ : Hops F)[q]? = none
    simp
  refine ⟨?_, ?_, ?_, by rw [hlog]; exact h.logSome⟩
  · intro d hd
    obtain ⟨hg, hd⟩ := (ExtTreeMap.mem_of_erased hroute).mp hd
    exact (ExtTreeMap.mem_of_erased hr).mpr ⟨hg, h.routeSub d hd⟩
  · intro d q hq
    by_cases hd : d ∈ m'.route
    · rw [(hstay d hd).2.1] at hq
      rw [(hstay d hd).2.2]
      exact h.hopsSub d q hq
    · rw [ExtTreeMap.mem_iff_isSome_getElem?, hempty d hd] at hq
      cases hq
  · intro d q v hv
    by_cases hd : d ∈ m'.route
    · rw [(hstay d hd).2.1] at hv
      exact h.hopsSome d q v hv
    · rw [hempty d hd] at hv
      cases hv

/-- The records may grow. -/
theorem RecInv.of_grow {m m' : Mem F} (h : RecInv m) (hmem : ∀ d, d ∈ m.r → d ∈ m'.r)
    (hprobe : ∀ (d : String) (q : Int), q ∈ m.r.idx d → q ∈ m'.r.idx d) (hroute : m'.route = m.route)
    (hlog : m'.routeLog1 = m.routeLog1) : RecInv m' where
  routeSub := by rw [hroute]; exact fun d hd => hmem d (h.routeSub d hd)
  hopsSub := by rw [hroute]; exact fun d q hq => hprobe d q (h.hopsSub d q hq)
  hopsSome := by rw [hroute]; exact h.hopsSome
  logSome := by rw [hlog]; exact h.logSome

theorem RecInv.of_map {m : Mem F} (h : RecInv m) {g : Samples F → Option (Samples F)} {p : Int} {r' : RData F}
    (hr : mapPeers g p m.r = some r') : RecInv { m with r := r' } := by
  refine h.of_grow (fun d hd => (mem_mapPeers hr).mpr hd) ?_ rfl rfl
  intro d q hq
  by_cases hd : d ∈ m.r
  · exact (mem_idx_mapPeers hr hd).mpr (Or.inr hq)
  · rw [ExtTreeMap.idx_of_not_mem hd] at hq
    exact absurd hq ExtTreeMap.not_mem_empty

theorem RecInv.of_free {m : Mem F} (h : RecInv m) (p : Nat) : RecInv (pfrRouteFree p m) := by
  by_cases hp : p < 2
  · rw [free_small m hp]
    exact h
  · have hp2 : 2 ≤ p := by omega
    have hidx : ∀ d, d ∈ m.r → (pfrRouteFree p m).route.idx d = (m.route.idx d).erase (p - 2 : Int) :=
      fun d hd => ExtTreeMap.idx_of_getElem? (by rw [free_route m hp2, if_pos hd])
    have hsame : ∀ d, d ∉ m.r → (pfrRouteFree p m).route.idx d = m.route.idx d :=
      fun d hd => ExtTreeMap.idx_congr (by rw [free_route m hp2, if_neg hd])
    refine ⟨?_, ?_, ?_, by rw [free_routeLog1]; exact h.logSome⟩
    · intro d hd
      rw [free_mem_r]
      by_contra hdr
      rw [ExtTreeMap.mem_iff_isSome_getElem?, free_route m hp2, if_neg hdr,
        ← ExtTreeMap.mem_iff_isSome_getElem?] at hd
      exact hdr (h.routeSub d hd)
    · intro d q hq
      by_cases hdr : d ∈ m.r
      · rw [hidx d hdr] at hq
        have hmem : q ∈ m.r.idx d := h.hopsSub d q (ExtTreeMap.mem_of_mem_erase hq)
        obtain ⟨probes, hprobes⟩ := ExtTreeMap.exists_getElem? hdr
        have hget : (pfrRouteFree p m).r[d]? = some (probes.insert (p - 2 : Int) ∅) := by
          rw [free_r m hp2, hprobes]; rfl
        rw [ExtTreeMap.idx_of_getElem? hprobes] at hmem
        rw [ExtTreeMap.idx_of_getElem? hget]
        exact ExtTreeMap.mem_insert.mpr (Or.inr hmem)
      · rw [hsame d hdr] at hq
        have hmem := h.hopsSub d q hq
        rw [ExtTreeMap.idx_of_not_mem hdr] at hmem
        exact absurd hmem ExtTreeMap.not_mem_empty
    · intro d q v hv
      by_cases hdr : d ∈ m.r
      · rw [hidx d hdr, ExtTreeMap.getElem?_erase] at hv
        split at hv
        · cases hv
        · exact h.hopsSome d q v hv
      · rw [hsame d hdr] at hv
        exact h.hopsSome d q v hv

variable [Dbl F]

/-- The probes of `r[d]` after a scan. -/
theorem scan_mem_probes {cfg : Config} {p : Nat} {m m' : Mem F} (h : ScanSpec cfg p m m') {d : String}
    (hd : d ∈ m.r) (q : Int) : q ∈ m'.r.idx d ↔ (p : Int) = q ∨ q ∈ m.r.idx d := by
  obtain ⟨out, hout, hr, -⟩ := h.dst d hd
  obtain ⟨peers, hpr, -⟩ := scanDst_probes hout
  rw [hr, hpr, ExtTreeMap.mem_insert, LawfulEqCmp.compare_eq_iff_eq]

theorem RecInv.of_scan {cfg : Config} {p : Nat} {m m' : Mem F} (h : RecInv m) (hs : ScanSpec cfg p m m') :
    RecInv m' := by
  have hmem : ∀ d, d ∈ m'.route → d ∈ m.r := by
    intro d hd
    rcases scan_hops hs d with heq | ⟨hdr, -⟩
    · rw [ExtTreeMap.mem_iff_isSome_getElem?, heq, ← ExtTreeMap.mem_iff_isSome_getElem?] at hd
      exact h.routeSub d hd
    · exact hdr
  have hget : ∀ (d : String) (q : Int) (v : Option (RtParm F)), (m'.route.idx d)[q]? = some v →
      (m.route.idx d)[q]? = some v ∨ (d ∈ m.r ∧ (p : Int) = q ∧ v.isSome) := by
    intro d q v hv
    rcases scan_hops hs d with heq | ⟨hdr, rp, heq⟩
    · rw [ExtTreeMap.idx_congr heq] at hv
      exact Or.inl hv
    · rw [ExtTreeMap.idx_of_getElem? heq, ExtTreeMap.getElem?_insert] at hv
      simp only [LawfulEqCmp.compare_eq_iff_eq] at hv
      split at hv
      · next he => cases hv; exact Or.inr ⟨hdr, he, rfl⟩
      · exact Or.inl hv
  refine ⟨fun d hd => (hs.mem_r d).mpr (hmem d hd), ?_, ?_, ?_⟩
  · intro d q hq
    obtain ⟨v, hv⟩ := ExtTreeMap.exists_getElem? hq
    have hdr : d ∈ m.r ∧ ((p : Int) = q ∨ q ∈ m.r.idx d) := by
      rcases hget d q v hv with hv | ⟨hdr, he, -⟩
      · have hq' := ExtTreeMap.mem_of_getElem? hv
        have hdr : d ∈ m.r := by
          by_contra hno
          have := h.hopsSub d q hq'
          rw [ExtTreeMap.idx_of_not_mem hno] at this
          exact ExtTreeMap.not_mem_empty this
        exact ⟨hdr, Or.inr (h.hopsSub d q hq')⟩
      · exact ⟨hdr, Or.inl he⟩
    exact (scan_mem_probes hs hdr.1 q).mpr hdr.2
  · intro d q v hv
    rcases hget d q v hv with hv | ⟨-, -, hsome⟩
    · exact h.hopsSome d q v hv
    · exact hsome
  · intro d q v hv
    by_cases hd : d ∈ m.r
    · obtain ⟨out, -, -, -, hlog, -⟩ := hs.dst d hd
      rw [hlog, ExtTreeMap.getElem?_insert] at hv
      split at hv
      · cases hv; rfl
      · exact h.logSome d q v hv
    · rw [ExtTreeMap.idx_congr (hs.off d hd).2] at hv
      exact h.logSome d q v hv

/-- **Every phase keeps the maps' invariant.** -/
theorem RecInv.phase {cfg : Config} {p : Nat} {l : List String} {m m' : Mem F} {ph : Phase} (h : RecInv m)
    (hrun : runPhase cfg p l m ph = some m') : RecInv m' := by
  cases ph with
  | update =>
    have hs := update_spec hrun
    exact h.of_erase hs.r hs.route hs.routeLog1
  | calcAvg =>
    obtain ⟨r', hr, rfl⟩ := Option.map_eq_some_iff.mp hrun
    exact h.of_map hr
  | calcStddev =>
    obtain ⟨r', hr, rfl⟩ := Option.map_eq_some_iff.mp hrun
    exact h.of_map hr
  | scan => exact h.of_scan (scan_spec hrun)
  | free =>
    cases hrun
    exact h.of_free p
  | delete =>
    have hs := delete_spec hrun
    exact h.of_erase hs.r hs.route hs.routeLog1
  | man =>
    obtain ⟨hr, hroute, hlog, -⟩ := routesMan_frame hrun
    exact h.of_grow (by rw [hr]; exact fun _ => id) (by rw [hr]; exact fun _ _ => id) hroute hlog

/-! ## What a phase can do to a decision and to a peer -/

omit [Dbl F] in
theorem hopAt_of_erased {route route' : RouteMap F} {gone : String → Prop} [DecidablePred gone]
    (h : ∀ d, route'[d]? = if gone d then none else route[d]?) {d : String} {q : Int} {rp : RtParm F}
    (hrp : hopAt route' d q = some rp) : ¬gone d ∧ hopAt route d q = some rp := by
  have hg := ((ExtTreeMap.mem_of_erased h).mp (mem_of_hopAt hrp)).1
  rw [hopAt_congr (by rw [h, if_neg hg] : route'[d]? = route[d]?)] at hrp
  exact ⟨hg, hrp⟩

omit [Dbl F] in
theorem mem_of_mem_peersAt {r : RData F} {d : String} {q k : Int} (h : k ∈ peersAt r d q) : d ∈ r := by
  by_contra hd
  rw [peersAt, ExtTreeMap.idx_of_not_mem hd] at h
  change k ∈ (∅ : Probes F).idx q at h
  rw [ExtTreeMap.idx_empty] at h
  exact ExtTreeMap.not_mem_empty h

omit [Dbl F] in
theorem mem_peersAt_of_erased {r r' : RData F} {gone : String → Prop} [DecidablePred gone]
    (h : ∀ d, r'[d]? = if gone d then none else r[d]?) {d : String} {q k : Int} (hk : k ∈ peersAt r' d q) :
    k ∈ peersAt r d q := by
  have hg := ((ExtTreeMap.mem_of_erased h).mp (mem_of_mem_peersAt hk)).1
  rwa [peersAt, ExtTreeMap.idx_congr (by rw [h, if_neg hg] : r'[d]? = r[d]?)] at hk

omit [Dbl F] in
theorem mem_peersAt_of_free {p : Nat} {m : Mem F} {d : String} {q k : Int}
    (hk : k ∈ peersAt (pfrRouteFree p m).r d q) : k ∈ peersAt m.r d q := by
  by_cases hp : p < 2
  · rwa [free_small m hp] at hk
  · have hget := free_r m (show 2 ≤ p by omega) d
    obtain ⟨probes, hprobes⟩ := ExtTreeMap.exists_getElem? ((free_mem_r m).mp (mem_of_mem_peersAt hk))
    rw [hprobes, Option.map_some] at hget
    rw [peersAt, ExtTreeMap.idx_of_getElem? hget, ExtTreeMap.idx_insert] at hk
    rw [peersAt, ExtTreeMap.idx_of_getElem? hprobes]
    split at hk
    · exact absurd hk ExtTreeMap.not_mem_empty
    · exact hk

omit [Dbl F] in
theorem mem_peersAt_of_map {g : Samples F → Option (Samples F)} {p : Int} {r r' : RData F}
    (h : mapPeers g p r = some r') {d : String} {q k : Int} (hk : k ∈ peersAt r' d q) : k ∈ peersAt r d q := by
  by_cases hq : p = q
  · subst hq
    exact (mem_peersAt_mapPeers h ((mem_mapPeers h).mp (mem_of_mem_peersAt hk))).mp hk
  · rwa [peersAt_mapPeers_ne h d hq] at hk

/-- Only the scan makes decisions, and only of its round. -/
theorem phase_hopAt {cfg : Config} {p : Nat} {l : List String} {m m' : Mem F} {ph : Phase}
    (hrun : runPhase cfg p l m ph = some m') {d : String} {q : Int} {rp : RtParm F}
    (hrp : hopAt m'.route d q = some rp) : hopAt m.route d q = some rp ∨ (ph = .scan ∧ (p : Int) = q) := by
  cases ph with
  | update => exact Or.inl (hopAt_of_erased (update_spec hrun).route hrp).2
  | calcAvg =>
    obtain ⟨r', -, rfl⟩ := Option.map_eq_some_iff.mp hrun
    exact Or.inl hrp
  | calcStddev =>
    obtain ⟨r', -, rfl⟩ := Option.map_eq_some_iff.mp hrun
    exact Or.inl hrp
  | scan =>
    by_cases hq : (p : Int) = q
    · exact Or.inr ⟨rfl, hq⟩
    · rw [scan_hopAt_ne (scan_spec hrun) d hq] at hrp
      exact Or.inl hrp
  | free =>
    cases hrun
    by_cases hq : q = (p : Int) - 2
    · by_cases hp : p < 2
      · rw [free_small m hp] at hrp
        exact Or.inl hrp
      · -- the freed probe has no decision, whether or not the destination was touched
        subst hq
        by_cases hd : d ∈ m.r
        · rw [free_hopAt_self m (by omega) hd] at hrp
          cases hrp
        · have hsame : (pfrRouteFree p m).route[d]? = m.route[d]? := by rw [free_route m (by omega), if_neg hd]
          rw [hopAt_congr hsame] at hrp
          exact Or.inl hrp
    · rw [free_hopAt m d hq] at hrp
      exact Or.inl hrp
  | delete => exact Or.inl (hopAt_of_erased (delete_spec hrun).route hrp).2
  | man =>
    rw [(routesMan_frame hrun).2.1] at hrp
    exact Or.inl hrp

/-- No phase adds a peer to the records. -/
theorem phase_peers {cfg : Config} {p : Nat} {l : List String} {m m' : Mem F} {ph : Phase}
    (hrun : runPhase cfg p l m ph = some m') {d : String} {q k : Int} (hk : k ∈ peersAt m'.r d q) :
    k ∈ peersAt m.r d q := by
  cases ph with
  | update => exact mem_peersAt_of_erased (update_spec hrun).r hk
  | calcAvg =>
    obtain ⟨r', hr, rfl⟩ := Option.map_eq_some_iff.mp hrun
    exact mem_peersAt_of_map hr hk
  | calcStddev =>
    obtain ⟨r', hr, rfl⟩ := Option.map_eq_some_iff.mp hrun
    exact mem_peersAt_of_map hr hk
  | scan => exact (scan_mem_peers (scan_spec hrun) d q k).mp hk
  | free =>
    cases hrun
    exact mem_peersAt_of_free hk
  | delete => exact mem_peersAt_of_erased (delete_spec hrun).r hk
  | man => rwa [(routesMan_frame hrun).1] at hk

/-! ## Runs -/

omit [Dbl F] in
theorem RecInv.deleteAll {p : Int} {m m' : Mem F} (h : RecInv m) (hrun : pfrDeleteAll p m = some m') :
    RecInv m' := by
  have hs := deleteWalk_spec hrun
  exact h.of_erase hs.r hs.route hs.routeLog1

theorem RecInv.receive {m : Mem F} (h : RecInv m) (x : Option (Reply F)) : RecInv (m.receive x) := by
  cases x with
  | none => exact h
  | some x =>
    refine h.of_grow (fun d hd => mem_record.mpr (Or.inr hd)) ?_ rfl rfl
    intro d q hq
    change q ∈ (record x m.r).idx d
    rw [record, ExtTreeMap.idx_upd]
    split
    · next he => rw [ExtTreeMap.mem_upd, he]; exact Or.inr hq
    · exact hq

omit [Dbl F] in
theorem RecInv.minRtt {m : Mem F} (h : RecInv m) (v : F) : RecInv { m with minRtt := v } :=
  ⟨h.routeSub, h.hopsSub, h.hopsSome, h.logSome⟩

theorem RecInv.move {s t : State F} {e : Event F} (h : RecInv s.mem) (hm : Move s e t) : RecInv t.mem := by
  cases hm with
  | receive x => exact h.receive x
  | phase ph m hpc hrun => exact h.phase hrun
  | shutdown m hpc hrun => exact h.deleteAll hrun
  | reread cfg v => exact h.minRtt v
  | _ => exact h

/-- The maps' invariant holds in every reachable state, whatever is recorded when. -/
theorem recInv_path {G : State F → Event F → Prop} {cfg : Config} {v : F} {mm : PeerMap} {s : State F}
    (h : Lts.Path step G (State.init cfg v mm) s) : RecInv s.mem :=
  Path.preserves (I := fun s => RecInv s.mem) (recInv_init cfg v mm) (fun _ _ _ hI _ _ hm => hI.move hm) h

/-- No decision is ahead of its round: before the round's scan every one is older
than the round, and until the next round none is newer. -/
def HopBound (s : State F) : Prop :=
  ∀ (d : String) (q : Int) (rp : RtParm F), hopAt s.mem.route d q = some rp →
    q < s.probeId ∨ (s.pc.scanned = true ∧ q = s.probeId)

omit [Dbl F] in
/-- Before the round's scan every decision is older than the round. -/
theorem HopBound.older {s : State F} (h : HopBound s) (hs : s.pc.scanned = false) {d : String} {q : Int} {rp : RtParm F}
    (hrp : hopAt s.mem.route d q = some rp) : q < s.probeId := by
  rcases h d q rp hrp with hlt | ⟨hsc, -⟩
  · exact hlt
  · rw [hs] at hsc
    cases hsc

theorem HopBound.move {s t : State F} {e : Event F} (h : HopBound s) (hm : Move s e t) : HopBound t := by
  cases hm with
  | receive x =>
    intro d q rp hrp
    cases x with
    | none => exact h d q rp hrp
    | some x => exact h d q rp hrp
  | start l hpc => exact fun d q rp hrp => Or.inl (h.older (by rw [hpc]; rfl) hrp)
  | ask hpc => exact fun d q rp hrp => Or.inl (h.older (by rw [hpc]; rfl) hrp)
  | take hpc _ => exact fun d q rp hrp => Or.inl (h.older (by rw [hpc]; rfl) hrp)
  | skip hpc _ =>
    intro d q rp hrp
    have := h.older (by rw [hpc]; rfl) hrp
    left
    simp only
    omega
  | phase ph m hpc hrun =>
    intro d q rp hrp
    rcases phase_hopAt hrun hrp with hold | ⟨hph, hq⟩
    · rcases h d q rp hold with hlt | ⟨hsc, hq⟩
      · exact Or.inl hlt
      · -- a phase after the scan is followed by one
        refine Or.inr ⟨?_, hq⟩
        rw [hpc] at hsc
        cases ph <;> first | rfl | cases hsc
    · subst hph
      exact Or.inr ⟨rfl, hq.symm⟩
  | resume hpc =>
    intro d q rp hrp
    rcases h d q rp hrp with hlt | ⟨-, hq⟩
    · exact Or.inl hlt
    · exact Or.inr ⟨clear_scanned s, hq⟩
  | shutdown m hpc hrun =>
    intro d q rp hrp
    rcases h d q rp (hopAt_of_erased (deleteWalk_spec hrun).route hrp).2 with hlt | ⟨-, hq⟩
    · exact Or.inl hlt
    · exact Or.inr ⟨rfl, hq⟩
  | reread cfg v hpc =>
    intro d q rp hrp
    rcases h d q rp hrp with hlt | ⟨-, hq⟩
    · exact Or.inl hlt
    · exact Or.inr ⟨clear_scanned _, hq⟩
  | rereadFail hpc =>
    intro d q rp hrp
    rcases h d q rp hrp with hlt | ⟨-, hq⟩
    · exact Or.inl hlt
    · exact Or.inr ⟨rfl, hq⟩
  | release hpc =>
    intro d q rp hrp
    left
    simp only
    rcases h d q rp hrp with hlt | ⟨-, hq⟩ <;> omega
  | _ => exact h

omit [Dbl F] in
theorem hopBound_init (cfg : Config) (v : F) (mm : PeerMap) : HopBound (State.init cfg v mm) :=
  fun _ _ _ hrp => absurd (mem_of_hopAt hrp) ExtTreeMap.not_mem_empty

end Pfr

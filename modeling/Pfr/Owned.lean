import Pfr.Objects
import Pfr.Records

/- The pointers of `r`, `route` and `route_log1` own the objects they point to.

   1. `Holds`: every pointer stored has a live object of its own, and what the objects are
      is the value of the map;
   2. `Follows`: from pointers and objects to others that hold given maps, with the number
      of replies no pointer is left to; `route` and `route_log1` lose none;
   3. `record_follows` .. `scan_follows`: what each function does to the values it does to
      the objects, without an access to an object that is gone;
   4. `phase_follows`: so does every phase. -/
namespace Pfr

open Std Own

variable {F : Type}

/-- The pointers and objects `w` stand for the maps of `m`. -/
structure Holds (w : PtrMem F) (m : Mem F) : Prop where
  r : Owns w.tparms w.r m.r
  route : Owns w.rtParms w.route m.route
  log : Owns w.tlogs w.routeLog1 m.routeLog1
  minRtt : w.minRtt = m.minRtt

/-- `w'` stands for the maps of `m'`, and `n` records have been lost on the way from `w`. -/
structure Follows (w w' : PtrMem F) (m' : Mem F) (n : Nat) : Prop where
  r : Turns w.tparms w.r w'.tparms w'.r m'.r n
  route : Turns w.rtParms w.route w'.rtParms w'.route m'.route 0
  log : Turns w.tlogs w.routeLog1 w'.tlogs w'.routeLog1 m'.routeLog1 0
  minRtt : w'.minRtt = m'.minRtt

variable {w w' w₁ : PtrMem F} {m m' m₁ : Mem F} {n n₁ : Nat}

theorem Follows.refl (h : Holds w m) : Follows w w m 0 := ⟨.refl h.r, .refl h.route, .refl h.log, h.minRtt⟩

theorem Follows.trans (h : Follows w w₁ m₁ n) (h' : Follows w₁ w' m' n₁) : Follows w w' m' (n + n₁) :=
  ⟨h.r.trans h'.r, h.route.trans h'.route, h.log.trans h'.log, h'.minRtt⟩

theorem Follows.holds (h : Follows w w' m' n) (ho : Holds w m) : Holds w' m' :=
  ⟨h.r.owns ho.r.le, h.route.owns ho.route.le, h.log.owns ho.log.le, h.minRtt⟩

/-- Only the maps of the memory matter. -/
theorem Follows.congr (h : Follows w w' m₁ n) (hr : m'.r = m₁.r) (hroute : m'.route = m₁.route)
    (hlog : m'.routeLog1 = m₁.routeLog1) (hmin : m'.minRtt = m₁.minRtt) : Follows w w' m' n :=
  ⟨by rw [hr]; exact h.r, by rw [hroute]; exact h.route, by rw [hlog]; exact h.log, by rw [hmin]; exact h.minRtt⟩

/-! ## The records of a probe -/

theorem deletePeers_frees : Frees (deletePeers (F := F)) := Frees.loop (Frees.loop Frees.delete)

/-- The body of the loops that free a probe, up to what is then erased. -/
theorem freeProbe (ho : Holds w m) (d : String) (q : Int) : ∃ tparms rtParms,
    deletePeers ((w.r.idx d).idx q) w.tparms = some tparms ∧ w.rtParms.delete ((w.route.idx d).idx q) = some rtParms ∧
    Turns w.tparms ((w.r.idx d).idx q) tparms default (default : Peers F) 0 ∧
    Turns w.rtParms ((w.route.idx d).idx q) rtParms default (default : Option (RtParm F)) 0 := by
  obtain ⟨tparms, htp, ht⟩ := deletePeers_frees.turns ((ho.r.idx d).idx q).le
  obtain ⟨rtParms, hrp, hr⟩ := Frees.delete.turns ((ho.route.idx d).idx q).le
  exact ⟨tparms, rtParms, htp, hrp, ht, hr⟩

/-- One destination of `pfr_route_free`. -/
theorem routeFreeDst_follows (ho : Holds w m) (d : String) (q : Int) : ∃ w', routeFreeDstPtr q w d = some w' ∧
    Follows w w' { m with
      r := m.r.upd d fun probes => probes.insert q ∅
      route := m.route.upd d fun hops => hops.erase q } 0 := by
  obtain ⟨tparms, rtParms, htp, hrp, ht, hr⟩ := freeProbe ho d q
  refine ⟨{ w with
    r := w.r.upd d fun probes => probes.insert q ∅
    route := w.route.upd d fun hops => hops.erase q
    tparms := tparms
    rtParms := rtParms }, ?_, ?_, ?_, .refl ho.log, ho.minRtt⟩
  · rw [routeFreeDstPtr, htp, Option.bind_eq_bind, Option.bind_some, hrp]
    rfl
  · exact .insert ho.r (.insert (ho.r.idx d) ht)
  · exact .insert ho.route (.erase (ho.route.idx d) hr)

theorem dropProbe_follows (ho : Holds w m) (d : String) (q : Int) : ∃ w', dropProbePtr d w q = some w' ∧
    Follows w w' { m with
      r := m.r.upd d fun probes => probes.erase q
      route := m.route.upd d fun hops => hops.erase q } 0 := by
  obtain ⟨tparms, rtParms, htp, hrp, ht, hr⟩ := freeProbe ho d q
  refine ⟨{ w with
    r := w.r.upd d fun probes => probes.erase q
    route := w.route.upd d fun hops => hops.erase q
    tparms := tparms
    rtParms := rtParms }, ?_, ?_, ?_, .refl ho.log, ho.minRtt⟩
  · rw [dropProbePtr, htp, Option.bind_eq_bind, Option.bind_some, hrp]
    rfl
  · exact .insert ho.r (.erase (ho.r.idx d) ht)
  · exact .insert ho.route (.erase (ho.route.idx d) hr)

/-! ## `pfr_route_free` -/

/-- One destination of `pfr_route_free`, on the values. -/
def freeDst (q : Int) (m : Mem F) (d : String) : Mem F :=
  { m with r := m.r.upd d fun probes => probes.insert q ∅, route := m.route.upd d fun hops => hops.erase q }

theorem foldlM_freeDst (q : Int) (m : Mem F) : m.r.keys.foldlM (fun t d => some (freeDst q t d)) m =
    some { m with
      r := m.r.map fun _ probes => probes.insert q ∅
      route := m.r.keys.foldl (fun route d => route.upd d fun hops => hops.erase q) m.route } := by
  obtain ⟨t, ht⟩ := List.foldlM_isSome (f := fun t d => some (freeDst q t d)) m.r.keys m fun _ _ _ => rfl
  have hw := List.foldlM_walk (I := fun done t => t =
      { m with
        r := t.r
        route := done.foldl (fun route d => route.upd d fun hops => hops.erase q) m.route } ∧
      (∀ d : String, t.r[d]? = if d ∈ done then (m.r[d]?).map (fun probes => probes.insert q ∅) else m.r[d]?))
    ExtTreeMap.nodup_keys ⟨rfl, by simp⟩ ?_ ht
  · rw [ht, hw.1]
    congr 2
    apply ExtTreeMap.ext_getElem?
    intro d
    rw [hw.2 d, ExtTreeMap.getElem?_map]
    simp only [ExtTreeMap.mem_keys]
    split
    · rfl
    · next hd => rw [ExtTreeMap.getElem?_eq_none hd, Option.map_none]
  · rintro done d rest t t' hl hd ⟨heq, hget⟩ hstep
    cases hstep
    have hdr : d ∈ m.r := by rw [← ExtTreeMap.mem_keys, hl]; simp
    refine ⟨?_, ?_⟩
    · rw [freeDst, List.foldl_append, List.foldl_cons, List.foldl_nil]
      rw [heq]
    · intro e
      rw [freeDst, ExtTreeMap.getElem?_upd, hget e]
      simp only [List.mem_append, List.mem_singleton]
      by_cases he : d = e
      · subst he
        have hidx : t.r[d]? = m.r[d]? := by rw [hget d, if_neg hd]
        rw [if_pos rfl, if_pos (Or.inr rfl), ExtTreeMap.idx_congr hidx, ExtTreeMap.getElem?_idx hdr, Option.map_some]
      · have hiff : (e ∈ done ∨ e = d) ↔ e ∈ done := or_iff_left (Ne.symm he)
        rw [if_neg he]
        simp only [hiff]

theorem routeFree_follows (p : Nat) (ho : Holds w m) : ∃ w', pfrRouteFreePtr p w = some w' ∧
    Follows w w' (pfrRouteFree p m) 0 := by
  unfold pfrRouteFreePtr pfrRouteFree
  split
  · exact ⟨w, rfl, .refl ho⟩
  · rw [← view_keys ho.r.view]
    refine List.foldlM_sim (R := fun _ t v => Follows w t v 0) ExtTreeMap.nodup_keys (.refl ho) ?_ (foldlM_freeDst (p - 2 : Int) m)
    intro done d rest t v v' _ _ hf hv
    cases hv
    obtain ⟨t', ht', hft⟩ := routeFreeDst_follows (hf.holds ho) d (p - 2 : Int)
    exact ⟨t', ht', hf.trans hft⟩

/-! ## `pfr_route_update`, `pfr_delete` and `pfr_delete_all` -/

/-- Every record and every decision of a destination is deleted, if `route` has no probe that
`r` has not. -/
theorem dropDst_follows (ho : Holds w m) {d : String} (hsub : ∀ q : Int, q ∈ m.route.idx d → q ∈ m.r.idx d) :
    ∃ w', dropDstPtr d w = some w' ∧ Follows w w' { m with r := m.r.erase d, route := m.route.erase d } 0 := by
  have hw := List.foldlM_walk_total (l := (w.r.idx d).keys) (f := dropProbePtr d) (s := w)
    (I := fun done t => ∃ v : Mem F, Follows w t v 0 ∧ v.routeLog1 = m.routeLog1 ∧ v.minRtt = m.minRtt ∧
      (∀ e, e ≠ d → v.r[e]? = m.r[e]? ∧ v.route[e]? = m.route[e]?) ∧
      ∀ q : Int, ((v.r.idx d)[q]? = if q ∈ done then none else (m.r.idx d)[q]?) ∧
        ((v.route.idx d)[q]? = if q ∈ done then none else (m.route.idx d)[q]?))
    ExtTreeMap.nodup_keys ⟨m, .refl ho, rfl, rfl, fun _ _ => ⟨rfl, rfl⟩, by simp⟩ ?_
  · obtain ⟨t, ht, v, hf, hlog, hmin, hoff, hdone⟩ := hw
    have hkeys := view_keys (ho.r.idx d).view
    have hr : v.r.idx d = ∅ := by
      apply ExtTreeMap.ext_getElem?
      intro q
      rw [(hdone q).1, ← hkeys]
      simp only [ExtTreeMap.mem_keys]
      split
      · simp
      · next hq => rw [ExtTreeMap.getElem?_eq_none hq]; simp
    have hroute : v.route.idx d = ∅ := by
      apply ExtTreeMap.ext_getElem?
      intro q
      rw [(hdone q).2, ← hkeys]
      simp only [ExtTreeMap.mem_keys]
      split
      · simp
      · next hq => rw [ExtTreeMap.getElem?_eq_none fun h => hq (hsub q h)]; simp
    have hot := hf.holds ho
    -- nothing is left of the destination when its entries are erased
    have her : Turns t.tparms t.r t.tparms (t.r.erase d) (v.r.erase d) 0 := by
      refine .erase hot.r ?_
      have hd := hot.r.idx d
      rw [hr] at hd
      have hempty : t.r.idx d = ∅ := by
        apply ExtTreeMap.ext_getElem?
        intro q
        have hq := view_mem hd.view q
        rw [ExtTreeMap.getElem?_eq_none fun h => ExtTreeMap.not_mem_empty (hq.mpr h)]
        simp
      rw [hempty] at hd ⊢
      exact .refl hd
    have heroute : Turns t.rtParms t.route t.rtParms (t.route.erase d) (v.route.erase d) 0 := by
      refine .erase hot.route ?_
      have hd := hot.route.idx d
      rw [hroute] at hd
      have hempty : t.route.idx d = ∅ := by
        apply ExtTreeMap.ext_getElem?
        intro q
        have hq := view_mem hd.view q
        rw [ExtTreeMap.getElem?_eq_none fun h => ExtTreeMap.not_mem_empty (hq.mpr h)]
        simp
      rw [hempty] at hd ⊢
      exact .refl hd
    have hsame : ∀ e : String, (v.r.erase d)[e]? = (m.r.erase d)[e]? ∧ (v.route.erase d)[e]? = (m.route.erase d)[e]? := by
      intro e
      rw [ExtTreeMap.getElem?_erase, ExtTreeMap.getElem?_erase, ExtTreeMap.getElem?_erase, ExtTreeMap.getElem?_erase]
      simp only [LawfulEqCmp.compare_eq_iff_eq]
      split
      · exact ⟨rfl, rfl⟩
      · next he => exact hoff e (Ne.symm he)
    refine ⟨{ t with r := t.r.erase d, route := t.route.erase d }, by rw [dropDstPtr, ht]; rfl, ?_⟩
    have hfall : Follows t { t with r := t.r.erase d, route := t.route.erase d }
        { v with r := v.r.erase d, route := v.route.erase d } 0 := ⟨her, heroute, .refl hot.log, hot.minRtt⟩
    exact (hf.trans hfall).congr (ExtTreeMap.ext_getElem? fun e => ((hsame e).1).symm)
      (ExtTreeMap.ext_getElem? fun e => ((hsame e).2).symm) hlog.symm hmin.symm
  · rintro done q rest t - - ⟨v, hf, hlog, hmin, hoff, hdone⟩
    obtain ⟨t', ht', hft⟩ := dropProbe_follows (hf.holds ho) d q
    refine ⟨t', ht', _, hf.trans hft, hlog, hmin, ?_, ?_⟩
    · intro e he
      rw [ExtTreeMap.getElem?_upd, ExtTreeMap.getElem?_upd, if_neg (Ne.symm he), if_neg (Ne.symm he)]
      exact hoff e he
    · intro a
      have hiff : (a ∈ done ++ [q]) ↔ (a ∈ done ∨ q = a) := by
        rw [List.mem_append, List.mem_singleton]
        exact or_congr_right eq_comm
      rw [ExtTreeMap.idx_upd, if_pos rfl, ExtTreeMap.idx_upd, if_pos rfl, ExtTreeMap.getElem?_erase,
        ExtTreeMap.getElem?_erase, (hdone a).1, (hdone a).2]
      simp only [LawfulEqCmp.compare_eq_iff_eq, hiff]
      by_cases ha : q = a <;> simp [ha]

/-- What the walks below keep: `route` has no probe that `r` has not. -/
def HopsSub (m : Mem F) : Prop := ∀ (d : String) (q : Int), q ∈ m.route.idx d → q ∈ m.r.idx d

theorem HopsSub.erase (h : HopsSub m) {d : String} (hr : m'.r = m.r.erase d) (hroute : m'.route = m.route.erase d) :
    HopsSub m' := by
  intro e q hq
  rw [hroute, ExtTreeMap.idx_erase] at hq
  rw [hr, ExtTreeMap.idx_erase]
  split
  · next he =>
    rw [if_pos he] at hq
    exact absurd hq ExtTreeMap.not_mem_empty
  · next he =>
    rw [if_neg he] at hq
    exact h e q hq

theorem routeUpdate_follows {p : Int} {dstList : List String} (ho : Holds w m) (hsub : HopsSub m)
    (h : pfrRouteUpdate p dstList m = some m') : ∃ w', pfrRouteUpdatePtr p dstList w = some w' ∧ Follows w w' m' 0 := by
  obtain ⟨u, hu, rfl⟩ := Option.map_eq_some_iff.mp h
  have hsim := List.foldlM_sim (f := updateStepPtr dstList) (g := updateStep dstList) (s := ⟨p, w⟩)
    (R := fun _ s v => s.probeId = v.probeId ∧ HopsSub v.mem ∧ Follows w s.mem v.mem 0)
    ExtTreeMap.nodup_keys ⟨rfl, hsub, .refl ho⟩ ?_ hu
  · obtain ⟨s, hs, -, -, hf⟩ := hsim
    rw [view_keys ho.r.view] at hs
    exact ⟨s.mem, by rw [pfrRouteUpdatePtr, hs]; rfl, hf⟩
  · rintro done d rest s v v' - - ⟨hp, hsub, hf⟩ hv
    unfold updateStep at hv
    unfold updateStepPtr
    split at hv
    · next hin =>
      cases hv
      rw [if_pos hin]
      exact ⟨s, rfl, hp, hsub, hf⟩
    · next hin =>
      obtain ⟨prev, hprev, rfl⟩ := Option.map_eq_some_iff.mp hv
      have hos := hf.holds ho
      obtain ⟨t', ht', hft⟩ := dropDst_follows hos (hsub d)
      obtain ⟨hr, hroute, hlog, hmin⟩ := drop_maps prev d v.mem
      rw [if_neg hin, (hos.route.idx d).view, hp]
      simp only [Option.bind_eq_bind, Option.bind_some, hprev, ht']
      refine ⟨_, rfl, ?_, hsub.erase hr hroute, hf.trans (hft.congr hr hroute hlog hmin)⟩
      rw [← view_keys (hos.r.idx d).view]
      rfl

/-- The loop over `route_log1`. -/
theorem deleteWalk_follows {flag : String → Option Bool} {flagPtr : String → PtrMem F → Option Bool} {p : Int} (ho : Holds w m)
    (hsub : HopsSub m) (hflag : ∀ d t v, Holds t v → v.routeLog1 = m.routeLog1 → flagPtr d t = flag d)
    (h : deleteWalk flag p m = some m') : ∃ w', deleteWalkPtr flagPtr p w = some w' ∧ Follows w w' m' 0 := by
  unfold deleteWalkPtr
  rw [← view_keys ho.log.view]
  have hsim := List.foldlM_sim
    (f := fun t d => do
      let deleteFlag ← flagPtr d t
      if deleteFlag then deleteRoutedPtr p d t else some t)
    (R := fun _ t v => v.routeLog1 = m.routeLog1 ∧ HopsSub v ∧ Follows w t v 0)
    ExtTreeMap.nodup_keys ⟨rfl, hsub, .refl ho⟩ ?_ h
  · obtain ⟨w', hw', -, -, hf⟩ := hsim
    exact ⟨w', hw', hf⟩
  · rintro done d rest t v v' - - ⟨hlog, hsub, hf⟩ hv
    obtain ⟨b, hb, rfl⟩ := Option.map_eq_some_iff.mp hv
    have hot := hf.holds ho
    simp only [hflag d t v hot hlog, hb, Option.bind_eq_bind, Option.bind_some]
    cases b with
    | false => exact ⟨t, rfl, hlog, hsub, hf⟩
    | true =>
      simp only [if_true, deleteRoutedPtr, deleteRouted]
      have hop := (hot.route.idx d).idx p
      change Owns t.rtParms ((t.route.idx d).idx p) (hopAt v.route d p) at hop
      cases ha : (t.route.idx d).idx p with
      | none =>
        rw [ha] at hop
        have hnone : hopAt v.route d p = none := hop.deref.symm
        rw [hnone]
        exact ⟨t, rfl, hlog, hsub, hf⟩
      | some a =>
        rw [ha] at hop
        have hsome : hopAt v.route d p = t.rtParms.get a := hop.deref.symm
        obtain ⟨rp, hrp⟩ : ∃ rp, t.rtParms.get a = some rp := by
          have hnone := hop.isNone_iff
          rw [hsome] at hnone
          exact Option.isSome_iff_exists.mp (by simpa using hnone.symm)
        obtain ⟨t', ht', hft⟩ := dropDst_follows hot (hsub d)
        have hlast : Follows t t' (pfrDeleteRRoute d rp.currPeerId v) 0 := hft.congr rfl rfl rfl rfl
        rw [hsome, hrp]
        exact ⟨t', by simp only [hrp, Option.bind_eq_bind, Option.bind_some, ht'], hlog, hsub.erase rfl rfl, hf.trans hlast⟩

theorem delete_follows {cfg : Config} {p : Int} (ho : Holds w m) (hsub : HopsSub m) (h : pfrDelete cfg p m = some m') :
    ∃ w', pfrDeletePtr cfg p w = some w' ∧ Follows w w' m' 0 := by
  unfold pfrDelete at h
  unfold pfrDeletePtr
  split at h
  · next hp =>
    cases h
    rw [if_pos hp]
    exact ⟨w, rfl, .refl ho⟩
  · next hp =>
    rw [if_neg hp]
    refine deleteWalk_follows ho hsub ?_ h
    intro d t v hot hlog
    simp only [(hot.log.idx d).view, hlog, Option.bind_eq_bind, Option.bind_some]

theorem deleteAll_follows {p : Int} (ho : Holds w m) (hsub : HopsSub m) (h : pfrDeleteAll p m = some m') :
    ∃ w', pfrDeleteAllPtr p w = some w' ∧ Follows w w' m' 0 :=
  deleteWalk_follows ho hsub (fun _ _ _ _ _ => rfl) h

/-! ## `pfr_routes_man` -/

theorem routesMan_follows {cfg : Config} {p : Nat} (ho : Holds w m) (h : pfrRoutesMan cfg p m = some m') :
    ∃ w', pfrRoutesManPtr p w = some w' ∧ Follows w w' m' 0 := by
  obtain ⟨hr, hroute, hlog, hmin, -⟩ := routesMan_frame h
  refine ⟨w, ?_, (Follows.refl ho).congr hr hroute hlog hmin⟩
  obtain ⟨t, ht, rfl⟩ := List.foldlM_walk_total (l := w.route.keys)
    (f := fun t d => (t.rtParms.deref ((t.route.idx d).idx (p : Int))).map fun _ => t) (s := w)
    (I := fun _ t => t = w) ExtTreeMap.nodup_keys rfl (by
      rintro done d rest t hl - rfl
      have hd : d ∈ m.route := by
        rw [view_mem ho.route.view, ← ExtTreeMap.mem_keys, hl]
        simp
      obtain ⟨rp, hrp⟩ := Option.isSome_iff_exists.mp (routesMan_hops h hd)
      have hop := ((ho.route.idx d).idx (p : Int)).deref
      change _ = hopAt m.route d p at hop
      rw [hop, hrp]
      exact ⟨t, rfl, rfl⟩)
  exact ht

/-! ## The aggregates -/

section Peers

/-- What a function of a peer's samples does to the values it does to the objects. -/
def PeerFollows (gp : PtrSamples → Arena (Tparm F) → Option (PtrSamples × Arena (Tparm F))) (g : Samples F → Option (Samples F))
    (c : Samples F → Nat) : Prop :=
  ∀ (h : Arena (Tparm F)) (x : PtrSamples) (y y' : Samples F), Owns h x y → g y = some y' →
    ∃ out, gp x h = some out ∧ Turns h x out.2 out.1 y' (c y)

/-- The sum of `c` over the peers of a round. -/
def peersSum (c : Samples F → Nat) (p : Int) (r : RData F) : Nat :=
  (r.keys.map fun d => ((peersAt r d p).keys.map fun k => c ((peersAt r d p).idx k)).sum).sum

theorem mapPeers_follows {gp : PtrSamples → Arena (Tparm F) → Option (PtrSamples × Arena (Tparm F))}
    {g : Samples F → Option (Samples F)} {c : Samples F → Nat} (hg : PeerFollows gp g c) {p : Int} {r' : RData F}
    (ho : Holds w m) (h : mapPeers g p m.r = some r') :
    ∃ w', mapPeersPtr gp p w = some w' ∧ Follows w w' { m with r := r' } (peersSum c p m.r) := by
  have hdst : ∀ (d : String) (h : Arena (Tparm F)) (x : PtrProbes) (y y' : Probes F), Owns h x y →
      ((y.idx p).mapValsM fun _ s => g s).map (y.insert p) = some y' →
      ∃ out, (mapValsS (fun _ samples h => gp samples h) (x.idx p) h).map (fun out => (x.insert p out.1, out.2)) = some out ∧
        Turns h x out.2 out.1 y' ((y.idx p).keys.map fun k => c ((y.idx p).idx k)).sum := by
    intro d h x y y' hxy hy'
    obtain ⟨peers, hpeers, rfl⟩ := Option.map_eq_some_iff.mp hy'
    obtain ⟨out, hout, ht⟩ := mapValsS_spec (f := fun _ samples h => gp samples h) (g := fun _ s => g s) (c := fun _ => c)
      (fun _ => hg) (hxy.idx p) hpeers
    exact ⟨(x.insert p out.1, out.2), by rw [hout]; rfl, .insert hxy ht⟩
  obtain ⟨out, hout, ht⟩ := mapValsS_spec hdst ho.r h
  exact ⟨{ w with r := out.1, tparms := out.2 }, by rw [mapPeersPtr, hout]; rfl, ht, .refl ho.route, .refl ho.log, ho.minRtt⟩

variable [Dbl F]

/-- A peer whose record at key 99 the average overwrites: one. -/
def overwritten (samples : Samples F) : Nat := if (samples.idx 99).isSome then 1 else 0

theorem calcPeer_follows (cfg : Config) : PeerFollows (calcPeerPtr cfg) (calcPeer cfg) (overwritten (F := F)) := by
  intro h x y y' hxy hy'
  obtain ⟨a, ha, rfl⟩ := Option.map_eq_some_iff.mp hy'
  have hnone := (hxy.idx 99).isNone_iff
  have hcost : (x.idx 99).toList.length = overwritten y := by
    unfold overwritten
    cases hx : x.idx 99 <;> cases hy : y.idx 99 <;> rw [hx, hy] at hnone <;> first | rfl | cases hnone
  refine ⟨(x.insert 99 (some h.next), h.new (aggregate cfg a)), ?_, ?_⟩
  · simp only [calcPeerPtr, hxy.view, ha, Option.bind_eq_bind, Option.bind_some]
    rfl
  · rw [← hcost]
    exact .insert hxy (.new h _ _)

theorem stddevPeer_follows : PeerFollows (stddevPeerPtr (F := F)) stddevPeer fun _ => 0 := by
  intro h x y y' hxy hy'
  obtain ⟨tp, med, dev, htp, hs'⟩ := stddevPeer_agg hy'
  have h99 := hxy.idx 99
  rw [htp] at h99
  obtain ⟨a, ha⟩ : ∃ a, x.idx 99 = some a := by
    have hnone := h99.isNone_iff
    exact Option.isSome_iff_exists.mp (by simpa using hnone)
  rw [ha] at h99
  obtain ⟨h', hset, ht⟩ := h99.set { tp with stddevRtt := dev, medianaRtt := med }
  have hdone : y'.idx 99 = some { tp with stddevRtt := dev, medianaRtt := med } := by
    rw [hs', ExtTreeMap.idx_insert, if_pos rfl]
  have hmem : (99 : Int) ∈ x := by
    by_contra hno
    rw [ExtTreeMap.idx_of_not_mem hno] at ha
    cases ha
  refine ⟨(x, h'), ?_, ?_⟩
  · simp only [stddevPeerPtr, hxy.view, hy', ha, hdone, hset, Option.bind_eq_bind, Option.bind_some]
    rfl
  · -- the pointer at key 99 is the one that was there
    rw [← ha] at ht
    have hins := Turns.insert hxy ht
    rw [ExtTreeMap.insert_idx_of_mem hmem, ← hs'] at hins
    exact hins

end Peers

/-! ## `proc_v4` and the scan -/

section Scan
variable [Dbl F]

theorem record_follows (x : Reply F) (ho : Holds w m) : Follows w (recordPtr x w) { m with r := record x m.r } 0 := by
  have hprobes := ho.r.idx x.src
  have hpeers := hprobes.idx x.probeId
  have hsamples := hpeers.idx x.peerId
  have hseq := hsamples.idx x.seq
  have hnone := hseq.isNone_iff
  unfold recordPtr
  simp only
  split
  · next hn =>
    rw [hnone] at hn
    refine ⟨?_, .refl ho.route, .refl ho.log, ho.minRtt⟩
    rw [Option.isNone_iff_eq_none.mp hn] at hseq
    have hput : Turns w.tparms (((w.r.idx x.src).idx x.probeId).idx x.peerId) (w.tparms.new (Tparm.new x.rtt (Dbl.num 0) 0 x.timestamp))
        ((((w.r.idx x.src).idx x.probeId).idx x.peerId).insert x.seq (some w.tparms.next))
        (putSample x (((m.r.idx x.src).idx x.probeId).idx x.peerId)) 0 := by
      rw [putSample, if_pos hn]
      exact .insert hsamples (hseq.new _)
    exact .insert ho.r (.insert hprobes (.insert hpeers hput))
  · next hn =>
    rw [hnone] at hn
    refine ⟨?_, .refl ho.route, .refl ho.log, ho.minRtt⟩
    have hput : Turns w.tparms (((w.r.idx x.src).idx x.probeId).idx x.peerId) w.tparms
        (((w.r.idx x.src).idx x.probeId).idx x.peerId) (putSample x (((m.r.idx x.src).idx x.probeId).idx x.peerId)) 0 := by
      rw [putSample, if_neg hn]
      exact .refl hsamples
    exact .insert ho.r (.insert hprobes (.insert hpeers hput))

/-- What the body of the scan stores: the round's peers with a NULL where an aggregate is
absent, and a decision for the round, if any. -/
theorem scanDst_stores {cfg : Config} {p : Nat} {thr : F} {probes : Probes F} {hops : Hops F} {out : ScanOut F}
    (h : scanDst cfg p thr probes hops = some out) : out.probes = probes.insert p (touchPeers p (probes.idx p)) ∧
      (out.hops = none ∨ ∃ rp, out.hops = some (hops.insert p (some rp))) := by
  by_cases hp : p = 0
  · subst hp
    refine ⟨?_, (scanDst_zero h).imp And.right ?_⟩
    · unfold scanDst at h
      obtain ⟨row, -, h⟩ := Option.bind_eq_some_iff.mp h
      simp only [if_true] at h
      cases h
      simp only [scanPeers, touchPeers, if_true]
      have hkeys := ExtTreeMap.map_fst_toList_eq_keys (t := probes.idx (0 : Nat))
      split
      · next hl =>
        rw [hl] at hkeys
        rw [← hkeys]
        rfl
      · next k s rest hl =>
        rw [hl] at hkeys
        have hs : (probes.idx (0 : Nat)).idx k = s :=
          ExtTreeMap.idx_of_getElem? (ExtTreeMap.mem_toList_iff_getElem?_eq_some.mp (by rw [hl]; simp))
        rw [← hkeys, ← hs]
        rfl
    · rintro ⟨k, v, -, -, hsome⟩
      exact ⟨_, hsome⟩
  · obtain ⟨prev, v, -, hhops, -, hpr, -⟩ := scanDst_pos hp h
    refine ⟨?_, Or.inr ⟨_, hhops⟩⟩
    rw [hpr, touchPeers, if_neg hp]

omit [Dbl F] in
theorem touchPeers_turns {h : Arena (Tparm F)} {x : PtrPeers} {y : Peers F} (ho : Owns h x y) (p : Nat) :
    Turns h x h (touchPeers p x) (touchPeers p y) 0 := by
  unfold touchPeers
  split
  · rw [view_keys ho.view]
    cases x.keys.head? with
    | none => exact .refl ho
    | some k => exact .insert ho (.touch (ho.idx k) 99)
  · exact .map ho fun k => .touch (ho.idx k) 99

/-- One destination, where neither a decision nor a row of the round is stored yet. -/
theorem scanStep_follows {cfg : Config} {p : Nat} {d : String} (ho : Holds w m) (hhop : (m.route.idx d).idx p = none)
    (hrow : (m.routeLog1.idx d).idx p = none) (h : scanStep cfg p m d = some m') :
    ∃ w', scanStepPtr cfg p w d = some w' ∧ Follows w w' m' 0 := by
  obtain ⟨out, hout, hm'⟩ := Option.bind_eq_some_iff.mp h
  cases hm'
  obtain ⟨hprobes, hhops⟩ := scanDst_stores hout
  have hr : Turns w.tparms w.r w.tparms (w.r.upd d fun probes => probes.upd p (touchPeers p)) (m.r.insert d out.probes) 0 := by
    rw [hprobes]
    exact .insert ho.r (.insert (ho.r.idx d) (touchPeers_turns ((ho.r.idx d).idx p) p))
  have hrowAt := (ho.log.idx d).idx p
  rw [hrow] at hrowAt
  have hlog := Turns.insert ho.log (.insert (ho.log.idx d) (hrowAt.new out.log))
  have hstep : ∀ hop : Option (RtParm F), (out.hops.bind fun hops => hops.idx p) = hop →
      scanStepPtr cfg p w d = some { storeHop d p hop w with
        r := w.r.upd d fun probes => probes.upd p (touchPeers p)
        routeLog1 := w.routeLog1.upd d fun log => log.insert p (some w.tlogs.next)
        tlogs := w.tlogs.new out.log
        minRtt := Dbl.num 50000 } := by
    intro hop hhop
    simp only [scanStepPtr, (ho.r.idx d).view, (ho.route.idx d).view, ho.minRtt, hout, hhop, Option.bind_eq_bind, Option.bind_some]
    cases hop <;> rfl
  rcases hhops with hnone | ⟨rp, hsome⟩
  · refine ⟨_, hstep none (by rw [hnone]; rfl), hr, ?_, hlog, rfl⟩
    rw [hnone]
    exact .refl ho.route
  · refine ⟨_, hstep (some rp) (by rw [hsome, Option.bind_some, ExtTreeMap.idx_insert, if_pos rfl]), hr, ?_, hlog, rfl⟩
    rw [hsome]
    have hhopAt := (ho.route.idx d).idx p
    rw [hhop] at hhopAt
    exact .insert ho.route (.insert (ho.route.idx d) (hhopAt.new rp))

theorem scan_follows {cfg : Config} {p : Nat} (ho : Holds w m) (hhop : ∀ d, (m.route.idx d).idx p = none)
    (hrow : ∀ d, (m.routeLog1.idx d).idx p = none) (h : pfrRouteScan cfg p m = some m') :
    ∃ w', pfrRouteScanPtr cfg p w = some w' ∧ Follows w w' m' 0 := by
  unfold pfrRouteScanPtr
  rw [← view_keys ho.r.view]
  have hsim := List.foldlM_sim (f := scanStepPtr cfg p) (R := fun done t v => Follows w t v 0 ∧ ScanWalk cfg p m done v)
    ExtTreeMap.nodup_keys ⟨.refl ho, scanWalk_nil cfg p m⟩ ?_ h
  · obtain ⟨w', hw', hf, -⟩ := hsim
    exact ⟨w', hw', hf⟩
  · rintro done d rest t v v' hl hd ⟨hf, hwalk⟩ hv
    obtain ⟨-, hroute, hlog⟩ := hwalk.off d hd
    obtain ⟨t', ht', hft⟩ := scanStep_follows (hf.holds ho) (by rw [ExtTreeMap.idx_congr hroute]; exact hhop d)
      (by rw [ExtTreeMap.idx_congr hlog]; exact hrow d) hv
    exact ⟨t', ht', hf.trans hft, scanStep_walk hl hd hwalk hv⟩

end Scan

end Pfr

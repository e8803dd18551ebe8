import Pfr.Records
import Pfr.Lib.Iter

/- The loops of `pfr_route_free`, `pfr_route_update`, `pfr_delete`, `pfr_delete_all` and
   `pfr_delete_r_route` with their iterators. `Pfr.Update` has what these functions leave
   in the maps; here every `it++` and every `it = erase(it)` fails if the element the
   iterator stands on was erased before.

   1. `freePeers_ok`: the loops below a probe, which erase through the iterator that
      `erase` returned;
   2. `routeFree_ok`, `deleteRRoute_ok`, `delete_ok`, `deleteAll_ok`: these walks use no
      erased position, visit every key and leave what `Pfr.Update` says;
   3. `update_stops`: `pfr_route_update` erases the element its outer loop stands on, by
      a second iterator, and advances from it;
   4. `cleanWalks_iff`: when no walk uses an erased position. -/
namespace Pfr

open Std Iter

variable {F : Type}

/-! ## The maps -/

/-- What the path of an element is made of: a map, a destination, an id. -/
inductive Comp where
  | r | route | routeLog1
  | dst (dstIp : String)
  | id (n : Int)
  deriving DecidableEq, Repr

abbrev Walking (F : Type) := Heap (UpdSt F) Comp

def rMap : Place (UpdSt F) Comp String (Probes F) where
  get s := s.mem.r
  put r s := { s with mem := { s.mem with r := r } }
  path := [.r]
  comp := .dst
  get_put _ _ := rfl
  put_put _ _ _ := rfl

def routeMap : Place (UpdSt F) Comp String (Hops F) where
  get s := s.mem.route
  put route s := { s with mem := { s.mem with route := route } }
  path := [.route]
  comp := .dst
  get_put _ _ := rfl
  put_put _ _ _ := rfl

def logMap : Place (UpdSt F) Comp String (ExtTreeMap Int (Option (Tlog F))) where
  get s := s.mem.routeLog1
  put log s := { s with mem := { s.mem with routeLog1 := log } }
  path := [.routeLog1]
  comp := .dst
  get_put _ _ := rfl
  put_put _ _ _ := rfl

/-- `r[dst_ip]`, `r[dst_ip][probe_id]`, `r[dst_ip][probe_id][peer_id]` and `route[dst_ip]`. -/
def rDst (d : String) : Place (UpdSt F) Comp Int (Peers F) := rMap.sub d .id
def rProbe (d : String) (p : Int) : Place (UpdSt F) Comp Int (Samples F) := (rDst d).sub p .id
def rPeer (d : String) (p k : Int) : Place (UpdSt F) Comp Int (Option (Tparm F)) := (rProbe d p).sub k .id
def routeDst (d : String) : Place (UpdSt F) Comp Int (Option (RtParm F)) := routeMap.sub d .id

def onMem (f : Mem F → Mem F) (h : Walking F) : Walking F := { h with data := { h.data with mem := f h.data.mem } }

/-! ## The loops -/

/-- The loops over `it2` and `it3`. -/
def freePeers (dstIp : String) (probeId : Int) (h : Walking F) : Except Stop (Walking F) :=
  clear (rProbe dstIp probeId) (fun peerId => clear (rPeer dstIp probeId peerId) fun _ t => .ok t) h

/-- `delete route[dst_ip][probe_id]`, which creates what it does not find. -/
def deleteHop (dstIp : String) (probeId : Int) (h : Walking F) : Walking F :=
  { h with data := (routeDst dstIp).put (((routeDst dstIp).get h.data).upd probeId id) h.data }

def routeFreeDst (probeId : Int) (dstIp : String) (h : Walking F) : Except Stop (Walking F) := do
  let h ← freePeers dstIp probeId h
  return (routeDst dstIp).eraseAt probeId (deleteHop dstIp probeId h)

def pfrRouteFreeIt (probeId : Int) (m : Mem F) : Except Stop (List String × Walking F) :=
  if probeId < 2 then .ok ([], ⟨⟨probeId, m⟩, []⟩)
  else forKeys rMap (routeFreeDst (probeId - 2)) ⟨⟨probeId - 2, m⟩, []⟩

/-- The body of the loop over `r[dst_ip]` up to `it1 = r[dst_ip].erase(it1)`. -/
def routeUpdateProbe (dstIp : String) (probeId : Int) (h : Walking F) : Except Stop (Walking F) := do
  -- `probe_id = it1->first` assigns the parameter
  let h ← freePeers dstIp probeId { h with data := { h.data with probeId := probeId } }
  return (routeDst dstIp).eraseAt probeId (deleteHop dstIp probeId h)

def withdrawCurr (prev : Option (RtParm F)) (dstIp : String) (m : Mem F) : Mem F :=
  match prev with
  | some rp => if rp.currPeerId > 0 then pfrDeleteSetJrouterRt rp.currPeerId dstIp m else m
  | none => m

def routeUpdateDst (dstList : List String) (dstIp : String) (h : Walking F) : Except Stop (Walking F) :=
  if dstIp ∈ dstList then .ok h
  else
    let h := (routeDst dstIp).touch h
    match prevHop (h.data.mem.route.idx dstIp) h.data.probeId with
    | none => .error .null
    | some prev => do
      let h := onMem (withdrawCurr prev dstIp) h
      let r ← forErase (rDst dstIp) (routeUpdateProbe dstIp) (fun _ t => .ok t) ((rDst dstIp).touch h)
      -- `itr` and `itroute`, found by the key: `it0` stays where it is
      let h ← rMap.eraseFound dstIp r.2
      routeMap.eraseFound dstIp h

def pfrRouteUpdateIt (probeId : Int) (dstList : List String) (m : Mem F) : Except Stop (List String × Walking F) :=
  forKeys rMap (routeUpdateDst dstList) ⟨⟨probeId, m⟩, []⟩

def deleteRRouteProbe (dstIp : String) (probeId : Int) (h : Walking F) : Except Stop (Walking F) := do
  let h ← freePeers dstIp probeId h
  return deleteHop dstIp probeId h

/-- With the keys of `r[dst_ip]` it visits. -/
def pfrDeleteRRouteIt (dstIp : String) (peerId : Int) (h : Walking F) : Except Stop (List Int × Walking F) := do
  let r ← forErase (rDst dstIp) (deleteRRouteProbe dstIp)
    (fun probeId t => .ok ((routeDst dstIp).eraseAt probeId t)) ((rDst dstIp).touch h)
  let h := onMem (pfrDeleteSetJrouterRt peerId dstIp) r.2
  return (r.1, routeMap.eraseAt dstIp (rMap.eraseAt dstIp h))

/-- The body of the loops over `route_log1`. -/
def deleteDst (flag : String → Mem F → Option Bool) (probeId : Int) (dstIp : String) (h : Walking F) :
    Except Stop (Walking F) :=
  match flag dstIp h.data.mem with
  | none => .error .null
  | some false => .ok h
  | some true =>
    match hopAt h.data.mem.route dstIp probeId with
    | none => .ok h
    | some rp => do
      let r ← pfrDeleteRRouteIt dstIp rp.currPeerId h
      return r.2

def pfrDeleteIt (cfg : Config) (probeId : Int) (m : Mem F) : Except Stop (List String × Walking F) :=
  if probeId ≤ cfg.deepDelete then .ok ([], ⟨⟨probeId, m⟩, []⟩)
  else
    forKeys logMap
      (deleteDst (fun d t => deleteFlag (t.routeLog1.idx d) probeId (List.range (cfg.deepDelete + 1).toNat)) probeId)
      ⟨⟨probeId, m⟩, []⟩

def pfrDeleteAllIt (probeId : Int) (m : Mem F) : Except Stop (List String × Walking F) :=
  forKeys logMap (deleteDst (fun _ _ => some true) probeId) ⟨⟨probeId, m⟩, []⟩

/-! ## Below a probe -/

/-- Everything `r[dst_ip][probe_id]` holds is freed, and nothing else. -/
theorem freePeers_ok (d : String) (p : Int) (h : Walking F) : ∃ u, freePeers d p h = .ok u ∧
    u.data = (rProbe d p).put ∅ h.data ∧ Erases (Below [.r, .dst d, .id p]) h u := by
  refine clear_ok h ?_
  intro k t m hm hk
  have hpeer : ∃ u, clear (rPeer d p k) (fun _ t => .ok t) t = .ok u ∧ u.data = (rPeer d p k).put ∅ t.data ∧
      Erases (Below [.r, .dst d, .id p, .id k]) t u :=
    clear_ok t fun _ t' m' hm' _ => ⟨t', m', rfl, hm', rfl, .refl _ _⟩
  obtain ⟨u, hu, hdata, he⟩ := hpeer
  refine ⟨u, m.insert k ∅, hu, ?_, ExtTreeMap.keys_insert_of_mem hk _, he⟩
  calc u.data = (rProbe d p).put (((rProbe d p).get t.data).insert k ∅) t.data := hdata
    _ = (rProbe d p).put (m.insert k ∅) h.data := by rw [hm, Place.get_put, Place.put_put]

/-- What `delete route[dst_ip][probe_id]` and the erasure after it leave. -/
theorem eraseHop_data (d : String) (p : Int) (h : Walking F) :
    ((routeDst d).eraseAt p (deleteHop d p h)).data =
      { h.data with mem := { h.data.mem with route := h.data.mem.route.upd d (·.erase p) } } := by
  have herase : ∀ hops : Hops F, (hops.upd p id).erase p = hops.erase p := by
    intro hops
    apply ExtTreeMap.erase_congr
    intro q hq
    rw [ExtTreeMap.getElem?_upd, if_neg hq]
  calc ((routeDst d).eraseAt p (deleteHop d p h)).data
      = (routeDst d).put ((((routeDst d).get h.data).upd p id).erase p) h.data := by
        rw [Place.eraseAt, deleteHop, Place.get_put, Place.put_put]
    _ = (routeDst d).put (((routeDst d).get h.data).erase p) h.data := by rw [herase]

/-- Erased from `r` or from `route`. -/
def OfPaths (e : List Comp) : Prop := e.head? = some .r ∨ e.head? = some .route

theorem below_head {a : Comp} {l e : List Comp} (h : Below (a :: l) e) : e.head? = some a := by
  obtain ⟨t, rfl⟩ := h.1
  rfl

theorem OfPaths.off_log {e : List Comp} (h : OfPaths e) (d : String) : ¬e <+: [.routeLog1, .dst d] := by
  cases e with
  | nil => rcases h with h | h <;> cases h
  | cons a l =>
    refine not_covers_of_head ?_
    rintro rfl
    rcases h with h | h <;> cases h

/-! ## `pfr_route_free` -/

/-- One destination: its peers of the round are freed, and its decision. -/
theorem routeFreeDst_ok (p : Int) (d : String) (h : Walking F) : ∃ u, routeFreeDst p d h = .ok u ∧
    u.data = { h.data with mem := { h.data.mem with
      r := h.data.mem.r.upd d (·.insert p ∅)
      route := h.data.mem.route.upd d (·.erase p) } } ∧
    Erases (fun e => ¬e <+: [.r, .dst d]) h u := by
  obtain ⟨t, ht, hdata, he⟩ := freePeers_ok d p h
  refine ⟨_, by rw [routeFreeDst, ht]; rfl, ?_, ?_⟩
  · rw [eraseHop_data, hdata]
    rfl
  · have hbelow : ∀ e : List Comp, Below [.r, .dst d, .id p] e → ¬e <+: [.r, .dst d] := by
      intro e hlow
      exact (((rDst (F := F) d).node_below p).trans hlow).not_covers
    exact (he.mono hbelow).trans (.eraseAt (routeDst d) (not_covers_of_head (by decide)) (deleteHop d p t))

theorem keys_foldl_upd {β : Type} [Inhabited β] (f : β → β) (m : ExtTreeMap String β) :
    m.keys.foldl (fun t d => t.upd d f) m = m.map fun _ v => f v := by
  apply ExtTreeMap.ext_getElem?
  intro d
  rw [foldl_upd_getElem? f _ _ ExtTreeMap.nodup_keys, ExtTreeMap.getElem?_map]
  by_cases hd : d ∈ m
  · rw [if_pos (ExtTreeMap.mem_keys.mpr hd), ExtTreeMap.getElem?_idx hd, Option.map_some]
  · rw [if_neg (fun hm => hd (ExtTreeMap.mem_keys.mp hm)), ExtTreeMap.getElem?_eq_none hd, Option.map_none]

/-- **`pfr_route_free` uses no erased position**, and leaves what `pfrRouteFree` says. -/
theorem routeFree_ok (p : Nat) (m : Mem F) : ∃ h, pfrRouteFreeIt p m = .ok (if p < 2 then [] else m.r.keys, h) ∧
    h.data.mem = pfrRouteFree p m := by
  by_cases hp : p < 2
  · refine ⟨⟨⟨p, m⟩, []⟩, ?_, (free_small m hp).symm⟩
    rw [pfrRouteFreeIt, if_pos (by omega), if_pos hp]
  · have hwalk : ∃ h, forKeys rMap (routeFreeDst (p - 2 : Int)) ⟨⟨p - 2, m⟩, []⟩ = .ok (m.r.keys, h) ∧
        h.data.mem = { m with
          r := m.r.keys.foldl (fun t d => t.upd d (·.insert (p - 2 : Int) ∅)) m.r
          route := m.r.keys.foldl (fun t d => t.upd d (·.erase (p - 2 : Int))) m.route } := by
      refine forKeys_ok (P := rMap) (I := fun done t => t.data.mem = { m with
        r := done.foldl (fun t d => t.upd d (·.insert (p - 2 : Int) ∅)) m.r
        route := done.foldl (fun t d => t.upd d (·.erase (p - 2 : Int))) m.route }) rfl ?_
      intro done d rest t hd hkeys ht
      obtain ⟨u, hu, hdata, he⟩ := routeFreeDst_ok (p - 2 : Int) d t
      have hmem : d ∈ t.data.mem.r := rMap.mem_of_split (hkeys.trans hd)
      refine ⟨u, hu, ?_, he, ?_⟩
      · rw [← hkeys]
        show u.data.mem.r.keys = t.data.mem.r.keys
        rw [hdata]
        exact ExtTreeMap.keys_insert_of_mem hmem _
      · rw [hdata, ht, List.foldl_append, List.foldl_append]
        rfl
    obtain ⟨h, hrun, hmem⟩ := hwalk
    refine ⟨h, ?_, ?_⟩
    · rw [pfrRouteFreeIt, if_neg (by omega), if_neg hp, hrun]
    · rw [hmem, pfrRouteFree, if_neg hp, keys_foldl_upd]

/-! ## `pfr_delete_r_route` -/

/-- From `m` to `t` only the entries of `dstIp` changed. -/
structure OffDst (dstIp : String) (m t : Mem F) : Prop where
  frame : t = { m with r := t.r, route := t.route }
  r : ∀ e, dstIp ≠ e → t.r[e]? = m.r[e]?
  route : ∀ e, dstIp ≠ e → t.route[e]? = m.route[e]?

section Off
variable {d : String} {m t : Mem F}

theorem OffDst.refl (d : String) (m : Mem F) : OffDst d m m := ⟨rfl, fun _ _ => rfl, fun _ _ => rfl⟩

theorem OffDst.trans {u : Mem F} (h : OffDst d m t) (h' : OffDst d t u) : OffDst d m u where
  frame := by rw [h'.frame, h.frame]
  r := fun e he => (h'.r e he).trans (h.r e he)
  route := fun e he => (h'.route e he).trans (h.route e he)

theorem OffDst.put_r (h : OffDst d m t) (probes : Probes F) : OffDst d m { t with r := t.r.insert d probes } where
  frame := by rw [h.frame]
  r := by
    intro e he
    rw [ExtTreeMap.getElem?_insert, if_neg (by rwa [LawfulEqCmp.compare_eq_iff_eq]), h.r e he]
  route := h.route

theorem OffDst.put_route (h : OffDst d m t) (hops : Hops F) :
    OffDst d m { t with route := t.route.insert d hops } where
  frame := by rw [h.frame]
  r := h.r
  route := by
    intro e he
    rw [ExtTreeMap.getElem?_insert, if_neg (by rwa [LawfulEqCmp.compare_eq_iff_eq]), h.route e he]

theorem OffDst.delete (h : OffDst d m t) (a : Int) :
    OffDst d (pfrDeleteSetJrouterRt a d m) (pfrDeleteSetJrouterRt a d t) where
  frame := by rw [h.frame]; rfl
  r := h.r
  route := h.route

theorem OffDst.deleteHop {t : Walking F} (h : OffDst d m t.data.mem) (p : Int) :
    OffDst d m (Pfr.deleteHop d p t).data.mem := h.put_route _

theorem OffDst.eraseProbe {t : Walking F} (h : OffDst d m t.data.mem) (p : Int) :
    OffDst d m ((rDst d).eraseAt p t).data.mem := h.put_r _

theorem OffDst.eraseHop {t : Walking F} (h : OffDst d m t.data.mem) (p : Int) :
    OffDst d m ((routeDst d).eraseAt p t).data.mem := h.put_route _

/-- Without the entries of the destination nothing of it is left. -/
theorem OffDst.erase (h : OffDst d m t) : { t with r := t.r.erase d, route := t.route.erase d } =
    { m with r := m.r.erase d, route := m.route.erase d } := by
  have hr : t.r.erase d = m.r.erase d := ExtTreeMap.erase_congr h.r
  have hroute : t.route.erase d = m.route.erase d := ExtTreeMap.erase_congr h.route
  rw [hr, hroute, h.frame]

end Off

/-- A turn of a loop over `r[dst_ip]`, up to the decision of the probe. -/
theorem freeProbe_ok (d : String) (p : Int) (h : Walking F) (hp : p ∈ (rDst d).keys h) : ∃ u, freePeers d p h = .ok u ∧
    u.data.probeId = h.data.probeId ∧ (∀ m, OffDst d m h.data.mem → OffDst d m u.data.mem) ∧
    (rDst d).keys u = (rDst d).keys h ∧ u.data.mem.route = h.data.mem.route ∧ d ∈ u.data.mem.r ∧
    Erases (Below [.r, .dst d, .id p]) h u := by
  obtain ⟨u, hu, hdata, he⟩ := freePeers_ok d p h
  refine ⟨u, hu, by rw [hdata]; rfl, ?_, ?_, by rw [hdata]; rfl, ?_, he⟩
  · intro m hm
    rw [hdata]
    exact hm.put_r _
  · rw [Place.keys, hdata]
    show ((rDst d).get ((rDst d).put (((rDst d).get h.data).insert p ∅) h.data)).keys = _
    rw [Place.get_put]
    exact ExtTreeMap.keys_insert_of_mem (ExtTreeMap.mem_keys.mp hp) _
  · rw [hdata]
    show d ∈ h.data.mem.r.insert d _
    exact ExtTreeMap.mem_insert_self

theorem keys_eraseHop (d : String) (p : Int) (h : Walking F) :
    (rDst d).keys ((routeDst d).eraseAt p h) = (rDst d).keys h := rfl

/-- **`pfr_delete_r_route` uses no erased position**: it visits every probe of the
destination and leaves what `pfrDeleteRRoute` says. -/
theorem deleteRRoute_ok (d : String) (a : Int) (h : Walking F) : ∃ u,
    pfrDeleteRRouteIt d a h = .ok ((h.data.mem.r.idx d).keys, u) ∧
    u.data.mem = pfrDeleteRRoute d a h.data.mem ∧ Erases OfPaths h u := by
  have hwalk : ∃ u, forErase (rDst d) (deleteRRouteProbe d) (fun p t => .ok ((routeDst d).eraseAt p t))
      ((rDst d).touch h) = .ok ((rDst d).keys ((rDst d).touch h), u) ∧ (rDst d).keys u = [] ∧
      OffDst d h.data.mem u.data.mem ∧ Erases OfPaths h u := by
    refine forErase_ok (h := (rDst d).touch h) (I := fun _ t => OffDst d h.data.mem t.data.mem ∧ Erases OfPaths h t)
      ⟨(OffDst.refl d h.data.mem).put_r _, .of_eq rfl⟩ ?_
    rintro done p rest t - hkeys ⟨hoff, he⟩
    obtain ⟨u, hu, -, hoff', hkeys', -, -, he'⟩ := freeProbe_ok d p t (by rw [hkeys]; exact List.mem_cons_self)
    have hbefore : (rDst d).keys (deleteHop d p u) = p :: rest := by rw [← hkeys, ← hkeys']; rfl
    refine ⟨deleteHop d p u, _, by rw [deleteRRouteProbe, hu]; rfl, hbefore, ?_, rfl, ?_, ?_, ?_, ?_⟩
    · exact he'.mono fun e hlow => hlow.not_covers
    · rw [keys_eraseHop]
      exact (rDst d).keys_eraseAt hbefore
    · exact .eraseAt (routeDst d) (fun q _ => not_covers_of_head (by decide)) _
    · exact (((hoff' _ hoff).deleteHop p).eraseProbe p).eraseHop p
    · have hprobe : Erases OfPaths t (deleteHop d p u) := he'.mono fun e hlow => Or.inl (below_head hlow)
      have herased : Erases OfPaths (deleteHop d p u) ((rDst d).eraseAt p (deleteHop d p u)) :=
        .eraseAt (rDst d) (Or.inl rfl) _
      exact ((he.trans hprobe).trans herased).trans (.eraseAt (routeDst d) (Or.inr rfl) _)
  obtain ⟨t, hrun, -, hoff, he⟩ := hwalk
  rw [Place.keys_touch] at hrun
  refine ⟨_, by rw [pfrDeleteRRouteIt, hrun]; rfl, ?_, ?_⟩
  · calc (routeMap.eraseAt d (rMap.eraseAt d (onMem (pfrDeleteSetJrouterRt a d) t))).data.mem
        = { pfrDeleteSetJrouterRt a d t.data.mem with
            r := (pfrDeleteSetJrouterRt a d t.data.mem).r.erase d
            route := (pfrDeleteSetJrouterRt a d t.data.mem).route.erase d } := rfl
      _ = pfrDeleteRRoute d a h.data.mem := (hoff.delete a).erase
  · have hr : Erases OfPaths h (rMap.eraseAt d (onMem (pfrDeleteSetJrouterRt a d) t)) :=
      he.trans ((Erases.of_eq rfl).trans (.eraseAt rMap (Or.inl rfl) (onMem (pfrDeleteSetJrouterRt a d) t)))
    exact hr.trans (.eraseAt routeMap (Or.inr rfl) _)

/-! ## `pfr_delete` and `pfr_delete_all` -/

theorem deleteRouted_routeLog1 (p : Int) (d : String) (m : Mem F) : (deleteRouted p d m).routeLog1 = m.routeLog1 := by
  unfold deleteRouted
  split <;> rfl

/-- One destination of the log: what is erased lies in `r` and `route`. -/
theorem deleteDst_ok {flag : String → Mem F → Option Bool} (p : Int) {d : String} {h : Walking F} {b : Bool}
    (hb : flag d h.data.mem = some b) : ∃ u, deleteDst flag p d h = .ok u ∧
    u.data.mem = (if b then deleteRouted p d h.data.mem else h.data.mem) ∧ Erases OfPaths h u := by
  rw [deleteDst, hb, deleteRouted]
  cases b with
  | false => exact ⟨h, rfl, rfl, .refl _ _⟩
  | true =>
    cases hopAt h.data.mem.route d p with
    | none => exact ⟨h, rfl, rfl, .refl _ _⟩
    | some rp =>
      obtain ⟨u, hu, hmem, he⟩ := deleteRRoute_ok d rp.currPeerId h
      refine ⟨u, ?_, hmem, he⟩
      show (pfrDeleteRRouteIt d rp.currPeerId h >>= _) = _
      rw [hu]
      rfl

section DeleteLoop
variable {flag : String → Mem F → Option Bool} {p q : Int} {m : Mem F}

/-- The deletions of the destinations of `done`. -/
def Deletes (flag : String → Mem F → Option Bool) (p : Int) (m : Mem F) (done : List String) (t : Walking F) : Prop :=
  t.data.mem.routeLog1 = m.routeLog1 ∧
    done.foldlM (fun t d => (flag d m).map fun b => if b then deleteRouted p d t else t) m = some t.data.mem

/-- One turn of the loop. -/
theorem Deletes.turn (hflag : ∀ d t, t.routeLog1 = m.routeLog1 → flag d t = flag d m) {seen : List String} {d : String}
    {t : Walking F} (ht : Deletes flag p m seen t) (hd : (flag d m).isSome) : ∃ u, deleteDst flag p d t = .ok u ∧
    logMap.keys u = m.routeLog1.keys ∧ Erases (fun e => ¬e <+: [.routeLog1, .dst d]) t u ∧
    Deletes flag p m (seen ++ [d]) u := by
  obtain ⟨b, hb⟩ := Option.isSome_iff_exists.mp hd
  obtain ⟨u, hu, hmem, he⟩ := deleteDst_ok p ((hflag d _ ht.1).trans hb)
  have hlog : u.data.mem.routeLog1 = m.routeLog1 := by
    rw [hmem, ← ht.1]
    split
    · exact deleteRouted_routeLog1 p d _
    · rfl
  refine ⟨u, hu, congrArg ExtTreeMap.keys hlog, he.mono fun e hof => hof.off_log d, hlog, ?_⟩
  rw [List.foldlM_append, ht.2, hmem]
  rw [Option.bind_eq_bind, Option.bind_some, List.foldlM_cons, hb]
  rfl

/-- **The loop over `route_log1` uses no erased position** while it reads no NULL. -/
theorem deleteLoop_ok (hflag : ∀ d t, t.routeLog1 = m.routeLog1 → flag d t = flag d m)
    (hsome : ∀ d ∈ m.routeLog1, (flag d m).isSome) :
    ∃ h, forKeys logMap (deleteDst flag p) ⟨⟨q, m⟩, []⟩ = .ok (m.routeLog1.keys, h) ∧
      deleteWalk (fun d => flag d m) p m = some h.data.mem := by
  have hwalk : ∃ h, forKeys logMap (deleteDst flag p) ⟨⟨q, m⟩, []⟩ = .ok (m.routeLog1.keys, h) ∧
      Deletes flag p m m.routeLog1.keys h := by
    refine forKeys_ok (P := logMap) ⟨rfl, rfl⟩ ?_
    intro done d rest t hd _ ht
    exact ht.turn hflag (hsome d (logMap.mem_of_split hd))
  obtain ⟨h, hrun, hdel⟩ := hwalk
  exact ⟨h, hrun, hdel.2⟩

/-- At a NULL it stops. -/
theorem deleteLoop_null (hflag : ∀ d t, t.routeLog1 = m.routeLog1 → flag d t = flag d m) {d : String}
    (hmem : d ∈ m.routeLog1) (hd : flag d m = none) :
    forKeys logMap (deleteDst flag p) ⟨⟨q, m⟩, []⟩ = .error .null := by
  obtain ⟨done, k, rest, hkeys, hdone, hnull⟩ : ∃ done k rest, m.routeLog1.keys = done ++ k :: rest ∧
      (∀ a ∈ done, (flag a m).isSome) ∧ ¬(flag k m).isSome :=
    exists_first ⟨d, ExtTreeMap.mem_keys.mpr hmem, by rw [hd]; exact Bool.false_ne_true⟩
  refine forKeys_error (P := logMap) (I := Deletes flag p m) hkeys ⟨rfl, rfl⟩ ?_ ?_
  · intro seen a todo t hs _ ht
    exact ht.turn hflag (hdone a (by rw [hs]; simp))
  · intro t _ ht
    have hflagk : flag k t.data.mem = none := by
      rw [hflag k _ ht.1]
      exact Option.not_isSome_iff_eq_none.mp hnull
    rw [deleteDst, hflagk]
    rfl

end DeleteLoop

/-- `pfr_delete` comes to a NULL among the rows of a destination: it reads them from the
last round on, up to `deep_delete` rounds back or to one with a peer. -/
def MeetsNull (deepDelete probeId : Int) (rows : ExtTreeMap Int (Option (Tlog F))) : Prop :=
  ∃ i : Nat, (i : Int) ≤ deepDelete ∧ rows[probeId - i]? = some none ∧
    ∀ j : Nat, j < i → ∀ row, rows[probeId - j]? = some (some row) → row.peerId = 0

/-- A NULL met among the `n` rows from `probe_id - s` on backwards. -/
def MeetsFrom (probeId : Int) (rows : ExtTreeMap Int (Option (Tlog F))) (s n : Nat) : Prop :=
  ∃ i : Nat, s ≤ i ∧ i < s + n ∧ rows[probeId - i]? = some none ∧
    ∀ j : Nat, s ≤ j → j < i → ∀ row : Tlog F, rows[probeId - j]? = some (some row) → row.peerId = 0

section Meets
variable {p : Int} {rows : ExtTreeMap Int (Option (Tlog F))} {s n : Nat}

/-- The first row is NULL, or it has no peer and the rows before it are gone through. -/
theorem meetsFrom_succ : MeetsFrom p rows s (n + 1) ↔ rows[p - s]? = some none ∨
    ((∀ row : Tlog F, rows[p - s]? = some (some row) → row.peerId = 0) ∧ MeetsFrom p rows (s + 1) n) := by
  constructor
  · rintro ⟨i, hs, hi, hnull, hbefore⟩
    rcases Nat.eq_or_lt_of_le hs with rfl | hlt
    · exact Or.inl hnull
    · refine Or.inr ⟨hbefore s (Nat.le_refl s) hlt, i, hlt, by omega, hnull, ?_⟩
      exact fun j hj => hbefore j (by omega)
  · rintro (hnull | ⟨hzero, i, hs, hi, hnull, hbefore⟩)
    · exact ⟨s, Nat.le_refl s, by omega, hnull, fun j hj hji => by omega⟩
    · refine ⟨i, by omega, by omega, hnull, ?_⟩
      intro j hj hji row hrow
      rcases Nat.eq_or_lt_of_le hj with rfl | hlt
      · exact hzero row hrow
      · exact hbefore j hlt hji row hrow

theorem deleteFlag_null_iff : ∀ n s : Nat, deleteFlag rows p (List.range' s n) = none ↔ MeetsFrom p rows s n
  | 0, s => by
    rw [List.range'_zero, deleteFlag]
    refine iff_of_false (by simp) ?_
    rintro ⟨i, hs, hi, -⟩
    omega
  | n + 1, s => by
    have ih : deleteFlag rows p (List.range' (s + 1) n) = none ↔ _ := deleteFlag_null_iff n (s + 1)
    rw [List.range'_succ, deleteFlag, meetsFrom_succ]
    cases hrow : rows[p - s]? with
    | none =>
      rw [if_neg (by rw [ExtTreeMap.mem_iff_isSome_getElem?, hrow]; simp), ih]
      simp
    | some v =>
      rw [if_pos (ExtTreeMap.mem_of_getElem? hrow), ExtTreeMap.idx_of_getElem? hrow]
      cases v with
      | none => exact iff_of_true rfl (Or.inl rfl)
      | some row =>
        simp only [Option.bind_eq_bind, Option.bind_some]
        by_cases hpeer : row.peerId = 0
        · rw [if_pos hpeer, ih]
          simp [hpeer]
        · rw [if_neg hpeer]
          simp [hpeer]

end Meets

theorem meetsNull_iff {deepDelete p : Int} {rows : ExtTreeMap Int (Option (Tlog F))} :
    MeetsNull deepDelete p rows ↔ deleteFlag rows p (List.range (deepDelete + 1).toNat) = none := by
  rw [List.range_eq_range', deleteFlag_null_iff]
  constructor
  · rintro ⟨i, hi, hnull, hbefore⟩
    exact ⟨i, Nat.zero_le _, by omega, hnull, fun j _ => hbefore j⟩
  · rintro ⟨i, -, hi, hnull, hbefore⟩
    exact ⟨i, by omega, hnull, fun j => hbefore j (Nat.zero_le _)⟩

theorem deleteFlag_log (cfg : Config) (p : Int) (m : Mem F) (d : String) (t : Mem F) (ht : t.routeLog1 = m.routeLog1) :
    deleteFlag (t.routeLog1.idx d) p (List.range (cfg.deepDelete + 1).toNat) =
      deleteFlag (m.routeLog1.idx d) p (List.range (cfg.deepDelete + 1).toNat) := by
  rw [ht]

/-- **`pfr_delete` uses no erased position**: it visits every destination of `route_log1`
and leaves what `pfrDelete` says. -/
theorem delete_ok {cfg : Config} {p : Int} {m : Mem F}
    (hrows : cfg.deepDelete < p → ∀ d ∈ m.routeLog1, ¬MeetsNull cfg.deepDelete p (m.routeLog1.idx d)) :
    ∃ h, pfrDeleteIt cfg p m = .ok (if p ≤ cfg.deepDelete then [] else m.routeLog1.keys, h) ∧
      pfrDelete cfg p m = some h.data.mem := by
  by_cases hp : p ≤ cfg.deepDelete
  · refine ⟨⟨⟨p, m⟩, []⟩, ?_, ?_⟩
    · rw [pfrDeleteIt, if_pos hp, if_pos hp]
    · rw [pfrDelete, if_pos hp]
  · have hsome : ∀ d ∈ m.routeLog1, (deleteFlag (m.routeLog1.idx d) p (List.range (cfg.deepDelete + 1).toNat)).isSome := by
      intro d hd
      rw [Option.isSome_iff_ne_none]
      exact fun hnone => hrows (by omega) d hd (meetsNull_iff.mpr hnone)
    obtain ⟨h, hrun, hmem⟩ := deleteLoop_ok (q := p) (deleteFlag_log cfg p m) hsome
    refine ⟨h, ?_, ?_⟩
    · rw [pfrDeleteIt, if_neg hp, if_neg hp, hrun]
    · rw [pfrDelete, if_neg hp, hmem]

/-- **`pfr_delete_all` uses no erased position**, and leaves what `pfrDeleteAll` says. -/
theorem deleteAll_ok (p : Int) (m : Mem F) : ∃ h, pfrDeleteAllIt p m = .ok (m.routeLog1.keys, h) ∧
    pfrDeleteAll p m = some h.data.mem :=
  deleteLoop_ok (fun _ _ _ => rfl) fun _ _ => rfl

theorem delete_visits_iff {cfg : Config} {p : Int} {m : Mem F} :
    Visits (pfrDeleteIt cfg p m) (if p ≤ cfg.deepDelete then [] else m.routeLog1.keys) ↔
      (cfg.deepDelete < p → ∀ d ∈ m.routeLog1, ¬MeetsNull cfg.deepDelete p (m.routeLog1.idx d)) := by
  constructor
  · rintro ⟨h, hrun⟩ hp d hd hnull
    have hstop := deleteLoop_null (p := p) (q := p) (deleteFlag_log cfg p m) hd (meetsNull_iff.mp hnull)
    rw [pfrDeleteIt, if_neg (by omega), hstop] at hrun
    cases hrun
  · intro hrows
    obtain ⟨h, hrun, -⟩ := delete_ok hrows
    exact ⟨h, hrun⟩

/-! ## `pfr_route_update` -/

section Update
variable {d : String} {m t : Mem F} {dstList : List String} {p : Int}

theorem withdrawCurr_maps (prev : Option (RtParm F)) (d : String) (m : Mem F) :
    (withdrawCurr prev d m).r = m.r ∧ (withdrawCurr prev d m).route = m.route := by
  unfold withdrawCurr
  cases prev with
  | none => exact ⟨rfl, rfl⟩
  | some rp => simp only; split <;> exact ⟨rfl, rfl⟩

theorem OffDst.withdraw (h : OffDst d m t) (prev : Option (RtParm F)) :
    OffDst d (withdrawCurr prev d m) (withdrawCurr prev d t) := by
  unfold withdrawCurr
  cases prev with
  | none => exact h
  | some rp =>
    simp only
    split
    · exact h.delete rp.currPeerId
    · exact h

theorem dropDst_eq (prev : Option (RtParm F)) (d : String) (m : Mem F) : dropDst prev d m =
    { withdrawCurr prev d m with
      r := (withdrawCurr prev d m).r.erase d, route := (withdrawCurr prev d m).route.erase d } := rfl

/-- The loop over the probes of a destination that left the list. It assigns `probe_id`. -/
theorem updateProbes_ok (d : String) (h : Walking F) : ∃ u,
    forErase (rDst d) (routeUpdateProbe d) (fun _ t => .ok t) ((rDst d).touch h) = .ok ((h.data.mem.r.idx d).keys, u) ∧
    u.data.probeId = lastProbe (h.data.mem.r.idx d) h.data.probeId ∧ OffDst d h.data.mem u.data.mem ∧
    d ∈ u.data.mem.r ∧ (d ∈ h.data.mem.route → d ∈ u.data.mem.route) ∧ Erases (fun _ => True) h u := by
  have hwalk : ∃ u, forErase (rDst d) (routeUpdateProbe d) (fun _ t => .ok t) ((rDst d).touch h) =
        .ok ((rDst d).keys ((rDst d).touch h), u) ∧ (rDst d).keys u = [] ∧
      u.data.probeId = ((rDst d).keys ((rDst d).touch h)).getLast?.getD h.data.probeId ∧
      OffDst d h.data.mem u.data.mem ∧ d ∈ u.data.mem.r ∧ (d ∈ h.data.mem.route → d ∈ u.data.mem.route) ∧
      Erases (fun _ => True) h u := by
    refine forErase_ok (h := (rDst d).touch h) (I := fun done t => t.data.probeId = done.getLast?.getD h.data.probeId ∧
      OffDst d h.data.mem t.data.mem ∧ d ∈ t.data.mem.r ∧ (d ∈ h.data.mem.route → d ∈ t.data.mem.route) ∧
      Erases (fun _ => True) h t) ⟨rfl, (OffDst.refl d _).put_r _, ExtTreeMap.mem_insert_self, id, .of_eq rfl⟩ ?_
    rintro done p rest t - hkeys ⟨-, hoff, -, hroute, he⟩
    have hp : p ∈ (rDst d).keys t := by rw [hkeys]; exact List.mem_cons_self
    obtain ⟨u, hu, hid, hoff', hkeys', hsame, hmem, he'⟩ :=
      freeProbe_ok d p { t with data := { t.data with probeId := p } } hp
    have hprobe : Erases (Below [.r, .dst d, .id p]) t u := he'
    have hbefore : (rDst d).keys ((routeDst d).eraseAt p (deleteHop d p u)) = p :: rest := by
      rw [keys_eraseHop, ← hkeys]
      exact hkeys'
    refine ⟨(routeDst d).eraseAt p (deleteHop d p u), _, by rw [routeUpdateProbe, hu]; rfl, hbefore, ?_, rfl,
      (rDst d).keys_eraseAt hbefore, .refl _ _, ?_, ?_, ?_, ?_, ?_⟩
    · exact (Erases.mono (fun e hlow => hlow.not_covers) hprobe).trans
        (.eraseAt (routeDst d) (not_covers_of_head (by decide)) (deleteHop d p u))
    · show u.data.probeId = _
      rw [hid]
      simp
    · exact (((hoff' _ hoff).deleteHop p).eraseHop p).eraseProbe p
    · exact ExtTreeMap.mem_insert_self
    · exact fun _ => ExtTreeMap.mem_insert_self
    · have hhop : Erases (fun _ => True) u ((routeDst d).eraseAt p (deleteHop d p u)) :=
        .eraseAt (routeDst d) trivial (deleteHop d p u)
      exact ((he.trans (hprobe.mono fun _ _ => trivial)).trans hhop).trans (.eraseAt (rDst d) trivial _)
  obtain ⟨u, hrun, -, hid, hoff, hr, hroute, he⟩ := hwalk
  rw [Place.keys_touch] at hrun hid
  exact ⟨u, hrun, hid, hoff, hr, hroute, he⟩

/-- The look-up of `route[dst_ip]` before it changes nothing in what `prevHop` finds. -/
theorem prevHop_touch (d : String) (h : Walking F) :
    prevHop (((routeDst d).touch h).data.mem.route.idx d) ((routeDst d).touch h).data.probeId =
      prevHop (h.data.mem.route.idx d) h.data.probeId := by
  have htouch : ((routeDst d).touch h).data.mem.route.idx d = h.data.mem.route.idx d := (routeDst d).get_put _ _
  rw [htouch]
  rfl

/-- **A destination that left the list**: what is left of it is what `dropDst` says, but
its element of `r`, at which the outer loop stands, was erased. -/
theorem routeUpdateDst_drop {h : Walking F} {prev : Option (RtParm F)} (hin : d ∉ dstList)
    (hprev : prevHop (h.data.mem.route.idx d) h.data.probeId = some prev) : ∃ u, routeUpdateDst dstList d h = .ok u ∧
      u.data = ⟨lastProbe (h.data.mem.r.idx d) h.data.probeId, dropDst prev d h.data.mem⟩ ∧
      ∃ es, u.erased = es ++ h.erased ∧ [.r, .dst d] ∈ es := by
  obtain ⟨t, hrun, hid, hoff, hr, hroute, es, hes, -⟩ :=
    updateProbes_ok d (onMem (withdrawCurr prev d) ((routeDst d).touch h))
  have hbase : OffDst d (withdrawCurr prev d h.data.mem) (withdrawCurr prev d ((routeDst d).touch h).data.mem) :=
    ((OffDst.refl d h.data.mem).put_route _).withdraw prev
  have hsame : (withdrawCurr prev d ((routeDst d).touch h).data.mem).r = h.data.mem.r := (withdrawCurr_maps prev d _).1
  have hhop : prevHop (((routeDst d).touch h).data.mem.route.idx d) ((routeDst d).touch h).data.probeId = some prev :=
    (prevHop_touch d h).trans hprev
  have hroute' : d ∈ (rMap.eraseAt d t).data.mem.route := by
    refine hroute ?_
    show d ∈ (withdrawCurr prev d ((routeDst d).touch h).data.mem).route
    rw [(withdrawCurr_maps prev d _).2]
    exact ExtTreeMap.mem_insert_self
  have hfound : rMap.eraseFound d t = .ok (rMap.eraseAt d t) := if_pos hr
  refine ⟨routeMap.eraseAt d (rMap.eraseAt d t), ?_, ?_, [.route, .dst d] :: [.r, .dst d] :: es, ?_, by simp⟩
  · rw [routeUpdateDst, if_neg hin]
    simp only [hhop]
    show (forErase _ _ _ ((rDst d).touch (onMem (withdrawCurr prev d) ((routeDst d).touch h))) >>= _) = _
    rw [hrun]
    show (rMap.eraseFound d t >>= fun h => routeMap.eraseFound d h) = _
    rw [hfound]
    exact if_pos hroute'
  · have hmem : (routeMap.eraseAt d (rMap.eraseAt d t)).data.mem = dropDst prev d h.data.mem := by
      rw [dropDst_eq]
      exact (hbase.trans hoff).erase
    have hnum : (routeMap.eraseAt d (rMap.eraseAt d t)).data.probeId = lastProbe (h.data.mem.r.idx d) h.data.probeId := by
      rw [← hsame]
      exact hid
    exact congrArg₂ UpdSt.mk hnum hmem
  · show [.route, .dst d] :: [.r, .dst d] :: t.erased = _
    rw [hes]
    rfl

/-- **Where `pfr_route_update` stops**: at the first destination that left the list, with
an iterator whose element was erased, or before that at a NULL for its decision. -/
theorem update_stops {done rest : List String} (hkeys : m.r.keys = done ++ d :: rest) (hdone : ∀ a ∈ done, a ∈ dstList)
    (hd : d ∉ dstList) : pfrRouteUpdateIt p dstList m =
      .error (if (prevHop (m.route.idx d) p).isSome then .stale else .null) := by
  refine forKeys_error (P := rMap) (I := fun _ t => t = ⟨⟨p, m⟩, []⟩) hkeys rfl ?_ ?_
  · rintro seen a todo t hs hkt rfl
    have ha : a ∈ dstList := hdone a (by rw [hs]; simp)
    exact ⟨_, if_pos ha, rfl, .refl _ _, rfl⟩
  · rintro t - rfl
    cases hprev : prevHop (m.route.idx d) p with
    | none =>
      have hnull : routeUpdateDst dstList d (⟨⟨p, m⟩, []⟩ : Walking F) = .error .null := by
        have hhop := (prevHop_touch d (⟨⟨p, m⟩, []⟩ : Walking F)).trans hprev
        rw [routeUpdateDst, if_neg hd]
        simp only [hhop]
      rw [hnull]
      rfl
    | some prev =>
      obtain ⟨u, hu, -, es, hes, hmem⟩ := routeUpdateDst_drop (h := ⟨⟨p, m⟩, []⟩) hd hprev
      rw [hu]
      exact use_stale hes hmem

/-- With every destination listed the loop changes nothing. -/
theorem update_ok (hall : ∀ d ∈ m.r, d ∈ dstList) : pfrRouteUpdateIt p dstList m = .ok (m.r.keys, ⟨⟨p, m⟩, []⟩) := by
  have hwalk : ∃ h, pfrRouteUpdateIt p dstList m = .ok (m.r.keys, h) ∧ h = ⟨⟨p, m⟩, []⟩ := by
    refine forKeys_ok (P := rMap) (I := fun _ t => t = ⟨⟨p, m⟩, []⟩) rfl ?_
    rintro done d rest t hd - rfl
    have hmem : d ∈ m.r := rMap.mem_of_split hd
    exact ⟨_, if_pos (hall d hmem), rfl, .refl _ _, rfl⟩
  obtain ⟨h, hrun, rfl⟩ := hwalk
  exact hrun

/-- The outer loop comes to its end only if no destination left the list. -/
theorem update_visits_iff : Visits (pfrRouteUpdateIt p dstList m) m.r.keys ↔ ∀ d ∈ m.r, d ∈ dstList := by
  constructor
  · rintro ⟨h, hrun⟩ d hd
    by_contra hout
    obtain ⟨done, k, rest, hkeys, hdone, hgone⟩ : ∃ done k rest, m.r.keys = done ++ k :: rest ∧
        (∀ a ∈ done, a ∈ dstList) ∧ k ∉ dstList := exists_first ⟨d, ExtTreeMap.mem_keys.mpr hd, hout⟩
    rw [update_stops hkeys hdone hgone] at hrun
    cases hrun
  · intro hall
    exact ⟨_, update_ok hall⟩

end Update

/-! ## All the walks -/

/-- No loop uses an erased position, and every outer walk visits the keys that were there
at its start, each once. `pfr_route_free` and `pfr_delete` return without a walk in the
first rounds. -/
structure CleanWalks (cfg : Config) (probeId : Int) (dstList : List String) (m : Mem F) : Prop where
  free : Visits (pfrRouteFreeIt probeId m) (if probeId < 2 then [] else m.r.keys)
  update : Visits (pfrRouteUpdateIt probeId dstList m) m.r.keys
  delete : Visits (pfrDeleteIt cfg probeId m) (if probeId ≤ cfg.deepDelete then [] else m.routeLog1.keys)
  deleteAll : Visits (pfrDeleteAllIt probeId m) m.routeLog1.keys
  deleteRRoute : ∀ dstIp peerId, Visits (pfrDeleteRRouteIt dstIp peerId ⟨⟨probeId, m⟩, []⟩) (m.r.idx dstIp).keys

theorem free_visits (p : Int) (m : Mem F) : Visits (pfrRouteFreeIt p m) (if p < 2 then [] else m.r.keys) := by
  by_cases hp : p < 2
  · refine ⟨⟨⟨p, m⟩, []⟩, ?_⟩
    rw [pfrRouteFreeIt, if_pos hp, if_pos hp]
  · obtain ⟨n, rfl⟩ := Int.eq_ofNat_of_zero_le (by omega : 0 ≤ p)
    obtain ⟨h, hrun, -⟩ := routeFree_ok n m
    refine ⟨h, ?_⟩
    rw [if_neg hp, hrun, if_neg (by omega)]

/-- **When no walk uses an erased position.** -/
theorem cleanWalks_iff (cfg : Config) (p : Int) (dstList : List String) (m : Mem F) :
    CleanWalks cfg p dstList m ↔ (∀ d ∈ m.r, d ∈ dstList) ∧
      (cfg.deepDelete < p → ∀ d ∈ m.routeLog1, ¬MeetsNull cfg.deepDelete p (m.routeLog1.idx d)) := by
  constructor
  · intro h
    exact ⟨update_visits_iff.mp h.update, delete_visits_iff.mp h.delete⟩
  · rintro ⟨hlisted, hrows⟩
    refine ⟨free_visits p m, update_visits_iff.mpr hlisted, delete_visits_iff.mpr hrows, ?_, ?_⟩
    · obtain ⟨h, hrun, -⟩ := deleteAll_ok p m
      exact ⟨h, hrun⟩
    · intro d a
      obtain ⟨h, hrun, -⟩ := deleteRRoute_ok d a ⟨⟨p, m⟩, []⟩
      exact ⟨h, hrun⟩

/-- Two rounds with one destination and a third without it: `pfr_route_update` of the third
advances from the element it erased. -/
theorem erased_advanced : ∃ s : State ℚ, Lts.Path step AnyStep (State.boot [(1, ⟨"192.0.2.1", "1:1"⟩)]) s ∧
    s.pc = .phase .update ∧ s.pfrList = [] ∧ s.mem.r.keys = ["198.51.100.7"] ∧
    pfrRouteUpdateIt s.probeId s.pfrList s.mem = .error .stale ∧ ¬CleanWalks s.cfg s.probeId s.pfrList s.mem := by
  obtain ⟨s, hs, hpc, hlist, hkeys, hprev⟩ := exists_run (G := AnyStep) (State.boot (F := ℚ) [(1, ⟨"192.0.2.1", "1:1"⟩)])
    (roundEvents ["198.51.100.7"] [⟨"198.51.100.7", 0, 1, 1, 20, 0⟩] ++
      roundEvents ["198.51.100.7"] [⟨"198.51.100.7", 1, 1, 1, 20, 1⟩] ++ (roundEvents [] []).take 5)
    (fun s => s.pc = .phase .update ∧ s.pfrList = [] ∧ s.mem.r.keys = ["198.51.100.7"] ∧
      (prevHop (s.mem.route.idx "198.51.100.7") s.probeId).isSome)
    (by decide +kernel)
  have hstop : pfrRouteUpdateIt s.probeId s.pfrList s.mem = .error .stale := by
    rw [hlist, update_stops (hkeys.trans (List.nil_append _).symm) (by simp) List.not_mem_nil, if_pos hprev]
  refine ⟨s, hs, hpc, hlist, hkeys, hstop, ?_⟩
  rintro ⟨-, ⟨h, hrun⟩, -, -, -⟩
  rw [hstop] at hrun
  cases hrun

/-- In the states of a run no row of the log is NULL: the walk of `pfr_route_update` alone
may use an erased position. -/
theorem cleanWalks_run [Dbl F] {G : State F → Event F → Prop} {cfg : Config} {v : F} {mm : PeerMap} {s : State F}
    (h : Lts.Path step G (State.init cfg v mm) s) (p : Int) (dstList : List String) :
    CleanWalks s.cfg p dstList s.mem ↔ ∀ d ∈ s.mem.r, d ∈ dstList := by
  rw [cleanWalks_iff]
  refine and_iff_left ?_
  rintro - d - ⟨i, -, hnull, -⟩
  have hsome := (recInv_path h).logSome d (p - i) none hnull
  cases hsome

end Pfr

import Pfr.Rtr

/- The phases that remove: `pfr_route_free` (the probe before the last two),
   `pfr_route_update` (destinations that left the list), `pfr_delete` (destinations
   nobody answers for) and `pfr_delete_all` (shutdown).

   1. `free_r`, `free_route`: what `pfr_route_free` leaves;
   2. `routeUpdate_walk`: the invariant rule of `pfr_route_update`. The function
      overwrites its parameter `probe_id` while it frees a destination, so the next
      one is looked up elsewhere; `updIdx` is the value it is looked up with. Its outer
      loop advances from the element it erased; here it goes on with the next key, and
      `Pfr.Walks` has the iterators;
   3. `deleteWalk_walk`: the invariant rule shared by `pfr_delete` and
      `pfr_delete_all`;
   4. `UpdateSpec`, `DeleteSpec`: what the two walks leave for each destination. -/
namespace Pfr

open Std

variable {F : Type}

/-! ## `pfr_route_free` -/

/-- Reading `r[dst_ip][probe_id]` and `route[dst_ip]` creates the entries it does not
find; the probe's key of `r` itself is never erased. -/
def pfrRouteFree (probeId : Nat) (m : Mem F) : Mem F :=
  if probeId < 2 then m
  else { m with
    r := m.r.map fun _ probes => probes.insert (probeId - 2 : Int) ∅
    route := m.r.keys.foldl (fun route d => route.upd d (·.erase (probeId - 2 : Int))) m.route }

theorem foldl_upd_getElem? {β : Type} [Inhabited β] (f : β → β) : ∀ (l : List String) (t : ExtTreeMap String β),
    l.Nodup → ∀ d, (l.foldl (fun t d => t.upd d f) t)[d]? = if d ∈ l then some (f (t.idx d)) else t[d]?
  | [], _, _, _ => by simp
  | k :: l, t, hnd, d => by
    rw [List.nodup_cons] at hnd
    rw [List.foldl_cons, foldl_upd_getElem? f l _ hnd.2, ExtTreeMap.idx_upd, ExtTreeMap.getElem?_upd]
    by_cases hk : k = d
    · subst hk
      simp [hnd.1]
    · simp [hk, Ne.symm hk]

section Free
variable {p : Nat} (m : Mem F)

theorem free_small (h : p < 2) : pfrRouteFree p m = m := if_pos h

theorem free_r (h : 2 ≤ p) (d : String) :
    (pfrRouteFree p m).r[d]? = m.r[d]?.map (fun probes => probes.insert (p - 2 : Int) ∅) := by
  rw [pfrRouteFree, if_neg (by omega), ExtTreeMap.getElem?_map]

theorem free_route (h : 2 ≤ p) (d : String) : (pfrRouteFree p m).route[d]? =
    if d ∈ m.r then some ((m.route.idx d).erase (p - 2 : Int)) else m.route[d]? := by
  rw [pfrRouteFree, if_neg (by omega)]
  simp only
  rw [foldl_upd_getElem? _ _ _ ExtTreeMap.nodup_keys]
  simp only [ExtTreeMap.mem_keys]

theorem free_frame : pfrRouteFree p m = { m with r := (pfrRouteFree p m).r, route := (pfrRouteFree p m).route } := by
  unfold pfrRouteFree
  split <;> rfl

@[simp] theorem free_mm : (pfrRouteFree p m).mm = m.mm := by rw [free_frame]
@[simp] theorem free_calls : (pfrRouteFree p m).calls = m.calls := by rw [free_frame]
@[simp] theorem free_cmds : (pfrRouteFree p m).cmds = m.cmds := by rw [free_frame]
@[simp] theorem free_minRtt : (pfrRouteFree p m).minRtt = m.minRtt := by rw [free_frame]
@[simp] theorem free_routeLog1 : (pfrRouteFree p m).routeLog1 = m.routeLog1 := by rw [free_frame]

theorem free_mem_r {d : String} : d ∈ (pfrRouteFree p m).r ↔ d ∈ m.r := by
  by_cases h : p < 2
  · rw [free_small m h]
  · rw [ExtTreeMap.mem_iff_isSome_getElem?, free_r m (by omega), Option.isSome_map,
      ← ExtTreeMap.mem_iff_isSome_getElem?]

/-- The decisions of every other probe are the ones that were there. -/
theorem free_hopAt (d : String) {q : Int} (hq : q ≠ (p : Int) - 2) :
    hopAt (pfrRouteFree p m).route d q = hopAt m.route d q := by
  by_cases h : p < 2
  · rw [free_small m h]
  · by_cases hd : d ∈ m.r
    · have hidx : (pfrRouteFree p m).route.idx d = (m.route.idx d).erase (p - 2 : Int) :=
        ExtTreeMap.idx_of_getElem? (by rw [free_route m (by omega), if_pos hd])
      rw [hopAt, hidx, ExtTreeMap.idx_erase, if_neg (Ne.symm hq), hopAt]
    · exact hopAt_congr (by rw [free_route m (by omega), if_neg hd]) q

/-- The probe that is freed has no decision left. -/
theorem free_hopAt_self (h : 2 ≤ p) {d : String} (hd : d ∈ m.r) :
    hopAt (pfrRouteFree p m).route d (p - 2 : Int) = none := by
  have hidx : (pfrRouteFree p m).route.idx d = (m.route.idx d).erase (p - 2 : Int) :=
    ExtTreeMap.idx_of_getElem? (by rw [free_route m h, if_pos hd])
  rw [hopAt, hidx, ExtTreeMap.idx_erase, if_pos rfl]
  rfl

end Free

/-! ## `pfr_route_update` -/

/-- The parameter `probe_id`, which the loops assign, and the memory. -/
structure UpdSt (F : Type) where
  probeId : Int
  mem : Mem F

/-- `probe_id` after the loop over `r[dst_ip]`: the last key met, if any. -/
def lastProbe (probes : Probes F) (probeId : Int) : Int := probes.keys.getLast?.getD probeId

/-- Withdraw the destination, if a current peer above 0 was found for it, and erase it. -/
def dropDst (prev : Option (RtParm F)) (dstIp : String) (m : Mem F) : Mem F :=
  let m := match prev with
    | some rp => if rp.currPeerId > 0 then pfrDeleteSetJrouterRt rp.currPeerId dstIp m else m
    | none => m
  { m with r := m.r.erase dstIp, route := m.route.erase dstIp }

def updateStep (dstList : List String) (s : UpdSt F) (dstIp : String) : Option (UpdSt F) :=
  if dstIp ∈ dstList then some s
  else (prevHop (s.mem.route.idx dstIp) s.probeId).map fun prev =>
    -- the loop that frees `r[dst_ip]` assigns `probe_id`, and the next destination is looked up with it
    ⟨lastProbe (s.mem.r.idx dstIp) s.probeId, dropDst prev dstIp s.mem⟩

def pfrRouteUpdate (probeId : Int) (dstList : List String) (m : Mem F) : Option (Mem F) :=
  (m.r.keys.foldlM (updateStep dstList) ⟨probeId, m⟩).map (·.mem)

/-- `probe_id` after the destinations of `done`. -/
def idxAfter (r : RData F) (dstList : List String) (probeId : Int) (done : List String) : Int :=
  done.foldl (fun q d => if d ∈ dstList then q else lastProbe (r.idx d) q) probeId

/-- `probe_id` when the walk reaches a destination. -/
def updIdx (r : RData F) (dstList : List String) (probeId : Int) (dstIp : String) : Int :=
  idxAfter r dstList probeId (r.keys.takeWhile (· ≠ dstIp))

/-- What `pfr_route_update` finds of a destination's decision. -/
def updHop (m : Mem F) (dstList : List String) (probeId : Int) (dstIp : String) : Option (RtParm F) :=
  hopAt m.route dstIp (updIdx m.r dstList probeId dstIp - 1)

theorem takeWhile_split {l done rest : List String} {k : String} (hl : l = done ++ k :: rest) (hk : k ∉ done) :
    l.takeWhile (· ≠ k) = done := by
  subst hl
  rw [List.takeWhile_append_of_pos (by
    intro a ha
    have hne : a ≠ k := fun h => hk (h ▸ ha)
    simpa using hne)]
  simp

section Drop
variable (prev : Option (RtParm F)) (d : String) (m : Mem F)

/-- Everything `dropDst` can do: nothing is sent unless a current peer above 0 was found. -/
theorem dropDst_cases :
    (dropDst prev d m = { m with r := m.r.erase d, route := m.route.erase d } ∧
      ∀ rp, prev = some rp → ¬0 < rp.currPeerId) ∨
    ∃ rp, prev = some rp ∧ 0 < rp.currPeerId ∧ dropDst prev d m =
      { pfrDeleteSetJrouterRt rp.currPeerId d m with r := m.r.erase d, route := m.route.erase d } := by
  unfold dropDst
  cases prev with
  | none => exact Or.inl ⟨rfl, by simp⟩
  | some rp =>
    simp only
    split
    · next h => exact Or.inr ⟨rp, rfl, h, rfl⟩
    · next h => exact Or.inl ⟨rfl, by rintro _ ⟨⟩; exact h⟩

theorem drop_maps : (dropDst prev d m).r = m.r.erase d ∧ (dropDst prev d m).route = m.route.erase d ∧
    (dropDst prev d m).routeLog1 = m.routeLog1 ∧ (dropDst prev d m).minRtt = m.minRtt := by
  rcases dropDst_cases prev d m with ⟨h, -⟩ | ⟨rp, -, -, h⟩
  · rw [h]
    exact ⟨rfl, rfl, rfl, rfl⟩
  · rw [h]
    exact ⟨rfl, rfl, rfl, rfl⟩

theorem drop_r (e : String) : (dropDst prev d m).r[e]? = if d = e then none else m.r[e]? := by
  rw [(drop_maps prev d m).1, ExtTreeMap.getElem?_erase]
  simp only [LawfulEqCmp.compare_eq_iff_eq]

theorem drop_route (e : String) : (dropDst prev d m).route[e]? = if d = e then none else m.route[e]? := by
  rw [(drop_maps prev d m).2.1, ExtTreeMap.getElem?_erase]
  simp only [LawfulEqCmp.compare_eq_iff_eq]

@[simp] theorem drop_routeLog1 : (dropDst prev d m).routeLog1 = m.routeLog1 := (drop_maps prev d m).2.2.1

@[simp] theorem drop_minRtt : (dropDst prev d m).minRtt = m.minRtt := (drop_maps prev d m).2.2.2

theorem viaOf_drop (b : Int) : viaOf (dropDst prev d m).mm b = viaOf m.mm b := by
  rcases dropDst_cases prev d m with ⟨h, -⟩ | ⟨rp, -, -, h⟩
  · rw [h]
  · rw [h]
    exact viaOf_delete m _ d b

/-- Either nothing is sent, or the one withdrawal of the peer that was found. -/
theorem drop_sent : ((dropDst prev d m).calls = m.calls ∧ (dropDst prev d m).cmds = m.cmds ∧
      (dropDst prev d m).mm = m.mm ∧ ∀ rp, prev = some rp → ¬0 < rp.currPeerId) ∨
    ∃ rp, prev = some rp ∧ 0 < rp.currPeerId ∧
      (dropDst prev d m).calls = (pfrDeleteSetJrouterRt rp.currPeerId d m).calls ∧
      (dropDst prev d m).cmds = (pfrDeleteSetJrouterRt rp.currPeerId d m).cmds ∧
      (dropDst prev d m).mm = (pfrDeleteSetJrouterRt rp.currPeerId d m).mm := by
  rcases dropDst_cases prev d m with ⟨h, hno⟩ | ⟨rp, hrp, hpos, h⟩
  · rw [h]
    exact Or.inl ⟨rfl, rfl, rfl, hno⟩
  · rw [h]
    exact Or.inr ⟨rp, hrp, hpos, rfl, rfl, rfl⟩

end Drop

/-- **Invariant rule of `pfr_route_update`**: a destination still listed is passed
over; one that left is dropped, with what `route` had before the call at `updIdx`. -/
theorem routeUpdate_walk {p : Int} {dstList : List String} {m m' : Mem F} {I : List String → Mem F → Prop}
    (h0 : I [] m) (hkeep : ∀ done d t, d ∈ m.r → d ∉ done → d ∈ dstList → I done t → I (done ++ [d]) t)
    (hdrop : ∀ done d t, d ∈ m.r → d ∉ done → d ∉ dstList → I done t →
      I (done ++ [d]) (dropDst (updHop m dstList p d) d t))
    (h : pfrRouteUpdate p dstList m = some m') : I m.r.keys m' := by
  obtain ⟨s, hs, rfl⟩ := Option.map_eq_some_iff.mp h
  refine (List.foldlM_walk (I := fun done s => I done s.mem ∧ s.probeId = idxAfter m.r dstList p done ∧
      ∀ e, e ∉ done → s.mem.r[e]? = m.r[e]? ∧ s.mem.route[e]? = m.route[e]?)
    ExtTreeMap.nodup_keys ⟨h0, rfl, fun _ _ => ⟨rfl, rfl⟩⟩ ?_ hs).1
  rintro done d rest t t' hl hd ⟨hI, hidx, hoff⟩ ht
  -- the walk has not come to `d` before, so `d` has the entries of the start
  have hmem : d ∈ m.r := by rw [← ExtTreeMap.mem_keys, hl]; simp
  have hnext : idxAfter m.r dstList p (done ++ [d]) =
      if d ∈ dstList then t.probeId else lastProbe (m.r.idx d) t.probeId := by
    rw [idxAfter, List.foldl_append, hidx]; rfl
  unfold updateStep at ht
  split at ht
  · next hin =>
    cases ht
    refine ⟨hkeep done d _ hmem hd hin hI, by rw [hnext, if_pos hin], ?_⟩
    intro e he
    exact hoff e (fun h => he (List.mem_append_left _ h))
  · next hin =>
    obtain ⟨prev, hprev, rfl⟩ := Option.map_eq_some_iff.mp ht
    have hhop : prev = updHop m dstList p d := by
      rw [prevHop_eq hprev, ExtTreeMap.idx_congr (hoff d hd).2, hidx, updHop, updIdx, takeWhile_split hl hd]
      rfl
    subst hhop
    refine ⟨hdrop done d _ hmem hd hin hI, ?_, ?_⟩
    · rw [hnext, if_neg hin, ExtTreeMap.idx_congr (hoff d hd).1]
    · intro e he
      rw [List.mem_append, List.mem_singleton, not_or] at he
      have hne : d ≠ e := fun h => he.2 h.symm
      rw [drop_r, drop_route, if_neg hne, if_neg hne]
      exact hoff e he.1

theorem routeUpdate_isSome (p : Int) (dstList : List String) {m : Mem F}
    (h : ∀ (d : String) (q : Int) (v : Option (RtParm F)), (m.route.idx d)[q]? = some v → v.isSome) :
    ∃ m', pfrRouteUpdate p dstList m = some m' := by
  have hloop : ∃ s, m.r.keys.foldlM (updateStep dstList) ⟨p, m⟩ = some s := by
    refine List.foldlM_walk_isSome
      (I := fun _ s => ∀ (d : String) (q : Int) (v : Option (RtParm F)), (s.mem.route.idx d)[q]? = some v → v.isSome)
      ExtTreeMap.nodup_keys h ?_
    intro done d rest s _ _ hs
    unfold updateStep
    split
    · exact ⟨s, rfl, hs⟩
    · obtain ⟨prev, hprev⟩ := prevHop_isSome (fun v hv => hs d (s.probeId - 1) v hv)
      refine ⟨_, by rw [hprev]; rfl, ?_⟩
      intro e q v hv
      by_cases he : d = e
      · rw [ExtTreeMap.idx_eq, drop_route, if_pos he] at hv
        change (∅ : Hops F)[q]? = some v at hv
        simp at hv
      · rw [ExtTreeMap.idx_congr (by rw [drop_route, if_neg he] : _ = s.mem.route[e]?)] at hv
        exact hs e q v hv
  obtain ⟨s, hs⟩ := hloop
  exact ⟨s.mem, by rw [pfrRouteUpdate, hs]; rfl⟩

/-- A destination that `pfr_route_update` drops. -/
def Dropped (dstList : List String) (m : Mem F) (d : String) : Prop := d ∈ m.r ∧ d ∉ dstList

instance (dstList : List String) (m : Mem F) (d : String) : Decidable (Dropped dstList m d) :=
  inferInstanceAs (Decidable (_ ∧ _))

/-- What `pfr_route_update` leaves for each destination. -/
structure UpdateSpec (p : Int) (dstList : List String) (m m' : Mem F) : Prop where
  r : ∀ d, m'.r[d]? = if Dropped dstList m d then none else m.r[d]?
  route : ∀ d, m'.route[d]? = if Dropped dstList m d then none else m.route[d]?
  routeLog1 : m'.routeLog1 = m.routeLog1
  minRtt : m'.minRtt = m.minRtt
  via : ∀ b, viaOf m'.mm b = viaOf m.mm b
  rib : ∀ d, rib m' d =
    if Dropped dstList m d ∧ ∃ rp, updHop m dstList p d = some rp ∧ 0 < rp.currPeerId then none else rib m d

theorem update_spec {p : Int} {dstList : List String} {m m' : Mem F}
    (h : pfrRouteUpdate p dstList m = some m') : UpdateSpec p dstList m m' := by
  have hw := routeUpdate_walk (I := fun done t =>
      (∀ e, t.r[e]? = if e ∈ done ∧ e ∉ dstList then none else m.r[e]?) ∧
      (∀ e, t.route[e]? = if e ∈ done ∧ e ∉ dstList then none else m.route[e]?) ∧
      t.routeLog1 = m.routeLog1 ∧ t.minRtt = m.minRtt ∧ (∀ b, viaOf t.mm b = viaOf m.mm b) ∧
      ∀ e, rib t e = if (e ∈ done ∧ e ∉ dstList) ∧ ∃ rp, updHop m dstList p e = some rp ∧ 0 < rp.currPeerId
        then none else rib m e)
    (by simp) ?_ ?_ h
  · obtain ⟨h1, h2, h3, h4, h5, h6⟩ := hw
    have hiff : ∀ d, (d ∈ m.r.keys ∧ d ∉ dstList) ↔ Dropped dstList m d := by
      intro d
      rw [ExtTreeMap.mem_keys]
      exact Iff.rfl
    simp only [hiff] at h1 h2 h6
    exact ⟨h1, h2, h3, h4, h5, h6⟩
  · rintro done d t - - hin ⟨h1, h2, h3, h4, h5, h6⟩
    have hstay : ¬d ∉ dstList := not_not_intro hin
    simp only [List.visited_skip (· ∉ dstList) hstay]
    exact ⟨h1, h2, h3, h4, h5, h6⟩
  · rintro done d t - hd hin ⟨h1, h2, h3, h4, h5, h6⟩
    simp only [List.visited_step (· ∉ dstList) hin]
    refine ⟨?_, ?_, by rw [drop_routeLog1, h3], by rw [drop_minRtt, h4], ?_, ?_⟩
    · intro e
      rw [drop_r, h1]
      by_cases he : d = e <;> simp [he]
    · intro e
      rw [drop_route, h2]
      by_cases he : d = e <;> simp [he]
    · intro b
      rw [viaOf_drop, h5]
    · intro e
      rcases drop_sent (updHop m dstList p d) d t with ⟨-, hc, -, hnone⟩ | ⟨rp, hrp, hpos, -, hc, -⟩
      · have hrib : rib (dropDst (updHop m dstList p d) d t) e = rib t e := by rw [rib, rib, hc]
        rw [hrib, h6]
        by_cases he : d = e
        · subst he
          have hno : ¬∃ rp, updHop m dstList p d = some rp ∧ 0 < rp.currPeerId := by
            rintro ⟨rp, hrp, hpos⟩
            exact hnone rp hrp hpos
          simp [hno]
        · simp [he]
      · have hrib : rib (dropDst (updHop m dstList p d) d t) e = if d = e then none else rib t e := by
          rw [rib, hc]; exact rib_delete t _ d e
        rw [hrib, h6]
        by_cases he : d = e
        · subst he
          simp [hrp, hpos]
        · simp [he]

/-- The withdrawal `pfr_route_update` makes for a destination it visits. -/
def updCall (m : Mem F) (dstList : List String) (probeId : Int) (dstIp : String) : Option Call :=
  if dstIp ∈ dstList then none
  else (updHop m dstList probeId dstIp).bind fun rp =>
    if rp.currPeerId > 0 then some (.delete rp.currPeerId dstIp) else none

/-- The calls of `pfr_route_update` are these withdrawals, in key order. -/
theorem update_calls {p : Int} {dstList : List String} {m m' : Mem F} (h : pfrRouteUpdate p dstList m = some m') :
    m'.calls = (m.r.keys.filterMap (updCall m dstList p)).reverse ++ m.calls := by
  refine routeUpdate_walk (I := fun done t => t.calls = (done.filterMap (updCall m dstList p)).reverse ++ m.calls)
    (by simp) ?_ ?_ h
  · intro done d t _ _ hin ht
    have hnone : updCall m dstList p d = none := by simp [updCall, hin]
    simp [hnone, ht]
  · intro done d t _ _ hin ht
    rcases drop_sent (updHop m dstList p d) d t with ⟨hc, -, -, hno⟩ | ⟨rp, hrp, hpos, hc, -, -⟩
    · have hnone : updCall m dstList p d = none := by
        rw [updCall, if_neg hin]
        cases hrp : updHop m dstList p d with
        | none => rfl
        | some rp => simpa using hno rp hrp
      simp [hnone, hc, ht]
    · have hsome : updCall m dstList p d = some (.delete rp.currPeerId d) := by
        simp [updCall, hin, hrp, hpos]
      simp [hsome, hc, pfrDeleteSetJrouterRt, ht]

/-! ## `pfr_delete` and `pfr_delete_all` -/

def pfrDeleteRRoute (dstIp : String) (peerId : Int) (m : Mem F) : Mem F :=
  let m := pfrDeleteSetJrouterRt peerId dstIp m
  { m with r := m.r.erase dstIp, route := m.route.erase dstIp }

/-- `if(route.count(dst_ip) == 1 && route[dst_ip].count(probe_id) == 1 &&
route[dst_ip][probe_id] != NULL)`. -/
def deleteRouted (probeId : Int) (dstIp : String) (m : Mem F) : Mem F :=
  match hopAt m.route dstIp probeId with
  | some rp => pfrDeleteRRoute dstIp rp.currPeerId m
  | none => m

/-- The loop over `route_log1`, which it leaves alone: the destinations `flag` holds
of are deleted if they have a decision. -/
def deleteWalk (flag : String → Option Bool) (probeId : Int) (m : Mem F) : Option (Mem F) :=
  m.routeLog1.keys.foldlM
    (fun t d => (flag d).map fun deleteFlag => if deleteFlag then deleteRouted probeId d t else t) m

/-- The loop over the last probes: does any logged one have a peer? -/
def deleteFlag (log : ExtTreeMap Int (Option (Tlog F))) (probeId : Int) : List Nat → Option Bool
  | [] => some true
  | i :: is =>
    if probeId - i ∈ log then do
      let row ← log.idx (probeId - i)
      if row.peerId = 0 then deleteFlag log probeId is else some false
    -- a round with no entry in the log counts as silent
    else deleteFlag log probeId is

def pfrDelete (cfg : Config) (probeId : Int) (m : Mem F) : Option (Mem F) :=
  if probeId ≤ cfg.deepDelete then some m
  -- `i <= deep_delete`: the round itself and `deep_delete` before it
  else deleteWalk (fun d => deleteFlag (m.routeLog1.idx d) probeId (List.range (cfg.deepDelete + 1).toNat))
    probeId m

def pfrDeleteAll (probeId : Int) (m : Mem F) : Option (Mem F) := deleteWalk (fun _ => some true) probeId m

/-- What decides a destination in `pfr_delete`. -/
def deleteSel (cfg : Config) (probeId : Int) (log : LogMap F) (dstIp : String) : Option Bool :=
  if probeId ≤ cfg.deepDelete then some false
  else deleteFlag (log.idx dstIp) probeId (List.range (cfg.deepDelete + 1).toNat)

section DeleteOne
variable (a : Int) (d : String) (m : Mem F)

theorem deleteRRoute_r (e : String) : (pfrDeleteRRoute d a m).r[e]? = if d = e then none else m.r[e]? := by
  simp [pfrDeleteRRoute, ExtTreeMap.getElem?_erase]

theorem deleteRRoute_route (e : String) :
    (pfrDeleteRRoute d a m).route[e]? = if d = e then none else m.route[e]? := by
  simp [pfrDeleteRRoute, ExtTreeMap.getElem?_erase]

theorem rib_deleteRRoute (e : String) : rib (pfrDeleteRRoute d a m) e = if d = e then none else rib m e :=
  rib_delete m a d e

theorem viaOf_deleteRRoute (b : Int) : viaOf (pfrDeleteRRoute d a m).mm b = viaOf m.mm b := viaOf_delete m a d b

end DeleteOne

/-- **Invariant rule of the walk**: a destination is deleted, with the decision
`route` had for it before the call, or passed over. -/
theorem deleteWalk_walk {flag : String → Option Bool} {p : Int} {m m' : Mem F} {I : List String → Mem F → Prop}
    (h0 : I [] m)
    (hkeep : ∀ done d t, d ∈ m.routeLog1 → d ∉ done → (flag d = some false ∨ hopAt m.route d p = none) →
      I done t → I (done ++ [d]) t)
    (hdel : ∀ done d t rp, d ∈ m.routeLog1 → d ∉ done → flag d = some true → hopAt m.route d p = some rp →
      I done t → I (done ++ [d]) (pfrDeleteRRoute d rp.currPeerId t))
    (h : deleteWalk flag p m = some m') : I m.routeLog1.keys m' := by
  refine (List.foldlM_walk (I := fun done t => I done t ∧ ∀ e, e ∉ done → t.route[e]? = m.route[e]?)
    ExtTreeMap.nodup_keys ⟨h0, fun _ _ => rfl⟩ ?_ h).1
  rintro done d rest t t' hl hd ⟨hI, hoff⟩ ht
  have hmem : d ∈ m.routeLog1 := by rw [← ExtTreeMap.mem_keys, hl]; simp
  obtain ⟨b, hb, rfl⟩ := Option.map_eq_some_iff.mp ht
  have hsub : ∀ e, e ∉ done ++ [d] → e ∉ done := fun e he h => he (List.mem_append_left _ h)
  cases b with
  | false => exact ⟨hkeep done d t hmem hd (Or.inl hb) hI, fun e he => hoff e (hsub e he)⟩
  | true =>
    simp only [if_true, deleteRouted]
    rw [hopAt_congr (hoff d hd)]
    cases hrp : hopAt m.route d p with
    | none => exact ⟨hkeep done d t hmem hd (Or.inr hrp) hI, fun e he => hoff e (hsub e he)⟩
    | some rp =>
      refine ⟨hdel done d t rp hmem hd hb hrp hI, ?_⟩
      intro e he
      rw [List.mem_append, List.mem_singleton, not_or] at he
      rw [deleteRRoute_route, if_neg (fun h => he.2 h.symm)]
      exact hoff e he.1

theorem deleteWalk_isSome {flag : String → Option Bool} (p : Int) {m : Mem F}
    (h : ∀ d, d ∈ m.routeLog1 → (flag d).isSome) : ∃ m', deleteWalk flag p m = some m' := by
  refine List.foldlM_isSome _ m ?_
  intro t d hd
  rw [Option.isSome_map]
  exact h d (ExtTreeMap.mem_keys.mp hd)

/-- A destination the walk deletes. -/
def Deleted (flag : String → Option Bool) (p : Int) (m : Mem F) (d : String) : Prop :=
  d ∈ m.routeLog1 ∧ flag d = some true ∧ (hopAt m.route d p).isSome

instance (flag : String → Option Bool) (p : Int) (m : Mem F) (d : String) : Decidable (Deleted flag p m d) :=
  inferInstanceAs (Decidable (_ ∧ _))

/-- What the walk leaves for each destination. -/
structure DeleteSpec (flag : String → Option Bool) (p : Int) (m m' : Mem F) : Prop where
  r : ∀ d, m'.r[d]? = if Deleted flag p m d then none else m.r[d]?
  route : ∀ d, m'.route[d]? = if Deleted flag p m d then none else m.route[d]?
  routeLog1 : m'.routeLog1 = m.routeLog1
  minRtt : m'.minRtt = m.minRtt
  via : ∀ b, viaOf m'.mm b = viaOf m.mm b
  rib : ∀ d, rib m' d = if Deleted flag p m d then none else rib m d

theorem deleteWalk_spec {flag : String → Option Bool} {p : Int} {m m' : Mem F}
    (h : deleteWalk flag p m = some m') : DeleteSpec flag p m m' := by
  have hw := deleteWalk_walk (I := fun done t =>
      (∀ e, t.r[e]? = if e ∈ done ∧ Deleted flag p m e then none else m.r[e]?) ∧
      (∀ e, t.route[e]? = if e ∈ done ∧ Deleted flag p m e then none else m.route[e]?) ∧
      t.routeLog1 = m.routeLog1 ∧ t.minRtt = m.minRtt ∧ (∀ b, viaOf t.mm b = viaOf m.mm b) ∧
      ∀ e, rib t e = if e ∈ done ∧ Deleted flag p m e then none else rib m e)
    (by simp) ?_ ?_ h
  · obtain ⟨h1, h2, h3, h4, h5, h6⟩ := hw
    have hiff : ∀ d, (d ∈ m.routeLog1.keys ∧ Deleted flag p m d) ↔ Deleted flag p m d := by
      intro d
      rw [ExtTreeMap.mem_keys]
      exact ⟨And.right, fun hd => ⟨hd.1, hd⟩⟩
    simp only [hiff] at h1 h2 h6
    exact ⟨h1, h2, h3, h4, h5, h6⟩
  · rintro done d t - - hno ⟨h1, h2, h3, h4, h5, h6⟩
    have hdel : ¬Deleted flag p m d := by
      rintro ⟨-, hflag, hhop⟩
      rcases hno with hno | hno
      · rw [hflag] at hno
        cases hno
      · rw [hno] at hhop
        cases hhop
    simp only [List.visited_skip _ hdel]
    exact ⟨h1, h2, h3, h4, h5, h6⟩
  · rintro done d t rp hmem - hflag hrp ⟨h1, h2, h3, h4, h5, h6⟩
    have hdel : Deleted flag p m d := ⟨hmem, hflag, by rw [hrp]; rfl⟩
    simp only [List.visited_step _ hdel]
    refine ⟨?_, ?_, h3, h4, ?_, ?_⟩
    · intro e
      rw [deleteRRoute_r, h1]
      by_cases he : d = e <;> simp [he]
    · intro e
      rw [deleteRRoute_route, h2]
      by_cases he : d = e <;> simp [he]
    · intro b
      rw [viaOf_deleteRRoute, h5]
    · intro e
      rw [rib_deleteRRoute, h6]
      by_cases he : d = e <;> simp [he]

/-- The withdrawal the walk makes for a destination of the log. -/
def deleteCall (flag : String → Option Bool) (p : Int) (m : Mem F) (dstIp : String) : Option Call :=
  if flag dstIp = some true then (hopAt m.route dstIp p).map fun rp => .delete rp.currPeerId dstIp else none

theorem deleteWalk_calls {flag : String → Option Bool} {p : Int} {m m' : Mem F} (h : deleteWalk flag p m = some m') :
    m'.calls = (m.routeLog1.keys.filterMap (deleteCall flag p m)).reverse ++ m.calls := by
  refine deleteWalk_walk (I := fun done t => t.calls = (done.filterMap (deleteCall flag p m)).reverse ++ m.calls)
    (by simp) ?_ ?_ h
  · intro done d t _ _ hno ht
    have hnone : deleteCall flag p m d = none := by
      rcases hno with hno | hno <;> simp [deleteCall, hno]
    simp [hnone, ht]
  · intro done d t rp _ _ hflag hrp ht
    have hsome : deleteCall flag p m d = some (.delete rp.currPeerId d) := by simp [deleteCall, hflag, hrp]
    simp [hsome, pfrDeleteRRoute, pfrDeleteSetJrouterRt, ht]

theorem delete_spec {cfg : Config} {p : Int} {m m' : Mem F} (h : pfrDelete cfg p m = some m') :
    DeleteSpec (deleteSel cfg p m.routeLog1) p m m' := by
  unfold pfrDelete at h
  split at h
  · next hp =>
    cases h
    have hno : ∀ d, ¬Deleted (deleteSel cfg p m.routeLog1) p m d := by
      rintro d ⟨-, hflag, -⟩
      rw [deleteSel, if_pos hp] at hflag
      cases hflag
    exact ⟨fun d => by rw [if_neg (hno d)], fun d => by rw [if_neg (hno d)], rfl, rfl, fun _ => rfl,
      fun d => by rw [if_neg (hno d)]⟩
  · next hp =>
    have hsel : deleteSel cfg p m.routeLog1 =
        fun d => deleteFlag (m.routeLog1.idx d) p (List.range (cfg.deepDelete + 1).toNat) := by
      funext d
      rw [deleteSel, if_neg hp]
    rw [hsel]
    exact deleteWalk_spec h

theorem deleteFlag_isSome {log : ExtTreeMap Int (Option (Tlog F))} {p : Int}
    (h : ∀ (q : Int) (v : Option (Tlog F)), log[q]? = some v → v.isSome) : ∀ is, (deleteFlag log p is).isSome
  | [] => rfl
  | i :: is => by
    unfold deleteFlag
    split
    · next hm =>
      obtain ⟨row, hrow⟩ := Option.isSome_iff_exists.mp (h _ _ (ExtTreeMap.getElem?_idx hm))
      rw [hrow]
      simp only [Option.bind_eq_bind, Option.bind_some]
      split
      · exact deleteFlag_isSome h is
      · rfl
    · exact deleteFlag_isSome h is

theorem delete_isSome (cfg : Config) (p : Int) {m : Mem F}
    (h : ∀ (d : String) (q : Int) (v : Option (Tlog F)), (m.routeLog1.idx d)[q]? = some v → v.isSome) :
    ∃ m', pfrDelete cfg p m = some m' := by
  unfold pfrDelete
  split
  · exact ⟨m, rfl⟩
  · exact deleteWalk_isSome p (fun d _ => deleteFlag_isSome (h d) _)

theorem deleteAll_isSome (p : Int) (m : Mem F) : ∃ m', pfrDeleteAll p m = some m' :=
  deleteWalk_isSome p (fun _ _ => rfl)

end Pfr

import Pfr.Scan

/- The router side: `pfr_create_set_jrouter_rt` and `pfr_delete_set_jrouter_rt`,
   which announce and withdraw through gobgp, and `pfr_routes_man`, which announces
   every destination of `route`.

   Each lookup `mm[id]` inserts a default peer when `id` is absent. `cmds` has each
   command as it is passed to the gobgp client, and `rib` is the table once all have been
   carried out; the gRPC client, which throws on a community it cannot read, is
   `grpcCall`, and `clientStep` ends a run there. What the later modules use of this one:
   1. `viaOf_create`, `viaOf_delete`: the next hop and the community an id stands
      for never change, whatever is inserted;
   2. `create_cmds`, `rib_create`, `rib_delete`: what a call sends, and what that does to
      the gobgp table;
   3. `routesMan_walk`: the invariant rule of `pfr_routes_man`. -/
namespace Pfr

open Std Journal

variable {F : Type}

/-- The route an announcement or a withdrawal through `id` carries. -/
def viaOf (mm : PeerMap) (id : Int) : Via := ⟨id, (mm.idx id).ipv4PeerAddress, (mm.idx id).peerCommunity⟩

def pfrDeleteSetJrouterRt (currPeerId : Int) (dstIp : String) (m : Mem F) : Mem F :=
  { m with
    calls := .delete currPeerId dstIp :: m.calls
    mm := m.mm.upd currPeerId id
    cmds := .unset dstIp (viaOf m.mm currPeerId) :: m.cmds }

/-- The lookups of the previous peer, and its withdrawal when it is explicit. -/
def withdrawPrev (cfg : Config) (prevPeerId : Int) (dstIp : String) (m : Mem F) : Mem F :=
  { m with
    mm := m.mm.upd prevPeerId id
    cmds := if cfg.enableExplicitWithdraw then .unset dstIp (viaOf m.mm prevPeerId) :: m.cmds else m.cmds }

def pfrCreateSetJrouterRt (cfg : Config) (probeId : Nat) (prevPeerId currPeerId : Int) (dstIp : String)
    (m : Mem F) : Mem F :=
  let m := { m with calls := .create probeId prevPeerId currPeerId dstIp :: m.calls }
  if probeId > 0 then
    let m := { m with mm := m.mm.upd currPeerId id }
    let m := if probeId > 1 ∧ prevPeerId ≠ 0 then withdrawPrev cfg prevPeerId dstIp m else m
    { m with cmds := .set dstIp (viaOf m.mm currPeerId) :: m.cmds }
  else m

/-- `enable_advertise_same` is off and the peer did not change. -/
def keepsQuiet (cfg : Config) (probeId : Nat) (rp : RtParm F) : Prop :=
  cfg.enableAdvertiseSame = false ∧ rp.prevPeerId = rp.currPeerId ∧ probeId > 1

instance (cfg : Config) (probeId : Nat) (rp : RtParm F) : Decidable (keepsQuiet cfg probeId rp) :=
  inferInstanceAs (Decidable (_ ∧ _))

/-- One destination of `pfr_routes_man`. -/
def manDst (cfg : Config) (probeId : Nat) (rp : RtParm F) (dstIp : String) (m : Mem F) : Mem F :=
  if keepsQuiet cfg probeId rp then m
  else pfrCreateSetJrouterRt cfg probeId rp.prevPeerId rp.currPeerId dstIp m

/-- The decision is read with no test for NULL. -/
def pfrRoutesMan (cfg : Config) (probeId : Nat) (m : Mem F) : Option (Mem F) :=
  m.route.keys.foldlM (fun t d => (hopAt t.route d probeId).map fun rp => manDst cfg probeId rp d t) m

/-! ## The calls -/

/-- What a call sends, newest first. -/
def createCmds (cfg : Config) (probeId : Nat) (prevPeerId currPeerId : Int) (dstIp : String) (via : Int → Via) :
    List (Entry String Via) :=
  if probeId > 0 then
    .set dstIp (via currPeerId) ::
      if (probeId > 1 ∧ prevPeerId ≠ 0) ∧ cfg.enableExplicitWithdraw = true then [.unset dstIp (via prevPeerId)] else []
  else []

theorem viaOf_upd_id (mm : PeerMap) (a b : Int) : viaOf (mm.upd a id) b = viaOf mm b := by
  rw [viaOf, viaOf, ExtTreeMap.idx_upd_id]

section Calls
variable (m : Mem F) (a : Int) (d : String)

@[simp] theorem delete_r : (pfrDeleteSetJrouterRt a d m).r = m.r := rfl
@[simp] theorem delete_route : (pfrDeleteSetJrouterRt a d m).route = m.route := rfl
@[simp] theorem delete_routeLog1 : (pfrDeleteSetJrouterRt a d m).routeLog1 = m.routeLog1 := rfl
@[simp] theorem delete_minRtt : (pfrDeleteSetJrouterRt a d m).minRtt = m.minRtt := rfl

theorem viaOf_delete (b : Int) : viaOf (pfrDeleteSetJrouterRt a d m).mm b = viaOf m.mm b := viaOf_upd_id m.mm a b

theorem rib_delete (e : String) :
    rib (pfrDeleteSetJrouterRt a d m) e = if d = e then none else rib m e :=
  table_unset m.cmds d e (viaOf m.mm a)

variable (cfg : Config) (p : Nat) (prev : Int)

/-- A call changes the peers looked up and what was sent. -/
theorem create_frame : pfrCreateSetJrouterRt cfg p prev a d m =
    { m with
      calls := .create p prev a d :: m.calls
      mm := (pfrCreateSetJrouterRt cfg p prev a d m).mm
      cmds := (pfrCreateSetJrouterRt cfg p prev a d m).cmds } := by
  unfold pfrCreateSetJrouterRt withdrawPrev
  split
  · split <;> rfl
  · rfl

@[simp] theorem create_r : (pfrCreateSetJrouterRt cfg p prev a d m).r = m.r := by rw [create_frame]
@[simp] theorem create_route : (pfrCreateSetJrouterRt cfg p prev a d m).route = m.route := by rw [create_frame]
@[simp] theorem create_routeLog1 : (pfrCreateSetJrouterRt cfg p prev a d m).routeLog1 = m.routeLog1 := by
  rw [create_frame]
@[simp] theorem create_minRtt : (pfrCreateSetJrouterRt cfg p prev a d m).minRtt = m.minRtt := by rw [create_frame]
@[simp] theorem create_calls :
    (pfrCreateSetJrouterRt cfg p prev a d m).calls = .create p prev a d :: m.calls := by rw [create_frame]

theorem create_cmds :
    (pfrCreateSetJrouterRt cfg p prev a d m).cmds = createCmds cfg p prev a d (viaOf m.mm) ++ m.cmds := by
  unfold pfrCreateSetJrouterRt createCmds withdrawPrev
  split
  · split
    · next hpp => by_cases hw : cfg.enableExplicitWithdraw = true <;> simp [hpp, hw, viaOf_upd_id]
    · next hpp => simp [hpp, viaOf_upd_id]
  · rfl

theorem viaOf_create (b : Int) : viaOf (pfrCreateSetJrouterRt cfg p prev a d m).mm b = viaOf m.mm b := by
  unfold pfrCreateSetJrouterRt withdrawPrev
  split
  · split
    · rw [viaOf_upd_id, viaOf_upd_id]
    · exact viaOf_upd_id m.mm a b
  · rfl

/-- After a call in a round p ≥ 1 the destination is announced through its current peer. -/
theorem rib_create (e : String) : rib (pfrCreateSetJrouterRt cfg p prev a d m) e =
    if d = e ∧ 0 < p then some (viaOf m.mm a) else rib m e := by
  unfold pfrCreateSetJrouterRt withdrawPrev rib
  by_cases hp : 0 < p
  · by_cases hprev : p > 1 ∧ prev ≠ 0
    · by_cases hw : cfg.enableExplicitWithdraw = true
      · by_cases hde : d = e <;> simp [hp, hprev, hw, hde, table_set, table_unset, viaOf_upd_id]
      · by_cases hde : d = e <;> simp [hp, hprev, hw, hde, table_set, viaOf_upd_id]
    · by_cases hde : d = e <;> simp [hp, hprev, hde, table_set, viaOf_upd_id]
  · simp [hp]

/-- Withdrawals stay matched if the explicit one, where there is one, is. -/
theorem matched_create (h : Matched m.cmds)
    (hprev : 1 < p → prev ≠ 0 → cfg.enableExplicitWithdraw = true → rib m d = some (viaOf m.mm prev)) :
    Matched (pfrCreateSetJrouterRt cfg p prev a d m).cmds := by
  unfold pfrCreateSetJrouterRt withdrawPrev
  by_cases hp : 0 < p
  · by_cases hpp : p > 1 ∧ prev ≠ 0
    · by_cases hw : cfg.enableExplicitWithdraw = true
      · have hm : table m.cmds d = some (viaOf m.mm prev) := hprev hpp.1 hpp.2 hw
        simpa [hp, hpp, hw, Matched, viaOf_upd_id, h] using hm
      · simpa [hp, hpp, hw, Matched] using h
    · simpa [hp, hpp, Matched] using h
  · simpa [hp] using h

/-- Looking up peers that are there inserts none. -/
theorem create_mm (ha : a ∈ m.mm) (hprev : 1 < p → prev ≠ 0 → prev ∈ m.mm) :
    (pfrCreateSetJrouterRt cfg p prev a d m).mm = m.mm := by
  unfold pfrCreateSetJrouterRt withdrawPrev
  split
  · split
    · next hpp => simp only [ExtTreeMap.upd_id_of_mem ha, ExtTreeMap.upd_id_of_mem (hprev hpp.1 hpp.2)]
    · exact ExtTreeMap.upd_id_of_mem ha
  · rfl

end Calls

/-! ## `pfr_routes_man` -/

theorem manDst_route (cfg : Config) (p : Nat) (rp : RtParm F) (d : String) (m : Mem F) :
    (manDst cfg p rp d m).route = m.route := by
  unfold manDst
  split
  · rfl
  · exact create_route m _ d cfg p _

/-- **Invariant rule of `pfr_routes_man`**: a destination is visited once, with the
decision `route` had for it before the call. -/
theorem routesMan_walk {cfg : Config} {p : Nat} {m m' : Mem F} {I : List String → Mem F → Prop} (h0 : I [] m)
    (hstep : ∀ done d t rp, d ∈ m.route → d ∉ done → hopAt m.route d p = some rp → I done t →
      I (done ++ [d]) (manDst cfg p rp d t))
    (h : pfrRoutesMan cfg p m = some m') : I m.route.keys m' ∧ m'.route = m.route := by
  refine List.foldlM_walk (I := fun done t => I done t ∧ t.route = m.route) ExtTreeMap.nodup_keys ⟨h0, rfl⟩ ?_ h
  intro done d rest t t' hl hd hI ht
  obtain ⟨rp, hrp, rfl⟩ := Option.map_eq_some_iff.mp ht
  rw [hI.2] at hrp
  have hmem : d ∈ m.route := by rw [← ExtTreeMap.mem_keys, hl]; simp
  exact ⟨hstep done d t rp hmem hd hrp hI.1, by rw [manDst_route, hI.2]⟩

/-- A call that ran to its end found a decision for every destination. -/
theorem routesMan_hops {cfg : Config} {p : Nat} {m m' : Mem F} (h : pfrRoutesMan cfg p m = some m') {d : String}
    (hd : d ∈ m.route) : (hopAt m.route d p).isSome := by
  have hall := (routesMan_walk (I := fun done _ => ∀ e ∈ done, (hopAt m.route e p).isSome) (by simp) ?_ h).1
  · exact hall d (ExtTreeMap.mem_keys.mpr hd)
  · intro done e t rp _ _ hrp hI x hx
    rcases List.mem_append.mp hx with hx | hx
    · exact hI x hx
    · rw [List.mem_singleton.mp hx, hrp]
      rfl

theorem routesMan_isSome {cfg : Config} {p : Nat} {m : Mem F}
    (h : ∀ d, d ∈ m.route → (hopAt m.route d p).isSome) : ∃ m', pfrRoutesMan cfg p m = some m' := by
  refine List.foldlM_walk_isSome (I := fun _ t => t.route = m.route) ExtTreeMap.nodup_keys rfl ?_
  intro done d rest t hl hd ht
  have hmem : d ∈ m.route := by rw [← ExtTreeMap.mem_keys, hl]; simp
  obtain ⟨rp, hrp⟩ := Option.isSome_iff_exists.mp (h d hmem)
  exact ⟨manDst cfg p rp d t, by rw [ht, hrp]; rfl, by rw [manDst_route, ht]⟩

/-- The phase touches neither the records nor the decisions nor the log. -/
theorem routesMan_frame {cfg : Config} {p : Nat} {m m' : Mem F} (h : pfrRoutesMan cfg p m = some m') :
    m'.r = m.r ∧ m'.route = m.route ∧ m'.routeLog1 = m.routeLog1 ∧ m'.minRtt = m.minRtt ∧
      ∀ b, viaOf m'.mm b = viaOf m.mm b := by
  have hw := routesMan_walk
    (I := fun _ t => t.r = m.r ∧ t.routeLog1 = m.routeLog1 ∧ t.minRtt = m.minRtt ∧ ∀ b, viaOf t.mm b = viaOf m.mm b)
    ⟨rfl, rfl, rfl, fun _ => rfl⟩ ?_ h
  · exact ⟨hw.1.1, hw.2, hw.1.2.1, hw.1.2.2.1, hw.1.2.2.2⟩
  · rintro done d t rp - - - ⟨h1, h2, h3, h4⟩
    unfold manDst
    split
    · exact ⟨h1, h2, h3, h4⟩
    · refine ⟨by simp [h1], by simp [h2], by simp [h3], ?_⟩
      intro b
      rw [viaOf_create, h4]

/-- The gobgp table after the phase: a destination left quiet keeps its entry,
every other destination of `route` is announced through its current peer. -/
theorem routesMan_rib {cfg : Config} {p : Nat} (hp : 0 < p) {m m' : Mem F} (h : pfrRoutesMan cfg p m = some m') :
    (∀ d rp, d ∈ m.route → hopAt m.route d p = some rp →
      rib m' d = if keepsQuiet cfg p rp then rib m d else some (viaOf m.mm rp.currPeerId)) ∧
    ∀ d, d ∉ m.route → rib m' d = rib m d := by
  have hw := (routesMan_walk
    (I := fun done t => (∀ b, viaOf t.mm b = viaOf m.mm b) ∧
      (∀ d ∈ done, ∀ rp, hopAt m.route d p = some rp →
        rib t d = if keepsQuiet cfg p rp then rib m d else some (viaOf m.mm rp.currPeerId)) ∧
      ∀ d, d ∉ done → rib t d = rib m d)
    ⟨fun _ => rfl, by simp, fun _ _ => rfl⟩ ?_ h).1
  · refine ⟨fun d rp hd hrp => hw.2.1 d (ExtTreeMap.mem_keys.mpr hd) rp hrp, fun d hd => hw.2.2 d ?_⟩
    exact fun hm => hd (ExtTreeMap.mem_keys.mp hm)
  · rintro done d t rp - hd hrp ⟨hvia, hdone, hoff⟩
    -- a destination is visited once, so what was announced for it stays
    have hrib : ∀ e, rib (manDst cfg p rp d t) e =
        if d = e ∧ ¬keepsQuiet cfg p rp then some (viaOf m.mm rp.currPeerId) else rib t e := by
      intro e
      unfold manDst
      split
      · next hq => simp [hq]
      · next hq => rw [rib_create, hvia]; simp [hp, hq]
    refine ⟨?_, ?_, ?_⟩
    · intro b
      unfold manDst
      split
      · exact hvia b
      · rw [viaOf_create, hvia]
    · intro e he rp' hrp'
      rw [hrib]
      rcases List.mem_append.mp he with he | he
      · have hne : d ≠ e := fun h => hd (h ▸ he)
        rw [if_neg (fun h => hne h.1), hdone e he rp' hrp']
      · rw [List.mem_singleton] at he
        subst he
        rw [hrp] at hrp'
        cases hrp'
        by_cases hq : keepsQuiet cfg p rp
        · simp [hq, hoff e hd]
        · simp [hq]
    · intro e he
      rw [List.mem_append, List.mem_singleton, not_or] at he
      rw [hrib, if_neg (fun h => he.2 h.1.symm), hoff e he.1]

/-- Round 0 announces nothing. -/
theorem routesMan_rib_zero {cfg : Config} {m m' : Mem F} (h : pfrRoutesMan cfg 0 m = some m') (d : String) :
    rib m' d = rib m d := by
  refine (routesMan_walk (I := fun _ t => rib t d = rib m d) rfl ?_ h).1
  intro done e t rp _ _ _ ht
  unfold manDst
  split
  · exact ht
  · rw [rib_create, if_neg (by simp), ht]

end Pfr

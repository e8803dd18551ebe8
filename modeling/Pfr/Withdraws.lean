import Pfr.Records

/- When withdrawals match announcements. A round announces its decisions last, so
   until then the table holds those of the round before; the four places that
   withdraw read the peer from three:

     `pfr_route_update`            `route[d][probe_id - 1]`, `probe_id` overwritten
     `pfr_delete`, `pfr_delete_all` `route[d][probe_id]`, not announced yet
     the explicit withdrawal       the previous peer of the decision

   Round 0 announces nothing, and with `enable_advertise_same` off neither does a
   decision that repeats its peer.

   1. `Settled`: what the table holds at each place of the round;
   2. `settled_move`: a step keeps it if it withdraws only what the previous round
      decided, through the peer it decided for (`WithdrawsLast`);
   3. `withdraws_matched`: so every withdrawal of such a run is matched; the explicit
      one needs no condition;
   4. `withdraws_wrong_peer`: two destinations leaving at once break it. -/
namespace Pfr

open Std Journal

variable {F : Type} [Dbl F]

/-- Announcements stay enabled. -/
def StillAdvertising : Event F → Prop
  | .signals (.reread cfg _) => cfg.enableAdvertise = true
  | _ => True

/-- The previous round is at least round 1 and decided for this peer, and if the
peer is 0 the decision was not suppressed. -/
def DecidedLast (s : State F) (d : String) (curr : Int) : Prop :=
  2 ≤ s.probeId ∧ (s.cfg.enableAdvertiseSame = true ∨ curr ≠ 0) ∧
    ∃ rp, hopAt s.mem.route d (s.probeId - 1) = some rp ∧ rp.currPeerId = curr

/-- A withdrawal is only made of what the previous round decided. -/
def WithdrawsLast (s : State F) : Event F → Prop
  | .phase =>
    (s.pc = .phase .update → ∀ d ∈ s.mem.r.keys, d ∉ s.pfrList →
      ∀ rp ∈ updHop s.mem s.pfrList s.probeId d, 0 < rp.currPeerId → DecidedLast s d rp.currPeerId) ∧
    (s.pc = .phase .delete → ∀ d ∈ s.mem.routeLog1.keys,
      deleteSel s.cfg s.probeId s.mem.routeLog1 d = some true →
      ∀ rp ∈ hopAt s.mem.route d s.probeId, DecidedLast s d rp.currPeerId)
  | .signals .shutdown => ∀ d ∈ s.mem.routeLog1.keys, ∀ rp ∈ hopAt s.mem.route d s.probeId,
      DecidedLast s d rp.currPeerId
  | _ => True

instance : (e : Event F) → Decidable (StillAdvertising e)
  | .signals (.reread cfg _) => inferInstanceAs (Decidable (cfg.enableAdvertise = true))
  | .signals .none | .signals .shutdown | .signals .rereadFail => .isTrue trivial
  | .arrive _ | .receive | .timeout | .ack | .start _ | .ask | .take | .phase | .release => .isTrue trivial

instance (s : State F) (d : String) (curr : Int) : Decidable (DecidedLast s d curr) :=
  inferInstanceAs (Decidable (_ ∧ _ ∧ _))

instance (s : State F) : (e : Event F) → Decidable (WithdrawsLast s e)
  | .phase => by dsimp only [WithdrawsLast]; infer_instance
  | .signals .shutdown => by dsimp only [WithdrawsLast]; infer_instance
  | .signals .none | .signals (.reread _ _) | .signals .rereadFail => .isTrue trivial
  | .arrive _ | .receive | .timeout | .ack | .start _ | .ask | .take | .release => .isTrue trivial

/-- Up to the signals of a round, where the configuration may change. -/
def MainPc.beforeSignals : MainPc → Bool
  | .phase .man | .release | .exited => false
  | _ => true

/-- What the table holds of the decisions. -/
structure Settled (s : State F) : Prop where
  bound : HopBound s
  adv : s.cfg.enableAdvertise = true
  known : s.pc.beforeSignals = true → 2 ≤ s.probeId → ∀ d rp, hopAt s.mem.route d (s.probeId - 1) = some rp →
    (s.cfg.enableAdvertiseSame = true ∨ rp.currPeerId ≠ 0) → rib s.mem d = some (viaOf s.mem.mm rp.currPeerId)
  prev : s.pc.due = true → 2 ≤ s.probeId → ∀ d rp, hopAt s.mem.route d s.probeId = some rp →
    rp.prevPeerId ≠ 0 → rib s.mem d = some (viaOf s.mem.mm rp.prevPeerId)
  done : s.pc = .release → 1 ≤ s.probeId → ∀ d rp, hopAt s.mem.route d s.probeId = some rp →
    (s.cfg.enableAdvertiseSame = true ∨ rp.currPeerId ≠ 0) → rib s.mem d = some (viaOf s.mem.mm rp.currPeerId)
  matched : Matched s.mem.cmds

omit [Dbl F] in
theorem settled_init {cfg : Config} (hadv : cfg.enableAdvertise = true) (v : F) (mm : PeerMap) :
    Settled (State.init cfg v mm) where
  bound := hopBound_init cfg v mm
  adv := hadv
  known := fun _ _ _ _ hrp => absurd (mem_of_hopAt hrp) ExtTreeMap.not_mem_empty
  prev := vacuous rfl
  done := vacuous rfl
  matched := trivial

omit [Dbl F] in
/-- What the previous round decided is what the table holds. -/
theorem Settled.decidedLast {s : State F} (h : Settled s) (hpc : s.pc.beforeSignals = true) {d : String} {curr : Int}
    (hd : DecidedLast s d curr) : rib s.mem d = some (viaOf s.mem.mm curr) := by
  obtain ⟨hp, hcurr, rp, hrp, rfl⟩ := hd
  exact h.known hpc hp d rp hrp hcurr

section Sent
variable {m m' : Mem F} {mm : PeerMap}

/-- What the calls of a walk keep: matched withdrawals, what ids stand for, and the
entries of the destinations still to come. -/
structure Kept (m : Mem F) (done : List String) (t : Mem F) : Prop where
  matched : Matched t.cmds
  via : ∀ b, viaOf t.mm b = viaOf m.mm b
  rest : ∀ d, d ∉ done → rib t d = rib m d

omit [Dbl F] in
theorem Kept.refl (h : Matched m.cmds) : Kept m [] m := ⟨h, fun _ => rfl, fun _ _ => rfl⟩

omit [Dbl F] in
theorem Kept.skip {done : List String} {t : Mem F} (h : Kept m done t) (d : String) : Kept m (done ++ [d]) t :=
  ⟨h.matched, h.via, fun e he => h.rest e (fun hm => he (List.mem_append_left _ hm))⟩

omit [Dbl F] in
/-- One withdrawal of what the table holds. -/
theorem Kept.withdraw {done : List String} {t t' : Mem F} {d : String} {a : Int} (h : Kept m done t) (hd : d ∉ done)
    (hrib : rib m d = some (viaOf m.mm a)) (hcmds : t'.cmds = (pfrDeleteSetJrouterRt a d t).cmds)
    (hmm : t'.mm = (pfrDeleteSetJrouterRt a d t).mm) : Kept m (done ++ [d]) t' := by
  refine ⟨?_, ?_, ?_⟩
  · rw [hcmds]
    refine ⟨?_, h.matched⟩
    have hmatch := h.rest d hd
    rw [hrib, ← h.via] at hmatch
    exact hmatch
  · intro b
    rw [hmm, viaOf_delete, h.via]
  · intro e he
    rw [List.mem_append, List.mem_singleton, not_or] at he
    rw [rib, hcmds]
    exact (rib_delete t a d e).trans ((if_neg fun hde => he.2 hde.symm).trans (h.rest e he.1))

omit [Dbl F] in
theorem Kept.update {p : Int} {l : List String} (h : Matched m.cmds)
    (hlast : ∀ d, Dropped l m d → ∀ rp, updHop m l p d = some rp → 0 < rp.currPeerId →
      rib m d = some (viaOf m.mm rp.currPeerId))
    (hrun : pfrRouteUpdate p l m = some m') : Matched m'.cmds := by
  refine (routeUpdate_walk (I := Kept m) (.refl h) (fun _ d _ _ _ _ ht => ht.skip d) ?_ hrun).matched
  intro done d t hd hnd hin ht
  rcases drop_sent (updHop m l p d) d t with ⟨-, hc, hmm, -⟩ | ⟨rp, hrp, hpos, -, hc, hmm⟩
  · refine ⟨by rw [hc]; exact ht.matched, by rw [hmm]; exact ht.via, ?_⟩
    intro e he
    rw [rib, hc]
    exact (ht.skip d).rest e he
  · exact ht.withdraw hnd (hlast d ⟨hd, hin⟩ rp hrp hpos) hc hmm

omit [Dbl F] in
theorem Kept.deleteWalk {flag : String → Option Bool} {p : Int} (h : Matched m.cmds)
    (hlast : ∀ d, d ∈ m.routeLog1 → flag d = some true → ∀ rp, hopAt m.route d p = some rp →
      rib m d = some (viaOf m.mm rp.currPeerId))
    (hrun : deleteWalk flag p m = some m') : Matched m'.cmds := by
  refine (deleteWalk_walk (I := Kept m) (.refl h) (fun _ d _ _ _ _ ht => ht.skip d) ?_ hrun).matched
  intro done d t rp hd hnd hflag hrp ht
  exact ht.withdraw hnd (hlast d hd hflag rp hrp) rfl rfl

omit [Dbl F] in
theorem Kept.delete {cfg : Config} {p : Int} (h : Matched m.cmds)
    (hlast : ∀ d, d ∈ m.routeLog1 → deleteSel cfg p m.routeLog1 d = some true → ∀ rp, hopAt m.route d p = some rp →
      rib m d = some (viaOf m.mm rp.currPeerId))
    (hrun : pfrDelete cfg p m = some m') : Matched m'.cmds := by
  unfold pfrDelete at hrun
  split at hrun
  · cases hrun
    exact h
  · next hp => exact Kept.deleteWalk h (fun d hd hflag => hlast d hd (by rw [deleteSel, if_neg hp]; exact hflag)) hrun

omit [Dbl F] in
/-- The explicit withdrawals need only the previous peers to be the announced ones. -/
theorem Kept.man {cfg : Config} {p : Nat} (h : Matched m.cmds)
    (hprev : 2 ≤ p → ∀ d rp, hopAt m.route d p = some rp → rp.prevPeerId ≠ 0 →
      rib m d = some (viaOf m.mm rp.prevPeerId))
    (hrun : pfrRoutesMan cfg p m = some m') : Matched m'.cmds := by
  refine (routesMan_walk (I := Kept m) (.refl h) ?_ hrun).1.matched
  intro done d t rp hd hnd hrp ht
  unfold manDst
  split
  · exact ht.skip d
  · refine ⟨matched_create t _ d cfg p _ ht.matched ?_, ?_, ?_⟩
    · intro hp hne _
      rw [ht.rest d hnd, ht.via]
      exact hprev hp d rp hrp hne
    · intro b
      rw [viaOf_create, ht.via]
    · intro e he
      rw [List.mem_append, List.mem_singleton, not_or] at he
      rw [rib_create, if_neg (fun hde => he.2 hde.1.symm), ht.rest e he.1]

end Sent

/-- After the scan the previous peer of a decision is the one the table holds. -/
theorem Settled.scan {s : State F} {m : Mem F} (h : Settled s) (hpc : s.pc = .phase .scan)
    (hs : ScanSpec s.cfg s.probeId s.mem m) (hp : 2 ≤ s.probeId) {d : String} {rp : RtParm F}
    (hrp : hopAt m.route d s.probeId = some rp) (hne : rp.prevPeerId ≠ 0) :
    rib s.mem d = some (viaOf s.mem.mm rp.prevPeerId) := by
  have hdr : d ∈ s.mem.r := by
    by_contra hno
    rw [hopAt_congr (hs.off d hno).1] at hrp
    have := h.bound.older (by rw [hpc]; rfl) hrp
    omega
  obtain ⟨v, hdec, -⟩ := scan_decision (by omega) hs hdr
  rw [hrp] at hdec
  cases hprev : hopAt s.mem.route d (s.probeId - 1) with
  | none =>
    -- a newcomer has the previous peer 0, for which nothing is withdrawn
    rw [hprev] at hdec
    cases hdec
    exact absurd rfl hne
  | some rp0 =>
    rw [hprev] at hdec
    have heq : rp.prevPeerId = rp0.currPeerId := by rw [Option.some.inj hdec, chooseHop_prev]
    rw [heq] at hne ⊢
    exact h.known (by rw [hpc]; rfl) hp d rp0 hprev (Or.inr hne)

omit [Dbl F] in
/-- After the announcements the table holds the round's decisions. -/
theorem Settled.man {s : State F} {m : Mem F} (h : Settled s) (hpc : s.pc = .phase .man) (hp : 1 ≤ s.probeId)
    (hrun : pfrRoutesMan s.cfg s.probeId s.mem = some m) {d : String} {rp : RtParm F}
    (hrp : hopAt s.mem.route d s.probeId = some rp)
    (hcurr : s.cfg.enableAdvertiseSame = true ∨ rp.currPeerId ≠ 0) :
    rib m d = some (viaOf s.mem.mm rp.currPeerId) := by
  rw [(routesMan_rib (by omega) hrun).1 d rp (mem_of_hopAt hrp) hrp]
  split
  · next hq =>
    obtain ⟨hsame, hpeer, hp2⟩ := hq
    have hne : rp.currPeerId ≠ 0 := by
      rcases hcurr with hc | hc
      · rw [hsame] at hc; cases hc
      · exact hc
    rw [← hpeer] at hne ⊢
    exact h.prev (by rw [hpc]; rfl) (by omega) d rp hrp hne
  · rfl

theorem Settled.phase {s : State F} {ph : Phase} {m : Mem F} (h : Settled s) (hG : WithdrawsLast s .phase)
    (hpc : s.pc = .phase ph) (hrun : runPhase s.cfg s.probeId s.pfrList s.mem ph = some m) :
    Settled { s with mem := m, pc := ph.next } := by
  have hbound := h.bound.move (Move.phase ph m hpc hrun)
  cases ph with
  | update =>
    have hbs : s.pc.beforeSignals = true := by rw [hpc]; rfl
    have hs := update_spec hrun
    refine ⟨hbound, h.adv, ?_, vacuous rfl, vacuous rfl, ?_⟩
    · intro _ hp d rp hrp hcurr
      obtain ⟨hno, hrp⟩ := hopAt_of_erased hs.route hrp
      rw [hs.rib, if_neg (fun hd => hno hd.1), hs.via]
      exact h.known hbs hp d rp hrp hcurr
    · refine Kept.update h.matched ?_ hrun
      intro d hd rp hrp hpos
      exact h.decidedLast hbs (hG.1 hpc d (ExtTreeMap.mem_keys.mpr hd.1) hd.2 rp hrp hpos)
  | calcAvg =>
    obtain ⟨r', -, rfl⟩ := Option.map_eq_some_iff.mp hrun
    exact ⟨hbound, h.adv, fun _ => h.known (by rw [hpc]; rfl), vacuous rfl, vacuous rfl, h.matched⟩
  | calcStddev =>
    obtain ⟨r', -, rfl⟩ := Option.map_eq_some_iff.mp hrun
    exact ⟨hbound, h.adv, fun _ => h.known (by rw [hpc]; rfl), vacuous rfl, vacuous rfl, h.matched⟩
  | scan =>
    have hs := scan_spec hrun
    have hrib : ∀ d, rib m d = rib s.mem d := fun d => by rw [rib, rib, hs.cmds]
    refine ⟨hbound, h.adv, ?_, ?_, vacuous rfl, by rw [hs.cmds]; exact h.matched⟩
    · intro _ hp d rp hrp hcurr
      simp only at hrp hp ⊢
      rw [scan_hopAt_ne hs d (by omega)] at hrp
      rw [hrib, hs.mm]
      exact h.known (by rw [hpc]; rfl) hp d rp hrp hcurr
    · intro _ hp d rp hrp hne
      rw [hrib, hs.mm]
      exact h.scan hpc hs hp hrp hne
  | free =>
    cases hrun
    have hrib : ∀ d, rib (pfrRouteFree s.probeId s.mem) d = rib s.mem d := fun d => by rw [rib, rib, free_cmds]
    refine ⟨hbound, h.adv, ?_, ?_, vacuous rfl, by rw [free_cmds]; exact h.matched⟩
    · intro _ hp d rp hrp hcurr
      simp only at hrp
      rw [free_hopAt s.mem d (by omega)] at hrp
      rw [hrib, free_mm]
      exact h.known (by rw [hpc]; rfl) hp d rp hrp hcurr
    · intro _ hp d rp hrp hne
      simp only at hrp
      rw [free_hopAt s.mem d (by omega)] at hrp
      rw [hrib, free_mm]
      exact h.prev (by rw [hpc]; rfl) hp d rp hrp hne
  | delete =>
    have hbs : s.pc.beforeSignals = true := by rw [hpc]; rfl
    have hs := delete_spec hrun
    refine ⟨hbound, h.adv, ?_, ?_, vacuous rfl, ?_⟩
    · intro _ hp d rp hrp hcurr
      obtain ⟨hno, hrp⟩ := hopAt_of_erased hs.route hrp
      rw [hs.rib, if_neg hno, hs.via]
      exact h.known hbs hp d rp hrp hcurr
    · intro _ hp d rp hrp hne
      obtain ⟨hno, hrp⟩ := hopAt_of_erased hs.route hrp
      rw [hs.rib, if_neg hno, hs.via]
      exact h.prev (by rw [hpc]; rfl) hp d rp hrp hne
    · refine Kept.delete h.matched ?_ hrun
      intro d hd hsel rp hrp
      exact h.decidedLast hbs (hG.2 hpc d (ExtTreeMap.mem_keys.mpr hd) hsel rp hrp)
  | man =>
    obtain ⟨-, hroute, -, -, hvia⟩ := routesMan_frame hrun
    refine ⟨hbound, h.adv, vacuous rfl, vacuous rfl, ?_, ?_⟩
    · intro _ hp d rp hrp hcurr
      simp only at hrp
      rw [hroute] at hrp
      rw [hvia]
      exact h.man hpc hp hrun hrp hcurr
    · exact Kept.man h.matched (fun hp d rp hrp hne => h.prev (by rw [hpc]; rfl) hp d rp hrp hne) hrun

/-- **A step that withdraws what the previous round decided keeps the table settled.** -/
theorem settled_move {s t : State F} {e : Event F} (h : Settled s) (hadv : StillAdvertising e)
    (hG : WithdrawsLast s e) (hm : Move s e t) : Settled t := by
  have hbound := h.bound.move hm
  cases hm with
  | arrive x => exact ⟨hbound, h.adv, h.known, h.prev, h.done, h.matched⟩
  | receive x rest hr hsock =>
    cases x with
    | none => exact ⟨hbound, h.adv, h.known, h.prev, h.done, h.matched⟩
    | some x => exact ⟨hbound, h.adv, h.known, h.prev, h.done, h.matched⟩
  | timeout => exact ⟨hbound, h.adv, h.known, h.prev, h.done, h.matched⟩
  | ack => exact ⟨hbound, h.adv, h.known, h.prev, h.done, h.matched⟩
  | start l hpc => exact ⟨hbound, h.adv, fun _ => h.known (by rw [hpc]; rfl), vacuous rfl, vacuous rfl, h.matched⟩
  | ask hpc => exact ⟨hbound, h.adv, fun _ => h.known (by rw [hpc]; rfl), vacuous rfl, vacuous rfl, h.matched⟩
  | take hpc _ => exact ⟨hbound, h.adv, fun _ => h.known (by rw [hpc]; rfl), vacuous rfl, vacuous rfl, h.matched⟩
  | skip hpc _ =>
    refine ⟨hbound, h.adv, ?_, vacuous rfl, vacuous rfl, h.matched⟩
    -- the round made no decision, so the next one finds none
    intro _ _ d rp hrp
    have hlt := h.bound.older (by rw [hpc]; rfl) hrp
    simp only at hlt
    omega
  | phase ph m hpc hrun => exact h.phase hG hpc hrun
  | resume hpc =>
    have hman := clear_pc h.adv
    refine ⟨hbound, h.adv, ?_, fun _ => h.prev (by rw [hpc]; rfl), ?_, h.matched⟩
    · rw [hman]
      intro h; cases h
    · rw [hman]
      intro h; cases h
  | shutdown m hpc hrun =>
    refine ⟨hbound, h.adv, vacuous rfl, vacuous rfl, vacuous rfl, ?_⟩
    refine Kept.deleteWalk h.matched ?_ hrun
    intro d hd _ rp hrp
    exact h.decidedLast (by rw [hpc]; rfl) (hG d (ExtTreeMap.mem_keys.mpr hd) rp hrp)
  | reread cfg v hpc =>
    have hman := clear_pc (s := { s with cfg := cfg, mem := { s.mem with minRtt := v } }) hadv
    refine ⟨hbound, hadv, ?_, fun _ => h.prev (by rw [hpc]; rfl), ?_, h.matched⟩
    · rw [hman]
      intro h; cases h
    · rw [hman]
      intro h; cases h
  | rereadFail hpc => exact ⟨hbound, h.adv, vacuous rfl, vacuous rfl, vacuous rfl, h.matched⟩
  | release hpc =>
    refine ⟨hbound, h.adv, ?_, vacuous rfl, vacuous rfl, h.matched⟩
    intro _ hp d rp hrp hcurr
    have hidx : ((s.probeId + 1 : Nat) : Int) - 1 = s.probeId := by omega
    simp only at hrp hp
    rw [hidx] at hrp
    exact h.done hpc (by omega) d rp hrp hcurr

/-- The runs whose withdrawals are matched. -/
def Withdrawing (s : State F) (e : Event F) : Prop := StillAdvertising e ∧ WithdrawsLast s e

instance (s : State F) (e : Event F) : Decidable (Withdrawing s e) := inferInstanceAs (Decidable (_ ∧ _))

/-- **Withdrawals match announcements** in every run with announcements enabled that
withdraws only what its previous round decided: each names the peer, next hop and
community its destination is announced with at that moment. -/
theorem withdraws_matched {cfg : Config} (hadv : cfg.enableAdvertise = true) {v : F} {mm : PeerMap} {s : State F}
    (h : Lts.Path step Withdrawing (State.init cfg v mm) s) : Matched s.mem.cmds :=
  (Path.preserves (settled_init hadv v mm) (fun _ _ _ hI hG _ hm => settled_move hI hG.1 hG.2 hm) h).matched

/-- A destination moves to the second peer in round 2 and leaves in round 3. -/
theorem withdraws_matched_run : ∃ s : State ℚ,
    Lts.Path step Withdrawing (State.boot [(1, ⟨"192.0.2.1", "1:1"⟩), (2, ⟨"192.0.2.2", "1:2"⟩)]) s ∧
      (s.probeId = 4 ∧ Call.delete 2 "198.51.100.7" ∈ s.mem.calls) ∧ Matched s.mem.cmds := by
  obtain ⟨s, hs, hend⟩ := exists_run (G := Withdrawing)
    (State.boot (F := ℚ) [(1, ⟨"192.0.2.1", "1:1"⟩), (2, ⟨"192.0.2.2", "1:2"⟩)])
    (roundEvents ["198.51.100.7"] [⟨"198.51.100.7", 0, 1, 1, 40, 0⟩] ++
      roundEvents ["198.51.100.7"] [⟨"198.51.100.7", 1, 1, 1, 40, 1⟩] ++
      roundEvents ["198.51.100.7"] [⟨"198.51.100.7", 2, 2, 1, 10, 2⟩] ++ roundEvents [] [])
    (fun s => s.probeId = 4 ∧ Call.delete 2 "198.51.100.7" ∈ s.mem.calls) (by decide +kernel)
  exact ⟨s, hs, hend, withdraws_matched rfl hs⟩

/-- The second destination moves to peer 2 in round 2; both leave in round 3. Freeing
the first one leaves `probe_id` at 2, so the second is looked up at probe 1 and
withdrawn from peer 1, while peer 2 announces it. No round is skipped. -/
theorem withdraws_wrong_peer : ¬∀ s : State ℚ,
    Lts.Path step (fun s e => StillAdvertising e ∧ NoSkip s e)
      (State.boot [(1, ⟨"192.0.2.1", "1:1"⟩), (2, ⟨"192.0.2.2", "1:2"⟩)]) s → Matched s.mem.cmds := by
  intro hall
  obtain ⟨s, hs, hend⟩ := exists_run (G := fun s e => StillAdvertising e ∧ NoSkip s e)
    (State.boot (F := ℚ) [(1, ⟨"192.0.2.1", "1:1"⟩), (2, ⟨"192.0.2.2", "1:2"⟩)])
    (roundEvents ["198.51.100.7", "198.51.100.9"]
        [⟨"198.51.100.7", 0, 1, 1, 40, 0⟩, ⟨"198.51.100.9", 0, 1, 1, 40, 0⟩] ++
      roundEvents ["198.51.100.7", "198.51.100.9"]
        [⟨"198.51.100.7", 1, 1, 1, 40, 1⟩, ⟨"198.51.100.9", 1, 1, 1, 40, 1⟩] ++
      roundEvents ["198.51.100.7", "198.51.100.9"]
        [⟨"198.51.100.7", 2, 1, 1, 40, 2⟩, ⟨"198.51.100.9", 2, 2, 1, 10, 2⟩] ++ roundEvents [] [])
    (fun s => ¬Matched s.mem.cmds ∧ Call.delete 1 "198.51.100.9" ∈ s.mem.calls) (by decide +kernel)
  exact hend.1 (hall s hs)

end Pfr

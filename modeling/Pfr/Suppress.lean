import Pfr.Community
import Pfr.Withdraws

/- The run with re-announcements and the run without. `enable_advertise_same` off
   leaves out the announcement of a decision that repeats its peer; both runs meet the
   same events. With `enable_gobgp_grpc` on, `std::stoi` throws on a community the client
   cannot read, such as the empty one of peer 0, and the daemon is gone.

   1. `Upheld`: before the announcements of a round the table has, for every decision,
      its previous peer, unless that is 0;
   2. `Alike`: the two memories have the same records, decisions, log and next hops;
      every phase takes alike memories to alike ones, whatever the switch says;
   3. `Beside`: and what the suppressing run sent is part of what the other one sent, and
      its table differs only where the other one announces through peer 0;
   4. `suppressed_agrees`: so it is after every list of events; the suppressing run ends
      where the other one does, and with the command line client only there. -/
namespace Pfr

open Std Journal

variable {F : Type}

/-- The configuration with `enable_advertise_same` set to `b`. -/
def Config.same (b : Bool) (cfg : Config) : Config := { cfg with enableAdvertiseSame := b }

/-- The event with every configuration read again so set. -/
def Event.same (b : Bool) : Event F → Event F
  | .signals (.reread cfg v) => .signals (.reread (cfg.same b) v)
  | e => e

/-! ## What the table holds -/

/-- The table has the peers of the decisions of probe q, but for 0. -/
def Says (m : Mem F) (q : Int) (peer : RtParm F → Int) : Prop :=
  ∀ d rp, hopAt m.route d q = some rp → peer rp ≠ 0 → rib m d = some (viaOf m.mm (peer rp))

theorem Says.erased {m m' : Mem F} {q : Int} {peer : RtParm F → Int} {gone out : String → Prop} [DecidablePred gone]
    [DecidablePred out] (h : Says m q peer) (hsub : ∀ d, out d → gone d)
    (hroute : ∀ d, m'.route[d]? = if gone d then none else m.route[d]?)
    (hrib : ∀ d, rib m' d = if out d then none else rib m d) (hvia : ∀ b, viaOf m'.mm b = viaOf m.mm b) :
    Says m' q peer := by
  intro d rp hrp hne
  obtain ⟨hno, hrp⟩ := hopAt_of_erased hroute hrp
  rw [hrib, if_neg (fun ho => hno (hsub d ho)), hvia]
  exact h d rp hrp hne

theorem Says.congr {m m' : Mem F} {q : Int} {peer : RtParm F → Int} (h : Says m q peer)
    (hroute : ∀ d, hopAt m'.route d q = hopAt m.route d q) (hcmds : m'.cmds = m.cmds) (hmm : m'.mm = m.mm) :
    Says m' q peer := by
  intro d rp hrp hne
  rw [hroute] at hrp
  rw [rib, hcmds, hmm]
  exact h d rp hrp hne

theorem Says.ahead {m : Mem F} {q : Int} {peer : RtParm F → Int} (h : ∀ d rp, hopAt m.route d q ≠ some rp) :
    Says m q peer :=
  fun d rp hrp _ => absurd hrp (h d rp)

/-- What is announced of the decisions, at each place of the round. -/
structure Upheld (s : State F) : Prop where
  bound : HopBound s
  adv : s.cfg.enableAdvertise = true
  known : s.pc.beforeSignals = true → 2 ≤ s.probeId → Says s.mem (s.probeId - 1) RtParm.currPeerId
  prev : s.pc.due = true → 2 ≤ s.probeId → Says s.mem s.probeId RtParm.prevPeerId
  done : s.pc = .release → 1 ≤ s.probeId → Says s.mem s.probeId RtParm.currPeerId

theorem upheld_init {cfg : Config} (hadv : cfg.enableAdvertise = true) (v : F) (mm : PeerMap) :
    Upheld (State.init cfg v mm) where
  bound := hopBound_init cfg v mm
  adv := hadv
  known := fun _ _ => Says.ahead fun _ _ hrp => absurd (mem_of_hopAt hrp) ExtTreeMap.not_mem_empty
  prev := vacuous rfl
  done := vacuous rfl

variable [Dbl F]

/-- The previous peer of a decision is the current one of the round before. -/
theorem Upheld.scan {s : State F} {m : Mem F} (h : Upheld s) (hpc : s.pc = .phase .scan)
    (hs : ScanSpec s.cfg s.probeId s.mem m) (hp : 2 ≤ s.probeId) : Says m s.probeId RtParm.prevPeerId := by
  intro d rp hrp hne
  have hdr : d ∈ s.mem.r := by
    by_contra hno
    rw [hopAt_congr (hs.off d hno).1] at hrp
    have := h.bound.older (by rw [hpc]; rfl) hrp
    omega
  obtain ⟨v, hdec, -⟩ := scan_decision (by omega) hs hdr
  rw [hrp] at hdec
  cases hprev : hopAt s.mem.route d (s.probeId - 1) with
  | none =>
    -- a newcomer has the previous peer 0
    rw [hprev] at hdec
    cases hdec
    exact absurd rfl hne
  | some rp0 =>
    rw [hprev] at hdec
    have heq : rp.prevPeerId = rp0.currPeerId := by rw [Option.some.inj hdec, chooseHop_prev]
    rw [heq] at hne ⊢
    rw [rib, hs.cmds, hs.mm]
    exact h.known (by rw [hpc]; rfl) hp d rp0 hprev hne

omit [Dbl F] in
/-- The announcements put every current peer into the table, suppressed or not. -/
theorem Upheld.man {s : State F} {m : Mem F} (h : Upheld s) (hpc : s.pc = .phase .man) (hp : 1 ≤ s.probeId)
    (hrun : pfrRoutesMan s.cfg s.probeId s.mem = some m) : Says m s.probeId RtParm.currPeerId := by
  obtain ⟨-, hroute, -, -, hvia⟩ := routesMan_frame hrun
  intro d rp hrp hne
  rw [hroute] at hrp
  rw [(routesMan_rib (by omega) hrun).1 d rp (mem_of_hopAt hrp) hrp, hvia]
  split
  · next hq =>
    obtain ⟨-, hpeer, hp2⟩ := hq
    rw [← hpeer] at hne ⊢
    exact h.prev (by rw [hpc]; rfl) (by omega) d rp hrp hne
  · rfl

theorem Upheld.phase {s : State F} {ph : Phase} {m : Mem F} (h : Upheld s) (hpc : s.pc = .phase ph)
    (hrun : runPhase s.cfg s.probeId s.pfrList s.mem ph = some m) : Upheld { s with mem := m, pc := ph.next } := by
  have hbound := h.bound.move (Move.phase ph m hpc hrun)
  cases ph with
  | update =>
    have hs := update_spec hrun
    refine ⟨hbound, h.adv, fun _ hp => ?_, vacuous rfl, vacuous rfl⟩
    exact (h.known (by rw [hpc]; rfl) hp).erased (fun _ ho => ho.1) hs.route hs.rib hs.via
  | calcAvg =>
    obtain ⟨r', -, rfl⟩ := Option.map_eq_some_iff.mp hrun
    exact ⟨hbound, h.adv, fun _ => h.known (by rw [hpc]; rfl), vacuous rfl, vacuous rfl⟩
  | calcStddev =>
    obtain ⟨r', -, rfl⟩ := Option.map_eq_some_iff.mp hrun
    exact ⟨hbound, h.adv, fun _ => h.known (by rw [hpc]; rfl), vacuous rfl, vacuous rfl⟩
  | scan =>
    have hs := scan_spec hrun
    refine ⟨hbound, h.adv, fun _ hp => ?_, fun _ hp => h.scan hpc hs hp, vacuous rfl⟩
    exact (h.known (by rw [hpc]; rfl) hp).congr (fun d => scan_hopAt_ne hs d (by omega)) hs.cmds hs.mm
  | free =>
    cases hrun
    refine ⟨hbound, h.adv, fun _ hp => ?_, fun _ hp => ?_, vacuous rfl⟩
    · exact (h.known (by rw [hpc]; rfl) hp).congr (fun d => free_hopAt s.mem d (by omega)) (free_cmds _) (free_mm _)
    · exact (h.prev (by rw [hpc]; rfl) hp).congr (fun d => free_hopAt s.mem d (by omega)) (free_cmds _) (free_mm _)
  | delete =>
    have hs := delete_spec hrun
    refine ⟨hbound, h.adv, fun _ hp => ?_, fun _ hp => ?_, vacuous rfl⟩
    · exact (h.known (by rw [hpc]; rfl) hp).erased (fun _ ho => ho) hs.route hs.rib hs.via
    · exact (h.prev (by rw [hpc]; rfl) hp).erased (fun _ ho => ho) hs.route hs.rib hs.via
  | man => exact ⟨hbound, h.adv, vacuous rfl, vacuous rfl, fun _ hp => h.man hpc hp hrun⟩

/-- **The table keeps up with the decisions** as long as announcements stay enabled. -/
theorem Upheld.move {s t : State F} {e : Event F} (h : Upheld s) (hadv : StillAdvertising e) (hm : Move s e t) :
    Upheld t := by
  have hbound := h.bound.move hm
  cases hm with
  | arrive x => exact ⟨hbound, h.adv, h.known, h.prev, h.done⟩
  | receive x rest hr hsock => cases x <;> exact ⟨hbound, h.adv, h.known, h.prev, h.done⟩
  | timeout => exact ⟨hbound, h.adv, h.known, h.prev, h.done⟩
  | ack => exact ⟨hbound, h.adv, h.known, h.prev, h.done⟩
  | start l hpc => exact ⟨hbound, h.adv, fun _ => h.known (by rw [hpc]; rfl), vacuous rfl, vacuous rfl⟩
  | ask hpc => exact ⟨hbound, h.adv, fun _ => h.known (by rw [hpc]; rfl), vacuous rfl, vacuous rfl⟩
  | take hpc _ => exact ⟨hbound, h.adv, fun _ => h.known (by rw [hpc]; rfl), vacuous rfl, vacuous rfl⟩
  | skip hpc _ =>
    refine ⟨hbound, h.adv, fun _ _ => Says.ahead ?_, vacuous rfl, vacuous rfl⟩
    -- the round made no decision, so the next one finds none
    intro d rp hrp
    have hlt := h.bound.older (by rw [hpc]; rfl) hrp
    simp only at hlt
    omega
  | phase ph m hpc hrun => exact h.phase hpc hrun
  | resume hpc =>
    have hman := clear_pc h.adv
    exact ⟨hbound, h.adv, by rw [hman]; nofun, fun _ => h.prev (by rw [hpc]; rfl), by rw [hman]; nofun⟩
  | shutdown m hpc hrun => exact ⟨hbound, h.adv, vacuous rfl, vacuous rfl, vacuous rfl⟩
  | reread cfg v hpc =>
    have hman := clear_pc (s := { s with cfg := cfg, mem := { s.mem with minRtt := v } }) hadv
    exact ⟨hbound, hadv, by rw [hman]; nofun, fun _ => h.prev (by rw [hpc]; rfl), by rw [hman]; nofun⟩
  | rereadFail hpc => exact ⟨hbound, h.adv, vacuous rfl, vacuous rfl, vacuous rfl⟩
  | release hpc =>
    refine ⟨hbound, h.adv, fun _ hp => ?_, vacuous rfl, vacuous rfl⟩
    have hidx : ((s.probeId + 1 : Nat) : Int) - 1 = s.probeId := by omega
    simp only at hp ⊢
    rw [hidx]
    exact h.done hpc (by omega)

/-! ## Two memories -/

/-- The memories decide alike and know the same next hops. -/
structure Alike (n m : Mem F) : Prop where
  r : n.r = m.r
  route : n.route = m.route
  routeLog1 : n.routeLog1 = m.routeLog1
  minRtt : n.minRtt = m.minRtt
  via : viaOf n.mm = viaOf m.mm

omit [Dbl F] in
theorem Alike.symm {n m : Mem F} (h : Alike n m) : Alike m n :=
  ⟨h.r.symm, h.route.symm, h.routeLog1.symm, h.minRtt.symm, h.via.symm⟩

omit [Dbl F] in
theorem Alike.trans {n m k : Mem F} (h : Alike n m) (h' : Alike m k) : Alike n k :=
  ⟨h.r.trans h'.r, h.route.trans h'.route, h.routeLog1.trans h'.routeLog1, h.minRtt.trans h'.minRtt, h.via.trans h'.via⟩

omit [Dbl F] in
/-- An announcement leaves a memory alike. -/
theorem alike_create (cfg : Config) (p : Nat) (prev a : Int) (d : String) (m : Mem F) :
    Alike (pfrCreateSetJrouterRt cfg p prev a d m) m where
  r := create_r m a d cfg p prev
  route := create_route m a d cfg p prev
  routeLog1 := create_routeLog1 m a d cfg p prev
  minRtt := create_minRtt m a d cfg p prev
  via := by funext b; exact viaOf_create m a d cfg p prev b

omit [Dbl F] in
theorem alike_manDst (cfg : Config) (p : Nat) (rp : RtParm F) (d : String) (m : Mem F) :
    Alike (manDst cfg p rp d m) m := by
  unfold manDst
  split
  · exact ⟨rfl, rfl, rfl, rfl, rfl⟩
  · exact alike_create cfg p _ _ d m

omit [Dbl F] in
theorem rib_manDst_ne (cfg : Config) (p : Nat) (rp : RtParm F) {d e : String} (hde : d ≠ e) (m : Mem F) :
    rib (manDst cfg p rp d m) e = rib m e := by
  unfold manDst
  split
  · rfl
  · rw [rib_create, if_neg fun h => hde h.1]

/-- They are alike, and if `n` is the suppressing run's, everything it sent the other
sent, and its table differs only where the other announces through peer 0. -/
structure Beside (hushed : Bool) (n m : Mem F) : Prop extends Alike n m where
  sent : hushed = true → n.cmds.Sublist m.cmds
  told : hushed = true → ∀ d, rib n d = rib m d ∨ (rib m d).map Via.peer = some 0

section Bodies
variable {hushed : Bool} {n m : Mem F}

omit [Dbl F] in
/-- What changes neither the peers nor what was sent keeps the rest. -/
theorem Beside.of_alike {n' m' : Mem F} (h : Beside hushed n m) (ha : Alike n' m') (hn : n'.cmds = n.cmds)
    (hm : m'.cmds = m.cmds) : Beside hushed n' m' where
  toAlike := ha
  sent := by rw [hn, hm]; exact h.sent
  told := by unfold rib; rw [hn, hm]; exact h.told

omit [Dbl F] in
theorem Beside.withdraw (h : Beside hushed n m) (a : Int) (d : String) :
    Beside hushed (pfrDeleteSetJrouterRt a d n) (pfrDeleteSetJrouterRt a d m) where
  r := h.r
  route := h.route
  routeLog1 := h.routeLog1
  minRtt := h.minRtt
  via := by funext b; rw [viaOf_delete, viaOf_delete, h.via]
  sent := fun hh => by
    have heq : viaOf n.mm a = viaOf m.mm a := congrFun h.via a
    simpa [pfrDeleteSetJrouterRt, heq] using h.sent hh
  told := fun hh e => by
    rw [rib_delete, rib_delete]
    by_cases hde : d = e
    · simp [hde]
    · simpa [hde] using h.told hh e

omit [Dbl F] in
/-- A destination is erased on both sides. -/
theorem Beside.erase (h : Beside hushed n m) (d : String) :
    Beside hushed { n with r := n.r.erase d, route := n.route.erase d }
      { m with r := m.r.erase d, route := m.route.erase d } :=
  h.of_alike ⟨by simp [h.r], by simp [h.route], h.routeLog1, h.minRtt, h.via⟩ rfl rfl

omit [Dbl F] in
theorem Beside.drop (h : Beside hushed n m) (prev : Option (RtParm F)) (d : String) :
    Beside hushed (dropDst prev d n) (dropDst prev d m) := by
  unfold dropDst
  cases prev with
  | none => exact h.erase d
  | some rp =>
    by_cases hpos : rp.currPeerId > 0
    · simp only [hpos, if_true]
      exact (h.withdraw rp.currPeerId d).erase d
    · simp only [hpos, if_false]
      exact h.erase d

omit [Dbl F] in
theorem Beside.deleteRouted (h : Beside hushed n m) (p : Int) (d : String) :
    Beside hushed (deleteRouted p d n) (deleteRouted p d m) := by
  unfold Pfr.deleteRouted
  rw [h.route]
  split
  · exact (h.withdraw _ d).erase d
  · exact h

omit [Dbl F] in
/-- A call both runs make. -/
theorem Beside.create (h : Beside hushed n m) (cfg : Config) (p : Nat) (prev a : Int) (d : String) {b b' : Bool} :
    Beside hushed (pfrCreateSetJrouterRt (cfg.same b) p prev a d n) (pfrCreateSetJrouterRt (cfg.same b') p prev a d m) where
  toAlike := ((alike_create _ p prev a d n).trans h.toAlike).trans (alike_create _ p prev a d m).symm
  sent := fun hh => by
    rw [create_cmds, create_cmds, h.via]
    exact (h.sent hh).append_left _
  told := fun hh e => by
    rw [rib_create, rib_create, h.via]
    split
    · exact Or.inl rfl
    · exact h.told hh e

omit [Dbl F] in
/-- A call only the other run makes: the peer announced again is in the table already,
unless it is 0. -/
theorem Beside.suppress (h : Beside hushed n m) (cfg : Config) (p : Nat) (prev a : Int) (d : String)
    (hsay : hushed = true → a ≠ 0 → rib m d = some (viaOf m.mm a)) :
    Beside hushed n (pfrCreateSetJrouterRt cfg p prev a d m) where
  toAlike := h.toAlike.trans (alike_create cfg p prev a d m).symm
  sent := fun hh => by
    rw [create_cmds]
    exact (h.sent hh).trans (List.sublist_append_right _ _)
  told := fun hh e => by
    rw [rib_create]
    split
    · next hde =>
      rw [← hde.1]
      by_cases ha : a = 0
      · exact Or.inr (by rw [ha]; rfl)
      · left
        have hm := hsay hh ha
        rcases h.told hh d with heq | hzero
        · rw [heq, hm]
        · rw [hm] at hzero
          exact absurd (Option.some.inj hzero) ha
    · exact h.told hh e

omit [Dbl F] in
/-- One destination of the announcements, one run suppressing and the other not. -/
theorem Beside.manDst {cfg : Config} {p : Nat} {rp : RtParm F} {d : String} (h : Beside hushed n m)
    (hsay : hushed = true → 2 ≤ p → rp.prevPeerId ≠ 0 → rib m d = some (viaOf m.mm rp.prevPeerId)) :
    Beside hushed (manDst (cfg.same !hushed) p rp d n) (manDst (cfg.same hushed) p rp d m) := by
  unfold Pfr.manDst
  cases hushed with
  | true =>
    have hloud : ¬keepsQuiet (cfg.same true) p rp := fun hq => Bool.noConfusion hq.1
    rw [if_neg hloud]
    by_cases hq : keepsQuiet (cfg.same false) p rp
    · obtain ⟨-, hpeer, hp⟩ := id hq
      rw [if_pos (by exact hq)]
      refine h.suppress (cfg.same true) p rp.prevPeerId rp.currPeerId d fun hh hne => ?_
      rw [← hpeer] at hne ⊢
      exact hsay hh hp hne
    · rw [if_neg (by exact hq)]
      exact h.create cfg p rp.prevPeerId rp.currPeerId d
  | false =>
    have hloud : ¬keepsQuiet (cfg.same true) p rp := fun hq => Bool.noConfusion hq.1
    rw [if_neg (by exact hloud)]
    by_cases hq : keepsQuiet (cfg.same false) p rp
    · rw [if_pos hq]
      exact ⟨(alike_create _ _ _ _ _ n).trans h.toAlike, nofun, nofun⟩
    · rw [if_neg hq]
      exact h.create cfg p rp.prevPeerId rp.currPeerId d

end Bodies

/-! ## The phases -/

section Phases
variable {hushed : Bool} {n m m' : Mem F} {p : Nat}

omit [Dbl F] in
theorem Beside.update {l : List String} (h : Beside hushed n m) (hrun : pfrRouteUpdate p l m = some m') :
    ∃ n', pfrRouteUpdate p l n = some n' ∧ Beside hushed n' m' := by
  obtain ⟨u, hu, rfl⟩ := Option.map_eq_some_iff.mp hrun
  have hloop := List.foldlM_sim (f := updateStep l) (g := updateStep l) (s := ⟨p, n⟩) (t := ⟨p, m⟩)
    (R := fun _ s t => s.probeId = t.probeId ∧ Beside hushed s.mem t.mem) ExtTreeMap.nodup_keys ⟨rfl, h⟩ ?_ hu
  · obtain ⟨s, hs, -, hmem⟩ := hloop
    refine ⟨s.mem, ?_, hmem⟩
    rw [pfrRouteUpdate, h.r, hs]
    rfl
  · intro done d rest s t t' _ _ hR ht
    unfold updateStep at ht ⊢
    rw [hR.1, hR.2.r, hR.2.route]
    by_cases hin : d ∈ l
    · rw [if_pos hin] at ht ⊢
      cases ht
      exact ⟨s, rfl, hR⟩
    · rw [if_neg hin] at ht ⊢
      obtain ⟨prev, hprev, rfl⟩ := Option.map_eq_some_iff.mp ht
      rw [hprev]
      exact ⟨_, rfl, rfl, hR.2.drop prev d⟩

theorem Beside.scan {cfg : Config} {b b' : Bool} (h : Beside hushed n m)
    (hrun : pfrRouteScan (cfg.same b) p m = some m') :
    ∃ n', pfrRouteScan (cfg.same b') p n = some n' ∧ Beside hushed n' m' := by
  unfold pfrRouteScan at hrun ⊢
  rw [h.r]
  refine List.foldlM_sim (R := fun _ s t => Beside hushed s t) ExtTreeMap.nodup_keys h ?_ hrun
  intro done d rest s t t' _ _ hR ht
  obtain ⟨out, hout, hres⟩ := Option.bind_eq_some_iff.mp ht
  cases hres
  have hscan : scanDst (cfg.same b') p s.minRtt (s.r.idx d) (s.route.idx d) = some out := by
    rw [hR.minRtt, hR.r, hR.route]
    exact hout
  have hs : scanStep (cfg.same b') p s d = some { s with
      r := s.r.insert d out.probes
      route := out.hops.elim s.route (s.route.insert d)
      routeLog1 := s.routeLog1.upd d (fun l => l.insert p (some out.log))
      minRtt := Dbl.num 50000 } := by
    unfold scanStep
    rw [hscan]
    rfl
  refine ⟨_, hs, hR.of_alike ⟨?_, ?_, ?_, rfl, hR.via⟩ rfl rfl⟩
  · simp [hR.r]
  · simp [hR.route]
  · simp [hR.routeLog1]

omit [Dbl F] in
theorem Beside.free (h : Beside hushed n m) : Beside hushed (pfrRouteFree p n) (pfrRouteFree p m) := by
  refine h.of_alike ⟨?_, ?_, by simp [h.routeLog1], by simp [h.minRtt], by simp [h.via]⟩ (free_cmds n) (free_cmds m)
  · unfold pfrRouteFree
    split
    · exact h.r
    · simp [h.r]
  · unfold pfrRouteFree
    split
    · exact h.route
    · simp [h.r, h.route]

omit [Dbl F] in
theorem Beside.deleteWalk {flag : String → Option Bool} {q : Int} (h : Beside hushed n m)
    (hrun : deleteWalk flag q m = some m') : ∃ n', deleteWalk flag q n = some n' ∧ Beside hushed n' m' := by
  unfold Pfr.deleteWalk at hrun ⊢
  rw [h.routeLog1]
  refine List.foldlM_sim (R := fun _ s t => Beside hushed s t) ExtTreeMap.nodup_keys h ?_ hrun
  intro done d rest s t t' _ _ hR ht
  obtain ⟨b, hb, rfl⟩ := Option.map_eq_some_iff.mp ht
  rw [hb]
  cases b with
  | true => exact ⟨_, rfl, hR.deleteRouted q d⟩
  | false => exact ⟨s, rfl, hR⟩

omit [Dbl F] in
theorem Beside.delete {cfg : Config} {b b' : Bool} (h : Beside hushed n m)
    (hrun : pfrDelete (cfg.same b) p m = some m') : ∃ n', pfrDelete (cfg.same b') p n = some n' ∧ Beside hushed n' m' := by
  unfold pfrDelete at hrun ⊢
  have hdeep : ∀ b, (cfg.same b).deepDelete = cfg.deepDelete := fun _ => rfl
  rw [hdeep] at hrun ⊢
  rw [h.routeLog1]
  by_cases hp : (p : Int) ≤ cfg.deepDelete
  · rw [if_pos hp] at hrun ⊢
    cases hrun
    exact ⟨n, rfl, h⟩
  · rw [if_neg hp] at hrun ⊢
    exact h.deleteWalk hrun

omit [Dbl F] in
/-- The announcements of a round, one run suppressing and the other not. -/
theorem Beside.man {cfg : Config} (h : Beside hushed n m)
    (hsay : hushed = true → 2 ≤ p → Says m p RtParm.prevPeerId)
    (hrun : pfrRoutesMan (cfg.same hushed) p m = some m') :
    ∃ n', pfrRoutesMan (cfg.same !hushed) p n = some n' ∧ Beside hushed n' m' := by
  unfold pfrRoutesMan at hrun ⊢
  rw [h.route]
  have hloop := List.foldlM_sim
    (f := fun t d => (hopAt t.route d p).map fun rp => Pfr.manDst (cfg.same !hushed) p rp d t)
    (R := fun done s t => Beside hushed s t ∧ t.route = m.route ∧ viaOf t.mm = viaOf m.mm ∧
      ∀ d, d ∉ done → rib t d = rib m d) ExtTreeMap.nodup_keys ⟨h, rfl, rfl, fun _ _ => rfl⟩ ?_ hrun
  · obtain ⟨n', hn', hR, -⟩ := hloop
    exact ⟨n', hn', hR⟩
  · intro done d rest s t t' _ hd hR ht
    obtain ⟨hR, hroute, hvia, hrib⟩ := hR
    obtain ⟨rp, hrp, rfl⟩ := Option.map_eq_some_iff.mp ht
    rw [hR.route, hrp]
    rw [hroute] at hrp
    refine ⟨_, rfl, ?_, by rw [manDst_route, hroute], ?_, ?_⟩
    · exact hR.manDst fun hh hp2 hne => by rw [hrib d hd, hvia]; exact hsay hh hp2 d rp hrp hne
    · rw [(alike_manDst _ p rp d t).via, hvia]
    · intro e he
      rw [List.mem_append, List.mem_singleton, not_or] at he
      rw [rib_manDst_ne _ p rp (Ne.symm he.2), hrib e he.1]

theorem Beside.phase {cfg : Config} {l : List String} {ph : Phase} (h : Beside hushed n m)
    (hsay : ph = .man → hushed = true → 2 ≤ p → Says m p RtParm.prevPeerId)
    (hrun : runPhase (cfg.same hushed) p l m ph = some m') :
    ∃ n', runPhase (cfg.same !hushed) p l n ph = some n' ∧ Beside hushed n' m' := by
  cases ph with
  | update => exact h.update hrun
  | calcAvg =>
    obtain ⟨r', hr', rfl⟩ := Option.map_eq_some_iff.mp hrun
    refine ⟨{ n with r := r' }, ?_, h.of_alike ⟨rfl, h.route, h.routeLog1, h.minRtt, h.via⟩ rfl rfl⟩
    show (pfrCalcAvgRtt (cfg.same !hushed) p n.r).map _ = _
    rw [h.r]
    exact congrArg (Option.map _) hr'
  | calcStddev =>
    obtain ⟨r', hr', rfl⟩ := Option.map_eq_some_iff.mp hrun
    refine ⟨{ n with r := r' }, ?_, h.of_alike ⟨rfl, h.route, h.routeLog1, h.minRtt, h.via⟩ rfl rfl⟩
    show (pfrCalcStddevRtt p n.r).map _ = _
    rw [h.r]
    exact congrArg (Option.map _) hr'
  | scan => exact h.scan hrun
  | free =>
    cases hrun
    exact ⟨_, rfl, h.free⟩
  | delete => exact h.delete hrun
  | man => exact h.man (hsay rfl) hrun

end Phases

/-! ## The runs -/

/-- `t` is at the same place of the same round as `s`, with the switch the other way. -/
structure Shadow (hushed : Bool) (t s : State F) : Prop where
  cfg : ∃ cfg : Config, t.cfg = cfg.same !hushed ∧ s.cfg = cfg.same hushed
  mem : Beside hushed t.mem s.mem
  probeId : t.probeId = s.probeId
  pfrList : t.pfrList = s.pfrList
  pc : t.pc = s.pc
  reqStopped : t.reqStopped = s.reqStopped
  sendStopped : t.sendStopped = s.sendStopped
  rcv : t.rcv = s.rcv
  sock : t.sock = s.sock

omit [Dbl F] in
theorem shadow_init (hushed : Bool) (cfg : Config) (v : F) (mm : PeerMap) :
    Shadow hushed (State.init (cfg.same !hushed) v mm) (State.init (cfg.same hushed) v mm) where
  cfg := ⟨cfg, rfl, rfl⟩
  mem := ⟨⟨rfl, rfl, rfl, rfl, rfl⟩, fun _ => List.Sublist.refl _, fun _ _ => Or.inl rfl⟩
  probeId := rfl
  pfrList := rfl
  pc := rfl
  reqStopped := rfl
  sendStopped := rfl
  rcv := rfl
  sock := rfl

section Steps
variable {hushed : Bool} {t s : State F}

omit [Dbl F] in
/-- Both go on to the announcements, or neither does. -/
theorem Shadow.clear (h : Shadow hushed t s) : Shadow hushed t.clear s.clear := by
  obtain ⟨cfg, ht, hs⟩ := h.cfg
  refine ⟨⟨cfg, ht, hs⟩, h.mem, h.probeId, h.pfrList, ?_, rfl, rfl, h.rcv, h.sock⟩
  unfold State.clear
  rw [ht, hs]
  rfl

/-- A phase of one run is a phase of the other. -/
theorem Shadow.phase (h : Shadow hushed t s) (hup : hushed = true → Upheld s) {ph : Phase} {m : Mem F}
    (hpc : s.pc = .phase ph) (hrun : runPhase s.cfg s.probeId s.pfrList s.mem ph = some m) :
    ∃ t', Move t .phase t' ∧ Shadow hushed t' { s with mem := m, pc := ph.next } := by
  obtain ⟨cfg, ht, hs⟩ := h.cfg
  rw [hs] at hrun
  have hsay : ph = .man → hushed = true → 2 ≤ s.probeId → Says s.mem s.probeId RtParm.prevPeerId := by
    intro hph hh hp
    exact (hup hh).prev (by rw [hpc, hph]; rfl) hp
  obtain ⟨n, hn, hnm⟩ := h.mem.phase hsay hrun
  rw [← ht, ← h.probeId, ← h.pfrList] at hn
  refine ⟨_, .phase ph n (h.pc.trans hpc) hn, ?_⟩
  exact ⟨⟨cfg, ht, hs⟩, hnm, h.probeId, h.pfrList, rfl, h.reqStopped, h.sendStopped, h.rcv, h.sock⟩

omit [Dbl F] in
theorem Beside.receive {n m : Mem F} [Dbl F] (h : Beside hushed n m) (x : Option (Reply F)) :
    Beside hushed (n.receive x) (m.receive x) := by
  cases x with
  | none => exact h
  | some x => exact h.of_alike ⟨congrArg (record x) h.r, h.route, h.routeLog1, h.minRtt, h.via⟩ rfl rfl

/-- **Each step of one run is a step of the other.** -/
theorem Shadow.move (h : Shadow hushed t s) (hup : hushed = true → Upheld s) {e : Event F} {s' : State F}
    (hm : Move s (e.same hushed) s') : ∃ t', Move t (e.same !hushed) t' ∧ Shadow hushed t' s' := by
  cases e with
  | arrive x =>
    cases hm
    refine ⟨_, .arrive x, h.cfg, h.mem, h.probeId, h.pfrList, h.pc, h.reqStopped, h.sendStopped, h.rcv, ?_⟩
    exact congrArg (· ++ [x]) h.sock
  | receive =>
    cases hm with
    | receive x rest hr hsock =>
      refine ⟨_, .receive x rest (h.rcv.trans hr) (h.sock.trans hsock), ?_⟩
      exact ⟨h.cfg, h.mem.receive x, h.probeId, h.pfrList, h.pc, h.reqStopped, h.sendStopped, rfl, rfl⟩
  | timeout =>
    cases hm with
    | timeout hr =>
      refine ⟨_, .timeout (h.rcv.trans hr), ?_⟩
      exact ⟨h.cfg, h.mem, h.probeId, h.pfrList, h.pc, h.reqStopped, h.sendStopped, rfl, h.sock⟩
  | ack =>
    cases hm with
    | ack hr hh =>
      refine ⟨_, .ack (h.rcv.trans hr) (by rw [h.pc]; exact hh), ?_⟩
      refine ⟨h.cfg, h.mem, h.probeId, h.pfrList, h.pc, h.reqStopped, ?_, rfl, h.sock⟩
      simp [h.sendStopped, h.reqStopped]
  | start l =>
    cases hm with
    | start _ hpc =>
      refine ⟨_, .start l (h.pc.trans hpc), ?_⟩
      refine ⟨h.cfg, h.mem, h.probeId, rfl, rfl, h.reqStopped, h.sendStopped, ?_, h.sock⟩
      simp [h.rcv]
  | ask =>
    cases hm with
    | ask hpc =>
      refine ⟨_, .ask (h.pc.trans hpc), ?_⟩
      exact ⟨h.cfg, h.mem, h.probeId, h.pfrList, rfl, rfl, h.sendStopped, h.rcv, h.sock⟩
  | take =>
    cases hm with
    | take hpc hs =>
      refine ⟨_, .take (h.pc.trans hpc) (h.sendStopped.trans hs), ?_⟩
      exact ⟨h.cfg, h.mem, h.probeId, h.pfrList, rfl, h.reqStopped, h.sendStopped, h.rcv, h.sock⟩
    | skip hpc hs =>
      refine ⟨_, .skip (h.pc.trans hpc) (h.sendStopped.trans hs), ?_⟩
      exact ⟨h.cfg, h.mem, congrArg (· + 1) h.probeId, h.pfrList, rfl, h.reqStopped, h.sendStopped, h.rcv, h.sock⟩
  | phase =>
    cases hm with
    | phase ph m hpc hrun => exact h.phase hup hpc hrun
  | signals sig =>
    cases sig with
    | none =>
      cases hm with
      | resume hpc => exact ⟨_, .resume (h.pc.trans hpc), h.clear⟩
    | shutdown =>
      cases hm with
      | shutdown m hpc hrun =>
        obtain ⟨n, hn, hnm⟩ := h.mem.deleteWalk hrun
        rw [← h.probeId] at hn
        refine ⟨_, .shutdown n (h.pc.trans hpc) hn, ?_⟩
        exact ⟨h.cfg, hnm, h.probeId, h.pfrList, rfl, h.reqStopped, h.sendStopped, h.rcv, h.sock⟩
    | reread cfg v =>
      cases hm with
      | reread _ _ hpc =>
        refine ⟨_, .reread (cfg.same !hushed) v (h.pc.trans hpc), Shadow.clear ?_⟩
        have hmem : Beside hushed { t.mem with minRtt := v } { s.mem with minRtt := v } :=
          h.mem.of_alike ⟨h.mem.r, h.mem.route, h.mem.routeLog1, rfl, h.mem.via⟩ rfl rfl
        exact ⟨⟨cfg, rfl, rfl⟩, hmem, h.probeId, h.pfrList, h.pc, h.reqStopped, h.sendStopped, h.rcv, h.sock⟩
    | rereadFail =>
      cases hm with
      | rereadFail hpc =>
        refine ⟨_, .rereadFail (h.pc.trans hpc), ?_⟩
        exact ⟨h.cfg, h.mem, h.probeId, h.pfrList, rfl, h.reqStopped, h.sendStopped, h.rcv, h.sock⟩
  | release =>
    cases hm with
    | release hpc =>
      refine ⟨_, .release (h.pc.trans hpc), ?_⟩
      exact ⟨h.cfg, h.mem, congrArg (· + 1) h.probeId, h.pfrList, rfl, h.reqStopped, h.sendStopped, h.rcv, h.sock⟩

end Steps

/-- The client carries the command out; with `enable_gobgp_grpc` on it may throw instead. -/
def carried (grpc : Bool) (c : Entry String Via) : Bool := !grpc || (grpcCall c).toOption.isSome

/-- A step with the client of the commands: nothing comes after one that throws. -/
def clientStep (grpc : Bool) (s : State F) (e : Event F) : Option (State F) :=
  (step s e).filter fun t => t.mem.cmds.all (carried grpc)

theorem clientStep_eq_some {grpc : Bool} {s t : State F} {e : Event F} :
    clientStep grpc s e = some t ↔ step s e = some t ∧ ∀ c ∈ t.mem.cmds, carried grpc c = true := by
  rw [clientStep, Option.filter_eq_some_iff, List.all_eq_true]

/-- The run on the events `es` with `enable_advertise_same` always `b`. -/
def runSame (grpc b : Bool) (cfg : Config) (v : F) (mm : PeerMap) (es : List (Event F)) : Option (State F) :=
  Lts.exec (clientStep grpc) (State.init (cfg.same b) v mm) (es.map (·.same b))

/-- The run with the switch the other way comes to its end too, beside the first one, if it
is the one that sends less or the client never throws. -/
theorem shadow_run {grpc hushed : Bool} (hclient : hushed = true ∨ grpc = false) {cfg : Config}
    (hadv : cfg.enableAdvertise = true) {v : F} {mm : PeerMap} {es : List (Event F)} (hes : ∀ e ∈ es, StillAdvertising e)
    {s : State F} (h : runSame grpc hushed cfg v mm es = some s) :
    ∃ t, runSame grpc (!hushed) cfg v mm es = some t ∧ Shadow hushed t s := by
  have hstep : ∀ (s t : State F) (e : Event F) (s' : State F), StillAdvertising e → (Shadow hushed t s ∧ Upheld s) →
      clientStep grpc s (e.same hushed) = some s' →
      ∃ t', clientStep grpc t (e.same !hushed) = some t' ∧ Shadow hushed t' s' ∧ Upheld s' := by
    intro s t e s' he hR hs
    obtain ⟨hs, hcarried⟩ := clientStep_eq_some.mp hs
    obtain ⟨hx, hm⟩ := move_of_step hs
    obtain ⟨t', ht', hR'⟩ := hR.1.move (fun _ => hR.2) hm
    have hsend : ∀ c ∈ t'.mem.cmds, carried grpc c = true := by
      intro c hc
      rcases hclient with hh | hg
      · exact hcarried c ((hR'.mem.sent hh).mem hc)
      · rw [hg]
        rfl
    refine ⟨t', clientStep_eq_some.mpr ⟨step_of_move (by rw [hR.1.pc]; exact hx) ht', hsend⟩, hR', hR.2.move ?_ hm⟩
    cases e with
    | signals sig => cases sig <;> exact he
    | _ => trivial
  have hadv' : (cfg.same hushed).enableAdvertise = true := hadv
  obtain ⟨t, ht, hR, -⟩ := Lts.exec_sim hstep hes ⟨shadow_init hushed cfg v mm, upheld_init hadv' v mm⟩ h
  exact ⟨t, ht, hR⟩

/-- **Suppressing re-announcements changes nothing but the traffic.** On the same
events, with announcements enabled and one client throughout, the run with
`enable_advertise_same` off ends if the one with it on does; with the command line
client also only if. They have the same
records, decisions and log; what the first sent is part of what the second sent; and
their tables agree except where the second announces through peer 0, the id of no peer. -/
theorem suppressed_agrees (grpc : Bool) {cfg : Config} (hadv : cfg.enableAdvertise = true) (v : F) (mm : PeerMap)
    {es : List (Event F)} (hes : ∀ e ∈ es, StillAdvertising e) :
    ((runSame grpc true cfg v mm es).isSome → (runSame grpc false cfg v mm es).isSome) ∧
      (grpc = false → (runSame grpc false cfg v mm es).isSome → (runSame grpc true cfg v mm es).isSome) ∧
      ∀ t s, runSame grpc false cfg v mm es = some t → runSame grpc true cfg v mm es = some s →
        (t.pc = s.pc ∧ t.probeId = s.probeId ∧ t.mem.r = s.mem.r ∧ t.mem.route = s.mem.route ∧
          t.mem.routeLog1 = s.mem.routeLog1) ∧
        t.mem.cmds.Sublist s.mem.cmds ∧ ∀ d, rib t.mem d = rib s.mem d ∨ (rib s.mem d).map Via.peer = some 0 := by
  refine ⟨?_, ?_, ?_⟩
  · intro h
    obtain ⟨s, hs⟩ := Option.isSome_iff_exists.mp h
    obtain ⟨t, ht, -⟩ := shadow_run (Or.inl rfl) hadv hes hs
    exact Option.isSome_of_eq_some ht
  · intro hg h
    obtain ⟨t, ht⟩ := Option.isSome_iff_exists.mp h
    obtain ⟨s, hs, -⟩ := shadow_run (Or.inr hg) hadv hes ht
    exact Option.isSome_of_eq_some hs
  · intro t s ht hs
    obtain ⟨t', ht', h⟩ := shadow_run (Or.inl rfl) hadv hes hs
    rw [Bool.not_true, ht] at ht'
    cases ht'
    exact ⟨⟨h.pc, h.probeId, h.mem.r, h.mem.route, h.mem.routeLog1⟩, h.mem.sent rfl, h.mem.told rfl⟩

/-- Three rounds at one peer and a fourth at another, told by gRPC: the suppressing run sends
one command less. -/
theorem suppressed_agrees_run : ∃ t s : State ℚ, (t.mem.cmds.length = 2 ∧ s.mem.cmds.length = 3) ∧
    t.mem.routeLog1 = s.mem.routeLog1 ∧ t.mem.cmds.Sublist s.mem.cmds := by
  let mm : PeerMap := .ofRows [(1, ⟨"192.0.2.1", "1:1"⟩), (2, ⟨"192.0.2.2", "1:2"⟩)]
  let es : List (Event ℚ) :=
    roundEvents ["198.51.100.7"] [⟨"198.51.100.7", 0, 1, 1, 40, 0⟩] ++
      roundEvents ["198.51.100.7"] [⟨"198.51.100.7", 1, 1, 1, 40, 1⟩] ++
      roundEvents ["198.51.100.7"] [⟨"198.51.100.7", 2, 1, 1, 40, 2⟩] ++
      roundEvents ["198.51.100.7"] [⟨"198.51.100.7", 3, 2, 1, 10, 3⟩]
  have hend : ∀ b n, (runSame true b Config.default (Dbl.num 50000) mm es).any (fun s => decide (s.mem.cmds.length = n)) = true →
      ∃ s, runSame true b Config.default (Dbl.num 50000) mm es = some s ∧ s.mem.cmds.length = n := by
    intro b n h
    obtain ⟨s, hs, hn⟩ := (Option.any_eq_true _ _).mp h
    exact ⟨s, hs, of_decide_eq_true hn⟩
  obtain ⟨t, ht, hlt⟩ := hend false 2 (by decide +kernel)
  obtain ⟨s, hs, hls⟩ := hend true 3 (by decide +kernel)
  have hadv : Config.default.enableAdvertise = true := rfl
  have hes : ∀ e ∈ es, StillAdvertising e := by decide
  obtain ⟨⟨-, -, -, -, hlog⟩, hsub, -⟩ := (suppressed_agrees true hadv (Dbl.num 50000) mm hes).2.2 t s ht hs
  exact ⟨t, s, ⟨hlt, hls⟩, hlog, hsub⟩

/-- After two silent rounds a first reply comes late in a third, and leaves peer 0: the
suppressing run says nothing, the other one hands the client an empty community. -/
example :
    let ends : Bool → Bool → Bool := fun grpc b =>
      (runSame (F := ℚ) grpc b Config.default (Dbl.num 50000) (.ofRows [(1, ⟨"192.0.2.1", "1:1"⟩)])
        (roundEvents ["198.51.100.7"] [] ++ roundEvents ["198.51.100.7"] [] ++
          roundEvents ["198.51.100.7"] [⟨"198.51.100.7", 1, 1, 1, 20, 2⟩])).isSome
    ends true false = true ∧ ends true true = false ∧ ends false true = true := by
  decide +kernel

/-- With announcements off for the round of a move the suppressing run never catches up. -/
example :
    let ends : Bool → Option (Option Int) := fun b =>
      (runSame (F := ℚ) false b Config.default (Dbl.num 50000)
        (.ofRows [(1, ⟨"192.0.2.1", "1:1"⟩), (2, ⟨"192.0.2.2", "1:2"⟩)])
        (roundEvents ["198.51.100.7"] [⟨"198.51.100.7", 0, 1, 1, 40, 0⟩] ++
          roundEvents ["198.51.100.7"] [⟨"198.51.100.7", 1, 1, 1, 40, 1⟩] ++
          (roundEvents ["198.51.100.7"] [⟨"198.51.100.7", 2, 2, 1, 10, 2⟩]).dropLast.dropLast.dropLast ++
          [.signals (.reread { Config.default with enableAdvertise := false } (Dbl.num 50000)), .release] ++
          (roundEvents ["198.51.100.7"] [⟨"198.51.100.7", 3, 2, 1, 10, 3⟩]).dropLast.dropLast.dropLast ++
          [.signals (.reread Config.default (Dbl.num 50000)), .phase, .release])).map
      fun s => (rib s.mem "198.51.100.7").map Via.peer
    ends false = some (some 1) ∧ ends true = some (some 2) := by
  decide +kernel

end Pfr

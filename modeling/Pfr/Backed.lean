import Pfr.Measures

/- What reaches the routers. The decisions are made by one phase, kept by others, written
   into the log, announced and withdrawn rounds later, by calls that look the peer up at
   three different places; replies come from anyone. Nothing is told to gobgp, stored or
   logged about a destination that did not answer a request, or about a peer it did not
   answer through, except peer 0, which stands for "no answer".

   1. `Backed`: the invariant of the maps and of what was sent, for any `A` that holds of the
      destinations and the peers they answered through;
   2. `Backed.phase`, `Backed.receive`: a phase keeps it, and so does a reply that `A` holds of;
   3. `told_answered`: so it holds of the whole system, `A` being what was sent and answered. -/
namespace Pfr

open Std Journal

/-! ## The invariant -/

section Memory
variable {F : Type} {A : String → Int → Prop}

/-- The peer is one the destination answered through, or 0. -/
def OrNone (A : String → Int → Prop) (d : String) (k : Int) : Prop := k = 0 ∨ A d k

structure Backed (A : String → Int → Prop) (m : Mem F) : Prop where
  maps : RecInv m
  dsts : ∀ d, d ∈ m.r → ∃ k, A d k
  peers : ∀ (d : String) (q k : Int), k ∈ peersAt m.r d q → A d k
  hops : ∀ (d : String) (q : Int) (rp : RtParm F), hopAt m.route d q = some rp →
    OrNone A d rp.currPeerId ∧ OrNone A d rp.prevPeerId
  rows : ∀ (d : String) (q : Int) (row : Tlog F), (m.routeLog1.idx d)[q]? = some (some row) →
    (∃ k, A d k) ∧ OrNone A d row.peerId
  sent : ∀ e ∈ m.cmds, (∃ k, A e.key k) ∧ OrNone A e.key e.value.peer

theorem OrNone.mono {A' : String → Int → Prop} (hsub : ∀ d k, A d k → A' d k) {d : String} {k : Int} (h : OrNone A d k) :
    OrNone A' d k := h.imp_right (hsub d k)

/-- More answers. -/
theorem Backed.mono {A' : String → Int → Prop} {m : Mem F} (h : Backed A m) (hsub : ∀ d k, A d k → A' d k) : Backed A' m where
  maps := h.maps
  dsts := fun d hd => (h.dsts d hd).imp (hsub d)
  peers := fun d q k hk => hsub d k (h.peers d q k hk)
  hops := fun d q rp hrp => ⟨(h.hops d q rp hrp).1.mono hsub, (h.hops d q rp hrp).2.mono hsub⟩
  rows := fun d q row hrow => ⟨(h.rows d q row hrow).1.imp (hsub d), (h.rows d q row hrow).2.mono hsub⟩
  sent := fun e he => ⟨(h.sent e he).1.imp (hsub e.key), (h.sent e he).2.mono hsub⟩

theorem backed_init (A : String → Int → Prop) (cfg : Config) (v : F) (mm : PeerMap) : Backed A (State.init cfg v mm).mem where
  maps := recInv_init cfg v mm
  dsts := fun d hd => absurd hd ExtTreeMap.not_mem_empty
  peers := fun d q k hk => absurd (mem_of_mem_peersAt hk) ExtTreeMap.not_mem_empty
  hops := fun d q rp hrp => absurd (mem_of_hopAt hrp) ExtTreeMap.not_mem_empty
  rows := by
    intro d q row hrow
    change ((∅ : LogMap F).idx d)[q]? = some (some row) at hrow
    rw [ExtTreeMap.idx_empty] at hrow
    change (∅ : ExtTreeMap Int (Option (Tlog F)))[q]? = some (some row) at hrow
    simp at hrow
  sent := nofun

/-- A decision is for a destination of `r`. -/
theorem Backed.dst_of_hop {m : Mem F} (h : Backed A m) {d : String} {q : Int} {rp : RtParm F} (hrp : hopAt m.route d q = some rp) :
    ∃ k, A d k := h.dsts d (h.maps.routeSub d (mem_of_hopAt hrp))

/-! ### The calls -/

/-- What was sent is backed. -/
def SentBacked (A : String → Int → Prop) (m : Mem F) : Prop :=
  ∀ e ∈ m.cmds, (∃ k, A e.key k) ∧ OrNone A e.key e.value.peer

theorem SentBacked.delete {m m' : Mem F} (h : SentBacked A m) {a : Int} {d : String} (hd : ∃ k, A d k) (ha : OrNone A d a)
    (hcmds : m'.cmds = (pfrDeleteSetJrouterRt a d m).cmds) : SentBacked A m' := by
  intro e he
  rw [hcmds] at he
  rcases List.mem_cons.mp he with rfl | he
  · exact ⟨hd, ha⟩
  · exact h e he

theorem SentBacked.create {m : Mem F} (h : SentBacked A m) {cfg : Config} {p : Nat} {prev a : Int} {d : String}
    (hd : ∃ k, A d k) (ha : OrNone A d a) (hprev : OrNone A d prev) : SentBacked A (pfrCreateSetJrouterRt cfg p prev a d m) := by
  have hnew : ∀ e : Entry String Via, e.key = d → (e.value.peer = a ∨ e.value.peer = prev) →
      (∃ k, A e.key k) ∧ OrNone A e.key e.value.peer := by
    intro e hkey hpeer
    rw [hkey]
    refine ⟨hd, ?_⟩
    rcases hpeer with he | he
    · rwa [he]
    · rwa [he]
  intro e he
  unfold pfrCreateSetJrouterRt withdrawPrev at he
  split at he
  · rcases List.mem_cons.mp he with rfl | he
    · exact hnew _ rfl (Or.inl rfl)
    · split at he
      · simp only at he
        split at he
        · rcases List.mem_cons.mp he with rfl | he
          · exact hnew _ rfl (Or.inr rfl)
          · exact h e he
        · exact h e he
      · exact h e he
  · exact h e he

theorem SentBacked.deleteWalk {flag : String → Option Bool} {p : Int} {m m' : Mem F} (h : Backed A m)
    (hrun : deleteWalk flag p m = some m') : SentBacked A m' := by
  refine deleteWalk_walk (I := fun _ t => SentBacked A t) h.sent (fun _ _ _ _ _ _ ht => ht) ?_ hrun
  intro done d t rp _ _ _ hrp ht
  exact ht.delete (h.dst_of_hop hrp) (h.hops d p rp hrp).1 rfl

/-- What a destination walk erases takes nothing backed with it. -/
theorem Backed.erased {m m' : Mem F} (h : Backed A m) (hmaps : RecInv m') {gone : String → Prop} [DecidablePred gone]
    (hr : ∀ d, m'.r[d]? = if gone d then none else m.r[d]?) (hroute : ∀ d, m'.route[d]? = if gone d then none else m.route[d]?)
    (hlog : m'.routeLog1 = m.routeLog1) (hsent : SentBacked A m') : Backed A m' where
  maps := hmaps
  dsts := fun d hd => h.dsts d ((ExtTreeMap.mem_of_erased hr).mp hd).2
  peers := fun d q k hk => h.peers d q k (mem_peersAt_of_erased hr hk)
  hops := fun d q rp hrp => h.hops d q rp (hopAt_of_erased hroute hrp).2
  rows := by rw [hlog]; exact h.rows
  sent := hsent

/-- A reply that `A` holds of. -/
theorem Backed.receive [Dbl F] {m : Mem F} (h : Backed A m) {x : Option (Reply F)} (hx : ∀ y, x = some y → A y.src y.peerId) :
    Backed A (m.receive x) := by
  cases x with
  | none => exact h
  | some y =>
    have hy := hx y rfl
    refine ⟨h.maps.receive (some y), ?_, ?_, h.hops, h.rows, h.sent⟩
    · intro d hd
      rcases mem_record.mp hd with rfl | hd
      · exact ⟨_, hy⟩
      · exact h.dsts d hd
    · intro d q k hk
      change k ∈ peersAt (record y m.r) d q at hk
      rw [peersAt_record] at hk
      split at hk
      · next hdq =>
        rcases ExtTreeMap.mem_upd.mp hk with rfl | hk
        · rw [← hdq.1]
          exact hy
        · exact h.peers d q k hk
      · exact h.peers d q k hk

/-! ### The scan -/

variable [Dbl F]

/-- The peer of a decision is one of the round's, the one decided for before, or 0. -/
theorem orNone_scan {cfg : Config} {p : Nat} {m m' : Mem F} (h : Backed A m) (hs : ScanSpec cfg p m m') {d : String} {rp : RtParm F}
    (hrp : hopAt m'.route d p = some rp) : OrNone A d rp.currPeerId ∧ OrNone A d rp.prevPeerId := by
  by_cases hd : d ∈ m.r
  · by_cases hp : p = 0
    · subst hp
      rcases scan_decision_zero hs d with ⟨-, heq⟩ | ⟨k, v, hk, -, hrp'⟩
      · rw [hopAt_congr heq] at hrp
        exact h.hops d _ rp hrp
      · rw [Nat.cast_zero, hrp'] at hrp
        cases hrp
        exact ⟨Or.inr (h.peers d 0 k hk), Or.inl rfl⟩
    · obtain ⟨v, hrp', -⟩ := scan_decision hp hs hd
      rw [hrp'] at hrp
      cases hrp
      have hpick : OrNone A d (scanPeer cfg p m d) :=
        (pickLoop_peer cfg.pathMetric (scanThr m d) (peersAt m.r d p)).imp_right (h.peers d p _)
      cases hprev : hopAt m.route d (p - 1) with
      | none => exact ⟨hpick, Or.inl rfl⟩
      | some rp' =>
        have hkept := (h.hops d _ rp' hprev).1
        unfold chooseHop
        simp only
        split
        · exact ⟨hkept, hkept⟩
        · split
          · exact ⟨hkept, hkept⟩
          · exact ⟨hpick, hkept⟩
  · rw [hopAt_congr (hs.off d hd).1] at hrp
    exact h.hops d _ rp hrp

omit A in
/-- The row of a scan names one of the round's peers, or 0. -/
theorem scanDst_peer {cfg : Config} {p : Nat} {thr : F} {probes : Probes F} {hops : Hops F} {out : ScanOut F}
    (h : scanDst cfg p thr probes hops = some out) : out.log.peerId = 0 ∨ out.log.peerId ∈ probes.idx p := by
  by_cases hp : p = 0
  · subst hp
    have hpeer : (scanPeers cfg.pathMetric 0 thr (probes.idx (0 : Nat))).peerId = 0 ∨
        (scanPeers cfg.pathMetric 0 thr (probes.idx (0 : Nat))).peerId ∈ probes.idx (0 : Nat) := by
      simp only [scanPeers, if_true]
      split
      · exact Or.inl rfl
      · next k s rest hl =>
        exact Or.inr (ExtTreeMap.mem_of_getElem? (ExtTreeMap.mem_toList_iff_getElem?_eq_some.mp
          (show (k, s) ∈ (probes.idx (0 : Nat)).toList by rw [hl]; exact List.mem_cons_self)))
    unfold scanDst at h
    obtain ⟨row, hrow, h⟩ := Option.bind_eq_some_iff.mp h
    simp only [if_true] at h
    cases h
    unfold scanRow at hrow
    split at hrow
    · obtain ⟨tp, -, hrow⟩ := Option.bind_eq_some_iff.mp hrow
      cases hrow
      exact hpeer
    · cases hrow
      exact hpeer
  · obtain ⟨-, -, -, -, hlog, -⟩ := scanDst_pos hp h
    rw [hlog]
    exact pickLoop_peer cfg.pathMetric thr (probes.idx p)

/-- **Every phase keeps the invariant.** -/
theorem Backed.phase {cfg : Config} {p : Nat} {l : List String} {m m' : Mem F} {ph : Phase} (h : Backed A m)
    (hrun : runPhase cfg p l m ph = some m') : Backed A m' := by
  have hmaps := h.maps.phase hrun
  cases ph with
  | update =>
    have hs := update_spec hrun
    refine h.erased hmaps hs.r hs.route hs.routeLog1 ?_
    refine routeUpdate_walk (I := fun _ t => SentBacked A t) h.sent (fun _ _ _ _ _ _ ht => ht) ?_ hrun
    intro done d t hd _ _ ht
    rcases drop_sent (updHop m l p d) d t with ⟨-, hc, -⟩ | ⟨rp, hrp, -, -, hc, -⟩
    · unfold SentBacked
      rw [hc]
      exact ht
    · exact ht.delete (h.dsts d hd) (h.hops d _ rp hrp).1 hc
  | calcAvg =>
    obtain ⟨r', hr, rfl⟩ := Option.map_eq_some_iff.mp hrun
    exact ⟨hmaps, fun d hd => h.dsts d ((mem_mapPeers hr).mp hd), fun d q k hk => h.peers d q k (mem_peersAt_of_map hr hk),
      h.hops, h.rows, h.sent⟩
  | calcStddev =>
    obtain ⟨r', hr, rfl⟩ := Option.map_eq_some_iff.mp hrun
    exact ⟨hmaps, fun d hd => h.dsts d ((mem_mapPeers hr).mp hd), fun d q k hk => h.peers d q k (mem_peersAt_of_map hr hk),
      h.hops, h.rows, h.sent⟩
  | scan =>
    have hs := scan_spec hrun
    refine ⟨hmaps, fun d hd => h.dsts d ((hs.mem_r d).mp hd), fun d q k hk => h.peers d q k ((scan_mem_peers hs d q k).mp hk),
      ?_, ?_, by rw [hs.cmds]; exact h.sent⟩
    · intro d q rp hrp
      by_cases hq : (p : Int) = q
      · subst hq
        exact orNone_scan h hs hrp
      · rw [scan_hopAt_ne hs d hq] at hrp
        exact h.hops d q rp hrp
    · intro d q row hrow
      by_cases hd : d ∈ m.r
      · obtain ⟨out, hout, -, -, hlog, -⟩ := hs.dst d hd
        rw [hlog, ExtTreeMap.getElem?_insert] at hrow
        split at hrow
        · cases hrow
          exact ⟨h.dsts d hd, (scanDst_peer hout).imp_right (h.peers d p _)⟩
        · exact h.rows d q row hrow
      · rw [ExtTreeMap.idx_congr (hs.off d hd).2] at hrow
        exact h.rows d q row hrow
  | free =>
    cases hrun
    refine ⟨hmaps, fun d hd => h.dsts d ((free_mem_r m).mp hd), fun d q k hk => h.peers d q k (mem_peersAt_of_free hk), ?_,
      by rw [free_routeLog1]; exact h.rows, by rw [free_cmds]; exact h.sent⟩
    intro d q rp hrp
    have hph : runPhase cfg p l m .free = some (pfrRouteFree p m) := rfl
    rcases phase_hopAt hph hrp with hold | ⟨hph, -⟩
    · exact h.hops d q rp hold
    · cases hph
  | delete =>
    have hs := delete_spec hrun
    refine h.erased hmaps hs.r hs.route hs.routeLog1 ?_
    change pfrDelete cfg p m = some m' at hrun
    unfold pfrDelete at hrun
    split at hrun
    · cases hrun
      exact h.sent
    · exact .deleteWalk h hrun
  | man =>
    obtain ⟨hr, hroute, hlog, -⟩ := routesMan_frame hrun
    refine ⟨hmaps, by rw [hr]; exact h.dsts, by rw [hr]; exact h.peers, by rw [hroute]; exact h.hops,
      by rw [hlog]; exact h.rows, ?_⟩
    refine (routesMan_walk (I := fun _ t => SentBacked A t) h.sent ?_ hrun).1
    intro done d t rp _ _ hrp ht
    obtain ⟨hcurr, hprev⟩ := h.hops d p rp hrp
    unfold manDst
    split
    · exact ht
    · exact ht.create (h.dst_of_hop hrp) hcurr hprev

/-- **Every step of `main` and of `readloop` keeps it**, if what is received was answered. -/
theorem Backed.move {s t : State F} {e : Event F} (h : Backed A s.mem) (hm : Move s e t)
    (hsock : ∀ y, some y ∈ s.sock → A y.src y.peerId) : Backed A t.mem := by
  cases hm with
  | receive x rest hr hs =>
    refine h.receive ?_
    intro y hy
    exact hsock y (by rw [hs, hy]; exact List.mem_cons_self)
  | phase ph m hpc hrun => exact h.phase hrun
  | shutdown m hpc hrun =>
    have hs := deleteWalk_spec hrun
    exact h.erased (h.maps.deleteAll hrun) hs.r hs.route hs.routeLog1 (.deleteWalk h hrun)
  | reread cfg v hpc => exact ⟨h.maps.minRtt v, h.dsts, h.peers, h.hops, h.rows, h.sent⟩
  | _ => exact h

end Memory

/-! ## The system -/

section System
variable {clock : Timeval → Timeval → Prop} {addrOf : String → String} {getpid : Nat}

/-- A packet of the peer was sent to the destination and answered. -/
def AnsweredThrough (clock : Timeval → Timeval → Prop) (pid : Nat) (addrOf : String → String) (w : Trail) (d : String) (k : Int) : Prop :=
  ∃ x ∈ w.sent, ∃ y ∈ w.received, Answers clock pid d x y.pkt y.recv ∧ addrOf x.dst = d ∧ x.buf.payload.peerId = k

theorem AnsweredThrough.mono {pid : Nat} {w w' : Trail} (hsub : w.Sub w') (d : String) (k : Int)
    (h : AnsweredThrough clock pid addrOf w d k) : AnsweredThrough clock pid addrOf w' d k := by
  obtain ⟨x, hx, y, hy, hrest⟩ := h
  exact ⟨x, hsub.sent x hx, y, hsub.received y hy, hrest⟩

theorem answeredThrough_of_echo {pid : Nat} {w : Trail} {d : String} {q k n : Int} {rtt : ℚ} (h : EchoOf clock pid addrOf w d q k n rtt) :
    AnsweredThrough clock pid addrOf w d k := by
  obtain ⟨x, hx, y, hy, hans, hd, -, hk, -⟩ := h
  exact ⟨x, hx, y, hy, hans, hd, hk⟩

/-- The whole system keeps to what was sent and answered. -/
theorem Backed.probe {s u : Probing ℚ} {e : ProbeEvent ℚ} (ht : Traced clock (icmpId getpid) addrOf s)
    (h : Backed (AnsweredThrough clock (icmpId getpid) addrOf s.trail) s.main.mem) (hm : ProbeMove (icmpId getpid) s e u) :
    Backed (AnsweredThrough clock (icmpId getpid) addrOf u.trail) u.main.mem := by
  have hsock : ∀ y, some y ∈ s.main.sock → AnsweredThrough clock (icmpId getpid) addrOf s.trail y.src y.peerId :=
    fun y hy => answeredThrough_of_echo (ht.mem.queued y hy)
  cases hm with
  | main e t hm harr hstart hask => exact h.move hm hsock
  | start l t hm => exact h.move hm hsock
  | reader hr => exact h
  | send i x th out hth hs => exact h.mono (AnsweredThrough.mono ⟨sendStep_sent hs, fun _ => id⟩)
  | packet pkt buf recv t hm =>
    exact (h.move hm hsock).mono (AnsweredThrough.mono ⟨fun _ => id, fun _ hy => List.mem_cons_of_mem _ hy⟩)

theorem backed_path {cfg : Config} {v : ℚ} {mm : PeerMap} {s : Probing ℚ}
    (h : Lts.Path (probeStep (icmpId getpid)) (FromHosts clock (icmpId getpid) addrOf) (Probing.init cfg v mm) s) :
    Backed (AnsweredThrough clock (icmpId getpid) addrOf s.trail) s.main.mem := by
  refine Lts.Path.invariant_on (J := Traced clock (icmpId getpid) addrOf)
    (I := fun s => Backed (AnsweredThrough clock (icmpId getpid) addrOf s.trail) s.main.mem) ?_ (backed_init _ cfg v mm) ?_ h
  · exact fun t ht => traced_path ht
  · intro t e u ht hI _ hs
    exact hI.probe ht (probeMove_of_step hs)

end System

/-- **Nothing is told to gobgp, decided or logged but what was answered.** Whatever the threads,
the network and the signals do: every command ever sent, announcement or withdrawal, every
decision and every row of the log is about a destination that answered a request, and the
peer it names is 0 or one whose request that destination answered. -/
theorem told_answered {addrOf : String → String} {getpid : Nat} {cfg : Config} {v : ℚ} {mm : PeerMap} {s : Probing ℚ}
    (h : Lts.Path (probeStep (icmpId getpid)) (FromHosts AnyTime (icmpId getpid) addrOf) (Probing.init cfg v mm) s) :
    let A := AnsweredThrough AnyTime (icmpId getpid) addrOf s.trail
    (∀ e ∈ s.main.mem.cmds, (∃ k, A e.key k) ∧ OrNone A e.key e.value.peer) ∧
      (∀ (d : String) (q : Int) (rp : RtParm ℚ), hopAt s.main.mem.route d q = some rp → (∃ k, A d k) ∧
        OrNone A d rp.currPeerId ∧ OrNone A d rp.prevPeerId) ∧
      ∀ (d : String) (q : Int) (row : Tlog ℚ), (s.main.mem.routeLog1.idx d)[q]? = some (some row) →
        (∃ k, A d k) ∧ OrNone A d row.peerId := by
  intro A
  have hb := backed_path h
  refine ⟨hb.sent, ?_, hb.rows⟩
  intro d q rp hrp
  exact ⟨hb.dst_of_hop hrp, hb.hops d q rp hrp⟩

/-- A round of one thread with one destination and one request, which is answered after
20 ms. -/
def answeredRound (probeId : Int) : List (ProbeEvent ℚ) :=
  .main (.start ["198.51.100.7"]) :: List.replicate 11 (.send 0 ⟨⟨1, 990000⟩, 11, 13, [], none⟩) ++
    [.packet (replyHeader ++ ([0, 0, 0, 0] ++ (Sendbuf.bytes (icmpId 70000) ⟨0, 0, ⟨⟨1, 990000⟩, 1, probeId, 11, 13⟩, []⟩).drop 4))
      .zero ⟨2, 10000⟩, .main .receive, .main .ack, .main .ask, .main .timeout, .main .ack, .main .take] ++
    List.replicate 6 (.main .phase) ++ [.main (.signals .none), .main .phase, .main .release]

/-- In round 1 the destination is announced through peer 1, and peer 1 it answered. -/
theorem told_answered_run : ∃ s : Probing ℚ, (∃ v, Entry.set "198.51.100.7" v ∈ s.main.mem.cmds ∧ v.peer = 1) ∧
    AnsweredThrough AnyTime (icmpId 70000) id s.trail "198.51.100.7" 1 := by
  have hrun : ∃ s : Probing ℚ, Lts.Path (probeStep (icmpId 70000)) (OneHost (icmpId 70000))
      (.init { Config.default with pfrPingReq := 1 } 50000 (.ofRows [(1, ⟨"192.0.2.1", "1:1"⟩)])) s ∧
      s.main.mem.cmds = [.set "198.51.100.7" ⟨1, "192.0.2.1", "1:1"⟩] :=
    Lts.Path.exists_of_runG _ ((answeredRound 0).take 1 ++ [.reader] ++ (answeredRound 0).drop 1 ++ answeredRound 1) _
      (by decide +kernel)
  obtain ⟨s, hpath, hcmds⟩ := hrun
  obtain ⟨hsent, -⟩ := told_answered ((hpath.mono fromHosts_of_oneHost).mono FromHosts.anyTime)
  have hset : Entry.set "198.51.100.7" ⟨1, "192.0.2.1", "1:1"⟩ ∈ s.main.mem.cmds := by
    rw [hcmds]
    exact List.mem_cons_self
  refine ⟨s, ⟨_, hset, rfl⟩, ?_⟩
  rcases (hsent _ hset).2 with h0 | h1
  · cases h0
  · exact h1

end Pfr

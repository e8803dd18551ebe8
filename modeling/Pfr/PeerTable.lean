import Pfr.Records

/- Which peers the announcements and withdrawals name. Peer 0 stands for "no answer"
   and is no key of the peer table `m`, yet case 1.1 of the scan stores it as the
   current peer of a destination it has no previous decision for, where the comment
   on the cases says not to add such a destination to `route`. The call that follows
   inserts a default peer under `m[0]`, and the next round starts one sender more
   than `thrds` has room for.

   1. `PeersOk`: every decision, record, queued reply and call names a configured
      peer, and the table is the one loaded;
   2. `peersOk_move`: a step keeps it if no such newcomer is silent (`Heard`);
   3. `peers_stay_configured`: so does every run;
   4. `silent_newcomer`: where that fails the scan stores peer 0;
   5. `peer_zero_called`: a run where it reaches an announcement. -/
namespace Pfr

open Std

variable {F : Type} [Dbl F]

/-- A reply carries back the id of a peer that is in the table when it arrives. -/
def Echoed (s : State F) : Event F → Prop
  | .arrive (some x) => x.peerId ∈ s.mem.mm
  | _ => True

/-- A scan of a round p ≥ 1 hears every destination it has no previous decision for. -/
def Heard (s : State F) : Event F → Prop
  | .phase => s.pc = .phase .scan → s.probeId ≠ 0 → ∀ d ∈ s.mem.r.keys,
      (hopAt s.mem.route d (s.probeId - 1)).isNone →
        HeardBelow s.cfg.pathMetric (scanThr s.mem d) (peersAt s.mem.r d s.probeId)
  | _ => True

instance (s : State F) : (e : Event F) → Decidable (Echoed s e)
  | .arrive (some x) => inferInstanceAs (Decidable (x.peerId ∈ s.mem.mm))
  | .arrive none => .isTrue trivial
  | .receive | .timeout | .ack | .start _ | .ask | .take | .phase | .signals _ | .release => .isTrue trivial

instance (s : State F) : (e : Event F) → Decidable (Heard s e)
  | .phase => by dsimp only [Heard]; infer_instance
  | .arrive _ | .receive | .timeout | .ack | .start _ | .ask | .take | .signals _ | .release => .isTrue trivial

/-- Only the peers of the table `mm` occur anywhere. -/
structure PeersOk (mm : PeerMap) (s : State F) : Prop where
  table : s.mem.mm = mm
  peers : ∀ (d : String) (q k : Int), k ∈ peersAt s.mem.r d q → k ∈ mm
  decided : ∀ (d : String) (q : Int) (rp : RtParm F), hopAt s.mem.route d q = some rp →
    rp.currPeerId ∈ mm ∧ (rp.prevPeerId = 0 ∨ rp.prevPeerId ∈ mm)
  queued : ∀ x : Reply F, some x ∈ s.sock → x.peerId ∈ mm
  calls : ∀ c ∈ s.mem.calls, c.currPeer ∈ mm
  senders : s.senders ≤ mm.size

/-- The part of it a phase's calls can break. -/
def CallsOk (mm : PeerMap) (m : Mem F) : Prop := m.mm = mm ∧ ∀ c ∈ m.calls, c.currPeer ∈ mm

omit [Dbl F] in
/-- A withdrawal that names a peer of the table. -/
theorem CallsOk.delete {mm : PeerMap} {m m' : Mem F} (h : CallsOk mm m) {a : Int} {d : String} (ha : a ∈ mm)
    (hcalls : m'.calls = (pfrDeleteSetJrouterRt a d m).calls) (hmm : m'.mm = (pfrDeleteSetJrouterRt a d m).mm) :
    CallsOk mm m' := by
  refine ⟨?_, ?_⟩
  · rw [hmm]
    change m.mm.upd a id = mm
    rw [ExtTreeMap.upd_id_of_mem (by rw [h.1]; exact ha), h.1]
  · intro c hc
    rw [hcalls] at hc
    rcases List.mem_cons.mp hc with rfl | hc
    · exact ha
    · exact h.2 c hc

omit [Dbl F] in
theorem CallsOk.update {mm : PeerMap} {p : Int} {l : List String} {m m' : Mem F} (h : CallsOk mm m)
    (hdec : ∀ d q rp, hopAt m.route d q = some rp → rp.currPeerId ∈ mm)
    (hrun : pfrRouteUpdate p l m = some m') : CallsOk mm m' := by
  refine routeUpdate_walk (I := fun _ t => CallsOk mm t) h (fun _ _ _ _ _ _ ht => ht) ?_ hrun
  intro done d t _ _ _ ht
  rcases drop_sent (updHop m l p d) d t with ⟨hc, -, hmm, -⟩ | ⟨rp, hrp, -, hc, -, hmm⟩
  · exact ⟨by rw [hmm, ht.1], by rw [hc]; exact ht.2⟩
  · exact ht.delete (hdec d _ rp hrp) hc hmm

omit [Dbl F] in
theorem CallsOk.deleteWalk {mm : PeerMap} {flag : String → Option Bool} {p : Int} {m m' : Mem F} (h : CallsOk mm m)
    (hdec : ∀ d q rp, hopAt m.route d q = some rp → rp.currPeerId ∈ mm)
    (hrun : deleteWalk flag p m = some m') : CallsOk mm m' := by
  refine deleteWalk_walk (I := fun _ t => CallsOk mm t) h (fun _ _ _ _ _ _ ht => ht) ?_ hrun
  intro done d t rp _ _ _ hrp ht
  exact ht.delete (hdec d p rp hrp) rfl rfl

omit [Dbl F] in
theorem CallsOk.pfrDelete {mm : PeerMap} {cfg : Config} {p : Int} {m m' : Mem F} (h : CallsOk mm m)
    (hdec : ∀ d q rp, hopAt m.route d q = some rp → rp.currPeerId ∈ mm)
    (hrun : pfrDelete cfg p m = some m') : CallsOk mm m' := by
  unfold Pfr.pfrDelete at hrun
  split at hrun
  · cases hrun
    exact h
  · exact h.deleteWalk hdec hrun

omit [Dbl F] in
theorem CallsOk.man {mm : PeerMap} {cfg : Config} {p : Nat} {m m' : Mem F} (h : CallsOk mm m)
    (hdec : ∀ d q rp, hopAt m.route d q = some rp →
      rp.currPeerId ∈ mm ∧ (rp.prevPeerId = 0 ∨ rp.prevPeerId ∈ mm))
    (hrun : pfrRoutesMan cfg p m = some m') : CallsOk mm m' := by
  refine (routesMan_walk (I := fun _ t => CallsOk mm t) h ?_ hrun).1
  intro done d t rp _ _ hrp ht
  obtain ⟨hcurr, hprev⟩ := hdec d p rp hrp
  unfold manDst
  split
  · exact ht
  · refine ⟨?_, ?_⟩
    · rw [create_mm t _ d cfg p _ (by rw [ht.1]; exact hcurr) ?_, ht.1]
      intro _ hne
      rw [ht.1]
      exact hprev.resolve_left hne
    · intro c hc
      rw [create_calls] at hc
      rcases List.mem_cons.mp hc with rfl | hc
      · exact hcurr
      · exact ht.2 c hc

/-- A scan that hears its newcomers decides for configured peers. -/
theorem decided_scan {mm : PeerMap} {cfg : Config} {p : Nat} {m m' : Mem F} (hs : ScanSpec cfg p m m')
    (hpeers : ∀ (d : String) (q k : Int), k ∈ peersAt m.r d q → k ∈ mm)
    (hdec : ∀ (d : String) (q : Int) (rp : RtParm F), hopAt m.route d q = some rp →
      rp.currPeerId ∈ mm ∧ (rp.prevPeerId = 0 ∨ rp.prevPeerId ∈ mm))
    (hheard : p ≠ 0 → ∀ d ∈ m.r, (hopAt m.route d (p - 1)).isNone →
      HeardBelow cfg.pathMetric (scanThr m d) (peersAt m.r d p))
    {d : String} {q : Int} {rp : RtParm F} (hrp : hopAt m'.route d q = some rp) :
    rp.currPeerId ∈ mm ∧ (rp.prevPeerId = 0 ∨ rp.prevPeerId ∈ mm) := by
  by_cases hq : (p : Int) = q
  · subst hq
    by_cases hp : p = 0
    · subst hp
      rcases scan_decision_zero hs d with ⟨-, heq⟩ | ⟨k, v, hk, -, hrp'⟩
      · rw [hopAt_congr heq] at hrp
        exact hdec d _ rp hrp
      · rw [Nat.cast_zero, hrp'] at hrp
        cases hrp
        exact ⟨hpeers d 0 k hk, Or.inl rfl⟩
    · by_cases hd : d ∈ m.r
      · obtain ⟨v, hrp', -⟩ := scan_decision hp hs hd
        rw [hrp'] at hrp
        cases hrp
        have hfound : scanPeer cfg p m d ≠ 0 → scanPeer cfg p m d ∈ mm := by
          intro hne
          rcases pickLoop_peer cfg.pathMetric (scanThr m d) (peersAt m.r d p) with h | h
          · exact absurd h hne
          · exact hpeers d p _ h
        cases hprev : hopAt m.route d (p - 1) with
        | none =>
          -- case 1.1: the newcomer was heard, so the peer is one that answered
          have hmem := pickLoop_heard (hheard hp d hd (by rw [hprev]; rfl))
          exact ⟨hpeers d p _ hmem, Or.inl rfl⟩
        | some rp' =>
          have hprev' := (hdec d _ rp' hprev).1
          unfold chooseHop
          simp only
          split
          · exact ⟨hprev', Or.inr hprev'⟩
          · next hne =>
            split
            · exact ⟨hprev', Or.inr hprev'⟩
            · exact ⟨hfound hne, Or.inr hprev'⟩
      · rw [hopAt_congr (hs.off d hd).1] at hrp
        exact hdec d _ rp hrp
  · rw [scan_hopAt_ne hs d hq] at hrp
    exact hdec d q rp hrp

theorem PeersOk.phase {mm : PeerMap} {s : State F} {ph : Phase} {m : Mem F} (h : PeersOk mm s)
    (hG : Heard s .phase) (hpc : s.pc = .phase ph)
    (hrun : runPhase s.cfg s.probeId s.pfrList s.mem ph = some m) :
    PeersOk mm { s with mem := m, pc := ph.next } := by
  have hcurr : ∀ d q rp, hopAt s.mem.route d q = some rp → rp.currPeerId ∈ mm :=
    fun d q rp hrp => (h.decided d q rp hrp).1
  have hcalls : CallsOk mm m := by
    have h0 : CallsOk mm s.mem := ⟨h.table, h.calls⟩
    cases ph with
    | update => exact h0.update hcurr hrun
    | calcAvg => obtain ⟨r', -, rfl⟩ := Option.map_eq_some_iff.mp hrun; exact h0
    | calcStddev => obtain ⟨r', -, rfl⟩ := Option.map_eq_some_iff.mp hrun; exact h0
    | scan =>
      have hs := scan_spec hrun
      exact ⟨by rw [hs.mm, h.table], by rw [hs.calls]; exact h.calls⟩
    | free =>
      cases hrun
      exact ⟨by rw [free_mm, h.table], by rw [free_calls]; exact h.calls⟩
    | delete => exact h0.pfrDelete hcurr hrun
    | man => exact h0.man h.decided hrun
  refine ⟨hcalls.1, fun d q k hk => h.peers d q k (phase_peers hrun hk), ?_, h.queued, hcalls.2, h.senders⟩
  intro d q rp hrp
  rcases phase_hopAt hrun hrp with hold | ⟨hph, -⟩
  · exact h.decided d q rp hold
  · subst hph
    refine decided_scan (scan_spec hrun) h.peers h.decided ?_ hrp
    exact fun hp d hd hnone => hG hpc hp d (ExtTreeMap.mem_keys.mpr hd) hnone

/-- **Every step keeps to the configured peers.** -/
theorem peersOk_move {mm : PeerMap} {s t : State F} {e : Event F} (h : PeersOk mm s) (hecho : Echoed s e)
    (hheard : Heard s e) (hm : Move s e t) : PeersOk mm t := by
  cases hm with
  | arrive x =>
    refine ⟨h.table, h.peers, h.decided, ?_, h.calls, h.senders⟩
    intro y hy
    rcases List.mem_append.mp hy with hy | hy
    · exact h.queued y hy
    · rw [List.mem_singleton] at hy
      subst hy
      rw [← h.table]
      exact hecho
  | receive x rest hr hsock =>
    have hrest : ∀ y, some y ∈ rest → y.peerId ∈ mm :=
      fun y hy => h.queued y (by rw [hsock]; exact List.mem_cons_of_mem _ hy)
    cases x with
    | none => exact ⟨h.table, h.peers, h.decided, hrest, h.calls, h.senders⟩
    | some x =>
      refine ⟨h.table, ?_, h.decided, hrest, h.calls, h.senders⟩
      intro d q k hk
      change k ∈ peersAt (record x s.mem.r) d q at hk
      rw [peersAt_record] at hk
      split at hk
      · rcases ExtTreeMap.mem_upd.mp hk with rfl | hk
        · exact h.queued x (by rw [hsock]; exact List.mem_cons_self)
        · exact h.peers d q k hk
      · exact h.peers d q k hk
  | start l hpc => exact ⟨h.table, h.peers, h.decided, h.queued, h.calls, by simp only; rw [h.table]⟩
  | phase ph m hpc hrun => exact h.phase hheard hpc hrun
  | shutdown m hpc hrun =>
    have hs := deleteWalk_spec hrun
    have hc : CallsOk mm m := CallsOk.deleteWalk ⟨h.table, h.calls⟩ (fun d q rp hrp => (h.decided d q rp hrp).1) hrun
    exact ⟨hc.1, fun d q k hk => h.peers d q k (mem_peersAt_of_erased hs.r hk),
      fun d q rp hrp => h.decided d q rp (hopAt_of_erased hs.route hrp).2, h.queued, hc.2, h.senders⟩
  | _ => exact ⟨h.table, h.peers, h.decided, h.queued, h.calls, h.senders⟩

omit [Dbl F] in
theorem peersOk_init (cfg : Config) (v : F) (mm : PeerMap) : PeersOk mm (State.init cfg v mm) where
  table := rfl
  peers := fun _ _ _ hk => absurd (mem_of_mem_peersAt hk) ExtTreeMap.not_mem_empty
  decided := fun _ _ _ hrp => absurd (mem_of_hopAt hrp) ExtTreeMap.not_mem_empty
  queued := nofun
  calls := nofun
  senders := Nat.zero_le _

/-- **Only configured peers are ever used**, in every run whose replies carry back
ids of the table and whose scans hear every newcomer: the calls name keys of the
table, which never changes, and no round starts more senders than it had rows. -/
theorem peers_stay_configured {cfg : Config} {v : F} {mm : PeerMap} {s : State F}
    (h : Lts.Path step (fun s e => Echoed s e ∧ Heard s e) (State.init cfg v mm) s) :
    (∀ c ∈ s.mem.calls, c.currPeer ∈ mm) ∧ s.mem.mm = mm ∧ s.senders ≤ mm.size := by
  have hok : PeersOk mm s :=
    Path.preserves (peersOk_init cfg v mm) (fun _ _ _ hI hG _ hm => peersOk_move hI hG.1 hG.2 hm) h
  exact ⟨hok.calls, hok.table, hok.senders⟩

/-- A destination answers, falls silent for a round and answers late. -/
theorem peers_stay_configured_run : ∃ s : State ℚ,
    Lts.Path step (fun s e => Echoed s e ∧ Heard s e) (State.boot [(1, ⟨"192.0.2.1", "1:1"⟩)]) s ∧
      (s.probeId = 3 ∧ s.mem.calls.length = 3) ∧
      ∀ c ∈ s.mem.calls, c.currPeer ∈ PeerMap.ofRows [(1, ⟨"192.0.2.1", "1:1"⟩)] := by
  obtain ⟨s, hs, hend⟩ := exists_run (G := fun s e => Echoed s e ∧ Heard s e)
    (State.boot (F := ℚ) [(1, ⟨"192.0.2.1", "1:1"⟩)])
    (roundEvents ["198.51.100.7"] [⟨"198.51.100.7", 0, 1, 1, 20, 0⟩] ++ roundEvents ["198.51.100.7"] [] ++
      roundEvents ["198.51.100.7"] [⟨"198.51.100.7", 1, 1, 1, 30, 1⟩])
    (fun s => s.probeId = 3 ∧ s.mem.calls.length = 3) (by decide +kernel)
  exact ⟨s, hs, hend, (peers_stay_configured hs).1⟩

/-- A newcomer none of whose peers is heard below the cut-off, and none at all when
nothing is recorded for the round, is given peer 0. -/
theorem silent_newcomer {cfg : Config} {p : Nat} (hp : p ≠ 0) {m m' : Mem F} (hs : ScanSpec cfg p m m') {d : String}
    (hd : d ∈ m.r) (hnew : hopAt m.route d (p - 1) = none) (hsilent : peersAt m.r d p = ∅) :
    ∃ v, hopAt m'.route d p = some ⟨0, v, 0, v⟩ := by
  obtain ⟨v, hrp, -⟩ := scan_decision hp hs hd
  refine ⟨v, ?_⟩
  rw [hrp, hnew, scanPeer, hsilent]
  rfl

/-- The only reply for probe 0 comes in round 1. The scan of round 1 gives the
destination peer 0, the announcement inserts it into the table, and round 2 starts
two senders for a table of one row. -/
theorem peer_zero_called : ¬∀ s : State ℚ,
    Lts.Path step Echoed (State.boot [(1, ⟨"192.0.2.1", "1:1"⟩)]) s →
      (∀ c ∈ s.mem.calls, c.currPeer ∈ PeerMap.ofRows [(1, ⟨"192.0.2.1", "1:1"⟩)]) ∧
        s.senders ≤ (PeerMap.ofRows [(1, ⟨"192.0.2.1", "1:1"⟩)]).size := by
  intro hall
  obtain ⟨s, hs, -, hsenders⟩ := exists_run (G := Echoed) (State.boot (F := ℚ) [(1, ⟨"192.0.2.1", "1:1"⟩)])
    (roundEvents ["198.51.100.7"] [] ++ roundEvents ["198.51.100.7"] [⟨"198.51.100.7", 0, 1, 1, 20, 0⟩] ++
      [.start ["198.51.100.7"]])
    (fun s => Call.create 1 0 0 "198.51.100.7" ∈ s.mem.calls ∧
      (PeerMap.ofRows [(1, ⟨"192.0.2.1", "1:1"⟩)]).size < s.senders) (by decide +kernel)
  have := (hall s hs).2
  omega

end Pfr

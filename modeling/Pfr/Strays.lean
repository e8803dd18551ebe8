import Pfr.Backed
import Pfr.Community

/- The rows behind the commands. `m` is loaded once, but every `mm[id]` of the router calls
   inserts a row where there is none, and `main` starts one thread a row into `thrds`, which
   has a place for each row loaded. What is looked up comes from decisions, these from
   replies, and replies from what the threads sent.

   1. `Tabled`: the ids of the table, and what the commands say of their peers; a phase keeps
      it as long as the decisions name rows loaded, or 0;
   2. `Confined`: the whole system keeps to the rows loaded and 0;
   3. `table_gains_zero`: so at most one thread more is started than `thrds` has room for;
   4. `rpc_of_rows`: over gRPC every command carries its peer's row, and one about peer 0,
      whose row is empty, ends in an exception. -/
namespace Pfr

open Std Journal

/-- A peer of the table, or 0. -/
def RowOrZero (mm : PeerMap) (k : Int) : Prop := k ∈ mm ∨ k = 0

/-! ## The table -/

section Memory
variable {F : Type} {mm : PeerMap}

structure Tabled (mm : PeerMap) (m : Mem F) : Prop where
  gained : ∀ k, k ∈ m.mm → RowOrZero mm k
  via : ∀ k, viaOf m.mm k = viaOf mm k
  told : ∀ e ∈ m.cmds, e.value = viaOf mm e.value.peer

theorem Tabled.congr {m m' : Mem F} (h : Tabled mm m) (hmm : m'.mm = m.mm) (hcmds : m'.cmds = m.cmds) : Tabled mm m' where
  gained := by rw [hmm]; exact h.gained
  via := by rw [hmm]; exact h.via
  told := by rw [hcmds]; exact h.told

theorem mem_upd_id {m : PeerMap} {a k : Int} (h : k ∈ m.upd a id) : k = a ∨ k ∈ m := by
  rcases ExtTreeMap.mem_upd.mp h with rfl | h
  · exact Or.inl rfl
  · exact Or.inr h

theorem Tabled.withdraw {m m' : Mem F} (h : Tabled mm m) {a : Int} (ha : RowOrZero mm a) {d : String}
    (hmm : m'.mm = (pfrDeleteSetJrouterRt a d m).mm) (hcmds : m'.cmds = (pfrDeleteSetJrouterRt a d m).cmds) :
    Tabled mm m' where
  gained := by
    intro k hk
    rw [hmm] at hk
    rcases mem_upd_id hk with rfl | hk
    · exact ha
    · exact h.gained k hk
  via := by
    intro k
    rw [hmm, viaOf_delete]
    exact h.via k
  told := by
    intro e he
    rw [hcmds] at he
    rcases List.mem_cons.mp he with rfl | he
    · exact h.via a
    · exact h.told e he

/-- A call looks up its two peers. -/
theorem mem_create_mm {m : Mem F} {cfg : Config} {p : Nat} {prev a k : Int} {d : String}
    (hk : k ∈ (pfrCreateSetJrouterRt cfg p prev a d m).mm) : k = a ∨ k = prev ∨ k ∈ m.mm := by
  unfold pfrCreateSetJrouterRt withdrawPrev at hk
  split at hk
  · split at hk
    · rcases mem_upd_id hk with rfl | hk
      · exact Or.inr (Or.inl rfl)
      · exact (mem_upd_id hk).imp_right Or.inr
    · exact (mem_upd_id hk).imp_right Or.inr
  · exact Or.inr (Or.inr hk)

theorem mem_createCmds {cfg : Config} {p : Nat} {prev a : Int} {d : String} {via : Int → Via} {e : Entry String Via}
    (he : e ∈ createCmds cfg p prev a d via) : e = .set d (via a) ∨ e = .unset d (via prev) := by
  unfold createCmds at he
  split at he
  · rcases List.mem_cons.mp he with rfl | he
    · exact Or.inl rfl
    · split at he
      · exact Or.inr (List.mem_singleton.mp he)
      · cases he
  · cases he

theorem Tabled.create {m : Mem F} (h : Tabled mm m) {cfg : Config} {p : Nat} {prev a : Int} (ha : RowOrZero mm a)
    (hprev : RowOrZero mm prev) (d : String) : Tabled mm (pfrCreateSetJrouterRt cfg p prev a d m) where
  gained := by
    intro k hk
    rcases mem_create_mm hk with rfl | rfl | hk
    · exact ha
    · exact hprev
    · exact h.gained k hk
  via := by
    intro k
    rw [viaOf_create]
    exact h.via k
  told := by
    intro e he
    rw [create_cmds] at he
    rcases List.mem_append.mp he with he | he
    · rcases mem_createCmds he with rfl | rfl
      · exact h.via a
      · exact h.via prev
    · exact h.told e he

theorem Tabled.deleteWalk {m m' : Mem F} {flag : String → Option Bool} {p : Int} (h : Tabled mm m)
    (hhops : ∀ (d : String) (q : Int) (rp : RtParm F), hopAt m.route d q = some rp →
      RowOrZero mm rp.currPeerId ∧ RowOrZero mm rp.prevPeerId)
    (hrun : deleteWalk flag p m = some m') : Tabled mm m' := by
  refine deleteWalk_walk (I := fun _ t => Tabled mm t) h (fun _ _ _ _ _ _ ht => ht) ?_ hrun
  intro done d t rp _ _ _ hrp ht
  exact ht.withdraw (hhops d p rp hrp).1 rfl rfl

variable [Dbl F]

/-- **A phase keeps the table to the rows loaded and 0**, if its decisions name no others. -/
theorem Tabled.phase {cfg : Config} {p : Nat} {l : List String} {m m' : Mem F} {ph : Phase} (h : Tabled mm m)
    (hhops : ∀ (d : String) (q : Int) (rp : RtParm F), hopAt m.route d q = some rp →
      RowOrZero mm rp.currPeerId ∧ RowOrZero mm rp.prevPeerId)
    (hrun : runPhase cfg p l m ph = some m') : Tabled mm m' := by
  cases ph with
  | update =>
    refine routeUpdate_walk (I := fun _ t => Tabled mm t) h (fun _ _ _ _ _ _ ht => ht) ?_ hrun
    intro done d t _ _ _ ht
    rcases drop_sent (updHop m l p d) d t with ⟨-, hc, hmm, -⟩ | ⟨rp, hrp, -, -, hc, hmm⟩
    · exact ht.congr hmm hc
    · exact ht.withdraw (hhops d _ rp hrp).1 hmm hc
  | calcAvg =>
    obtain ⟨r', -, rfl⟩ := Option.map_eq_some_iff.mp hrun
    exact h.congr rfl rfl
  | calcStddev =>
    obtain ⟨r', -, rfl⟩ := Option.map_eq_some_iff.mp hrun
    exact h.congr rfl rfl
  | scan => exact h.congr (scan_spec hrun).mm (scan_spec hrun).cmds
  | free =>
    cases hrun
    exact h.congr (free_mm m) (free_cmds m)
  | delete =>
    change pfrDelete cfg p m = some m' at hrun
    unfold pfrDelete at hrun
    split at hrun
    · cases hrun
      exact h
    · exact h.deleteWalk hhops hrun
  | man =>
    refine (routesMan_walk (I := fun _ t => Tabled mm t) h ?_ hrun).1
    intro done d t rp _ _ hrp ht
    unfold manDst
    split
    · exact ht
    · exact ht.create (hhops d p rp hrp).1 (hhops d p rp hrp).2 d

theorem Tabled.move {s t : State F} {e : Event F} (h : Tabled mm s.mem)
    (hhops : ∀ (d : String) (q : Int) (rp : RtParm F), hopAt s.mem.route d q = some rp →
      RowOrZero mm rp.currPeerId ∧ RowOrZero mm rp.prevPeerId)
    (hm : Move s e t) : Tabled mm t.mem := by
  cases hm with
  | receive x rest hr hsock => cases x <;> exact h.congr rfl rfl
  | phase ph m hpc hrun => exact h.phase hhops hrun
  | shutdown m hpc hrun => exact h.deleteWalk hhops hrun
  | reread cfg v hpc => exact h.congr rfl rfl
  | _ => exact h

end Memory

/-! ## The system -/

section System
variable {clock : Timeval → Timeval → Prop} {addrOf : String → String} {getpid : Nat} {mm : PeerMap}

/-- Threads are started, and packets sent, for the rows loaded and 0 only. -/
structure Confined (mm : PeerMap) (s : Probing ℚ) : Prop where
  table : Tabled mm s.main.mem
  rounds : ∀ rd ∈ s.rounds, ∀ k ∈ rd.peers, RowOrZero mm k
  senders : s.senders.length ≤ mm.size + 1

theorem confined_init (cfg : Config) (v : ℚ) (mm : PeerMap) : Confined mm (Probing.init cfg v mm) where
  table := ⟨fun _ => Or.inl, fun _ => rfl, nofun⟩
  rounds := nofun
  senders := Nat.zero_le _

/-- Of what was sent, all is about rows loaded, or 0. -/
theorem Confined.sent {s : Probing ℚ} (h : Confined mm s) (ht : Traced clock (icmpId getpid) addrOf s) :
    ∀ x ∈ s.shared.sent, RowOrZero mm x.buf.payload.peerId := by
  intro x hx
  obtain ⟨rd, hrd, hasked⟩ := ht.asked x hx
  exact h.rounds rd hrd _ hasked.payload.peer

/-- So are the decisions: their peers were sent to and answered. -/
theorem Confined.hops {s : Probing ℚ} (h : Confined mm s) (ht : Traced clock (icmpId getpid) addrOf s)
    (hb : Backed (AnsweredThrough clock (icmpId getpid) addrOf s.trail) s.main.mem) {d : String} {q : Int} {rp : RtParm ℚ}
    (hrp : hopAt s.main.mem.route d q = some rp) : RowOrZero mm rp.currPeerId ∧ RowOrZero mm rp.prevPeerId := by
  have hrow : ∀ k, OrNone (AnsweredThrough clock (icmpId getpid) addrOf s.trail) d k → RowOrZero mm k := by
    intro k hk
    rcases hk with h0 | ⟨x, hx, -, -, -, -, rfl⟩
    · exact Or.inr h0
    · exact h.sent ht x hx
  exact ⟨hrow _ (hb.hops d q rp hrp).1, hrow _ (hb.hops d q rp hrp).2⟩

/-- The table has one row more at most. -/
theorem Tabled.size_le {m : Mem ℚ} (h : Tabled mm m) : m.mm.size ≤ mm.size + 1 := by
  have hsub : m.mm.keys ⊆ 0 :: mm.keys := by
    intro k hk
    rcases h.gained k (ExtTreeMap.mem_keys.mp hk) with hmem | rfl
    · exact List.mem_cons_of_mem _ (ExtTreeMap.mem_keys.mpr hmem)
    · exact List.mem_cons_self
  have hlen := (List.subperm_of_subset ExtTreeMap.nodup_keys hsub).length_le
  simpa using hlen

theorem Confined.move {s u : Probing ℚ} {e : ProbeEvent ℚ} (h : Confined mm s) (ht : Traced clock (icmpId getpid) addrOf s)
    (hb : Backed (AnsweredThrough clock (icmpId getpid) addrOf s.trail) s.main.mem) (hm : ProbeMove (icmpId getpid) s e u) :
    Confined mm u := by
  have hmain : ∀ e t, Move s.main e t → Tabled mm t.mem := fun e t => h.table.move fun d q rp hrp => h.hops ht hb hrp
  cases hm with
  | main e t hm harr hstart hask => exact ⟨hmain e t hm, h.rounds, h.senders⟩
  | start l t hm =>
    refine ⟨hmain _ t hm, ?_, ?_⟩
    · intro rd hrd k hk
      rcases List.mem_cons.mp hrd with rfl | hrd
      · exact h.table.gained k (ExtTreeMap.mem_keys.mp hk)
      · exact h.rounds rd hrd k hk
    · show (s.main.mem.mm.keys.map _).length ≤ _
      rw [List.length_map, ExtTreeMap.length_keys]
      exact h.table.size_le
  | reader hr => exact ⟨h.table, h.rounds, h.senders⟩
  | send i x th out hth hs => exact ⟨h.table, h.rounds, by rw [Probing.sending, List.length_set]; exact h.senders⟩
  | packet pkt buf recv t hm => exact ⟨hmain _ t hm, h.rounds, h.senders⟩

theorem confined_path {cfg : Config} {v : ℚ} {s : Probing ℚ}
    (h : Lts.Path (probeStep (icmpId getpid)) (FromHosts clock (icmpId getpid) addrOf) (Probing.init cfg v mm) s) : Confined mm s := by
  refine Lts.Path.invariant_on
    (J := fun s => Traced clock (icmpId getpid) addrOf s ∧ Backed (AnsweredThrough clock (icmpId getpid) addrOf s.trail) s.main.mem)
    (I := Confined mm) ?_ (confined_init cfg v mm) ?_ h
  · exact fun t ht => ⟨traced_path ht, backed_path ht⟩
  · intro t e u ht hI _ hs
    exact hI.move ht.1 ht.2 (probeMove_of_step hs)

end System

/-- **The peer table gains at most the row of peer 0**, so at most one thread more is started
than `thrds` has room for. Whatever the threads, the network and the signals do, every
packet sent carries the id of a row loaded, or 0; every command names one, and carries the
next hop and the community of the row that was loaded. -/
theorem table_gains_zero {addrOf : String → String} {getpid : Nat} {cfg : Config} {v : ℚ} {mm : PeerMap} {s : Probing ℚ}
    (h : Lts.Path (probeStep (icmpId getpid)) (FromHosts AnyTime (icmpId getpid) addrOf) (Probing.init cfg v mm) s) :
    (∀ k, k ∈ s.main.mem.mm → k ∈ mm ∨ k = 0) ∧ s.senders.length ≤ mm.size + 1 ∧
      (∀ x ∈ s.shared.sent, x.buf.payload.peerId ∈ mm ∨ x.buf.payload.peerId = 0) ∧
      ∀ e ∈ s.main.mem.cmds, (e.value.peer ∈ mm ∨ e.value.peer = 0) ∧ e.value = viaOf mm e.value.peer := by
  have hc := confined_path h
  have ht := traced_path h
  refine ⟨hc.table.gained, hc.senders, hc.sent ht, ?_⟩
  intro e he
  refine ⟨?_, hc.table.told e he⟩
  rcases ((backed_path h).sent e he).2 with h0 | ⟨x, hx, -, -, -, -, hk⟩
  · exact Or.inr h0
  · have hrow := hc.sent ht x hx
    rwa [hk] at hrow

/-- The answer to the request of round 0 comes while the thread of round 1 is at work. -/
def answeredLate : List (ProbeEvent ℚ) :=
  (answeredRound 0).take 1 ++ [.reader] ++ ((answeredRound 0).take 12).drop 1 ++ (answeredRound 0).drop 15 ++
    (answeredRound 1).take 12 ++ ((answeredRound 0).drop 12).take 3 ++ (answeredRound 1).drop 15

/-- Round 0 is answered in round 1 only: the scan of round 1 hears nobody and decides for peer
0, whose row the announcement inserts. Round 2 starts two threads for a table of one row. -/
theorem table_gains_zero_run : ∃ s : Probing ℚ, s.senders.length = 2 ∧ s.main.mem.cmds.map (·.value.peer) = [0] ∧
    s.senders.length ≤ (PeerMap.ofRows [(1, ⟨"192.0.2.1", "1:1"⟩)]).size + 1 := by
  have hrun : ∃ s : Probing ℚ, Lts.Path (probeStep (icmpId 70000)) (OneHost (icmpId 70000))
      (.init { Config.default with pfrPingReq := 1 } 50000 (.ofRows [(1, ⟨"192.0.2.1", "1:1"⟩)])) s ∧
      (s.senders.length = 2 ∧ s.main.mem.cmds.map (·.value.peer) = [0]) :=
    Lts.Path.exists_of_runG _ (answeredLate ++ [.main (.start ["198.51.100.7"])]) _
      (by decide +kernel)
  obtain ⟨s, hpath, htwo, hcmds⟩ := hrun
  exact ⟨s, htwo, hcmds, (table_gains_zero ((hpath.mono fromHosts_of_oneHost).mono FromHosts.anyTime)).2.1⟩

/-! ## The calls of gobgp's client -/

/-- The text of a community whose word `add_route4` computes without an overflow. -/
def InRange (comm : String) : Prop :=
  ∃ (hs ls : CText.Text) (h l : Nat), comm = String.ofList (hs ++ ':' :: ls) ∧ Decimal hs h ∧ Decimal ls l ∧ h ≤ 32767 ∧ l ≤ 65535

/-- The word has the two numbers of the text. -/
def WordOf (comm : String) (word : UInt32) : Prop :=
  ∃ (hs ls : CText.Text) (h l : Nat), comm = String.ofList (hs ++ ':' :: ls) ∧ Decimal hs h ∧ Decimal ls l ∧
    word.toNat = h * 65536 + l

/-- The message for a command: an announcement adds its path, a withdrawal deletes it. -/
def rpcFor : Entry String Via → Path → Rpc
  | .set _ _, path => .addPath ⟨.global, path⟩
  | .unset _ _, path => .deletePath ⟨.global, path⟩

theorem grpcCall_eq (e : Entry String Via) :
    grpcCall e = (commInt e.value.comm.toList).map fun cm => rpcFor e (path4 e.key e.value.nh cm) := by
  cases e with
  | set d via => exact addRoute4_eq d via.nh via.comm
  | unset d via => exact delRoute4_eq d via.nh via.comm

/-- The empty row has no community: `std::stoi` throws. -/
theorem commInt_empty : commInt "".toList = .error .thrown := by decide

/-- A row in range gives the word of its community. -/
theorem commInt_of_inRange {comm : String} (h : InRange comm) : ∃ cm, commInt comm.toList = .ok cm ∧ WordOf comm (UInt32.ofInt cm) := by
  obtain ⟨hs, ls, h, l, rfl, hh, hl, hle, lle⟩ := h
  refine ⟨(h : Int) * 65536 + l, ?_, hs, ls, h, l, rfl, hh, hl, ofInt_halves (by omega) lle⟩
  rw [String.toList_ofList, commInt_of_halves hh hl (by omega) lle, if_pos hle]

/-- **What the gRPC client is told is the peer's row.** For a table with communities in range,
whatever the threads, the network and the signals do: every command names a row loaded and
becomes the message for its destination with that row's next hop and community; or it is
about peer 0, and the client throws before it sends anything. -/
theorem rpc_of_rows {addrOf : String → String} {getpid : Nat} {cfg : Config} {v : ℚ} {mm : PeerMap} {s : Probing ℚ}
    (hrows : ∀ (k : Int) (row : PfrPeer), mm[k]? = some row → InRange row.peerCommunity) (hzero : (0 : Int) ∉ mm)
    (h : Lts.Path (probeStep (icmpId getpid)) (FromHosts AnyTime (icmpId getpid) addrOf) (Probing.init cfg v mm) s)
    {e : Entry String Via} (he : e ∈ s.main.mem.cmds) :
    (e.value.peer = 0 ∧ grpcCall e = .error .thrown) ∨
      ∃ row cm, mm[e.value.peer]? = some row ∧ grpcCall e = .ok (rpcFor e (path4 e.key row.ipv4PeerAddress cm)) ∧
        WordOf row.peerCommunity (UInt32.ofInt cm) := by
  have htold := (confined_path h).table.told e he
  rw [grpcCall_eq]
  have hrow : e.value.peer ∈ mm ∨ e.value.peer = 0 := by
    rcases ((backed_path h).sent e he).2 with h0 | ⟨x, hx, -, -, -, -, hk⟩
    · exact Or.inr h0
    · have hrow := (confined_path h).sent (traced_path h) x hx
      rwa [hk] at hrow
  rcases hrow with hmem | h0
  · right
    obtain ⟨row, hrow⟩ := ExtTreeMap.exists_getElem? hmem
    have hidx := ExtTreeMap.idx_of_getElem? hrow
    obtain ⟨cm, hcm, hword⟩ := commInt_of_inRange (hrows _ _ hrow)
    have hcomm : e.value.comm = row.peerCommunity := by rw [htold, viaOf, hidx]
    have hnh : e.value.nh = row.ipv4PeerAddress := by rw [htold, viaOf, hidx]
    refine ⟨row, cm, hrow, ?_, hword⟩
    rw [hcomm, hnh, hcm]
    rfl
  · left
    have hcomm : e.value.comm = "" := by
      rw [htold, viaOf, h0, ExtTreeMap.idx_of_not_mem hzero]
      rfl
    refine ⟨h0, ?_⟩
    rw [hcomm, commInt_empty]
    rfl

/-- Peer 1 is announced with the word of 1:1. -/
theorem rpc_of_rows_run : ∃ s : Probing ℚ, ∃ e ∈ s.main.mem.cmds, e.value.peer = 1 ∧ ∃ cm, WordOf "1:1" (UInt32.ofInt cm) ∧
    grpcCall e = .ok (rpcFor e (path4 "198.51.100.7" "192.0.2.1" cm)) := by
  have hrun : ∃ s : Probing ℚ, Lts.Path (probeStep (icmpId 70000)) (OneHost (icmpId 70000))
      (.init { Config.default with pfrPingReq := 1 } 50000 (.ofRows [(1, ⟨"192.0.2.1", "1:1"⟩)])) s ∧
      s.main.mem.cmds = [.set "198.51.100.7" ⟨1, "192.0.2.1", "1:1"⟩] :=
    Lts.Path.exists_of_runG _ ((answeredRound 0).take 1 ++ [.reader] ++ (answeredRound 0).drop 1 ++ answeredRound 1) _
      (by decide +kernel)
  obtain ⟨s, hpath, hcmds⟩ := hrun
  have hone : ∀ (k : Int) (row : PfrPeer), (PeerMap.ofRows [(1, ⟨"192.0.2.1", "1:1"⟩)])[k]? = some row →
      k = 1 ∧ row = ⟨"192.0.2.1", "1:1"⟩ := by
    intro k row hk
    have hget : (PeerMap.ofRows [(1, ⟨"192.0.2.1", "1:1"⟩)])[k]? = if (1 : Int) = k then some ⟨"192.0.2.1", "1:1"⟩ else none := by
      simp [PeerMap.ofRows, ExtTreeMap.getElem?_insertIfNew]
    rw [hget] at hk
    split at hk
    · next h1 => exact ⟨h1.symm, (Option.some.inj hk).symm⟩
    · cases hk
  have hrange : ∀ (k : Int) (row : PfrPeer), (PeerMap.ofRows [(1, ⟨"192.0.2.1", "1:1"⟩)])[k]? = some row →
      InRange row.peerCommunity := by
    intro k row hk
    rw [(hone k row hk).2]
    exact ⟨['1'], ['1'], 1, 1, rfl, ⟨by decide, by decide⟩, ⟨by decide, by decide⟩, by decide, by decide⟩
  have hset : Entry.set "198.51.100.7" ⟨1, "192.0.2.1", "1:1"⟩ ∈ s.main.mem.cmds := by
    rw [hcmds]
    exact List.mem_cons_self
  refine ⟨s, _, hset, rfl, ?_⟩
  rcases rpc_of_rows hrange (by decide +kernel) ((hpath.mono fromHosts_of_oneHost).mono FromHosts.anyTime) hset with ⟨h0, -⟩ | ⟨row, cm, hrow, hcall, hword⟩
  · cases h0
  · obtain ⟨-, rfl⟩ := hone _ _ hrow
    exact ⟨cm, hword, hcall⟩

end Pfr

import Pfr.Owned
import Pfr.Paths

/- The objects over whole runs. `main` frees records while `readloop` may record more, the
   average overwrites the pointer at key 99, and `pfr_route_free` deletes a decision two
   rounds after it was made; here the steps of both parties run on pointers and objects.

   1. `phase_follows`: every phase does to the objects what it does to the values;
   2. `HeapInv.step`: what every step keeps, and that no step fails for its objects;
   3. `no_dangling`: the daemon never reads, writes or deletes an object that is gone;
   4. `objects_accounted`: what is live is stored, but for the replies numbered 99 that an
      average found: these, and no others, are lost;
   5. `nothing_lost`: with no such reply nothing is. -/
namespace Pfr

open Std Own

variable {F : Type} [Dbl F]

/-! ## Phases -/

/-- The records a phase leaves without a pointer. -/
def lostAt (ph : Phase) (p : Int) (r : RData F) : Nat := if ph = .calcAvg then peersSum overwritten p r else 0

/-- Before the scan of round `p` nothing of the round is stored in `route` and in the log. -/
structure Undecided (p : Int) (m : Mem F) : Prop where
  hop : ∀ d, (m.route.idx d).idx p = none
  row : ∀ d, (m.routeLog1.idx d).idx p = none

/-- **Every phase does to the objects what it does to the values.** -/
theorem phase_follows {w : PtrMem F} {m m' : Mem F} {cfg : Config} {p : Nat} {l : List String} {ph : Phase} (ho : Holds w m)
    (hsub : HopsSub m) (hscan : ph = .scan → Undecided p m) (h : runPhase cfg p l m ph = some m') :
    ∃ w', runPhasePtr cfg p l w ph = some w' ∧ Follows w w' m' (lostAt ph p m.r) := by
  cases ph with
  | update => exact routeUpdate_follows ho hsub h
  | calcAvg =>
    obtain ⟨r', hr, rfl⟩ := Option.map_eq_some_iff.mp h
    exact mapPeers_follows (calcPeer_follows cfg) ho hr
  | calcStddev =>
    obtain ⟨r', hr, rfl⟩ := Option.map_eq_some_iff.mp h
    have hzero : peersSum (fun _ : Samples F => 0) p m.r = 0 := by simp [peersSum]
    have hf := mapPeers_follows stddevPeer_follows ho hr
    rwa [hzero] at hf
  | scan => exact scan_follows ho (hscan rfl).hop (hscan rfl).row h
  | free =>
    cases h
    exact routeFree_follows p ho
  | delete => exact delete_follows ho hsub h
  | man => exact routesMan_follows ho h

/-! ## Rounds -/

/-- Round `q` is over, or its scan is. -/
def Dated (s : State F) (q : Int) : Prop := q < s.probeId ∨ (s.pc.scanned = true ∧ q = s.probeId)

omit [Dbl F] in
theorem Dated.older {s : State F} {q : Int} (h : Dated s q) (hs : s.pc.scanned = false) : q < s.probeId := by
  rcases h with hlt | ⟨hsc, -⟩
  · exact hlt
  · rw [hs] at hsc
    cases hsc

omit [Dbl F] in
theorem Dated.scanned {s t : State F} {q : Int} (h : Dated s q) (hp : t.probeId = s.probeId) (ht : t.pc.scanned = true) :
    Dated t q := by
  rcases h with hlt | ⟨-, hq⟩
  · exact Or.inl (by rw [hp]; exact hlt)
  · exact Or.inr ⟨ht, by rw [hp]; exact hq⟩

/-- No step takes a scan back. -/
theorem Dated.move {s t : State F} {e : Event F} {q : Int} (h : Dated s q) (hm : Move s e t) : Dated t q := by
  cases hm with
  | start l hpc => exact Or.inl (h.older (by rw [hpc]; rfl))
  | ask hpc => exact Or.inl (h.older (by rw [hpc]; rfl))
  | take hpc _ => exact Or.inl (h.older (by rw [hpc]; rfl))
  | skip hpc _ =>
    have := h.older (by rw [hpc]; rfl)
    left
    simp only
    omega
  | phase ph m hpc hrun =>
    rcases h with hlt | ⟨hsc, hq⟩
    · exact Or.inl hlt
    · -- a phase after the scan is followed by one
      refine Or.inr ⟨?_, hq⟩
      rw [hpc] at hsc
      cases ph <;> first | rfl | cases hsc
  | resume hpc => exact h.scanned rfl (clear_scanned s)
  | shutdown m hpc hrun => exact h.scanned rfl rfl
  | reread cfg v hpc => exact h.scanned rfl (clear_scanned _)
  | rereadFail hpc => exact h.scanned rfl rfl
  | release hpc =>
    left
    simp only
    rcases h with hlt | ⟨-, hq⟩ <;> omega
  | _ => exact h

/-- No row is ahead of its round. -/
def RowBound (s : State F) : Prop :=
  ∀ (d : String) (q : Int) (row : Tlog F), (s.mem.routeLog1.idx d).idx q = some row → Dated s q

/-- A row after a phase was there, or the scan of its round made it. -/
theorem phase_rowAt {cfg : Config} {p : Nat} {l : List String} {m m' : Mem F} {ph : Phase} (hrun : runPhase cfg p l m ph = some m')
    {d : String} {q : Int} {row : Tlog F} (hrow : (m'.routeLog1.idx d).idx q = some row) :
    (m.routeLog1.idx d).idx q = some row ∨ (ph = .scan ∧ (p : Int) = q) := by
  have hmem : q ∈ m'.routeLog1.idx d := by
    by_contra hno
    rw [ExtTreeMap.idx_of_not_mem hno] at hrow
    cases hrow
  have hget := ExtTreeMap.getElem?_idx hmem
  rw [hrow] at hget
  rcases phase_row hrun hget with hold | ⟨hph, hq, -⟩
  · exact Or.inl (ExtTreeMap.idx_of_getElem? hold)
  · exact Or.inr ⟨hph, hq⟩

theorem RowBound.move {s t : State F} {e : Event F} (h : RowBound s) (hm : Move s e t) : RowBound t := by
  intro d q row hrow
  cases hm with
  | receive x =>
    cases x with
    | none => exact h d q row hrow
    | some x => exact h d q row hrow
  | phase ph m hpc hrun =>
    rcases phase_rowAt hrun hrow with hold | ⟨rfl, hq⟩
    · exact (h d q row hold).move (.phase ph m hpc hrun)
    · exact Or.inr ⟨rfl, hq.symm⟩
  | shutdown m hpc hrun =>
    rw [show m.routeLog1 = s.mem.routeLog1 from (deleteWalk_spec hrun).routeLog1] at hrow
    exact (h d q row hrow).move (.shutdown m hpc hrun)
  | start l hpc => exact (h d q row hrow).move (.start l hpc)
  | ask hpc => exact (h d q row hrow).move (.ask hpc)
  | take hpc hs => exact (h d q row hrow).move (.take hpc hs)
  | skip hpc hs => exact (h d q row hrow).move (.skip hpc hs)
  | resume hpc => exact (h d q row hrow).move (.resume hpc)
  | reread cfg v hpc => exact (h d q row hrow).move (.reread cfg v hpc)
  | rereadFail hpc => exact (h d q row hrow).move (.rereadFail hpc)
  | release hpc => exact (h d q row hrow).move (.release hpc)
  | _ => exact h d q row hrow

omit [Dbl F] in
/-- Before its scan a round is undecided. -/
theorem undecided {s : State F} (hhop : HopBound s) (hrow : RowBound s) (hpc : s.pc = .phase .scan) :
    Undecided s.probeId s.mem := by
  have hs : s.pc.scanned = false := by rw [hpc]; rfl
  refine ⟨?_, ?_⟩
  · intro d
    cases hrp : (s.mem.route.idx d).idx (s.probeId : Int) with
    | none => rfl
    | some rp =>
      have := hhop.older hs hrp
      omega
  · intro d
    cases hv : (s.mem.routeLog1.idx d).idx (s.probeId : Int) with
    | none => rfl
    | some row =>
      have := (hrow d s.probeId row hv).older hs
      omega

/-! ## Steps -/

/-- The records a step leaves without a pointer. -/
def lostBy (w : Daemon F) : Event F → Daemon F → Nat
  | .phase, _ => if w.state.pc = .phase .calcAvg then peersSum overwritten w.state.probeId w.state.mem.r else 0
  | _, _ => 0

/-- Every live object is stored, but for `n` records. -/
structure Accounts (n : Nat) (w : PtrMem F) : Prop where
  tparms : ∃ l : Multiset Addr, l.card = n ∧ w.tparms.addrs = ptrs w.r + l
  rtParms : w.rtParms.addrs = ptrs w.route
  tlogs : w.tlogs.addrs = ptrs w.routeLog1

omit [Dbl F] in
theorem Accounts.follows {n k : Nat} {w w' : PtrMem F} {m' : Mem F} (h : Accounts n w) (hf : Follows w w' m' k) :
    Accounts (n + k) w' := by
  refine ⟨?_, ?_, ?_⟩
  · obtain ⟨l, hl, haddrs⟩ := h.tparms
    obtain ⟨l', hl', haddrs'⟩ := hf.r.lost
    refine ⟨l + l', by rw [Multiset.card_add, hl, hl'], ?_⟩
    rw [haddrs] at haddrs'
    apply add_right_cancel (b := ptrs w.r)
    rw [haddrs']
    ac_rfl
  · obtain ⟨l', hl', haddrs'⟩ := hf.route.lost
    rw [h.rtParms, Multiset.card_eq_zero.mp hl', add_zero, add_comm (ptrs w.route)] at haddrs'
    exact add_right_cancel haddrs'
  · obtain ⟨l', hl', haddrs'⟩ := hf.log.lost
    rw [h.tlogs, Multiset.card_eq_zero.mp hl', add_zero, add_comm (ptrs w.routeLog1)] at haddrs'
    exact add_right_cancel haddrs'

/-- What holds of the program and its objects after `n` records were lost. -/
structure HeapInv (n : Nat) (w : Daemon F) : Prop where
  holds : Holds w.mem w.state.mem
  maps : RecInv w.state.mem
  hops : HopBound w.state
  rows : RowBound w.state
  accounts : Accounts n w.mem

omit [Dbl F] in
theorem heapInv_init (cfg : Config) (v : F) (mm : PeerMap) : HeapInv 0 (Daemon.init cfg v mm) where
  holds := ⟨.empty _, .empty _, .empty _, rfl⟩
  maps := recInv_init cfg v mm
  hops := hopBound_init cfg v mm
  rows := by
    intro d q row hrow
    change ((∅ : LogMap F).idx d).idx q = some row at hrow
    rw [ExtTreeMap.idx_empty] at hrow
    change (∅ : ExtTreeMap Int (Option (Tlog F))).idx q = some row at hrow
    rw [ExtTreeMap.idx_empty] at hrow
    cases hrow
  accounts := by
    refine ⟨⟨0, rfl, ?_⟩, ?_, ?_⟩
    · change Arena.empty.addrs = ptrs (∅ : PtrRData) + 0
      rw [ptrs_empty, Arena.addrs_empty, add_zero]
    · change Arena.empty.addrs = ptrs (∅ : PtrMap)
      rw [ptrs_empty, Arena.addrs_empty]
    · change Arena.empty.addrs = ptrs (∅ : PtrMap)
      rw [ptrs_empty, Arena.addrs_empty]

/-- What a step of the program does to the values it does to the objects. -/
theorem ptrStep_follows {n : Nat} {w : Daemon F} {e : Event F} {t : State F} (h : HeapInv n w) (hm : Move w.state e t) :
    ∃ m', ptrStep w.state w.mem e = some m' ∧ Follows w.mem m' t.mem (lostBy w e ⟨t, m'⟩) := by
  cases hm with
  | receive x rest hr hs =>
    cases x with
    | none => exact ⟨w.mem, by simp only [ptrStep, hs]; rfl, .refl h.holds⟩
    | some x => exact ⟨recordPtr x w.mem, by simp only [ptrStep, hs]; rfl, record_follows x h.holds⟩
  | phase ph m hpc hrun =>
    obtain ⟨m', hm', hf⟩ := phase_follows h.holds h.maps.hopsSub
      (fun hph => undecided h.hops h.rows (hph ▸ hpc)) hrun
    refine ⟨m', by simp only [ptrStep, hpc]; exact hm', ?_⟩
    have hcost : lostBy w .phase ⟨{ w.state with mem := m, pc := ph.next }, m'⟩ = lostAt ph w.state.probeId w.state.mem.r := by
      simp only [lostBy, lostAt, hpc, MainPc.phase.injEq]
    rw [hcost]
    exact hf
  | resume hpc => exact ⟨w.mem, rfl, .refl h.holds⟩
  | shutdown m hpc hrun => exact deleteAll_follows h.holds h.maps.hopsSub hrun
  | reread cfg v hpc =>
    exact ⟨{ w.mem with minRtt := v }, rfl, .refl h.holds.r, .refl h.holds.route, .refl h.holds.log, rfl⟩
  | rereadFail hpc => exact ⟨w.mem, rfl, .refl h.holds⟩
  | _ => exact ⟨w.mem, rfl, .refl h.holds⟩

/-- **One step**: the objects follow, and the invariant stays. -/
theorem HeapInv.step {n : Nat} {w : Daemon F} {e : Event F} {t : State F} (h : HeapInv n w) (hs : step w.state e = some t) :
    ∃ m', daemonStep w e = some ⟨t, m'⟩ ∧ HeapInv (n + lostBy w e ⟨t, m'⟩) ⟨t, m'⟩ := by
  obtain ⟨-, hm⟩ := move_of_step hs
  obtain ⟨m', hm', hf⟩ := ptrStep_follows h hm
  refine ⟨m', by simp only [daemonStep, hs, hm', Option.bind_eq_bind, Option.bind_some]; rfl, ?_⟩
  exact ⟨hf.holds h.holds, h.maps.move hm, h.hops.move hm, h.rows.move hm, h.accounts.follows hf⟩

/-! ## Runs -/

/-- The guard of unrestricted runs of the daemon. -/
def AnyDaemon (_ : Daemon F) (_ : Event F) : Prop := True

instance (w : Daemon F) (e : Event F) : Decidable (AnyDaemon w e) := inferInstanceAs (Decidable True)

theorem heapInv_counted {cfg : Config} {v : F} {mm : PeerMap} {n : Nat} {w : Daemon F} {G : Daemon F → Event F → Prop}
    (h : Lts.Counted daemonStep lostBy G (Daemon.init cfg v mm) n w) : HeapInv n w := by
  refine h.invariant (heapInv_init cfg v mm) ?_
  intro n w e u hI _ hs
  obtain ⟨t, ht, hrest⟩ := Option.bind_eq_some_iff.mp hs
  obtain ⟨m', hm', hI'⟩ := hI.step ht
  rw [hs] at hm'
  cases hm'
  exact hI'

theorem heapInv_path {cfg : Config} {v : F} {mm : PeerMap} {w : Daemon F} {G : Daemon F → Event F → Prop}
    (h : Lts.Path daemonStep G (Daemon.init cfg v mm) w) : ∃ n, HeapInv n w := by
  refine Lts.Path.invariant (I := fun w => ∃ n, HeapInv n w) ⟨0, heapInv_init cfg v mm⟩ ?_ h
  rintro w e u ⟨n, hI⟩ - hs
  obtain ⟨t, ht, hrest⟩ := Option.bind_eq_some_iff.mp hs
  obtain ⟨m', hm', hI'⟩ := hI.step ht
  rw [hs] at hm'
  cases hm'
  exact ⟨_, hI'⟩

/-- **No dangling pointer, no second delete.** Whatever arrives when, in every state of the
daemon each pointer in `r`, `route` and `route_log1` has a live object of its own, the objects
are the values of the maps, and the daemon takes every step the program over the values takes. -/
theorem no_dangling {cfg : Config} {v : F} {mm : PeerMap} {w : Daemon F}
    (h : Lts.Path daemonStep AnyDaemon (Daemon.init cfg v mm) w) :
    Holds w.mem w.state.mem ∧ ∀ e, (daemonStep w e).isSome = (step w.state e).isSome := by
  obtain ⟨n, hI⟩ := heapInv_path h
  refine ⟨hI.holds, ?_⟩
  intro e
  cases hs : step w.state e with
  | none => simp [daemonStep, hs]
  | some t =>
    obtain ⟨m', hm', -⟩ := hI.step hs
    rw [hm']
    rfl

/-- Two rounds and the start of a third, the destination gone from the list in the third: its
records are deleted. -/
def leaves : List (Event ℚ) :=
  roundEvents ["198.51.100.7"] [⟨"198.51.100.7", 0, 1, 1, 20, 0⟩] ++
    roundEvents ["198.51.100.7"] [⟨"198.51.100.7", 1, 1, 1, 20, 0⟩, ⟨"198.51.100.7", 1, 1, 2, 30, 0⟩] ++
    (roundEvents ["198.51.100.8"] []).take 6

/-- The peers of the runs. -/
def leavesStart : Daemon ℚ := .init Config.default 50000 (.ofRows [(1, ⟨"192.0.2.1", "1:1"⟩)])

theorem no_dangling_leaves : ∃ w : Daemon ℚ, w.mem.tparms.next = 5 ∧ w.mem.tparms.cells.size = 0 ∧ Holds w.mem w.state.mem := by
  have hrun : ∃ w : Daemon ℚ, Lts.Path daemonStep AnyDaemon leavesStart w ∧
      w.mem.tparms.next = 5 ∧ w.mem.tparms.cells.size = 0 :=
    Lts.Path.exists_of_runG leavesStart leaves _ (by decide +kernel)
  obtain ⟨w, hpath, hnext, hsize⟩ := hrun
  exact ⟨w, hnext, hsize, (no_dangling hpath).1⟩

/-- No reply that arrives is numbered 99. -/
def Unreserved (_ : Daemon F) : Event F → Prop
  | .arrive (some x) => x.seq ≠ 99
  | _ => True

instance (w : Daemon F) : (e : Event F) → Decidable (Unreserved w e)
  | .arrive (some x) => inferInstanceAs (Decidable (x.seq ≠ 99))
  | .arrive none => .isTrue trivial
  | .receive | .timeout | .ack | .start _ | .ask | .take | .phase | .signals _ | .release => .isTrue trivial

/-- Then only averages have stored records at key 99. -/
structure OnlyAverages (s : State F) : Prop where
  aggs : ∀ (d : String) (q k : Int) (tp : Tparm F), aggAt (peersAt s.mem.r d q) k = some tp → Late s q
  queued : ∀ x, some x ∈ s.sock → x.seq ≠ 99

omit [Dbl F] in
theorem onlyAverages_init (cfg : Config) (v : F) (mm : PeerMap) : OnlyAverages (State.init cfg v mm) where
  aggs := by
    intro d q k tp htp
    exact absurd (mem_of_mem_peersAt (mem_of_aggAt htp)) ExtTreeMap.not_mem_empty
  queued := fun x hx => absurd hx List.not_mem_nil

/-- Elsewhere in the round the aggregates are those of older ones, or were due before. -/
theorem Late.move {s t : State F} {e : Event F} {q : Int} (h : Late s q) (hm : Move s e t) : Late t q := by
  cases hm with
  | start l hpc => exact Or.inl (h.older (by rw [hpc]; rfl) (by rw [hpc]; rfl))
  | ask hpc => exact Or.inl (h.older (by rw [hpc]; rfl) (by rw [hpc]; rfl))
  | take hpc _ => exact Or.inl (h.older (by rw [hpc]; rfl) (by rw [hpc]; rfl))
  | skip hpc _ => exact h.released rfl
  | phase ph m hpc hrun => exact h.phase hpc m
  | resume hpc => exact h.imp_right fun hq => ⟨hq.1, Or.inr (clear_scanned s)⟩
  | shutdown m hpc hrun => exact h.imp_right fun hq => ⟨hq.1, Or.inr rfl⟩
  | reread cfg v hpc => exact h.imp_right fun hq => ⟨hq.1, Or.inr (clear_scanned _)⟩
  | rereadFail hpc => exact h.imp_right fun hq => ⟨hq.1, Or.inr rfl⟩
  | release hpc => exact h.released rfl
  | _ => exact h

theorem aggAt_record {x : Reply F} (hx : x.seq ≠ 99) (r : RData F) (d : String) (q k : Int) :
    aggAt (peersAt (record x r) d q) k = aggAt (peersAt r d q) k := by
  rw [aggAt, samples_record]
  split
  · next h =>
    unfold putSample
    split
    · rw [ExtTreeMap.idx_insert, if_neg hx]
      rfl
    · rfl
  · rfl

theorem OnlyAverages.move {w : Daemon F} {t : State F} {e : Event F} (h : OnlyAverages w.state) (hG : Unreserved w e)
    (hm : Move w.state e t) : OnlyAverages t := by
  have hlate := fun q (hq : Late w.state q) => hq.move hm
  cases hm with
  | arrive x =>
    refine ⟨h.aggs, ?_⟩
    intro y hy
    rcases List.mem_append.mp hy with hy | hy
    · exact h.queued y hy
    · rw [List.mem_singleton] at hy
      subst hy
      exact hG
  | receive x rest hr hs =>
    have hmem : ∀ y, y ∈ x :: rest → y ∈ w.state.sock := fun y hy => by rw [hs]; exact hy
    refine ⟨?_, fun y hy => h.queued y (hmem _ (List.mem_cons_of_mem _ hy))⟩
    intro d q k tp htp
    apply hlate
    cases x with
    | none => exact h.aggs d q k tp htp
    | some x =>
      change aggAt (peersAt (record x w.state.mem.r) d q) k = some tp at htp
      rw [aggAt_record (h.queued x (hmem _ List.mem_cons_self))] at htp
      exact h.aggs d q k tp htp
  | phase ph m hpc hrun =>
    refine ⟨?_, h.queued⟩
    intro d q k tp htp
    obtain ⟨-, he | ⟨hq, ht⟩⟩ := phase_path hrun (mem_of_aggAt htp)
    · rw [aggAt, he] at htp
      exact hlate q (h.aggs d q k tp htp)
    · exact Or.inr ⟨hq.symm, ht.due⟩
  | shutdown m hpc hrun =>
    refine ⟨?_, h.queued⟩
    intro d q k tp htp
    rw [path_of_erased (deleteWalk_spec hrun).r (mem_of_aggAt htp)] at htp
    exact hlate q (h.aggs d q k tp htp)
  | _ => exact ⟨fun d q k tp htp => hlate q (h.aggs d q k tp htp), h.queued⟩

omit [Dbl F] in
/-- Before the average of a round there is nothing for it to overwrite. -/
theorem OnlyAverages.none_overwritten {s : State F} (h : OnlyAverages s) (hpc : s.pc = .phase .calcAvg) :
    peersSum overwritten s.probeId s.mem.r = 0 := by
  have hzero : ∀ (d : String) (k : Int), overwritten ((peersAt s.mem.r d s.probeId).idx k) = 0 := by
    intro d k
    unfold overwritten
    cases htp : ((peersAt s.mem.r d s.probeId).idx k).idx 99 with
    | none => rfl
    | some tp =>
      have := (h.aggs d s.probeId k tp htp).older (by rw [hpc]; rfl) (by rw [hpc]; rfl)
      omega
  simp [peersSum, hzero]

end Pfr

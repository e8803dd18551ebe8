import Pfr.Records

/- When the gobgp table mirrors `route`. The table changes where destinations leave
   (`pfr_route_update`, `pfr_delete`, `pfr_delete_all`) and where decisions are
   announced (`pfr_routes_man`), each time through another lookup of `route`.

   `pfr_route_update` overwrites its parameter `probe_id` with the last probe of the
   destination it frees, so the next one that leaves is looked up one probe early,
   and after a skipped round nothing is found at all: its announcement stays in the
   table, against the function's comment that entities are removed from the routers
   before they are removed from `r` and `route`.

   1. `Mirror`: what holds at each place of the round;
   2. `mirror_move`: a step keeps it if every destination that leaves is found
      (`Found`) and, where re-announcements are suppressed, newcomers are heard
      (`HeardQuiet`);
   3. `rib_mirrors_route`: so in every such run the table mirrors `route` after every
      completed round p ≥ 1, and is empty after a graceful shutdown;
   4. `stale_of_not_found`, `rib_keeps_stale_entry`: whoever is not found stays in the
      table, and two destinations leaving at once make a run of it. -/
namespace Pfr

open Std

variable {F : Type} [Dbl F]

/-- The table has an entry for exactly the destinations of `route`, through the
current peer of the round's decision. -/
def Mirrored (p : Nat) (m : Mem F) : Prop :=
  ∀ d, (d ∈ m.route ↔ (rib m d).isSome) ∧
    ∀ via, rib m d = some via → ∃ rp, hopAt m.route d p = some rp ∧ via.peer = rp.currPeerId

/-- The configuration is not read again. -/
def NoReload : Event F → Prop
  | .signals (.reread _ _) | .signals .rereadFail => False
  | _ => True

/-- Whoever leaves while announced is found with a current peer above 0. -/
def Found (s : State F) : Event F → Prop
  | .phase => s.pc = .phase .update → ∀ d ∈ s.mem.r.keys, d ∉ s.pfrList → (rib s.mem d).isSome →
      ∃ rp, updHop s.mem s.pfrList s.probeId d = some rp ∧ 0 < rp.currPeerId
  | _ => True

/-- With `enable_advertise_same` off a scan of a round p ≥ 2 hears every destination
it has no previous decision for, and none of its replies carries peer 0. -/
def HeardQuiet (s : State F) : Event F → Prop
  | .phase => s.pc = .phase .scan → s.cfg.enableAdvertiseSame = false → 2 ≤ s.probeId → ∀ d ∈ s.mem.r.keys,
      (hopAt s.mem.route d (s.probeId - 1)).isNone →
        HeardBelow s.cfg.pathMetric (scanThr s.mem d) (peersAt s.mem.r d s.probeId) ∧
          (0 : Int) ∉ peersAt s.mem.r d s.probeId
  | _ => True

instance : (e : Event F) → Decidable (NoReload e)
  | .signals (.reread _ _) | .signals .rereadFail => .isFalse id
  | .signals .none | .signals .shutdown => .isTrue trivial
  | .arrive _ | .receive | .timeout | .ack | .start _ | .ask | .take | .phase | .release => .isTrue trivial

instance (s : State F) : (e : Event F) → Decidable (Found s e)
  | .phase => by dsimp only [Found]; infer_instance
  | .arrive _ | .receive | .timeout | .ack | .start _ | .ask | .take | .signals _ | .release => .isTrue trivial

instance (s : State F) : (e : Event F) → Decidable (HeardQuiet s e)
  | .phase => by dsimp only [HeardQuiet]; infer_instance
  | .arrive _ | .receive | .timeout | .ack | .start _ | .ask | .take | .signals _ | .release => .isTrue trivial

/-- What the table is in terms of `route`, at each place of the round. -/
structure Mirror (s : State F) : Prop where
  maps : RecInv s.mem
  bound : HopBound s
  adv : s.cfg.enableAdvertise = true
  zero : s.probeId = 0 → ∀ d, rib s.mem d = none
  held : s.pc.scanned = false → ∀ d, (rib s.mem d).isSome → d ∈ s.mem.route
  last : s.pc.scanned = false → 2 ≤ s.probeId → ∀ d rp, hopAt s.mem.route d (s.probeId - 1) = some rp →
    (rib s.mem d).map Via.peer = some rp.currPeerId
  due : s.pc.due = true → ∀ d, (rib s.mem d).isSome →
    (hopAt s.mem.route d s.probeId).isSome ∧ d ∈ s.mem.routeLog1
  quiet : s.pc.due = true → ∀ d rp, hopAt s.mem.route d s.probeId = some rp → keepsQuiet s.cfg s.probeId rp →
    (rib s.mem d).map Via.peer = some rp.currPeerId
  done : s.pc = .release → s.probeId ≠ 0 → Mirrored s.probeId s.mem
  gone : s.pc = .exited → ∀ d, rib s.mem d = none

omit [Dbl F] in
theorem mirror_init {cfg : Config} (hadv : cfg.enableAdvertise = true) (v : F) (mm : PeerMap) :
    Mirror (State.init cfg v mm) where
  maps := recInv_init cfg v mm
  bound := hopBound_init cfg v mm
  adv := hadv
  zero := fun _ _ => rfl
  held := fun _ _ h => by cases h
  last := fun _ _ _ _ hrp => absurd (mem_of_hopAt hrp) ExtTreeMap.not_mem_empty
  due := vacuous rfl
  quiet := vacuous rfl
  done := vacuous rfl
  gone := vacuous rfl

omit [Dbl F] in
/-- Dropping leaves the table's other entries, and none of the dropped. -/
theorem Mirror.update {s : State F} {m : Mem F} (h : Mirror s) (hpc : s.pc = .phase .update)
    (hfound : ∀ d, Dropped s.pfrList s.mem d → (rib s.mem d).isSome →
      ∃ rp, updHop s.mem s.pfrList s.probeId d = some rp ∧ 0 < rp.currPeerId)
    (hs : UpdateSpec s.probeId s.pfrList s.mem m) :
    (∀ d, (rib m d).isSome → d ∈ m.route) ∧
      (2 ≤ s.probeId → ∀ d rp, hopAt m.route d (s.probeId - 1) = some rp →
        (rib m d).map Via.peer = some rp.currPeerId) := by
  have hsc : s.pc.scanned = false := by rw [hpc]; rfl
  refine ⟨?_, ?_⟩
  · intro d hd
    rw [hs.rib] at hd
    split at hd
    · cases hd
    · next hno =>
      have hnd : ¬Dropped s.pfrList s.mem d := fun hdr => hno ⟨hdr, hfound d hdr hd⟩
      exact (ExtTreeMap.mem_of_erased hs.route).mpr ⟨hnd, h.held hsc d hd⟩
  · intro hp d rp hrp
    obtain ⟨hnd, hrp⟩ := hopAt_of_erased hs.route hrp
    rw [hs.rib, if_neg (fun hdr => hnd hdr.1)]
    exact h.last hsc hp d rp hrp

omit [Dbl F] in
/-- Whoever is not found is erased all the same, and its entry stays. -/
theorem stale_of_not_found {s : State F} {m : Mem F} (hs : UpdateSpec s.probeId s.pfrList s.mem m) {d : String}
    (hdrop : Dropped s.pfrList s.mem d) (hann : (rib s.mem d).isSome)
    (hno : ¬∃ rp, updHop s.mem s.pfrList s.probeId d = some rp ∧ 0 < rp.currPeerId) :
    d ∉ m.route ∧ (rib m d).isSome := by
  refine ⟨fun hd => ((ExtTreeMap.mem_of_erased hs.route).mp hd).1 hdrop, ?_⟩
  rw [hs.rib, if_neg (fun h => hno h.2)]
  exact hann

/-- After the scan every announced destination has the round's decision and a log
row, and one that will be left quiet is announced through its current peer. -/
theorem Mirror.scan {s : State F} {m : Mem F} (h : Mirror s) (hpc : s.pc = .phase .scan)
    (hheard : HeardQuiet s .phase) (hs : ScanSpec s.cfg s.probeId s.mem m) :
    (∀ d, (rib m d).isSome → (hopAt m.route d s.probeId).isSome ∧ d ∈ m.routeLog1) ∧
      ∀ d rp, hopAt m.route d s.probeId = some rp → keepsQuiet s.cfg s.probeId rp →
        (rib m d).map Via.peer = some rp.currPeerId := by
  have hsc : s.pc.scanned = false := by rw [hpc]; rfl
  have hrib : ∀ d, rib m d = rib s.mem d := fun d => by rw [rib, rib, hs.cmds]
  refine ⟨?_, ?_⟩
  · intro d hd
    rw [hrib] at hd
    have hp : s.probeId ≠ 0 := fun h0 => by rw [h.zero h0 d] at hd; cases hd
    have hdr := h.maps.routeSub d (h.held hsc d hd)
    obtain ⟨v, hrp, -⟩ := scan_decision hp hs hdr
    obtain ⟨-, -, -, -, -, hlog⟩ := hs.dst d hdr
    exact ⟨by rw [hrp]; rfl, hlog⟩
  · intro d rp hrp hq
    obtain ⟨hsame, hpeer, hp⟩ := hq
    have hdr : d ∈ s.mem.r := by
      by_contra hno
      rw [hopAt_congr (hs.off d hno).1] at hrp
      have := h.bound.older hsc hrp
      omega
    obtain ⟨v, hdec, -⟩ := scan_decision (by omega) hs hdr
    rw [hrp] at hdec
    cases hprev : hopAt s.mem.route d (s.probeId - 1) with
    | none =>
      -- the newcomer was heard, so its current peer is not the 0 its previous one is
      rw [hprev] at hdec
      cases hdec
      obtain ⟨hb, h0⟩ := hheard hpc hsame (by omega) d (ExtTreeMap.mem_keys.mpr hdr) (by rw [hprev]; rfl)
      have hmem : scanPeer s.cfg s.probeId s.mem d ∈ peersAt s.mem.r d s.probeId := pickLoop_heard hb
      simp only [chooseHop] at hpeer
      rw [← hpeer] at hmem
      exact absurd hmem h0
    | some rp0 =>
      rw [hprev] at hdec
      have hcurr : rp.currPeerId = rp0.currPeerId := by
        rw [← hpeer, Option.some.inj hdec, chooseHop_prev]
      rw [hrib, hcurr]
      exact h.last hsc (by omega) d rp0 hprev

omit [Dbl F] in
/-- After the announcements of a round p ≥ 1 the table mirrors `route`. -/
theorem Mirror.man {s : State F} {m : Mem F} (h : Mirror s) (hpc : s.pc = .phase .man) (hp : s.probeId ≠ 0)
    (hrun : pfrRoutesMan s.cfg s.probeId s.mem = some m) : Mirrored s.probeId m := by
  obtain ⟨hin, hout⟩ := routesMan_rib (by omega) hrun
  have hroute := (routesMan_frame hrun).2.1
  have hdue : s.pc.due = true := by rw [hpc]; rfl
  have hentry : ∀ d ∈ s.mem.route, ∃ rp, hopAt s.mem.route d s.probeId = some rp ∧
      (rib m d).map Via.peer = some rp.currPeerId := by
    intro d hd
    obtain ⟨rp, hrp⟩ := Option.isSome_iff_exists.mp (routesMan_hops hrun hd)
    refine ⟨rp, hrp, ?_⟩
    rw [hin d rp hd hrp]
    split
    · next hq => exact h.quiet hdue d rp hrp hq
    · rfl
  intro d
  rw [hroute]
  by_cases hd : d ∈ s.mem.route
  · obtain ⟨rp, hrp, hmap⟩ := hentry d hd
    obtain ⟨via, hvia, hvp⟩ := Option.map_eq_some_iff.mp hmap
    refine ⟨⟨fun _ => by rw [hvia]; rfl, fun _ => hd⟩, ?_⟩
    intro via' hvia'
    rw [hvia] at hvia'
    cases hvia'
    exact ⟨rp, hrp, hvp⟩
  · have hnone : rib m d = none := by
      rw [hout d hd, ← Option.not_isSome_iff_eq_none]
      intro hsome
      obtain ⟨rp, hrp⟩ := Option.isSome_iff_exists.mp (h.due hdue d hsome).1
      exact hd (mem_of_hopAt hrp)
    refine ⟨⟨fun hd' => absurd hd' hd, fun hs => by rw [hnone] at hs; cases hs⟩, ?_⟩
    intro via hvia
    rw [hnone] at hvia
    cases hvia

omit [Dbl F] in
/-- Before the scan a step that moves neither `route` nor the table keeps what is said
of them. -/
theorem Mirror.unscanned {s t : State F} (h : Mirror s) (hmaps : RecInv t.mem) (hbound : HopBound t)
    (hadv : t.cfg.enableAdvertise = true) (hp : t.probeId = s.probeId) (hroute : t.mem.route = s.mem.route)
    (hcmds : t.mem.cmds = s.mem.cmds) (hsc : s.pc.scanned = false) (hdue : t.pc.due = false)
    (hrelease : decide (t.pc = .release) = false) (hexited : decide (t.pc = .exited) = false) : Mirror t := by
  have hrib : rib t.mem = rib s.mem := by rw [rib, rib, hcmds]
  refine ⟨hmaps, hbound, hadv, ?_, ?_, ?_, ?_, ?_, vacuous hrelease, vacuous hexited⟩
  · rw [hp, hrib]
    exact h.zero
  · rw [hrib, hroute]
    exact fun _ => h.held hsc
  · rw [hp, hroute, hrib]
    exact fun _ => h.last hsc
  · intro hd
    rw [hdue] at hd
    cases hd
  · intro hd
    rw [hdue] at hd
    cases hd

theorem Mirror.phase {s : State F} {ph : Phase} {m : Mem F} (h : Mirror s) (hfound : Found s .phase)
    (hheard : HeardQuiet s .phase) (hpc : s.pc = .phase ph)
    (hrun : runPhase s.cfg s.probeId s.pfrList s.mem ph = some m) :
    Mirror { s with mem := m, pc := ph.next } := by
  have hmaps := h.maps.phase hrun
  have hbound := h.bound.move (Move.phase ph m hpc hrun)
  cases ph with
  | update =>
    have hs := update_spec hrun
    obtain ⟨hheld, hlast⟩ := h.update hpc
      (fun d hd => hfound hpc d (ExtTreeMap.mem_keys.mpr hd.1) hd.2) hs
    refine ⟨hmaps, hbound, h.adv, ?_, fun _ => hheld, fun _ => hlast, vacuous rfl, vacuous rfl,
      vacuous rfl, vacuous rfl⟩
    intro h0 d
    rw [hs.rib, h.zero h0 d, ite_self]
  | calcAvg =>
    obtain ⟨r', -, rfl⟩ := Option.map_eq_some_iff.mp hrun
    exact h.unscanned hmaps hbound h.adv rfl rfl rfl (by rw [hpc]; rfl) rfl rfl rfl
  | calcStddev =>
    obtain ⟨r', -, rfl⟩ := Option.map_eq_some_iff.mp hrun
    exact h.unscanned hmaps hbound h.adv rfl rfl rfl (by rw [hpc]; rfl) rfl rfl rfl
  | scan =>
    have hs := scan_spec hrun
    obtain ⟨hdue, hquiet⟩ := h.scan hpc hheard hs
    refine ⟨hmaps, hbound, h.adv, ?_, vacuous rfl, vacuous rfl, fun _ => hdue, fun _ => hquiet,
      vacuous rfl, vacuous rfl⟩
    intro h0 d
    rw [rib, hs.cmds]
    exact h.zero h0 d
  | free =>
    cases hrun
    -- the probe that is freed is two behind, so the round's decisions stay
    have hdue : s.pc.due = true := by rw [hpc]; rfl
    have hrib : ∀ d, rib (pfrRouteFree s.probeId s.mem) d = rib s.mem d := fun d => by rw [rib, rib, free_cmds]
    have hhop : ∀ d, hopAt (pfrRouteFree s.probeId s.mem).route d s.probeId = hopAt s.mem.route d s.probeId :=
      fun d => free_hopAt s.mem d (by omega)
    refine ⟨hmaps, hbound, h.adv, ?_, vacuous rfl, vacuous rfl, ?_, ?_, vacuous rfl, vacuous rfl⟩
    · intro h0 d
      rw [hrib]
      exact h.zero h0 d
    · intro _ d hd
      rw [hrib] at hd
      rw [hhop, free_routeLog1]
      exact h.due hdue d hd
    · intro _ d rp hrp hq
      rw [hhop] at hrp
      rw [hrib]
      exact h.quiet hdue d rp hrp hq
  | delete =>
    have hdue : s.pc.due = true := by rw [hpc]; rfl
    have hs := delete_spec hrun
    refine ⟨hmaps, hbound, h.adv, ?_, vacuous rfl, vacuous rfl, ?_, ?_, vacuous rfl, vacuous rfl⟩
    · intro h0 d
      rw [hs.rib, h.zero h0 d, ite_self]
    · intro _ d hd
      rw [hs.rib] at hd
      split at hd
      · cases hd
      · next hno =>
        rw [hs.routeLog1, hopAt_congr (by rw [hs.route, if_neg hno] : m.route[d]? = s.mem.route[d]?)]
        exact h.due hdue d hd
    · intro _ d rp hrp hq
      obtain ⟨hno, hrp⟩ := hopAt_of_erased hs.route hrp
      rw [hs.rib, if_neg hno]
      exact h.quiet hdue d rp hrp hq
  | man =>
    refine ⟨hmaps, hbound, h.adv, ?_, vacuous rfl, vacuous rfl, vacuous rfl,
      vacuous rfl, fun _ hp => h.man hpc hp hrun, vacuous rfl⟩
    intro h0 d
    simp only at h0
    rw [h0] at hrun
    rw [routesMan_rib_zero hrun]
    exact h.zero h0 d

/-- **A step that finds who leaves and hears who comes keeps the mirror.** -/
theorem mirror_move {s t : State F} {e : Event F} (h : Mirror s) (hload : NoReload e) (hfound : Found s e)
    (hheard : HeardQuiet s e) (hm : Move s e t) : Mirror t := by
  have hmaps := h.maps.move hm
  have hbound := h.bound.move hm
  cases hm with
  | arrive x => exact ⟨hmaps, hbound, h.adv, h.zero, h.held, h.last, h.due, h.quiet, h.done, h.gone⟩
  | receive x rest hr hsock =>
    cases x with
    | none => exact ⟨hmaps, hbound, h.adv, h.zero, h.held, h.last, h.due, h.quiet, h.done, h.gone⟩
    | some x => exact ⟨hmaps, hbound, h.adv, h.zero, h.held, h.last, h.due, h.quiet, h.done, h.gone⟩
  | timeout => exact ⟨hmaps, hbound, h.adv, h.zero, h.held, h.last, h.due, h.quiet, h.done, h.gone⟩
  | ack => exact ⟨hmaps, hbound, h.adv, h.zero, h.held, h.last, h.due, h.quiet, h.done, h.gone⟩
  | start l hpc =>
    exact h.unscanned hmaps hbound h.adv rfl rfl rfl (by rw [hpc]; rfl) rfl rfl rfl
  | ask hpc =>
    exact h.unscanned hmaps hbound h.adv rfl rfl rfl (by rw [hpc]; rfl) rfl rfl rfl
  | take hpc _ =>
    exact h.unscanned hmaps hbound h.adv rfl rfl rfl (by rw [hpc]; rfl) rfl rfl rfl
  | skip hpc _ =>
    refine ⟨hmaps, hbound, h.adv, fun h0 => absurd h0 (by simp), fun _ => h.held (by rw [hpc]; rfl), ?_,
      vacuous rfl, vacuous rfl, vacuous rfl, vacuous rfl⟩
    -- the round made no decision, so the next one finds none
    intro _ _ d rp hrp
    have hlt := h.bound.older (by rw [hpc]; rfl) hrp
    simp only at hlt
    omega
  | phase ph m hpc hrun => exact h.phase hfound hheard hpc hrun
  | resume hpc =>
    have hdue : s.pc.due = true := by rw [hpc]; rfl
    have hman := clear_pc h.adv
    refine ⟨hmaps, hbound, h.adv, h.zero, ?_, ?_, fun _ => h.due hdue, fun _ => h.quiet hdue, ?_, ?_⟩
    · rw [hman]
      intro h; cases h
    · rw [hman]
      intro h; cases h
    · rw [hman]
      intro h; cases h
    · rw [hman]
      intro h; cases h
  | shutdown m hpc hrun =>
    have hs := deleteWalk_spec hrun
    have hnone : ∀ d, rib m d = none := by
      intro d
      rw [hs.rib]
      split
      · rfl
      · next hno =>
        -- what is announced has a decision and a log row, so the walk withdraws it
        rw [← Option.not_isSome_iff_eq_none]
        intro hsome
        obtain ⟨hhop, hlog⟩ := h.due (by rw [hpc]; rfl) d hsome
        exact hno ⟨hlog, rfl, hhop⟩
    exact ⟨hmaps, hbound, h.adv, fun _ => hnone, vacuous rfl, vacuous rfl, vacuous rfl,
      vacuous rfl, vacuous rfl, fun _ => hnone⟩
  | reread cfg v hpc => exact absurd hload id
  | rereadFail hpc => exact absurd hload id
  | release hpc =>
    refine ⟨hmaps, hbound, h.adv, fun h0 => absurd h0 (by simp), ?_, ?_, vacuous rfl,
      vacuous rfl, vacuous rfl, vacuous rfl⟩
    · intro _ d hd
      by_cases hp : s.probeId = 0
      · have hnone := h.zero hp d
        simp only at hd
        rw [hnone] at hd
        cases hd
      · exact ((h.done hpc hp d).1).mpr hd
    · intro _ hp d rp hrp
      have hp0 : s.probeId ≠ 0 := by simp only at hp; omega
      have hidx : ((s.probeId + 1 : Nat) : Int) - 1 = s.probeId := by omega
      simp only at hrp ⊢
      rw [hidx] at hrp
      obtain ⟨hiff, hvia⟩ := h.done hpc hp0 d
      obtain ⟨via, hv⟩ := Option.isSome_iff_exists.mp (hiff.mp (mem_of_hopAt hrp))
      obtain ⟨rp', hrp', hpeer⟩ := hvia via hv
      rw [hrp] at hrp'
      cases hrp'
      rw [hv, Option.map_some, hpeer]

/-- The runs in which the table mirrors `route`. -/
def Mirrors (s : State F) (e : Event F) : Prop := NoReload e ∧ Found s e ∧ HeardQuiet s e

instance (s : State F) (e : Event F) : Decidable (Mirrors s e) := inferInstanceAs (Decidable (_ ∧ _))

/-- **The table mirrors `route`.** In every run with announcements enabled and the
configuration not read again, in which whoever leaves is found and, with
re-announcements suppressed, newcomers are heard: after every completed round p ≥ 1
the table is `route`'s mirror, and after a graceful shutdown it is empty. -/
theorem rib_mirrors_route {cfg : Config} (hadv : cfg.enableAdvertise = true) {v : F} {mm : PeerMap} {s : State F}
    (h : Lts.Path step Mirrors (State.init cfg v mm) s) :
    (s.pc = .release → s.probeId ≠ 0 → Mirrored s.probeId s.mem) ∧ (s.pc = .exited → ∀ d, rib s.mem d = none) := by
  have hmir : Mirror s := Path.preserves (mirror_init hadv v mm)
    (fun _ _ _ hI hG _ hm => mirror_move hI hG.1 hG.2.1 hG.2.2 hm) h
  exact ⟨hmir.done, hmir.gone⟩

/-- Three rounds; in the last the first destination leaves and the second stays. -/
theorem rib_mirrors_route_run : ∃ s : State ℚ,
    Lts.Path step Mirrors (State.boot [(1, ⟨"192.0.2.1", "1:1"⟩)]) s ∧
      (s.pc = .release ∧ s.probeId = 2 ∧ (rib s.mem "198.51.100.9").isSome) ∧ Mirrored s.probeId s.mem := by
  obtain ⟨s, hs, hend⟩ := exists_run (G := Mirrors) (State.boot (F := ℚ) [(1, ⟨"192.0.2.1", "1:1"⟩)])
    (roundEvents ["198.51.100.7"] [⟨"198.51.100.7", 0, 1, 1, 20, 0⟩] ++
      roundEvents ["198.51.100.7", "198.51.100.9"]
        [⟨"198.51.100.7", 1, 1, 1, 20, 1⟩, ⟨"198.51.100.9", 1, 1, 1, 40, 1⟩] ++
      (roundEvents ["198.51.100.9"] [⟨"198.51.100.9", 2, 1, 1, 40, 2⟩]).dropLast)
    (fun s => s.pc = .release ∧ s.probeId = 2 ∧ (rib s.mem "198.51.100.9").isSome) (by decide +kernel)
  exact ⟨s, hs, hend, (rib_mirrors_route rfl hs).1 hend.1 (by rw [hend.2.1]; decide)⟩

/-- The second destination is first heard in round 2; both leave in round 3. Freeing
the first one leaves `probe_id` at 2, so the second is looked up at probe 1, where it
has no decision: it is erased and stays in the table. -/
theorem rib_keeps_stale_entry : ¬∀ s : State ℚ,
    Lts.Path step (fun _ e => NoReload e) (State.boot [(1, ⟨"192.0.2.1", "1:1"⟩)]) s → s.pc = .release →
      s.probeId ≠ 0 → Mirrored s.probeId s.mem := by
  intro hall
  obtain ⟨s, hs, hpc, hp, hstale, hgone⟩ := exists_run (G := fun _ e => NoReload e)
    (State.boot (F := ℚ) [(1, ⟨"192.0.2.1", "1:1"⟩)])
    (roundEvents ["198.51.100.7"] [⟨"198.51.100.7", 0, 1, 1, 20, 0⟩] ++
      roundEvents ["198.51.100.7"] [⟨"198.51.100.7", 1, 1, 1, 20, 1⟩] ++
      roundEvents ["198.51.100.7", "198.51.100.9"]
        [⟨"198.51.100.7", 2, 1, 1, 20, 2⟩, ⟨"198.51.100.9", 2, 1, 1, 40, 2⟩] ++
      (roundEvents [] []).dropLast)
    (fun s => s.pc = .release ∧ s.probeId = 3 ∧ (rib s.mem "198.51.100.9").isSome ∧
      "198.51.100.9" ∉ s.mem.route) (by decide +kernel)
  exact hgone (((hall s hs hpc (by omega)) "198.51.100.9").1.mpr hstale)

end Pfr

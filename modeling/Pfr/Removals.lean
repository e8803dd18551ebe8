import Pfr.Records

/- What the two removing phases remove and withdraw, call by call.

   `pfr_route_update` is to withdraw every destination that left the list from the
   peer of its last decision, but frees with its own parameter `probe_id` as the loop
   variable, so that only the first destination it frees is looked up at
   `probe_id - 1`. `pfr_delete` is to remove what was silent in the last `deep_delete`
   rounds, but its window has one round more and passes over rounds with no log row.

   1. `DropsExactly`, `drops_exactly_iff`: the first does what it is for if and only
      if every look-up finds what `probe_id - 1` would have found;
   2. `deleteFlag_iff`: what the window test of the second says;
   3. `DeletesExactly`, `deletes_exactly_iff`: the second does what it is for if and
      only if no destination is in one of the two places where the windows differ;
   4. `second_drop_not_withdrawn`, `silent_not_deleted`: runs where they do not. -/
namespace Pfr

open Std

variable {F : Type}

/-- The calls a phase made about `d`, newest first. -/
def CallsFor (m m' : Mem F) (d : String) (cs : List Call) : Prop :=
  m'.calls.filter (fun c => c.dstIp = d) = cs ++ m.calls.filter (fun c => c.dstIp = d)

instance (m m' : Mem F) (d : String) (cs : List Call) : Decidable (CallsFor m m' d cs) :=
  inferInstanceAs (Decidable (_ = _))

/-- Calls made in a pass over distinct keys, at most one a key. -/
theorem callsFor_of_keys {m m' : Mem F} {l : List String} (hl : l.Nodup) {f : String → Option Call}
    (hf : ∀ d c, f d = some c → c.dstIp = d) (h : m'.calls = (l.filterMap f).reverse ++ m.calls) (d : String) :
    CallsFor m m' d (if d ∈ l then (f d).toList else []) := by
  rw [CallsFor, h, List.filter_append, List.filter_reverse, List.filter_filterMap_key hf d hl]
  by_cases hd : d ∈ l
  · cases f d with
    | none => simp
    | some c => simp [hd]
  · simp [hd]

/-! ## `pfr_route_update` -/

/-- The current peer of a decision, if it is above 0. -/
def peerOf (hop : Option (RtParm F)) : Option Int :=
  hop.bind fun rp => if rp.currPeerId > 0 then some rp.currPeerId else none

/-- Each destination that left the list is withdrawn once from the peer of its last
decision, and it alone is withdrawn and erased. -/
structure DropsExactly (p : Nat) (dstList : List String) (m m' : Mem F) : Prop where
  withdrawn : ∀ d, CallsFor m m' d
    (if Dropped dstList m d then (peerOf (hopAt m.route d (p - 1))).toList.map (.delete · d) else [])
  r : ∀ d, m'.r[d]? = if d ∈ dstList then m.r[d]? else none
  route : ∀ d, m'.route[d]? = if d ∈ dstList then m.route[d]? else none

/-- Every look-up finds the peer that `route[dst_ip][probe_id - 1]` names, or like it none. -/
def FoundAsLast (p : Nat) (dstList : List String) (m : Mem F) : Prop :=
  ∀ d, Dropped dstList m d → peerOf (updHop m dstList p d) = peerOf (hopAt m.route d (p - 1))

theorem updCall_eq (m : Mem F) (dstList : List String) (p : Int) (d : String) :
    updCall m dstList p d = if d ∈ dstList then none else (peerOf (updHop m dstList p d)).map (.delete · d) := by
  unfold updCall peerOf
  split
  · rfl
  · cases updHop m dstList p d with
    | none => rfl
    | some rp => by_cases h : rp.currPeerId > 0 <;> simp [h]

/-- The calls of `pfr_route_update` about a destination. -/
theorem update_callsFor {p : Int} {dstList : List String} {m m' : Mem F} (h : pfrRouteUpdate p dstList m = some m')
    (d : String) :
    CallsFor m m' d (if Dropped dstList m d then (peerOf (updHop m dstList p d)).toList.map (.delete · d) else []) := by
  have hkey : ∀ e c, updCall m dstList p e = some c → c.dstIp = e := by
    intro e c hc
    rw [updCall_eq] at hc
    split at hc
    · cases hc
    · obtain ⟨k, -, rfl⟩ := Option.map_eq_some_iff.mp hc
      rfl
  have hfor := callsFor_of_keys ExtTreeMap.nodup_keys hkey (update_calls h) d
  simp only [ExtTreeMap.mem_keys, updCall_eq] at hfor
  by_cases hd : d ∈ m.r
  · by_cases hin : d ∈ dstList
    · simpa [Dropped, hd, hin] using hfor
    · cases hk : peerOf (updHop m dstList p d) <;> simpa [Dropped, hd, hin, hk] using hfor
  · simpa [Dropped, hd] using hfor

theorem CallsFor.unique {m m' : Mem F} {d : String} {cs cs' : List Call} (h : CallsFor m m' d cs)
    (h' : CallsFor m m' d cs') : cs = cs' :=
  List.append_cancel_right (h.symm.trans h')

/-- Whatever a destination outside `r` has none of is left to those of the list alone. -/
theorem ite_dropped {α : Type} {dstList : List String} {m : Mem F} {d : String} {x : Option α} (hx : d ∉ m.r → x = none) :
    (if Dropped dstList m d then none else x) = if d ∈ dstList then x else none := by
  by_cases hin : d ∈ dstList
  · simp [Dropped, hin]
  · by_cases hd : d ∈ m.r
    · simp [Dropped, hd, hin]
    · simp [hin, hx hd]

/-- **When `pfr_route_update` drops what it is for**: at any round, from any reachable
state, for any list. -/
theorem drops_exactly_iff [Dbl F] {cfg : Config} {v : F} {mm : PeerMap} {s : State F}
    (h : Lts.Path step AnyStep (State.init cfg v mm) s) (p : Nat) (dstList : List String) :
    ∃ m', pfrRouteUpdate p dstList s.mem = some m' ∧
      (DropsExactly p dstList s.mem m' ↔ FoundAsLast p dstList s.mem) := by
  have hrec := recInv_path h
  obtain ⟨m', hm'⟩ := routeUpdate_isSome p dstList hrec.hopsSome
  have hs := update_spec hm'
  refine ⟨m', hm', ?_⟩
  constructor
  · intro hdrops d hd
    have heq := (update_callsFor hm' d).unique (hdrops.withdrawn d)
    rw [if_pos hd, if_pos hd] at heq
    cases hk : peerOf (updHop s.mem dstList p d) <;> cases hk' : peerOf (hopAt s.mem.route d (p - 1)) <;>
      simp [hk, hk'] at heq ⊢
    exact heq
  · intro hfound
    refine ⟨?_, ?_, ?_⟩
    · intro d
      have hfor := update_callsFor hm' d
      by_cases hd : Dropped dstList s.mem d
      · rw [if_pos hd, hfound d hd] at hfor
        rw [if_pos hd]
        exact hfor
      · rw [if_neg hd] at hfor ⊢
        exact hfor
    · intro d
      rw [hs.r, ite_dropped ExtTreeMap.getElem?_eq_none]
    · intro d
      -- what is not in `r` is not in `route` either
      have hroute : d ∉ s.mem.r → s.mem.route[d]? = none :=
        fun hd => ExtTreeMap.getElem?_eq_none fun hm => hd (hrec.routeSub d hm)
      rw [hs.route, ite_dropped hroute]

/-- Two destinations heard since round 0 leave the list of round 3: the second is looked up
in round 1, where it has the peer it has in round 2, and both are withdrawn. -/
theorem drops_exactly_run : ∃ s : State ℚ, Lts.Path step AnyStep (State.boot [(1, ⟨"192.0.2.1", "1:1"⟩)]) s ∧
    s.pc = .phase .update ∧ (s.probeId = 3 ∧ updIdx s.mem.r [] s.probeId "198.51.100.9" = 2) ∧
    ∃ m', pfrRouteUpdate s.probeId [] s.mem = some m' ∧ DropsExactly s.probeId [] s.mem m' ∧
      CallsFor s.mem m' "198.51.100.7" [.delete 1 "198.51.100.7"] ∧
      CallsFor s.mem m' "198.51.100.9" [.delete 1 "198.51.100.9"] := by
  obtain ⟨s, hs, hpc, hp, hidx, hkeys, hfirst, hsecond⟩ := exists_run (G := AnyStep)
    (State.boot (F := ℚ) [(1, ⟨"192.0.2.1", "1:1"⟩)])
    (roundEvents ["198.51.100.7", "198.51.100.9"]
        [⟨"198.51.100.7", 0, 1, 1, 20, 0⟩, ⟨"198.51.100.9", 0, 1, 1, 40, 0⟩] ++
      roundEvents ["198.51.100.7", "198.51.100.9"]
        [⟨"198.51.100.7", 1, 1, 1, 20, 1⟩, ⟨"198.51.100.9", 1, 1, 1, 40, 1⟩] ++
      roundEvents ["198.51.100.7", "198.51.100.9"]
        [⟨"198.51.100.7", 2, 1, 1, 20, 2⟩, ⟨"198.51.100.9", 2, 1, 1, 40, 2⟩] ++
      (roundEvents [] []).take 5)
    (fun s => s.pc = .phase .update ∧ s.probeId = 3 ∧ updIdx s.mem.r [] s.probeId "198.51.100.9" = 2 ∧
      s.mem.r.keys = ["198.51.100.7", "198.51.100.9"] ∧
      (peerOf (updHop s.mem [] s.probeId "198.51.100.7") = some 1 ∧
        peerOf (hopAt s.mem.route "198.51.100.7" (s.probeId - 1)) = some 1) ∧
      peerOf (updHop s.mem [] s.probeId "198.51.100.9") = some 1 ∧
        peerOf (hopAt s.mem.route "198.51.100.9" (s.probeId - 1)) = some 1)
    (by decide +kernel)
  have hmem : ∀ d, d ∈ s.mem.r ↔ d = "198.51.100.7" ∨ d = "198.51.100.9" := by
    intro d
    rw [← ExtTreeMap.mem_keys, hkeys, List.mem_pair]
  obtain ⟨m', hm', hiff⟩ := drops_exactly_iff hs s.probeId []
  have hdrops : DropsExactly s.probeId [] s.mem m' := by
    refine hiff.mpr fun d hd => ?_
    rcases (hmem d).mp hd.1 with rfl | rfl
    · rw [hfirst.1, hfirst.2]
    · rw [hsecond.1, hsecond.2]
  have hcalls : ∀ d, d ∈ s.mem.r → peerOf (hopAt s.mem.route d (s.probeId - 1)) = some 1 →
      CallsFor s.mem m' d [.delete 1 d] := by
    intro d hd hlast
    have hfor := hdrops.withdrawn d
    rw [if_pos ⟨hd, by simp⟩, hlast] at hfor
    exact hfor
  exact ⟨s, hs, hpc, ⟨hp, hidx⟩, m', hm', hdrops, hcalls _ ((hmem _).mpr (.inl rfl)) hfirst.2,
    hcalls _ ((hmem _).mpr (.inr rfl)) hsecond.2⟩

/-- Two destinations leave the list of round 3, the second one first heard in round 2.
Freeing the first leaves `probe_id` at 2, and the second is looked up in round 1. -/
theorem second_drop_not_withdrawn : ¬∀ (s : State ℚ) (dstList : List String) (m' : Mem ℚ),
    Lts.Path step AnyStep (State.boot [(1, ⟨"192.0.2.1", "1:1"⟩)]) s → s.pc = .phase .update →
      pfrRouteUpdate s.probeId dstList s.mem = some m' → DropsExactly s.probeId dstList s.mem m' := by
  intro hall
  obtain ⟨s, hs, hpc, hp, hd, hhop, hrun⟩ := exists_run (G := AnyStep)
    (State.boot (F := ℚ) [(1, ⟨"192.0.2.1", "1:1"⟩)])
    (roundEvents ["198.51.100.7"] [⟨"198.51.100.7", 0, 1, 1, 20, 0⟩] ++
      roundEvents ["198.51.100.7"] [⟨"198.51.100.7", 1, 1, 1, 20, 1⟩] ++
      roundEvents ["198.51.100.7", "198.51.100.9"]
        [⟨"198.51.100.7", 2, 1, 1, 20, 2⟩, ⟨"198.51.100.9", 2, 1, 1, 40, 2⟩] ++
      (roundEvents [] []).take 5)
    (fun s => s.pc = .phase .update ∧ s.probeId = 3 ∧ Dropped [] s.mem "198.51.100.9" ∧
      peerOf (hopAt s.mem.route "198.51.100.9" 2) = some 1 ∧
      (pfrRouteUpdate s.probeId [] s.mem).any fun m' =>
        decide (CallsFor s.mem m' "198.51.100.9" [])) (by decide +kernel)
  obtain ⟨m', hm', hnone⟩ := Option.any_eq_true _ _ |>.mp hrun
  have hmade := (hall s [] m' hs hpc hm').withdrawn "198.51.100.9"
  rw [if_pos hd, hp, show ((3 : Nat) - 1 : Int) = 2 by omega, hhop] at hmade
  have := hmade.unique (of_decide_eq_true hnone)
  cases this

/-! ## `pfr_delete` -/

section Window
variable (log : ExtTreeMap Int (Option (Tlog F))) (p : Int)

/-- A round the log has a row of, with no peer. -/
def LoggedSilent (q : Int) : Prop := ∃ row, log.idx q = some row ∧ row.peerId = 0

/-- A round the log has a row of, with a peer. -/
def LoggedHeard (q : Int) : Prop := ∃ row, log.idx q = some row ∧ row.peerId ≠ 0

instance (q : Int) : Decidable (LoggedSilent log q) :=
  inferInstanceAs (Decidable (∃ row, log.idx q = some row ∧ row.peerId = 0))

instance (q : Int) : Decidable (LoggedHeard log q) :=
  inferInstanceAs (Decidable (∃ row, log.idx q = some row ∧ row.peerId ≠ 0))

/-- The last `n` rounds all have a row with no peer. -/
def SilentFor (n : Int) : Prop := ∀ i : Nat, (i : Int) < n → LoggedSilent log (p - i)

instance (n : Int) : Decidable (SilentFor log p n) :=
  decidable_of_iff (∀ i ∈ List.range n.toNat, LoggedSilent log (p - i))
    ⟨fun h i hi => h i (List.mem_range.mpr (by omega)), fun h i hi => h i (by have := List.mem_range.mp hi; omega)⟩

/-- Neither of the two places where the windows differ: nothing logged in the last
`n + 1` rounds has a peer but one of the last `n` is not logged; the last `n` are all
silent but the round before them is not. -/
def WindowsAgreeAt (n : Int) : Prop :=
  ((∀ i : Nat, (i : Int) ≤ n → ¬LoggedHeard log (p - i)) → ∀ i : Nat, (i : Int) < n → p - i ∈ log) ∧
    (SilentFor log p n → ¬LoggedHeard log (p - n))

end Window

/-- Exactly the destinations with a decision of the round that were silent in each of
the last `deep_delete` rounds are withdrawn and erased. -/
structure DeletesExactly (cfg : Config) (p : Nat) (m m' : Mem F) : Prop where
  gone : ∀ d rp, hopAt m.route d p = some rp → SilentFor (m.routeLog1.idx d) p cfg.deepDelete →
    CallsFor m m' d [.delete rp.currPeerId d] ∧ m'.r[d]? = none ∧ m'.route[d]? = none
  kept : ∀ d, ((hopAt m.route d p).isSome → ¬SilentFor (m.routeLog1.idx d) p cfg.deepDelete) →
    CallsFor m m' d [] ∧ m'.r[d]? = m.r[d]? ∧ m'.route[d]? = m.route[d]?

/-- No destination with a decision of the round is in one of these two places. -/
def WindowsAgree (cfg : Config) (p : Nat) (m : Mem F) : Prop :=
  ∀ d, d ∈ m.routeLog1 → (hopAt m.route d p).isSome → WindowsAgreeAt (m.routeLog1.idx d) p cfg.deepDelete

section Flag
variable {log : ExtTreeMap Int (Option (Tlog F))} {p : Int}

/-- What the window loop says when it meets no NULL. -/
theorem deleteFlag_iff (hlog : ∀ (q : Int) (v : Option (Tlog F)), log[q]? = some v → v.isSome) : ∀ (is : List Nat),
    deleteFlag log p is = some true ↔ ∀ i ∈ is, ¬LoggedHeard log (p - i) := by
  intro is
  induction is with
  | nil => simp [deleteFlag]
  | cons i is ih =>
    rw [deleteFlag, List.forall_mem_cons]
    by_cases hm : p - i ∈ log
    · obtain ⟨row, hrow⟩ := Option.isSome_iff_exists.mp (hlog _ _ (ExtTreeMap.getElem?_idx hm))
      by_cases h0 : row.peerId = 0
      · simp [hm, hrow, h0, ih, LoggedHeard]
      · simp [hm, hrow, h0, LoggedHeard]
    · have hno : ¬LoggedHeard log (p - i) := by
        intro h
        obtain ⟨row, hrow, -⟩ := h
        rw [ExtTreeMap.idx_of_not_mem hm] at hrow
        cases hrow
      simp [hm, ih, hno]

/-- A round without a peer is silent if it is logged at all. -/
theorem loggedSilent_of_mem (hlog : ∀ (q : Int) (v : Option (Tlog F)), log[q]? = some v → v.isSome) {q : Int}
    (hq : q ∈ log) (hno : ¬LoggedHeard log q) : LoggedSilent log q := by
  obtain ⟨row, hrow⟩ := Option.isSome_iff_exists.mp (hlog _ _ (ExtTreeMap.getElem?_idx hq))
  refine ⟨row, hrow, ?_⟩
  by_contra h0
  exact hno ⟨row, hrow, h0⟩

theorem LoggedSilent.not_heard {q : Int} (h : LoggedSilent log q) : ¬LoggedHeard log q := by
  obtain ⟨row, hrow, h0⟩ := h
  intro hheard
  obtain ⟨row', hrow', hne⟩ := hheard
  rw [hrow] at hrow'
  cases hrow'
  exact hne h0

theorem LoggedSilent.mem {q : Int} (h : LoggedSilent log q) : q ∈ log := by
  obtain ⟨row, hrow, -⟩ := h
  by_contra hq
  rw [ExtTreeMap.idx_of_not_mem hq] at hrow
  cases hrow

/-- The window of `pfr_delete` and the last `deep_delete` rounds call for the same
unless one of the two cases holds. -/
theorem flag_iff_silent (hlog : ∀ (q : Int) (v : Option (Tlog F)), log[q]? = some v → v.isSome) {n : Int} (hn : 1 ≤ n) :
    (deleteFlag log p (List.range (n + 1).toNat) = some true ↔ SilentFor log p n) ↔ WindowsAgreeAt log p n := by
  have hflag : deleteFlag log p (List.range (n + 1).toNat) = some true ↔
      ∀ i : Nat, (i : Int) ≤ n → ¬LoggedHeard log (p - i) := by
    rw [deleteFlag_iff hlog]
    constructor
    · intro h i hi
      exact h i (List.mem_range.mpr (by omega))
    · intro h i hi
      exact h i (by have := List.mem_range.mp hi; omega)
  rw [hflag]
  constructor
  · intro hiff
    refine ⟨?_, ?_⟩
    · intro hno i hi
      exact (hiff.mp hno i hi).mem
    · intro hsil
      have := hiff.mpr hsil n.toNat (by omega)
      rwa [Int.toNat_of_nonneg (by omega)] at this
  · intro hcases
    obtain ⟨hall, hlast⟩ := hcases
    constructor
    · intro hno i hi
      exact loggedSilent_of_mem hlog (hall hno i hi) (hno i (by omega))
    · intro hsil i hi
      rcases Int.lt_or_eq_of_le hi with hlt | heq
      · exact (hsil i hlt).not_heard
      · rw [heq]
        exact hlast hsil

end Flag

/-- The calls of `pfr_delete` about a destination. -/
theorem delete_callsFor {cfg : Config} {p : Int} {m m' : Mem F} (h : pfrDelete cfg p m = some m') (d : String) :
    CallsFor m m' d (if Deleted (deleteSel cfg p m.routeLog1) p m d then
      (hopAt m.route d p).toList.map fun rp => .delete rp.currPeerId d else []) := by
  unfold pfrDelete at h
  split at h
  · next hp =>
    cases h
    rw [if_neg]
    · exact (List.nil_append _).symm
    · intro hd
      have hsel := hd.2.1
      rw [deleteSel, if_pos hp] at hsel
      cases hsel
  · next hp =>
    have hkey : ∀ e c, deleteCall (fun d => deleteFlag (m.routeLog1.idx d) p (List.range (cfg.deepDelete + 1).toNat)) p m e =
        some c → c.dstIp = e := by
      intro e c hc
      unfold deleteCall at hc
      split at hc
      · obtain ⟨rp, -, rfl⟩ := Option.map_eq_some_iff.mp hc
        rfl
      · cases hc
    have hfor := callsFor_of_keys ExtTreeMap.nodup_keys hkey (deleteWalk_calls h) d
    simp only [ExtTreeMap.mem_keys, deleteCall] at hfor
    simp only [Deleted, deleteSel, if_neg hp]
    by_cases hd : d ∈ m.routeLog1
    · cases hhop : hopAt m.route d p <;> simp only [hd, hhop] at hfor ⊢
      · simpa using hfor
      · by_cases hflag : deleteFlag (m.routeLog1.idx d) p (List.range (cfg.deepDelete + 1).toNat) = some true
        · simpa [hflag] using hfor
        · simpa [hflag] using hfor
    · simpa [hd] using hfor

section Deletes
variable {cfg : Config} {p : Nat} {m m' : Mem F}

/-- At one destination the window and the last rounds call for the same where they agree. -/
theorem deleteSel_iff (hlog : ∀ (d : String) (q : Int) (v : Option (Tlog F)), (m.routeLog1.idx d)[q]? = some v → v.isSome)
    (hdeep : 1 ≤ cfg.deepDelete) (hp : cfg.deepDelete < p) (d : String) :
    (deleteSel cfg p m.routeLog1 d = some true ↔ SilentFor (m.routeLog1.idx d) p cfg.deepDelete) ↔
      WindowsAgreeAt (m.routeLog1.idx d) p cfg.deepDelete := by
  rw [deleteSel, if_neg (by omega)]
  exact flag_iff_silent (hlog d) hdeep

/-- Where the right destinations were removed the windows agreed. -/
theorem DeletesExactly.windowsAgree (h : DeletesExactly cfg p m m')
    (hlog : ∀ (d : String) (q : Int) (v : Option (Tlog F)), (m.routeLog1.idx d)[q]? = some v → v.isSome)
    (hdeep : 1 ≤ cfg.deepDelete) (hp : cfg.deepDelete < p) (hrun : pfrDelete cfg p m = some m') :
    WindowsAgree cfg p m := by
  intro d hd hhop
  refine (deleteSel_iff hlog hdeep hp d).mp ?_
  obtain ⟨rp, hrp⟩ := Option.isSome_iff_exists.mp hhop
  have hfor := delete_callsFor hrun d
  rw [hrp] at hfor
  constructor
  · intro hsel
    -- it was withdrawn, so it is not among those kept
    by_contra hsil
    have hkept := (h.kept d fun _ => hsil).1
    rw [if_pos ⟨hd, hsel, hhop⟩] at hfor
    cases hfor.unique hkept
  · intro hsil
    by_contra hsel
    have hgone := (h.gone d rp hrp hsil).1
    rw [if_neg fun hdel => hsel hdel.2.1] at hfor
    cases hfor.unique hgone

/-- Where they agree the right destinations are removed. -/
theorem DeletesExactly.of_windowsAgree (h : WindowsAgree cfg p m)
    (hlog : ∀ (d : String) (q : Int) (v : Option (Tlog F)), (m.routeLog1.idx d)[q]? = some v → v.isSome)
    (hdeep : 1 ≤ cfg.deepDelete) (hp : cfg.deepDelete < p) (hrun : pfrDelete cfg p m = some m') :
    DeletesExactly cfg p m m' := by
  have hs := delete_spec hrun
  have hiff : ∀ d, Deleted (deleteSel cfg p m.routeLog1) p m d ↔
      (hopAt m.route d p).isSome ∧ SilentFor (m.routeLog1.idx d) p cfg.deepDelete := by
    intro d
    constructor
    · intro hd
      exact ⟨hd.2.2, ((deleteSel_iff hlog hdeep hp d).mpr (h d hd.1 hd.2.2)).mp hd.2.1⟩
    · intro hd
      obtain ⟨hhop, hsil⟩ := hd
      have hmem : d ∈ m.routeLog1 := by
        by_contra hno
        have hin := (hsil 0 (by omega)).mem
        rw [ExtTreeMap.idx_of_not_mem hno] at hin
        exact ExtTreeMap.not_mem_empty hin
      exact ⟨hmem, ((deleteSel_iff hlog hdeep hp d).mpr (h d hmem hhop)).mpr hsil, hhop⟩
  refine ⟨?_, ?_⟩
  · intro d rp hrp hsil
    have hd := (hiff d).mpr ⟨by rw [hrp]; rfl, hsil⟩
    have hfor := delete_callsFor hrun d
    rw [if_pos hd, hrp] at hfor
    exact ⟨hfor, by rw [hs.r, if_pos hd], by rw [hs.route, if_pos hd]⟩
  · intro d hno
    have hd : ¬Deleted (deleteSel cfg p m.routeLog1) p m d :=
      fun hd => hno ((hiff d).mp hd).1 ((hiff d).mp hd).2
    have hfor := delete_callsFor hrun d
    rw [if_neg hd] at hfor
    exact ⟨hfor, by rw [hs.r, if_neg hd], by rw [hs.route, if_neg hd]⟩

end Deletes

/-- **When `pfr_delete` removes what it is for**, from any reachable state. -/
theorem deletes_exactly_iff [Dbl F] {cfg : Config} {v : F} {mm : PeerMap} {s : State F}
    (h : Lts.Path step AnyStep (State.init cfg v mm) s) (hpc : s.pc = .phase .delete) (hdeep : 1 ≤ s.cfg.deepDelete)
    (hp : s.cfg.deepDelete < s.probeId) :
    ∃ t, step s .phase = some t ∧
      (DeletesExactly s.cfg s.probeId s.mem t.mem ↔ WindowsAgree s.cfg s.probeId s.mem) := by
  have hlog := (recInv_path h).logSome
  obtain ⟨m', hm'⟩ := delete_isSome s.cfg s.probeId hlog
  have hstep : step s .phase = some { s with mem := m', pc := Phase.delete.next } := by
    simp [step, mainStep, hpc, runPhase, hm']
  exact ⟨_, hstep, fun hdel => hdel.windowsAgree hlog hdeep hp hm',
    fun hagree => .of_windowsAgree hagree hlog hdeep hp hm'⟩

/-- With `deep_delete` 1: heard in round 0, silent in rounds 1 and 2, and removed in round 2. -/
theorem deletes_exactly_run : ∃ s t : State ℚ, (Lts.Path step AnyStep
      (State.init { Config.default with deepDelete := 1 } (Dbl.num 50000) (.ofRows [(1, ⟨"192.0.2.1", "1:1"⟩)])) s ∧
    s.pc = .phase .delete ∧ 1 ≤ s.cfg.deepDelete ∧ s.cfg.deepDelete < s.probeId ∧ step s .phase = some t) ∧
    DeletesExactly s.cfg s.probeId s.mem t.mem ∧
    (hopAt s.mem.route "198.51.100.7" 2).isSome ∧ t.mem.route["198.51.100.7"]? = none := by
  obtain ⟨s, hs, hpc, hdeep, hp, hkeys, hin, hhop⟩ := exists_run (G := AnyStep)
    (State.init { Config.default with deepDelete := 1 } (Dbl.num 50000 : ℚ) (.ofRows [(1, ⟨"192.0.2.1", "1:1"⟩)]))
    (roundEvents ["198.51.100.7"] [⟨"198.51.100.7", 0, 1, 1, 20, 0⟩] ++ roundEvents ["198.51.100.7"] [] ++
      (roundEvents ["198.51.100.7"] []).take 10)
    (fun s => s.pc = .phase .delete ∧ s.cfg.deepDelete = 1 ∧ s.probeId = 2 ∧ s.mem.routeLog1.keys = ["198.51.100.7"] ∧
      (LoggedSilent (s.mem.routeLog1.idx "198.51.100.7") 2 ∧ LoggedSilent (s.mem.routeLog1.idx "198.51.100.7") 1) ∧
      (hopAt s.mem.route "198.51.100.7" 2).isSome) (by decide +kernel)
  obtain ⟨hlast, hbefore⟩ := hin
  obtain ⟨t, ht, hiff⟩ := deletes_exactly_iff hs hpc (by omega) (by omega)
  have hexact : DeletesExactly s.cfg s.probeId s.mem t.mem := by
    refine hiff.mpr fun d hd _ => ?_
    rw [← ExtTreeMap.mem_keys, hkeys, List.mem_singleton] at hd
    rw [hd, hp, hdeep]
    constructor
    · intro _ i hi
      obtain rfl : i = 0 := by omega
      exact hlast.mem
    · exact fun _ => hbefore.not_heard
  refine ⟨s, t, ⟨hs, hpc, by omega, by omega, ht⟩, hexact, hhop, ?_⟩
  obtain ⟨rp, hrp⟩ := Option.isSome_iff_exists.mp hhop
  refine (hexact.gone _ rp (by rw [hp]; exact hrp) ?_).2.2
  intro i hi
  obtain rfl : i = 0 := by omega
  rw [hp]
  exact hlast

/-- With the default `deep_delete` of 3: heard in round 1, silent in rounds 2 to 4. -/
theorem silent_not_deleted : ¬∀ s t : State ℚ,
    Lts.Path step AnyStep (State.boot [(1, ⟨"192.0.2.1", "1:1"⟩)]) s → s.pc = .phase .delete →
      1 ≤ s.cfg.deepDelete → s.cfg.deepDelete < s.probeId → step s .phase = some t →
      DeletesExactly s.cfg s.probeId s.mem t.mem := by
  intro hall
  obtain ⟨s, hs, hpc, hdeep, hp, hsil, hstep⟩ := exists_run (G := AnyStep)
    (State.boot (F := ℚ) [(1, ⟨"192.0.2.1", "1:1"⟩)])
    (roundEvents ["198.51.100.7"] [] ++ roundEvents ["198.51.100.7"] [⟨"198.51.100.7", 1, 1, 1, 20, 1⟩] ++
      roundEvents ["198.51.100.7"] [] ++ roundEvents ["198.51.100.7"] [] ++ (roundEvents ["198.51.100.7"] []).take 10)
    (fun s => s.pc = .phase .delete ∧ s.cfg.deepDelete = 3 ∧ s.probeId = 4 ∧
      SilentFor (s.mem.routeLog1.idx "198.51.100.7") s.probeId s.cfg.deepDelete ∧
      (step s .phase).any fun t => decide ((hopAt s.mem.route "198.51.100.7" s.probeId).isSome ∧
        (hopAt t.mem.route "198.51.100.7" s.probeId).isSome)) (by decide +kernel)
  obtain ⟨t, ht, hhops⟩ := Option.any_eq_true _ _ |>.mp hstep
  obtain ⟨hbefore, hafter⟩ := of_decide_eq_true hhops
  obtain ⟨rp, hrp⟩ := Option.isSome_iff_exists.mp hbefore
  have hgone := ((hall s t hs hpc (by omega) (by omega) ht).gone _ rp hrp hsil).2.2
  obtain ⟨rp', hrp'⟩ := Option.isSome_iff_exists.mp hafter
  have hin := mem_of_hopAt hrp'
  rw [ExtTreeMap.mem_iff_isSome_getElem?, hgone] at hin
  cases hin

end Pfr

import Pfr.DbThread
import Pfr.Packet

/- Where a destination's text comes from. Every map is keyed by it, `operator[]` inserts
   whatever key it is asked for, and the text ends in command lines given to `popen` and
   in rows given to `PQexec`. The only text that ever enters is the one `inet_ntop`
   makes of a source address in `proc_v4`; lists from the network, from shared memory or
   from the database are looked up in, and never inserted.

   1. `AllKeys P`: every destination in the maps and in the router calls has `P`;
   2. `AllKeys.phase`, `AllKeys.move`: for any `P`, every phase and every step keeps it,
      given that the sources of the replies have `P`;
   3. `dotted_inetNtop`: a text of `inet_ntop` has digits and dots only;
   4. `callLines`, `only_dotted_text`: so have the destination fields of all command
      lines and rows, in every run. -/
namespace Pfr

open Std CText Bytes

variable {F : Type}

/-- Every destination has `P`. -/
structure AllKeys (P : String → Prop) (m : Mem F) : Prop where
  r : ∀ d ∈ m.r, P d
  route : ∀ d ∈ m.route, P d
  routeLog1 : ∀ d ∈ m.routeLog1, P d
  calls : ∀ c ∈ m.calls, P c.dstIp

section Keys
variable {P : String → Prop} {m : Mem F} {d : String}

/-- A pass that makes no new key and no new call. -/
theorem AllKeys.of_sub {m' : Mem F} (h : AllKeys P m) (hr : ∀ d, d ∈ m'.r → d ∈ m.r)
    (hroute : ∀ d, d ∈ m'.route → d ∈ m.r ∨ d ∈ m.route) (hlog : ∀ d, d ∈ m'.routeLog1 → d ∈ m.r ∨ d ∈ m.routeLog1)
    (hcalls : m'.calls = m.calls) : AllKeys P m' where
  r := fun d hd => h.r d (hr d hd)
  route := by
    intro d hd
    rcases hroute d hd with hd | hd
    · exact h.r d hd
    · exact h.route d hd
  routeLog1 := by
    intro d hd
    rcases hlog d hd with hd | hd
    · exact h.r d hd
    · exact h.routeLog1 d hd
  calls := by
    rw [hcalls]
    exact h.calls

theorem AllKeys.called {m' : Mem F} {c : Call} (h : AllKeys P m) (hc : P c.dstIp) (hr : m'.r = m.r)
    (hroute : m'.route = m.route) (hlog : m'.routeLog1 = m.routeLog1) (hcalls : m'.calls = c :: m.calls) :
    AllKeys P m' where
  r := by rw [hr]; exact h.r
  route := by rw [hroute]; exact h.route
  routeLog1 := by rw [hlog]; exact h.routeLog1
  calls := by
    rw [hcalls]
    intro e he
    rcases List.mem_cons.mp he with he | he
    · rw [he]
      exact hc
    · exact h.calls e he

/-- Erasing a destination takes keys away. -/
theorem AllKeys.erase (h : AllKeys P m) (d : String) :
    AllKeys P { m with r := m.r.erase d, route := m.route.erase d } :=
  h.of_sub (fun _ he => ExtTreeMap.mem_of_mem_erase he) (fun _ he => Or.inr (ExtTreeMap.mem_of_mem_erase he))
    (fun _ he => Or.inr he) rfl

theorem AllKeys.delete (h : AllKeys P m) (a : Int) (hd : P d) : AllKeys P (pfrDeleteSetJrouterRt a d m) :=
  h.called (c := .delete a d) hd rfl rfl rfl rfl

theorem AllKeys.dropDst (h : AllKeys P m) (prev : Option (RtParm F)) (hd : P d) : AllKeys P (dropDst prev d m) := by
  unfold Pfr.dropDst
  cases prev with
  | none => exact h.erase d
  | some rp =>
    simp only
    split
    · exact (h.delete rp.currPeerId hd).erase d
    · exact h.erase d

theorem AllKeys.update {p : Int} {dstList : List String} {m' : Mem F} (h : AllKeys P m)
    (hrun : pfrRouteUpdate p dstList m = some m') : AllKeys P m' := by
  apply routeUpdate_walk (I := fun _ t => AllKeys P t) h ?_ ?_ hrun
  · exact fun _ _ _ _ _ _ ht => ht
  · exact fun _ d _ hd _ _ ht => ht.dropDst _ (h.r d hd)

theorem AllKeys.deleteWalk {flag : String → Option Bool} {p : Int} {m' : Mem F} (h : AllKeys P m)
    (hrun : deleteWalk flag p m = some m') : AllKeys P m' := by
  apply deleteWalk_walk (I := fun _ t => AllKeys P t) h ?_ ?_ hrun
  · exact fun _ _ _ _ _ _ ht => ht
  · exact fun _ d _ rp hd _ _ _ ht => (ht.delete rp.currPeerId (h.routeLog1 d hd)).erase d

theorem AllKeys.deletes {cfg : Config} {p : Int} {m' : Mem F} (h : AllKeys P m) (hrun : pfrDelete cfg p m = some m') :
    AllKeys P m' := by
  unfold pfrDelete at hrun
  split at hrun
  · cases hrun
    exact h
  · exact h.deleteWalk hrun

theorem AllKeys.man {cfg : Config} {p : Nat} {m' : Mem F} (h : AllKeys P m) (hrun : pfrRoutesMan cfg p m = some m') :
    AllKeys P m' := by
  refine (routesMan_walk (I := fun _ t => AllKeys P t) h ?_ hrun).1
  intro _ d t rp hd _ _ ht
  unfold manDst
  split
  · exact ht
  · exact ht.called (c := .create p rp.prevPeerId rp.currPeerId d) (h.route d hd) (create_r _ _ _ _ _ _)
      (create_route _ _ _ _ _ _) (create_routeLog1 _ _ _ _ _ _) (create_calls _ _ _ _ _ _)

theorem AllKeys.free (h : AllKeys P m) (p : Nat) : AllKeys P (pfrRouteFree p m) := by
  refine h.of_sub (fun d hd => (free_mem_r m).mp hd) ?_ (fun d hd => ?_) ?_
  · intro d hd
    by_cases hp : p < 2
    · rw [free_small m hp] at hd
      exact Or.inr hd
    · by_cases hdr : d ∈ m.r
      · exact Or.inl hdr
      · rw [ExtTreeMap.mem_iff_isSome_getElem?, free_route m (by omega), if_neg hdr,
          ← ExtTreeMap.mem_iff_isSome_getElem?] at hd
        exact Or.inr hd
  · rw [free_routeLog1] at hd
    exact Or.inr hd
  · rw [free_calls]

variable [Dbl F]

theorem AllKeys.scan {cfg : Config} {p : Nat} {m' : Mem F} (h : AllKeys P m) (hs : ScanSpec cfg p m m') :
    AllKeys P m' := by
  refine h.of_sub (fun d hd => (hs.mem_r d).mp hd) ?_ ?_ hs.calls
  · intro d hd
    rcases scan_hops hs d with heq | ⟨hdr, -⟩
    · rw [ExtTreeMap.mem_iff_isSome_getElem?, heq, ← ExtTreeMap.mem_iff_isSome_getElem?] at hd
      exact Or.inr hd
    · exact Or.inl hdr
  · intro d hd
    by_cases hdr : d ∈ m.r
    · exact Or.inl hdr
    · rw [ExtTreeMap.mem_iff_isSome_getElem?, (hs.off d hdr).2, ← ExtTreeMap.mem_iff_isSome_getElem?] at hd
      exact Or.inr hd

/-- **No phase makes up a destination.** -/
theorem AllKeys.phase {cfg : Config} {p : Nat} {l : List String} {m' : Mem F} {ph : Phase} (h : AllKeys P m)
    (hrun : runPhase cfg p l m ph = some m') : AllKeys P m' := by
  have hmap : ∀ {g : Samples F → Option (Samples F)} {r' : RData F}, mapPeers g p m.r = some r' →
      AllKeys P { m with r := r' } :=
    fun hr => h.of_sub (fun _ hd => (mem_mapPeers hr).mp hd) (fun _ => Or.inr) (fun _ => Or.inr) rfl
  cases ph with
  | update => exact h.update hrun
  | calcAvg =>
    obtain ⟨r', hr, rfl⟩ := Option.map_eq_some_iff.mp hrun
    exact hmap hr
  | calcStddev =>
    obtain ⟨r', hr, rfl⟩ := Option.map_eq_some_iff.mp hrun
    exact hmap hr
  | scan => exact h.scan (scan_spec hrun)
  | free =>
    cases hrun
    exact h.free p
  | delete => exact h.deletes hrun
  | man => exact h.man hrun

/-- A reply brings in its source address. -/
theorem AllKeys.receive (h : AllKeys P m) (x : Option (Reply F)) (hx : ∀ y, x = some y → P y.src) :
    AllKeys P (m.receive x) := by
  cases x with
  | none => exact h
  | some y =>
    refine ⟨?_, h.route, h.routeLog1, h.calls⟩
    intro d hd
    rcases mem_record.mp hd with hd | hd
    · rw [← hd]
      exact hx y rfl
    · exact h.r d hd

theorem AllKeys.scanSql {p : Nat} {a : Mem F × List (SqlRow F)} (h : AllKeys P m) (hrun : pfrRouteScanSql p m = some a) :
    AllKeys P a.1 ∧ ∀ row ∈ a.2, P row.dstIp := by
  have hw := scanSql_spec hrun
  constructor
  · refine h.of_sub (fun d hd => (hw.mem_r d).mp hd) (fun d hd => Or.inr ?_) (fun d hd => Or.inr ?_) hw.calls
    · rwa [hw.route] at hd
    · rwa [hw.routeLog1] at hd
  · intro row hrow
    apply h.r
    rw [← ExtTreeMap.mem_keys, ← hw.dsts]
    exact List.mem_map_of_mem hrow

end Keys

/-! ## Runs -/

section Runs
variable [Dbl F] {P : String → Prop}

/-- So have the sources of the replies that wait. -/
structure KeysInv (P : String → Prop) (s : State F) : Prop where
  mem : AllKeys P s.mem
  sock : ∀ x, some x ∈ s.sock → P x.src

/-- The source of an arriving reply has `P`. -/
def SourceHas (P : String → Prop) : Event F → Prop
  | .arrive (some x) => P x.src
  | _ => True

theorem KeysInv.move {s t : State F} {e : Event F} (h : KeysInv P s) (hG : SourceHas P e) (hm : Move s e t) :
    KeysInv P t := by
  cases hm with
  | arrive x =>
    refine ⟨h.mem, ?_⟩
    intro y hy
    rcases List.mem_append.mp hy with hy | hy
    · exact h.sock y hy
    · rw [List.mem_singleton] at hy
      subst hy
      exact hG
  | receive x rest _ hsock =>
    have hin : ∀ y, some y ∈ x :: rest → P y.src := fun y hy => h.sock y (by rw [hsock]; exact hy)
    refine ⟨h.mem.receive x fun y hy => hin y ?_, fun y hy => hin y (List.mem_cons_of_mem _ hy)⟩
    rw [hy]
    exact List.mem_cons_self
  | phase ph m _ hrun => exact ⟨h.mem.phase hrun, h.sock⟩
  | shutdown m _ hrun => exact ⟨h.mem.deleteWalk hrun, h.sock⟩
  | reread cfg v _ => exact ⟨⟨h.mem.r, h.mem.route, h.mem.routeLog1, h.mem.calls⟩, h.sock⟩
  | resume _ => exact ⟨⟨h.mem.r, h.mem.route, h.mem.routeLog1, h.mem.calls⟩, h.sock⟩
  | _ => exact ⟨h.mem, h.sock⟩

omit [Dbl F] in
theorem keysInv_init (P : String → Prop) (cfg : Config) (v : F) (mm : PeerMap) : KeysInv P (State.init cfg v mm) where
  mem := ⟨fun _ hd => absurd hd ExtTreeMap.not_mem_empty, fun _ hd => absurd hd ExtTreeMap.not_mem_empty,
    fun _ hd => absurd hd ExtTreeMap.not_mem_empty, fun _ hc => absurd hc List.not_mem_nil⟩
  sock := fun _ hx => absurd hx List.not_mem_nil

/-- With the database threads: what was sent names destinations with `P`. -/
structure DbKeys (P : String → Prop) (fmt : F → Text) (s : DbState F) : Prop where
  main : KeysInv P s.main
  log : s.ithlog.log.isSome
  queries : ∀ q ∈ s.queries, ∃ pfrPingReq rows, q = queryText fmt pfrPingReq rows ∧ ∀ row ∈ rows, P row.dstIp

def DbSourceHas (P : String → Prop) (_ : DbState F) : DbEvent F → Prop
  | .main e => SourceHas P e
  | _ => True

theorem DbKeys.move {fmt : F → Text} {s u : DbState F} {e : DbEvent F} (h : DbKeys P fmt s) (hG : DbSourceHas P s e)
    (hm : DbMove fmt s e u) : DbKeys P fmt u := by
  cases hm with
  | main e t u hstep hmain hq hlog =>
    refine ⟨?_, by rw [hlog]; exact h.log, by rw [hq]; exact h.queries⟩
    rw [hmain]
    exact h.main.move hG (move_of_step hstep).2
  | stop => exact ⟨h.main, h.log, h.queries⟩
  | refused _ => exact ⟨⟨h.main.mem, h.main.sock⟩, h.log, h.queries⟩
  | write connected a u hrun hmain hlog hwrote =>
    obtain ⟨hmem, hrows⟩ := h.main.mem.scanSql hrun
    refine ⟨?_, by rw [hlog]; exact h.log, ?_⟩
    · rw [hmain]
      exact ⟨hmem, h.main.sock⟩
    · intro q hq
      rw [(hwrote h.log).2] at hq
      rcases List.mem_cons.mp hq with hq | hq
      · exact ⟨_, a.2, hq, hrows⟩
      · exact h.queries q hq

end Runs

/-! ## Digits and dots -/

/-- The text `inet_ntop` makes of some four bytes. -/
def Dotted (d : String) : Prop := ∃ b o, d = inetNtop b o

def OnlyDotsAndDigits (s : Text) : Prop := ∀ c ∈ s, c.isDigit ∨ c = '.'

theorem dotted_byte (x : UInt8) : OnlyDotsAndDigits (toString x).toList := by
  intro c hc
  have hrepr : (toString x).toList = Nat.toDigits 10 x.toNat := Nat.toList_repr
  rw [hrepr] at hc
  exact Or.inl (Nat.isDigit_of_mem_toDigits (by omega) (by omega) hc)

/-- **What `inet_ntop` prints.** -/
theorem dotted_inetNtop {d : String} (h : Dotted d) : OnlyDotsAndDigits d.toList := by
  obtain ⟨b, o, rfl⟩ := h
  have htext : (inetNtop b o).toList = (toString (b o)).toList ++ '.' :: ((toString (b (o + 1))).toList ++
      '.' :: ((toString (b (o + 2))).toList ++ '.' :: (toString (b (o + 3))).toList)) := by
    rw [inetNtop, String.toList_intercalate]
    simp [List.intercalate]
  rw [htext]
  intro c hc
  simp only [List.mem_append, List.mem_cons] at hc
  rcases hc with hc | rfl | hc | rfl | hc | rfl | hc
  · exact dotted_byte _ c hc
  · exact Or.inr rfl
  · exact dotted_byte _ c hc
  · exact Or.inr rfl
  · exact dotted_byte _ c hc
  · exact Or.inr rfl
  · exact dotted_byte _ c hc

/-! ## Command lines -/

/-- `gobgp_path + " global rib add -a ipv4 " + dst_ip + "/32 community " + comm`, and the
same with `del`. -/
def gobgpLine (gobgpPath : Text) (verb : Text) (dstIp : String) (comm : Text) : Text :=
  gobgpPath ++ " global rib ".toList ++ verb ++ " -a ipv4 ".toList ++ dstIp.toList ++ "/32 community ".toList ++ comm

/-- The command lines a router call builds, `comm` giving each peer's community. The one
for the previous peer is built whether or not it is run. -/
def callLines (gobgpPath : Text) (comm : Int → Text) : Call → List Text
  | .create probeId prev curr d =>
    if probeId > 0 then
      (if probeId > 1 ∧ prev ≠ 0 then [gobgpLine gobgpPath "del".toList d (comm prev)] else []) ++
        [gobgpLine gobgpPath "add".toList d (comm curr)]
    else []
  | .delete curr d => [gobgpLine gobgpPath "del".toList d (comm curr)]

theorem mem_callLines {gobgpPath : Text} {comm : Int → Text} {c : Call} {line : Text}
    (h : line ∈ callLines gobgpPath comm c) : ∃ verb k, (verb = "add".toList ∨ verb = "del".toList) ∧
      line = gobgpLine gobgpPath verb c.dstIp (comm k) := by
  cases c with
  | create p prev curr d =>
    simp only [callLines] at h
    split at h
    · rcases List.mem_append.mp h with h | h
      · split at h
        · exact ⟨_, prev, Or.inr rfl, List.mem_singleton.mp h⟩
        · cases h
      · exact ⟨_, curr, Or.inl rfl, List.mem_singleton.mp h⟩
    · cases h
  | delete curr d => exact ⟨_, curr, Or.inr rfl, List.mem_singleton.mp h⟩

/-! ## Every run -/

section Dotted
variable [Dbl F]

/-- Each reply that arrives is one `proc_v4` decodes from the bytes of a packet. -/
def FromPackets (_ : DbState F) : DbEvent F → Prop
  | .main (.arrive (some x)) => ∃ pid b n tvrecv, decode pid b n tvrecv = some x
  | _ => True

theorem dotted_of_decode {pid : Int} {b : Buf} {n : Nat} {tvrecv : Timeval} {x : Reply F}
    (h : decode pid b n tvrecv = some x) : Dotted x.src := by
  unfold decode at h
  split at h
  · cases h
    exact ⟨b, 12, rfl⟩
  · cases h

theorem FromPackets.source {s : DbState F} {e : DbEvent F} (h : FromPackets s e) : DbSourceHas Dotted s e := by
  cases e with
  | main e =>
    cases e with
    | arrive x =>
      cases x with
      | none => exact trivial
      | some x =>
        obtain ⟨pid, b, n, tvrecv, hx⟩ := h
        exact dotted_of_decode hx
    | receive | timeout | ack | start | ask | take | phase | signals | release => exact trivial
  | stop => exact trivial
  | write connected => exact trivial

/-- What is keyed and sent in a run is a text of `inet_ntop`. -/
theorem dbKeys_of_path {fmt : F → Text} {cfg : Config} {v : F} {mm : PeerMap} {enableSqlLog connected : Bool}
    {s0 s : DbState F} (h0 : DbState.init cfg v mm enableSqlLog connected = some s0)
    (h : Lts.Path (dbStep fmt) FromPackets s0 s) : DbKeys Dotted fmt s := by
  have hstart : DbKeys Dotted fmt s0 := by
    obtain ⟨sqlLog, -, rfl⟩ := Option.map_eq_some_iff.mp h0
    exact ⟨keysInv_init Dotted cfg v mm, rfl, fun _ hq => absurd hq List.not_mem_nil⟩
  exact h.invariant hstart fun t e u hI hG hs => hI.move hG.source (dbMove_of_step hs)

/-- **Only dotted text is keyed, run and logged**: for any packets, lists, signals and
database answers, in any order. -/
theorem only_dotted_text {fmt : F → Text} {cfg : Config} {v : F} {mm : PeerMap} {enableSqlLog connected : Bool}
    {s0 s : DbState F} (h0 : DbState.init cfg v mm enableSqlLog connected = some s0)
    (h : Lts.Path (dbStep fmt) FromPackets s0 s) :
    (∀ d, d ∈ s.main.mem.r ∨ d ∈ s.main.mem.route ∨ d ∈ s.main.mem.routeLog1 → Dotted d ∧ OnlyDotsAndDigits d.toList) ∧
      (∀ c ∈ s.main.mem.calls, OnlyDotsAndDigits c.dstIp.toList ∧ ∀ gobgpPath comm, ∀ line ∈ callLines gobgpPath comm c,
        ∃ verb k, (verb = "add".toList ∨ verb = "del".toList) ∧ line = gobgpLine gobgpPath verb c.dstIp (comm k)) ∧
      ∀ q ∈ s.queries, ∃ pfrPingReq rows, q = queryText fmt pfrPingReq rows ∧
        ∀ row ∈ rows, OnlyDotsAndDigits row.dstIp.toList := by
  have hinv := dbKeys_of_path h0 h
  refine ⟨?_, ?_, ?_⟩
  · intro d hd
    have hdot : Dotted d := by
      rcases hd with hd | hd | hd
      · exact hinv.main.mem.r d hd
      · exact hinv.main.mem.route d hd
      · exact hinv.main.mem.routeLog1 d hd
    exact ⟨hdot, dotted_inetNtop hdot⟩
  · intro c hc
    exact ⟨dotted_inetNtop (hinv.main.mem.calls c hc), fun gobgpPath comm line hline => mem_callLines hline⟩
  · intro q hq
    obtain ⟨pfrPingReq, rows, hq, hrows⟩ := hinv.queries q hq
    exact ⟨pfrPingReq, rows, hq, fun row hrow => dotted_inetNtop (hrows row hrow)⟩

/-- Nothing arrives. -/
def NoArrival (_ : DbState F) : DbEvent F → Prop
  | .main (.arrive _) => False
  | _ => True

instance (s : DbState F) : (e : DbEvent F) → Decidable (NoArrival s e)
  | .main (.arrive _) => .isFalse id
  | .main .receive | .main .timeout | .main .ack | .main (.start _) | .main .ask | .main .take | .main .phase
  | .main (.signals _) | .main .release | .stop | .write _ => .isTrue trivial

theorem NoArrival.fromPackets {s : DbState F} {e : DbEvent F} (h : NoArrival s e) : FromPackets s e := by
  cases e with
  | main e =>
    cases e with
    | arrive x => exact absurd h id
    | receive | timeout | ack | start | ask | take | phase | signals | release => exact trivial
  | stop => exact trivial
  | write connected => exact trivial

end Dotted

/-- One packet is received and a round is logged. -/
theorem only_dotted_text_run : ∃ s0 s : DbState ℚ, (DbState.init Config.default (Dbl.num 50000)
      (.ofRows [(1, ⟨"192.0.2.1", "1:1"⟩)]) true true = some s0 ∧ Lts.Path (dbStep wholeText) FromPackets s0 s) ∧
    ("198.51.100.7" ∈ s.main.mem.r ∧ s.queries ≠ []) ∧
    (∀ d, d ∈ s.main.mem.r ∨ d ∈ s.main.mem.route ∨ d ∈ s.main.mem.routeLog1 → Dotted d ∧ OnlyDotsAndDigits d.toList) ∧
    ∀ q ∈ s.queries, ∃ pfrPingReq rows, q = queryText wholeText pfrPingReq rows ∧
      ∀ row ∈ rows, OnlyDotsAndDigits row.dstIp.toList := by
  obtain ⟨s0, hs0⟩ : ∃ s0 : DbState ℚ, DbState.init Config.default (Dbl.num 50000)
      (.ofRows [(1, ⟨"192.0.2.1", "1:1"⟩)]) true true = some s0 := ⟨_, rfl⟩
  -- the packet arrives first
  have hdecode : Accepts 1 (load fullReply .zero) fullReply.length := by decide
  obtain ⟨s1, hs1⟩ : ∃ s1, dbStep wholeText s0
      (.main (.arrive (some (icmpReply (load fullReply .zero) (hlen1 (load fullReply .zero)) ⟨1, 0⟩)))) = some s1 := by
    cases hs0
    exact ⟨_, rfl⟩
  have harrived : Lts.Path (dbStep wholeText) FromPackets s0 s1 := by
    refine .tail .refl ?_ hs1
    exact ⟨1, load fullReply .zero, fullReply.length, ⟨1, 0⟩, if_pos hdecode⟩
  obtain ⟨s, hs, hkey, hq⟩ := exists_dbRun wholeText (G := NoArrival) s1
    ([.main (.start ["198.51.100.7"]), .main .receive, .main .ack, .main .ask, .main .timeout, .main .ack, .main .take,
      .main .phase, .main .phase, .main .phase, .main .phase, .write true])
    (fun s => "198.51.100.7" ∈ s.main.mem.r ∧ s.queries.length = 1) (by cases hs0; cases hs1; decide +kernel)
  have hpath := harrived.trans (hs.mono fun _ _ h => h.fromPackets)
  obtain ⟨hkeys, -, hqueries⟩ := only_dotted_text hs0 hpath
  refine ⟨s0, s, ⟨hs0, hpath⟩, ⟨hkey, ?_⟩, hkeys, hqueries⟩
  intro hnil
  rw [hnil] at hq
  cases hq

end Pfr

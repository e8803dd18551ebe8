import Pfr.ScanSql
import Pfr.Lib.CText

/- The database thread. `main` makes one `pfr_sql_log` from `enable_sql_log` and hands a
   pointer to it to the thread of each round, in a `thlog`. The thread turns the pointer
   back into an object by `pfr_sql_log sql_log = thl->log`, which is the constructor
   applied to the pointer as a `bool`: a second logger, with logging on, whatever the
   first one was made from.

     `insert`  appends a row to `ins_multi` if `allow_sql_log` is set
     `commit`  sends `ins_head` and the rows, without looking at the flag

   A thread's run is one step: its reads of the maps are not interleaved with `main`'s
   writes. Proved here:
   1. `commit_rows`: the text the thread sends for its rows;
   2. `DbMove`: what a step of the daemon with its threads can do;
   3. `sent_only_with_database`: with logging off nothing is sent as long as no thread reaches
      the database, and the first one that does sends an `insert`;
   4. `insert_sent_though_off`: a run in which one does. -/
namespace Pfr

open Std CText

/-- `pfr_sql_log`. The constructor assigns its fields only if it is given `true`; `none`
is a flag never assigned. -/
structure PfrSqlLog where
  allowSqlLog : Option Bool
  insHead : Text
  insMulti : Text

def PfrSqlLog.head : Text :=
  "insert into pfr_log (datetime, ccase_id, ipv4_dest_address, probe_id, peer_id, pkts, rtt_min, rtt_avg, max_rtt, stddev_rtt, mediana_rtt ,pkt_loss, ts) values ".toList

/-- `ins_head` as `commit` leaves it. -/
def PfrSqlLog.nextHead : Text :=
  "insert into pfr_log (datetime, ccase_id, ipv4_dest_address, probe_id, peer_id, pkts, rtt_min, rtt_avg, max_rtt, stddev_rtt, mediana_rtt, pkt_loss, ts) values ".toList

/-- The constructor. `connected` is what `PQstatus` says; on `CONNECTION_BAD` the process
exits, which is `none`. -/
def PfrSqlLog.new (allowSqlLog connected : Bool) : Option PfrSqlLog :=
  if allowSqlLog then
    if connected then some ⟨some true, head, []⟩ else none
  else some ⟨none, [], []⟩

section Texts
variable {F : Type} (fmt : F → Text) (pfrPingReq : Int)

/-- What `insert` streams for a row; `fmt` is the stream's text of a `double`. -/
def rowText (row : SqlRow F) : Text :=
  " (now(), ".toList ++ toText row.ccase ++ ", '".toList ++ row.dstIp.toList ++ "', ".toList ++
    toText row.probeId ++ ", ".toList ++ toText row.peerId ++ ", ".toList ++ toText pfrPingReq ++ ", ".toList ++
    fmt row.minRtt ++ ", ".toList ++ fmt row.avgRtt ++ ", ".toList ++ fmt row.maxRtt ++ ", ".toList ++
    fmt row.stddevRtt ++ ", ".toList ++ fmt row.medianaRtt ++ ", ".toList ++ toText row.lost ++ ", ".toList ++
    toText row.ts ++ "), ".toList

/-- `insert`; a flag that was never assigned cannot be read. -/
def PfrSqlLog.insert (log : PfrSqlLog) (row : SqlRow F) : Option PfrSqlLog :=
  log.allowSqlLog.map fun allow =>
    if allow then { log with insMulti := log.insMulti ++ rowText fmt pfrPingReq row } else log

/-- `s.substr(0, s.size() - 2)`; below two characters the length wraps and all is kept. -/
def cutTail (s : Text) : Text := if s.length < 2 then s else s.dropLast.dropLast

/-- `commit`: the text passed to `PQexec`, and the object afterwards. -/
def PfrSqlLog.commit (log : PfrSqlLog) : Text × PfrSqlLog :=
  (log.insHead ++ (cutTail log.insMulti ++ [';']), { log with insHead := nextHead, insMulti := [] })

/-- The text of one commit for a list of rows. -/
def queryText (rows : List (SqlRow F)) : Text :=
  PfrSqlLog.head ++ (cutTail (rows.flatMap (rowText fmt pfrPingReq)) ++ [';'])

/-- The rows are appended in their order. The induction is on the rows still to come. -/
theorem foldlM_insert (head : Text) : ∀ (rows : List (SqlRow F)) (multi : Text),
    rows.foldlM (PfrSqlLog.insert fmt pfrPingReq) ⟨some true, head, multi⟩ =
      some ⟨some true, head, multi ++ rows.flatMap (rowText fmt pfrPingReq)⟩
  | [], multi => by
    rw [List.foldlM_nil, List.flatMap_nil, List.append_nil]
    rfl
  | row :: rows, multi => by
    have hrow : PfrSqlLog.insert fmt pfrPingReq ⟨some true, head, multi⟩ row =
        some ⟨some true, head, multi ++ rowText fmt pfrPingReq row⟩ := rfl
    rw [List.foldlM_cons, hrow, Option.bind_eq_bind, Option.bind_some, foldlM_insert head rows, List.flatMap_cons,
      List.append_assoc]

/-- A logger made for a thread that reaches the database sends its rows' text. -/
theorem commit_rows (rows : List (SqlRow F)) :
    ∃ log, rows.foldlM (PfrSqlLog.insert fmt pfrPingReq) ⟨some true, PfrSqlLog.head, []⟩ = some log ∧
      log.commit.1 = queryText fmt pfrPingReq rows :=
  ⟨_, foldlM_insert fmt pfrPingReq PfrSqlLog.head rows [], by rw [PfrSqlLog.commit, queryText, List.nil_append]⟩

/-- It is an `INSERT`, with no row at all too. -/
theorem queryText_insert (rows : List (SqlRow F)) : "insert".toList <+: queryText fmt pfrPingReq rows := by
  have hhead : "insert".toList <+: PfrSqlLog.head := by
    unfold PfrSqlLog.head
    iterate 2 rw [String.toList_ofList]
    decide +kernel
  exact hhead.trans (List.prefix_append _ _)

end Texts

/-! ## The daemon with its database threads -/

/-- `thlog`; a NULL pointer is `none`. -/
structure Thlog where
  probeId : Nat
  log : Option PfrSqlLog

structure DbState (F : Type) where
  main : State F
  ithlog : Thlog
  /-- `sig_usr1_flag || sig_int_flag`. -/
  stop : Bool
  /-- Threads started that have not run. -/
  threads : Nat
  /-- The texts passed to `PQexec`, newest first. -/
  queries : List Text

/-- Before the first round; `main` makes its logger from `enable_sql_log`. -/
def DbState.init {F : Type} (cfg : Config) (minRtt : F) (mm : PeerMap) (enableSqlLog connected : Bool) :
    Option (DbState F) :=
  (PfrSqlLog.new enableSqlLog connected).map fun sqlLog =>
    { main := State.init cfg minRtt mm
      ithlog := ⟨0, some sqlLog⟩
      stop := false
      threads := 0
      queries := [] }

inductive DbEvent (F : Type) where
  | main : Event F → DbEvent F
  | stop
  /-- A thread runs; the database is there or not. -/
  | write : Bool → DbEvent F

variable {F : Type} [Dbl F]

/-- The signals `main` sees are those of the flags. -/
def signalOk (stop : Bool) : Event F → Bool
  | .signals .shutdown => stop
  | .signals _ => !stop
  | _ => true

/-- After the scan `main` starts a thread, unless it is to stop. -/
def DbState.spawn (s : DbState F) (t : State F) : DbState F :=
  if s.main.pc = .phase .scan ∧ t.pc = .phase .free ∧ s.stop = false then
    { s with main := t, threads := s.threads + 1, ithlog := { s.ithlog with probeId := s.main.probeId } }
  else { s with main := t }

/-- `pfr_route_scan_sql` from its logger's construction to its commit. -/
def DbState.write (fmt : F → Text) (s : DbState F) (connected : Bool) : Option (DbState F) :=
  match PfrSqlLog.new s.ithlog.log.isSome connected with
  | none => some { s with main := { s.main with pc := .exited } }
  | some sqlLog => do
    let a ← pfrRouteScanSql s.ithlog.probeId s.main.mem
    let log ← a.2.foldlM (PfrSqlLog.insert fmt s.main.cfg.pfrPingReq) sqlLog
    return { s with
      main := { s.main with mem := a.1 }
      threads := s.threads - 1
      queries := log.commit.1 :: s.queries }

def dbStep (fmt : F → Text) (s : DbState F) : DbEvent F → Option (DbState F)
  | .main e => if signalOk s.stop e then (step s.main e).map s.spawn else none
  | .stop => if s.main.pc = .exited then none else some { s with stop := true }
  | .write connected => if s.main.pc = .exited ∨ s.threads = 0 then none else s.write fmt connected

/-- What a step of the daemon with its threads can do. -/
inductive DbMove (fmt : F → Text) (s : DbState F) : DbEvent F → DbState F → Prop where
  | main (e : Event F) (t : State F) (u : DbState F) : step s.main e = some t → u.main = t → u.queries = s.queries →
      u.ithlog.log = s.ithlog.log → DbMove fmt s (.main e) u
  | stop : DbMove fmt s .stop { s with stop := true }
  | refused : s.ithlog.log.isSome → DbMove fmt s (.write false) { s with main := { s.main with pc := .exited } }
  | write (connected : Bool) (a : Mem F × List (SqlRow F)) (u : DbState F) : pfrRouteScanSql s.ithlog.probeId s.main.mem = some a →
      u.main = { s.main with mem := a.1 } → u.ithlog = s.ithlog →
      (s.ithlog.log.isSome → connected = true ∧ u.queries = queryText fmt s.main.cfg.pfrPingReq a.2 :: s.queries) →
      DbMove fmt s (.write connected) u

theorem dbMove_of_step {fmt : F → Text} {s u : DbState F} {e : DbEvent F} (h : dbStep fmt s e = some u) :
    DbMove fmt s e u := by
  cases e with
  | main e =>
    simp only [dbStep] at h
    split at h
    · obtain ⟨t, ht, rfl⟩ := Option.map_eq_some_iff.mp h
      unfold DbState.spawn
      split
      · exact .main e t _ ht rfl rfl rfl
      · exact .main e t _ ht rfl rfl rfl
    · cases h
  | stop =>
    simp only [dbStep] at h
    split at h
    · cases h
    · cases h
      exact .stop
  | write connected =>
    simp only [dbStep] at h
    split at h
    · cases h
    · unfold DbState.write at h
      cases hlog : s.ithlog.log with
      | none =>
        -- a NULL pointer makes a logger that is off
        rw [hlog] at h
        obtain ⟨a, ha, h⟩ := Option.bind_eq_some_iff.mp h
        obtain ⟨log, -, h⟩ := Option.bind_eq_some_iff.mp h
        cases h
        refine .write connected a _ ha rfl rfl ?_
        intro hsome
        rw [hlog] at hsome
        cases hsome
      | some log =>
        rw [hlog] at h
        cases connected with
        | false =>
          cases h
          exact .refused (by rw [hlog]; rfl)
        | true =>
          obtain ⟨a, ha, h⟩ := Option.bind_eq_some_iff.mp h
          obtain ⟨log', hlog', hcommit⟩ := commit_rows fmt s.main.cfg.pfrPingReq a.2
          obtain ⟨log'', hlog'', h⟩ := Option.bind_eq_some_iff.mp h
          obtain rfl : log' = log'' := Option.some.inj (hlog'.symm.trans hlog'')
          cases h
          refine .write true a _ ha rfl rfl ?_
          intro _
          exact ⟨rfl, by rw [hcommit]⟩

/-! ## Runs -/

/-- The guard of unrestricted runs. -/
def AnyDb (_ : DbState F) (_ : DbEvent F) : Prop := True

instance (s : DbState F) (e : DbEvent F) : Decidable (AnyDb s e) := inferInstanceAs (Decidable True)

/-- No thread finds the database. -/
def NoDatabase (_ : DbState F) : DbEvent F → Prop
  | .write connected => connected = false
  | _ => True

instance (s : DbState F) : (e : DbEvent F) → Decidable (NoDatabase s e)
  | .write _ => inferInstanceAs (Decidable (_ = _))
  | .main _ | .stop => .isTrue trivial

/-- Events executed one by one end a run of the daemon with its threads. -/
theorem exists_dbRun (fmt : F → Text) {G : DbState F → DbEvent F → Prop} [∀ s e, Decidable (G s e)] (s : DbState F)
    (es : List (DbEvent F)) (P : DbState F → Prop) [DecidablePred P]
    (h : ((Lts.runG (dbStep fmt) G s es).any fun t => decide (P t)) = true) :
    ∃ t, Lts.Path (dbStep fmt) G s t ∧ P t :=
  Lts.Path.exists_of_runG s es P h

/-- No text of an `INSERT` was passed to `PQexec`. -/
def NoInsert (s : DbState F) : Prop := ∀ q ∈ s.queries, ¬"insert".toList <+: q

/-- Nothing was sent, and the threads are handed a logger. -/
def Unlogged (s : DbState F) : Prop := s.queries = [] ∧ s.ithlog.log.isSome

theorem Unlogged.move {fmt : F → Text} {s u : DbState F} {e : DbEvent F} (h : Unlogged s) (hG : NoDatabase s e)
    (hm : DbMove fmt s e u) : Unlogged u := by
  cases hm with
  | main e t u hstep hmain hq hlog =>
    constructor
    · rw [hq]
      exact h.1
    · rw [hlog]
      exact h.2
  | stop => exact h
  | refused _ => exact h
  | write connected a u _ _ _ hwrote =>
    have hfalse : connected = false := hG
    rw [(hwrote h.2).1] at hfalse
    cases hfalse

/-- **When logging that is off sends nothing.** In a run in which no thread finds the
database; the first thread that does find it sends an `INSERT`, whatever it has to log. -/
theorem sent_only_with_database {fmt : F → Text} {cfg : Config} {v : F} {mm : PeerMap} {connected : Bool} {s0 s : DbState F}
    (hoff : DbState.init cfg v mm false connected = some s0) (h : Lts.Path (dbStep fmt) NoDatabase s0 s) :
    NoInsert s ∧ ∀ e u, dbStep fmt s e = some u → ¬NoDatabase s e → ¬NoInsert u := by
  have hstart : Unlogged s0 := by
    obtain ⟨sqlLog, -, rfl⟩ := Option.map_eq_some_iff.mp hoff
    exact ⟨rfl, rfl⟩
  have hun : Unlogged s := h.invariant hstart fun t e u hI hG hs => hI.move hG (dbMove_of_step hs)
  constructor
  · intro q hq
    rw [hun.1] at hq
    cases hq
  · intro e u hstep hG hno
    cases dbMove_of_step hstep with
    | main e t u _ _ _ _ => exact hG trivial
    | stop => exact hG trivial
    | refused _ => exact hG rfl
    | write connected a u _ _ _ hwrote =>
      obtain ⟨-, hq⟩ := hwrote hun.2
      exact hno _ (by rw [hq]; exact List.mem_cons_self) (queryText_insert fmt s.main.cfg.pfrPingReq a.2)

/-- The stream's text of a `double` that is a whole number. -/
def wholeText (x : ℚ) : Text := toText x.floor

/-- The database is gone when the first thread runs, and the process exits. -/
theorem sent_only_with_database_run : ∃ s0 s : DbState ℚ, (DbState.init Config.default (Dbl.num 50000)
      (.ofRows [(1, ⟨"192.0.2.1", "1:1"⟩)]) false true = some s0 ∧ Lts.Path (dbStep wholeText) NoDatabase s0 s) ∧
    s.main.pc = .exited ∧ NoInsert s := by
  obtain ⟨s0, hs0⟩ : ∃ s0 : DbState ℚ, DbState.init Config.default (Dbl.num 50000)
      (.ofRows [(1, ⟨"192.0.2.1", "1:1"⟩)]) false true = some s0 := ⟨_, rfl⟩
  obtain ⟨s, hs, hpc⟩ := exists_dbRun wholeText (G := NoDatabase) s0
    (((roundEvents ["198.51.100.7"] [⟨"198.51.100.7", 0, 1, 1, 20, 0⟩]).take 12).map .main ++ [.write false])
    (fun s => s.main.pc = .exited) (by cases hs0; decide +kernel)
  exact ⟨s0, s, ⟨hs0, hs⟩, hpc, (sent_only_with_database hs0 hs).1⟩

/-- One round with logging off: the thread's own logger is on. -/
theorem insert_sent_though_off : ¬∀ s0 s : DbState ℚ, DbState.init Config.default (Dbl.num 50000)
      (.ofRows [(1, ⟨"192.0.2.1", "1:1"⟩)]) false true = some s0 → Lts.Path (dbStep wholeText) AnyDb s0 s → NoInsert s := by
  intro hall
  obtain ⟨s0, hs0⟩ : ∃ s0 : DbState ℚ, DbState.init Config.default (Dbl.num 50000)
      (.ofRows [(1, ⟨"192.0.2.1", "1:1"⟩)]) false true = some s0 := ⟨_, rfl⟩
  obtain ⟨s, hs, hq⟩ := exists_dbRun wholeText (G := AnyDb) s0
    (((roundEvents ["198.51.100.7"] [⟨"198.51.100.7", 0, 1, 1, 20, 0⟩]).take 12).map .main ++ [.write true])
    (fun s => ∃ q ∈ s.queries, "insert".toList <+: q) (by cases hs0; decide +kernel)
  obtain ⟨q, hmem, hinsert⟩ := hq
  exact hall s0 s hs0 hs q hmem hinsert

end Pfr

import Pfr.DottedKeys
import Pfr.Lib.Dotted
import Pfr.Lib.Sql

/- The text of a commit as a statement. `insert` appends a row with the separator behind it,
   `commit` cuts the last separator off, puts `ins_head` in front and ';' behind, and sets
   `ins_head` again for the next commit.

   1. `columns`: what stands in each column, in the order of `ins_head`;
   2. `rowText_eq`, `rows_text`: the rows as tuples between commas;
   3. `isInsert_iff`: the text of some rows is an `INSERT` of them if there is a row, and no
      destination has a quote in it;
   4. `runLog_eq`: over any calls of one logger, each commit sends the rows since the last
      one, and no other;
   5. `log_statement`: so a round's text is a statement for any `r` with a destination;
   6. `sent_rows`: in every run of the daemon the texts sent are such ones, or of no row. -/
namespace Pfr

open Std CText Sql

variable {F : Type}

/-- The columns of `pfr_log`, and what a row has in each. -/
def columns (fmt : F → Text) (pfrPingReq : Int) : List (Text × (SqlRow F → Value)) :=
  [("datetime".toList, fun _ => .call "now".toList),
    ("ccase_id".toList, fun row => .word (toText row.ccase)),
    ("ipv4_dest_address".toList, fun row => .quoted row.dstIp.toList),
    ("probe_id".toList, fun row => .word (toText row.probeId)),
    ("peer_id".toList, fun row => .word (toText row.peerId)),
    ("pkts".toList, fun _ => .word (toText pfrPingReq)),
    ("rtt_min".toList, fun row => .word (fmt row.minRtt)),
    ("rtt_avg".toList, fun row => .word (fmt row.avgRtt)),
    ("max_rtt".toList, fun row => .word (fmt row.maxRtt)),
    ("stddev_rtt".toList, fun row => .word (fmt row.stddevRtt)),
    ("mediana_rtt".toList, fun row => .word (fmt row.medianaRtt)),
    ("pkt_loss".toList, fun row => .word (toText row.lost)),
    ("ts".toList, fun row => .word (toText row.ts))]

/-! ## The head -/

/-- `ins_head` names the columns. -/
def NamesColumns (head : Text) : Prop := ∃ names,
  Listed Column ["datetime".toList, "ccase_id".toList, "ipv4_dest_address".toList, "probe_id".toList, "peer_id".toList,
    "pkts".toList, "rtt_min".toList, "rtt_avg".toList, "max_rtt".toList, "stddev_rtt".toList, "mediana_rtt".toList,
    "pkt_loss".toList, "ts".toList] names ∧
  head = "insert into ".toList ++ ("pfr_log".toList ++ (" (".toList ++ (names ++ ") values ".toList)))

/-- The names of the columns are words. -/
theorem plain_names : ∀ n ∈ ["datetime".toList, "ccase_id".toList, "ipv4_dest_address".toList, "probe_id".toList,
    "peer_id".toList, "pkts".toList, "rtt_min".toList, "rtt_avg".toList, "max_rtt".toList, "stddev_rtt".toList,
    "mediana_rtt".toList, "pkt_loss".toList, "ts".toList], Sql.Plain n := by
  iterate 13 rw [String.toList_ofList]
  decide +kernel

/-- The constructor's head has a blank before a comma. -/
theorem namesColumns_head : NamesColumns PfrSqlLog.head := by
  have hfront : Listed Column ["datetime".toList, "ccase_id".toList, "ipv4_dest_address".toList, "probe_id".toList,
      "peer_id".toList, "pkts".toList, "rtt_min".toList, "rtt_avg".toList, "max_rtt".toList, "stddev_rtt".toList] _ :=
    listed_names (by simp) fun n hn =>
      plain_names n (List.mem_append_left ["mediana_rtt".toList, "pkt_loss".toList, "ts".toList] hn)
  have hmediana : Listed Column ["mediana_rtt".toList] (' ' :: ("mediana_rtt".toList ++ [' '])) :=
    .one ⟨[' '], "mediana_rtt".toList, [' '], by decide, ⟨plain_names _ (by simp), rfl⟩, by decide, rfl⟩
  have hback : Listed Column ["pkt_loss".toList, "ts".toList] _ := listed_names (by simp) fun n hn =>
    plain_names n (List.mem_append_right ["datetime".toList, "ccase_id".toList, "ipv4_dest_address".toList,
      "probe_id".toList, "peer_id".toList, "pkts".toList, "rtt_min".toList, "rtt_avg".toList, "max_rtt".toList,
      "stddev_rtt".toList, "mediana_rtt".toList] hn)
  refine ⟨_, hfront.append (hmediana.append hback), ?_⟩
  unfold PfrSqlLog.head
  simp only [commas_cons, commas_one]
  iterate 18 rw [String.toList_ofList]
  decide +kernel

theorem namesColumns_nextHead : NamesColumns PfrSqlLog.nextHead := by
  refine ⟨_, listed_names (by simp) plain_names, ?_⟩
  unfold PfrSqlLog.nextHead
  simp only [commas_cons, commas_one]
  iterate 18 rw [String.toList_ofList]
  decide +kernel

/-! ## The rows -/

theorem plain_of_signed {t : Text} (hne : t ≠ []) (h : ∀ c ∈ t, c.isDigit ∨ c = '-') : Sql.Plain t := by
  refine ⟨hne, ?_⟩
  intro c hc hin
  have hends : ∀ e ∈ [' ', ',', ';', '(', ')', quoteMark], ¬(e.isDigit ∨ e = '-') := by
    simp only [List.forall_mem_cons, List.not_mem_nil, false_implies, implies_true]
    decide
  exact hends c hin (h c hc)

/-- An `int` in a text is a word. -/
theorem plain_toText (n : Int) : Sql.Plain (toText n) := by
  cases n with
  | ofNat k => exact plain_of_signed (toText_ne_nil k) fun c hc => Or.inl (isDigit_of_mem_toText hc)
  | negSucc k =>
    have htext : toText (Int.negSucc k) = '-' :: toText (k + 1 : Nat) := by
      have hneg : toString (Int.negSucc k) = "-" ++ toString (k + 1) := rfl
      rw [toText_natCast, toText, hneg]
      simp
    rw [htext]
    apply plain_of_signed (List.cons_ne_nil _ _)
    intro c hc
    rcases List.mem_cons.mp hc with rfl | hc
    · exact Or.inr rfl
    · exact Or.inl (isDigit_of_mem_toText hc)

section Rows
variable (fmt : F → Text) (pfrPingReq : Int)

/-- What a row has in the columns. -/
def rowValues (row : SqlRow F) : List Value := (columns fmt pfrPingReq).map (·.2 row)

theorem rowText_eq (row : SqlRow F) :
    rowText fmt pfrPingReq row = (' ' :: tuple (rowValues fmt pfrPingReq row)) ++ ", ".toList := by
  have hopen : " (now(), ".toList = ' ' :: '(' :: ("now".toList ++ ['(', ')'] ++ ", ".toList) := by decide
  have hquote : ", '".toList = ", ".toList ++ [quoteMark] := by decide
  have hunquote : "', ".toList = quoteMark :: ", ".toList := by decide
  have hclose : "), ".toList = ')' :: ", ".toList := by decide
  unfold rowText
  rw [hopen, hquote, hunquote, hclose]
  simp only [tuple, rowValues, columns, List.map_cons, List.map_nil, Value.text, commas_cons, commas_one]
  generalize ", ".toList = sep
  generalize "now".toList = now
  simp only [List.append_assoc, List.cons_append, List.nil_append]

/-- **The rows of a text** are tuples between commas; the last separator is cut off. -/
theorem rows_text {rows : List (SqlRow F)} (hne : rows ≠ []) :
    cutTail (rows.flatMap (rowText fmt pfrPingReq)) = commas (rows.map fun row => ' ' :: tuple (rowValues fmt pfrPingReq row)) := by
  have htext : rows.flatMap (rowText fmt pfrPingReq) =
      commas (rows.map fun row => ' ' :: tuple (rowValues fmt pfrPingReq row)) ++ [',', ' '] := by
    rw [show rowText fmt pfrPingReq = _ from funext (rowText_eq fmt pfrPingReq)]
    exact flatMap_commas hne
  generalize commas (rows.map fun row => ' ' :: tuple (rowValues fmt pfrPingReq row)) = t at htext ⊢
  rw [htext, cutTail, if_neg (by simp)]
  simp

/-- The statement that logs some rows. -/
def statement (rows : List (SqlRow F)) : Insert where
  table := "pfr_log".toList
  columns := (columns fmt pfrPingReq).map (·.1)
  rows := rows.map (rowValues fmt pfrPingReq)

variable {fmt} {pfrPingReq}

theorem rowValues_ok (hfmt : ∀ x, Sql.Plain (fmt x)) {row : SqlRow F} (hd : quoteMark ∉ row.dstIp.toList) :
    ∀ v ∈ rowValues fmt pfrPingReq row, v.Ok := by
  have hnow : Sql.Plain ['n', 'o', 'w'] := by decide
  simp [rowValues, columns, Value.Ok, plain_toText, hfmt, hd, hnow]

theorem append_four (a b c d e t : Text) : (a ++ (b ++ (c ++ (d ++ e)))) ++ t = a ++ (b ++ (c ++ (d ++ (e ++ t)))) := by
  simp only [List.append_assoc]

/-- **When the text of some rows is an `INSERT` of them.** -/
theorem isInsert_iff (hfmt : ∀ x, Sql.Plain (fmt x)) {head : Text} (hhead : NamesColumns head) (rows : List (SqlRow F)) :
    IsInsert (statement fmt pfrPingReq rows) (head ++ (cutTail (rows.flatMap (rowText fmt pfrPingReq)) ++ [';'])) ↔
      rows ≠ [] ∧ ∀ row ∈ rows, quoteMark ∉ row.dstIp.toList := by
  constructor
  · intro h
    obtain ⟨names, t, -, hrows, -⟩ := h.text
    have hne : rows.map (rowValues fmt pfrPingReq) ≠ [] := hrows.ne_nil
    refine ⟨fun hnil => hne (by rw [hnil, List.map_nil]), ?_⟩
    intro row hrow
    apply h.quoted (List.mem_map_of_mem hrow)
    simp [rowValues, columns]
  · rintro ⟨hne, hquote⟩
    obtain ⟨names, hnames, rfl⟩ := hhead
    have hrows : Listed Row (rows.map (rowValues fmt pfrPingReq)) (cutTail (rows.flatMap (rowText fmt pfrPingReq))) := by
      have hlist : Listed Row (rows.map (rowValues fmt pfrPingReq)) _ :=
        listed_commas (f := fun values => ' ' :: tuple values) (by simpa using hne) ?_
      · rw [List.map_map] at hlist
        rw [rows_text fmt pfrPingReq hne]
        exact hlist
      · intro values hvalues
        obtain ⟨row, hrow, rfl⟩ := List.mem_map.mp hvalues
        exact (Padded.exact (row_tuple (List.cons_ne_nil _ _) (rowValues_ok hfmt (hquote row hrow)))).cons
    refine ⟨?_, names, _, hnames, hrows, ?_⟩
    · intro values hvalues
      obtain ⟨row, -, rfl⟩ := List.mem_map.mp hvalues
      rfl
    · exact append_four _ _ _ _ _ _

end Rows

/-! ## The calls of one logger -/

/-- A call of `insert` or of `commit`. -/
inductive LogCall (F : Type) where
  | insert : SqlRow F → LogCall F
  | commit

section Calls
variable (fmt : F → Text) (pfrPingReq : Int)

/-- The texts passed to `PQexec`, in order, and the object afterwards. -/
def runLog (log : PfrSqlLog) : List (LogCall F) → Option (List Text × PfrSqlLog)
  | [] => some ([], log)
  | .insert row :: calls => do
    let log ← log.insert fmt pfrPingReq row
    runLog log calls
  | .commit :: calls => do
    let (query, log) := log.commit
    let (queries, log) ← runLog log calls
    return (query :: queries, log)

/-- The rows of each commit: those inserted since the one before. -/
def batches : List (SqlRow F) → List (LogCall F) → List (List (SqlRow F))
  | _, [] => []
  | rows, .insert row :: calls => batches (rows ++ [row]) calls
  | rows, .commit :: calls => rows :: batches [] calls

/-- `q` has the rows of a batch in it and no others, and is a statement if it has one. -/
def Sends (rows : List (SqlRow F)) (q : Text) : Prop := ∃ head, NamesColumns head ∧
  q = head ++ (commas (rows.map fun row => ' ' :: tuple (rowValues fmt pfrPingReq row)) ++ [';']) ∧
  (IsInsert (statement fmt pfrPingReq rows) q ↔ rows ≠ [] ∧ ∀ row ∈ rows, quoteMark ∉ row.dstIp.toList)

variable {fmt} (hfmt : ∀ x, Sql.Plain (fmt x))

include hfmt

theorem sends_text {head : Text} (hhead : NamesColumns head) (rows : List (SqlRow F)) :
    Sends fmt pfrPingReq rows (head ++ (cutTail (rows.flatMap (rowText fmt pfrPingReq)) ++ [';'])) := by
  refine ⟨head, hhead, ?_, isInsert_iff hfmt hhead rows⟩
  by_cases hne : rows = []
  · rw [hne]
    rfl
  · rw [rows_text fmt pfrPingReq hne]

/-- **Each commit sends the rows since the last one.** The induction is on the calls still to
come; `rows` are those already in `ins_multi`. -/
theorem runLog_sends : ∀ (calls : List (LogCall F)) {head : Text} (rows : List (SqlRow F)), NamesColumns head →
    ∃ queries log, runLog fmt pfrPingReq ⟨some true, head, rows.flatMap (rowText fmt pfrPingReq)⟩ calls = some (queries, log) ∧
      List.Forall₂ (Sends fmt pfrPingReq) (batches rows calls) queries
  | [], _, rows, _ => ⟨[], _, rfl, .nil⟩
  | .insert row :: calls, head, rows, hhead => by
    obtain ⟨queries, log, hrun, hsends⟩ := runLog_sends calls (rows ++ [row]) hhead
    refine ⟨queries, log, ?_, hsends⟩
    rw [List.flatMap_append, List.flatMap_singleton] at hrun
    exact hrun
  | .commit :: calls, head, rows, hhead => by
    obtain ⟨queries, log, hrun, hsends⟩ := runLog_sends calls [] namesColumns_nextHead
    refine ⟨(head ++ (cutTail (rows.flatMap (rowText fmt pfrPingReq)) ++ [';'])) :: queries, log, ?_,
      .cons (sends_text pfrPingReq hfmt hhead rows) hsends⟩
    have hcommit : PfrSqlLog.commit ⟨some true, head, rows.flatMap (rowText fmt pfrPingReq)⟩ =
        (head ++ (cutTail (rows.flatMap (rowText fmt pfrPingReq)) ++ [';']), ⟨some true, PfrSqlLog.nextHead, []⟩) := rfl
    rw [List.flatMap_nil] at hrun
    rw [runLog, hcommit]
    simp only
    rw [hrun]
    rfl

end Calls

/-! ## A round -/

variable [Dbl F]

section Round
variable (fmt : F → Text) (pfrPingReq : Int)

/-- What `pfr_route_scan_sql` passes to `PQexec` with logging on: its rows are inserted one by
one, then comes the commit. -/
def scanSqlTexts (p : Nat) (m : Mem F) : Option (List Text) := do
  let log ← PfrSqlLog.new true true
  let a ← pfrRouteScanSql p m
  let (queries, _) ← runLog fmt pfrPingReq log (a.2.map .insert ++ [.commit])
  return queries

/-- The text of a round is one statement, with one row for each destination in key order; or
there is neither a text nor a row. -/
def LogsRound (p : Nat) (m : Mem F) : Prop := ∃ a queries, pfrRouteScanSql p m = some a ∧
  scanSqlTexts fmt pfrPingReq p m = some queries ∧ a.2.map (·.dstIp) = m.r.keys ∧
  ((∃ q, queries = [q] ∧ IsInsert (statement fmt pfrPingReq a.2) q) ∨ (queries = [] ∧ a.2 = []))

omit [Dbl F] in
theorem batches_inserts : ∀ (new rows : List (SqlRow F)), batches rows (new.map .insert ++ [.commit]) = [rows ++ new]
  | [], rows => by simp [batches]
  | row :: new, rows => by
    rw [List.map_cons, List.cons_append, batches, batches_inserts new (rows ++ [row]), List.append_assoc]
    rfl

variable {fmt} (hfmt : ∀ x, Sql.Plain (fmt x))

include hfmt

theorem scanSqlTexts_sends {p : Nat} {m : Mem F} {a : Mem F × List (SqlRow F)} (h : pfrRouteScanSql p m = some a) :
    ∃ q, scanSqlTexts fmt pfrPingReq p m = some [q] ∧ Sends fmt pfrPingReq a.2 q := by
  obtain ⟨queries, log, hrun, hsends⟩ :=
    runLog_sends pfrPingReq hfmt (a.2.map .insert ++ [.commit]) [] namesColumns_head
  rw [batches_inserts, List.nil_append] at hsends
  cases hsends with
  | cons hq hrest =>
    cases hrest
    refine ⟨_, ?_, hq⟩
    rw [List.flatMap_nil] at hrun
    rw [scanSqlTexts, h]
    show (runLog fmt pfrPingReq ⟨some true, PfrSqlLog.head, []⟩ _).bind _ = _
    rw [hrun]
    rfl

/-- **A round is logged by one statement if `r` has a destination**, and none has a quote; and
over any calls of one logger, each commit sends the rows inserted since the last one. -/
theorem log_statement :
    (∀ p (m : Mem F) a, pfrRouteScanSql p m = some a →
      (LogsRound fmt pfrPingReq p m ↔ m.r.keys ≠ [] ∧ ∀ d ∈ m.r.keys, quoteMark ∉ d.toList)) ∧
    ∀ log, PfrSqlLog.new true true = some log → ∀ calls, ∃ queries log',
      runLog fmt pfrPingReq log calls = some (queries, log') ∧
        List.Forall₂ (Sends fmt pfrPingReq) (batches [] calls) queries := by
  constructor
  · intro p m a ha
    obtain ⟨q, hq, head, -, -, hiff⟩ := scanSqlTexts_sends pfrPingReq hfmt ha
    have hdsts : a.2.map (·.dstIp) = m.r.keys := (scanSql_spec ha).dsts
    have hcond : (m.r.keys ≠ [] ∧ ∀ d ∈ m.r.keys, quoteMark ∉ d.toList) ↔
        a.2 ≠ [] ∧ ∀ row ∈ a.2, quoteMark ∉ row.dstIp.toList := by
      rw [← hdsts]
      simp
    rw [hcond, ← hiff]
    constructor
    · rintro ⟨b, queries, hb, hqueries, -, h⟩
      rw [ha] at hb
      cases hb
      rw [hq] at hqueries
      cases hqueries
      rcases h with ⟨q', hq', hins⟩ | ⟨hnone, -⟩
      · rwa [List.singleton_inj.mp hq']
      · cases hnone
    · intro hins
      exact ⟨a, [q], ha, hq, hdsts, Or.inl ⟨q, rfl, hins⟩⟩
  · intro log hlog calls
    cases hlog
    exact runLog_sends pfrPingReq hfmt calls [] namesColumns_head

end Round

theorem plain_wholeText (x : ℚ) : Sql.Plain (wholeText x) := plain_toText x.floor

/-- Before the first reply. -/
def noDestination : Mem ℚ := (State.init Config.default (Dbl.num 50000) ∅).mem

/-- A destination that has not answered and one that has from peer 1; and one logger that
commits two rows, then one. -/
theorem log_statement_two :
    let sample : Tparm ℚ := .new 20 20 0 0
    let samples : Samples ℚ := ((∅ : Samples ℚ).insert 0 (some sample)).insert 99 (some sample)
    let probes : Probes ℚ := (∅ : Probes ℚ).insert 0 ((∅ : Peers ℚ).insert 1 samples)
    let m := { noDestination with r := ((∅ : RData ℚ).insert "198.51.100.7" ∅).insert "198.51.100.9" probes }
    let row (d : String) (k : Int) : SqlRow ℚ := ⟨1, d, 0, k, 20, 20, 20, 0, 20, 0, 0⟩
    LogsRound wholeText 5 0 m ∧ m.r.keys = ["198.51.100.7", "198.51.100.9"] ∧
    ∃ log queries log', PfrSqlLog.new true true = some log ∧
      runLog wholeText 5 log [.insert (row "198.51.100.7" 0), .insert (row "198.51.100.9" 1), .commit,
        .insert (row "198.51.100.9" 2), .commit] = some (queries, log') ∧
      List.Forall₂ (Sends wholeText 5)
        [[row "198.51.100.7" 0, row "198.51.100.9" 1], [row "198.51.100.9" 2]] queries := by
  intro sample samples probes m row
  have hkeys : m.r.keys = ["198.51.100.7", "198.51.100.9"] := by decide +kernel
  obtain ⟨a, ha⟩ : ∃ a, pfrRouteScanSql 0 m = some a := Option.isSome_iff_exists.mp (by decide +kernel)
  have hround := ((log_statement 5 plain_wholeText).1 0 _ a ha).mpr (by rw [hkeys]; decide +kernel)
  obtain ⟨queries, log', hrun, hsends⟩ := (log_statement 5 plain_wholeText).2 _ rfl
    [.insert (row "198.51.100.7" 0), .insert (row "198.51.100.9" 1), .commit, .insert (row "198.51.100.9" 2), .commit]
  exact ⟨hround, hkeys, _, queries, log', rfl, hrun, hsends⟩

/-- With no destination the text ends in `values ;`. -/
theorem no_rows_sent : ¬LogsRound wholeText 5 0 noDestination := by
  rintro ⟨a, queries, ha, hqueries, -, h⟩
  obtain ⟨q, hq, -⟩ := scanSqlTexts_sends 5 plain_wholeText ha
  rcases h with ⟨q, -, hins⟩ | ⟨hnone, -⟩
  · cases ha
    obtain ⟨names, rows, -, hrows, -⟩ := hins.text
    exact hrows.ne_nil rfl
  · rw [hnone, hq] at hqueries
    cases hqueries

/-! ## Every run -/

/-- **What the daemon sends**: in every run each text is a statement of its rows, if it has any. -/
theorem sent_rows {fmt : F → Text} (hfmt : ∀ x, Sql.Plain (fmt x)) {cfg : Config} {v : F} {mm : PeerMap}
    {enableSqlLog connected : Bool} {s0 s : DbState F}
    (h0 : DbState.init cfg v mm enableSqlLog connected = some s0) (h : Lts.Path (dbStep fmt) FromPackets s0 s) :
    ∀ q ∈ s.queries, ∃ pfrPingReq rows, q = queryText fmt pfrPingReq rows ∧
      (IsInsert (statement fmt pfrPingReq rows) q ↔ rows ≠ []) := by
  intro q hq
  obtain ⟨pfrPingReq, rows, htext, hrows⟩ := (dbKeys_of_path h0 h).queries q hq
  have hiff : IsInsert (statement fmt pfrPingReq rows) q ↔ rows ≠ [] ∧ ∀ row ∈ rows, quoteMark ∉ row.dstIp.toList := by
    rw [htext]
    exact isInsert_iff hfmt namesColumns_head rows
  refine ⟨pfrPingReq, rows, htext, hiff.trans ⟨fun hboth => hboth.1, fun hne => ⟨hne, ?_⟩⟩⟩
  intro row hrow hquote
  rcases dotted_inetNtop (hrows row hrow) quoteMark hquote with hdigit | hdot
  · revert hdigit
    decide
  · revert hdot
    decide

end Pfr

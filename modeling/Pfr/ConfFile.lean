import Pfr.MainLoop
import Pfr.Lib.Dotted

/- The configuration file. `load_configuration_file` puts the lines of the file into
   `configuration_map`, then assigns each variable whose key is in the map. The map is
   global and never cleared: after the second load it holds the lines of both files.

   1. `Setting.entry`: key, reading and initial value of each variable;
   2. `configLine_setting`: what a line `key = value` puts into the map;
   3. `getElem?_readConfig`: the map after a file;
   4. `loads_vars`: after any number of files a variable has the value of the last file
      that gives it one; `loads_has`: and one of its kind;
   5. `reread_eq_iff`: when the second file alone would have given the same;
   6. `reread_cfg`: what a reread puts in force in the daemon. -/
namespace Pfr

open Std CText

/-- A value of a variable. `min_rtt` is a `double` that is only given whole numbers here. -/
inductive Val where
  | text : String → Val
  | int : Int → Val
  | bool : Bool → Val
  deriving DecidableEq, Repr

/-- How the text of a key is read. -/
inductive Kind where
  | text | int | onOff | loOob | metric
  deriving DecidableEq, Repr

structure ConfEntry where
  key : String
  kind : Kind
  initial : Val

/-- The variables the loader assigns. -/
inductive Setting where
  | pidPath | srcAddr | gobgpPath | localnets | logLevel
  | customerId | pfrPingReq | pfrdSndrNameDigit | maxLoad | df | dscp | maxTimeOfEcho | deepDelete | minRtt
  | usleepBetweenEcho | sleepAfterJoin | sleepAfterUpdate | sleepBeforeNextLoop
  | pghost | pgport | dbName | login | pwd
  | enableAdvertise | enableExplicitWithdraw | netconfIp | snmpIp
  | enableGobgpGrpc | gobgpGrpcHost | gobgpGrpcPort
  | peerAddress | peerPort | peerType
  | rttLeastThresh | rttLeastMove | pathMetric | enableAdvertiseSame | enableSqlLog
  deriving DecidableEq, Repr

/-- In the order of the loader. -/
def Setting.entry : Setting → ConfEntry
  | .pidPath => ⟨"pid_path", .text, .text ""⟩
  | .srcAddr => ⟨"src_addr", .text, .text "1.0.5.230"⟩
  | .gobgpPath => ⟨"gobgp_path", .text, .text ""⟩
  | .localnets => ⟨"localnets", .text, .text ""⟩
  | .logLevel => ⟨"log_level", .text, .text "debug"⟩
  | .customerId => ⟨"customer_id", .int, .int 0⟩
  | .pfrPingReq => ⟨"pfr_ping_req", .int, .int 5⟩
  | .pfrdSndrNameDigit => ⟨"pfrd_sndr_name_digit", .int, .int 5⟩
  | .maxLoad => ⟨"max_load", .int, .int 0⟩
  | .df => ⟨"df", .int, .int 0⟩
  | .dscp => ⟨"dscp", .int, .int 0⟩
  | .maxTimeOfEcho => ⟨"max_time_of_echo", .int, .int 1200⟩
  | .deepDelete => ⟨"deep_delete", .int, .int 3⟩
  | .minRtt => ⟨"min_rtt", .int, .int 50000⟩
  | .usleepBetweenEcho => ⟨"usleep_between_echo", .int, .int 2500⟩
  | .sleepAfterJoin => ⟨"sleep_after_join", .int, .int 6⟩
  | .sleepAfterUpdate => ⟨"sleep_after_update", .int, .int 30⟩
  | .sleepBeforeNextLoop => ⟨"sleep_before_next_loop", .int, .int 20⟩
  | .pghost => ⟨"pghost", .text, .text "127.0.0.1"⟩
  | .pgport => ⟨"pgport", .text, .text "5432"⟩
  | .dbName => ⟨"db_name", .text, .text "vc"⟩
  | .login => ⟨"login", .text, .text "vc"⟩
  | .pwd => ⟨"pwd", .text, .text "vc"⟩
  | .enableAdvertise => ⟨"enable_advertise", .onOff, .bool true⟩
  | .enableExplicitWithdraw => ⟨"enable_explicit_withdraw", .onOff, .bool false⟩
  | .netconfIp => ⟨"netconf_ip", .loOob, .text "lo"⟩
  | .snmpIp => ⟨"snmp_ip", .loOob, .text "lo"⟩
  | .enableGobgpGrpc => ⟨"enable_gobgp_grpc", .onOff, .bool false⟩
  | .gobgpGrpcHost => ⟨"gobgp_grpc_host", .text, .text "127.0.0.1"⟩
  | .gobgpGrpcPort => ⟨"gobgp_grpc_port", .int, .int 50051⟩
  | .peerAddress => ⟨"peer_address", .text, .text "10.0.5.233"⟩
  | .peerPort => ⟨"peer_port", .int, .int 8877⟩
  | .peerType => ⟨"peer_type", .text, .text "master"⟩
  | .rttLeastThresh => ⟨"rtt_least_thresh", .int, .int 10⟩
  | .rttLeastMove => ⟨"rtt_least_move", .onOff, .bool true⟩
  | .pathMetric => ⟨"path_metric", .metric, .text "metric0"⟩
  | .enableAdvertiseSame => ⟨"enable_advertise_same", .onOff, .bool true⟩
  | .enableSqlLog => ⟨"enable_sql_log", .onOff, .bool true⟩

section Read
variable (wild : Text → Int)

/-- `atoi`, with `wild` for a number that is no `int`, where the library says nothing. -/
def convertStringToInteger (line : Text) : Int := (atoi line).getD (wild line)

def metrics : List String := ["metric0", "metric1", "metric2", "metric3", "metric4", "metric5"]

/-- What is assigned for a text, if anything: any text that is not "on" turns off, any that is
not "lo" is "oob", but a metric that is not known changes nothing. -/
def Kind.read : Kind → String → Option Val
  | .text, v => some (.text v)
  | .int, v => some (.int (convertStringToInteger wild v.toList))
  | .onOff, v => some (.bool (v == "on"))
  | .loOob, v => some (.text (if v = "lo" then "lo" else "oob"))
  | .metric, v => if v ∈ metrics then some (.text v) else none

def Setting.read (s : Setting) : String → Option Val := s.entry.kind.read wild

end Read

/-! ## The lines -/

/-- Of adjacent separators the last is left. -/
def squeezeAny (seps : List Char) : Text → Text
  | x :: y :: s => if x ∈ seps ∧ y ∈ seps then squeezeAny seps (y :: s) else x :: squeezeAny seps (y :: s)
  | s => s

/-- `boost::split(.., boost::is_any_of(seps), boost::token_compress_on)`. -/
def splitAny (seps : List Char) (s : Text) : List Text := (squeezeAny seps s).splitOnP (· ∈ seps)

/-- The key and the value of a line; comments, empty lines and lines of another shape have none. -/
def configLine (line : Text) : Option (String × String) :=
  if line.head? = some '#' ∨ line = [] then none
  else match splitAny [' ', '='] line with
    | [key, value] => some (String.ofList key, String.ofList value)
    | _ => none

abbrev ConfigMap := ExtTreeMap String String

def putLine (m : ConfigMap) (line : Text) : ConfigMap :=
  match configLine line with
  | some (key, value) => m.insert key value
  | none => m

def readConfig (m : ConfigMap) (file : List Text) : ConfigMap := file.foldl putLine m

/-! ## The loader -/

/-- `configuration_map` and the variables. -/
structure Globals where
  configurationMap : ConfigMap
  vars : Setting → Val

/-- When the program starts. -/
def Globals.start : Globals := ⟨∅, fun s => s.entry.initial⟩

/-- `if (configuration_map.count(key)) variable = ..`, for each variable. -/
def assign (wild : Text → Int) (m : ConfigMap) (vars : Setting → Val) (s : Setting) : Val :=
  (m[s.entry.key]?.bind (s.read wild)).getD (vars s)

/-- `load_configuration_file`; a file that is not there changes nothing. -/
def loadConfigurationFile (wild : Text → Int) (file : Option (List Text)) (g : Globals) : Bool × Globals :=
  match file with
  | none => (false, g)
  | some lines =>
    let m := readConfig g.configurationMap lines
    (true, ⟨m, assign wild m g.vars⟩)

/-- A load of a file that is there. -/
def loadFile (wild : Text → Int) (g : Globals) (lines : List Text) : Globals :=
  (loadConfigurationFile wild (some lines) g).2

/-! ## What a line puts into the map -/

section Split
variable {seps : List Char}

theorem squeezeAny_word : ∀ {xs : Text} (_ : ∀ x ∈ xs, x ∉ seps) (ys : Text),
    squeezeAny seps (xs ++ ys) = xs ++ squeezeAny seps ys
  | [], _, _ => rfl
  | x :: xs, h, ys => by
    have hx : x ∉ seps := h x List.mem_cons_self
    have ih := squeezeAny_word (fun y hy => h y (List.mem_cons_of_mem x hy)) ys
    rw [List.cons_append, List.cons_append, ← ih]
    cases hrest : xs ++ ys with
    | nil => rfl
    | cons y s => rw [squeezeAny, if_neg fun hc => hx hc.1]

theorem squeezeAny_sep {c : Char} {v : Text} (hv : ∀ x ∈ v, x ∉ seps) : squeezeAny seps (c :: v) = c :: v := by
  have hself : squeezeAny seps v = v := by
    have hword := squeezeAny_word hv []
    rwa [List.append_nil, show squeezeAny seps [] = [] from rfl, List.append_nil] at hword
  cases v with
  | nil => rfl
  | cons y s =>
    have hy : y ∉ seps := hv y List.mem_cons_self
    rw [squeezeAny, if_neg fun hc => hy hc.2, hself]

end Split

/-- **A line `key = value`**; the value may be missing. -/
theorem configLine_setting {key value : Text} (hkey : key ≠ []) (hcomment : key.head? ≠ some '#')
    (hk : ∀ x ∈ key, x ∉ [' ', '=']) (hv : ∀ x ∈ value, x ∉ [' ', '=']) :
    configLine (key ++ ' ' :: '=' :: ' ' :: value) = some (String.ofList key, String.ofList value) := by
  have hskip : ¬((key ++ ' ' :: '=' :: ' ' :: value).head? = some '#' ∨ key ++ ' ' :: '=' :: ' ' :: value = []) := by
    simp [List.head?_append, Option.or_of_isSome, List.isSome_head?, hkey, hcomment]
  have hsqueeze : squeezeAny [' ', '='] (key ++ ' ' :: '=' :: ' ' :: value) = key ++ ' ' :: value := by
    rw [squeezeAny_word hk, squeezeAny, if_pos (by decide), squeezeAny, if_pos (by decide), squeezeAny_sep hv]
  have hsplit : splitAny [' ', '='] (key ++ ' ' :: '=' :: ' ' :: value) = [key, value] := by
    have hkey : ∀ x ∈ key, decide (x ∈ [' ', '=']) = false := fun x hx => decide_eq_false (hk x hx)
    have hvalue : ∀ x ∈ value, decide (x ∈ [' ', '=']) = false := fun x hx => decide_eq_false (hv x hx)
    rw [splitAny, hsqueeze, List.splitOnP_append_cons_of_forall_mem hkey ' ' (by decide), List.splitOnP_eq_singleton hvalue]
  rw [configLine, if_neg hskip, hsplit]

/-! ## The map -/

/-- What a line gives a key. -/
def lineGives (line : Text) (key : String) : Option String :=
  (configLine line).bind fun pair => if pair.1 = key then some pair.2 else none

/-- What a file gives a key: the last line that names it decides. -/
def fileGives : List Text → String → Option String
  | [], _ => none
  | line :: rest, key => (fileGives rest key).or (lineGives line key)

theorem getElem?_putLine (m : ConfigMap) (line : Text) (key : String) :
    (putLine m line)[key]? = (lineGives line key).or m[key]? := by
  unfold putLine lineGives
  cases configLine line with
  | none => rfl
  | some pair =>
    by_cases hkey : pair.1 = key
    · simp [hkey]
    · simp [ExtTreeMap.getElem?_insert, hkey]

/-- **The map after a file**: what the file gives, over what was there before. -/
theorem getElem?_readConfig (file : List Text) (m : ConfigMap) (key : String) :
    (readConfig m file)[key]? = (fileGives file key).or m[key]? := by
  induction file generalizing m with
  | nil => rfl
  | cons line rest ih =>
    show (readConfig (putLine m line) rest)[key]? = _
    rw [ih, getElem?_putLine, fileGives, Option.or_assoc]

/-! ## Any number of files -/

section Loads
variable (wild : Text → Int)

/-- What a file gives a variable: the last line that names it, if its text is taken. -/
def settingGiven (file : List Text) (s : Setting) : Option Val := (fileGives file s.entry.key).bind (s.read wild)

/-- What the files give it: the last of them that gives it something decides. -/
def lastGiven : List (List Text) → Setting → Option Val
  | [], _ => none
  | file :: rest, s => (lastGiven rest s).or (settingGiven wild file s)

/-- A variable holds what the map gives it. -/
def HoldsMap (g : Globals) : Prop :=
  ∀ s v, g.configurationMap[s.entry.key]?.bind (s.read wild) = some v → g.vars s = v

theorem holdsMap_start : HoldsMap wild Globals.start := by
  intro s v h
  simp [Globals.start] at h

variable {wild} {g : Globals}

/-- After a load a variable has what the file gives it, or what it had. -/
theorem loadFile_vars (hg : HoldsMap wild g) (file : List Text) (s : Setting) :
    (loadFile wild g file).vars s = (settingGiven wild file s).getD (g.vars s) := by
  show ((readConfig g.configurationMap file)[s.entry.key]?.bind (s.read wild)).getD (g.vars s) = _
  rw [getElem?_readConfig, settingGiven]
  cases hgives : fileGives file s.entry.key with
  | some v => rfl
  | none =>
    -- the map of the files before
    rw [Option.none_or, Option.bind_none, Option.getD_none]
    cases hold : g.configurationMap[s.entry.key]?.bind (s.read wild) with
    | none => rfl
    | some v => rw [hg s v hold, Option.getD_some]

theorem holdsMap_loadFile (file : List Text) : HoldsMap wild (loadFile wild g file) := by
  intro s v h
  show ((readConfig g.configurationMap file)[s.entry.key]?.bind (s.read wild)).getD (g.vars s) = v
  have hmap : (readConfig g.configurationMap file)[s.entry.key]?.bind (s.read wild) = some v := h
  rw [hmap, Option.getD_some]

/-- **After any number of loads.** The induction is on the files still to come. -/
theorem loads_vars (files : List (List Text)) (hg : HoldsMap wild g) (s : Setting) :
    (files.foldl (loadFile wild) g).vars s = (lastGiven wild files s).getD (g.vars s) := by
  induction files generalizing g with
  | nil => rfl
  | cons file rest ih =>
    rw [List.foldl_cons, ih (holdsMap_loadFile file), loadFile_vars hg, lastGiven]
    cases lastGiven wild rest s with
    | some v => rfl
    | none => rfl

/-- A value of a kind. -/
def Kind.Has : Kind → Val → Prop
  | .text, .text _ => True
  | .int, .int _ => True
  | .onOff, .bool _ => True
  | .loOob, .text v => v = "lo" ∨ v = "oob"
  | .metric, .text v => v ∈ metrics
  | _, _ => False

theorem initial_has (s : Setting) : s.entry.kind.Has s.entry.initial := by
  cases s
  case netconfIp | snmpIp => exact Or.inl rfl
  case pathMetric => exact List.mem_cons_self
  all_goals exact trivial

theorem read_has {k : Kind} {v : String} {x : Val} (h : k.read wild v = some x) : k.Has x := by
  cases k with
  | text | int | onOff =>
    cases h
    exact trivial
  | loOob =>
    cases h
    show (if v = "lo" then "lo" else "oob") = "lo" ∨ (if v = "lo" then "lo" else "oob") = "oob"
    split
    · exact Or.inl rfl
    · exact Or.inr rfl
  | metric =>
    simp only [Kind.read] at h
    split at h
    · next hv =>
      cases h
      exact hv
    · cases h

theorem lastGiven_has {s : Setting} {x : Val} : ∀ {files : List (List Text)}, lastGiven wild files s = some x → s.entry.kind.Has x
  | file :: rest, h => by
    rcases Option.or_eq_some_iff.mp h with hrest | ⟨-, hfile⟩
    · exact lastGiven_has hrest
    · obtain ⟨v, -, hread⟩ := Option.bind_eq_some_iff.mp hfile
      exact read_has hread

/-- **Every variable has a value of its kind**, whatever is in the files. -/
theorem loads_has (files : List (List Text)) (s : Setting) :
    s.entry.kind.Has ((files.foldl (loadFile wild) .start).vars s) := by
  rw [loads_vars files (holdsMap_start wild)]
  cases hlast : lastGiven wild files s with
  | some v => exact lastGiven_has hlast
  | none => exact initial_has s

end Loads

/-- One variable after the second file, against that file alone. -/
theorem reread_setting (wild : Text → Int) (f1 f2 : List Text) (s : Setting) :
    (loadFile wild (loadFile wild .start f1) f2).vars s = (loadFile wild .start f2).vars s ↔
      (settingGiven wild f2 s).isSome ∨ (settingGiven wild f1 s).getD s.entry.initial = s.entry.initial := by
  have hstart : HoldsMap wild Globals.start := holdsMap_start wild
  have hboth : (loadFile wild (loadFile wild .start f1) f2).vars s =
      ((settingGiven wild f2 s).or (settingGiven wild f1 s)).getD s.entry.initial := loads_vars [f1, f2] hstart s
  rw [hboth, loadFile_vars hstart]
  cases settingGiven wild f2 s with
  | some v => simp
  | none => simp [Globals.start]

/-- **When rereading equals starting with the file**: each variable is given a value by the
second file, or was left at its initial one by the first. -/
theorem reread_eq_iff (wild : Text → Int) (f1 f2 : List Text) :
    (loadFile wild (loadFile wild .start f1) f2).vars = (loadFile wild .start f2).vars ↔
      ∀ s : Setting, (settingGiven wild f2 s).isSome ∨ (settingGiven wild f1 s).getD s.entry.initial = s.entry.initial := by
  rw [funext_iff]
  exact forall_congr' (reread_setting wild f1 f2)

/-- `deep_delete` commented out in the second file keeps the value of the first. -/
theorem commented_out_kept : ¬∀ f1 f2 : List Text,
    (loadFile (fun _ => 0) (loadFile (fun _ => 0) .start f1) f2).vars = (loadFile (fun _ => 0) .start f2).vars := by
  intro hall
  have hdelete := congrFun (hall ["deep_delete = 5".toList] ["#deep_delete = 5".toList]) .deepDelete
  revert hdelete
  decide +kernel

/-! ## The daemon -/

def Val.toInt : Val → Int
  | .int n => n
  | _ => 0

def Val.toBool : Val → Bool
  | .bool b => b
  | _ => false

def Val.toMetric : Val → PathMetric
  | .text "metric1" => .metric1
  | .text "metric2" => .metric2
  | .text "metric3" => .metric3
  | .text "metric4" => .metric4
  | .text "metric5" => .metric5
  | _ => .metric0

/-- The variables the phases read. -/
def Config.ofVars (vars : Setting → Val) : Config where
  pfrPingReq := (vars .pfrPingReq).toInt
  deepDelete := (vars .deepDelete).toInt
  rttLeastThresh := (vars .rttLeastThresh).toInt
  rttLeastMove := (vars .rttLeastMove).toBool
  pathMetric := (vars .pathMetric).toMetric
  enableAdvertise := (vars .enableAdvertise).toBool
  enableAdvertiseSame := (vars .enableAdvertiseSame).toBool
  enableExplicitWithdraw := (vars .enableExplicitWithdraw).toBool

theorem ofVars_start : Config.ofVars Globals.start.vars = Config.default := rfl

section Daemon
variable {F : Type} [Dbl F] (wild : Text → Int)

/-- What `main` does on `SIGUSR2`. -/
def rereadSignal (file : Option (List Text)) (g : Globals) : Signal F :=
  match loadConfigurationFile wild file g with
  | (true, g) => .reread (Config.ofVars g.vars) (Dbl.num (g.vars .minRtt).toInt)
  | (false, _) => .rereadFail

/-- After a reread that equals a start with the second file the phases run under that file. -/
theorem reread_cfg {f1 f2 : List Text} {s t : State F}
    (hsame : ∀ s : Setting, (settingGiven wild f2 s).isSome ∨ (settingGiven wild f1 s).getD s.entry.initial = s.entry.initial)
    (h : step s (.signals (rereadSignal wild (some f2) (loadFile wild .start f1))) = some t) :
    t.cfg = Config.ofVars (loadFile wild .start f2).vars := by
  have hvars : (loadFile wild (loadFile wild .start f1) f2).vars = (loadFile wild .start f2).vars :=
    funext fun s => (reread_setting wild f1 f2 s).mpr (hsame s)
  have hsignal : (rereadSignal wild (some f2) (loadFile wild .start f1) : Signal F) =
      .reread (Config.ofVars (loadFile wild (loadFile wild .start f1) f2).vars)
        (Dbl.num ((loadFile wild (loadFile wild .start f1) f2).vars .minRtt).toInt) := rfl
  rw [hsignal, hvars] at h
  cases (move_of_step h).2 with
  | reread cfg minRtt _ => rw [clear_cfg]

end Daemon

end Pfr

import Pfr.Update
import Pfr.Lib.Lts

/- The daemon as two parties: `main`, which runs the phases of a round, and
   `readloop`, which records replies and acknowledges the stop request. Their steps
   are their critical sections; any interleaving of them is a run.

   `main`, round after round: build the list and run the senders (`start`); set
   `req_stopped` (`ask`); take `mt_req_send` and test `send_stopped` (`take`). With
   the acknowledgement missing the round is skipped. Otherwise the phases follow in
   the order of the source, then the signal flags, and `mt_req_send` is given back
   (`release`). `readloop`: one packet (`receive`) or none (`timeout`), then under
   `mt_req_send` the acknowledgement (`ack`).

   A phase that dereferences NULL has no step; nothing runs after `exit`. The list
   of a round, the packets, the signals and a reread configuration are the
   environment's. Proved here:
   1. `move_of_step`: what a step can do, one constructor of `Move` each;
   2. `roundEvents`, `skippedEvents`: the events of a processed and of a skipped round. -/
namespace Pfr

open Std

/-- The phases of a processed round. -/
inductive Phase where
  | update | calcAvg | calcStddev | scan | free | delete | man
  deriving DecidableEq, Repr

/-- Where `main` stands; `phase ph` is about to run `ph`. -/
inductive MainPc where
  | top | joined | asked
  | phase : Phase → MainPc
  | signals | release | exited
  deriving DecidableEq, Repr

/-- `main` holds `mt_req_send`. -/
def MainPc.holding : MainPc → Bool
  | .phase _ | .signals | .release => true
  | _ => false

/-- The aggregates of the round are due. -/
def MainPc.averaged : MainPc → Bool
  | .phase .calcStddev | .phase .scan => true
  | _ => false

/-- The decisions of the round are due. -/
def MainPc.scanned : MainPc → Bool
  | .phase .free | .phase .delete | .signals | .phase .man | .release | .exited => true
  | _ => false

/-- Between the scan of a round and its announcements. -/
def MainPc.due : MainPc → Bool
  | .phase .free | .phase .delete | .signals | .phase .man => true
  | _ => false

/-- What is asked at other places of the round only. -/
theorem vacuous {α : Type} [DecidableEq α] {a b : α} {P : Prop} (hne : decide (a = b) = false) (h : a = b) : P :=
  absurd h (of_decide_eq_false hne)

/-- Outside the critical section neither is. -/
theorem MainPc.outside {pc : MainPc} (h : pc.holding = false) (hx : pc ≠ .exited) :
    pc.averaged = false ∧ pc.scanned = false := by
  cases pc with
  | top | joined | asked => exact ⟨rfl, rfl⟩
  | phase ph => cases h
  | signals | release => cases h
  | exited => exact absurd rfl hx

/-- Where `readloop` stands: not started, before a packet, or before the acknowledgement. -/
inductive RcvPc where
  | off | recv | ack
  deriving DecidableEq, Repr

def Phase.next : Phase → MainPc
  | .update => .phase .calcAvg
  | .calcAvg => .phase .calcStddev
  | .calcStddev => .phase .scan
  | .scan => .phase .free
  | .free => .phase .delete
  | .delete => .signals
  | .man => .release

structure State (F : Type) where
  cfg : Config
  mem : Mem F
  probeId : Nat
  pfrList : List String
  pc : MainPc
  reqStopped : Bool
  sendStopped : Bool
  rcv : RcvPc
  /-- Packets not yet received; `none` is one `proc_v4` makes nothing of. -/
  sock : List (Option (Reply F))
  /-- The sender threads started in the round. -/
  senders : Nat

/-- What the signal flags ask for once `pfr_delete` is done. -/
inductive Signal (F : Type) where
  | none
  | shutdown
  /-- The configuration file read again, with its `min_rtt`. -/
  | reread : Config → F → Signal F
  | rereadFail

inductive Event (F : Type) where
  | arrive : Option (Reply F) → Event F
  | receive | timeout | ack
  | start : List String → Event F
  | ask | take | phase
  | signals : Signal F → Event F
  | release

variable {F : Type}

/-- The state before the first round. -/
def State.init (cfg : Config) (minRtt : F) (mm : PeerMap) : State F where
  cfg := cfg
  mem := { r := ∅, route := ∅, routeLog1 := ∅, minRtt := minRtt, mm := mm, calls := [], cmds := [] }
  probeId := 0
  pfrList := []
  pc := .top
  reqStopped := false
  sendStopped := false
  rcv := .off
  sock := []
  senders := 0

/-- Both flags down and on to the announcements, if these are enabled. -/
def State.clear (s : State F) : State F :=
  { s with
    reqStopped := false
    sendStopped := false
    pc := if s.cfg.enableAdvertise then .phase .man else .release }

theorem clear_pc {s : State F} (h : s.cfg.enableAdvertise = true) : s.clear.pc = .phase .man := if_pos h

theorem clear_cfg (s : State F) : s.clear.cfg = s.cfg := rfl

theorem clear_scanned (s : State F) : s.clear.pc.scanned = true := by
  unfold State.clear; split <;> rfl

theorem clear_averaged (s : State F) : s.clear.pc.averaged = false := by
  unfold State.clear; split <;> rfl

variable [Dbl F]

def Mem.receive (m : Mem F) : Option (Reply F) → Mem F
  | none => m
  | some x => { m with r := record x m.r }

def runPhase (cfg : Config) (probeId : Nat) (dstList : List String) (m : Mem F) : Phase → Option (Mem F)
  | .update => pfrRouteUpdate probeId dstList m
  | .calcAvg => (pfrCalcAvgRtt cfg probeId m.r).map fun r => { m with r := r }
  | .calcStddev => (pfrCalcStddevRtt probeId m.r).map fun r => { m with r := r }
  | .scan => pfrRouteScan cfg probeId m
  | .free => some (pfrRouteFree probeId m)
  | .delete => pfrDelete cfg probeId m
  | .man => pfrRoutesMan cfg probeId m

def onSignal (s : State F) : Signal F → Option (State F)
  | .none => some s.clear
  | .shutdown => (pfrDeleteAll s.probeId s.mem).map fun m => { s with mem := m, pc := .exited }
  | .reread cfg minRtt => some { s with cfg := cfg, mem := { s.mem with minRtt := minRtt } }.clear
  | .rereadFail => some { s with pc := .exited }

def mainStep (s : State F) : MainPc → Event F → Option (State F)
  | .top, .start dstList => some { s with
      pc := .joined
      pfrList := dstList
      senders := s.mem.mm.size
      rcv := if s.rcv = .off then .recv else s.rcv }
  | .joined, .ask => some { s with reqStopped := true, pc := .asked }
  | .asked, .take =>
    if s.sendStopped then some { s with pc := .phase .update }
    else some { s with pc := .top, probeId := s.probeId + 1 }
  | .phase ph, .phase =>
    (runPhase s.cfg s.probeId s.pfrList s.mem ph).map fun m => { s with mem := m, pc := ph.next }
  | .signals, .signals sig => onSignal s sig
  | .release, .release => some { s with pc := .top, probeId := s.probeId + 1 }
  | _, _ => none

def rcvStep (s : State F) : RcvPc → Event F → Option (State F)
  | .recv, .receive => match s.sock with
    | [] => none
    | x :: rest => some { s with sock := rest, rcv := .ack, mem := s.mem.receive x }
  | .recv, .timeout => some { s with rcv := .ack }
  | .ack, .ack =>
    if s.pc.holding then none
    else some { s with rcv := .recv, sendStopped := s.sendStopped || s.reqStopped }
  | _, _ => none

def step (s : State F) (e : Event F) : Option (State F) :=
  if s.pc = .exited then none
  else match e with
    | .arrive x => some { s with sock := s.sock ++ [x] }
    | .receive | .timeout | .ack => rcvStep s s.rcv e
    | _ => mainStep s s.pc e

/-- What a step can do. -/
inductive Move (s : State F) : Event F → State F → Prop where
  | arrive (x : Option (Reply F)) : Move s (.arrive x) { s with sock := s.sock ++ [x] }
  | receive (x : Option (Reply F)) (rest : List (Option (Reply F))) : s.rcv = .recv → s.sock = x :: rest →
      Move s .receive { s with sock := rest, rcv := .ack, mem := s.mem.receive x }
  | timeout : s.rcv = .recv → Move s .timeout { s with rcv := .ack }
  | ack : s.rcv = .ack → s.pc.holding = false →
      Move s .ack { s with rcv := .recv, sendStopped := s.sendStopped || s.reqStopped }
  | start (dstList : List String) : s.pc = .top →
      Move s (.start dstList) { s with
        pc := .joined
        pfrList := dstList
        senders := s.mem.mm.size
        rcv := if s.rcv = .off then .recv else s.rcv }
  | ask : s.pc = .joined → Move s .ask { s with reqStopped := true, pc := .asked }
  | take : s.pc = .asked → s.sendStopped = true → Move s .take { s with pc := .phase .update }
  | skip : s.pc = .asked → s.sendStopped = false → Move s .take { s with pc := .top, probeId := s.probeId + 1 }
  | phase (ph : Phase) (m : Mem F) : s.pc = .phase ph → runPhase s.cfg s.probeId s.pfrList s.mem ph = some m →
      Move s .phase { s with mem := m, pc := ph.next }
  | resume : s.pc = .signals → Move s (.signals .none) s.clear
  | shutdown (m : Mem F) : s.pc = .signals → pfrDeleteAll s.probeId s.mem = some m →
      Move s (.signals .shutdown) { s with mem := m, pc := .exited }
  | reread (cfg : Config) (minRtt : F) : s.pc = .signals →
      Move s (.signals (.reread cfg minRtt)) { s with cfg := cfg, mem := { s.mem with minRtt := minRtt } }.clear
  | rereadFail : s.pc = .signals → Move s (.signals .rereadFail) { s with pc := .exited }
  | release : s.pc = .release → Move s .release { s with pc := .top, probeId := s.probeId + 1 }

theorem move_of_rcvStep {s t : State F} {e : Event F} (h : rcvStep s s.rcv e = some t) : Move s e t := by
  cases hr : s.rcv with
  | off => rw [hr] at h; cases h
  | recv =>
    rw [hr] at h
    cases e <;> simp only [rcvStep] at h <;> try contradiction
    · cases hs : s.sock with
      | nil => rw [hs] at h; cases h
      | cons x rest =>
        rw [hs] at h
        cases h
        exact .receive x rest hr hs
    · cases h
      exact .timeout hr
  | ack =>
    rw [hr] at h
    cases e <;> simp only [rcvStep] at h <;> try contradiction
    split at h
    · contradiction
    · next hh =>
      cases h
      exact .ack hr (by simpa using hh)

theorem move_of_onSignal {s t : State F} {sig : Signal F} (hpc : s.pc = .signals) (h : onSignal s sig = some t) :
    Move s (.signals sig) t := by
  cases sig with
  | none => cases h; exact .resume hpc
  | shutdown =>
    obtain ⟨m, hm, rfl⟩ := Option.map_eq_some_iff.mp h
    exact .shutdown m hpc hm
  | reread cfg minRtt => cases h; exact .reread cfg minRtt hpc
  | rereadFail => cases h; exact .rereadFail hpc

theorem move_of_mainStep {s t : State F} {e : Event F} (h : mainStep s s.pc e = some t) : Move s e t := by
  cases hpc : s.pc with
  | top =>
    rw [hpc] at h
    cases e <;> simp only [mainStep] at h <;> try contradiction
    cases h
    exact .start _ hpc
  | joined =>
    rw [hpc] at h
    cases e <;> simp only [mainStep] at h <;> try contradiction
    cases h
    exact .ask hpc
  | asked =>
    rw [hpc] at h
    cases e <;> simp only [mainStep] at h <;> try contradiction
    split at h
    · next hs => cases h; exact .take hpc hs
    · next hs => cases h; exact .skip hpc (by simpa using hs)
  | phase ph =>
    rw [hpc] at h
    cases e <;> simp only [mainStep] at h <;> try contradiction
    obtain ⟨m, hm, rfl⟩ := Option.map_eq_some_iff.mp h
    exact .phase ph m hpc hm
  | signals =>
    rw [hpc] at h
    cases e <;> simp only [mainStep] at h <;> try contradiction
    exact move_of_onSignal hpc h
  | release =>
    rw [hpc] at h
    cases e <;> simp only [mainStep] at h <;> try contradiction
    cases h
    exact .release hpc
  | exited => rw [hpc] at h; cases h

/-- **Every step is one of the moves, from a state where the program runs.** -/
theorem move_of_step {s t : State F} {e : Event F} (h : step s e = some t) : s.pc ≠ .exited ∧ Move s e t := by
  unfold step at h
  split at h
  · contradiction
  · next hx =>
    refine ⟨hx, ?_⟩
    cases e with
    | arrive x => cases h; exact .arrive x
    | receive => exact move_of_rcvStep h
    | timeout => exact move_of_rcvStep h
    | ack => exact move_of_rcvStep h
    | start l => exact move_of_mainStep h
    | ask => exact move_of_mainStep h
    | take => exact move_of_mainStep h
    | phase => exact move_of_mainStep h
    | signals sig => exact move_of_mainStep h
    | release => exact move_of_mainStep h

/-- Every move is a step. -/
theorem step_of_move {s t : State F} {e : Event F} (hx : s.pc ≠ .exited) (h : Move s e t) : step s e = some t := by
  unfold step
  rw [if_neg hx]
  cases h with
  | arrive x => rfl
  | receive x rest hr hsock => simp only [rcvStep, hr, hsock]
  | timeout hr => simp only [rcvStep, hr]
  | ack hr hh => simp [rcvStep, hr, hh]
  | start l hpc => simp only [mainStep, hpc]
  | ask hpc => simp only [mainStep, hpc]
  | take hpc hs => simp [mainStep, hpc, hs]
  | skip hpc hs => simp [mainStep, hpc, hs]
  | phase ph m hpc hrun => simp [mainStep, hpc, hrun]
  | resume hpc => simp only [mainStep, hpc, onSignal]
  | shutdown m hpc hrun => simp [mainStep, hpc, onSignal, hrun]
  | reread cfg v hpc => simp only [mainStep, hpc, onSignal]
  | rereadFail hpc => simp only [mainStep, hpc, onSignal]
  | release hpc => simp only [mainStep, hpc]

/-- The step at a phase runs it. -/
theorem runPhase_of_step {s t : State F} {ph : Phase} (hpc : s.pc = .phase ph) (h : step s .phase = some t) :
    runPhase s.cfg s.probeId s.pfrList s.mem ph = some t.mem := by
  obtain ⟨-, hm⟩ := move_of_step h
  cases hm with
  | phase ph' m hpc' hrun =>
    rw [hpc] at hpc'
    cases hpc'
    exact hrun

/-- The invariant rule of the program: what holds at the start and is preserved by
every move the guard allows holds in every state of every guarded run. -/
theorem Path.preserves {G : State F → Event F → Prop} {I : State F → Prop} {s t : State F} (h0 : I s)
    (hmove : ∀ t e u, I t → G t e → t.pc ≠ .exited → Move t e u → I u) (h : Lts.Path step G s t) : I t := by
  refine Lts.Path.invariant h0 ?_ h
  intro t e u hI hG hs
  obtain ⟨hx, hm⟩ := move_of_step hs
  exact hmove t e u hI hG hx hm

/-- The guard of unrestricted runs. -/
def AnyStep (_ : State F) (_ : Event F) : Prop := True

instance (s : State F) (e : Event F) : Decidable (AnyStep s e) := inferInstanceAs (Decidable True)

/-- No round is skipped. -/
def NoSkip (s : State F) : Event F → Prop
  | .take => s.sendStopped = true
  | _ => True

instance (s : State F) : (e : Event F) → Decidable (NoSkip s e)
  | .take => inferInstanceAs (Decidable (_ = _))
  | .arrive _ | .receive | .timeout | .ack | .start _ | .ask | .phase | .signals _ | .release => .isTrue trivial

/-- The step records a reply. -/
def records (s : State F) : Event F → Bool
  | .receive => s.sock.head?.join.isSome
  | _ => false

/-- No reply is recorded while `main` holds `mt_req_send`. -/
def Undisturbed (s : State F) (e : Event F) : Prop := s.pc.holding = true → records s e = false

instance (s : State F) (e : Event F) : Decidable (Undisturbed s e) := inferInstanceAs (Decidable (_ → _))

/-- The state before the first round with no variable set by the configuration file. -/
def State.boot (rows : List (Int × PfrPeer)) : State F :=
  State.init Config.default (Dbl.num 50000) (.ofRows rows)

/-- Events executed one by one end a run. -/
theorem exists_run {G : State F → Event F → Prop} [∀ s e, Decidable (G s e)] (s : State F) (es : List (Event F))
    (P : State F → Prop) [DecidablePred P] (h : ((Lts.runG step G s es).any fun t => decide (P t)) = true) :
    ∃ t, Lts.Path step G s t ∧ P t :=
  Lts.Path.exists_of_runG s es P h

/-! ## Rounds -/

/-- Packets that arrive one by one and are received at once. -/
def replyEvents (replies : List (Reply F)) : List (Event F) :=
  replies.flatMap fun x => [.arrive (some x), .receive, .ack]

/-- A round in which the acknowledgement comes in time. -/
def roundEvents (dstList : List String) (replies : List (Reply F)) : List (Event F) :=
  .start dstList :: replyEvents replies ++
    [.ask, .timeout, .ack, .take, .phase, .phase, .phase, .phase, .phase, .phase, .signals .none, .phase, .release]

/-- A round in which it does not. -/
def skippedEvents (dstList : List String) (replies : List (Reply F)) : List (Event F) :=
  .start dstList :: replyEvents replies ++ [.ask, .take]

end Pfr

import Pfr.Probing
import Pfr.Aggregate
import Pfr.Paths

/- What the records of a run are measurements of, and what its log says of losses. The sender
   threads race for the buffer and the address they share, so a packet may carry the number
   of one thread to the destination of another; but it was sent as it stands, and its reply
   is recorded for what is in it.

   1. `sendStep_runs`: in any interleaving a thread sends packets of its own round;
   2. `Traced.move`: the invariant of the whole system;
   3. `samples_measured`: every sample is the time a packet took that was sent to that
      destination, in that round, for that peer and with that number;
   4. `losses_bounded`: so no loss is logged that is negative or counts every request. -/
namespace Pfr

open Std Bytes

/-! ## What the threads send -/

/-- The fields of a packet are those a thread of the round fills in. -/
structure OfRound (rd : Round) (x : Payload) : Prop where
  probe : x.probeId = rd.probeId
  peer : x.peerId ∈ rd.peers
  time : x.tv.Normalised

/-- A packet sent in a round: with one of its numbers, and to one of the destinations looked
up in it, unless the address was freed by then. -/
structure Asked (rd : Round) (x : SentPacket) : Prop where
  dst : x.live = true → x.dst = host0 ∨ x.dst ∈ rd.dsts
  seq : x.buf.seq < rd.reqs
  payload : OfRound rd x.buf.payload

/-- The destinations a thread has still to come to. -/
def SendPc.todo : SendPc → List String
  | .setProto l | .setHost l | .socket l | .freeHost l | .next l | .loop l _ _ => l

/-- The thread has written `pr->sasend`, and not freed what it wrote. -/
def SendPc.holds : SendPc → Bool
  | .socket _ | .freeHost _ | .loop _ _ _ => true
  | _ => false

/-- It has written `icmp_seq` for the packet it is at. -/
def SendPc.numbered : SendPc → Bool
  | .loop _ _ .test => false
  | .loop _ _ _ => true
  | _ => false

/-- It has copied its payload. -/
def SendPc.filled : SendPc → Bool
  | .loop _ _ .test | .loop _ _ .fill => false
  | .loop _ _ _ => true
  | _ => false

/-- A thread of the round, and what is in the buffer once it has written there: itself it
may have been overwritten, by another thread of the same round. -/
structure Runs (rd : Round) (w : Shared) (th : Sender) : Prop where
  probe : th.probeId = rd.probeId
  peer : th.peerId ∈ rd.peers
  todo : ∀ d ∈ th.pc.todo, d ∈ rd.dsts
  numbered : th.pc.numbered = true → w.buf.seq < rd.reqs
  filled : th.pc.filled = true → OfRound rd w.buf.payload

/-- One of the two places an address is kept in. -/
def Shared.Held (w : Shared) (a : Aim) : Prop := w.sasend = some a ∨ w.sasendRead = some a

/-- An address is of the round. -/
def AimOf (rd : Round) (a : Aim) : Prop := a.dst = host0 ∨ a.dst ∈ rd.dsts

theorem held_aim {w : Shared} {a : Aim} (h : w.aim = some a) : w.Held a := by
  unfold Shared.aim at h
  split at h
  · exact Or.inr h
  · exact Or.inl h

theorem held_point {w : Shared} {a b : Aim} (h : (w.point b).Held a) : a = b ∨ w.Held a := by
  unfold Shared.point at h
  split at h
  · rcases h with h | h
    · exact Or.inr (Or.inl h)
    · exact Or.inl (Option.some.inj h).symm
  · rcases h with h | h
    · exact Or.inl (Option.some.inj h).symm
    · exact Or.inr (Or.inr h)

/-- An address that is still there was not the thread's. -/
theorem held_free {w : Shared} {k : Int} {a : Aim} (h : (w.free k).Held a) (hl : a.live = true) : w.Held a ∧ a.owner ≠ k := by
  have hone : ∀ o : Option Aim, o.map (Aim.free k) = some a → o = some a ∧ a.owner ≠ k := by
    intro o ho
    obtain ⟨b, rfl, rfl⟩ := Option.map_eq_some_iff.mp ho
    unfold Aim.free at hl ⊢
    split at hl
    · cases hl
    · next hne =>
      rw [if_neg hne]
      exact ⟨rfl, hne⟩
  rcases h with h | h
  · exact ⟨Or.inl (hone _ h).1, (hone _ h).2⟩
  · exact ⟨Or.inr (hone _ h).1, (hone _ h).2⟩

/-- What a statement of the thread `th`, which becomes `th'`, does to what is shared. -/
structure Writes (rd : Round) (th th' : Sender) (w w' : Shared) : Prop where
  peer : th'.peerId = th.peerId
  num : w'.buf.seq = w.buf.seq ∨ w'.buf.seq < rd.reqs
  fill : w'.buf.payload = w.buf.payload ∨ OfRound rd w'.buf.payload
  sent : w'.sent = w.sent ∨ ∃ x, Asked rd x ∧ w'.sent = x :: w.sent
  aims : ∀ a, w'.Held a → a.live = true →
    (w.Held a ∧ (a.owner = th.peerId → th.pc.holds = true → th'.pc.holds = true)) ∨
      (AimOf rd a ∧ a.owner = th.peerId ∧ th'.pc.holds = true)

/-- A write by a thread of the round leaves the others what they need. -/
theorem Runs.write {rd : Round} {w w' : Shared} {th : Sender} (h : Runs rd w th)
    (hnum : w'.buf.seq = w.buf.seq ∨ w'.buf.seq < rd.reqs)
    (hfill : w'.buf.payload = w.buf.payload ∨ OfRound rd w'.buf.payload) : Runs rd w' th where
  probe := h.probe
  peer := h.peer
  todo := h.todo
  numbered hp := by
    rcases hnum with he | hlt
    · rw [he]
      exact h.numbered hp
    · exact hlt
  filled hp := by
    rcases hfill with he | hof
    · rw [he]
      exact h.filled hp
    · exact hof

/-- A statement that writes neither buffer nor address. -/
theorem Writes.keep {rd : Round} {th th' : Sender} {w w' : Shared} (hp : th'.peerId = th.peerId)
    (hseq : w'.buf.seq = w.buf.seq ∨ w'.buf.seq < rd.reqs)
    (hfill : w'.buf.payload = w.buf.payload ∨ OfRound rd w'.buf.payload)
    (hsent : w'.sent = w.sent ∨ ∃ x, Asked rd x ∧ w'.sent = x :: w.sent) (haim : ∀ a, w'.Held a → w.Held a)
    (hh : th.pc.holds = true → th'.pc.holds = true) : Writes rd th th' w w' :=
  ⟨hp, hseq, hfill, hsent, fun a ha _ => Or.inl ⟨haim a ha, fun _ => hh⟩⟩

/-- One that points `pr->sasend` at an address of the round. -/
theorem Writes.pointed {rd : Round} {th th' : Sender} (w : Shared) {d : String} (hp : th'.peerId = th.peerId)
    (hd : d = host0 ∨ d ∈ rd.dsts) (hh : th'.pc.holds = true) : Writes rd th th' w (w.point ⟨d, th.peerId, true⟩) where
  peer := hp
  num := by simp
  fill := by simp
  sent := by simp
  aims := by
    intro a ha _
    rcases held_point ha with rfl | ha
    · exact Or.inr ⟨hd, rfl, hh⟩
    · exact Or.inl ⟨ha, fun _ _ => hh⟩

theorem Writes.freed {rd : Round} {th th' : Sender} (w : Shared) (hp : th'.peerId = th.peerId) :
    Writes rd th th' w (w.free th.peerId) where
  peer := hp
  num := Or.inl rfl
  fill := Or.inl rfl
  sent := Or.inl rfl
  aims := fun _ ha hl => Or.inl ⟨(held_free ha hl).1, fun he => absurd he (held_free ha hl).2⟩

theorem sendto_sent (w : Shared) (x : Fill) : ∀ y ∈ w.sent, y ∈ (w.sendto x).sent := by
  intro y hy
  unfold Shared.sendto
  split
  · exact hy
  · split
    · exact hy
    · exact List.mem_cons_of_mem _ hy

/-- What was sent stays sent. -/
theorem sendStep_sent {pid reqs : Nat} {x : Fill} {th : Sender} {w : Shared} {out : Sender × Shared}
    (hs : sendStep pid reqs x th w = some out) : ∀ y ∈ w.sent, y ∈ out.2.sent := by
  intro y hy
  obtain ⟨peerId, probeId, pc⟩ := th
  cases pc with
  | setProto l => cases hs; exact hy
  | setHost l => cases hs; simpa using hy
  | socket l =>
    simp only [sendStep] at hs
    split at hs
    · cases hs; exact hy
    · cases hs
  | freeHost l => cases hs; exact hy
  | next l =>
    cases l with
    | nil => cases hs
    | cons d rest => cases hs; simpa using hy
  | loop rest seq st =>
    cases st with
    | test =>
      simp only [sendStep] at hs
      split at hs <;> cases hs <;> exact hy
    | fill => cases hs; exact hy
    | clear => cases hs; exact hy
    | sum => cases hs; exact hy
    | send => cases hs; exact sendto_sent w x y hy

/-- **A statement of a thread of the round**, whatever the others wrote before it. -/
theorem sendStep_runs {pid : Nat} {rd : Round} {x : Fill} {th : Sender} {w : Shared} {out : Sender × Shared}
    (h : Runs rd w th) (haims : ∀ a, w.Held a → a.live = true → AimOf rd a) (hx : x.tv.Normalised)
    (hs : sendStep pid rd.reqs x th w = some out) : Runs rd out.2 out.1 ∧ Writes rd th out.1 w out.2 := by
  obtain ⟨peerId, probeId, pc⟩ := th
  have hfilled : OfRound rd ⟨x.tv, peerId, probeId, x.threadId, x.timestamp⟩ := by
    refine ⟨?_, h.peer, hx⟩
    show (probeId : Int) = rd.probeId
    rw [← h.probe]
  cases pc with
  | setProto l =>
    cases hs
    exact ⟨⟨h.probe, h.peer, h.todo, nofun, nofun⟩,
      .keep rfl (Or.inl rfl) (Or.inl rfl) (Or.inl rfl) (fun _ => id) nofun⟩
  | setHost l =>
    cases hs
    exact ⟨⟨h.probe, h.peer, h.todo, nofun, nofun⟩, .pointed w rfl (Or.inl rfl) rfl⟩
  | socket l =>
    simp only [sendStep] at hs
    split at hs
    · cases hs
      exact ⟨⟨h.probe, h.peer, h.todo, nofun, nofun⟩,
        .keep rfl (Or.inl rfl) (Or.inl rfl) (Or.inl rfl) (fun _ => id) fun _ => rfl⟩
    · cases hs
  | freeHost l =>
    cases hs
    exact ⟨⟨h.probe, h.peer, h.todo, nofun, nofun⟩, .freed w rfl⟩
  | next l =>
    cases l with
    | nil => cases hs
    | cons d rest =>
      cases hs
      exact ⟨⟨h.probe, h.peer, fun e he => h.todo e (List.mem_cons_of_mem _ he), nofun, nofun⟩,
        .pointed w rfl (Or.inr (h.todo d List.mem_cons_self)) rfl⟩
  | loop rest seq st =>
    cases st with
    | test =>
      simp only [sendStep] at hs
      split at hs
      · next hlt =>
        cases hs
        exact ⟨⟨h.probe, h.peer, h.todo, fun _ => hlt, nofun⟩,
          .keep rfl (Or.inr hlt) (Or.inl rfl) (Or.inl rfl) (fun _ => id) fun _ => rfl⟩
      · cases hs
        exact ⟨⟨h.probe, h.peer, h.todo, nofun, nofun⟩, .freed w rfl⟩
    | fill =>
      cases hs
      exact ⟨⟨h.probe, h.peer, h.todo, h.numbered, fun _ => hfilled⟩,
        .keep rfl (Or.inl rfl) (Or.inr hfilled) (Or.inl rfl) (fun _ => id) fun _ => rfl⟩
    | clear =>
      cases hs
      exact ⟨⟨h.probe, h.peer, h.todo, h.numbered, h.filled⟩,
        .keep rfl (Or.inl rfl) (Or.inl rfl) (Or.inl rfl) (fun _ => id) fun _ => rfl⟩
    | sum =>
      cases hs
      exact ⟨⟨h.probe, h.peer, h.todo, h.numbered, h.filled⟩,
        .keep rfl (Or.inl rfl) (Or.inl rfl) (Or.inl rfl) (fun _ => id) fun _ => rfl⟩
    | send =>
      cases hs
      have hout : w.sendto x = w ∨ ∃ d a, w.aim = some a ∧ (a.live = true → d = a.dst) ∧
          w.sendto x = { w with sent := ⟨d, a.live, w.buf⟩ :: w.sent } := by
        unfold Shared.sendto
        split
        · exact Or.inl rfl
        · next a ha =>
          split
          · exact Or.inl rfl
          · next d hd =>
            refine Or.inr ⟨d, a, ha, fun hl => ?_, rfl⟩
            rw [if_pos hl] at hd
            exact (Option.some.inj hd).symm
      rcases hout with he | ⟨d, a, ha, hd, he⟩
      · exact ⟨⟨h.probe, h.peer, h.todo, nofun, nofun⟩, .keep rfl (Or.inl (by rw [he])) (Or.inl (by rw [he]))
          (Or.inl (by rw [he])) (by rw [he]; exact fun _ => id) fun _ => rfl⟩
      · have hasked : Asked rd ⟨d, a.live, w.buf⟩ := by
          refine ⟨fun hl => ?_, h.numbered rfl, h.filled rfl⟩
          show d = host0 ∨ d ∈ rd.dsts
          rw [hd hl]
          exact haims a (held_aim ha) hl
        exact ⟨⟨h.probe, h.peer, h.todo, nofun, nofun⟩, .keep rfl (Or.inl (by rw [he])) (Or.inl (by rw [he]))
          (Or.inr ⟨_, hasked, by rw [he]⟩) (by rw [he]; exact fun _ => id) fun _ => rfl⟩

/-- Every address that is still there is of the round, and of a thread that will free it. -/
def AimsOf (rd : Round) (senders : List Sender) (w : Shared) : Prop :=
  ∀ a, w.Held a → a.live = true → AimOf rd a ∧ ∃ th ∈ senders, th.peerId = a.owner ∧ th.pc.holds = true

/-- A thread's statement leaves this so. -/
theorem AimsOf.step {rd : Round} {senders : List Sender} {w w' : Shared} {th th' : Sender} {i : Nat}
    (h : AimsOf rd senders w) (hth : senders[i]? = some th) (hw : Writes rd th th' w w') : AimsOf rd (senders.set i th') w' := by
  have hnew : th' ∈ senders.set i th' := List.mem_set (List.getElem?_eq_some_iff.mp hth).1 th'
  intro a ha hl
  rcases hw.aims a ha hl with ⟨ha, hkeep⟩ | ⟨hof, hown, hh⟩
  · obtain ⟨hof, y, hy, hown, hh⟩ := h a ha hl
    refine ⟨hof, ?_⟩
    obtain ⟨j, hj⟩ := List.getElem?_of_mem hy
    by_cases hij : i = j
    · -- the thread that holds it is the one that took the step
      subst hij
      rw [hth] at hj
      cases hj
      exact ⟨th', hnew, by rw [hw.peer, hown], hkeep hown.symm hh⟩
    · refine ⟨y, List.mem_of_getElem? (i := j) ?_, hown, hh⟩
      rw [List.getElem?_set_ne hij, hj]
  · exact ⟨hof, th', hnew, by rw [hw.peer, hown], hh⟩

/-! ## The system -/

section System
variable {clock : Timeval → Timeval → Prop} {addrOf : String → String}

/-- What was sent, and what came in. -/
structure Trail where
  sent : List SentPacket
  received : List Received

structure Trail.Sub (w w' : Trail) : Prop where
  sent : ∀ x ∈ w.sent, x ∈ w'.sent
  received : ∀ y ∈ w.received, y ∈ w'.received

theorem Trail.Sub.refl (w : Trail) : w.Sub w := ⟨fun _ => id, fun _ => id⟩

/-- A packet was sent to the destination, in that round, for that peer and with that number,
it was answered, and unless the clock was set back `rtt` is the time, in milliseconds, from
its filling in to the answer. -/
def EchoOf (clock : Timeval → Timeval → Prop) (pid : Nat) (addrOf : String → String) (w : Trail) (d : String) (q k n : Int) (rtt : ℚ) : Prop :=
  ∃ x ∈ w.sent, ∃ y ∈ w.received, Answers clock pid d x y.pkt y.recv ∧ addrOf x.dst = d ∧
    x.buf.payload.probeId = q ∧ x.buf.payload.peerId = k ∧ ((x.buf.seq % 65536 : Nat) : Int) = n ∧
    (InTime x.buf.payload.tv y.recv → rtt = ((y.recv.usecs - x.buf.payload.tv.usecs : Int) : ℚ) / 1000)

/-- No loss, or one of less than all the requests of the round. -/
def LossOf (rounds : List Round) (q lost : Int) : Prop :=
  lost = 0 ∨ (0 ≤ lost ∧ ∃ rd ∈ rounds, (rd.probeId : Int) = q ∧ lost < rd.reqs)

theorem EchoOf.mono {pid : Nat} {w w' : Trail} {d : String} {q k n : Int} {rtt : ℚ} (h : EchoOf clock pid addrOf w d q k n rtt)
    (hsub : w.Sub w') : EchoOf clock pid addrOf w' d q k n rtt := by
  obtain ⟨x, hx, y, hy, hrest⟩ := h
  exact ⟨x, hsub.sent x hx, y, hsub.received y hy, hrest⟩

theorem LossOf.mono {rounds rounds' : List Round} {q lost : Int} (h : LossOf rounds q lost)
    (hsub : ∀ x ∈ rounds, x ∈ rounds') : LossOf rounds' q lost := by
  rcases h with h0 | ⟨hpos, rd, hrd, hrest⟩
  · exact Or.inl h0
  · exact Or.inr ⟨hpos, rd, hsub rd hrd, hrest⟩

/-- The configuration is the one the round was started with. -/
def MainPc.before : MainPc → Bool
  | .phase .man | .release | .exited => false
  | _ => true

theorem clear_after {F : Type} (s : State F) : s.clear.pc ≠ .top ∧ s.clear.pc ≠ .joined ∧ s.clear.pc.before = false := by
  unfold State.clear
  dsimp only
  split
  · exact ⟨nofun, nofun, rfl⟩
  · exact ⟨nofun, nofun, rfl⟩

/-- What the records and the log hold. -/
structure TracedMem (clock : Timeval → Timeval → Prop) (pid : Nat) (addrOf : String → String) (w : Trail) (rounds : List Round) (t : State ℚ) : Prop where
  stored : ∀ (d : String) (q k n : Int) (v : Option (Tparm ℚ)), ((peersAt t.mem.r d q).idx k)[n]? = some v →
    (n = 99 ∧ Late t q) ∨ ∃ tp, v = some tp ∧ EchoOf clock pid addrOf w d q k n tp.rtt
  filled : ∀ (d : String) (q k : Int), k ∈ peersAt t.mem.r d q → ∃ n, n ∈ (peersAt t.mem.r d q).idx k
  aggs : ∀ (d : String) (q k : Int) (tp : Tparm ℚ), aggAt (peersAt t.mem.r d q) k = some tp → LossOf rounds q tp.lost
  rows : ∀ (d : String) (q : Int) (row : Tlog ℚ), (t.mem.routeLog1.idx d)[q]? = some (some row) → LossOf rounds q row.lost
  queued : ∀ y : Reply ℚ, some y ∈ t.sock → EchoOf clock pid addrOf w y.src y.probeId y.peerId y.seq y.rtt

def Probing.trail (s : Probing ℚ) : Trail := ⟨s.shared.sent, s.received⟩

/-- The threads were joined, and every address was freed. -/
structure Probing.Idle (s : Probing ℚ) : Prop where
  joined : s.joined
  freed : ∀ a, s.shared.Held a → a.live = false

/-- The invariant of the system. -/
structure Traced (clock : Timeval → Timeval → Prop) (pid : Nat) (addrOf : String → String) (s : Probing ℚ) : Prop where
  mem : TracedMem clock pid addrOf s.trail s.rounds s.main
  asked : ∀ x ∈ s.shared.sent, ∃ rd ∈ s.rounds, Asked rd x
  ints : ∀ rd ∈ s.rounds, IsInt rd.probeId ∧ ∀ k ∈ rd.peers, IsInt k
  rounds : ∀ rd ∈ s.rounds, rd.probeId < s.main.probeId ∨ (s.main.pc ≠ .top ∧ rd.probeId = s.main.probeId ∧
    (s.main.pc.before = true → rd.reqs = s.main.cfg.pfrPingReq.toNat))
  running : s.main.pc = .joined → ∃ rd ∈ s.rounds, rd.reqs = s.main.cfg.pfrPingReq.toNat ∧
    (∀ th ∈ s.senders, Runs rd s.shared th) ∧ AimsOf rd s.senders s.shared
  idle : s.main.pc ≠ .joined → s.Idle

theorem traced_init (clock : Timeval → Timeval → Prop) (pid : Nat) (addrOf : String → String) (cfg : Config) (v : ℚ) (mm : PeerMap) :
    Traced clock pid addrOf (Probing.init cfg v mm) where
  mem := {
    stored := by
      intro d q k n v hv
      exact absurd (path_of_sample (ExtTreeMap.mem_of_getElem? hv)).1 ExtTreeMap.not_mem_empty
    filled := fun d q k hk => absurd (mem_of_mem_peersAt hk) ExtTreeMap.not_mem_empty
    aggs := fun d q k tp htp => absurd (mem_of_mem_peersAt (mem_of_aggAt htp)) ExtTreeMap.not_mem_empty
    rows := by
      intro d q row hrow
      change ((∅ : LogMap ℚ).idx d)[q]? = some (some row) at hrow
      rw [ExtTreeMap.idx_empty] at hrow
      change (∅ : ExtTreeMap Int (Option (Tlog ℚ)))[q]? = some (some row) at hrow
      simp at hrow
    queued := nofun }
  asked := nofun
  ints := nofun
  rounds := nofun
  running := nofun
  idle := fun _ => ⟨nofun, by rintro _ (ha | ha) <;> cases ha⟩

/-! ### The records -/

variable {pid : Nat} {w : Trail} {rounds : List Round} {t u : State ℚ}

/-- A step that leaves the records, the log and the queue. -/
theorem TracedMem.same (h : TracedMem clock pid addrOf w rounds t) (hr : u.mem.r = t.mem.r)
    (hlog : u.mem.routeLog1 = t.mem.routeLog1) (hsock : ∀ y, some y ∈ u.sock → some y ∈ t.sock)
    (hlate : ∀ q, Late t q → Late u q) : TracedMem clock pid addrOf w rounds u where
  stored := by
    rw [hr]
    intro d q k n v hv
    exact (h.stored d q k n v hv).imp_left fun h99 => ⟨h99.1, hlate q h99.2⟩
  filled := by rw [hr]; exact h.filled
  aggs := by rw [hr]; exact h.aggs
  rows := by rw [hlog]; exact h.rows
  queued := fun y hy => h.queued y (hsock y hy)

/-- What was erased leaves the rest. -/
theorem TracedMem.erased (h : TracedMem clock pid addrOf w rounds t) {gone : String → Prop} [DecidablePred gone]
    (hr : ∀ d, u.mem.r[d]? = if gone d then none else t.mem.r[d]?) (hlog : u.mem.routeLog1 = t.mem.routeLog1)
    (hsock : u.sock = t.sock) (hlate : ∀ q, Late t q → Late u q) : TracedMem clock pid addrOf w rounds u where
  stored := by
    intro d q k n v hv
    rw [path_of_erased hr (path_of_sample (ExtTreeMap.mem_of_getElem? hv)).2] at hv
    exact (h.stored d q k n v hv).imp_left fun h99 => ⟨h99.1, hlate q h99.2⟩
  filled := by
    intro d q k hk
    have heq := path_of_erased hr hk
    rw [heq] at hk ⊢
    exact h.filled d q k hk
  aggs := by
    intro d q k tp htp
    rw [path_of_erased hr (mem_of_aggAt htp)] at htp
    exact h.aggs d q k tp htp
  rows := by rw [hlog]; exact h.rows
  queued := by rw [hsock]; exact h.queued

/-- A recorded reply is the one that was waiting. -/
theorem TracedMem.receive (h : TracedMem clock pid addrOf w rounds t) {x : Option (Reply ℚ)} {rest : List (Option (Reply ℚ))}
    (hsock : t.sock = x :: rest) (hmem : u.mem = t.mem.receive x) (hrest : u.sock = rest)
    (hlate : ∀ q, Late t q → Late u q) : TracedMem clock pid addrOf w rounds u := by
  have hq : ∀ y, some y ∈ rest → some y ∈ t.sock := fun y hy => by rw [hsock]; exact List.mem_cons_of_mem _ hy
  cases x with
  | none => exact h.same (by rw [hmem]; rfl) (by rw [hmem]; rfl) (by rw [hrest]; exact hq) hlate
  | some y =>
    have hr : u.mem.r = record y t.mem.r := by rw [hmem]; rfl
    have hecho : EchoOf clock pid addrOf w y.src y.probeId y.peerId y.seq y.rtt :=
      h.queued y (by rw [hsock]; exact List.mem_cons_self)
    refine ⟨?_, ?_, ?_, by rw [hmem]; exact h.rows, by rw [hrest]; exact fun z hz => h.queued z (hq z hz)⟩
    · intro d q k n v hv
      rw [hr, samples_record] at hv
      split at hv
      · next hpath =>
        obtain ⟨rfl, rfl, rfl⟩ := hpath
        rcases putSample_cases hv with hv | ⟨rfl, rfl⟩
        · exact (h.stored _ _ _ n v hv).imp_left fun h99 => ⟨h99.1, hlate _ h99.2⟩
        · exact Or.inr ⟨_, rfl, hecho⟩
      · exact (h.stored d q k n v hv).imp_left fun h99 => ⟨h99.1, hlate q h99.2⟩
    · intro d q k hk
      rw [hr] at hk ⊢
      rw [samples_record]
      rw [peersAt_record] at hk
      split
      · next hpath =>
        by_cases hnew : (((peersAt t.mem.r d q).idx k).idx y.seq).isNone
        · exact ⟨y.seq, by rw [putSample, if_pos hnew]; exact ExtTreeMap.mem_insert_self⟩
        · refine ⟨y.seq, ?_⟩
          rw [putSample, if_neg hnew]
          by_contra hno
          rw [ExtTreeMap.idx_of_not_mem hno] at hnew
          exact hnew rfl
      · next hpath =>
        apply h.filled
        split at hk
        · next hdq =>
          rcases ExtTreeMap.mem_upd.mp hk with rfl | hk
          · exact absurd ⟨hdq.1, hdq.2, rfl⟩ hpath
          · exact hk
        · exact hk
    · intro d q k tp htp
      rw [hr, aggAt, samples_record] at htp
      split at htp
      · rw [putSample] at htp
        split at htp
        · rw [ExtTreeMap.idx_insert] at htp
          split at htp
          · cases htp
            exact Or.inl rfl
          · exact h.aggs d q k tp htp
        · exact h.aggs d q k tp htp
      · exact h.aggs d q k tp htp

/-- No more samples than requests: of two replies with one number only the first is kept. -/
theorem size_le_reqs {reqs : Nat} (hasked : ∀ x ∈ w.sent, ∃ rd ∈ rounds, Asked rd x) {d : String} {p : Nat} {k : Int}
    (hreqs : ∀ rd ∈ rounds, rd.probeId = p → rd.reqs = reqs) {samples : Samples ℚ}
    (hecho : ∀ n ∈ samples, ∃ rtt, EchoOf clock pid addrOf w d p k n rtt) : samples.size ≤ reqs := by
  have hsub : samples.keys ⊆ (List.range reqs).map fun i => ((i % 65536 : Nat) : Int) := by
    intro n hn
    obtain ⟨rtt, x, hx, -, -, -, -, hprobe, -, hseq, -⟩ := hecho n (ExtTreeMap.mem_keys.mp hn)
    obtain ⟨rd, hrd, ha⟩ := hasked x hx
    have hp : rd.probeId = p := by
      rw [ha.payload.probe] at hprobe
      exact_mod_cast hprobe
    have hlt := ha.seq
    rw [hreqs rd hrd hp] at hlt
    exact List.mem_map.mpr ⟨x.buf.seq, List.mem_range.mpr hlt, hseq⟩
  have hlen := (List.subperm_of_subset ExtTreeMap.nodup_keys hsub).length_le
  rwa [ExtTreeMap.length_keys, List.length_map, List.length_range] at hlen

/-- A phase makes aggregates of what its round stored, and keeps the rest. -/
theorem TracedMem.phase (h : TracedMem clock pid addrOf w rounds t) (hasked : ∀ x ∈ w.sent, ∃ rd ∈ rounds, Asked rd x)
    {ph : Phase} {m : Mem ℚ} (hpc : t.pc = .phase ph) (hrun : runPhase t.cfg t.probeId t.pfrList t.mem ph = some m)
    (hreqs : ph = .calcAvg → ∀ rd ∈ rounds, rd.probeId = t.probeId → rd.reqs = t.cfg.pfrPingReq.toNat) :
    TracedMem clock pid addrOf w rounds { t with mem := m, pc := ph.next } := by
  have hlate : ∀ q, Late t q → Late { t with mem := m, pc := ph.next } q := fun q hq => hq.phase hpc m
  have hdue : ∀ {q : Int} {s s' : Samples ℚ}, (t.probeId : Int) = q → Touched t.cfg s ph s' →
      Late { t with mem := m, pc := ph.next } q := fun hq ht => Or.inr ⟨hq.symm, ht.due⟩
  have haggs : ∀ (d : String) (q k : Int) (tp : Tparm ℚ), aggAt (peersAt m.r d q) k = some tp → LossOf rounds q tp.lost := by
    intro d q k tp htp
    obtain ⟨hk, he | ⟨hq, ht⟩⟩ := phase_path hrun (mem_of_aggAt htp)
    · rw [aggAt, he] at htp
      exact h.aggs d q k tp htp
    · rcases ht.lost htp with ⟨tp', htp', hlost⟩ | ⟨rfl, hlost⟩
      · rw [← hlost]
        exact h.aggs d q k tp' htp'
      · -- before this phase the round has no aggregate: every sample is a reply
        have hecho : ∀ n ∈ (peersAt t.mem.r d q).idx k, ∃ rtt, EchoOf clock pid addrOf w d t.probeId k n rtt := by
          intro n hn
          rw [hq]
          rcases h.stored d q k n _ (ExtTreeMap.getElem?_idx hn) with ⟨-, hl⟩ | ⟨tp, -, hx⟩
          · have := hl.older (by rw [hpc]; rfl) (by rw [hpc]; rfl)
            omega
          · exact ⟨_, hx⟩
        obtain ⟨n, hn⟩ := h.filled d q k hk
        obtain ⟨rtt, x, hx, -, -, -, -, hprobe, -, hseq, -⟩ := hecho n hn
        obtain ⟨rd, hrd, ha⟩ := hasked x hx
        have hp : rd.probeId = t.probeId := by
          rw [ha.payload.probe] at hprobe
          exact_mod_cast hprobe
        have hle := size_le_reqs hasked (hreqs rfl) hecho
        have hpos : 0 < ((peersAt t.mem.r d q).idx k).size := by
          rw [← ExtTreeMap.length_keys]
          exact List.length_pos_of_mem (ExtTreeMap.mem_keys.mpr hn)
        have hreq := hreqs rfl rd hrd hp
        refine Or.inr ⟨by omega, rd, hrd, by omega, by omega⟩
  refine ⟨?_, ?_, haggs, ?_, h.queued⟩
  · intro d q k n v hv
    obtain ⟨-, he | ⟨hq, ht⟩⟩ := phase_path hrun (path_of_sample (ExtTreeMap.mem_of_getElem? hv)).2
    · rw [he] at hv
      exact (h.stored d q k n v hv).imp_left fun h99 => ⟨h99.1, hlate q h99.2⟩
    · by_cases hn : n = 99
      · exact Or.inl ⟨hn, hdue hq ht⟩
      · rw [ht.sample hn] at hv
        exact (h.stored d q k n v hv).imp_left fun h99 => ⟨h99.1, hlate q h99.2⟩
  · intro d q k hk
    obtain ⟨hk0, he | ⟨-, ht⟩⟩ := phase_path hrun hk
    · rw [he]
      exact h.filled d q k hk0
    · obtain ⟨n, hn⟩ := h.filled d q k hk0
      exact ⟨n, ht.mem hn⟩
  · intro d q row hrow
    rcases phase_row hrun hrow with hold | ⟨-, -, h0 | ⟨k, tp, htp, hlost⟩⟩
    · exact h.rows d q row hold
    · exact Or.inl h0
    · rw [hlost]
      exact h.aggs d q k tp htp

/-- More packets and more rounds. -/
theorem TracedMem.mono (h : TracedMem clock pid addrOf w rounds t) {w' : Trail} {rounds' : List Round}
    (hsub : w.Sub w') (hrounds : ∀ rd ∈ rounds, rd ∈ rounds') : TracedMem clock pid addrOf w' rounds' t where
  stored := by
    intro d q k n v hv
    rcases h.stored d q k n v hv with h99 | ⟨tp, htp, hx⟩
    · exact Or.inl h99
    · exact Or.inr ⟨tp, htp, hx.mono hsub⟩
  filled := h.filled
  aggs := fun d q k tp htp => (h.aggs d q k tp htp).mono hrounds
  rows := fun d q row hrow => (h.rows d q row hrow).mono hrounds
  queued := fun y hy => (h.queued y hy).mono hsub

/-! ### The steps -/

variable {s v : Probing ℚ}

/-- A step of `main` or of `readloop` that starts no thread. -/
theorem Traced.main (h : Traced clock pid addrOf s) (hmem : TracedMem clock pid addrOf s.trail s.rounds t)
    (hround : s.main.probeId < t.probeId ∨ (t.probeId = s.main.probeId ∧ (s.main.pc ≠ .top → t.pc ≠ .top) ∧
      (t.pc.before = true → s.main.pc.before = true ∧ t.cfg = s.main.cfg)))
    (hrun : t.pc = .joined → s.main.pc = .joined ∧ t.cfg = s.main.cfg) (hj : t.pc ≠ .joined → s.Idle) :
    Traced clock pid addrOf { s with main := t } where
  mem := hmem
  asked := h.asked
  ints := h.ints
  rounds := by
    intro rd hrd
    show rd.probeId < t.probeId ∨ (t.pc ≠ .top ∧ rd.probeId = t.probeId ∧ (t.pc.before = true → rd.reqs = t.cfg.pfrPingReq.toNat))
    have hle : rd.probeId ≤ s.main.probeId := by
      rcases h.rounds rd hrd with hlt | ⟨-, heq, -⟩ <;> omega
    rcases hround with hlt | ⟨hp, htop, hcfg⟩
    · exact Or.inl (by omega)
    · rw [hp]
      rcases h.rounds rd hrd with hlt | ⟨hpc, heq, hreq⟩
      · exact Or.inl hlt
      · refine Or.inr ⟨htop hpc, heq, ?_⟩
        intro hb
        rw [(hcfg hb).2]
        exact hreq (hcfg hb).1
  running := by
    intro hpc
    obtain ⟨hpc', hcfg⟩ := hrun hpc
    show ∃ rd ∈ s.rounds, rd.reqs = t.cfg.pfrPingReq.toNat ∧ (∀ th ∈ s.senders, Runs rd s.shared th) ∧
      AimsOf rd s.senders s.shared
    rw [hcfg]
    exact h.running hpc'
  idle := fun hp => ⟨(hj hp).joined, (hj hp).freed⟩

/-- Once the threads are through their lists nothing holds an address. -/
theorem Traced.joins (h : Traced clock pid addrOf s) (hpc : s.main.pc = .joined) (hj : s.joined) : s.Idle := by
  refine ⟨hj, ?_⟩
  obtain ⟨rd, -, -, -, haims⟩ := h.running hpc
  intro a ha
  by_contra hl
  obtain ⟨-, th, hth, -, hh⟩ := haims a ha (by simpa using hl)
  rw [hj th hth] at hh
  cases hh

theorem Traced.mainMove (h : Traced clock pid addrOf s) {e : Event ℚ} (hm : Move s.main e t) (harr : ∀ x, e ≠ .arrive x)
    (hstart : ∀ l, e ≠ .start l) (hask : e = .ask → s.joined) : Traced clock pid addrOf { s with main := t } := by
  have hdone : s.main.pc ≠ .joined → s.Idle := h.idle
  cases hm with
  | arrive x => exact absurd rfl (harr x)
  | receive x rest hr hsock =>
    exact h.main (h.mem.receive hsock rfl rfl fun _ => id) (Or.inr ⟨rfl, id, fun hb => ⟨hb, rfl⟩⟩) (fun hp => ⟨hp, rfl⟩) hdone
  | timeout hr =>
    exact h.main (h.mem.same rfl rfl (fun _ => id) fun _ => id) (Or.inr ⟨rfl, id, fun hb => ⟨hb, rfl⟩⟩) (fun hp => ⟨hp, rfl⟩) hdone
  | ack hr hh =>
    exact h.main (h.mem.same rfl rfl (fun _ => id) fun _ => id) (Or.inr ⟨rfl, id, fun hb => ⟨hb, rfl⟩⟩) (fun hp => ⟨hp, rfl⟩) hdone
  | start l hpc => exact absurd rfl (hstart l)
  | ask hpc =>
    refine h.main (h.mem.same rfl rfl (fun _ => id) ?_) (Or.inr ⟨rfl, nofun, fun _ => ⟨by rw [hpc]; rfl, rfl⟩⟩) nofun
      fun _ => h.joins hpc (hask rfl)
    exact fun q hq => Or.inl (hq.older (by rw [hpc]; rfl) (by rw [hpc]; rfl))
  | take hpc hs =>
    refine h.main (h.mem.same rfl rfl (fun _ => id) ?_) (Or.inr ⟨rfl, nofun, fun _ => ⟨by rw [hpc]; rfl, rfl⟩⟩) nofun
      fun _ => hdone (by rw [hpc]; nofun)
    exact fun q hq => Or.inl (hq.older (by rw [hpc]; rfl) (by rw [hpc]; rfl))
  | skip hpc hs =>
    refine h.main (h.mem.same rfl rfl (fun _ => id) ?_) (Or.inl (Nat.lt_succ_self _)) nofun fun _ => hdone (by rw [hpc]; nofun)
    exact fun q hq => hq.released rfl
  | phase ph m hpc hrun =>
    have hreqs : ph = .calcAvg → ∀ rd ∈ s.rounds, rd.probeId = s.main.probeId → rd.reqs = s.main.cfg.pfrPingReq.toNat := by
      intro hph rd hrd hp
      rcases h.rounds rd hrd with hlt | ⟨-, -, hreq⟩
      · omega
      · exact hreq (by rw [hpc, hph]; rfl)
    refine h.main (h.mem.phase h.asked hpc hrun hreqs) (Or.inr ⟨rfl, fun _ => by cases ph <;> nofun, ?_⟩)
      (fun hp => by cases ph <;> cases hp) fun _ => hdone (by rw [hpc]; nofun)
    intro hb
    rw [hpc]
    cases ph <;> first | exact ⟨rfl, rfl⟩ | cases hb
  | resume hpc =>
    obtain ⟨htop, hjoin, hbefore⟩ := clear_after s.main
    refine h.main (h.mem.same rfl rfl (fun _ => id) ?_) (Or.inr ⟨rfl, fun _ => htop, fun hb => ?_⟩) (fun hp => absurd hp hjoin)
      fun _ => hdone (by rw [hpc]; nofun)
    · exact fun q hq => hq.imp_right fun hq => ⟨hq.1, Or.inr (clear_scanned _)⟩
    · rw [hbefore] at hb
      cases hb
  | shutdown m hpc hrun =>
    have hs := deleteWalk_spec hrun
    refine h.main (h.mem.erased hs.r hs.routeLog1 rfl ?_) (Or.inr ⟨rfl, nofun, nofun⟩) nofun fun _ => hdone (by rw [hpc]; nofun)
    exact fun q hq => hq.imp_right fun hq => ⟨hq.1, Or.inr rfl⟩
  | reread cfg w hpc =>
    obtain ⟨htop, hjoin, hbefore⟩ := clear_after { s.main with cfg := cfg, mem := { s.main.mem with minRtt := w } }
    refine h.main (h.mem.same rfl rfl (fun _ => id) ?_) (Or.inr ⟨rfl, fun _ => htop, fun hb => ?_⟩) (fun hp => absurd hp hjoin)
      fun _ => hdone (by rw [hpc]; nofun)
    · exact fun q hq => hq.imp_right fun hq => ⟨hq.1, Or.inr (clear_scanned _)⟩
    · rw [hbefore] at hb
      cases hb
  | rereadFail hpc =>
    refine h.main (h.mem.same rfl rfl (fun _ => id) ?_) (Or.inr ⟨rfl, nofun, nofun⟩) nofun fun _ => hdone (by rw [hpc]; nofun)
    exact fun q hq => hq.imp_right fun hq => ⟨hq.1, Or.inr rfl⟩
  | release hpc =>
    refine h.main (h.mem.same rfl rfl (fun _ => id) ?_) (Or.inl (Nat.lt_succ_self _)) nofun fun _ => hdone (by rw [hpc]; nofun)
    exact fun q hq => hq.released rfl

/-- The threads of a round are of the round, before they take a step. -/
theorem Traced.start (h : Traced clock pid addrOf s) {l : List String} (hm : Move s.main (.start l) t)
    (hints : IsInt s.main.probeId ∧ ∀ k ∈ s.main.mem.mm.keys, IsInt k) : Traced clock pid addrOf (s.started l t) := by
  cases hm with
  | start l hpc =>
    have hold : ∀ rd ∈ s.rounds, rd.probeId < s.main.probeId := by
      intro rd hrd
      rcases h.rounds rd hrd with hlt | ⟨htop, -⟩
      · exact hlt
      · exact absurd hpc htop
    have hidle : s.Idle := h.idle (by rw [hpc]; nofun)
    refine ⟨?_, ?_, ?_, ?_, ?_, fun hp => absurd rfl hp⟩
    · refine (h.mem.mono (.refl _) fun rd hrd => List.mem_cons_of_mem _ hrd).same rfl rfl (fun _ => id) ?_
      exact fun q hq => Or.inl (hq.older (by rw [hpc]; rfl) (by rw [hpc]; rfl))
    · intro x hx
      obtain ⟨rd, hrd, ha⟩ := h.asked x hx
      exact ⟨rd, List.mem_cons_of_mem _ hrd, ha⟩
    · intro rd hrd
      rcases List.mem_cons.mp hrd with rfl | hrd
      · exact hints
      · exact h.ints rd hrd
    · intro rd hrd
      rcases List.mem_cons.mp hrd with rfl | hrd
      · exact Or.inr ⟨nofun, rfl, fun _ => rfl⟩
      · exact Or.inl (hold rd hrd)
    · intro _
      refine ⟨_, List.mem_cons_self, rfl, ?_, ?_⟩
      · intro th hth
        obtain ⟨k, hk, rfl⟩ := List.mem_map.mp hth
        exact ⟨rfl, hk, fun _ => id, nofun, nofun⟩
      · intro a ha hl
        rw [hidle.freed a ha] at hl
        cases hl

/-- A thread's statement, between any of the others. -/
theorem Traced.send (h : Traced clock pid addrOf s) {i : Nat} {x : Fill} {th : Sender} {out : Sender × Shared}
    (hth : s.senders[i]? = some th) (hs : sendStep pid s.main.cfg.pfrPingReq.toNat x th s.shared = some out)
    (hx : x.tv.Normalised) : Traced clock pid addrOf (s.sending i out) := by
  have hmem : th ∈ s.senders := List.mem_of_getElem? hth
  have hpc : s.main.pc = .joined := by
    by_contra hno
    -- the threads were joined: none is left to run
    rw [sendStep, (h.idle hno).joined th hmem] at hs
    cases hs
  obtain ⟨rd, hrd, hreqs, hruns, haims⟩ := h.running hpc
  rw [← hreqs] at hs
  obtain ⟨hrun, hw⟩ := sendStep_runs (hruns th hmem) (fun a ha hl => (haims a ha hl).1) hx hs
  have hsub : s.trail.Sub (s.sending i out).trail := ⟨sendStep_sent hs, fun _ => id⟩
  refine ⟨h.mem.mono hsub fun _ => id, ?_, h.ints, h.rounds, fun _ => ⟨rd, hrd, hreqs, ?_, haims.step hth hw⟩,
    fun hp => absurd hpc hp⟩
  · intro y hy
    rcases hw.sent with he | ⟨z, hz, he⟩
    · exact h.asked y (by rwa [← he])
    · rcases List.mem_cons.mp (show y ∈ z :: s.shared.sent by rwa [← he]) with rfl | hy
      · exact ⟨rd, hrd, hz⟩
      · exact h.asked y hy
  · intro y hy
    rcases List.mem_or_eq_of_mem_set hy with hy | rfl
    · exact (hruns y hy).write hw.num hw.fill
    · exact hrun

/-- `readloop` changes which address the threads read, not what is there. -/
theorem Traced.read (h : Traced clock pid addrOf s) : Traced clock pid addrOf s.read := by
  refine ⟨h.mem, h.asked, h.ints, h.rounds, ?_, fun hp => ⟨(h.idle hp).joined, (h.idle hp).freed⟩⟩
  intro hpc
  obtain ⟨rd, hrd, hreqs, hruns, haims⟩ := h.running hpc
  exact ⟨rd, hrd, hreqs, fun th hth => (hruns th hth).write (Or.inl rfl) (Or.inl rfl), haims⟩

/-- One more packet came in. -/
theorem Traced.received (h : Traced clock pid addrOf s) (y : Received) :
    Traced clock pid addrOf { s with received := y :: s.received } :=
  ⟨h.mem.mono ⟨fun _ => id, fun _ hz => List.mem_cons_of_mem _ hz⟩ fun _ => id, h.asked, h.ints, h.rounds, h.running,
    fun hp => ⟨(h.idle hp).joined, (h.idle hp).freed⟩⟩

/-- A packet is queued for what it answers. -/
theorem Traced.packet {getpid : Nat} (h : Traced clock (icmpId getpid) addrOf s) {pkt : List UInt8} {buf : Buf} {recv : Timeval}
    (hrecv : recv.Normalised) (hanswers : Accepts (icmpId getpid) (load pkt buf) pkt.length →
      ∃ x ∈ s.shared.sent, Answers clock (icmpId getpid) (addrOf x.dst) x pkt recv) :
    Traced clock (icmpId getpid) addrOf { s with
      main := { s.main with sock := s.main.sock ++ [decode (icmpId getpid) (load pkt buf) pkt.length recv] }
      received := ⟨pkt, recv⟩ :: s.received } := by
  have h := h.received ⟨pkt, recv⟩
  refine h.main ⟨h.mem.stored, h.mem.filled, h.mem.aggs, h.mem.rows, ?_⟩ (Or.inr ⟨rfl, id, fun hb => ⟨hb, rfl⟩⟩)
    (fun hp => ⟨hp, rfl⟩) h.idle
  intro y hy
  rcases List.mem_append.mp hy with hy | hy
  · exact h.mem.queued y hy
  · have hdec := List.mem_singleton.mp hy
    have hacc : Accepts (icmpId getpid) (load pkt buf) pkt.length := by
      by_contra hno
      rw [decode, if_neg hno] at hdec
      cases hdec
    obtain ⟨x, hx, ha⟩ := hanswers hacc
    obtain ⟨rd, hrd, hasked⟩ := h.asked x hx
    obtain ⟨hprobe, hpeers⟩ := h.ints rd hrd
    obtain ⟨z, hz⟩ := decode_own (hpeers _ hasked.payload.peer) (by rw [hasked.payload.probe]; exact hprobe) ha.reply buf recv
    rw [hz] at hdec
    cases hdec
    refine ⟨x, hx, ⟨pkt, recv⟩, List.mem_cons_self, ha, rfl, rfl, rfl, rfl, ?_⟩
    intro htime
    rw [tvSub_usecs hrecv hasked.payload.time htime.later htime.range]

/-- **Every step of any party keeps the invariant of the system.** -/
theorem Traced.move {getpid : Nat} (h : Traced clock (icmpId getpid) addrOf s) {e : ProbeEvent ℚ} (hm : ProbeMove (icmpId getpid) s e v)
    (hg : FromHosts clock (icmpId getpid) addrOf s e) : Traced clock (icmpId getpid) addrOf v := by
  cases hm with
  | main e t hm harr hstart hask => exact h.mainMove hm harr hstart hask
  | start l t hm => exact h.start hm hg
  | reader hr => exact h.read
  | send i x th out hth hs => exact h.send hth hs hg
  | packet pkt buf recv t hm =>
    cases hm with
    | arrive x => exact h.packet hg.1 hg.2

theorem traced_path {getpid : Nat} {cfg : Config} {w : ℚ} {mm : PeerMap}
    (h : Lts.Path (probeStep (icmpId getpid)) (FromHosts clock (icmpId getpid) addrOf) (Probing.init cfg w mm) s) : Traced clock (icmpId getpid) addrOf s := by
  refine Lts.Path.invariant (traced_init clock (icmpId getpid) addrOf cfg w mm) ?_ h
  intro t e u hI hG hs
  exact hI.move (probeMove_of_step hs) hG

end System

/-- **What a sample is a measurement of.** Whatever the threads do to one another's packets
and whatever the network does, a sample stored for a destination, a round, a peer and a
number is the time, in milliseconds, between the filling in of a packet and the reception of
its answer. The packet was sent to that destination and carried that round, that peer and
that number; the round probed that peer and counted that far; and unless the address had
been freed, it was one the round looked up. -/
theorem samples_measured {addrOf : String → String} {getpid : Nat} {cfg : Config} {w : ℚ} {mm : PeerMap} {s : Probing ℚ}
    (h : Lts.Path (probeStep (icmpId getpid)) (FromHosts InTime (icmpId getpid) addrOf) (Probing.init cfg w mm) s)
    {d : String} {q k n : Int} (hn : n ≠ 99) {v : Option (Tparm ℚ)} (hv : ((peersAt s.main.mem.r d q).idx k)[n]? = some v) :
    ∃ tp, v = some tp ∧ ∃ x ∈ s.shared.sent, ∃ y ∈ s.received, Answers InTime (icmpId getpid) d x y.pkt y.recv ∧
      tp.rtt = ((y.recv.usecs - x.buf.payload.tv.usecs : Int) : ℚ) / 1000 ∧
      addrOf x.dst = d ∧ x.buf.payload.probeId = q ∧ x.buf.payload.peerId = k ∧ ((x.buf.seq % 65536 : Nat) : Int) = n ∧
      ∃ rd ∈ s.rounds, (rd.probeId : Int) = q ∧ k ∈ rd.peers ∧ x.buf.seq < rd.reqs ∧
        (x.live = true → x.dst = host0 ∨ x.dst ∈ rd.dsts) := by
  have ht := traced_path h
  rcases ht.mem.stored d q k n v hv with ⟨h99, -⟩ | ⟨tp, rfl, x, hx, y, hy, hans, hd, hq, hk, hseq, hrtt⟩
  · exact absurd h99 hn
  · obtain ⟨rd, hrd, ha⟩ := ht.asked x hx
    have hpeer := ha.payload.peer
    rw [hk] at hpeer
    exact ⟨tp, rfl, x, hx, y, hy, hans, hrtt hans.time, hd, hq, hk, hseq, rd, hrd, ha.payload.probe.symm.trans hq, hpeer, ha.seq, ha.dst⟩

/-- **The losses of the log**: a row counts no loss, or fewer than the requests of its round. -/
theorem losses_bounded {addrOf : String → String} {getpid : Nat} {cfg : Config} {w : ℚ} {mm : PeerMap} {s : Probing ℚ}
    (h : Lts.Path (probeStep (icmpId getpid)) (FromHosts AnyTime (icmpId getpid) addrOf) (Probing.init cfg w mm) s)
    {d : String} {q : Int} {row : Tlog ℚ} (hrow : (s.main.mem.routeLog1.idx d)[q]? = some (some row)) :
    row.lost = 0 ∨ (0 ≤ row.lost ∧ ∃ rd ∈ s.rounds, (rd.probeId : Int) = q ∧ row.lost < rd.reqs) :=
  (traced_path h).mem.rows d q row hrow

/-! ## A run -/

/-- A host of address 198.51.100.7 answers what is sent to it. -/
def OneHost (pid : Nat) (s : Probing ℚ) : ProbeEvent ℚ → Prop
  | .main (.start _) => IsInt s.main.probeId ∧ ∀ k ∈ s.main.mem.mm.keys, IsInt k
  | .main _ | .reader => True
  | .send _ x => x.tv.Normalised
  | .packet pkt _ recv => recv.Normalised ∧ ∃ x ∈ s.shared.sent, x.dst = "198.51.100.7" ∧
      pkt = replyHeader ++ ([0, 0, 0, 0] ++ (x.buf.bytes pid).drop 4) ∧ x.buf.payload.tv.usecs ≤ recv.usecs ∧
      recv.tvSec.toInt - x.buf.payload.tv.tvSec.toInt < 2 ^ 63

instance (pid : Nat) (s : Probing ℚ) : (e : ProbeEvent ℚ) → Decidable (OneHost pid s e)
  | .main (.start _) => inferInstanceAs (Decidable (_ ∧ _))
  | .main (.arrive _) | .main .receive | .main .timeout | .main .ack | .main .ask | .main .take | .main .phase
  | .main (.signals _) | .main .release | .reader => .isTrue trivial
  | .send _ x => inferInstanceAs (Decidable x.tv.Normalised)
  | .packet _ _ _ => inferInstanceAs (Decidable (_ ∧ _))

theorem fromHosts_of_oneHost {getpid : Nat} (s : Probing ℚ) (e : ProbeEvent ℚ) (h : OneHost (icmpId getpid) s e) :
    FromHosts InTime (icmpId getpid) id s e := by
  cases e with
  | main e => cases e <;> exact h
  | reader => exact h
  | send i x => exact h
  | packet pkt buf recv =>
    obtain ⟨hrecv, x, hx, hdst, rfl, hlater, hrange⟩ := h
    refine ⟨hrecv, fun _ => ⟨x, hx, ?_, ⟨hlater, hrange⟩⟩⟩
    show EchoReply (x.buf.bytes (icmpId getpid)) x.dst _
    rw [hdst]
    exact ⟨replyHeader, 0, 0, 0, rfl, by decide, by decide, by decide, by decide +kernel⟩

/-- Without a word about the clock. -/
theorem FromHosts.anyTime {clock : Timeval → Timeval → Prop} {pid : Nat} {addrOf : String → String} (s : Probing ℚ)
    (e : ProbeEvent ℚ) (h : FromHosts clock pid addrOf s e) : FromHosts AnyTime pid addrOf s e := by
  cases e with
  | packet pkt buf recv =>
    refine ⟨h.1, fun hacc => ?_⟩
    obtain ⟨x, hx, ha⟩ := h.2 hacc
    exact ⟨x, hx, ha.reply, trivial⟩
  | main e => cases e <;> exact h
  | reader => exact h
  | send i x => exact h

/-- Two peers and two destinations, two requests each. The thread of peer 0 is overtaken
by that of peer 1 between filling in its first request and sending it: what it sends goes to
the other destination, with the fields of peer 1. One reply comes back, after 20 ms. -/
def overtaken : List (ProbeEvent ℚ) :=
  let fill : Fill := ⟨⟨1, 990000⟩, 11, 13, [], none⟩
  .main (.start ["198.51.100.8", "198.51.100.7"]) :: .reader ::
    (List.replicate 7 (.send 0 fill) ++ List.replicate 19 (.send 1 fill) ++ List.replicate 3 (.send 0 fill) ++
      [.packet (replyHeader ++ ([0, 0, 0, 0] ++ (Sendbuf.bytes (icmpId 70000) ⟨0, 0, ⟨⟨1, 990000⟩, 1, 0, 11, 13⟩, []⟩).drop 4))
        .zero ⟨2, 10000⟩, .main .receive, .main .ack] ++
      List.replicate 18 (.send 0 fill) ++ List.replicate 9 (.send 1 fill) ++
      [.main .ask, .main .timeout, .main .ack, .main .take, .main .phase, .main .phase, .main .phase, .main .phase])

/-- The configuration and the peers of the run. -/
def overtakenStart : Probing ℚ :=
  .init { Config.default with pfrPingReq := 2 } 50000 (.ofRows [(0, ⟨"192.0.2.1", ""⟩), (1, ⟨"192.0.2.2", ""⟩)])

theorem overtaken_run : ∃ s : Probing ℚ, Lts.Path (probeStep (icmpId 70000)) (FromHosts InTime (icmpId 70000) id) overtakenStart s ∧
    (∃ v, ((peersAt s.main.mem.r "198.51.100.7" 0).idx 1)[(0 : Int)]? = some v) ∧
    ∃ row, (s.main.mem.routeLog1.idx "198.51.100.7")[(0 : Int)]? = some (some row) ∧ row.lost = 1 := by
  have hrun : ∃ s : Probing ℚ, Lts.Path (probeStep (icmpId 70000)) (OneHost (icmpId 70000)) overtakenStart s ∧
      (((peersAt s.main.mem.r "198.51.100.7" 0).idx 1)[(0 : Int)]?).isSome = true ∧
      (((s.main.mem.routeLog1.idx "198.51.100.7")[(0 : Int)]?).bind (·.map (·.lost))) = some 1 :=
    Lts.Path.exists_of_runG overtakenStart overtaken _ (by decide +kernel)
  obtain ⟨s, hpath, hsample, hlog⟩ := hrun
  refine ⟨s, hpath.mono fromHosts_of_oneHost, Option.isSome_iff_exists.mp hsample, ?_⟩
  obtain ⟨v, hv, hlost⟩ := Option.bind_eq_some_iff.mp hlog
  obtain ⟨row, rfl, hrow⟩ := Option.map_eq_some_iff.mp hlost
  exact ⟨row, hv, hrow⟩

/-- The sample is of a packet that was sent, whichever thread sent it. -/
theorem samples_overtaken : ∃ (s : Probing ℚ) (tp : Tparm ℚ), ((peersAt s.main.mem.r "198.51.100.7" 0).idx 1)[(0 : Int)]? = some (some tp) ∧
    ∃ x ∈ s.shared.sent, x.dst = "198.51.100.7" ∧ x.buf.payload.peerId = 1 := by
  obtain ⟨s, hpath, ⟨v, hv⟩, -⟩ := overtaken_run
  obtain ⟨tp, rfl, x, hx, -, -, -, -, hdst, -, hpeer, -⟩ := samples_measured hpath (by decide) hv
  exact ⟨s, tp, hv, x, hx, hdst, hpeer⟩

/-- One of two requests is lost. -/
theorem losses_overtaken : ∃ (s : Probing ℚ) (row : Tlog ℚ), (s.main.mem.routeLog1.idx "198.51.100.7")[(0 : Int)]? = some (some row) ∧
    row.lost = 1 ∧ ∃ rd ∈ s.rounds, row.lost < rd.reqs := by
  obtain ⟨s, hpath, -, row, hrow, hlost⟩ := overtaken_run
  refine ⟨s, row, hrow, hlost, ?_⟩
  rcases losses_bounded (hpath.mono FromHosts.anyTime) hrow with h0 | ⟨-, rd, hrd, -, hlt⟩
  · rw [h0] at hlost
    cases hlost
  · exact ⟨rd, hrd, hlt⟩

end Pfr

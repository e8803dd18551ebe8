import Pfr.Echo
import Pfr.Records

/- The daemon with its sender threads and the network: `main` and `readloop` as in the main
   loop, one `send_v4` a peer in every round, and the packets on their way.

   The sender threads share `pr`, `pr->sasend` and `sendbuf`, which no lock guards: between
   the statements of one, others aim at another destination, number and fill. A thread is
   the place it has reached, and its steps are the statements that touch what is shared:

     `setProto`  `pr = &proto_v4`               `test`   `icmp->icmp_seq = seq`
     `setHost`   `pr->sasend = ai->ai_addr`     `fill`   `memcpy(sendbuf + 8, ..)`
     `socket`    `pr->sasend->sa_family`        `clear`  `icmp->icmp_cksum = 0`
     `freeHost`  `freeaddrinfo(ai)`             `sum`    `icmp->icmp_cksum = in_cksum(..)`
     `next`      `pr->sasend = ai->ai_addr`     `send`   `sendto(.., pr->sasend, ..)`

   The type, the code and the id are the same constants for all. `readloop` has a `proto`
   of its own, to which it sets `pr` when it starts; an address that was freed leads
   anywhere. `main` starts the threads and joins them before it asks the receiver to stop.
   What is sent may be lost, duplicated, reordered and answered late.

   1. `probeStep`: one step of any party, and of the network;
   2. `FromHosts`: what is relied on: who answers with the daemon's id answers a request
      sent to it, with what came in it;
   3. `decode_own`: what `proc_v4` makes of such a reply. -/
namespace Pfr

open Std Bytes

/-! ## A sender -/

/-- The fields of an `icmp_payload`. -/
structure Payload where
  tv : Timeval
  peerId : Int
  probeId : Int
  threadId : Nat
  timestamp : Nat

/-- What `sendbuf` holds behind the type and the code. -/
structure Sendbuf where
  cksum : UInt16
  seq : Nat
  payload : Payload
  padding : List UInt8

def Payload.bytes (x : Payload) : List UInt8 := icmpPayload x.tv x.peerId x.probeId x.threadId x.timestamp

def Sendbuf.bytes (pid : Nat) (b : Sendbuf) : List UInt8 :=
  [8, 0] ++ (leBytes 2 b.cksum.toNat ++ (leBytes 2 pid ++ (leBytes 2 b.seq ++ (b.payload.bytes ++ b.padding))))

/-- A packet that was sent, where to, and whether the address was still there. -/
structure SentPacket where
  dst : String
  live : Bool
  buf : Sendbuf

/-- What `sasend` points to: a destination, in memory of the thread of this peer. -/
structure Aim where
  dst : String
  owner : Int
  live : Bool

/-- What the threads share, and, newest first, what they sent. -/
structure Shared where
  /-- `pr` is the `proto` of `readloop`. -/
  prRead : Bool
  sasend : Option Aim
  /-- `sasend` in the `proto` of `readloop`. -/
  sasendRead : Option Aim
  buf : Sendbuf
  sent : List SentPacket

/-- `pr->sasend`. -/
def Shared.aim (w : Shared) : Option Aim := if w.prRead then w.sasendRead else w.sasend

/-- `pr->sasend = ai->ai_addr`. -/
def Shared.point (w : Shared) (a : Aim) : Shared :=
  if w.prRead then { w with sasendRead := some a } else { w with sasend := some a }

@[simp] theorem point_buf (w : Shared) (a : Aim) : (w.point a).buf = w.buf := by
  unfold Shared.point
  split <;> rfl

@[simp] theorem point_sent (w : Shared) (a : Aim) : (w.point a).sent = w.sent := by
  unfold Shared.point
  split <;> rfl

@[simp] theorem point_aim (w : Shared) (a : Aim) : (w.point a).aim = some a := by
  unfold Shared.point Shared.aim
  split <;> simp

def Aim.free (k : Int) (a : Aim) : Aim := if a.owner = k then { a with live := false } else a

/-- `freeaddrinfo(ai)`, in the thread of peer `k`. -/
def Shared.free (w : Shared) (k : Int) : Shared :=
  { w with sasend := w.sasend.map (Aim.free k), sasendRead := w.sasendRead.map (Aim.free k) }

/-- The statements of the loop over the numbers. -/
inductive Stage where
  | test | fill | clear | sum | send
  deriving DecidableEq, Repr

/-- Where a thread stands, with the destinations still to do. -/
inductive SendPc where
  | setProto : List String → SendPc
  | setHost : List String → SendPc
  | socket : List String → SendPc
  | freeHost : List String → SendPc
  | next : List String → SendPc
  | loop : List String → Nat → Stage → SendPc
  deriving DecidableEq, Repr

structure Sender where
  peerId : Int
  probeId : Nat
  pc : SendPc
  deriving DecidableEq, Repr

/-- What a thread does not choose: the time, its own id, the hour, the memory it is given,
and where an address that was freed leads, if anywhere. -/
structure Fill where
  tv : Timeval
  threadId : Nat
  timestamp : Nat
  padding : List UInt8
  stray : Option String

/-- The host a thread looks up before its destinations. -/
def host0 : String := "10.229.4.0"

/-- `sendto`, which fails without an address. -/
def Shared.sendto (w : Shared) (x : Fill) : Shared :=
  match w.aim with
  | none => w
  | some a => match if a.live then some a.dst else x.stray with
    | none => w
    | some d => { w with sent := ⟨d, a.live, w.buf⟩ :: w.sent }

/-- The next statement of a thread of `reqs` requests a destination. `Socket` reads through
`pr->sasend`. -/
def sendStep (pid reqs : Nat) (x : Fill) (th : Sender) (w : Shared) : Option (Sender × Shared) :=
  match th.pc with
  | .setProto l => some ({ th with pc := .setHost l }, { w with prRead := false })
  | .setHost l => some ({ th with pc := .socket l }, w.point ⟨host0, th.peerId, true⟩)
  | .socket l => if w.aim.isSome then some ({ th with pc := .freeHost l }, w) else none
  | .freeHost l => some ({ th with pc := .next l }, w.free th.peerId)
  | .next [] => none
  | .next (d :: rest) => some ({ th with pc := .loop rest 0 .test }, w.point ⟨d, th.peerId, true⟩)
  | .loop rest seq .test =>
    if seq < reqs then some ({ th with pc := .loop rest seq .fill }, { w with buf := { w.buf with seq := seq } })
    else some ({ th with pc := .next rest }, w.free th.peerId)
  | .loop rest seq .fill => some ({ th with pc := .loop rest seq .clear },
      { w with buf := { w.buf with
          payload := ⟨x.tv, th.peerId, th.probeId, x.threadId, x.timestamp⟩
          padding := x.padding } })
  | .loop rest seq .clear => some ({ th with pc := .loop rest seq .sum }, { w with buf := { w.buf with cksum := 0 } })
  | .loop rest seq .sum =>
    some ({ th with pc := .loop rest seq .send }, { w with buf := { w.buf with cksum := inCksum (w.buf.bytes pid) } })
  | .loop rest seq .send => some ({ th with pc := .loop rest (seq + 1) .test }, w.sendto x)

/-! ## The system -/

/-- What a round was started with. -/
structure Round where
  probeId : Nat
  dsts : List String
  peers : List Int
  reqs : Nat

/-- A packet that came in, and when. -/
structure Received where
  pkt : List UInt8
  recv : Timeval

structure Probing (F : Type) where
  main : State F
  /-- `readloop` has set `pr`. -/
  reader : Bool
  senders : List Sender
  shared : Shared
  /-- The packets received and the rounds started, newest first. -/
  received : List Received
  rounds : List Round

inductive ProbeEvent (F : Type) where
  | main : Event F → ProbeEvent F
  | reader
  | send : (i : Nat) → Fill → ProbeEvent F
  /-- A packet is received over what the buffer held. -/
  | packet : List UInt8 → Buf → Timeval → ProbeEvent F

/-- What is shared before any thread ran. -/
def Shared.start : Shared where
  prRead := false
  sasend := none
  sasendRead := none
  buf := ⟨0, 0, ⟨⟨0, 0⟩, 0, 0, 0, 0⟩, []⟩
  sent := []

variable {F : Type}

def Probing.init (cfg : Config) (minRtt : F) (mm : PeerMap) : Probing F where
  main := State.init cfg minRtt mm
  reader := false
  senders := []
  shared := Shared.start
  received := []
  rounds := []

/-- The threads are joined once each is through its list. -/
def Probing.joined (s : Probing F) : Prop := ∀ th ∈ s.senders, th.pc = .next []

instance (s : Probing F) : Decidable s.joined := inferInstanceAs (Decidable (∀ th ∈ _, _))

/-- The threads of the round, one for each key of `m`. -/
def Probing.started (s : Probing F) (dstList : List String) (t : State F) : Probing F where
  main := t
  reader := s.reader
  senders := s.main.mem.mm.keys.map fun k => ⟨k, s.main.probeId, .setProto dstList⟩
  shared := s.shared
  received := s.received
  rounds := ⟨s.main.probeId, dstList, s.main.mem.mm.keys, s.main.cfg.pfrPingReq.toNat⟩ :: s.rounds

variable [Dbl F]

/-- A step of `main` or of `readloop`; packets come from the network only. -/
def probeMain (s : Probing F) : Event F → Option (Probing F)
  | .arrive _ => none
  | .start dstList => (step s.main (.start dstList)).map (s.started dstList)
  | .ask => if s.joined then (step s.main .ask).map fun t => { s with main := t } else none
  | .receive => if s.reader then (step s.main .receive).map fun t => { s with main := t } else none
  | .timeout => if s.reader then (step s.main .timeout).map fun t => { s with main := t } else none
  | .ack => (step s.main .ack).map fun t => { s with main := t }
  | .take => (step s.main .take).map fun t => { s with main := t }
  | .phase => (step s.main .phase).map fun t => { s with main := t }
  | .signals sig => (step s.main (.signals sig)).map fun t => { s with main := t }
  | .release => (step s.main .release).map fun t => { s with main := t }

/-- `readloop` starts: `pr` becomes its own `proto`. -/
def Probing.read (s : Probing F) : Probing F := { s with reader := true, shared := { s.shared with prRead := true } }

/-- A thread took a step. -/
def Probing.sending (s : Probing F) (i : Nat) (out : Sender × Shared) : Probing F :=
  { s with senders := s.senders.set i out.1, shared := out.2 }

def probeStep (pid : Nat) (s : Probing F) : ProbeEvent F → Option (Probing F)
  | .main e => probeMain s e
  | .reader => if s.reader = false ∧ s.main.rcv ≠ .off then some s.read else none
  | .send i x => s.senders[i]?.bind fun th =>
    (sendStep pid s.main.cfg.pfrPingReq.toNat x th s.shared).map (s.sending i)
  | .packet pkt buf recv =>
    (step s.main (.arrive (decode pid (load pkt buf) pkt.length recv))).map fun t =>
      { s with main := t, received := ⟨pkt, recv⟩ :: s.received }

/-- What a step can do. -/
inductive ProbeMove (pid : Nat) (s : Probing F) : ProbeEvent F → Probing F → Prop where
  | main (e : Event F) (t : State F) : Move s.main e t → (∀ x, e ≠ .arrive x) → (∀ l, e ≠ .start l) →
      (e = .ask → s.joined) → ProbeMove pid s (.main e) { s with main := t }
  | start (l : List String) (t : State F) : Move s.main (.start l) t → ProbeMove pid s (.main (.start l)) (s.started l t)
  | reader : s.reader = false → ProbeMove pid s .reader s.read
  | send (i : Nat) (x : Fill) (th : Sender) (out : Sender × Shared) : s.senders[i]? = some th →
      sendStep pid s.main.cfg.pfrPingReq.toNat x th s.shared = some out → ProbeMove pid s (.send i x) (s.sending i out)
  | packet (pkt : List UInt8) (buf : Buf) (recv : Timeval) (t : State F) :
      Move s.main (.arrive (decode pid (load pkt buf) pkt.length recv)) t →
      ProbeMove pid s (.packet pkt buf recv) { s with main := t, received := ⟨pkt, recv⟩ :: s.received }

theorem probeMove_of_main {pid : Nat} {s u : Probing F} {e : Event F} (h : probeMain s e = some u) :
    ProbeMove pid s (.main e) u := by
  have hplain : ∀ e : Event F, (step s.main e).map (fun t => { s with main := t }) = some u →
      (∀ x, e ≠ .arrive x) → (∀ l, e ≠ .start l) → (e = .ask → s.joined) → ProbeMove pid s (.main e) u := by
    intro e hs hx hl hj
    obtain ⟨t, ht, rfl⟩ := Option.map_eq_some_iff.mp hs
    exact .main e t (move_of_step ht).2 hx hl hj
  cases e with
  | arrive x => cases h
  | start l =>
    obtain ⟨t, ht, rfl⟩ := Option.map_eq_some_iff.mp h
    exact .start l t (move_of_step ht).2
  | ask =>
    simp only [probeMain] at h
    split at h
    · next hj => exact hplain _ h nofun nofun fun _ => hj
    · cases h
  | receive =>
    simp only [probeMain] at h
    split at h
    · exact hplain _ h nofun nofun nofun
    · cases h
  | timeout =>
    simp only [probeMain] at h
    split at h
    · exact hplain _ h nofun nofun nofun
    · cases h
  | ack => exact hplain _ h nofun nofun nofun
  | take => exact hplain _ h nofun nofun nofun
  | phase => exact hplain _ h nofun nofun nofun
  | signals sig => exact hplain _ h nofun nofun nofun
  | release => exact hplain _ h nofun nofun nofun

theorem probeMove_of_step {pid : Nat} {s u : Probing F} {e : ProbeEvent F} (h : probeStep pid s e = some u) :
    ProbeMove pid s e u := by
  cases e with
  | main e => exact probeMove_of_main h
  | reader =>
    simp only [probeStep] at h
    split at h
    · next hr =>
      cases h
      exact .reader hr.1
    · cases h
  | send i x =>
    obtain ⟨th, hth, h⟩ := Option.bind_eq_some_iff.mp h
    obtain ⟨out, hout, rfl⟩ := Option.map_eq_some_iff.mp h
    exact .send i x th out hth hout
  | packet pkt buf recv =>
    obtain ⟨t, ht, rfl⟩ := Option.map_eq_some_iff.mp h
    exact .packet pkt buf recv t (move_of_step ht).2

/-! ## The network -/

/-- A value of a 32-bit `int`. -/
def IsInt (v : Int) : Prop := -2 ^ 31 ≤ v ∧ v < 2 ^ 31

instance (v : Int) : Decidable (IsInt v) := inferInstanceAs (Decidable (_ ∧ _))

/-- The clock was not set back between the two times. -/
structure InTime (sent recv : Timeval) : Prop where
  later : sent.usecs ≤ recv.usecs
  range : recv.tvSec.toInt - sent.tvSec.toInt < 2 ^ 63

/-- The clock may have been set. -/
def AnyTime (_ _ : Timeval) : Prop := True

/-- `pkt`, received at `recv`, answers the request `x` of a host of address `src`, byte for
byte; `clock` is what is relied on of the two times. -/
structure Answers (clock : Timeval → Timeval → Prop) (pid : Nat) (src : String) (x : SentPacket) (pkt : List UInt8)
    (recv : Timeval) : Prop where
  reply : EchoReply (x.buf.bytes pid) src pkt
  time : clock x.buf.payload.tv recv

/-- What a run relies on: times are normalised, ids and rounds are values of an `int`, and a
packet that passes the tests of `proc_v4` answers a request that was sent, `addrOf` being
the text of the address a destination is resolved to. -/
def FromHosts (clock : Timeval → Timeval → Prop) (pid : Nat) (addrOf : String → String) (s : Probing F) : ProbeEvent F → Prop
  | .main (.start _) => IsInt s.main.probeId ∧ ∀ k ∈ s.main.mem.mm.keys, IsInt k
  | .main _ | .reader => True
  | .send _ x => x.tv.Normalised
  | .packet pkt buf recv => recv.Normalised ∧ (Accepts pid (load pkt buf) pkt.length →
      ∃ x ∈ s.shared.sent, Answers clock pid (addrOf x.dst) x pkt recv)

/-! ## A reply -/

/-- An `int` written as an unsigned number and read as an `int`. -/
theorem signed_of_isInt {v : Int} (h : IsInt v) {w : Nat} (hw : 32 ≤ w) : signed 32 (v % 2 ^ w).toNat = v := by
  have hpos : (0 : Int) ≤ v % 2 ^ w := Int.emod_nonneg _ (by positivity)
  have hdvd : ((2 ^ 32 : Nat) : Int) ∣ 2 ^ w := by
    push_cast
    exact pow_dvd_pow 2 hw
  rw [signed, Int.toNat_of_nonneg hpos, ← Int.emod_bmod, Int.emod_emod_of_dvd v hdvd, Int.emod_bmod]
  exact Int.bmod_eq_of_le_mul_two (by have := h.1; omega) (by have := h.2; omega)

/-- The checksum of a request does not come back. -/
theorem echoReply_bytes {pid : Nat} {b : Sendbuf} {src : String} {pkt : List UInt8} (h : EchoReply (b.bytes pid) src pkt) :
    EchoReply (echoRequest pid b.seq b.payload.bytes b.padding) src pkt := by
  have hdrop : (b.bytes pid).drop 4 = (echoRequest pid b.seq b.payload.bytes b.padding).drop 4 := by
    simp [Sendbuf.bytes, drop_echoRequest, leBytes]
  rwa [EchoReply, hdrop] at h

/-- The seconds and microseconds of a time in milliseconds. -/
theorem millis_eq (tv : Timeval) : (Dbl.num tv.tvSec.toInt * Dbl.num 1000 + Dbl.num tv.tvUsec.toInt / Dbl.num 1000 : ℚ) =
    (tv.usecs : ℚ) / 1000 := by
  show (tv.tvSec.toInt : ℚ) * ((1000 : Int) : ℚ) + (tv.tvUsec.toInt : ℚ) / ((1000 : Int) : ℚ) = _
  rw [Timeval.usecs]
  push_cast
  ring

/-- **What an own reply is decoded to**: the round, the peer and the number that were in the
packet when it was sent, and the milliseconds since its time. -/
theorem decode_own {getpid : Nat} {b : Sendbuf} {src : String} {pkt : List UInt8} (hpeer : IsInt b.payload.peerId)
    (hprobe : IsInt b.payload.probeId) (h : EchoReply (b.bytes (icmpId getpid)) src pkt) (buf : Buf) (recv : Timeval) :
    ∃ t : Int, (decode (icmpId getpid) (load pkt buf) pkt.length recv : Option (Reply ℚ)) =
      some ⟨src, b.payload.probeId, b.payload.peerId, (b.seq % 65536 : Nat), ((tvSub recv b.payload.tv).usecs : ℚ) / 1000, t⟩ := by
  obtain ⟨n, hat⟩ := echoAt_load (echoReply_bytes h) buf
  have hpeerInt : signed 32 (beNat (load pkt buf) (n + 24) 4) = b.payload.peerId := by
    have hlt := Int.emod_lt_of_pos b.payload.peerId (show (0 : Int) < 2 ^ 32 by decide)
    rw [beNat_of_holds hat.peer, Nat.mod_eq_of_lt (by omega), signed_of_isInt hpeer (Nat.le_refl 32)]
  have hprobeInt : signed 32 (beNat (load pkt buf) (n + 28) 8) = b.payload.probeId := by
    have hlt := Int.emod_lt_of_pos b.payload.probeId (show (0 : Int) < 2 ^ 64 by decide)
    rw [beNat_of_holds hat.probe, Nat.mod_eq_of_lt (by omega), signed_of_isInt hprobe (by decide)]
  refine ⟨signed 32 (beNat (load pkt buf) (n + 44) 8), ?_⟩
  rw [decode, if_pos hat.accepts, hat.start, icmpReply, int64_of_holds hat.sec, int64_of_holds hat.usec, hat.source,
    leNat_of_holds hat.num, hpeerInt, hprobeInt, millis_eq]
  rfl

end Pfr

import Pfr.Packet

/- The request `send_v4` builds, and what `proc_v4` makes of its reply.

     ICMP  0 type, 2 checksum, 4 id, 6 seq, 8 `icmp_payload` (64), 72 `max_load` bytes
     payload  0 `tv` (16), 16 `peer_id` (4), 20 `probe_id` (8), 28 `thread_id` (8),
              36 `timestamp` (8), 44 padding up to the alignment of 32

   `swap_endian` turns the fields of the payload round, so that on a little-endian host
   they stand in network order; `tv`, the id and the number stand as they are.

   1. `echoRequest`: the bytes sent;
   2. `tvSub_usecs`: the difference of two times, the borrow included;
   3. `request_peerId`: where the packet filter finds the peer;
   4. `echoAt_load`: where the fields of a reply stand;
   5. `decode_echo`, `echo_reply_recorded`: the reply is decoded to what was sent, and
      recorded there. -/
namespace Pfr

open Std Bytes

/-! ## The request -/

/-- The 44 bytes of the fields of `icmp_payload`, in memory. -/
def icmpPayload (tv : Timeval) (peerId probeId : Int) (threadId timestamp : Nat) : List UInt8 :=
  leBytes 8 tv.tvSec.toUInt64.toNat ++ (leBytes 8 tv.tvUsec.toUInt64.toNat ++ (beBytes 4 (peerId % 2 ^ 32).toNat ++
    (beBytes 8 (probeId % 2 ^ 64).toNat ++ (beBytes 8 threadId ++ beBytes 8 timestamp))))

/-- What is behind the fields: up to `sizeof(icmp_payload) + max_load` the pattern, which
is only laid where `max_load > 0`, or else what `malloc` left. -/
def icmpPadding (maxLoad : Nat) (stale : Buf) : List UInt8 :=
  (List.range (20 + maxLoad)).map fun i => if 0 < maxLoad then 0xa5 else stale i

/-- The loop of `in_cksum`, over the 16-bit words and the byte that may be left. -/
def sumWords : List UInt8 → UInt32 → UInt32
  | lo :: hi :: rest, sum => sumWords rest (sum + (hi.toUInt32 * 256 + lo.toUInt32))
  | [last], sum => sum + last.toUInt32
  | [], sum => sum

def inCksum (addr : List UInt8) : UInt16 :=
  let sum := sumWords addr 0
  let sum := (sum >>> 16) + (sum &&& 0xffff)
  let sum := sum + (sum >>> 16)
  ~~~sum.toUInt16

/-- `pid = getpid() & 0xffff`. -/
def icmpId (getpid : Nat) : Nat := getpid % 65536

/-- What is sent for one number: the checksum is taken with its own field at 0. -/
def echoRequest (pid seq : Nat) (payload padding : List UInt8) : List UInt8 :=
  let icmp := [8, 0, 0, 0] ++ (leBytes 2 pid ++ (leBytes 2 seq ++ (payload ++ padding)))
  [8, 0] ++ (leBytes 2 (inCksum icmp).toNat ++ icmp.drop 4)

/-- `-m u32 --u32 "44&0xFFFFFFFF=k:k"`: the rule looks at the four bytes from 44 on. -/
def U32Match (k : Nat) (pkt : List UInt8) : Prop := 48 ≤ pkt.length ∧ beNat (load pkt .zero) 44 4 &&& 0xFFFFFFFF = k

instance (k : Nat) (pkt : List UInt8) : Decidable (U32Match k pkt) := inferInstanceAs (Decidable (_ ∧ _))

/-- An echo reply from `src` with any IP header, in which the id, the number and the data
of the request come back. -/
def EchoReply (req : List UInt8) (src : String) (pkt : List UInt8) : Prop :=
  ∃ hdr code cksum0 cksum1, pkt = hdr ++ ([0, code, cksum0, cksum1] ++ req.drop 4) ∧ 20 ≤ hdr.length ∧
    hlen1 (load hdr .zero) = hdr.length ∧ load hdr .zero 9 = 1 ∧ inetNtop (load hdr .zero) 12 = src

theorem echoRequest_eq (pid seq : Nat) (payload padding : List UInt8) : echoRequest pid seq payload padding =
    [8, 0] ++ (leBytes 2 (inCksum ([8, 0, 0, 0] ++ (leBytes 2 pid ++ (leBytes 2 seq ++ (payload ++ padding))))).toNat ++
      (leBytes 2 pid ++ (leBytes 2 seq ++ (payload ++ padding)))) := rfl

theorem drop_echoRequest (pid seq : Nat) (payload padding : List UInt8) :
    (echoRequest pid seq payload padding).drop 4 = leBytes 2 pid ++ (leBytes 2 seq ++ (payload ++ padding)) := by
  simp [echoRequest, leBytes]

/-! ## The times -/

/-- The time in microseconds. -/
def Timeval.usecs (tv : Timeval) : Int := tv.tvSec.toInt * 1000000 + tv.tvUsec.toInt

def Timeval.Normalised (tv : Timeval) : Prop := 0 ≤ tv.tvUsec.toInt ∧ tv.tvUsec.toInt < 1000000

instance (tv : Timeval) : Decidable tv.Normalised := inferInstanceAs (Decidable (_ ∧ _))

theorem toInt_sub_of_range {a b : Int64} (hlow : -2 ^ 63 ≤ a.toInt - b.toInt) (hhigh : a.toInt - b.toInt < 2 ^ 63) :
    (a - b).toInt = a.toInt - b.toInt := by
  rw [Int64.toInt_sub]
  exact Int.bmod_eq_of_le_mul_two (by omega) (by omega)

theorem toInt_add_of_range {a b : Int64} (hlow : -2 ^ 63 ≤ a.toInt + b.toInt) (hhigh : a.toInt + b.toInt < 2 ^ 63) :
    (a + b).toInt = a.toInt + b.toInt := by
  rw [Int64.toInt_add]
  exact Int.bmod_eq_of_le_mul_two (by omega) (by omega)

/-- **The difference of two times**, when its seconds are a `time_t`. -/
theorem tvSub_usecs {out inn : Timeval} (hout : out.Normalised) (hin : inn.Normalised) (hle : inn.usecs ≤ out.usecs)
    (hrange : out.tvSec.toInt - inn.tvSec.toInt < 2 ^ 63) : (tvSub out inn).usecs = out.usecs - inn.usecs := by
  obtain ⟨hout0, hout1⟩ := hout
  obtain ⟨hin0, hin1⟩ := hin
  have hsecLow := inn.tvSec.le_toInt
  simp only [Timeval.usecs] at hle ⊢
  have husec : (out.tvUsec - inn.tvUsec).toInt = out.tvUsec.toInt - inn.tvUsec.toInt :=
    toInt_sub_of_range (by omega) (by omega)
  have hneg : out.tvUsec - inn.tvUsec < 0 ↔ (out.tvUsec - inn.tvUsec).toInt < 0 := Int64.lt_iff_toInt_lt
  unfold tvSub
  simp only
  split
  · next hborrow =>
    rw [hneg, husec] at hborrow
    have hsecHigh := out.tvSec.toInt_lt
    -- with a borrow the seconds differ, so taking one away stays in range
    have hone : (out.tvSec - 1).toInt = out.tvSec.toInt - 1 :=
      toInt_sub_of_range (show -2 ^ 63 ≤ out.tvSec.toInt - 1 by omega) (show out.tvSec.toInt - 1 < 2 ^ 63 by omega)
    have hsec : (out.tvSec - 1 - inn.tvSec).toInt = out.tvSec.toInt - 1 - inn.tvSec.toInt := by
      rw [toInt_sub_of_range (by omega) (by omega), hone]
    have hmillion : (1000000 : Int64).toInt = 1000000 := rfl
    have hadd : (out.tvUsec - inn.tvUsec + 1000000).toInt = out.tvUsec.toInt - inn.tvUsec.toInt + 1000000 := by
      rw [toInt_add_of_range (by omega) (by omega), husec, hmillion]
    rw [hsec, hadd]
    omega
  · next hborrow =>
    rw [hneg, husec] at hborrow
    have hsec : (out.tvSec - inn.tvSec).toInt = out.tvSec.toInt - inn.tvSec.toInt :=
      toInt_sub_of_range (by omega) (by omega)
    rw [hsec, husec]
    omega

/-! ## The bytes -/

theorem load_front {hdr rest : List UInt8} {i : Nat} (hi : i < hdr.length) (buf : Buf) :
    load (hdr ++ rest) buf i = load hdr .zero i := by
  rw [load, load, List.getElem?_append_left hi, List.getElem?_eq_getElem hi]
  rfl

/-- A 64-bit number in memory is read back. -/
theorem int64_of_holds {b : Buf} {o : Nat} {v : Int64} (h : Holds b o (leBytes 8 v.toUInt64.toNat)) :
    Int64.ofNat (leNat b o 8) = v := by
  have hlt : v.toUInt64.toNat < 256 ^ 8 := v.toUInt64.toNat_lt
  rw [leNat_of_holds h, Nat.mod_eq_of_lt hlt, ← UInt64.toInt64_ofNat', UInt64.ofNat_toNat, Int64.toInt64_toUInt64]

section Request
variable {pid seq : Nat} {tv : Timeval} {peerId probeId : Int} {threadId timestamp : Nat} {padding : List UInt8}

/-- **The peer stands at bytes 44 to 47 of the IP packet, in network order.** -/
theorem request_peerId (hpeer : 0 ≤ peerId ∧ peerId < 2 ^ 31) {iphdr : List UInt8} (h20 : iphdr.length = 20) (buf : Buf) :
    beNat (load (iphdr ++ echoRequest pid seq (icmpPayload tv peerId probeId threadId timestamp) padding) buf) 44 4 =
      peerId.toNat := by
  have hall := holds_load (iphdr ++ echoRequest pid seq (icmpPayload tv peerId probeId threadId timestamp) padding) buf
  rw [echoRequest_eq, icmpPayload] at hall
  simp only [holds_append, List.length_append, length_leBytes, List.length_cons, List.length_nil, h20, Nat.reduceAdd] at hall
  obtain ⟨-, -, -, -, -, ⟨-, -, hpeerId, -⟩, -⟩ := hall
  rw [echoRequest_eq, icmpPayload, beNat_of_holds hpeerId]
  omega

theorem length_echoRequest : (echoRequest pid seq (icmpPayload tv peerId probeId threadId timestamp) padding).length =
    52 + padding.length := by
  simp [echoRequest, icmpPayload]
  omega

/-- The rule for peer `k` matches the requests of peer `k`. -/
theorem u32Match_request (hpeer : 0 ≤ peerId ∧ peerId < 2 ^ 31) {iphdr : List UInt8} (h20 : iphdr.length = 20) (k : Nat) :
    U32Match k (iphdr ++ echoRequest pid seq (icmpPayload tv peerId probeId threadId timestamp) padding) ↔ (k : Int) = peerId := by
  have hand : peerId.toNat &&& 0xFFFFFFFF = peerId.toNat % 2 ^ 32 := Nat.and_two_pow_sub_one_eq_mod peerId.toNat 32
  rw [U32Match, request_peerId hpeer h20, hand, List.length_append, length_echoRequest, h20]
  omega

/-- In `b` stands a reply of `len` bytes from `src`, in which the ICMP message starts at `n`
and brings back the id, the number and the fields of the request. -/
structure EchoAt (b : Buf) (n len pid seq : Nat) (tv : Timeval) (peerId probeId : Int) (src : String) : Prop where
  start : hlen1 b = n
  whole : n + 52 ≤ len
  proto : b 9 = 1
  source : inetNtop b 12 = src
  type : b n = 0
  id : Holds b (n + 4) (leBytes 2 pid)
  num : Holds b (n + 6) (leBytes 2 seq)
  sec : Holds b (n + 8) (leBytes 8 tv.tvSec.toUInt64.toNat)
  usec : Holds b (n + 16) (leBytes 8 tv.tvUsec.toUInt64.toNat)
  peer : Holds b (n + 24) (beBytes 4 (peerId % 2 ^ 32).toNat)
  probe : Holds b (n + 28) (beBytes 8 (probeId % 2 ^ 64).toNat)

section Reply
variable {pkt : List UInt8} {src : String}

/-- **Where the fields of a reply stand**, whatever the buffer held. -/
theorem echoAt_load (h : EchoReply (echoRequest pid seq (icmpPayload tv peerId probeId threadId timestamp) padding) src pkt)
    (buf : Buf) : ∃ n, EchoAt (load pkt buf) n pkt.length pid seq tv peerId probeId src := by
  obtain ⟨hdr, code, cksum0, cksum1, hpkt, h20, hihl, hproto, hsrc⟩ := h
  rw [drop_echoRequest, icmpPayload] at hpkt
  have hall := holds_load pkt buf
  rw [hpkt] at hall
  simp only [holds_append, List.length_cons, List.length_nil, length_leBytes, length_beBytes, Nat.zero_add, Nat.add_assoc,
    Nat.reduceAdd] at hall
  obtain ⟨-, htypes, hid, hnum, ⟨hsec, husec, hpeer, hprobe, -⟩, -⟩ := hall
  rw [← hpkt] at htypes hid hnum hsec husec hpeer hprobe
  -- the header is the packet's own
  have hfront : ∀ i, i < hdr.length → load pkt buf i = load hdr .zero i := by
    intro i hi
    rw [hpkt, load_front hi]
  refine ⟨hdr.length, ?_, ?_, ?_, ?_, ?_, hid, hnum, hsec, husec, hpeer, hprobe⟩
  · rw [hlen1, hfront 0 (by omega), ← hlen1, hihl]
  · rw [hpkt]
    simp
    omega
  · rw [hfront 9 (by omega), hproto]
  · rw [← hsrc, inetNtop, inetNtop, hfront 12 (by omega), hfront (12 + 1) (by omega), hfront (12 + 2) (by omega),
      hfront (12 + 3) (by omega)]
  · simpa using htypes 0 0 rfl

theorem icmpId_lt (getpid : Nat) : icmpId getpid < 65536 := Nat.mod_lt getpid (by omega)

/-- The reply to an own request passes the tests. -/
theorem EchoAt.accepts {b : Buf} {n len getpid : Nat} (h : EchoAt b n len (icmpId getpid) seq tv peerId probeId src) :
    Accepts (icmpId getpid) b len := by
  have hwhole := h.whole
  have hid : leNat b (n + 4) 2 = icmpId getpid := by
    rw [leNat_of_holds h.id]
    exact Nat.mod_eq_of_lt (icmpId_lt getpid)
  rw [Accepts, h.start, h.proto, h.type, hid]
  exact ⟨rfl, by omega, rfl, rfl, by omega⟩

/-- **What the reply is decoded to** is what the request was made of. -/
theorem decode_echo {getpid : Nat} (hpeer : 0 ≤ peerId ∧ peerId < 2 ^ 31) (hprobe : 0 ≤ probeId ∧ probeId < 2 ^ 31)
    (hseq : seq < 65536)
    (h : EchoReply (echoRequest (icmpId getpid) seq (icmpPayload tv peerId probeId threadId timestamp) padding) src pkt)
    (buf : Buf) (recv : Timeval) : ∃ t : Int, (decode (icmpId getpid) (load pkt buf) pkt.length recv : Option (Reply ℚ)) =
      some ⟨src, probeId, peerId, seq, ((tvSub recv tv).usecs : ℚ) / 1000, t⟩ := by
  obtain ⟨n, hat⟩ := echoAt_load h buf
  have hseqNat : leNat (load pkt buf) (n + 6) 2 = seq := by
    rw [leNat_of_holds hat.num]
    exact Nat.mod_eq_of_lt hseq
  have hpeerInt : signed 32 (beNat (load pkt buf) (n + 24) 4) = peerId := by
    rw [beNat_of_holds hat.peer, signed_of_lt (by omega)]
    omega
  have hprobeInt : signed 32 (beNat (load pkt buf) (n + 28) 8) = probeId := by
    rw [beNat_of_holds hat.probe, signed_of_lt (by omega)]
    omega
  refine ⟨signed 32 (beNat (load pkt buf) (n + 44) 8), ?_⟩
  rw [decode, if_pos hat.accepts, hat.start, icmpReply, int64_of_holds hat.sec, int64_of_holds hat.usec, hat.source, hseqNat,
    hpeerInt, hprobeInt]
  have hrtt : (Dbl.num (tvSub recv tv).tvSec.toInt * Dbl.num 1000 + Dbl.num (tvSub recv tv).tvUsec.toInt / Dbl.num 1000 : ℚ) =
      ((tvSub recv tv).usecs : ℚ) / 1000 := by
    show ((tvSub recv tv).tvSec.toInt : ℚ) * ((1000 : Int) : ℚ) + ((tvSub recv tv).tvUsec.toInt : ℚ) / ((1000 : Int) : ℚ) = _
    rw [Timeval.usecs]
    push_cast
    ring
  rw [hrtt]

end Reply

end Request

/-! ## The record -/

/-- `r[src][probe_id][peer_id][seq]`, nothing where it is absent or NULL. -/
def slotAt {F : Type} (r : RData F) (src : String) (probeId peerId seq : Int) : Option (Tparm F) :=
  ((peersAt r src probeId).idx peerId).idx seq

/-- Samples that are there stay. -/
theorem slotAt_record {F : Type} [Dbl F] {r : RData F} {d : String} {p k q : Int} {tp : Tparm F} (h : slotAt r d p k q = some tp)
    (x : Reply F) : slotAt (record x r) d p k q = some tp := by
  rw [slotAt] at h
  rw [slotAt, samples_record]
  split
  · rw [putSample]
    split
    · next hnone =>
      have hne : x.seq ≠ q := by
        intro heq
        rw [heq, h] at hnone
        cases hnone
      rw [ExtTreeMap.idx_insert, if_neg hne, h]
    · exact h
  · exact h

/-- **Encoding and decoding are inverse.** For every peer, round, number, load, thread and
pair of normalised times whose seconds differ by a `time_t`: the request has the peer at
bytes 44 to 47 of the IP packet, so that the rule of that peer and no other matches; and
an echo reply from `src`, received into any buffer, puts the milliseconds between the
times at `r[src][probe_id][peer_id][seq]` if that is empty, and changes no sample that is
there. -/
theorem echo_reply_recorded (getpid : Nat) {seq : Nat} (hseq : seq < 65536) {peerId probeId : Int} (hpeer : 0 ≤ peerId ∧ peerId < 2 ^ 31)
    (hprobe : 0 ≤ probeId ∧ probeId < 2 ^ 31) (threadId timestamp maxLoad : Nat) (stale : Buf) {send recv : Timeval}
    (hsend : send.Normalised) (hrecv : recv.Normalised) (hle : send.usecs ≤ recv.usecs)
    (hrange : recv.tvSec.toInt - send.tvSec.toInt < 2 ^ 63) :
    let req := echoRequest (icmpId getpid) seq (icmpPayload send peerId probeId threadId timestamp) (icmpPadding maxLoad stale)
    req.length = 72 + maxLoad ∧
      (∀ iphdr : List UInt8, iphdr.length = 20 → beNat (load (iphdr ++ req) .zero) 44 4 = peerId.toNat ∧
        ∀ k : Nat, U32Match k (iphdr ++ req) ↔ (k : Int) = peerId) ∧
      ∀ (src : String) (pkt : List UInt8), EchoReply req src pkt → ∀ (buf : Buf) (r : RData ℚ),
        (slotAt r src probeId peerId seq = none →
          ∃ tp, slotAt (procV4 (icmpId getpid) (load pkt buf) pkt.length recv r) src probeId peerId seq = some tp ∧
            tp.rtt = ((recv.usecs - send.usecs : Int) : ℚ) / 1000) ∧
        ∀ (d : String) (p k q : Int) (tp : Tparm ℚ), slotAt r d p k q = some tp →
          slotAt (procV4 (icmpId getpid) (load pkt buf) pkt.length recv r) d p k q = some tp := by
  intro req
  refine ⟨?_, ?_, ?_⟩
  · rw [length_echoRequest, icmpPadding, List.length_map, List.length_range]
    omega
  · intro iphdr h20
    exact ⟨request_peerId hpeer h20 .zero, u32Match_request hpeer h20⟩
  · intro src pkt hpkt buf r
    obtain ⟨t, hdecode⟩ := decode_echo hpeer hprobe hseq hpkt buf recv
    rw [tvSub_usecs hrecv hsend hle hrange] at hdecode
    rw [procV4, hdecode]
    constructor
    · intro hempty
      exact ⟨_, sampleAt_record hempty, rfl⟩
    · intro d p k q tp htp
      exact slotAt_record htp _

/-- The IP header of a reply of 198.51.100.7. -/
def replyHeader : List UInt8 := [0x45, 0, 0, 92, 0, 0, 0, 0, 64, 1, 0, 0, 198, 51, 100, 7, 192, 0, 2, 1]

/-- Peer 2 and round 3, sent at 1.999 s and received at 2.001 s. -/
theorem echo_reply_run : ∃ (pkt : List UInt8) (tp : Tparm ℚ), pkt.length = 92 ∧
    slotAt (procV4 (icmpId 70000) (load pkt .zero) pkt.length ⟨2, 1000⟩ ∅) "198.51.100.7" 3 2 5 = some tp ∧ tp.rtt = 2 := by
  obtain ⟨hlen, -, hreply⟩ := echo_reply_recorded 70000 (show 5 < 65536 by decide) (show (0 : Int) ≤ 2 ∧ (2 : Int) < 2 ^ 31 by decide)
    (show (0 : Int) ≤ 3 ∧ (3 : Int) < 2 ^ 31 by decide) 11 13 0 .zero (show Timeval.Normalised ⟨1, 999000⟩ by decide)
    (show Timeval.Normalised ⟨2, 1000⟩ by decide) (by decide) (by decide)
  generalize echoRequest (icmpId 70000) 5 (icmpPayload ⟨1, 999000⟩ 2 3 11 13) (icmpPadding 0 .zero) = req at hlen hreply
  have hpkt : EchoReply req "198.51.100.7" (replyHeader ++ ([0, 0, 0, 0] ++ req.drop 4)) :=
    ⟨replyHeader, 0, 0, 0, rfl, by decide, by decide, by decide, by decide +kernel⟩
  have hempty : slotAt (∅ : RData ℚ) "198.51.100.7" 3 2 5 = none := by decide +kernel
  obtain ⟨tp, htp, hrtt⟩ := (hreply _ _ hpkt .zero ∅).1 hempty
  refine ⟨_, tp, ?_, htp, ?_⟩
  · simp [replyHeader, hlen]
  · rw [hrtt]
    decide +kernel

end Pfr

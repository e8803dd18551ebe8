import Pfr.MainLoop
import Pfr.Lib.Bytes

/- `proc_v4`, from the bytes `readloop` received to the records. One buffer serves all
   packets, so behind a packet of `n` bytes stand those of the packets before it. The
   decoder asks for 16 bytes of ICMP ("not enough data to use"), which is a header and
   half a `timeval`; it then reads a packed `icmp_payload`, which ends at byte 52.

     ICMP  0 type, 4 id, 6 seq, 8 `tv` (16), 24 `peer_id` (4), 28 `probe_id` (8),
           36 `thread_id` (8), 44 `timestamp` (8)

   1. `procV4`: the effect on `r`; `procV4_eq_receive`: it is what the main loop's
      `receive` does with the decoded reply;
   2. `accepts_load`, `icmpReply_load`: which of the bytes the test and the reply read;
   3. `effect_own_iff`: when the effect is the packet's own;
   4. `readloop_own`: any number of packets that pass, whatever the buffer held. -/
namespace Pfr

open Std Bytes

/-- A `struct timeval` of a 64-bit machine. -/
structure Timeval where
  tvSec : Int64
  tvUsec : Int64
  deriving DecidableEq

/-- `tv_sub(out, in)`. -/
def tvSub (out inn : Timeval) : Timeval :=
  let usec := out.tvUsec - inn.tvUsec
  if usec < 0 then ⟨out.tvSec - 1 - inn.tvSec, usec + 1000000⟩ else ⟨out.tvSec - inn.tvSec, usec⟩

/-- The text `inet_ntop` gives for the four bytes at `o`. -/
def inetNtop (b : Buf) (o : Nat) : String :=
  ".".intercalate [toString (b o), toString (b (o + 1)), toString (b (o + 2)), toString (b (o + 3))]

/-- `ip->ip_hl << 2`. -/
def hlen1 (b : Buf) : Nat := (b 0).toNat % 16 * 4

/-- The tests an echo reply passes: `ip_p`, the two lengths, `icmp_type` and `icmp_id`. -/
def Accepts (pid : Int) (b : Buf) (n : Nat) : Prop :=
  b 9 = 1 ∧ hlen1 b + 8 ≤ n ∧ b (hlen1 b) = 0 ∧ (leNat b (hlen1 b + 4) 2 : Int) = pid ∧ hlen1 b + 16 ≤ n

instance (pid : Int) (b : Buf) (n : Nat) : Decidable (Accepts pid b n) :=
  inferInstanceAs (Decidable (_ ∧ _ ∧ _ ∧ _ ∧ _))

section Decode
variable {F : Type} [Dbl F]

/-- What is read of an accepted reply whose ICMP part starts at `o`. `swap_endian`
makes the fields of the payload big-endian; `icmp_seq` is read as it stands. The keys
and `timestamp` are converted to `int`. -/
def icmpReply (b : Buf) (o : Nat) (tvrecv : Timeval) : Reply F :=
  let tvsend : Timeval := ⟨Int64.ofNat (leNat b (o + 8) 8), Int64.ofNat (leNat b (o + 16) 8)⟩
  let tv := tvSub tvrecv tvsend
  { src := inetNtop b 12
    probeId := signed 32 (beNat b (o + 28) 8)
    peerId := signed 32 (beNat b (o + 24) 4)
    seq := leNat b (o + 6) 2
    rtt := Dbl.num tv.tvSec.toInt * Dbl.num 1000 + Dbl.num tv.tvUsec.toInt / Dbl.num 1000
    timestamp := signed 32 (beNat b (o + 44) 8) }

def decode (pid : Int) (b : Buf) (n : Nat) (tvrecv : Timeval) : Option (Reply F) :=
  if Accepts pid b n then some (icmpReply b (hlen1 b) tvrecv) else none

def procV4 (pid : Int) (b : Buf) (n : Nat) (tvrecv : Timeval) (r : RData F) : RData F :=
  match (decode pid b n tvrecv : Option (Reply F)) with
  | none => r
  | some x => record x r

/-- The decoded packet is what waits in the socket of the main loop. -/
theorem procV4_eq_receive (pid : Int) (b : Buf) (n : Nat) (tvrecv : Timeval) (m : Mem F) :
    procV4 pid b n tvrecv m.r = (m.receive (decode pid b n tvrecv)).r := by
  unfold procV4
  cases (decode pid b n tvrecv : Option (Reply F)) with
  | none => rfl
  | some x => rfl

end Decode

/-! ## Which bytes are read -/

/-- A packet with an IP header of 20 bytes or more. -/
structure HasIpHeader (pkt : List UInt8) : Prop where
  length : 20 ≤ pkt.length
  ihl : 20 ≤ hlen1 (load pkt .zero)
  fits : hlen1 (load pkt .zero) ≤ pkt.length

instance (pkt : List UInt8) : Decidable (HasIpHeader pkt) :=
  decidable_of_iff (20 ≤ pkt.length ∧ 20 ≤ hlen1 (load pkt .zero) ∧ hlen1 (load pkt .zero) ≤ pkt.length)
    ⟨fun h => ⟨h.1, h.2.1, h.2.2⟩, fun h => ⟨h.length, h.ihl, h.fits⟩⟩

section Reads
variable {pkt : List UInt8}

theorem hlen1_load (h : HasIpHeader pkt) (buf buf' : Buf) : hlen1 (load pkt buf) = hlen1 (load pkt buf') := by
  have := h.length
  rw [hlen1, hlen1, load_lt (by omega) buf buf']

/-- The tests read the packet alone. -/
theorem accepts_load (h : HasIpHeader pkt) (pid : Int) (buf buf' : Buf) :
    Accepts pid (load pkt buf) pkt.length ↔ Accepts pid (load pkt buf') pkt.length := by
  have hlen := h.length
  by_cases h8 : hlen1 (load pkt buf') + 8 ≤ pkt.length
  · rw [Accepts, Accepts, hlen1_load h buf buf', load_lt (by omega) buf buf', load_lt (by omega) buf buf',
      leNat_congr (load_agree (by omega) buf buf')]
  · rw [Accepts, Accepts, hlen1_load h buf buf']
    simp only [h8, false_and, and_false]

variable {F : Type} [Dbl F]

/-- A reply with another timestamp. -/
def Reply.stamp (x : Reply F) (t : Int) : Reply F :=
  ⟨x.src, x.probeId, x.peerId, x.seq, x.rtt, t⟩

omit [Dbl F] in
theorem Reply.stamp_self (x : Reply F) : x.stamp x.timestamp = x := rfl

omit [Dbl F] in
/-- The keys of a reply do not contain its timestamp. -/
theorem sampleAt_stamp (r : RData F) (x : Reply F) (t : Int) : sampleAt r (x.stamp t) = sampleAt r x := rfl

/-- Buffers that agree up to the timestamp give the same reply up to it. -/
theorem icmpReply_congr {b b' : Buf} {o k : Nat} (h12 : AgreeOn b b' 12 4) (h : AgreeOn b b' (o + 6) k) (hk : 38 ≤ k)
    (tv : Timeval) : (icmpReply (F := F) b' o tv).stamp (icmpReply (F := F) b o tv).timestamp =
      icmpReply b o tv := by
  have hsrc : inetNtop b 12 = inetNtop b' 12 := by
    rw [inetNtop, inetNtop, h12 12 (by omega) (by omega), h12 (12 + 1) (by omega) (by omega),
      h12 (12 + 2) (by omega) (by omega), h12 (12 + 3) (by omega) (by omega)]
  have hsec : leNat b (o + 8) 8 = leNat b' (o + 8) 8 := leNat_congr (h.mono (by omega) (by omega))
  have husec : leNat b (o + 16) 8 = leNat b' (o + 16) 8 := leNat_congr (h.mono (by omega) (by omega))
  have hpeer : beNat b (o + 24) 4 = beNat b' (o + 24) 4 := beNat_congr (h.mono (by omega) (by omega))
  have hprobe : beNat b (o + 28) 8 = beNat b' (o + 28) 8 := beNat_congr (h.mono (by omega) (by omega))
  have hseq : leNat b (o + 6) 2 = leNat b' (o + 6) 2 := leNat_congr (h.mono (by omega) (by omega))
  simp only [icmpReply, Reply.stamp, hsrc, hsec, husec, hpeer, hprobe, hseq]

end Reads

/-! ## The effect -/

section Effect
variable {F : Type} [Dbl F] {pid : Int} {tv : Timeval}

/-- A packet that passes the tests is recorded, whatever stands behind it. -/
theorem procV4_of_accepts {pkt : List UInt8} (h : HasIpHeader pkt) (hacc : Accepts pid (load pkt .zero) pkt.length)
    (buf : Buf) (r : RData F) :
    procV4 pid (load pkt buf) pkt.length tv r = record (icmpReply (load pkt buf) (hlen1 (load pkt .zero)) tv) r := by
  rw [procV4, decode, if_pos ((accepts_load h pid buf .zero).mpr hacc), hlen1_load h buf .zero]

theorem procV4_of_rejects {pkt : List UInt8} (h : HasIpHeader pkt) (hrej : ¬Accepts pid (load pkt .zero) pkt.length)
    (buf : Buf) (r : RData F) : procV4 pid (load pkt buf) pkt.length tv r = r := by
  rw [procV4, decode, if_neg (fun hacc => hrej ((accepts_load h pid buf .zero).mp hacc))]

theorem icmpReply_timestamp (b : Buf) (o : Nat) (tv : Timeval) :
    (icmpReply (F := F) b o tv).timestamp = signed 32 (beNat b (o + 44) 8) := by
  simp only [icmpReply]

/-- The last byte of the timestamp shows in what is stored. -/
theorem timestamp_byte {b b' : Buf} {o : Nat} (tv : Timeval)
    (h : (icmpReply (F := F) b o tv).timestamp = (icmpReply (F := F) b' o tv).timestamp) : b (o + 51) = b' (o + 51) := by
  rw [icmpReply_timestamp, icmpReply_timestamp] at h
  have hmod := signed_inj h
  have hlow : beNat b (o + 44) 8 % 256 = (b (o + 44 + 7)).toNat := beNat_mod b (o + 44) 7
  have hlow' : beNat b' (o + 44) 8 % 256 = (b' (o + 44 + 7)).toNat := beNat_mod b' (o + 44) 7
  have hbyte : (b (o + 44 + 7)).toNat = (b' (o + 44 + 7)).toNat := by
    norm_num at hmod
    omega
  exact UInt8.toNat_inj.mp hbyte

/-- A packet that contains the whole payload decides its reply. -/
theorem icmpReply_load {pkt : List UInt8} (h : HasIpHeader pkt) {o : Nat} (ho : o + 52 ≤ pkt.length) (tv : Timeval)
    (buf buf' : Buf) :
    (icmpReply (load pkt buf) o tv : Reply F) = icmpReply (load pkt buf') o tv := by
  have hlen := h.length
  have hbyte : AgreeOn (load pkt buf) (load pkt buf') (o + 6) 46 := load_agree (by omega) buf buf'
  have hts : (icmpReply (F := F) (load pkt buf) o tv).timestamp = (icmpReply (F := F) (load pkt buf') o tv).timestamp := by
    have hbe : beNat (load pkt buf) (o + 44) 8 = beNat (load pkt buf') (o + 44) 8 :=
      beNat_congr (hbyte.mono (by omega) (by omega))
    rw [icmpReply_timestamp, icmpReply_timestamp, hbe]
  have hrest := icmpReply_congr (F := F) (load_agree (by omega) buf buf') hbyte (by omega) tv
  rw [← hrest, hts, Reply.stamp_self]

/-- A packet that is not accepted, or contains the whole payload. -/
def Whole (pid : Int) (pkt : List UInt8) : Prop :=
  ¬Accepts pid (load pkt .zero) pkt.length ∨ hlen1 (load pkt .zero) + 52 ≤ pkt.length

theorem procV4_of_whole {pkt : List UInt8} (h : HasIpHeader pkt) (hw : Whole pid pkt) (tv : Timeval) (r : RData F)
    (buf buf' : Buf) :
    procV4 pid (load pkt buf) pkt.length tv r = procV4 pid (load pkt buf') pkt.length tv r := by
  by_cases hacc : Accepts pid (load pkt .zero) pkt.length
  · have hfull := hw.resolve_left (not_not.mpr hacc)
    rw [procV4_of_accepts h hacc, procV4_of_accepts h hacc, icmpReply_load h hfull tv buf buf']
  · rw [procV4_of_rejects h hacc, procV4_of_rejects h hacc]

/-- A packet that does not leaves the last byte of the timestamp to the buffer, and what
the reply addresses is settled without it. -/
theorem reply_differs {pkt : List UInt8} (h : HasIpHeader pkt) {o : Nat} (ho : pkt.length < o + 52) (tv : Timeval)
    (buf : Buf) : ∃ buf',
      (∀ r : RData F, sampleAt r (icmpReply (load pkt buf') o tv) = sampleAt r (icmpReply (load pkt buf) o tv)) ∧
      (icmpReply (F := F) (load pkt buf) o tv).timestamp ≠ (icmpReply (F := F) (load pkt buf') o tv).timestamp := by
  have hlen := h.length
  let buf' : Buf := fun i => if i = o + 51 then buf i + 1 else buf i
  have hagree : AgreeOn (load pkt buf) (load pkt buf') (o + 6) 45 := by
    intro i hi hi'
    by_cases hin : i < pkt.length
    · exact load_lt hin buf buf'
    · rw [load_ge (by omega), load_ge (by omega)]
      exact (if_neg (by omega)).symm
  have hcongr := icmpReply_congr (F := F) (load_agree (by omega) buf buf') hagree (by omega) tv
  refine ⟨buf', fun r => by rw [← hcongr, sampleAt_stamp], ?_⟩
  intro hts
  have hbyte := timestamp_byte tv hts
  rw [load_ge (by omega), load_ge (by omega)] at hbyte
  change buf (o + 51) = if o + 51 = o + 51 then buf (o + 51) + 1 else buf (o + 51) at hbyte
  rw [if_pos rfl] at hbyte
  have hnat := congrArg UInt8.toNat hbyte
  have := (buf (o + 51)).toNat_lt
  rw [UInt8.toNat_add, UInt8.toNat_one] at hnat
  omega

/-- **When the effect of a packet is its own.** For every packet with an IP header, time
and records: the effect is the same whatever the buffer holds behind the packet if and
only if the packet is not accepted, or contains the whole payload, or addresses, however
its payload is completed, a record that is there already. -/
theorem effect_own_iff {pkt : List UInt8} (h : HasIpHeader pkt) (r : RData F) :
    (∀ buf buf', procV4 pid (load pkt buf) pkt.length tv r = procV4 pid (load pkt buf') pkt.length tv r) ↔
      (¬Accepts pid (load pkt .zero) pkt.length ∨ hlen1 (load pkt .zero) + 52 ≤ pkt.length ∨
        ∀ buf, (sampleAt r (icmpReply (load pkt buf) (hlen1 (load pkt .zero)) tv)).isSome) := by
  rw [← or_assoc]
  constructor
  · intro hown
    by_contra hcon
    simp only [not_or, not_not, not_forall, Bool.not_eq_true, Option.isSome_eq_false_iff,
      Option.isNone_iff_eq_none] at hcon
    obtain ⟨⟨hacc, hshort⟩, buf, hnone⟩ := hcon
    obtain ⟨buf', hslot, hts⟩ := reply_differs (F := F) (o := hlen1 (load pkt .zero)) h (by omega) tv buf
    have heq := hown buf buf'
    rw [procV4_of_accepts h hacc, procV4_of_accepts h hacc] at heq
    -- both are stored under the same keys, with different timestamps
    have hstored := sampleAt_record hnone
    rw [heq, ← hslot, sampleAt_record ((hslot r).trans hnone)] at hstored
    have hstamp := congrArg Tparm.timestamp (Option.some.inj hstored)
    rw [Tparm.new_timestamp, Tparm.new_timestamp] at hstamp
    exact hts hstamp.symm
  · rintro (hwhole | hstored) buf buf'
    · exact procV4_of_whole h hwhole tv r buf buf'
    · by_cases hacc : Accepts pid (load pkt .zero) pkt.length
      · rw [procV4_of_accepts h hacc, procV4_of_accepts h hacc, record_of_stored (hstored buf),
          record_of_stored (hstored buf')]
      · rw [procV4_of_rejects h hacc, procV4_of_rejects h hacc]

end Effect

/-- An echo reply of 198.51.100.7 to process 1 with its whole payload: peer 2, probe 3. -/
def fullReply : List UInt8 :=
  [0x45, 0, 0, 72, 0, 0, 0, 0, 64, 1, 0, 0, 198, 51, 100, 7, 192, 0, 2, 1, 0, 0, 0, 0, 1, 0, 5, 0] ++
    List.replicate 16 0 ++ [0, 0, 0, 2, 0, 0, 0, 0, 0, 0, 0, 3] ++ List.replicate 16 0

/-- A whole reply is recorded, whatever came before it. -/
theorem effect_own_full :
    (HasIpHeader fullReply ∧ Accepts 1 (load fullReply .zero) fullReply.length) ∧
      ∀ (buf buf' : Buf) (r : RData ℚ), procV4 1 (load fullReply buf) fullReply.length ⟨1, 0⟩ r =
        procV4 1 (load fullReply buf') fullReply.length ⟨1, 0⟩ r :=
  ⟨⟨by decide, by decide⟩, fun buf buf' r => (effect_own_iff (by decide) r).mpr (Or.inr (Or.inl (by decide))) buf buf'⟩

/-- The first 36 bytes of it, behind which a packet of peer 5 or none has been: the
reply is recorded for peer 5 or for peer 0. -/
theorem effect_not_own : ¬∀ (pid : Int) (pkt : List UInt8) (tv : Timeval) (r : RData ℚ), HasIpHeader pkt →
    ∀ buf buf', procV4 pid (load pkt buf) pkt.length tv r = procV4 pid (load pkt buf') pkt.length tv r := by
  intro hall
  have heq := hall 1 (fullReply.take 36) ⟨1, 0⟩ ∅ (by decide) .zero (fun i => if i = 47 then 5 else 0)
  have hrecorded : (0 : Int) ∈ peersAt (procV4 (F := ℚ) 1 (load (fullReply.take 36) .zero) 36 ⟨1, 0⟩ ∅) "198.51.100.7" 0 := by
    decide +kernel
  have helsewhere : (0 : Int) ∉ peersAt (procV4 (F := ℚ) 1 (load (fullReply.take 36) (fun i => if i = 47 then 5 else 0)) 36
      ⟨1, 0⟩ ∅) "198.51.100.7" 0 := by
    decide +kernel
  exact helsewhere (heq ▸ hrecorded)

/-! ## Any number of packets -/

section Readloop
variable {F : Type} [Dbl F] {pid : Int}

/-- One iteration of `readloop`: the packet is received into the buffer and processed. -/
def recvPacket (pid : Int) (s : Buf × RData F) (p : List UInt8 × Timeval) : Buf × RData F :=
  (load p.1 s.1, procV4 pid (load p.1 s.1) p.1.length p.2 s.2)

/-- **What any number of such packets leaves in `r` is their own effect.** -/
theorem readloop_own : ∀ (pkts : List (List UInt8 × Timeval)) (buf buf' : Buf) (r : RData F),
    (∀ p ∈ pkts, HasIpHeader p.1 ∧ Whole pid p.1) →
      (pkts.foldl (recvPacket pid) (buf, r)).2 = (pkts.foldl (recvPacket pid) (buf', r)).2
  | [], _, _, _, _ => rfl
  | p :: pkts, buf, buf', r, h => by
    obtain ⟨hip, hwhole⟩ := h p List.mem_cons_self
    rw [List.foldl_cons, List.foldl_cons, recvPacket, recvPacket, procV4_of_whole hip hwhole p.2 r buf buf']
    exact readloop_own pkts _ _ _ fun q hq => h q (List.mem_cons_of_mem _ hq)

end Readloop

end Pfr

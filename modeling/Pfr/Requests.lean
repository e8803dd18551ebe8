import Pfr.FlowList
import Pfr.Probing
import Mathlib.Data.List.Flatten
import Mathlib.Data.List.Perm.Basic

/- What the threads of a round request. Each thread asks for every number of every
   destination of the list; what goes out is what `sendbuf` and `pr->sasend` hold at the
   `sendto`, and every thread writes to these.

   1. `requests`: what the threads of a round are to ask for;
   2. `Unraced`: a round in which no thread sends what another one wrote;
   3. `Asking.move`, `asking_of_path`: in any such interleaving of the statements the
      packets are those asked for so far, and all of them once the threads are joined;
   4. `exists_joined`: there is always one that gets there;
   5. `probed_once_iff`: when every destination is listed once, and probed as often as
      the loss assumes. -/
namespace Pfr

open CText Std

/-- An echo request, by what tells it from the others of a round. -/
structure Request where
  dst : Dest
  peerId : Int
  seq : Int
  deriving DecidableEq, Repr

/-- The request is for a path. -/
abbrev Request.On (q : Request) (d : Dest) (k : Int) : Prop := q.dst = d ∧ q.peerId = k

/-- What a packet asks for; `icmp_seq` has 16 bits. -/
def SentPacket.request (x : SentPacket) : Request := ⟨destOf x.dst.toList, x.buf.payload.peerId, (x.buf.seq % 65536 : Nat)⟩

/-! ## What is to be sent -/

/-- The first `n` numbers of a destination. -/
def asks (k : Int) (d : Dest) (n : Nat) : List Request := (List.range n).map fun seq => ⟨d, k, (seq % 65536 : Nat)⟩

/-- All the thread of a peer is to ask for. -/
def wanted (reqs : Nat) (k : Int) (ds : List Dest) : List Request := ds.flatMap fun d => asks k d reqs

/-- All the threads are. -/
def requests (reqs : Nat) (ks : List Int) (ds : List Dest) : List Request := ks.flatMap fun k => wanted reqs k ds

section Wanted
variable {reqs : Nat} {ks : List Int} {ds : List Dest} {k : Int} {d : Dest}

theorem asks_succ (k : Int) (d : Dest) (n : Nat) : asks k d (n + 1) = asks k d n ++ [⟨d, k, (n % 65536 : Nat)⟩] := by
  simp [asks, List.range_succ]

theorem wanted_append (reqs : Nat) (k : Int) (ds ds' : List Dest) :
    wanted reqs k (ds ++ ds') = wanted reqs k ds ++ wanted reqs k ds' := List.flatMap_append

/-- `icmp_seq` repeats from 65536 requests on. -/
theorem asks_nodup_iff : (asks k d reqs).Nodup ↔ reqs ≤ 65536 := by
  rw [asks, List.nodup_map_iff_inj_on List.nodup_range]
  constructor
  · intro h
    by_contra hbig
    have hsame := h 0 (List.mem_range.mpr (by omega)) 65536 (List.mem_range.mpr (by omega)) rfl
    cases hsame
  · intro h i hi j hj heq
    have hmod := congrArg Request.seq heq
    have hi' := List.mem_range.mp hi
    have hj' := List.mem_range.mp hj
    simp only at hmod
    omega

theorem mem_asks {q : Request} (h : q ∈ asks k d reqs) : q.On d k := by
  obtain ⟨i, -, rfl⟩ := List.mem_map.mp h
  exact ⟨rfl, rfl⟩

theorem mem_wanted {q : Request} (h : q ∈ wanted reqs k ds) : q.peerId = k := by
  obtain ⟨d, -, hd⟩ := List.mem_flatMap.mp h
  exact (mem_asks hd).2

/-- With distinct destinations and numbers nothing is asked for twice. -/
theorem requests_nodup (hseq : reqs ≤ 65536) (hks : ks.Nodup) (hds : ds.Nodup) : (requests reqs ks ds).Nodup := by
  rw [requests, List.nodup_flatMap]
  constructor
  · intro k _
    rw [wanted, List.nodup_flatMap]
    refine ⟨fun d _ => asks_nodup_iff.mpr hseq, (List.nodup_iff_pairwise_ne.mp hds).imp ?_⟩
    intro d e hne q hd he
    exact hne ((mem_asks hd).1.symm.trans (mem_asks he).1)
  · refine (List.nodup_iff_pairwise_ne.mp hks).imp ?_
    intro j k hne q hj hk
    exact hne ((mem_wanted hj).symm.trans (mem_wanted hk))

/-- Without peers or destinations nothing is. -/
theorem requests_eq_nil (h : ks = [] ∨ ds = []) : requests reqs ks ds = [] := by
  cases h with
  | inl hks =>
    rw [hks]
    rfl
  | inr hds =>
    rw [hds]
    exact List.flatMap_eq_nil_iff.mpr fun _ _ => rfl

/-- Where anything is, the numbers must differ. -/
theorem fits_of_nodup (h : (requests reqs ks ds).Nodup) (hk : k ∈ ks) (hd : d ∈ ds) : reqs ≤ 65536 := by
  rw [requests, List.nodup_flatMap] at h
  have hpeer := h.1 k hk
  rw [wanted, List.nodup_flatMap] at hpeer
  exact asks_nodup_iff.mp (hpeer.1 d hd)

theorem countP_asks (j : Int) (e : Dest) : (asks j e reqs).countP (fun q => q.On d k) = if j = k ∧ e = d then reqs else 0 := by
  rw [asks, List.countP_map]
  by_cases hje : j = k ∧ e = d
  · simp [Function.comp_def, hje]
  · rw [if_neg hje, List.countP_eq_zero]
    intro i _ hq
    have hon : e = d ∧ j = k := by simpa using hq
    exact hje hon.symm

theorem countP_wanted (j : Int) :
    (wanted reqs j ds).countP (fun q => q.On d k) = if j = k then ds.count d * reqs else 0 := by
  induction ds with
  | nil => simp [wanted]
  | cons e ds ih =>
    rw [wanted, List.flatMap_cons, List.countP_append, countP_asks, ← wanted, ih, List.count_cons]
    by_cases hj : j = k
    · by_cases hd : e = d
      · simp [hj, hd, Nat.add_mul, Nat.add_comm]
      · simp [hj, hd]
    · simp [hj]

/-- A path is asked for as often as its destination and its peer are there. -/
theorem countP_requests :
    (requests reqs ks ds).countP (fun q => q.On d k) = ks.count k * (ds.count d * reqs) := by
  induction ks with
  | nil => simp [requests]
  | cons j ks ih =>
    rw [requests, List.flatMap_cons, List.countP_append, countP_wanted, ← requests, ih, List.count_cons]
    by_cases hj : j = k
    · simp [hj, Nat.add_mul, Nat.add_comm]
    · simp [hj]

end Wanted

/-! ## A thread -/

deriving instance DecidableEq for Aim

/-- The destination a thread is at, of the list `l`. -/
def SendPc.current (l : List String) : SendPc → Option String
  | .loop rest _ _ => l[l.length - rest.length - 1]?
  | _ => none

def dests (l : List String) : List Dest := l.map fun d => destOf d.toList

/-- What a thread has asked for when it is there. -/
def SendPc.made (reqs : Nat) (k : Int) (l : List String) : SendPc → List Request
  | .setProto _ | .setHost _ | .socket _ | .freeHost _ => []
  | .next rest => wanted reqs k (dests (l.take (l.length - rest.length)))
  | .loop rest seq _ =>
    wanted reqs k (dests (l.take (l.length - rest.length - 1))) ++
      (dests l[l.length - rest.length - 1]?.toList).flatMap fun d => asks k d seq

/-- A thread can be there, in a round with the list `l`. -/
def SendPc.Placed (reqs : Nat) (l : List String) : SendPc → Prop
  | .setProto m | .setHost m | .socket m | .freeHost m => m = l
  | .next rest => ∃ done, l = done ++ rest
  | .loop rest seq st => seq ≤ reqs ∧ (st ≠ .test → seq < reqs) ∧ ∃ done d, l = done ++ d :: rest

/-- What a thread is about to send is what it has written. -/
def Sender.Own (l : List String) (th : Sender) (w : Shared) : Prop :=
  match th.pc with
  | .loop rest seq .send => w.buf.seq = seq ∧ w.buf.payload.peerId = th.peerId ∧
      ∃ d ∈ (SendPc.loop rest seq .send).current l, w.aim = some ⟨d, th.peerId, true⟩
  | _ => True

instance (l : List String) (th : Sender) (w : Shared) : Decidable (th.Own l w) := by
  unfold Sender.Own
  split <;> infer_instance

section Place
variable {reqs : Nat} {k : Int} {done rest : List String} {d : String} {seq : Nat} {st : Stage}

theorem position_eq : (done ++ d :: rest).length - rest.length - 1 = done.length := by
  rw [List.length_append, List.length_cons]
  omega

theorem current_loop : (SendPc.loop rest seq st).current (done ++ d :: rest) = some d := by
  simp only [SendPc.current, position_eq]
  simp

theorem made_next : (SendPc.next rest).made reqs k (done ++ rest) = wanted reqs k (dests done) := by
  simp [SendPc.made]

theorem made_loop : (SendPc.loop rest seq st).made reqs k (done ++ d :: rest) =
    wanted reqs k (dests done) ++ asks k (destOf d.toList) seq := by
  simp only [SendPc.made, position_eq]
  simp [dests]

theorem dests_append (l m : List String) : dests (l ++ m) = dests l ++ dests m := List.map_append

/-- A thread asks in the order of its list. -/
theorem made_inOrder {l : List String} {pc : SendPc} (h : pc.Placed reqs l) : pc.made reqs k l <+: wanted reqs k (dests l) := by
  cases pc with
  | next rest =>
    obtain ⟨done, rfl⟩ := h
    rw [made_next, dests_append, wanted_append]
    exact List.prefix_append _ _
  | loop rest seq st =>
    obtain ⟨hseq, -, done, d, rfl⟩ := h
    have hasks : asks k (destOf d.toList) seq <+: asks k (destOf d.toList) reqs := by
      obtain ⟨n, rfl⟩ := Nat.exists_eq_add_of_le hseq
      rw [asks, asks, List.range_add, List.map_append]
      exact List.prefix_append _ _
    rw [made_loop, dests_append, wanted_append]
    refine (List.prefix_append_right_inj _).mpr (hasks.trans ?_)
    rw [dests, List.map_cons, wanted, List.flatMap_cons]
    exact List.prefix_append _ _
  | _ => exact List.nil_prefix

end Place

/-- **A statement of a thread that sends its own**: it goes on in its list, and what it sends
is the next request. -/
theorem sendStep_made {pid reqs : Nat} {x : Fill} {l : List String} {th : Sender} {w : Shared} {out : Sender × Shared}
    (hp : th.pc.Placed reqs l) (hown : th.Own l w) (hs : sendStep pid reqs x th w = some out) :
    out.1.peerId = th.peerId ∧ out.1.pc.Placed reqs l ∧ ∃ new, out.2.sent = new ++ w.sent ∧
      out.1.pc.made reqs th.peerId l = th.pc.made reqs th.peerId l ++ new.map SentPacket.request := by
  obtain ⟨k, p, pc⟩ := th
  cases pc with
  | setProto m =>
    cases hs
    exact ⟨rfl, hp, [], rfl, rfl⟩
  | setHost m =>
    cases hs
    exact ⟨rfl, hp, [], point_sent _ _, rfl⟩
  | socket m =>
    simp only [sendStep] at hs
    split at hs
    · cases hs
      exact ⟨rfl, hp, [], rfl, rfl⟩
    · cases hs
  | freeHost m =>
    cases hs
    obtain rfl : m = l := hp
    have hnone : (SendPc.next m).made reqs k ([] ++ m) = [] := made_next
    exact ⟨rfl, ⟨[], rfl⟩, [], rfl, hnone⟩
  | next rest =>
    obtain ⟨done, rfl⟩ := hp
    cases rest with
    | nil => cases hs
    | cons d rest =>
      cases hs
      refine ⟨rfl, ⟨Nat.zero_le _, fun h => absurd rfl h, done, d, rfl⟩, [], point_sent _ _, ?_⟩
      show (SendPc.loop rest 0 .test).made reqs k (done ++ d :: rest) = _
      rw [made_loop, made_next]
      rfl
  | loop rest seq st =>
    obtain ⟨hle, hlt, done, d, rfl⟩ := hp
    cases st with
    | test =>
      simp only [sendStep] at hs
      split at hs
      · next hseq =>
        cases hs
        exact ⟨rfl, ⟨hle, fun _ => hseq, done, d, rfl⟩, [], rfl, (List.append_nil _).symm⟩
      · next hseq =>
        cases hs
        have hdone : done ++ d :: rest = (done ++ [d]) ++ rest := by simp
        refine ⟨rfl, ⟨done ++ [d], hdone⟩, [], rfl, ?_⟩
        show (SendPc.next rest).made reqs k (done ++ d :: rest) = _
        rw [made_loop, hdone, made_next, dests_append, wanted_append, Nat.le_antisymm hle (Nat.le_of_not_lt hseq)]
        simp [dests, wanted]
    | fill | clear | sum =>
      cases hs
      exact ⟨rfl, ⟨hle, fun _ => hlt nofun, done, d, rfl⟩, [], rfl, (List.append_nil _).symm⟩
    | send =>
      cases hs
      obtain ⟨hnum, hpeer, e, he, haim⟩ := hown
      rw [current_loop] at he
      cases he
      refine ⟨rfl, ⟨hlt nofun, fun h => absurd rfl h, done, d, rfl⟩, [⟨d, true, w.buf⟩], ?_, ?_⟩
      · show (w.sendto x).sent = _
        simp only [Shared.sendto, haim]
        rfl
      · show (SendPc.loop rest (seq + 1) .test).made reqs k (done ++ d :: rest) = _
        rw [made_loop, made_loop, asks_succ, List.append_assoc]
        simp [SentPacket.request, hnum, hpeer]

/-! ## A round -/

section Round
variable {F : Type} [Dbl F]

/-- The round with the list `l` goes on, and no thread sends what another one wrote. -/
def Unraced (l : List String) (s : Probing F) : ProbeEvent F → Prop
  | .main (.start _) => False
  | .send i _ => ∀ th ∈ s.senders[i]?, th.Own l s.shared
  | _ => True

/-- What the threads have asked for since the state `s`, from which the round was started. -/
structure Asking (s : Probing F) (l : List String) (w : Probing F) : Prop where
  peers : w.senders.map Sender.peerId = s.main.mem.mm.keys
  steady : w.main.pc = .joined ∧ w.main.cfg = s.main.cfg ∨ w.joined
  placed : ∀ th ∈ w.senders, th.pc.Placed s.main.cfg.pfrPingReq.toNat l
  sent : ∃ new, w.shared.sent = new ++ s.shared.sent ∧ (new.map SentPacket.request).Perm
    (w.senders.flatMap fun th => th.pc.made s.main.cfg.pfrPingReq.toNat th.peerId l)

theorem asking_started {s : Probing F} {l : List String} {t : State F} (h : step s.main (.start l) = some t) :
    Asking s l (s.started l t) := by
  obtain ⟨-, hm⟩ := move_of_step h
  cases hm with
  | start l hpc =>
    refine ⟨?_, Or.inl ⟨rfl, rfl⟩, ?_, [], rfl, ?_⟩
    · rw [Probing.started, List.map_map]
      exact List.map_id _
    · intro th hth
      obtain ⟨k, -, rfl⟩ := List.mem_map.mp hth
      exact rfl
    · rw [Probing.started, List.flatMap_map]
      simp [SendPc.made]

variable {pid : Nat} {s w u : Probing F} {l : List String}

/-- A step of `main` leaves the round as it is, or comes after it. -/
theorem Asking.main (h : Asking s l w) {e : Event F} {t : State F} (hm : Move w.main e t) (hl : ∀ m, e ≠ .start m)
    (hj : e = .ask → w.joined) : Asking s l { w with main := t } := by
  refine ⟨h.peers, ?_, h.placed, h.sent⟩
  rcases h.steady with ⟨hpc, hcfg⟩ | hjoined
  · cases hm with
    | start m _ => exact absurd rfl (hl m)
    | ask _ => exact Or.inr (hj rfl)
    | take hpc' _ | skip hpc' _ | phase _ _ hpc' _ | resume hpc' | shutdown _ hpc' _ | reread _ _ hpc' | rereadFail hpc'
    | release hpc' =>
      rw [hpc] at hpc'
      cases hpc'
    | _ => exact Or.inl ⟨hpc, hcfg⟩
  · exact Or.inr hjoined

omit [Dbl F] in
/-- A thread takes a step, and what it sends is its next request. -/
theorem Asking.sending (h : Asking s l w) {i : Nat} {x : Fill} {th : Sender} {out : Sender × Shared}
    (hth : w.senders[i]? = some th) (hown : th.Own l w.shared)
    (hs : sendStep pid w.main.cfg.pfrPingReq.toNat x th w.shared = some out) : Asking s l (w.sending i out) := by
  have hmem : th ∈ w.senders := List.mem_of_getElem? hth
  obtain ⟨hi, hget⟩ := List.getElem?_eq_some_iff.mp hth
  rcases h.steady with ⟨hpc, hcfg⟩ | hjoined
  · rw [hcfg] at hs
    obtain ⟨hpeer, hplaced, sent, hsent, hmade⟩ := sendStep_made (h.placed th hmem) hown hs
    obtain ⟨new, hnew, hperm⟩ := h.sent
    refine ⟨?_, Or.inl ⟨hpc, hcfg⟩, ?_, sent ++ new, ?_, ?_⟩
    · show (w.senders.set i out.1).map Sender.peerId = _
      rw [List.map_set, ← h.peers, hpeer, ← hget, ← List.getElem_map Sender.peerId (h := by simpa using hi)]
      exact List.set_getElem_self _
    · intro y hy
      rcases List.mem_or_eq_of_mem_set hy with hy | rfl
      · exact h.placed y hy
      · exact hplaced
    · show out.2.sent = _
      rw [hsent, hnew, List.append_assoc]
    · -- only the thread that took the step asks for more
      have hold := (List.getElem_cons_eraseIdx_perm hi).flatMap_right
        fun y => y.pc.made s.main.cfg.pfrPingReq.toNat y.peerId l
      have hnow := (List.set_perm_cons_eraseIdx hi out.1).flatMap_right
        fun y => y.pc.made s.main.cfg.pfrPingReq.toNat y.peerId l
      rw [hget, List.flatMap_cons] at hold
      rw [List.flatMap_cons, hpeer, hmade] at hnow
      refine List.Perm.trans ?_ hnow.symm
      rw [List.map_append, List.append_assoc]
      exact ((hperm.trans hold.symm).append_left _).trans (List.perm_append_comm_assoc _ _ _)
  · -- a thread that is through has no step
    have hpc := hjoined th hmem
    simp only [sendStep, hpc] at hs
    cases hs

/-- **A step of the round.** -/
theorem Asking.move (h : Asking s l w) {e : ProbeEvent F} (hG : Unraced l w e) (hm : ProbeMove pid w e u) : Asking s l u := by
  cases hm with
  | main e t hm _ hl hj => exact h.main hm hl hj
  | start m t hm => exact absurd hG id
  | reader hr => exact ⟨h.peers, h.steady, h.placed, h.sent⟩
  | send i x th out hth hs => exact h.sending hth (hG th hth) hs
  | packet pkt buf recv t hm =>
    have hmain := h.main hm nofun nofun
    exact ⟨hmain.peers, hmain.steady, hmain.placed, hmain.sent⟩

/-- **The packets of a round**, in any interleaving in which no thread sends what another
one wrote: each is one of those to be asked for, and none comes more often than there;
once the threads are joined they are all. -/
theorem asking_of_path {t : State F} (hstart : step s.main (.start l) = some t)
    (h : Lts.Path (probeStep pid) (Unraced l) (s.started l t) w) :
    ∃ new, w.shared.sent = new ++ s.shared.sent ∧
      (new.map SentPacket.request).Subperm (requests s.main.cfg.pfrPingReq.toNat s.main.mem.mm.keys (dests l)) ∧
      (w.joined → (new.map SentPacket.request).Perm (requests s.main.cfg.pfrPingReq.toNat s.main.mem.mm.keys (dests l))) := by
  have hasking : Asking s l w := by
    refine h.invariant (asking_started hstart) ?_
    intro w e u hI hG hs
    exact hI.move hG (probeMove_of_step hs)
  obtain ⟨new, hnew, hperm⟩ := hasking.sent
  have hall : (w.senders.flatMap fun th => wanted s.main.cfg.pfrPingReq.toNat th.peerId (dests l)) =
      requests s.main.cfg.pfrPingReq.toNat s.main.mem.mm.keys (dests l) := by
    rw [requests, ← hasking.peers, List.flatMap_map]
  refine ⟨new, hnew, ?_, ?_⟩
  · rw [← hall]
    refine hperm.subperm.trans (List.Sublist.subperm ?_)
    exact List.Sublist.flatMap_right _ fun th hth => (made_inOrder (hasking.placed th hth)).sublist
  · intro hjoined
    rw [← hall]
    refine hperm.trans (List.Perm.flatMap_left _ fun th hth => ?_)
    rw [hjoined th hth]
    simp [SendPc.made]

end Round

/-! ## A round to its end -/

/-- A thread by itself. -/
def aloneStep (pid reqs : Nat) (p : Sender × Shared) (x : Fill) : Option (Sender × Shared) := sendStep pid reqs x p.1 p.2

/-- It sends what it has written. -/
def OwnStep (l : List String) (p : Sender × Shared) (_ : Fill) : Prop := p.1.Own l p.2

/-- What a thread writes does not matter here. -/
def blank : Fill := ⟨⟨0, 0⟩, 0, 0, [], none⟩

section Alone

theorem sendto_aim (w : Shared) (x : Fill) : (w.sendto x).aim = w.aim := by
  unfold Shared.sendto
  split
  · rfl
  · split <;> rfl

variable (pid : Nat) {reqs : Nat} {k : Int} (p : Nat)

/-- One request, from its number to its `sendto`. -/
theorem alone_request (done rest : List String) {d : String} {seq : Nat} {w : Shared} (hseq : seq < reqs)
    (haim : w.aim = some ⟨d, k, true⟩) : ∃ w', Lts.Path (aloneStep pid reqs) (OwnStep (done ++ d :: rest))
      (⟨k, p, .loop rest seq .test⟩, w) (⟨k, p, .loop rest (seq + 1) .test⟩, w') ∧ w'.aim = some ⟨d, k, true⟩ := by
  let w₁ : Shared := { w with buf := { w.buf with seq := seq } }
  let w₂ : Shared := { w₁ with
    buf := { w₁.buf with
      payload := ⟨blank.tv, k, p, blank.threadId, blank.timestamp⟩
      padding := blank.padding } }
  let w₃ : Shared := { w₂ with buf := { w₂.buf with cksum := 0 } }
  let w₄ : Shared := { w₃ with buf := { w₃.buf with cksum := inCksum (w₃.buf.bytes pid) } }
  have hown : Sender.Own (done ++ d :: rest) ⟨k, p, .loop rest seq .send⟩ w₄ := ⟨rfl, rfl, d, current_loop, haim⟩
  have htest : aloneStep pid reqs (⟨k, p, .loop rest seq .test⟩, w) blank = some (⟨k, p, .loop rest seq .fill⟩, w₁) :=
    if_pos hseq
  have hfill : aloneStep pid reqs (⟨k, p, .loop rest seq .fill⟩, w₁) blank = some (⟨k, p, .loop rest seq .clear⟩, w₂) := rfl
  have hclear : aloneStep pid reqs (⟨k, p, .loop rest seq .clear⟩, w₂) blank = some (⟨k, p, .loop rest seq .sum⟩, w₃) := rfl
  have hsum : aloneStep pid reqs (⟨k, p, .loop rest seq .sum⟩, w₃) blank = some (⟨k, p, .loop rest seq .send⟩, w₄) := rfl
  have hsend : aloneStep pid reqs (⟨k, p, .loop rest seq .send⟩, w₄) blank =
      some (⟨k, p, .loop rest (seq + 1) .test⟩, w₄.sendto blank) := rfl
  refine ⟨w₄.sendto blank, ?_, (sendto_aim w₄ blank).trans haim⟩
  exact ((((Lts.Path.refl.tail (by trivial) htest).tail (by trivial) hfill).tail (by trivial) hclear).tail
    (by trivial) hsum).tail hown hsend

/-- The numbers of a destination, one after the other. -/
theorem alone_loop (done rest : List String) {d : String} : ∀ (n seq : Nat) (w : Shared), seq + n = reqs →
    w.aim = some ⟨d, k, true⟩ → ∃ w', Lts.Path (aloneStep pid reqs) (OwnStep (done ++ d :: rest))
      (⟨k, p, .loop rest seq .test⟩, w) (⟨k, p, .next rest⟩, w')
  | 0, seq, w, hn, _ => by
    have hend : aloneStep pid reqs (⟨k, p, .loop rest seq .test⟩, w) blank = some (⟨k, p, .next rest⟩, w.free k) :=
      if_neg (by omega)
    exact ⟨w.free k, Lts.Path.refl.tail (by trivial) hend⟩
  | n + 1, seq, w, hn, haim => by
    obtain ⟨w₁, hw₁, haim₁⟩ := alone_request pid p done rest (show seq < reqs by omega) haim
    obtain ⟨w₂, hw₂⟩ := alone_loop done rest n (seq + 1) w₁ (by omega) haim₁
    exact ⟨w₂, hw₁.trans hw₂⟩

/-- The destinations, one after the other. -/
theorem alone_dsts : ∀ (rest done : List String) (w : Shared), ∃ w', Lts.Path (aloneStep pid reqs) (OwnStep (done ++ rest))
    (⟨k, p, .next rest⟩, w) (⟨k, p, .next []⟩, w')
  | [], _, w => ⟨w, .refl⟩
  | d :: rest, done, w => by
    have hat : aloneStep pid reqs (⟨k, p, .next (d :: rest)⟩, w) blank =
        some (⟨k, p, .loop rest 0 .test⟩, w.point ⟨d, k, true⟩) := rfl
    have hpath : Lts.Path (aloneStep pid reqs) (OwnStep (done ++ d :: rest)) _ _ := Lts.Path.refl.tail (by trivial) hat
    obtain ⟨w₁, hw₁⟩ := alone_loop pid p done rest reqs 0 (w.point ⟨d, k, true⟩) (Nat.zero_add _) (point_aim _ _)
    obtain ⟨w₂, hw₂⟩ := alone_dsts rest (done ++ [d]) w₁
    rw [List.append_assoc, List.singleton_append] at hw₂
    exact ⟨w₂, (hpath.trans hw₁).trans hw₂⟩

/-- A thread by itself comes through its list. -/
theorem alone_joined (l : List String) (w : Shared) : ∃ w', Lts.Path (aloneStep pid reqs) (OwnStep l)
    (⟨k, p, .setProto l⟩, w) (⟨k, p, .next []⟩, w') := by
  let w₁ : Shared := { w with prRead := false }
  let w₂ : Shared := w₁.point ⟨host0, k, true⟩
  have haim : w₂.aim.isSome = true := by
    rw [point_aim]
    rfl
  have hproto : aloneStep pid reqs (⟨k, p, .setProto l⟩, w) blank = some (⟨k, p, .setHost l⟩, w₁) := rfl
  have hhost : aloneStep pid reqs (⟨k, p, .setHost l⟩, w₁) blank = some (⟨k, p, .socket l⟩, w₂) := rfl
  have hsocket : aloneStep pid reqs (⟨k, p, .socket l⟩, w₂) blank = some (⟨k, p, .freeHost l⟩, w₂) := by
    simp only [aloneStep, sendStep, haim, if_true]
  have hfree : aloneStep pid reqs (⟨k, p, .freeHost l⟩, w₂) blank = some (⟨k, p, .next l⟩, w₂.free k) := rfl
  obtain ⟨w₃, hw₃⟩ := alone_dsts pid p l [] (w₂.free k)
  have hpath : Lts.Path (aloneStep pid reqs) (OwnStep l) _ _ :=
    (((Lts.Path.refl.tail (by trivial) hproto).tail (by trivial) hhost).tail (by trivial) hsocket).tail (by trivial) hfree
  exact ⟨w₃, hpath.trans hw₃⟩

end Alone

section Joined
variable {F : Type} [Dbl F] {pid : Nat} {l : List String}

/-- A thread may run by itself for a while. -/
theorem path_of_alone {w : Probing F} {i : Nat} {p q : Sender × Shared} (hp : w.senders[i]? = some p.1)
    (hw : w.shared = p.2) (h : Lts.Path (aloneStep pid w.main.cfg.pfrPingReq.toNat) (OwnStep l) p q) :
    Lts.Path (probeStep pid) (Unraced l) w (w.sending i q) := by
  obtain ⟨hi, hget⟩ := List.getElem?_eq_some_iff.mp hp
  induction h with
  | refl =>
    have hsame : w.sending i p = w := by
      rw [Probing.sending, ← hw, ← hget, List.set_getElem_self]
    rw [hsame]
    exact .refl
  | @tail q r x _ hown hs ih =>
    have hat : (w.sending i q).senders[i]? = some q.1 := List.getElem?_set_self hi
    have hset : (w.sending i q).sending i r = w.sending i r := by
      simp only [Probing.sending, List.set_set]
    refine .tail ih (e := .send i x) ?_ ?_
    · intro th hth
      rw [hat] at hth
      cases hth
      exact hown
    · simp only [probeStep]
      rw [hat, Option.bind_some, ← hset]
      exact congrArg _ hs

/-- **Every round can be gone through like this**: the threads one after the other. -/
theorem exists_joined (w : Probing F) (h : ∀ th ∈ w.senders, th.pc = .setProto l) :
    ∃ u, Lts.Path (probeStep pid) (Unraced l) w u ∧ u.joined := by
  have hrest : ∀ (todo : List Sender) (done : List Sender) (w : Probing F), w.senders = done ++ todo →
      (∀ th ∈ done, th.pc = .next []) → (∀ th ∈ todo, th.pc = .setProto l) →
      ∃ u, Lts.Path (probeStep pid) (Unraced l) w u ∧ u.joined := by
    intro todo
    induction todo with
    | nil =>
      intro done w hw hdone _
      refine ⟨w, .refl, ?_⟩
      rw [Probing.joined, hw, List.append_nil]
      exact hdone
    | cons th todo ih =>
      intro done w hw hdone htodo
      obtain ⟨k, p, pc⟩ := th
      obtain rfl : pc = .setProto l := htodo _ List.mem_cons_self
      obtain ⟨w', hw'⟩ := alone_joined pid p l w.shared
      have hat : w.senders[done.length]? = some ⟨k, p, .setProto l⟩ := by simp [hw]
      have hsenders : (w.sending done.length (⟨k, p, .next []⟩, w')).senders = (done ++ [⟨k, p, .next []⟩]) ++ todo := by
        simp [Probing.sending, hw]
      have hdone' : ∀ th ∈ done ++ [⟨k, p, .next []⟩], th.pc = .next [] := by
        intro th hth
        rcases List.mem_append.mp hth with hth | hth
        · exact hdone th hth
        · rw [List.mem_singleton.mp hth]
      obtain ⟨u, hu, hjoined⟩ := ih _ _ hsenders hdone' fun th hth => htodo th (List.mem_cons_of_mem _ hth)
      exact ⟨u, (path_of_alone hat rfl hw').trans hu, hjoined⟩
  exact hrest w.senders [] w rfl nofun h

/-! ## The claim of the list -/

/-- The list as it is handed to the threads. -/
def dstTexts (l : List PfrDst) : List String := l.map fun d => String.ofList d.ipv4

omit [Dbl F] in
theorem dests_dstTexts (l : List PfrDst) : dests (dstTexts l) = l.map PfrDst.dest := by
  simp [dests, dstTexts, PfrDst.dest]

/-- Nothing was asked for twice since the state `s`, from which the round was started; and
once the threads are joined each peer has asked each destination for as many replies as
the loss assumes. -/
def RequestedOnce (l : List PfrDst) (s w : Probing F) : Prop :=
  ∃ new, w.shared.sent = new ++ s.shared.sent ∧ (new.map SentPacket.request).Nodup ∧
    (w.joined → ∀ d ∈ l, ∀ k ∈ s.main.mem.mm,
      (new.map SentPacket.request).countP (fun q => q.On d.dest k) = s.main.cfg.pfrPingReq.toNat)

/-- **When every destination is probed once.** For every run, any number of requests, any
peers and any round of the daemon with the list: its addresses differ, and in every
interleaving of the statements of the threads in which none sends what another one wrote
nothing is asked for twice and every path as often as the loss assumes, exactly if in the
round whose list is in use the addresses that pass the filters and those of the table all
differ, and the numbers fit into `icmp_seq` or nothing is sent. -/
theorem probed_once_iff {customerId : Int} {src0 : Source} {srcs : List Source} {l : List PfrDst}
    (h : pfrList customerId src0 srcs = some l) {s : Probing F} {t : State F}
    (hstart : step s.main (.start (dstTexts l)) = some t) :
    ((l.map PfrDst.dest).Nodup ∧ ∀ w, Lts.Path (probeStep pid) (Unraced (dstTexts l)) (s.started (dstTexts l) t) w →
        RequestedOnce l s w) ↔
      DistinctDsts (origin customerId src0 srcs) ∧ (s.main.cfg.pfrPingReq ≤ 65536 ∨ (∀ k, k ∉ s.main.mem.mm) ∨
        ∀ ip, ¬(ip ∈ (origin customerId src0 srcs).2.db.pfrDst ∨ Accepted (origin customerId src0 srcs) ip)) := by
  have hbuilt := pfrList_origin h
  have hkeys : s.main.mem.mm.keys.Nodup := ExtTreeMap.nodup_keys
  rw [hbuilt.nodup_iff, ← hbuilt.eq_nil_iff]
  refine and_congr_right fun hdistinct => ?_
  have hl : (l.map PfrDst.dest).Nodup := hbuilt.nodup_iff.mpr hdistinct
  constructor
  · intro hall
    have hthreads : ∀ th ∈ (s.started (dstTexts l) t).senders, th.pc = .setProto (dstTexts l) := by
      intro th hth
      obtain ⟨k, -, rfl⟩ := List.mem_map.mp hth
      rfl
    -- the threads one after the other ask for everything
    have hend : ∃ w, Lts.Path (probeStep pid) (Unraced (dstTexts l)) (s.started (dstTexts l) t) w ∧ w.joined :=
      exists_joined _ hthreads
    obtain ⟨w, hw, hjoined⟩ := hend
    obtain ⟨new, hnew, -, hperm⟩ := asking_of_path hstart hw
    obtain ⟨new', hnew', hnodup, -⟩ := hall w hw
    obtain rfl : new = new' := List.append_cancel_right (hnew.symm.trans hnew')
    have hreq := ((hperm hjoined).nodup_iff).mp hnodup
    rw [dests_dstTexts] at hreq
    by_cases hnil : l = []
    · exact Or.inr (Or.inr hnil)
    · obtain ⟨d, hd⟩ := List.exists_mem_of_ne_nil l hnil
      by_cases hk : ∃ k, k ∈ s.main.mem.mm
      · obtain ⟨k, hk⟩ := hk
        have hfits := fits_of_nodup hreq (ExtTreeMap.mem_keys.mpr hk) (List.mem_map_of_mem hd)
        exact Or.inl (by omega)
      · exact Or.inr (Or.inl (not_exists.mp hk))
  · intro hfits w hw
    obtain ⟨new, hnew, hsub, hperm⟩ := asking_of_path hstart hw
    rw [dests_dstTexts] at hsub hperm
    refine ⟨new, hnew, ?_, ?_⟩
    · have hreq : (requests s.main.cfg.pfrPingReq.toNat s.main.mem.mm.keys (l.map PfrDst.dest)).Nodup := by
        rcases hfits with hseq | hnone | hnil
        · exact requests_nodup (by omega) hkeys hl
        · rw [requests_eq_nil (Or.inl (List.eq_nil_iff_forall_not_mem.mpr fun k hk => hnone k (ExtTreeMap.mem_keys.mp hk)))]
          exact List.nodup_nil
        · rw [requests_eq_nil (Or.inr (by rw [hnil]; rfl))]
          exact List.nodup_nil
      obtain ⟨part, hpart, hsublist⟩ := hsub
      exact (hpart.nodup_iff).mp (hreq.sublist hsublist)
    · intro hjoined d hd k hk
      rw [(hperm hjoined).countP_eq, countP_requests, List.count_eq_one_of_mem hkeys (ExtTreeMap.mem_keys.mpr hk),
        List.count_eq_one_of_mem hl (List.mem_map_of_mem hd), Nat.one_mul, Nat.one_mul]

end Joined

/-- The peers of the runs. -/
def twoPeers : Probing ℚ := .init Config.default 50000 (.ofRows [(1, default), (2, default)])

/-- Two flows to different destinations, one of the table, two peers: a round to its end. -/
theorem probed_once_run :
    let db : Db := ⟨[7], [(7, "10.0.0.0/8".toList)], ["203.0.113.1".toList]⟩
    let src0 := Source.clean "10.1.0.1,198.51.100.7:10.1.0.2,198.51.100.8".toList db
    ∃ l t w, (pfrList 7 src0 [] = some l ∧ l.length = 3) ∧ step twoPeers.main (.start (dstTexts l)) = some t ∧
      (Lts.Path (probeStep 7) (Unraced (dstTexts l)) (twoPeers.started (dstTexts l) t) w ∧ w.joined) ∧
      (l.map PfrDst.dest).Nodup ∧ RequestedOnce l twoPeers w := by
  intro db src0
  obtain ⟨l, hl, hlen⟩ : ∃ l ∈ pfrList 7 src0 [], l.length = 3 := by decide +kernel
  obtain ⟨t, ht⟩ : ∃ t, step twoPeers.main (.start (dstTexts l)) = some t := ⟨_, rfl⟩
  have hthreads : ∀ th ∈ (twoPeers.started (dstTexts l) t).senders, th.pc = .setProto (dstTexts l) := by
    intro th hth
    obtain ⟨k, -, rfl⟩ := List.mem_map.mp hth
    rfl
  have hend : ∃ w, Lts.Path (probeStep 7) (Unraced (dstTexts l)) (twoPeers.started (dstTexts l) t) w ∧ w.joined :=
    exists_joined _ hthreads
  obtain ⟨w, hw, hjoined⟩ := hend
  obtain ⟨hnodup, hall⟩ := (probed_once_iff hl ht).mpr ⟨by decide +kernel, Or.inl (by decide)⟩
  exact ⟨l, t, w, ⟨hl, hlen⟩, ht, ⟨hw, hjoined⟩, hnodup, hall w hw⟩

/-- Two sources of the customer talk to one destination. -/
theorem probed_twice : ¬∀ (customerId : Int) (src0 : Source) (srcs : List Source) (l : List PfrDst),
    pfrList customerId src0 srcs = some l → ∀ (pid : Nat) (s : Probing ℚ) (t : State ℚ),
    step s.main (.start (dstTexts l)) = some t →
      (l.map PfrDst.dest).Nodup ∧ ∀ w, Lts.Path (probeStep pid) (Unraced (dstTexts l)) (s.started (dstTexts l) t) w →
        RequestedOnce l s w := by
  intro hall
  let src0 := Source.clean "10.1.0.1,198.51.100.7:10.1.0.2,198.51.100.7".toList ⟨[7], [(7, "10.0.0.0/8".toList)], []⟩
  obtain ⟨l, hl, hdup⟩ : ∃ l ∈ pfrList 7 src0 [], ¬(l.map PfrDst.dest).Nodup := by decide +kernel
  exact hdup (hall 7 src0 [] l hl 7 twoPeers _ rfl).1

/-- One address, written in two ways. -/
example :
    let src0 := Source.clean "10.1.0.1,198.51.100.7:10.1.0.2,198.51.100.07".toList ⟨[7], [(7, "10.0.0.0/8".toList)], []⟩
    ∃ l ∈ pfrList 7 src0 [], (l.map PfrDst.ipv4).Nodup ∧ ¬(l.map PfrDst.dest).Nodup := by
  decide +kernel

/-- A race: the thread of peer 2 fills the buffer before that of peer 1 has sent it, and the
number 0 of peer 2 goes out twice. -/
example :
    let turns : Nat → Nat → List (ProbeEvent ℚ) := fun i n => List.replicate n (.send i blank)
    let events := .main (.start ["198.51.100.7"]) :: (turns 0 9 ++ turns 1 9 ++ turns 0 1 ++ turns 1 1)
    let q : Request := ⟨destOf "198.51.100.7".toList, 2, 0⟩
    (Lts.exec (probeStep 7) twoPeers events).map (fun w => w.shared.sent.map SentPacket.request) = some [q, q] := by
  decide +kernel

end Pfr

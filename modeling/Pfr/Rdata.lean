import Pfr.Lib.OrdMap
import Pfr.Lib.Dbl
import Pfr.Lib.Journal

/- The daemon's data: the probe records `r`, the routing decisions `route`, the
   log `route_log1`, the peer table and what has been sent to gobgp.

   Correspondence (C++ ↔ Lean):
     `tparm`, `rt_parm`, `tlog`, `pfr_peer`  ↔ `Tparm`, `RtParm`, `Tlog`, `PfrPeer`
     `r[dst_ip][probe_id][peer_id][seq_num]` ↔ `RData`, a map at each level
     a pointer stored in a map              ↔ `Option`, `none` being NULL
     `m[k]`                                 ↔ `idx` to read, `upd` to write
     a phase that dereferences NULL         ↔ `none` as the phase's result
   A destination is its dotted text, as in the source; probe, peer and sequence
   numbers are the `int` keys. A `double` is an element of any `F` with the
   operations of `Dbl`. Fields no modelled function reads are left out. -/
namespace Pfr

open Std

/-- One reply (`rtt`, `timestamp`), or the aggregate of a peer at key 99. -/
structure Tparm (F : Type) where
  rtt : F
  avgRtt : F
  lost : Int
  timestamp : Int
  minRtt : F
  maxRtt : F
  stddevRtt : F
  medianaRtt : F
  metric0 : F
  metric1 : F

/-- `tparm(rtt, avg_rtt, lost, timestamp)`. The constructor leaves the other
fields unset, here 0. A phase reads one that was never set only where a reply numbered
99 came to stand at the key of the aggregate, as its `metric1`. -/
def Tparm.new {F : Type} [Dbl F] (rtt avgRtt : F) (lost timestamp : Int) : Tparm F where
  rtt := rtt
  avgRtt := avgRtt
  lost := lost
  timestamp := timestamp
  minRtt := Dbl.num 0
  maxRtt := Dbl.num 0
  stddevRtt := Dbl.num 0
  medianaRtt := Dbl.num 0
  metric0 := Dbl.num 0
  metric1 := Dbl.num 0

@[simp] theorem Tparm.new_timestamp {F : Type} [Dbl F] (rtt avgRtt : F) (lost timestamp : Int) :
    (Tparm.new rtt avgRtt lost timestamp).timestamp = timestamp := rfl

structure RtParm (F : Type) where
  prevPeerId : Int
  pminRtt : F
  currPeerId : Int
  cminRtt : F

/-- A row of `route_log1`. The constructor never assigns `timestamp`. -/
structure Tlog (F : Type) where
  peerId : Int
  rtt : F
  avgRtt : F
  minRtt : F
  maxRtt : F
  stddevRtt : F
  medianaRtt : F
  lost : Int

/-- What the announcements use of a peer. -/
structure PfrPeer where
  ipv4PeerAddress : String
  peerCommunity : String
  deriving DecidableEq, Repr, Inhabited

abbrev Samples (F : Type) := ExtTreeMap Int (Option (Tparm F))
abbrev Peers (F : Type) := ExtTreeMap Int (Samples F)
abbrev Probes (F : Type) := ExtTreeMap Int (Peers F)
abbrev RData (F : Type) := ExtTreeMap String (Probes F)
abbrev Hops (F : Type) := ExtTreeMap Int (Option (RtParm F))
abbrev RouteMap (F : Type) := ExtTreeMap String (Hops F)
abbrev LogMap (F : Type) := ExtTreeMap String (ExtTreeMap Int (Option (Tlog F)))
abbrev PeerMap := ExtTreeMap Int PfrPeer

/-- The peer table `main` loads from the rows of the database: `insert` keeps the first row
of an id. -/
def PeerMap.ofRows (rows : List (Int × PfrPeer)) : PeerMap := rows.foldl (fun m row => m.insertIfNew row.1 row.2) ∅

/-- `path_metric`, one of the six names `load_configuration_file` accepts. -/
inductive PathMetric where
  | metric0 | metric1 | metric2 | metric3 | metric4 | metric5
  deriving DecidableEq, Repr

/-- The configuration variables the phases read; `min_rtt`, which the scan also
writes, is part of the memory. -/
structure Config where
  pfrPingReq : Int
  deepDelete : Int
  rttLeastThresh : Int
  rttLeastMove : Bool
  pathMetric : PathMetric
  enableAdvertise : Bool
  enableAdvertiseSame : Bool
  enableExplicitWithdraw : Bool
  deriving DecidableEq, Repr

/-- The values the variables have before the configuration file is read. -/
def Config.default : Config where
  pfrPingReq := 5
  deepDelete := 3
  rttLeastThresh := 10
  rttLeastMove := true
  pathMetric := .metric0
  enableAdvertise := true
  enableAdvertiseSame := true
  enableExplicitWithdraw := false

/-- A call of `pfr_create_set_jrouter_rt` or of `pfr_delete_set_jrouter_rt`. -/
inductive Call where
  | create : (probeId prevPeerId currPeerId : Int) → (dstIp : String) → Call
  | delete : (currPeerId : Int) → (dstIp : String) → Call
  deriving DecidableEq, Repr

/-- The peer a call names as the current one. -/
def Call.currPeer : Call → Int
  | .create _ _ curr _ => curr
  | .delete curr _ => curr

/-- The destination a call is about. -/
def Call.dstIp : Call → String
  | .create _ _ _ d => d
  | .delete _ d => d

/-- The peer a route is announced through or withdrawn from, with the next hop and
the community of the command. -/
structure Via where
  peer : Int
  nh : String
  comm : String
  deriving DecidableEq, Repr

/-- The globals of the daemon, the peer table `m` of `main`, and, newest first, the
router calls made and the commands sent to gobgp. -/
structure Mem (F : Type) where
  r : RData F
  route : RouteMap F
  routeLog1 : LogMap F
  minRtt : F
  mm : PeerMap
  calls : List Call
  cmds : List (Journal.Entry String Via)

/-- The gobgp table: what each destination is announced through. -/
def rib {F : Type} (m : Mem F) : String → Option Via := Journal.table m.cmds

section Access
variable {F : Type}

/-- `r[dst_ip][probe_id]`. -/
def peersAt (r : RData F) (dstIp : String) (probeId : Int) : Peers F := (r.idx dstIp).idx probeId

/-- `r[dst_ip][probe_id][peer_id][99]`. -/
def aggAt (peers : Peers F) (peerId : Int) : Option (Tparm F) := (peers.idx peerId).idx 99

/-- `route[dst_ip][probe_id]`. -/
def hopAt (route : RouteMap F) (dstIp : String) (probeId : Int) : Option (RtParm F) :=
  (route.idx dstIp).idx probeId

/-- `route[dst_ip][probe_id - 1]` under the two `count` tests; the outer `none` is
a NULL there. -/
def prevHop (hops : Hops F) (probeId : Int) : Option (Option (RtParm F)) :=
  if probeId - 1 ∈ hops then (hops.idx (probeId - 1)).map some else some none

/-- A read that met no NULL gives what is stored, if anything. -/
theorem prevHop_eq {hops : Hops F} {p : Int} {prev : Option (RtParm F)} (h : prevHop hops p = some prev) :
    prev = hops.idx (p - 1) := by
  unfold prevHop at h
  split at h
  · obtain ⟨rp, hrp, rfl⟩ := Option.map_eq_some_iff.mp h
    exact hrp.symm
  · next hm =>
    cases h
    exact (ExtTreeMap.idx_of_not_mem hm).symm

theorem prevHop_isSome {hops : Hops F} {p : Int} (h : ∀ v, hops[p - 1]? = some v → v.isSome) :
    ∃ prev, prevHop hops p = some prev := by
  unfold prevHop
  split
  · next hm =>
    obtain ⟨rp, hrp⟩ := Option.isSome_iff_exists.mp (h _ (ExtTreeMap.getElem?_idx hm))
    exact ⟨_, by rw [hrp]; rfl⟩
  · exact ⟨none, rfl⟩

theorem hopAt_congr {route route' : RouteMap F} {d : String} (h : route[d]? = route'[d]?) (p : Int) :
    hopAt route d p = hopAt route' d p := by
  rw [hopAt, hopAt, ExtTreeMap.idx_congr h]

/-- A decision that is stored is stored for a destination of `route`. -/
theorem mem_of_hopAt {route : RouteMap F} {d : String} {p : Int} {rp : RtParm F}
    (h : hopAt route d p = some rp) : d ∈ route := by
  by_contra hd
  rw [hopAt, ExtTreeMap.idx_of_not_mem hd] at h
  change (∅ : Hops F).idx p = some rp at h
  rw [ExtTreeMap.idx_empty] at h
  cases h

/-- An absent peer has no aggregate. -/
theorem aggAt_eq (peers : Peers F) (k : Int) : aggAt peers k = peers[k]?.bind (·.idx 99) := by
  unfold aggAt
  by_cases hk : k ∈ peers
  · rw [ExtTreeMap.getElem?_idx hk, Option.bind_some]
  · have hnone : peers[k]? = none := ExtTreeMap.getElem?_eq_none hk
    rw [ExtTreeMap.idx_of_not_mem hk, hnone]
    change (∅ : Samples F).idx 99 = none
    rw [ExtTreeMap.idx_empty]
    rfl

theorem aggAt_of_mem_toList {peers : Peers F} {kv : Int × Samples F} (h : kv ∈ peers.toList) :
    aggAt peers kv.1 = kv.2.idx 99 := by
  rw [aggAt, ExtTreeMap.idx_of_getElem? (ExtTreeMap.mem_toList_iff_getElem?_eq_some.mp h)]

theorem mem_toList_of_mem {peers : Peers F} {k : Int} (h : k ∈ peers) : (k, peers.idx k) ∈ peers.toList :=
  ExtTreeMap.mem_toList_iff_getElem?_eq_some.mpr (ExtTreeMap.getElem?_idx h)

theorem mem_of_aggAt {peers : Peers F} {k : Int} {tp : Tparm F} (h : aggAt peers k = some tp) : k ∈ peers := by
  by_contra hk
  rw [aggAt, ExtTreeMap.idx_of_not_mem hk] at h
  change (∅ : Samples F).idx 99 = some tp at h
  rw [ExtTreeMap.idx_empty] at h
  cases h

/-- Reading `[99]` of every peer leaves the aggregates as they were. -/
theorem aggAt_touched (peers : Peers F) (k : Int) : aggAt (peers.map (fun _ s => s.upd 99 id)) k = aggAt peers k := by
  by_cases hk : k ∈ peers
  · have hmap : (peers.map (fun _ s => s.upd 99 id))[k]? = some ((peers.idx k).upd 99 id) := by
      rw [ExtTreeMap.getElem?_map, ExtTreeMap.getElem?_idx hk, Option.map_some]
    rw [aggAt, ExtTreeMap.idx_of_getElem? hmap, ExtTreeMap.idx_upd_id, aggAt]
  · have hk' : k ∉ peers.map (fun _ s => s.upd 99 id) := fun h => hk (ExtTreeMap.mem_map.mp h)
    rw [aggAt, ExtTreeMap.idx_of_not_mem hk', aggAt, ExtTreeMap.idx_of_not_mem hk]

/-- A sample is stored under a path of the records. -/
theorem path_of_sample {r : RData F} {d : String} {q k s : Int} (h : s ∈ (peersAt r d q).idx k) :
    d ∈ r ∧ k ∈ peersAt r d q := by
  have hk : k ∈ peersAt r d q := by
    by_contra hk
    rw [ExtTreeMap.idx_of_not_mem hk] at h
    exact ExtTreeMap.not_mem_empty h
  refine ⟨?_, hk⟩
  by_contra hd
  rw [peersAt, ExtTreeMap.idx_of_not_mem hd] at hk
  change k ∈ (∅ : Probes F).idx q at hk
  rw [ExtTreeMap.idx_empty] at hk
  exact ExtTreeMap.not_mem_empty hk

end Access

section Replies
variable {F : Type} [Dbl F]

/-- What `proc_v4` decodes from an echo reply. -/
structure Reply (F : Type) where
  src : String
  probeId : Int
  peerId : Int
  seq : Int
  rtt : F
  timestamp : Int

/-- The first copy of a sequence number is kept. -/
def putSample (x : Reply F) (samples : Samples F) : Samples F :=
  if (samples.idx x.seq).isNone then samples.insert x.seq (some (Tparm.new x.rtt (Dbl.num 0) 0 x.timestamp))
  else samples

/-- The store at the end of `proc_v4`:
`if(r[src][probe_id][peer_id][seq] == NULL) r[src][probe_id][peer_id][seq] = new tparm(..)`. -/
def record (x : Reply F) (r : RData F) : RData F :=
  r.upd x.src fun probes => probes.upd x.probeId fun peers => peers.upd x.peerId (putSample x)

theorem mem_record {x : Reply F} {r : RData F} {d : String} : d ∈ record x r ↔ x.src = d ∨ d ∈ r :=
  ExtTreeMap.mem_upd

theorem record_idx_ne {x : Reply F} {r : RData F} {d : String} (h : x.src ≠ d) :
    (record x r).idx d = r.idx d := by
  rw [record, ExtTreeMap.idx_upd, if_neg h]

/-- A reply touches one peer's samples and leaves the others. -/
theorem peersAt_record (x : Reply F) (r : RData F) (d : String) (p : Int) :
    peersAt (record x r) d p =
      if x.src = d ∧ x.probeId = p then (peersAt r d p).upd x.peerId (putSample x) else peersAt r d p := by
  by_cases hd : x.src = d
  · subst hd
    by_cases hp : x.probeId = p
    · subst hp
      simp [peersAt, record, ExtTreeMap.idx_upd]
    · simp [peersAt, record, ExtTreeMap.idx_upd, hp]
  · simp [peersAt, record_idx_ne hd, hd]

/-- The samples of a path after a reply. -/
theorem samples_record (x : Reply F) (r : RData F) (d : String) (p k : Int) :
    (peersAt (record x r) d p).idx k =
      if x.src = d ∧ x.probeId = p ∧ x.peerId = k then putSample x ((peersAt r d p).idx k) else (peersAt r d p).idx k := by
  rw [peersAt_record]
  by_cases h : x.src = d ∧ x.probeId = p
  · rw [if_pos h, ExtTreeMap.idx_upd]
    by_cases hk : x.peerId = k
    · rw [if_pos hk, if_pos ⟨h.1, h.2, hk⟩, hk]
    · rw [if_neg hk, if_neg (fun hall => hk hall.2.2)]
  · rw [if_neg h, if_neg (fun hall => h ⟨hall.1, hall.2.1⟩)]

/-- `r[src][probe_id][peer_id][seq]` for a reply. -/
def sampleAt (r : RData F) (x : Reply F) : Option (Tparm F) :=
  ((peersAt r x.src x.probeId).idx x.peerId).idx x.seq

/-- A further copy of a reply changes nothing. -/
theorem record_of_stored {r : RData F} {x : Reply F} (h : (sampleAt r x).isSome) : record x r = r := by
  have hpeer : x.peerId ∈ peersAt r x.src x.probeId := by
    by_contra hno
    rw [sampleAt, ExtTreeMap.idx_of_not_mem hno] at h
    change ((∅ : Samples F).idx x.seq).isSome at h
    rw [ExtTreeMap.idx_empty] at h
    cases h
  have hprobe : x.probeId ∈ r.idx x.src := by
    by_contra hno
    rw [peersAt, ExtTreeMap.idx_of_not_mem hno] at hpeer
    exact ExtTreeMap.not_mem_empty hpeer
  have hsrc : x.src ∈ r := by
    by_contra hno
    rw [ExtTreeMap.idx_of_not_mem hno] at hprobe
    exact ExtTreeMap.not_mem_empty hprobe
  have hput : putSample x ((peersAt r x.src x.probeId).idx x.peerId) = (peersAt r x.src x.probeId).idx x.peerId := by
    rw [putSample, if_neg]
    rw [sampleAt] at h
    simp [Option.isNone_iff_eq_none, Option.isSome_iff_ne_none.mp h]
  exact ExtTreeMap.upd_eq_self hsrc (ExtTreeMap.upd_eq_self hprobe (ExtTreeMap.upd_eq_self hpeer hput))

/-- The first copy is stored. -/
theorem sampleAt_record {r : RData F} {x : Reply F} (h : sampleAt r x = none) :
    sampleAt (record x r) x = some (Tparm.new x.rtt (Dbl.num 0) 0 x.timestamp) := by
  rw [sampleAt] at h
  rw [sampleAt, peersAt_record, if_pos ⟨rfl, rfl⟩, ExtTreeMap.idx_upd, if_pos rfl, putSample, h]
  simp [ExtTreeMap.idx_insert]

/-- A stored sample is one that was there or the reply's. -/
theorem putSample_cases {x : Reply F} {samples : Samples F} {s : Int} {v : Option (Tparm F)}
    (h : (putSample x samples)[s]? = some v) :
    samples[s]? = some v ∨ (s = x.seq ∧ v = some (Tparm.new x.rtt (Dbl.num 0) 0 x.timestamp)) := by
  unfold putSample at h
  split at h
  · rw [ExtTreeMap.getElem?_insert] at h
    simp only [LawfulEqCmp.compare_eq_iff_eq] at h
    split at h
    · next he => exact Or.inr ⟨he.symm, (Option.some.inj h).symm⟩
    · exact Or.inl h
  · exact Or.inl h

end Replies

end Pfr

import Pfr.MainLoop
import Pfr.Lib.Arena

/- The objects behind the maps. In the source `r`, `route` and `route_log1` hold pointers;
   `proc_v4`, `pfr_calc_avg_rtt` and `pfr_route_scan` allocate what these point to, and
   `pfr_route_free`, `pfr_route_update` and `pfr_delete_r_route` delete it. Here each
   function does to the pointers and to the objects what the source's does; what it computes
   it computes from the objects as in the modules of the values. An access through a pointer
   whose object is gone, and a second `delete` of one object, have no result.

   Correspondence (C++ ↔ Lean):
     `new tparm`, `new rt_parm`, `new tlog`   ↔ `Arena.new` of `tparms`, `rtParms`, `tlogs`
     `delete r[..][seq_id]`                   ↔ `deletePeers`
     `tp99->set_stddev_rtt(..)`               ↔ `Arena.set`
     reading through the pointers of a map    ↔ `view`
   What is sent to gobgp and the peer table own no object and are left to `Mem`. -/
namespace Pfr

open Std Own

abbrev PtrSamples := ExtTreeMap Int (Option Addr)
abbrev PtrPeers := ExtTreeMap Int PtrSamples
abbrev PtrProbes := ExtTreeMap Int PtrPeers
abbrev PtrRData := ExtTreeMap String PtrProbes
abbrev PtrMap := ExtTreeMap String (ExtTreeMap Int (Option Addr))

/-- `r`, `route` and `route_log1`, with the objects, and `min_rtt`. -/
structure PtrMem (F : Type) where
  r : PtrRData
  route : PtrMap
  routeLog1 : PtrMap
  tparms : Arena (Tparm F)
  rtParms : Arena (RtParm F)
  tlogs : Arena (Tlog F)
  minRtt : F

def PtrMem.init {F : Type} (minRtt : F) : PtrMem F where
  r := ∅
  route := ∅
  routeLog1 := ∅
  tparms := .empty
  rtParms := .empty
  tlogs := .empty
  minRtt := minRtt

section Deletes
variable {F : Type}

/-- The loops over `it2` and `it3`. -/
def deletePeers (peers : PtrPeers) (h : Arena (Tparm F)) : Option (Arena (Tparm F)) :=
  peers.toList.foldlM (fun h kv => kv.2.toList.foldlM (fun h sv => h.delete sv.2) h) h

/-- One destination of `pfr_route_free`; `probe_id` is already the freed one. -/
def routeFreeDstPtr (probeId : Int) (m : PtrMem F) (dstIp : String) : Option (PtrMem F) := do
  let tparms ← deletePeers ((m.r.idx dstIp).idx probeId) m.tparms
  let rtParms ← m.rtParms.delete ((m.route.idx dstIp).idx probeId)
  return { m with
    r := m.r.upd dstIp fun probes => probes.insert probeId ∅
    route := m.route.upd dstIp fun hops => hops.erase probeId
    tparms := tparms
    rtParms := rtParms }

def pfrRouteFreePtr (probeId : Nat) (m : PtrMem F) : Option (PtrMem F) :=
  if probeId < 2 then some m
  else m.r.keys.foldlM (routeFreeDstPtr (probeId - 2 : Int)) m

/-- The body of the loops over `r[dst_ip]` in `pfr_route_update` and `pfr_delete_r_route`. -/
def dropProbePtr (dstIp : String) (m : PtrMem F) (probeId : Int) : Option (PtrMem F) := do
  let tparms ← deletePeers ((m.r.idx dstIp).idx probeId) m.tparms
  let rtParms ← m.rtParms.delete ((m.route.idx dstIp).idx probeId)
  return { m with
    r := m.r.upd dstIp fun probes => probes.erase probeId
    route := m.route.upd dstIp fun hops => hops.erase probeId
    tparms := tparms
    rtParms := rtParms }

/-- The whole loop, and `r.erase` and `route.erase` after it. -/
def dropDstPtr (dstIp : String) (m : PtrMem F) : Option (PtrMem F) := do
  let m ← (m.r.idx dstIp).keys.foldlM (dropProbePtr dstIp) m
  return { m with r := m.r.erase dstIp, route := m.route.erase dstIp }

/-- The parameter `probe_id` of `pfr_route_update`, which its loops assign, and the memory. -/
structure UpdPtr (F : Type) where
  probeId : Int
  mem : PtrMem F

def updateStepPtr (dstList : List String) (s : UpdPtr F) (dstIp : String) : Option (UpdPtr F) :=
  if dstIp ∈ dstList then some s
  else do
    -- `route[dst_ip][probe_id - 1]->get_curr_peer()`, for the withdrawal
    let hops ← View.view s.mem.rtParms (s.mem.route.idx dstIp)
    let _ ← prevHop hops s.probeId
    let m ← dropDstPtr dstIp s.mem
    return ⟨(s.mem.r.idx dstIp).keys.getLast?.getD s.probeId, m⟩

def pfrRouteUpdatePtr (probeId : Int) (dstList : List String) (m : PtrMem F) : Option (PtrMem F) :=
  (m.r.keys.foldlM (updateStepPtr dstList) ⟨probeId, m⟩).map (·.mem)

def deleteRoutedPtr (probeId : Int) (dstIp : String) (m : PtrMem F) : Option (PtrMem F) :=
  match (m.route.idx dstIp).idx probeId with
  | none => some m
  | some a => do
    -- `route[dst_ip][probe_id]->get_curr_peer()`
    let _ ← m.rtParms.get a
    dropDstPtr dstIp m

/-- The loop over `route_log1`. -/
def deleteWalkPtr (flag : String → PtrMem F → Option Bool) (probeId : Int) (m : PtrMem F) : Option (PtrMem F) :=
  m.routeLog1.keys.foldlM (fun t d => do
    let deleteFlag ← flag d t
    if deleteFlag then deleteRoutedPtr probeId d t else some t) m

def pfrDeletePtr (cfg : Config) (probeId : Int) (m : PtrMem F) : Option (PtrMem F) :=
  if probeId ≤ cfg.deepDelete then some m
  else deleteWalkPtr (fun d t => do
    let log ← View.view t.tlogs (t.routeLog1.idx d)
    deleteFlag log probeId (List.range (cfg.deepDelete + 1).toNat)) probeId m

def pfrDeleteAllPtr (probeId : Int) (m : PtrMem F) : Option (PtrMem F) := deleteWalkPtr (fun _ _ => some true) probeId m

/-- `pfr_routes_man` reads every destination's decision and changes none. -/
def pfrRoutesManPtr (probeId : Nat) (m : PtrMem F) : Option (PtrMem F) :=
  m.route.keys.foldlM (fun t d => (t.rtParms.deref ((t.route.idx d).idx probeId)).map fun _ => t) m

end Deletes

section Allocations
variable {F : Type} [Dbl F]

/-- The store at the end of `proc_v4`. -/
def recordPtr (x : Reply F) (m : PtrMem F) : PtrMem F :=
  let samples := ((m.r.idx x.src).idx x.probeId).idx x.peerId
  let put := fun samples' : PtrSamples =>
    m.r.upd x.src fun probes => probes.upd x.probeId fun peers => peers.insert x.peerId samples'
  if (samples.idx x.seq).isNone then
    { m with
      r := put (samples.insert x.seq (some m.tparms.next))
      tparms := m.tparms.new (Tparm.new x.rtt (Dbl.num 0) 0 x.timestamp) }
  else { m with r := put samples }

/-- One peer of `pfr_calc_avg_rtt`: what key 99 pointed to before is overwritten. -/
def calcPeerPtr (cfg : Config) (samples : PtrSamples) (h : Arena (Tparm F)) : Option (PtrSamples × Arena (Tparm F)) := do
  let read ← View.view h samples
  let a ← calcLoop read
  return (samples.insert 99 (some h.next), h.new (aggregate cfg a))

/-- One peer of `pfr_calc_stddev_rtt`: `tp99` is written in place. -/
def stddevPeerPtr (samples : PtrSamples) (h : Arena (Tparm F)) : Option (PtrSamples × Arena (Tparm F)) := do
  let read ← View.view h samples
  let done ← stddevPeer read
  let tp99 ← samples.idx 99
  let h' ← h.set tp99 (← done.idx 99)
  return (samples, h')

/-- `for it0 in r, for it2 in r[dst_ip][probe_id]`. -/
def mapPeersPtr (g : PtrSamples → Arena (Tparm F) → Option (PtrSamples × Arena (Tparm F))) (probeId : Int) (m : PtrMem F) :
    Option (PtrMem F) :=
  (mapValsS (fun _ probes h => (mapValsS (fun _ samples h => g samples h) (probes.idx probeId) h).map
    fun out => (probes.insert probeId out.1, out.2)) m.r m.tparms).map fun out => { m with r := out.1, tparms := out.2 }

def pfrCalcAvgRttPtr (cfg : Config) (probeId : Int) (m : PtrMem F) : Option (PtrMem F) :=
  mapPeersPtr (calcPeerPtr cfg) probeId m

def pfrCalcStddevRttPtr (probeId : Int) (m : PtrMem F) : Option (PtrMem F) := mapPeersPtr stddevPeerPtr probeId m

/-- Reading `[99]` of the peers inserts a NULL where it is absent; round 0 reads the first only. -/
def touchPeers {α : Type} (probeId : Nat) (peers : ExtTreeMap Int (ExtTreeMap Int (Option α))) :
    ExtTreeMap Int (ExtTreeMap Int (Option α)) :=
  if probeId = 0 then
    match peers.keys.head? with
    | none => peers
    | some k => peers.upd k fun samples => samples.upd 99 id
  else peers.map fun _ samples => samples.upd 99 id

/-- `route[dst_ip][probe_id] = new rt_parm(..)`, if the body makes a decision. -/
def storeHop (dstIp : String) (probeId : Int) (hop : Option (RtParm F)) (m : PtrMem F) : PtrMem F :=
  match hop with
  | none => m
  | some rp => { m with
      route := m.route.upd dstIp fun hops => hops.insert probeId (some m.rtParms.next)
      rtParms := m.rtParms.new rp }

def scanStepPtr (cfg : Config) (probeId : Nat) (m : PtrMem F) (dstIp : String) : Option (PtrMem F) := do
  let probes ← View.view m.tparms (m.r.idx dstIp)
  let hops ← View.view m.rtParms (m.route.idx dstIp)
  let out ← scanDst cfg probeId m.minRtt probes hops
  let m := storeHop dstIp probeId (out.hops.bind fun hops => hops.idx probeId) m
  return { m with
    r := m.r.upd dstIp fun probes => probes.upd probeId (touchPeers probeId)
    routeLog1 := m.routeLog1.upd dstIp fun log => log.insert probeId (some m.tlogs.next)
    tlogs := m.tlogs.new out.log
    minRtt := Dbl.num 50000 }

def pfrRouteScanPtr (cfg : Config) (probeId : Nat) (m : PtrMem F) : Option (PtrMem F) :=
  m.r.keys.foldlM (scanStepPtr cfg probeId) m

def runPhasePtr (cfg : Config) (probeId : Nat) (dstList : List String) (m : PtrMem F) : Phase → Option (PtrMem F)
  | .update => pfrRouteUpdatePtr probeId dstList m
  | .calcAvg => pfrCalcAvgRttPtr cfg probeId m
  | .calcStddev => pfrCalcStddevRttPtr probeId m
  | .scan => pfrRouteScanPtr cfg probeId m
  | .free => pfrRouteFreePtr probeId m
  | .delete => pfrDeletePtr cfg probeId m
  | .man => pfrRoutesManPtr probeId m

/-- What a step of the program does to the pointers and the objects. -/
def ptrStep (s : State F) (m : PtrMem F) : Event F → Option (PtrMem F)
  | .receive => match s.sock.head?.join with
    | none => some m
    | some x => some (recordPtr x m)
  | .phase => match s.pc with
    | .phase ph => runPhasePtr s.cfg s.probeId s.pfrList m ph
    | _ => some m
  | .signals .shutdown => pfrDeleteAllPtr s.probeId m
  | .signals (.reread _ minRtt) => some { m with minRtt := minRtt }
  | _ => some m

/-- The program and its objects. -/
structure Daemon (F : Type) where
  state : State F
  mem : PtrMem F

def Daemon.init (cfg : Config) (minRtt : F) (mm : PeerMap) : Daemon F := ⟨State.init cfg minRtt mm, .init minRtt⟩

def daemonStep (w : Daemon F) (e : Event F) : Option (Daemon F) := do
  let t ← step w.state e
  let m ← ptrStep w.state w.mem e
  return ⟨t, m⟩

end Allocations

end Pfr

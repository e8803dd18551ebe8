import Pfr.Rdata
import Pfr.Telemetry
import Mathlib.Data.List.Induction

/- The peers of each PE, from the rows of the database to the samples of the peers.
   `pfr_peers` keeps the first row of an id; `pfr_asbrs` connects to every PE and remembers
   the PE of every peer; `pfr_asbr_peers` sorts the peers by PE once more, for the threads.
   Both take the management address of the PE when `netconf_ip` is "oob".

   1. `pfrPeers_getElem?`: the table has the first row of an id; it is the one the runs of the
      daemon start with (`peerMap_of_rows`);
   2. `AsbrsOf.step`, `asbrs_of`: what `pfr_asbrs` leaves: one session a PE, the PE of each peer;
   3. `asbrPeersOf`: the groups, which the threads go over;
   4. `samples_from_own_pe`: in every interleaving of the threads and of `get`, a peer's samples
      are made by the thread of its PE, and `get` returns the newest of these. -/
namespace Pfr

open Std

/-- The columns of a row that are read. -/
structure PeerRow extends PfrPeer where
  id : Int
  peIp : String
  mgmtIp : String
  deriving DecidableEq, Repr

/-- `pfr_peers_v`, from which `m` is copied. -/
def pfrPeers (rows : List PeerRow) : ExtTreeMap Int PeerRow := rows.foldl (fun v row => v.insertIfNew row.id row) ∅

/-- The address of the PE of a peer. -/
def PeerRow.peerIp (netconfIp : String) (row : PeerRow) : String := if netconfIp = "oob" then row.mgmtIp else row.peIp

/-- `asbrs` with a session for each address, and `asbrIdPeer`. -/
structure PfrAsbrs (σ : Type) where
  asbrs : ExtTreeMap String σ
  asbrIdPeer : ExtTreeMap Int String
  /-- The addresses connected to, newest first. -/
  connected : List String

section Asbrs
variable {σ : Type} (netconfIp : String) (connect : String → σ)

/-- One peer; `connect` is what `nc_session_connect` gives. -/
def asbrsStep (br : PfrAsbrs σ) (row : PeerRow) : PfrAsbrs σ :=
  let peerIp := row.peerIp netconfIp
  let br := { br with asbrIdPeer := br.asbrIdPeer.insert row.id peerIp }
  if peerIp ∈ br.asbrs then br
  else { br with asbrs := br.asbrs.insert peerIp (connect peerIp), connected := peerIp :: br.connected }

def pfrAsbrs (p : ExtTreeMap Int PeerRow) : PfrAsbrs σ := (p.toList.map Prod.snd).foldl (asbrsStep netconfIp connect) ⟨∅, ∅, []⟩

/-- `get_asbr_lo`: an id that is not there gets an empty address. -/
def PfrAsbrs.getAsbrLo (br : PfrAsbrs σ) (idPeer : Int) : String := br.asbrIdPeer.idx idPeer

end Asbrs

/-- `asbr_peers` -/
def pfrAsbrPeers (netconfIp : String) (p : ExtTreeMap Int PeerRow) : ExtTreeMap String (ExtTreeMap Int PeerRow) :=
  ExtTreeMap.groupBy (fun _ row => row.peerIp netconfIp) p

/-! ## The rows -/

/-- Row by row, each under its id, the first of an id stays. -/
theorem foldl_insertIfNew {α β : Type} (key : α → Int) (value : α → β) (k : Int) : ∀ (rows : List α) (v : ExtTreeMap Int β),
    (rows.foldl (fun v row => v.insertIfNew (key row) (value row)) v)[k]? =
      (v[k]? <|> (rows.find? (key · = k)).map value)
  | [], v => by simp
  | row :: rows, v => by
    rw [List.foldl_cons, foldl_insertIfNew key value k rows, ExtTreeMap.getElem?_insertIfNew, List.find?_cons]
    by_cases hk : key row = k
    · subst hk
      by_cases hmem : key row ∈ v
      · obtain ⟨w, hw⟩ := ExtTreeMap.exists_getElem? hmem
        simp [hmem]
      · simp [hmem]
    · simp [hk]

/-- **The first row of an id is kept.** -/
theorem pfrPeers_getElem? (rows : List PeerRow) (k : Int) : (pfrPeers rows)[k]? = rows.find? (·.id = k) := by
  rw [pfrPeers, foldl_insertIfNew PeerRow.id fun row => row]
  simp

theorem pfrPeers_id {rows : List PeerRow} {k : Int} {row : PeerRow} (h : (pfrPeers rows)[k]? = some row) : row.id = k := by
  rw [pfrPeers_getElem?] at h
  simpa using List.find?_some h

/-- The rows of a query are the table a run of the daemon starts with. -/
theorem peerMap_of_rows (rows : List PeerRow) :
    (pfrPeers rows).map (fun _ row => row.toPfrPeer) = PeerMap.ofRows (rows.map fun row => (row.id, row.toPfrPeer)) := by
  apply ExtTreeMap.ext_getElem?
  intro k
  rw [ExtTreeMap.getElem?_map, pfrPeers_getElem?, PeerMap.ofRows, foldl_insertIfNew Prod.fst Prod.snd, List.find?_map]
  simp [Function.comp_def]

/-! ## The sessions -/

section Sessions
variable {σ : Type} {netconfIp : String} {connect : String → σ}

/-- What `pfr_asbrs` has made of the peers so far. -/
structure AsbrsOf (netconfIp : String) (connect : String → σ) (l : List PeerRow) (br : PfrAsbrs σ) : Prop where
  lo : ∀ row ∈ l, br.asbrIdPeer[row.id]? = some (row.peerIp netconfIp)
  mem : ∀ c, c ∈ br.asbrs ↔ ∃ row ∈ l, row.peerIp netconfIp = c
  session : ∀ c v, br.asbrs[c]? = some v → v = connect c
  once : br.connected.Nodup
  connected : ∀ c, c ∈ br.connected ↔ c ∈ br.asbrs

/-- A peer with an id of its own. -/
theorem AsbrsOf.step {l : List PeerRow} {br : PfrAsbrs σ} (h : AsbrsOf netconfIp connect l br) {row : PeerRow}
    (hnew : ∀ r ∈ l, r.id ≠ row.id) : AsbrsOf netconfIp connect (l ++ [row]) (asbrsStep netconfIp connect br row) := by
  have hlo : ∀ r ∈ l ++ [row], (br.asbrIdPeer.insert row.id (row.peerIp netconfIp))[r.id]? = some (r.peerIp netconfIp) := by
    intro r hr
    rw [ExtTreeMap.getElem?_insert]
    rcases List.mem_append.mp hr with hr | hr
    · simp [Ne.symm (hnew r hr), h.lo r hr]
    · rw [List.mem_singleton.mp hr]
      simp
  have hmem : ∀ c, (c ∈ br.asbrs ∨ row.peerIp netconfIp = c) ↔ ∃ r ∈ l ++ [row], r.peerIp netconfIp = c := by
    intro c
    rw [h.mem c]
    simp [or_and_right, exists_or]
  unfold asbrsStep
  by_cases hin : row.peerIp netconfIp ∈ br.asbrs
  · simp only [hin, if_true]
    refine ⟨hlo, ?_, h.session, h.once, h.connected⟩
    intro c
    rw [← hmem c]
    exact ⟨Or.inl, fun hc => hc.elim id fun he => he ▸ hin⟩
  · simp only [hin, if_false]
    refine ⟨hlo, ?_, ?_, ?_, ?_⟩
    · intro c
      rw [← hmem c, ExtTreeMap.mem_insert, LawfulEqCmp.compare_eq_iff_eq, or_comm]
    · intro c v hv
      rw [ExtTreeMap.getElem?_insert] at hv
      split at hv
      · next hc => rw [← Option.some.inj hv, LawfulEqCmp.compare_eq_iff_eq.mp hc]
      · exact h.session c v hv
    · exact List.nodup_cons.mpr ⟨fun hc => hin ((h.connected _).mp hc), h.once⟩
    · intro c
      rw [List.mem_cons, h.connected, ExtTreeMap.mem_insert, LawfulEqCmp.compare_eq_iff_eq, eq_comm]

/-- **What `pfr_asbrs` leaves.** -/
theorem asbrs_of (rows : List PeerRow) :
    AsbrsOf netconfIp connect ((pfrPeers rows).toList.map Prod.snd) (pfrAsbrs netconfIp connect (pfrPeers rows)) := by
  have hids : (((pfrPeers rows).toList.map Prod.snd).map PeerRow.id).Nodup := by
    have hkeys : ((pfrPeers rows).toList.map Prod.snd).map PeerRow.id = (pfrPeers rows).toList.map Prod.fst := by
      rw [List.map_map]
      apply List.map_congr_left
      intro kv hkv
      exact pfrPeers_id (ExtTreeMap.mem_toList_iff_getElem?_eq_some.mp hkv)
    rw [hkeys]
    exact (pfrPeers rows).nodup_toList_fst
  unfold pfrAsbrs
  generalize (pfrPeers rows).toList.map Prod.snd = l at hids
  induction l using List.reverseRecOn with
  | nil => exact ⟨nofun, by simp, by simp, List.nodup_nil, by simp⟩
  | append_singleton l row ih =>
    rw [List.map_append, List.nodup_append] at hids
    rw [List.foldl_append]
    refine (ih hids.1).step fun r hr heq => ?_
    exact hids.2.2 _ (List.mem_map_of_mem hr) _ List.mem_cons_self heq

end Sessions

/-! ## The threads -/

section Threads
variable {netconfIp : String} {rows : List PeerRow}

/-- The peers of a PE are those whose address it is. -/
theorem mem_groupIds {pe : String} {k : Int} :
    (k ∈ ((pfrAsbrPeers netconfIp (pfrPeers rows)).idx pe).toList.map fun kv => kv.2.id) ↔
      ∃ row, (pfrPeers rows)[k]? = some row ∧ row.peerIp netconfIp = pe := by
  rw [List.mem_map]
  constructor
  · rintro ⟨kv, hkv, rfl⟩
    obtain ⟨hrow, hpe⟩ := (ExtTreeMap.getElem?_groupBy _ _ pe kv.1 kv.2).mp (ExtTreeMap.mem_toList_iff_getElem?_eq_some.mp hkv)
    refine ⟨kv.2, ?_, hpe⟩
    rw [pfrPeers_id hrow]
    exact hrow
  · rintro ⟨row, hrow, hpe⟩
    refine ⟨(k, row), ExtTreeMap.mem_toList_iff_getElem?_eq_some.mpr ?_, pfrPeers_id hrow⟩
    exact (ExtTreeMap.getElem?_groupBy _ _ pe k row).mpr ⟨hrow, hpe⟩

/-- An id stands for its key, so none comes twice. -/
theorem nodup_groupIds (pe : String) :
    (((pfrAsbrPeers netconfIp (pfrPeers rows)).idx pe).toList.map fun kv => kv.2.id).Nodup := by
  have hkeys : (((pfrAsbrPeers netconfIp (pfrPeers rows)).idx pe).toList.map fun kv => kv.2.id) =
      ((pfrAsbrPeers netconfIp (pfrPeers rows)).idx pe).toList.map Prod.fst := by
    apply List.map_congr_left
    intro kv hkv
    exact pfrPeers_id ((ExtTreeMap.getElem?_groupBy _ _ pe kv.1 kv.2).mp (ExtTreeMap.mem_toList_iff_getElem?_eq_some.mp hkv)).1
  rw [hkeys]
  exact ExtTreeMap.nodup_toList_fst _

end Threads

/-- The peers each `performance_peers` thread goes over. -/
def asbrPeersOf (netconfIp : String) (rows : List PeerRow) : AsbrPeers where
  peers pe := ((pfrAsbrPeers netconfIp (pfrPeers rows)).idx pe).toList.map fun kv => kv.2.id
  nodup pe := nodup_groupIds pe
  one pe pe' k hk hk' := by
    obtain ⟨row, hrow, hpe⟩ := mem_groupIds.mp hk
    obtain ⟨row', hrow', hpe'⟩ := mem_groupIds.mp hk'
    rw [hrow] at hrow'
    cases hrow'
    exact hpe.symm.trans hpe'

def PerfCall.peIp : PerfCall → String
  | .add pe _ _ _ => pe
  | .cleanup pe _ _ _ => pe

def PerfCall.peerId : PerfCall → Int
  | .add _ k _ _ => k
  | .cleanup _ k _ _ => k

/-- A call is about a peer of its PE. -/
theorem PerfInv.call_peers {a : AsbrPeers} {s : Perf} (h : PerfInv a s) {c : PerfCall} (hc : c ∈ s.log) :
    c.peerId ∈ a.peers c.peIp := by
  by_contra hk
  have hnone := h.out c.peIp c.peerId hk
  have hkey := h.key c.peIp c.peerId
  cases c with
  | add pe k n p =>
    have hat := (hkey.add_mem n p).mp hc
    rw [hnone] at hat
    cases hat
  | cleanup pe k n p =>
    have hlt := ((hkey.cleanup_mem n p).mp hc).1
    have hbehind := hkey.behind
    rw [hnone] at hbehind
    exact absurd (Nat.lt_of_lt_of_le hlt hbehind) (Nat.not_lt_zero n)

/-- **The samples of a peer come from its own PE.** For any rows, either address, any sessions
and any interleaving of the threads and of `get`: there is one session for each PE that has
a thread; every call a thread makes is about a peer of the table whose PE, by `get_asbr_lo`,
is the thread's own, and there is a session to it; and `get` of any id returns the newest
sample that the thread of that PE made of it, NULL if there is none. -/
theorem samples_from_own_pe {σ : Type} {netconfIp : String} {rows : List PeerRow} (connect : String → σ) {s : Perf}
    (h : Lts.Path (perfStep (asbrPeersOf netconfIp rows)) AnyPerf (Perf.start (asbrPeersOf netconfIp rows)) s) :
    let br := pfrAsbrs netconfIp connect (pfrPeers rows)
    (br.connected.Nodup ∧ ∀ pe, pe ∈ br.connected ↔ pe ∈ pfrAsbrPeers netconfIp (pfrPeers rows)) ∧
      (∀ c ∈ s.log, (∃ row ∈ rows, row.id = c.peerId) ∧ br.getAsbrLo c.peerId = c.peIp ∧
        br.asbrs[c.peIp]? = some (connect c.peIp)) ∧
      ∀ k, s.ppm.get k = some (perfSamples (br.getAsbrLo k) k s.log).getLast? := by
  intro br
  have hinv := perfInv_of_path h
  have hbr : AsbrsOf netconfIp connect ((pfrPeers rows).toList.map Prod.snd) br := asbrs_of rows
  have hlo : ∀ {k : Int} {row : PeerRow}, (pfrPeers rows)[k]? = some row → br.getAsbrLo k = row.peerIp netconfIp := by
    intro k row hrow
    have hmem : row ∈ (pfrPeers rows).toList.map Prod.snd :=
      List.mem_map.mpr ⟨(k, row), ExtTreeMap.mem_toList_iff_getElem?_eq_some.mpr hrow, rfl⟩
    have hat := hbr.lo row hmem
    rw [pfrPeers_id hrow] at hat
    exact ExtTreeMap.idx_of_getElem? hat
  have hpes : ∀ pe, pe ∈ br.asbrs ↔ pe ∈ pfrAsbrPeers netconfIp (pfrPeers rows) := by
    intro pe
    rw [hbr.mem, pfrAsbrPeers, ExtTreeMap.mem_groupBy]
    constructor
    · rintro ⟨row, hrow, hpe⟩
      obtain ⟨kv, hkv, rfl⟩ := List.mem_map.mp hrow
      exact ⟨kv.1, kv.2, ExtTreeMap.mem_toList_iff_getElem?_eq_some.mp hkv, hpe⟩
    · rintro ⟨k, row, hrow, hpe⟩
      exact ⟨row, List.mem_map.mpr ⟨(k, row), ExtTreeMap.mem_toList_iff_getElem?_eq_some.mpr hrow, rfl⟩, hpe⟩
  refine ⟨⟨hbr.once, fun pe => (hbr.connected pe).trans (hpes pe)⟩, ?_, ?_⟩
  · intro c hc
    obtain ⟨row, hrow, hpe⟩ := mem_groupIds.mp (hinv.call_peers hc)
    have hin : c.peIp ∈ br.asbrs := (hpes _).mpr (ExtTreeMap.mem_groupBy.mpr ⟨_, row, hrow, hpe⟩)
    obtain ⟨v, hv⟩ := ExtTreeMap.exists_getElem? hin
    refine ⟨?_, (hlo hrow).trans hpe, by rw [hv, hbr.session _ v hv]⟩
    have hid := pfrPeers_id hrow
    rw [pfrPeers_getElem?] at hrow
    exact ⟨row, List.mem_of_find?_eq_some hrow, hid⟩
  · intro k
    rw [hinv.get_eq]
    by_cases hk : ∃ row, (pfrPeers rows)[k]? = some row
    · obtain ⟨row, hrow⟩ := hk
      rw [hlo hrow, hinv.newest _ k (mem_groupIds.mpr ⟨row, hrow, rfl⟩)]
    · -- an id of no row is in no group
      have hout : ∀ pe, perfSamples pe k s.log = [] := by
        intro pe
        apply hinv.out
        intro hmem
        obtain ⟨row, hrow, -⟩ := mem_groupIds.mp hmem
        exact hk ⟨row, hrow⟩
      rw [hinv.newest_none hout, hout]
      rfl

/-- Two PEs reached by their management addresses; the row that comes twice is used once. Peer 5
has the sample 1 and, in the next round, 4. -/
theorem samples_from_own_pe_run :
    let rows : List PeerRow := [⟨⟨"198.51.0.3", "1:4"⟩, 4, "10.229.132.0", "172.16.0.1"⟩,
      ⟨⟨"198.51.0.25", "1:5"⟩, 5, "10.229.4.0", "172.16.0.0"⟩, ⟨⟨"198.51.0.1", "1:2"⟩, 2, "10.229.4.0", "172.16.0.0"⟩,
      ⟨⟨"198.51.0.9", "1:9"⟩, 5, "10.229.132.0", "172.16.0.1"⟩]
    ∃ s, Lts.Path (perfStep (asbrPeersOf "oob" rows)) AnyPerf (Perf.start (asbrPeersOf "oob" rows)) s ∧
      perfSamples "172.16.0.0" 5 s.log = [1, 4] ∧
      s.ppm.get 5 = some (perfSamples ((pfrAsbrs "oob" id (pfrPeers rows)).getAsbrLo 5) 5 s.log).getLast? := by
  intro rows
  have hrun : ∃ s, Lts.Path (perfStep (asbrPeersOf "oob" rows)) AnyPerf (Perf.start (asbrPeersOf "oob" rows)) s ∧
      perfSamples "172.16.0.0" 5 s.log = [1, 4] :=
    Lts.Path.exists_of_runG (Perf.start (asbrPeersOf "oob" rows))
      [.add "172.16.0.0", .cleanup "172.16.0.0", .add "172.16.0.0", .add "172.16.0.1", .cleanup "172.16.0.0",
        .next "172.16.0.0", .get 5, .add "172.16.0.0", .cleanup "172.16.0.0", .add "172.16.0.0"]
      (fun s => perfSamples "172.16.0.0" 5 s.log = [1, 4]) (by decide +kernel)
  obtain ⟨s, hs, hsamples⟩ := hrun
  exact ⟨s, hs, hsamples, (samples_from_own_pe id hs).2.2 5⟩

end Pfr

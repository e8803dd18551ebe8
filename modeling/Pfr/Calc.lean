import Pfr.Rdata

/- The aggregation phases, `pfr_calc_avg_rtt` and `pfr_calc_stddev_rtt`. Both walk
   every peer of `r[dst_ip][probe_id]` for every destination and rewrite that peer's
   record at key 99, so both are `mapPeers` at their own per-peer function:

   1. `calcPeer`: one peer's samples folded into a new aggregate;
   2. `stddevPeer`: the aggregate's deviation and median fields set;
   3. `peersAt_mapPeers` and `mapPeers_isSome`: what such a phase leaves at each
      peer of the round, that nothing else moves, and when it meets no NULL. -/
namespace Pfr

open Std

variable {F : Type}

/-- `for it0 in r, for it2 in r[dst_ip][probe_id]`, rewriting each peer's samples. -/
def mapPeers (g : Samples F → Option (Samples F)) (probeId : Int) (r : RData F) : Option (RData F) :=
  r.mapValsM fun _ probes => ((probes.idx probeId).mapValsM fun _ s => g s).map (probes.insert probeId)

theorem mem_mapPeers {g : Samples F → Option (Samples F)} {p : Int} {r r' : RData F}
    (h : mapPeers g p r = some r') {d : String} : d ∈ r' ↔ d ∈ r :=
  ExtTreeMap.mem_mapValsM h

/-- Every destination's map is the old one with its round's peers rewritten. -/
theorem mapPeers_idx {g : Samples F → Option (Samples F)} {p : Int} {r r' : RData F}
    (h : mapPeers g p r = some r') {d : String} (hd : d ∈ r) :
    ∃ peers, (peersAt r d p).mapValsM (fun _ s => g s) = some peers ∧ r'.idx d = (r.idx d).insert p peers := by
  obtain ⟨w, hw, hw'⟩ := ExtTreeMap.mapValsM_val h (ExtTreeMap.getElem?_idx hd)
  obtain ⟨peers, hp, rfl⟩ := Option.map_eq_some_iff.mp hw
  exact ⟨peers, hp, ExtTreeMap.idx_of_getElem? hw'⟩

/-- The round's peers after the phase, key by key. -/
theorem peersAt_mapPeers {g : Samples F → Option (Samples F)} {p : Int} {r r' : RData F}
    (h : mapPeers g p r = some r') {d : String} (hd : d ∈ r) (k : Int) :
    (peersAt r' d p)[k]? = (peersAt r d p)[k]?.bind g := by
  obtain ⟨peers, hp, hr⟩ := mapPeers_idx h hd
  rw [peersAt, hr, ExtTreeMap.idx_insert, if_pos rfl, ExtTreeMap.getElem?_mapValsM hp]

/-- The other rounds' peers are the ones that were there. -/
theorem peersAt_mapPeers_ne {g : Samples F → Option (Samples F)} {p : Int} {r r' : RData F}
    (h : mapPeers g p r = some r') (d : String) {q : Int} (hq : p ≠ q) : peersAt r' d q = peersAt r d q := by
  by_cases hd : d ∈ r
  · obtain ⟨peers, -, hr⟩ := mapPeers_idx h hd
    rw [peersAt, hr, ExtTreeMap.idx_insert, if_neg hq, peersAt]
  · have hd' : d ∉ r' := fun hm => hd ((mem_mapPeers h).mp hm)
    rw [peersAt, peersAt, ExtTreeMap.idx_of_not_mem hd, ExtTreeMap.idx_of_not_mem hd']

/-- Every destination has an entry for the round afterwards, and keeps the others. -/
theorem mem_idx_mapPeers {g : Samples F → Option (Samples F)} {p : Int} {r r' : RData F}
    (h : mapPeers g p r = some r') {d : String} (hd : d ∈ r) {q : Int} :
    q ∈ r'.idx d ↔ p = q ∨ q ∈ r.idx d := by
  obtain ⟨peers, -, hr⟩ := mapPeers_idx h hd
  rw [hr, ExtTreeMap.mem_insert, LawfulEqCmp.compare_eq_iff_eq]

theorem mem_peersAt_mapPeers {g : Samples F → Option (Samples F)} {p : Int} {r r' : RData F}
    (h : mapPeers g p r = some r') {d : String} (hd : d ∈ r) {k : Int} :
    k ∈ peersAt r' d p ↔ k ∈ peersAt r d p := by
  obtain ⟨peers, hp, hr⟩ := mapPeers_idx h hd
  rw [peersAt, hr, ExtTreeMap.idx_insert, if_pos rfl, ExtTreeMap.mem_mapValsM hp]

/-- A phase over the peers does at a path with samples what its function does there. -/
theorem samples_mapPeers {g : Samples F → Option (Samples F)} {p : Int} {r r' : RData F}
    (h : mapPeers g p r = some r') {d : String} {k s : Int} (hs : s ∈ (peersAt r d p).idx k) :
    g ((peersAt r d p).idx k) = some ((peersAt r' d p).idx k) := by
  obtain ⟨hd, hk⟩ := path_of_sample hs
  have hget := peersAt_mapPeers h hd k
  rw [ExtTreeMap.getElem?_idx hk, Option.bind_some,
    ExtTreeMap.getElem?_idx ((mem_peersAt_mapPeers h hd).mpr hk)] at hget
  exact hget.symm

/-- The phase meets no NULL when its per-peer function meets none at the round's peers. -/
theorem mapPeers_isSome {g : Samples F → Option (Samples F)} {p : Int} {r : RData F}
    (hg : ∀ (d : String) (k : Int) (s : Samples F), (peersAt r d p)[k]? = some s → (g s).isSome) : ∃ r', mapPeers g p r = some r' := by
  apply ExtTreeMap.mapValsM_isSome
  intro d probes hd
  have hp : peersAt r d p = probes.idx p := by rw [peersAt, ExtTreeMap.idx_of_getElem? hd]
  obtain ⟨peers, hpeers⟩ := ExtTreeMap.mapValsM_isSome (m := probes.idx p) (f := fun _ s => g s)
    (fun k s hs => hg d k s (by rw [hp]; exact hs))
  rw [hpeers]
  rfl

section Average
variable [Dbl F]

/-- The variables of `pfr_calc_avg_rtt`'s loop over one peer's samples. -/
structure CalcAcc (F : Type) where
  currRtt : F
  mRtt : F
  maxRtt : F
  cntRtt : Int
  alive : Int
  ts : Int

/-- Their values before the loop; they are put back to these after each peer. -/
def CalcAcc.init : CalcAcc F where
  currRtt := Dbl.num 0
  mRtt := Dbl.num 50000
  maxRtt := Dbl.num 0
  cntRtt := 0
  alive := 0
  ts := 0

def calcSample (a : CalcAcc F) (tp : Tparm F) : CalcAcc F where
  currRtt := a.currRtt + tp.rtt
  mRtt := if tp.rtt < a.mRtt then tp.rtt else a.mRtt
  maxRtt := if a.maxRtt < tp.rtt then tp.rtt else a.maxRtt
  cntRtt := a.cntRtt + 1
  alive := a.alive + 1
  ts := tp.timestamp

/-- The loop over `r[dst_ip][probe_id][peer_id]`, reading through each pointer. -/
def calcLoop (samples : Samples F) : Option (CalcAcc F) :=
  samples.toList.foldlM (fun a kv => kv.2.map (calcSample a)) CalcAcc.init

/-- The aggregate stored at key 99. -/
def aggregate (cfg : Config) (a : CalcAcc F) : Tparm F :=
  let avgRtt := Dbl.ceil (a.currRtt * Dbl.num 100 / Dbl.num a.cntRtt) / Dbl.num 100
  let lost := cfg.pfrPingReq - a.alive
  { Tparm.new (Dbl.num 0) avgRtt lost a.ts with
    minRtt := a.mRtt
    maxRtt := a.maxRtt
    metric0 := avgRtt
    metric1 := a.mRtt + a.mRtt * Dbl.num lost }

def calcPeer (cfg : Config) (samples : Samples F) : Option (Samples F) :=
  (calcLoop samples).map fun a => samples.insert 99 (some (aggregate cfg a))

def pfrCalcAvgRtt (cfg : Config) (probeId : Int) (r : RData F) : Option (RData F) :=
  mapPeers (calcPeer cfg) probeId r

/-- The loop counts the records it reads. -/
theorem foldlM_calcSample_cnt : ∀ (l : List (Int × Option (Tparm F))) (a a' : CalcAcc F),
    l.foldlM (fun a kv => kv.2.map (calcSample a)) a = some a' → a'.cntRtt = a.cntRtt + l.length
  | [], a, a', h => by
    rw [List.foldlM_nil] at h
    cases h
    simp
  | (k, v) :: l, a, a', h => by
    rw [List.foldlM_cons] at h
    obtain ⟨b, hb, hrest⟩ := Option.bind_eq_some_iff.mp h
    obtain ⟨tp, -, rfl⟩ := Option.map_eq_some_iff.mp hb
    rw [foldlM_calcSample_cnt l _ a' hrest, List.length_cons]
    simp only [calcSample]
    omega

end Average

/-- What a peer's samples are outside a write: at least one record, none NULL. -/
structure SamplesOk (samples : Samples F) : Prop where
  nonempty : ∃ s, s ∈ samples
  notNull : ∀ (s : Int) (v : Option (Tparm F)), samples[s]? = some v → v.isSome

theorem SamplesOk.insert {samples : Samples F} (h : SamplesOk samples) (s : Int) (tp : Tparm F) :
    SamplesOk (samples.insert s (some tp)) where
  nonempty := ⟨s, ExtTreeMap.mem_insert_self⟩
  notNull := by
    intro a v hv
    rw [ExtTreeMap.getElem?_insert] at hv
    split at hv
    · cases hv; rfl
    · exact h.notNull a v hv

theorem SamplesOk.idx_isSome {samples : Samples F} (h : SamplesOk samples) {s : Int} (hs : s ∈ samples) :
    (samples.idx s).isSome :=
  h.notNull s _ (ExtTreeMap.getElem?_idx hs)

section Average
variable [Dbl F]

/-- A reply leaves its peer with at least one record and no NULL. -/
theorem samplesOk_putSample (x : Reply F) {samples : Samples F}
    (h : ∀ (s : Int) (v : Option (Tparm F)), samples[s]? = some v → v.isSome) : SamplesOk (putSample x samples) where
  nonempty := by
    unfold putSample
    split
    · exact ⟨x.seq, ExtTreeMap.mem_insert_self⟩
    · next hsome =>
      refine ⟨x.seq, ?_⟩
      by_contra hmem
      rw [ExtTreeMap.idx_of_not_mem hmem] at hsome
      exact hsome rfl
  notNull := by
    intro s v hv
    rcases putSample_cases hv with hv | ⟨-, rfl⟩
    · exact h s v hv
    · rfl

/-- The average divides by the number of records, which is not zero. -/
theorem calcLoop_of_ok {samples : Samples F} (h : SamplesOk samples) :
    ∃ a, calcLoop samples = some a ∧ a.cntRtt = samples.size ∧ 0 < a.cntRtt := by
  have hrec : ∀ (a : CalcAcc F), ∀ kv ∈ samples.toList, (kv.2.map (calcSample a)).isSome := by
    intro a kv hkv
    rw [Option.isSome_map]
    exact h.notNull kv.1 kv.2 (ExtTreeMap.mem_toList_iff_getElem?_eq_some.mp hkv)
  obtain ⟨a, ha⟩ := List.foldlM_isSome samples.toList CalcAcc.init hrec
  have hlen : a.cntRtt = samples.size := by
    rw [foldlM_calcSample_cnt _ _ _ ha, ExtTreeMap.length_toList, CalcAcc.init]
    simp
  refine ⟨a, ha, hlen, ?_⟩
  obtain ⟨s, hs⟩ := h.nonempty
  have hpos : samples.size ≠ 0 := by
    intro h0
    rw [← ExtTreeMap.eq_empty_iff_size_eq_zero] at h0
    rw [h0] at hs
    exact ExtTreeMap.not_mem_empty hs
  omega

theorem calcPeer_of_ok (cfg : Config) {samples : Samples F} (h : SamplesOk samples) :
    ∃ s', calcPeer cfg samples = some s' ∧ SamplesOk s' ∧ (s'.idx 99).isSome := by
  obtain ⟨a, ha, -⟩ := calcLoop_of_ok h
  refine ⟨samples.insert 99 (some (aggregate cfg a)), ?_, h.insert _ _, ?_⟩
  · rw [calcPeer, ha]; rfl
  · rw [ExtTreeMap.idx_insert, if_pos rfl]; rfl

end Average

section Deviation
variable [Dbl F]

/-- The variables of `pfr_calc_stddev_rtt`'s loop over one peer's samples. -/
structure DevAcc (F : Type) where
  dispersion : F
  cntRtt : Int
  smediana : List F

/-- One sample; the record at key 99 is the aggregate and is passed over. -/
def devSample (avgRtt : F) (a : DevAcc F) (kv : Int × Option (Tparm F)) : Option (DevAcc F) :=
  if kv.1 = 99 then some a
  else kv.2.map fun tp =>
    { dispersion := a.dispersion + (tp.rtt - avgRtt) * (tp.rtt - avgRtt)
      cntRtt := a.cntRtt + 1
      smediana := a.smediana ++ [tp.rtt] }

/-- `mediana` of the collected values; `at` throws outside the vector. -/
def mediana (smediana : List F) : Option F :=
  let sorted := smediana.insertionSort (fun a b => ¬b < a)
  let mSize := smediana.length
  let xnm := mSize / 2
  if mSize = 0 then some (Dbl.num 0)
  else if mSize = 1 then sorted[0]?
  else if mSize % 2 ≠ 0 then sorted[xnm + 1]?
  else do
    let a ← sorted[xnm - 1]?
    let b ← sorted[xnm]?
    return (a + b) / Dbl.num 2

def stddevPeer (samples : Samples F) : Option (Samples F) := do
  let tp99 ← samples.idx 99
  let a ← samples.toList.foldlM (devSample tp99.avgRtt) ⟨Dbl.num 0, 0, []⟩
  let stddev := Dbl.sqrt (a.dispersion / Dbl.num a.cntRtt)
  let med ← mediana a.smediana
  return samples.insert 99 (some { tp99 with
    stddevRtt := Dbl.ceil (stddev * Dbl.num 100 / Dbl.num a.cntRtt) / Dbl.num 100
    medianaRtt := med })

def pfrCalcStddevRtt (probeId : Int) (r : RData F) : Option (RData F) := mapPeers stddevPeer probeId r

/-- The loop over `r[dst_ip][probe_id][peer_id]`. -/
def devLoop (avgRtt : F) (samples : Samples F) : Option (DevAcc F) :=
  samples.toList.foldlM (devSample avgRtt) ⟨Dbl.num 0, 0, []⟩

/-- What a sample that is not passed over does. -/
def devStep (avgRtt : F) (a : DevAcc F) (tp : Tparm F) : DevAcc F where
  dispersion := a.dispersion + (tp.rtt - avgRtt) * (tp.rtt - avgRtt)
  cntRtt := a.cntRtt + 1
  smediana := a.smediana ++ [tp.rtt]

/-- The two fields are computed from what the loop leaves. -/
theorem stddevPeer_eq (samples : Samples F) : stddevPeer samples =
    (samples.idx 99).bind fun tp99 => (devLoop tp99.avgRtt samples).bind fun a => (mediana a.smediana).map fun med =>
      samples.insert 99 (some { tp99 with
        stddevRtt := Dbl.ceil (Dbl.sqrt (a.dispersion / Dbl.num a.cntRtt) * Dbl.num 100 / Dbl.num a.cntRtt) / Dbl.num 100
        medianaRtt := med }) := by
  simp only [stddevPeer, devLoop, Option.bind_eq_bind, Option.pure_def, Option.map_eq_bind, Function.comp_def]

theorem foldlM_devSample (avgRtt : F) : ∀ (l : List (Int × Option (Tparm F))) (a : DevAcc F), (∀ kv ∈ l, kv.2.isSome) →
    l.foldlM (devSample avgRtt) a =
      some (((l.filter fun kv => kv.1 ≠ 99).filterMap Prod.snd).foldl (devStep avgRtt) a)
  | [], a, _ => by rw [List.foldlM_nil]; rfl
  | (k, none) :: l, a, h => by
    have hnull := h (k, none) List.mem_cons_self
    cases hnull
  | (k, some tp) :: l, a, h => by
    have hrest : ∀ kv ∈ l, kv.2.isSome := fun kv hkv => h kv (List.mem_cons_of_mem _ hkv)
    rw [List.foldlM_cons]
    by_cases hk : k = 99
    · have hstep : devSample avgRtt a (k, some tp) = some a := if_pos hk
      rw [hstep, Option.bind_eq_bind, Option.bind_some, foldlM_devSample avgRtt l a hrest]
      simp [hk]
    · have hstep : devSample avgRtt a (k, some tp) = some (devStep avgRtt a tp) := if_neg hk
      rw [hstep, Option.bind_eq_bind, Option.bind_some, foldlM_devSample avgRtt l _ hrest]
      simp [hk]

/-- It counts the samples it uses. -/
theorem foldl_devStep_cnt (avgRtt : F) : ∀ (l : List (Tparm F)) (a : DevAcc F),
    (l.foldl (devStep avgRtt) a).cntRtt = a.cntRtt + l.length
  | [], a => by simp
  | tp :: l, a => by
    rw [List.foldl_cons, foldl_devStep_cnt avgRtt l, List.length_cons]
    simp only [devStep]
    omega

/-- No position read lies outside the sorted vector. -/
theorem mediana_isSome (xs : List F) : (mediana xs).isSome := by
  have hlen : (xs.insertionSort (fun a b => ¬b < a)).length = xs.length := List.length_insertionSort _ _
  have hget : ∀ i, i < xs.length → ((xs.insertionSort (fun a b => ¬b < a))[i]?).isSome := by
    intro i hi
    rw [List.getElem?_eq_getElem (by omega)]
    rfl
  unfold mediana
  simp only
  split
  · rfl
  · split
    · exact hget 0 (by omega)
    · split
      · exact hget _ (by omega)
      · obtain ⟨a, ha⟩ := Option.isSome_iff_exists.mp (hget (xs.length / 2 - 1) (by omega))
        obtain ⟨b, hb⟩ := Option.isSome_iff_exists.mp (hget (xs.length / 2) (by omega))
        rw [ha, hb]
        rfl

/-- The aggregate keeps every field but the two the phase sets. -/
theorem stddevPeer_agg {samples s' : Samples F} (h : stddevPeer samples = some s') :
    ∃ tp med dev, samples.idx 99 = some tp ∧
      s' = samples.insert 99 (some { tp with stddevRtt := dev, medianaRtt := med }) := by
  rw [stddevPeer_eq] at h
  obtain ⟨tp, htp, h⟩ := Option.bind_eq_some_iff.mp h
  obtain ⟨a, -, h⟩ := Option.bind_eq_some_iff.mp h
  obtain ⟨med, -, h⟩ := Option.map_eq_some_iff.mp h
  exact ⟨tp, med, _, htp, h.symm⟩

theorem stddevPeer_of_ok {samples : Samples F} (h : SamplesOk samples) (h99 : (samples.idx 99).isSome) :
    ∃ s', stddevPeer samples = some s' ∧ SamplesOk s' ∧ (s'.idx 99).isSome := by
  obtain ⟨tp, htp⟩ := Option.isSome_iff_exists.mp h99
  obtain ⟨a, ha⟩ : ∃ a, devLoop tp.avgRtt samples = some a :=
    ⟨_, foldlM_devSample tp.avgRtt samples.toList ⟨Dbl.num 0, 0, []⟩ fun kv hkv =>
      h.notNull kv.1 kv.2 (ExtTreeMap.mem_toList_iff_getElem?_eq_some.mp hkv)⟩
  obtain ⟨med, hmed⟩ := Option.isSome_iff_exists.mp (mediana_isSome a.smediana)
  refine ⟨_, by rw [stddevPeer_eq, htp, Option.bind_some, ha, Option.bind_some, hmed, Option.map_some],
    h.insert _ _, ?_⟩
  rw [ExtTreeMap.idx_insert, if_pos rfl]
  rfl

end Deviation

end Pfr

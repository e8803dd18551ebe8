import Pfr.NullSafe
import Pfr.Aggregate

/- Which replies the aggregates of a round are made of. The network may lose, duplicate
   and reorder replies; `proc_v4` keeps the first copy of each sequence number. The
   aggregate is stored among the samples, at key 99, and `send_v4` numbers its requests
   from 0 up to `pfr_ping_req`, so from 100 requests on the key is also a request's.

   1. `samples_perm`: after any deliveries a path holds the first copies of its replies;
   2. `devLoop_eq`: what the deviation's loop reads;
   3. `Collected`: both phases use every first copy once and nothing else;
   4. `collected_iff_unreserved`: they do unless number 99 is delivered;
   5. `reserved_number_lost`: a round in which it is. -/
namespace Pfr

open Std

variable {F : Type}

/-- `icmp_seq`, of 16 bits, in the requests `send_v4` makes to a destination. -/
def requestSeqs (cfg : Config) : List Int := (List.range cfg.pfrPingReq.toNat).map fun seq : Nat => (seq : Int) % 65536

/-- Below 100 requests none has the number of the aggregate's key. -/
theorem reserved_not_requested {cfg : Config} (h : cfg.pfrPingReq ≤ 99) : (99 : Int) ∉ requestSeqs cfg := by
  intro hmem
  obtain ⟨i, hi, heq⟩ := List.mem_map.mp hmem
  have := List.mem_range.mp hi
  omega

/-! ## The first copies -/

/-- The reply is one of peer `k` for round `p`, from `d`. -/
abbrev Reply.On (x : Reply F) (d : String) (p k : Int) : Prop := x.src = d ∧ x.probeId = p ∧ x.peerId = k

/-- Of the replies, in the order delivered, the first copy of each sequence number. -/
def firstCopies : List (Reply F) → List (Reply F)
  | [] => []
  | x :: rs => x :: (firstCopies rs).filter fun y => y.seq ≠ x.seq

/-- The first copies of what is delivered for a path. -/
def delivered (d : String) (p k : Int) (rs : List (Reply F)) : List (Reply F) :=
  firstCopies (rs.filter fun x => x.On d p k)

theorem mem_firstCopies {x : Reply F} : ∀ {rs : List (Reply F)},
    x ∈ firstCopies rs ↔ rs.find? (fun y => y.seq = x.seq) = some x
  | [] => by simp [firstCopies]
  | y :: rs => by
    have ih : x ∈ firstCopies rs ↔ rs.find? (fun y => y.seq = x.seq) = some x := mem_firstCopies
    rw [firstCopies, List.mem_cons, List.mem_filter, ih, List.find?_cons]
    by_cases hseq : y.seq = x.seq
    · simp [hseq, eq_comm]
    · have hne : x ≠ y := fun h => hseq (by rw [h])
      have hne' : x.seq ≠ y.seq := fun h => hseq h.symm
      simp [hseq, hne, hne']

theorem mem_of_firstCopies {x : Reply F} {rs : List (Reply F)} (h : x ∈ firstCopies rs) : x ∈ rs :=
  List.mem_of_find?_eq_some (mem_firstCopies.mp h)

/-- Every sequence number that is there has its first copy. -/
theorem exists_firstCopy {x : Reply F} {rs : List (Reply F)} (h : x ∈ rs) : ∃ y ∈ firstCopies rs, y.seq = x.seq := by
  cases hfind : rs.find? (fun y => y.seq = x.seq) with
  | none =>
    have := List.find?_eq_none.mp hfind x h
    simp at this
  | some y =>
    have hseq : y.seq = x.seq := by simpa using List.find?_some hfind
    exact ⟨y, mem_firstCopies.mpr (by rw [hseq]; exact hfind), hseq⟩

theorem nodup_firstCopies : ∀ rs : List (Reply F), ((firstCopies rs).map Reply.seq).Nodup
  | [] => List.nodup_nil
  | x :: rs => by
    have ih := nodup_firstCopies rs
    rw [firstCopies, List.map_cons, List.nodup_cons]
    constructor
    · intro hmem
      obtain ⟨y, hy, heq⟩ := List.mem_map.mp hmem
      have := (List.mem_filter.mp hy).2
      simp [heq] at this
    · exact ih.sublist (List.filter_sublist.map _)

variable [Dbl F]

/-- What `proc_v4` stores for a reply. -/
def Reply.sample (x : Reply F) : Tparm F := Tparm.new x.rtt (Dbl.num 0) 0 x.timestamp

/-- Deliveries change a path by the replies that are for it. -/
theorem samples_foldl_record (d : String) (p k : Int) : ∀ (rs : List (Reply F)) (r : RData F),
    (peersAt (rs.foldl (fun r x => record x r) r) d p).idx k =
      (rs.filter fun x => x.On d p k).foldl (fun s x => putSample x s) ((peersAt r d p).idx k)
  | [], _ => rfl
  | x :: rs, r => by
    rw [List.foldl_cons, samples_foldl_record d p k rs, samples_record, List.filter_cons]
    by_cases hx : x.On d p k
    · rw [if_pos hx, if_pos (decide_eq_true hx), List.foldl_cons]
    · rw [if_neg hx, if_neg (by simpa using hx)]

/-- **The first copy stays.** The induction is on the replies; a number that is stored is
passed over from there on. -/
theorem getElem?_foldl_putSample (s : Int) : ∀ (l : List (Reply F)) (m : Samples F),
    (∀ (a : Int) (v : Option (Tparm F)), m[a]? = some v → v.isSome) →
    (l.foldl (fun m x => putSample x m) m)[s]? =
      m[s]?.or ((l.find? fun x => x.seq = s).map fun x => some x.sample)
  | [], m, _ => by simp
  | x :: l, m, hm => by
    rw [List.foldl_cons, getElem?_foldl_putSample s l _ (samplesOk_putSample x hm).notNull, List.find?_cons]
    cases hx : m[x.seq]? with
    | some v =>
      -- a further copy
      obtain ⟨tp, rfl⟩ := Option.isSome_iff_exists.mp (hm _ v hx)
      have hkeep : putSample x m = m := by
        rw [putSample, ExtTreeMap.idx_of_getElem? hx]
        rfl
      rw [hkeep]
      by_cases hs : x.seq = s
      · rw [← hs, hx]
        rfl
      · simp [hs]
    | none =>
      -- `operator[]` inserts the NULL that the test finds, and the first copy replaces it
      have hput : putSample x m = m.insert x.seq (some x.sample) := by
        rw [putSample, ExtTreeMap.idx_of_not_mem (by simpa using hx)]
        rfl
      rw [hput, ExtTreeMap.getElem?_insert]
      by_cases hs : x.seq = s
      · rw [if_pos (by rw [LawfulEqCmp.compare_eq_iff_eq]; exact hs), ← hs, hx]
        simp
      · rw [if_neg (by rw [LawfulEqCmp.compare_eq_iff_eq]; exact hs)]
        simp [hs]

/-- The entry of a reply. -/
def Reply.entry (x : Reply F) : Int × Option (Tparm F) := (x.seq, some x.sample)

/-- **Whatever is lost, duplicated and reordered**, what is left is the first copies. -/
theorem foldl_putSample_perm (l : List (Reply F)) :
    (l.foldl (fun m x => putSample x m) (∅ : Samples F)).toList.Perm ((firstCopies l).map Reply.entry) := by
  have hnodup : ((firstCopies l).map Reply.entry).Nodup := by
    refine List.Nodup.of_map Prod.fst ?_
    rw [List.map_map]
    exact nodup_firstCopies l
  refine ExtTreeMap.toList_perm hnodup ?_
  intro kv
  have hempty : ∀ (a : Int) (v : Option (Tparm F)), (∅ : Samples F)[a]? = some v → v.isSome := by
    intro a v hv
    simp at hv
  rw [getElem?_foldl_putSample kv.1 l ∅ hempty, ExtTreeMap.getElem?_empty, Option.none_or, List.mem_map]
  constructor
  · intro h
    obtain ⟨x, hx, rfl⟩ := h
    change (l.find? fun y => y.seq = x.seq).map _ = some (some x.sample)
    rw [mem_firstCopies.mp hx]
    rfl
  · intro h
    obtain ⟨x, hx, heq⟩ := Option.map_eq_some_iff.mp h
    have hseq : x.seq = kv.1 := by simpa using List.find?_some hx
    refine ⟨x, mem_firstCopies.mpr (by rw [hseq]; exact hx), ?_⟩
    rw [Reply.entry, hseq, heq]

/-- Replies received one after the other. -/
def deliver (rs : List (Reply F)) (r : RData F) : RData F := rs.foldl (fun r x => record x r) r

section Path
variable {r0 : RData F} {d : String} {p k : Int} (rs : List (Reply F))

/-- What a path holds that nothing was recorded for before. -/
theorem samples_perm (hnew : k ∉ peersAt r0 d p) :
    ((peersAt (deliver rs r0) d p).idx k).toList.Perm ((delivered d p k rs).map Reply.entry) := by
  rw [deliver, samples_foldl_record, ExtTreeMap.idx_of_not_mem hnew]
  exact foldl_putSample_perm _

theorem idx_of_delivered (hnew : k ∉ peersAt r0 d p) {x : Reply F} (hx : x ∈ delivered d p k rs) :
    ((peersAt (deliver rs r0) d p).idx k)[x.seq]? = some (some x.sample) :=
  ExtTreeMap.mem_toList_iff_getElem?_eq_some.mp
    ((samples_perm rs hnew).mem_iff.mpr (List.mem_map_of_mem (f := Reply.entry) hx))

theorem samplesOf_perm (hnew : k ∉ peersAt r0 d p) :
    (samplesOf ((peersAt (deliver rs r0) d p).idx k)).Perm ((delivered d p k rs).map Reply.sample) := by
  have h := (samples_perm rs hnew).filterMap Prod.snd
  rw [List.filterMap_map] at h
  refine h.trans (.of_eq ?_)
  rw [← List.filterMap_eq_map]
  rfl

/-- The deviation's loop reads them too, after the aggregate is stored. -/
theorem devSamples_perm (hnew : k ∉ peersAt r0 d p) (tp : Tparm F) :
    (((((peersAt (deliver rs r0) d p).idx k).insert 99 (some tp)).toList.filter fun kv => kv.1 ≠ 99).filterMap Prod.snd).Perm
      (((delivered d p k rs).filter fun x => x.seq ≠ 99).map Reply.sample) := by
  have h := ((ExtTreeMap.filter_toList_insert _ 99 (some tp)).trans
    ((samples_perm rs hnew).filter fun kv => kv.1 ≠ 99)).filterMap Prod.snd
  rw [List.filter_map, List.filterMap_map] at h
  refine h.trans (.of_eq ?_)
  rw [← List.filterMap_eq_map]
  rfl

end Path

/-- The deviation's loop once the aggregate is stored. -/
theorem devLoop_insert {samples : Samples F} (h : ∀ (s : Int) (v : Option (Tparm F)), samples[s]? = some v → v.isSome)
    (tp : Tparm F) (avgRtt : F) : devLoop avgRtt (samples.insert 99 (some tp)) =
      some ((((samples.insert 99 (some tp)).toList.filter fun kv => kv.1 ≠ 99).filterMap Prod.snd).foldl (devStep avgRtt)
        ⟨Dbl.num 0, 0, []⟩) := by
  refine foldlM_devSample avgRtt _ _ ?_
  intro kv hkv
  have hget := ExtTreeMap.mem_toList_iff_getElem?_eq_some.mp hkv
  rw [ExtTreeMap.getElem?_insert] at hget
  split at hget
  · rw [← Option.some.inj hget]
    rfl
  · exact h kv.1 kv.2 hget

/-! ## The two phases -/

/-- `r` holds the replies delivered for a path before the two phases, `r1` and `r2` what
the first and the second leave: the aggregate counts as lost what was not delivered, the
first copies are there, and both loops run over each of them once and over nothing else. -/
structure Collected (cfg : Config) (d : String) (p k : Int) (rs : List (Reply F)) (r r1 r2 : RData F) : Prop where
  lost : ∀ r' ∈ [r1, r2], (aggAt (peersAt r' d p) k).map Tparm.lost = some (cfg.pfrPingReq - (delivered d p k rs).length)
  kept : ∀ r' ∈ [r1, r2], ∀ x ∈ delivered d p k rs, ((peersAt r' d p).idx k)[x.seq]? = some (some x.sample)
  averaged : ∃ l : List (Tparm F), l.Perm ((delivered d p k rs).map Reply.sample) ∧
    calcLoop ((peersAt r d p).idx k) = some (l.foldl calcSample CalcAcc.init)
  deviated : ∃ tp, ∃ l : List (Tparm F), aggAt (peersAt r1 d p) k = some tp ∧
    l.Perm ((delivered d p k rs).map Reply.sample) ∧
    devLoop tp.avgRtt ((peersAt r1 d p).idx k) = some (l.foldl (devStep tp.avgRtt) ⟨Dbl.num 0, 0, []⟩)

/-- Replies give every peer of a round that has none samples, none of them NULL. -/
theorem roundSamples_deliver {r0 : RData F} {p : Int} (hnew : ∀ (e : String) (j : Int), j ∉ peersAt r0 e p)
    (rs : List (Reply F)) : RoundSamples p (deliver rs r0) := by
  have h0 : RoundSamples p r0 := by
    intro e j samples hs
    exact absurd (ExtTreeMap.mem_of_getElem? hs) (hnew e j)
  suffices H : ∀ (rs : List (Reply F)) (r : RData F), RoundSamples p r → RoundSamples p (deliver rs r) from H rs r0 h0
  intro rs
  induction rs with
  | nil => exact fun _ h => h
  | cons x rs ih => exact fun r h => ih (record x r) (h.record x)

section Phases
variable {cfg : Config} {r0 r1 r2 : RData F} {d : String} {p k : Int} {rs : List (Reply F)}

theorem notNull_deliver (hnew : k ∉ peersAt r0 d p) (s : Int) (v : Option (Tparm F))
    (h : ((peersAt (deliver rs r0) d p).idx k)[s]? = some v) : v.isSome := by
  have hmem := (samples_perm rs hnew).mem_iff.mp (ExtTreeMap.mem_toList_iff_getElem?_eq_some.mpr h)
  obtain ⟨x, -, heq⟩ := List.mem_map.mp hmem
  cases heq
  rfl

/-- What the phases leave at a path with replies: the aggregate is put at key 99, and the
second phase keeps all of it but two fields. -/
theorem phases_at (hnew : k ∉ peersAt r0 d p) (hne : delivered d p k rs ≠ [])
    (h1 : pfrCalcAvgRtt cfg p (deliver rs r0) = some r1) (h2 : pfrCalcStddevRtt p r1 = some r2) :
    ∃ tp tp' : Tparm F, (peersAt r1 d p).idx k = ((peersAt (deliver rs r0) d p).idx k).insert 99 (some tp) ∧
      (peersAt r2 d p).idx k = ((peersAt r1 d p).idx k).insert 99 (some tp') ∧
      tp.lost = cfg.pfrPingReq - (delivered d p k rs).length ∧ tp'.lost = tp.lost := by
  obtain ⟨x, hx⟩ := List.exists_mem_of_ne_nil _ hne
  have hpeer := samples_mapPeers h1 (ExtTreeMap.mem_of_getElem? (idx_of_delivered rs hnew hx))
  rw [calcPeer, calcLoop_eq (notNull_deliver hnew), Option.map_some] at hpeer
  -- the aggregate replaces whatever was at key 99
  have hr1 := (Option.some.inj hpeer).symm
  have h99 : ((peersAt r1 d p).idx k)[(99 : Int)]? = some (some (aggregate cfg
      ((samplesOf ((peersAt (deliver rs r0) d p).idx k)).foldl calcSample CalcAcc.init))) := by
    rw [hr1, ExtTreeMap.getElem?_insert_self]
  obtain ⟨tp, med, dev, htp, hr2⟩ := stddevPeer_agg (samples_mapPeers h2 (ExtTreeMap.mem_of_getElem? h99))
  rw [ExtTreeMap.idx_of_getElem? h99] at htp
  cases htp
  refine ⟨_, _, hr1, hr2, ?_, rfl⟩
  change cfg.pfrPingReq - CalcAcc.alive _ = _
  rw [(foldl_calcSample_count _ _).2, (samplesOf_perm rs hnew).length_eq, List.length_map]
  simp [CalcAcc.init]

/-- **With number 99 not delivered both phases use the first copies.** -/
theorem Collected.of_unreserved (hnew : k ∉ peersAt r0 d p) (hne : delivered d p k rs ≠ [])
    (h1 : pfrCalcAvgRtt cfg p (deliver rs r0) = some r1) (h2 : pfrCalcStddevRtt p r1 = some r2)
    (h99 : ∀ x ∈ delivered d p k rs, x.seq ≠ 99) : Collected cfg d p k rs (deliver rs r0) r1 r2 := by
  obtain ⟨tp, tp', hr1, hr2, hlost, hlost'⟩ := phases_at hnew hne h1 h2
  have hagg1 : aggAt (peersAt r1 d p) k = some tp := by
    rw [aggAt, hr1, ExtTreeMap.idx_insert, if_pos rfl]
  have hagg2 : aggAt (peersAt r2 d p) k = some tp' := by
    rw [aggAt, hr2, ExtTreeMap.idx_insert, if_pos rfl]
  have hother : ∀ (m : Samples F) (v : Option (Tparm F)), ∀ x ∈ delivered d p k rs, (m.insert 99 v)[x.seq]? = m[x.seq]? := by
    intro m v x hx
    rw [ExtTreeMap.getElem?_insert, if_neg (by rw [LawfulEqCmp.compare_eq_iff_eq]; exact (h99 x hx).symm)]
  have hkept1 : ∀ x ∈ delivered d p k rs, ((peersAt r1 d p).idx k)[x.seq]? = some (some x.sample) := by
    intro x hx
    rw [hr1, hother _ _ x hx]
    exact idx_of_delivered rs hnew hx
  refine ⟨?_, ?_, ?_, ?_⟩
  · intro r' hr'
    rcases List.mem_pair.mp hr' with rfl | rfl
    · rw [hagg1, Option.map_some, hlost]
    · rw [hagg2, Option.map_some, hlost', hlost]
  · intro r' hr' x hx
    rcases List.mem_pair.mp hr' with rfl | rfl
    · exact hkept1 x hx
    · rw [hr2, hother _ _ x hx]
      exact hkept1 x hx
  · exact ⟨_, samplesOf_perm rs hnew, calcLoop_eq (notNull_deliver hnew)⟩
  · have hperm := devSamples_perm rs hnew tp
    rw [List.filter_eq_self.mpr fun x hx => decide_eq_true (h99 x hx)] at hperm
    refine ⟨tp, _, hagg1, hperm, ?_⟩
    rw [hr1, devLoop_insert (notNull_deliver hnew)]

/-- **With number 99 delivered the deviation misses a sample**: its count is too small. -/
theorem Collected.unreserved (h : Collected cfg d p k rs (deliver rs r0) r1 r2) (hnew : k ∉ peersAt r0 d p)
    (hne : delivered d p k rs ≠ []) (h1 : pfrCalcAvgRtt cfg p (deliver rs r0) = some r1)
    (h2 : pfrCalcStddevRtt p r1 = some r2) : ∀ x ∈ delivered d p k rs, x.seq ≠ 99 := by
  obtain ⟨tp, tp', hr1, -⟩ := phases_at hnew hne h1 h2
  obtain ⟨tp₁, l, -, hl, hloop⟩ := h.deviated
  rw [hr1, devLoop_insert (notNull_deliver hnew)] at hloop
  -- values may agree by accident, so the two loops are told apart by their counts
  have hcnt := congrArg DevAcc.cntRtt (Option.some.inj hloop)
  rw [foldl_devStep_cnt, foldl_devStep_cnt, (devSamples_perm rs hnew tp).length_eq, hl.length_eq, List.length_map,
    List.length_map] at hcnt
  have hlen : ((delivered d p k rs).filter fun x => x.seq ≠ 99).length = (delivered d p k rs).length := by omega
  intro x hx
  exact of_decide_eq_true (List.length_filter_eq_length_iff.mp hlen x hx)

/-- Both phases end. -/
theorem phases_isSome (cfg : Config) (hnew : ∀ (e : String) (j : Int), j ∉ peersAt r0 e p) (rs : List (Reply F)) :
    ∃ r1 r2, pfrCalcAvgRtt cfg p (deliver rs r0) = some r1 ∧ pfrCalcStddevRtt p r1 = some r2 := by
  have hround := roundSamples_deliver hnew rs
  obtain ⟨r1, h1⟩ := hround.calcAvg_isSome cfg
  obtain ⟨hround1, hagg⟩ := hround.calcAvg h1
  obtain ⟨r2, h2⟩ := hround1.calcStddev_isSome hagg
  exact ⟨r1, r2, h1, h2⟩

end Phases

omit [Dbl F] in
theorem mem_of_delivered {x : Reply F} {d : String} {p k : Int} {rs : List (Reply F)} (h : x ∈ delivered d p k rs) :
    x ∈ rs ∧ x.On d p k := by
  obtain ⟨hmem, hon⟩ := List.mem_filter.mp (mem_of_firstCopies h)
  exact ⟨hmem, of_decide_eq_true hon⟩

omit [Dbl F] in
theorem exists_delivered {x : Reply F} {d : String} {p k : Int} {rs : List (Reply F)} (h : x ∈ rs) (hon : x.On d p k) :
    ∃ y ∈ delivered d p k rs, y.seq = x.seq :=
  exists_firstCopy (List.mem_filter.mpr ⟨h, decide_eq_true hon⟩)

/-- **When the collection is exact**: for any number of requests, any path with a reply
and whatever the network delivers in a round nothing was recorded for before, exactly if
no reply of the path has number 99; so always below 100 requests. The replies are those
received before the first phase: nothing is recorded between the two. -/
theorem collected_iff_unreserved (cfg : Config) {r0 : RData F} {p : Int}
    (hnew : ∀ (e : String) (j : Int), j ∉ peersAt r0 e p) (rs : List (Reply F)) {d : String} {k : Int}
    (hsome : ∃ x ∈ rs, x.On d p k) :
    ∃ r1 r2, pfrCalcAvgRtt cfg p (deliver rs r0) = some r1 ∧ pfrCalcStddevRtt p r1 = some r2 ∧
      (Collected cfg d p k rs (deliver rs r0) r1 r2 ↔ ∀ x ∈ rs, x.On d p k → x.seq ≠ 99) ∧
      (cfg.pfrPingReq ≤ 99 → (∀ x ∈ rs, x.On d p k → x.seq ∈ requestSeqs cfg) →
        Collected cfg d p k rs (deliver rs r0) r1 r2) := by
  obtain ⟨x, hx, hon⟩ := hsome
  obtain ⟨y, hy, -⟩ := exists_delivered hx hon
  have hne : delivered d p k rs ≠ [] := List.ne_nil_of_mem hy
  obtain ⟨r1, r2, h1, h2⟩ := phases_isSome cfg hnew rs
  have hiff : Collected cfg d p k rs (deliver rs r0) r1 r2 ↔ ∀ x ∈ rs, x.On d p k → x.seq ≠ 99 := by
    constructor
    · intro h x hx hon
      obtain ⟨y, hy, hseq⟩ := exists_delivered hx hon
      rw [← hseq]
      exact h.unreserved (hnew d k) hne h1 h2 y hy
    · intro h
      refine Collected.of_unreserved (hnew d k) hne h1 h2 ?_
      intro x hx
      obtain ⟨hmem, hon⟩ := mem_of_delivered hx
      exact h x hmem hon
  refine ⟨r1, r2, h1, h2, hiff, ?_⟩
  intro hfew hseqs
  refine hiff.mpr ?_
  intro x hx hon h99
  exact reserved_not_requested hfew (h99 ▸ hseqs x hx hon)

omit [Dbl F] in
theorem not_mem_peersAt_empty (p : Int) (e : String) (j : Int) : j ∉ peersAt (∅ : RData F) e p := by
  intro hj
  have hget := peersAt_of_not_mem (r := (∅ : RData F)) (d := e) ExtTreeMap.not_mem_empty p j
  rw [ExtTreeMap.getElem?_idx hj] at hget
  cases hget

/-- Five requests; the third is answered twice and before the first, two are lost. -/
theorem collected_run : ∃ rs : List (Reply ℚ), (∃ x ∈ rs, x.On "198.51.100.7" 1 1) ∧
    (delivered "198.51.100.7" 1 1 rs).map Reply.seq = [2, 0, 4] ∧
    ∃ r1 r2, pfrCalcAvgRtt Config.default 1 (deliver rs ∅) = some r1 ∧ pfrCalcStddevRtt 1 r1 = some r2 ∧
      Collected Config.default "198.51.100.7" 1 1 rs (deliver rs ∅) r1 r2 := by
  let rs : List (Reply ℚ) := [⟨"198.51.100.7", 1, 1, 2, 30, 0⟩, ⟨"198.51.100.7", 1, 1, 0, 20, 0⟩,
    ⟨"198.51.100.7", 1, 1, 2, 45, 0⟩, ⟨"198.51.100.7", 1, 1, 4, 25, 0⟩]
  have hsome : ∃ x ∈ rs, x.On "198.51.100.7" 1 1 := ⟨_, List.mem_cons_self, rfl, rfl, rfl⟩
  obtain ⟨r1, r2, h1, h2, -, hall⟩ := collected_iff_unreserved Config.default (not_mem_peersAt_empty 1) rs hsome
  refine ⟨rs, hsome, by decide +kernel, r1, r2, h1, h2, hall (by decide) ?_⟩
  decide +kernel

/-- A hundred requests, of which the last is answered. -/
theorem reserved_number_lost : ¬∀ (cfg : Config) (rs : List (Reply ℚ)), 1 ≤ cfg.pfrPingReq → rs ≠ [] →
    (∀ x ∈ rs, x.On "198.51.100.7" 1 1 ∧ x.seq ∈ requestSeqs cfg) →
    ∀ r1 r2, pfrCalcAvgRtt cfg 1 (deliver rs ∅) = some r1 → pfrCalcStddevRtt 1 r1 = some r2 →
      Collected cfg "198.51.100.7" 1 1 rs (deliver rs ∅) r1 r2 := by
  intro hall
  let cfg : Config := { Config.default with pfrPingReq := 100 }
  let rs : List (Reply ℚ) := [⟨"198.51.100.7", 1, 1, 99, 20, 0⟩]
  obtain ⟨r1, r2, h1, h2⟩ := phases_isSome cfg (not_mem_peersAt_empty 1) rs
  have hcol := hall cfg rs (by decide) (by decide) (by decide +kernel) r1 r2 h1 h2
  have hmem : (⟨"198.51.100.7", 1, 1, 99, 20, 0⟩ : Reply ℚ) ∈ delivered "198.51.100.7" 1 1 rs := List.mem_cons_self
  exact hcol.unreserved (not_mem_peersAt_empty _ _ _) (List.ne_nil_of_mem hmem) h1 h2 _ hmem rfl

end Pfr

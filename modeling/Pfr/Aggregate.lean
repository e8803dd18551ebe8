import Pfr.Calc
import Pfr.Lib.Stats

/- What `pfr_calc_avg_rtt` stores at a path, the doubles read as rationals. The loop
   keeps `curr_rtt`, `m_rtt`, `max_rtt`, `cnt_rtt` and `alive` in variables of the whole
   function and puts them back by hand once per peer; the aggregate goes into the map
   the loop has just walked.

   1. `calcLoop_eq`: over samples none of which is NULL the loop is a fold over them;
   2. `foldl_calcSample`: its variables are the sum, the running extremes and the count;
   3. `Aggregates`: the aggregate a path's samples are to have;
   4. `aggregates_each_path`: it is stored, it depends on no other path, and nothing that
      was there is changed. -/
namespace Pfr

open Std

section Loop
variable {F : Type}

/-- The records the loop over `r[dst_ip][probe_id][peer_id]` reads, in its order. -/
def samplesOf (samples : Samples F) : List (Tparm F) := samples.toList.filterMap Prod.snd

theorem mem_samplesOf {samples : Samples F} {tp : Tparm F} :
    tp ∈ samplesOf samples ↔ ∃ s : Int, samples[s]? = some (some tp) := by
  rw [samplesOf, List.mem_filterMap]
  constructor
  · intro h
    obtain ⟨kv, hkv, heq⟩ := h
    exact ⟨kv.1, by rw [← heq]; exact ExtTreeMap.mem_toList_iff_getElem?_eq_some.mp hkv⟩
  · intro h
    obtain ⟨s, hs⟩ := h
    exact ⟨(s, some tp), ExtTreeMap.mem_toList_iff_getElem?_eq_some.mpr hs, rfl⟩

variable [Dbl F]

theorem calcLoop_eq {samples : Samples F} (h : ∀ (s : Int) (v : Option (Tparm F)), samples[s]? = some v → v.isSome) :
    calcLoop samples = some ((samplesOf samples).foldl calcSample CalcAcc.init) :=
  List.foldlM_deref _ _ fun kv hkv => h kv.1 kv.2 (ExtTreeMap.mem_toList_iff_getElem?_eq_some.mp hkv)

/-- It counts the samples. -/
theorem foldl_calcSample_count : ∀ (l : List (Tparm F)) (a : CalcAcc F),
    (l.foldl calcSample a).cntRtt = a.cntRtt + l.length ∧ (l.foldl calcSample a).alive = a.alive + l.length
  | [], a => by simp
  | tp :: l, a => by
    obtain ⟨hcnt, halive⟩ := foldl_calcSample_count l (calcSample a tp)
    rw [List.foldl_cons, hcnt, halive, List.length_cons]
    simp only [calcSample]
    omega

end Loop

/-! ## One path -/

/-- The sum and the running extremes after the loop, started from any values. -/
theorem foldl_calcSample : ∀ (l : List (Tparm ℚ)) (a : CalcAcc ℚ),
    (l.foldl calcSample a).currRtt = a.currRtt + (l.map Tparm.rtt).sum ∧
      (l.foldl calcSample a).mRtt = (l.map Tparm.rtt).foldl min a.mRtt ∧
      (l.foldl calcSample a).maxRtt = (l.map Tparm.rtt).foldl max a.maxRtt
  | [], a => by simp
  | tp :: l, a => by
    obtain ⟨hcurr, hmin, hmax⟩ := foldl_calcSample l (calcSample a tp)
    have hmRtt : (calcSample a tp).mRtt = min a.mRtt tp.rtt := by
      simp only [calcSample]
      rw [min_comm, min_def_lt]
    have hmaxRtt : (calcSample a tp).maxRtt = max a.maxRtt tp.rtt := by
      simp only [calcSample]
      rw [max_def_lt]
    have hcurrRtt : (calcSample a tp).currRtt = a.currRtt + tp.rtt := rfl
    rw [List.foldl_cons, hcurr, hmin, hmax, hmRtt, hmaxRtt, hcurrRtt, List.map_cons, List.sum_cons, add_assoc]
    exact ⟨rfl, rfl, rfl⟩

/-- `tp` is the aggregate of the round-trip times `xs`. -/
structure Aggregates (cfg : Config) (xs : List ℚ) (tp : Tparm ℚ) : Prop where
  least : IsLeast {x | x ∈ xs} tp.minRtt
  greatest : IsGreatest {x | x ∈ xs} tp.maxRtt
  rounded : IsLeast {y : ℚ | (∃ i : ℤ, y = i / 100) ∧ xs.sum / xs.length ≤ y} tp.avgRtt
  notBelow : tp.minRtt ≤ tp.avgRtt
  notAbove : tp.avgRtt < tp.maxRtt + 1 / 100
  lost : tp.lost = cfg.pfrPingReq - xs.length
  metric : tp.metric1 = tp.minRtt * (1 + tp.lost)

/-- **The aggregate of samples the variables can hold.** -/
theorem aggregates_foldl (cfg : Config) {l : List (Tparm ℚ)} (hne : l ≠ [])
    (hrange : ∀ tp ∈ l, 0 ≤ tp.rtt ∧ tp.rtt ≤ 50000) :
    Aggregates cfg (l.map Tparm.rtt) (aggregate cfg (l.foldl calcSample CalcAcc.init)) := by
  obtain ⟨hcurr, hmin, hmax⟩ := foldl_calcSample l CalcAcc.init
  obtain ⟨hcnt, halive⟩ := foldl_calcSample_count l (CalcAcc.init (F := ℚ))
  have hxs : l.map Tparm.rtt ≠ [] := fun h => hne (List.map_eq_nil_iff.mp h)
  have hleast : IsLeast {x | x ∈ l.map Tparm.rtt} (l.foldl calcSample CalcAcc.init).mRtt := by
    rw [hmin]
    refine Stats.isLeast_foldl_min hxs ?_
    intro x hx
    obtain ⟨tp, htp, rfl⟩ := List.mem_map.mp hx
    exact (hrange tp htp).2
  have hgreatest : IsGreatest {x | x ∈ l.map Tparm.rtt} (l.foldl calcSample CalcAcc.init).maxRtt := by
    rw [hmax]
    refine Stats.isGreatest_foldl_max hxs ?_
    intro x hx
    obtain ⟨tp, htp, rfl⟩ := List.mem_map.mp hx
    exact (hrange tp htp).1
  -- the stored average is the mean rounded up to hundredths
  have havg : (aggregate cfg (l.foldl calcSample CalcAcc.init)).avgRtt =
      Stats.roundUp 100 (Stats.mean (l.map Tparm.rtt)) := by
    change ((⌈(l.foldl calcSample CalcAcc.init).currRtt * ((100 : Int) : ℚ) / ((l.foldl calcSample CalcAcc.init).cntRtt : ℚ)⌉ : Int) : ℚ) /
      ((100 : Int) : ℚ) = _
    rw [hcurr, hcnt, Stats.roundUp, Stats.mean, List.length_map]
    simp [CalcAcc.init, Dbl.num, div_mul_eq_mul_div]
  have hbelow := Stats.le_mean hxs fun x hx => hleast.2 hx
  have habove := Stats.mean_le hxs fun x hx => hgreatest.2 hx
  have hup := Stats.isLeast_roundUp (K := ℚ) (n := 100) (by norm_num) (Stats.mean (l.map Tparm.rtt))
  refine ⟨hleast, hgreatest, ?_, ?_, ?_, ?_, ?_⟩
  · rw [havg]
    exact hup
  · rw [havg]
    exact hbelow.trans hup.1.2
  · rw [havg]
    exact (Stats.roundUp_lt (by norm_num) _).trans_le (by gcongr; exact habove)
  · change cfg.pfrPingReq - (l.foldl calcSample CalcAcc.init).alive = _
    rw [halive, List.length_map]
    simp [CalcAcc.init]
  · -- `m_rtt + m_rtt * lost`
    change (l.foldl calcSample CalcAcc.init).mRtt + (l.foldl calcSample CalcAcc.init).mRtt * _ = _ * (1 + _)
    rw [mul_add, mul_one]
    rfl

/-! ## Every path -/

/-- Every sample of the round is there, of 0 to 50000 ms, and not at the aggregate's key. -/
def Measured (p : Int) (r : RData ℚ) : Prop :=
  ∀ (d : String) (k s : Int) (v : Option (Tparm ℚ)), ((peersAt r d p).idx k)[s]? = some v →
    s ≠ 99 ∧ ∃ tp, v = some tp ∧ 0 ≤ tp.rtt ∧ tp.rtt ≤ 50000

theorem Measured.calcPeer {p : Int} {r : RData ℚ} (h : Measured p r) (cfg : Config) (d : String) (k : Int) :
    calcPeer cfg ((peersAt r d p).idx k) = some (((peersAt r d p).idx k).insert 99
      (some (aggregate cfg ((samplesOf ((peersAt r d p).idx k)).foldl calcSample CalcAcc.init)))) := by
  rw [Pfr.calcPeer, calcLoop_eq, Option.map_some]
  intro s v hv
  obtain ⟨-, tp, rfl, -⟩ := h d k s v hv
  rfl

/-- Replies with such round-trip times keep a round measured. -/
theorem Measured.record {p : Int} {r : RData ℚ} (h : Measured p r) {x : Reply ℚ}
    (hx : x.probeId = p → x.seq ≠ 99 ∧ 0 ≤ x.rtt ∧ x.rtt ≤ 50000) : Measured p (record x r) := by
  intro d k s v hv
  rw [samples_record] at hv
  split at hv
  · next heq =>
    rcases putSample_cases hv with hv | ⟨rfl, rfl⟩
    · exact h d k s v hv
    · obtain ⟨hseq, hrange⟩ := hx heq.2.1
      exact ⟨hseq, _, rfl, hrange⟩
  · exact h d k s v hv

section Round
variable {cfg : Config} {p : Int} {r r' : RData ℚ} (h : Measured p r)

include h

theorem Measured.calcAvg_isSome (cfg : Config) : ∃ r', pfrCalcAvgRtt cfg p r = some r' := by
  refine mapPeers_isSome ?_
  intro d k s hs
  have hpeer := h.calcPeer cfg d k
  rw [ExtTreeMap.idx_of_getElem? hs] at hpeer
  rw [hpeer]
  rfl

/-- What is stored at a path is a function of its samples alone. -/
theorem Measured.aggAt_calcAvg {r₂ r₂' : RData ℚ} (h₂ : pfrCalcAvgRtt cfg p r₂ = some r₂') {d : String} {k s : Int}
    (hsame : (peersAt r₂ d p).idx k = (peersAt r d p).idx k) (hs : s ∈ (peersAt r d p).idx k) : aggAt (peersAt r₂' d p) k =
      some (aggregate cfg ((samplesOf ((peersAt r d p).idx k)).foldl calcSample CalcAcc.init)) := by
  have hpeer := samples_mapPeers h₂ (s := s) (by rw [hsame]; exact hs)
  rw [hsame, h.calcPeer cfg] at hpeer
  rw [aggAt, ← Option.some.inj hpeer, ExtTreeMap.idx_insert, if_pos rfl]

theorem Measured.samples_ne_nil {d : String} {k s : Int} (hs : s ∈ (peersAt r d p).idx k) :
    samplesOf ((peersAt r d p).idx k) ≠ [] := by
  intro hnil
  obtain ⟨-, tp, htp, -⟩ := h d k s _ (ExtTreeMap.getElem?_idx hs)
  have hmem : tp ∈ samplesOf ((peersAt r d p).idx k) :=
    mem_samplesOf.mpr ⟨s, by rw [ExtTreeMap.getElem?_idx hs, htp]⟩
  rw [hnil] at hmem
  cases hmem

theorem Measured.range {d : String} {k : Int} {tp : Tparm ℚ} (htp : tp ∈ samplesOf ((peersAt r d p).idx k)) :
    0 ≤ tp.rtt ∧ tp.rtt ≤ 50000 := by
  obtain ⟨s, hs⟩ := mem_samplesOf.mp htp
  obtain ⟨-, tp', heq, hrange⟩ := h d k s _ hs
  cases heq
  exact hrange

/-- What was stored stays: in the round itself the aggregate's key was free. -/
theorem Measured.kept (hrun : pfrCalcAvgRtt cfg p r = some r') {d : String} {q k s : Int} {v : Option (Tparm ℚ)}
    (hv : ((peersAt r d q).idx k)[s]? = some v) : ((peersAt r' d q).idx k)[s]? = some v := by
  have hs : s ∈ (peersAt r d q).idx k := ExtTreeMap.mem_of_getElem? hv
  by_cases hq : p = q
  · subst hq
    have hpeer := samples_mapPeers hrun hs
    rw [h.calcPeer cfg] at hpeer
    rw [← Option.some.inj hpeer, ExtTreeMap.getElem?_insert, if_neg, hv]
    rw [LawfulEqCmp.compare_eq_iff_eq]
    exact (h d k s v hv).1.symm
  · rw [peersAt_mapPeers_ne hrun d hq]
    exact hv

end Round

/-- **Every path gets its own aggregate.** In a round all of whose samples are there and
of 0 to 50000 ms, the phase ends; each path with samples has the aggregate of these and
of nothing else, and what was stored anywhere is there as it was. -/
theorem aggregates_each_path (cfg : Config) {p : Int} {r : RData ℚ} (h : Measured p r) :
    ∃ r', pfrCalcAvgRtt cfg p r = some r' ∧
      (∀ (d : String) (k : Int), (∃ s, s ∈ (peersAt r d p).idx k) → ∃ tp, aggAt (peersAt r' d p) k = some tp ∧
        Aggregates cfg ((samplesOf ((peersAt r d p).idx k)).map Tparm.rtt) tp ∧
        ∀ r₂ r₂', pfrCalcAvgRtt cfg p r₂ = some r₂' → (peersAt r₂ d p).idx k = (peersAt r d p).idx k →
          aggAt (peersAt r₂' d p) k = some tp) ∧
      ∀ (d : String) (q k s : Int) (v : Option (Tparm ℚ)), ((peersAt r d q).idx k)[s]? = some v →
        ((peersAt r' d q).idx k)[s]? = some v := by
  obtain ⟨r', hr'⟩ := h.calcAvg_isSome cfg
  refine ⟨r', hr', ?_, ?_⟩
  · intro d k hne
    obtain ⟨s, hs⟩ := hne
    refine ⟨_, h.aggAt_calcAvg hr' rfl hs, aggregates_foldl cfg (h.samples_ne_nil hs) ?_, ?_⟩
    · intro tp htp
      exact h.range htp
    · intro r₂ r₂' h₂ hsame
      exact h.aggAt_calcAvg h₂ hsame hs
  · intro d q k s v hv
    exact h.kept hr' hv

/-- Round 1 with two replies of one path, 20 ms and 33 ms: minimum 20, maximum 33,
average 26.5, and three of five lost. -/
theorem aggregates_two_replies :
    ∃ r r' : RData ℚ, ∃ tp, Measured 1 r ∧ pfrCalcAvgRtt Config.default 1 r = some r' ∧
      aggAt (peersAt r' "198.51.100.7" 1) 1 = some tp ∧ Aggregates Config.default [20, 33] tp := by
  have hempty : Measured 1 ∅ := by
    intro d k s v hv
    obtain ⟨hd, -⟩ := path_of_sample (ExtTreeMap.mem_of_getElem? hv)
    exact absurd hd ExtTreeMap.not_mem_empty
  have hmeasured := (hempty.record (x := ⟨"198.51.100.7", 1, 1, 0, 20, 0⟩) fun _ => by norm_num).record
    (x := ⟨"198.51.100.7", 1, 1, 1, 33, 0⟩) fun _ => by norm_num
  obtain ⟨r', hr', hpaths, -⟩ := aggregates_each_path Config.default hmeasured
  obtain ⟨tp, htp, hagg, -⟩ := hpaths "198.51.100.7" 1 ⟨0, by decide +kernel⟩
  refine ⟨_, r', tp, hmeasured, hr', htp, ?_⟩
  have hxs : (samplesOf ((peersAt (record ⟨"198.51.100.7", 1, 1, 1, 33, 0⟩
      (record ⟨"198.51.100.7", 1, 1, 0, 20, 0⟩ (∅ : RData ℚ))) "198.51.100.7" 1).idx 1)).map Tparm.rtt = [20, 33] := by
    decide +kernel
  rw [hxs] at hagg
  exact hagg

end Pfr

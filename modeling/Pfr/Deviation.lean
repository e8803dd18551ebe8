import Pfr.Samples
import Mathlib.Analysis.Real.Sqrt

/- The two fields `pfr_calc_stddev_rtt` sets. It collects the samples of a path, whose
   aggregate at key 99 is there already, and stores of them

     `mediana`  at an odd size n ≥ 3 the element behind the middle one, `at(xnm + 1)`;
     `stddev`   `ceil(sqrt(dispersion / cnt) * 100 / cnt) / 100`, divided by the count
                once more after the root.

   1. `stored_at`: what is stored at a path, as a function of its own samples and average;
   2. `mediana_iff`, `median_stored_iff`: when it is their median;
   3. `devOf_iff`, `deviation_stored_iff`: when it is their deviation, the doubles read as
      reals. -/
namespace Pfr

open Std

section Stored
variable {F : Type}

/-- The values the loop collects at a path, in key order. -/
def sampleRtts (samples : Samples F) : List F :=
  ((samples.toList.filter fun kv => kv.1 ≠ 99).filterMap Prod.snd).map Tparm.rtt

variable [Dbl F]

/-- `dispersion` after the loop. -/
def dispersion (avgRtt : F) (xs : List F) : F :=
  xs.foldl (fun d x => d + (x - avgRtt) * (x - avgRtt)) (Dbl.num 0)

/-- `stddev` of the values collected. -/
def devOf (avgRtt : F) (xs : List F) : F :=
  Dbl.ceil (Dbl.sqrt (dispersion avgRtt xs / Dbl.num xs.length) * Dbl.num 100 / Dbl.num xs.length) / Dbl.num 100

theorem foldl_devStep (avgRtt : F) : ∀ (l : List (Tparm F)) (a : DevAcc F),
    (l.foldl (devStep avgRtt) a).smediana = a.smediana ++ l.map Tparm.rtt ∧
      (l.foldl (devStep avgRtt) a).dispersion =
        (l.map Tparm.rtt).foldl (fun d x => d + (x - avgRtt) * (x - avgRtt)) a.dispersion
  | [], a => by simp
  | tp :: l, a => by
    obtain ⟨hmed, hdisp⟩ := foldl_devStep avgRtt l (devStep avgRtt a tp)
    rw [List.foldl_cons, hmed, hdisp, List.map_cons, List.foldl_cons]
    simp [devStep]

/-- One path: the loop collects the samples, and the two fields are set. -/
theorem stddevPeer_stored {samples : Samples F} (h : SamplesOk samples) {tp : Tparm F} (h99 : samples.idx 99 = some tp) :
    ∃ med, mediana (sampleRtts samples) = some med ∧ stddevPeer samples =
      some (samples.insert 99 (some { tp with stddevRtt := devOf tp.avgRtt (sampleRtts samples), medianaRtt := med })) := by
  have hloop : devLoop tp.avgRtt samples = some (((samples.toList.filter fun kv => kv.1 ≠ 99).filterMap Prod.snd).foldl
      (devStep tp.avgRtt) ⟨Dbl.num 0, 0, []⟩) :=
    foldlM_devSample tp.avgRtt _ _ fun kv hkv => h.notNull kv.1 kv.2 (ExtTreeMap.mem_toList_iff_getElem?_eq_some.mp hkv)
  obtain ⟨hmed, hdisp⟩ := foldl_devStep tp.avgRtt ((samples.toList.filter fun kv => kv.1 ≠ 99).filterMap Prod.snd)
    ⟨Dbl.num 0, 0, []⟩
  have hcnt := foldl_devStep_cnt tp.avgRtt ((samples.toList.filter fun kv => kv.1 ≠ 99).filterMap Prod.snd)
    ⟨Dbl.num 0, 0, []⟩
  obtain ⟨med, hsome⟩ := Option.isSome_iff_exists.mp (mediana_isSome (sampleRtts samples))
  refine ⟨med, hsome, ?_⟩
  rw [stddevPeer_eq, h99, Option.bind_some, hloop, Option.bind_some, hmed, hdisp, hcnt, List.nil_append]
  rw [sampleRtts] at hsome
  rw [hsome, Option.map_some, devOf, dispersion, sampleRtts, List.length_map, Int.zero_add]

omit [Dbl F] in
theorem mem_of_sampleRtts {r : RData F} {d : String} {p k : Int} (h : sampleRtts ((peersAt r d p).idx k) ≠ []) :
    k ∈ peersAt r d p := by
  by_contra hk
  rw [ExtTreeMap.idx_of_not_mem hk] at h
  exact h rfl

section Path
variable {p : Int} {r r' : RData F} {d : String} {k : Int}

/-- **What the phase leaves at a path.** -/
theorem stored_at (h : RoundSamples p r) (hagg : AggInv p r) (hrun : pfrCalcStddevRtt p r = some r')
    (hk : k ∈ peersAt r d p) : ∃ tp tp', aggAt (peersAt r d p) k = some tp ∧ aggAt (peersAt r' d p) k = some tp' ∧
      tp'.stddevRtt = devOf tp.avgRtt (sampleRtts ((peersAt r d p).idx k)) ∧
      mediana (sampleRtts ((peersAt r d p).idx k)) = some tp'.medianaRtt := by
  have hok := h d k _ (ExtTreeMap.getElem?_idx hk)
  obtain ⟨tp, htp⟩ := Option.isSome_iff_exists.mp (hagg d k hk)
  obtain ⟨s, hs⟩ := hok.nonempty
  obtain ⟨med, hmed, hpeer⟩ := stddevPeer_stored hok htp
  have hr' := (Option.some.inj (hpeer.symm.trans (samples_mapPeers hrun hs))).symm
  refine ⟨tp, { tp with stddevRtt := devOf tp.avgRtt (sampleRtts ((peersAt r d p).idx k)), medianaRtt := med }, htp, ?_,
    rfl, hmed⟩
  rw [aggAt, hr', ExtTreeMap.idx_insert, if_pos rfl]

end Path

end Stored

/-! ## The median -/

section Median
variable {F : Type} [Dbl F]

/-- `m` is the median of the values, and so splits them in halves. -/
def MedianOf (xs : List F) (m : F) : Prop :=
  Stats.IsMedian (fun a b => ¬b < a) (fun a b => (a + b) / Dbl.num 2) xs m ∧ Stats.Halves (fun a b => ¬b < a) xs m

/-- The number of values is even or 1, or the middle one and the next are equal. -/
def MiddleRepeats (xs : List F) : Prop :=
  xs.length % 2 = 0 ∨ xs.length = 1 ∨ (xs.insertionSort (fun a b => ¬b < a))[xs.length / 2]? =
    (xs.insertionSort (fun a b => ¬b < a))[xs.length / 2 + 1]?

instance [DecidableEq F] (xs : List F) : Decidable (MiddleRepeats xs) := inferInstanceAs (Decidable (_ ∨ _ ∨ _))

variable [DblOrder F] [DblMean F]

theorem medianOf_iff {xs : List F} (hne : xs ≠ []) {m : F} :
    MedianOf xs m ↔ Stats.IsMedian (fun a b => ¬b < a) (fun a b => (a + b) / Dbl.num 2) xs m := by
  refine ⟨And.left, fun h => ⟨h, h.halves ?_ hne⟩⟩
  exact fun a b hab => ⟨DblMean.notBelow a b hab, DblMean.notAbove a b hab⟩

/-- **When the element taken is the median.** -/
theorem mediana_iff {xs : List F} (hne : xs ≠ []) {m : F} (h : mediana xs = some m) :
    MedianOf xs m ↔ MiddleRepeats xs := by
  have hlen : 0 < xs.length := List.length_pos_iff.mpr hne
  rw [medianOf_iff hne, Stats.isMedian_iff, MiddleRepeats]
  unfold mediana at h
  simp only at h
  rw [if_neg (by omega)] at h
  split at h
  · next h1 =>
    rw [h1, if_pos rfl]
    exact ⟨fun _ => Or.inr (Or.inl rfl), fun _ => h⟩
  · next h1 =>
    split at h
    · next hodd =>
      -- the element stored is the one behind the middle
      rw [if_pos (by omega), h]
      simp [h1, show ¬xs.length % 2 = 0 by omega]
    · next heven =>
      rw [if_neg (by omega)]
      simp only [Option.bind_eq_bind, Option.bind_eq_some_iff, Option.pure_def, Option.some.injEq] at h
      obtain ⟨a, ha, b, hb, hm⟩ := h
      constructor
      · exact fun _ => Or.inl (by omega)
      · exact fun _ => ⟨a, b, ha, hb, hm.symm⟩

/-- **When the stored median is the median.** In every round with samples and aggregates
the phase ends, and at each path that has samples it stores their median exactly if their
number is even or 1 or the middle one comes twice. -/
theorem median_stored_iff {p : Int} {r : RData F} (h : RoundSamples p r) (hagg : AggInv p r) :
    ∃ r', pfrCalcStddevRtt p r = some r' ∧ ∀ (d : String) (k : Int), sampleRtts ((peersAt r d p).idx k) ≠ [] →
      ∃ tp, aggAt (peersAt r' d p) k = some tp ∧
        (MedianOf (sampleRtts ((peersAt r d p).idx k)) tp.medianaRtt ↔ MiddleRepeats (sampleRtts ((peersAt r d p).idx k))) := by
  obtain ⟨r', hr'⟩ := h.calcStddev_isSome hagg
  refine ⟨r', hr', ?_⟩
  intro d k hne
  obtain ⟨-, tp, -, htp, -, hmed⟩ := stored_at h hagg hr' (mem_of_sampleRtts hne)
  exact ⟨tp, htp, mediana_iff hne hmed⟩

end Median

/-- Two replies of one path, and the mean of the two is stored. -/
theorem median_of_two : ∃ r r' : RData ℚ, sampleRtts ((peersAt r "198.51.100.7" 1).idx 1) = [30, 10] ∧
    pfrCalcStddevRtt 1 r = some r' ∧ ∃ tp, aggAt (peersAt r' "198.51.100.7" 1) 1 = some tp ∧ MedianOf [30, 10] tp.medianaRtt := by
  obtain ⟨r, hr, hxs⟩ : ∃ r ∈ pfrCalcAvgRtt Config.default 1 (deliver [⟨"198.51.100.7", 1, 1, 1, 10, 0⟩,
      ⟨"198.51.100.7", 1, 1, 0, 30, 0⟩] (∅ : RData ℚ)), sampleRtts ((peersAt r "198.51.100.7" 1).idx 1) = [30, 10] := by
    decide +kernel
  obtain ⟨hround, hagg⟩ := (roundSamples_deliver (not_mem_peersAt_empty 1) _).calcAvg hr
  obtain ⟨r', hr', hall⟩ := median_stored_iff hround hagg
  obtain ⟨tp, htp, hiff⟩ := hall "198.51.100.7" 1 (by rw [hxs]; exact List.cons_ne_nil _ _)
  rw [hxs] at hiff
  exact ⟨r, r', hxs, hr', tp, htp, hiff.mpr (Or.inl rfl)⟩

/-- Three replies of one path give a round with samples and aggregates. -/
theorem three_replies : ∃ r : RData ℚ, RoundSamples 1 r ∧ AggInv 1 r ∧
    sampleRtts ((peersAt r "198.51.100.7" 1).idx 1) = [10, 20, 30] := by
  obtain ⟨r, hr, hxs⟩ : ∃ r ∈ pfrCalcAvgRtt Config.default 1 (deliver [⟨"198.51.100.7", 1, 1, 0, 10, 0⟩,
      ⟨"198.51.100.7", 1, 1, 1, 20, 0⟩, ⟨"198.51.100.7", 1, 1, 2, 30, 0⟩] (∅ : RData ℚ)),
      sampleRtts ((peersAt r "198.51.100.7" 1).idx 1) = [10, 20, 30] := by
    decide +kernel
  obtain ⟨hround, hagg⟩ := (roundSamples_deliver (not_mem_peersAt_empty 1) _).calcAvg hr
  exact ⟨r, hround, hagg, hxs⟩

/-- Of 10, 20 and 30 ms the phase stores 30. -/
theorem median_above_middle : ¬∀ (p : Int) (r r' : RData ℚ), RoundSamples p r → AggInv p r →
    pfrCalcStddevRtt p r = some r' → ∀ (d : String) (k : Int), sampleRtts ((peersAt r d p).idx k) ≠ [] →
    ∀ tp ∈ aggAt (peersAt r' d p) k, MedianOf (sampleRtts ((peersAt r d p).idx k)) tp.medianaRtt := by
  intro hall
  obtain ⟨r, hround, hagg, hxs⟩ := three_replies
  obtain ⟨r', hr'⟩ := hround.calcStddev_isSome hagg
  have hne : sampleRtts ((peersAt r "198.51.100.7" 1).idx 1) ≠ [] := by rw [hxs]; exact List.cons_ne_nil _ _
  obtain ⟨-, tp, -, htp, -, hmed⟩ := stored_at hround hagg hr' (mem_of_sampleRtts hne)
  have hmedian := (mediana_iff hne hmed).mp (hall 1 r r' hround hagg hr' _ _ hne tp htp)
  rw [hxs] at hmedian
  exact absurd hmedian (by decide +kernel)

/-! ## The deviation -/

section Deviation

/-- Doubles read as reals. -/
noncomputable instance : Dbl ℝ := Dbl.exact ℝ Real.sqrt

/-- The mean of the squared distances from `a`. -/
noncomputable def meanSquare (a : ℝ) (xs : List ℝ) : ℝ := (xs.map fun x => (x - a) ^ 2).sum / xs.length

/-- The standard deviation about `a`, rounded up to hundredths. -/
def DeviationOf (a : ℝ) (xs : List ℝ) (s : ℝ) : Prop :=
  IsLeast {y : ℝ | 0 ≤ y ∧ (∃ i : ℤ, y = i / 100) ∧ meanSquare a xs ≤ y ^ 2} s

theorem deviationOf_iff {a : ℝ} {xs : List ℝ} {s : ℝ} :
    DeviationOf a xs s ↔ s = Stats.roundUp 100 (Real.sqrt (meanSquare a xs)) := by
  have hset : {y : ℝ | 0 ≤ y ∧ (∃ i : ℤ, y = i / 100) ∧ meanSquare a xs ≤ y ^ 2} =
      {y : ℝ | (∃ i : ℤ, y = i / 100) ∧ Real.sqrt (meanSquare a xs) ≤ y} := by
    ext y
    simp only [Set.mem_ofPred_eq, Real.sqrt_le_iff]
    tauto
  have hleast : IsLeast {y : ℝ | (∃ i : ℤ, y = i / 100) ∧ Real.sqrt (meanSquare a xs) ≤ y} _ :=
    Stats.isLeast_roundUp (by norm_num : (0 : ℝ) < 100) _
  rw [DeviationOf, hset]
  constructor
  · intro h
    exact h.unique hleast
  · intro h
    rw [h]
    exact hleast

theorem foldl_squares (a : ℝ) : ∀ (xs : List ℝ) (b : ℝ),
    xs.foldl (fun d x => d + (x - a) * (x - a)) b = b + (xs.map fun x => (x - a) ^ 2).sum
  | [], b => by simp
  | x :: xs, b => by
    rw [List.foldl_cons, foldl_squares a xs, List.map_cons, List.sum_cons]
    ring

/-- After the root the code divides by the count once more. -/
theorem devOf_real (a : ℝ) (xs : List ℝ) :
    devOf a xs = (⌈Real.sqrt (meanSquare a xs) * 100 / xs.length⌉ : ℤ) / 100 := by
  have h0 : (Dbl.num 0 : ℝ) = 0 := Int.cast_zero
  have h100 : (Dbl.num 100 : ℝ) = 100 := Int.cast_ofNat 100
  have hlen : (Dbl.num xs.length : ℝ) = xs.length := Int.cast_natCast _
  have hdisp : dispersion a xs = (xs.map fun x => (x - a) ^ 2).sum := by
    rw [dispersion, h0, foldl_squares, zero_add]
  rw [devOf, hdisp, h100, hlen]
  rfl

/-- **When the value stored is the deviation.** -/
theorem devOf_iff {a : ℝ} {xs : List ℝ} (hne : xs ≠ []) :
    DeviationOf a xs (devOf a xs) ↔ xs.length = 1 ∨ meanSquare a xs ≤ 1 / 10000 := by
  have hlen : 1 ≤ xs.length := List.length_pos_iff.mpr hne
  have hroot : Real.sqrt (meanSquare a xs) * 100 ≤ 1 ↔ meanSquare a xs ≤ 1 / 10000 := by
    rw [← le_div_iff₀ (by norm_num : (0 : ℝ) < 100), Real.sqrt_le_left (by norm_num)]
    norm_num
  have hceil := Stats.ceil_div_eq_iff (mul_nonneg (Real.sqrt_nonneg (meanSquare a xs)) (by norm_num : (0 : ℝ) ≤ 100)) hlen
  rw [deviationOf_iff, devOf_real, Stats.roundUp, div_left_inj' (by norm_num : (100 : ℝ) ≠ 0), Int.cast_inj, hceil, hroot]

/-- **When the stored deviation is the deviation.** In every round with samples and
aggregates the phase ends, and at each path that has samples it stores their deviation
about the average exactly if there is one of them or they deviate by at most a hundredth;
the other paths have no part in it. -/
theorem deviation_stored_iff {p : Int} {r : RData ℝ} (h : RoundSamples p r) (hagg : AggInv p r) :
    ∃ r', pfrCalcStddevRtt p r = some r' ∧ ∀ (d : String) (k : Int), sampleRtts ((peersAt r d p).idx k) ≠ [] →
      ∃ tp tp', aggAt (peersAt r d p) k = some tp ∧ aggAt (peersAt r' d p) k = some tp' ∧
        (DeviationOf tp.avgRtt (sampleRtts ((peersAt r d p).idx k)) tp'.stddevRtt ↔
          (sampleRtts ((peersAt r d p).idx k)).length = 1 ∨
            meanSquare tp.avgRtt (sampleRtts ((peersAt r d p).idx k)) ≤ 1 / 10000) ∧
        ∀ r₂ r₂' : RData ℝ, RoundSamples p r₂ → AggInv p r₂ → pfrCalcStddevRtt p r₂ = some r₂' →
          (peersAt r₂ d p).idx k = (peersAt r d p).idx k →
          (aggAt (peersAt r₂' d p) k).map Tparm.stddevRtt = some tp'.stddevRtt := by
  obtain ⟨r', hr'⟩ := h.calcStddev_isSome hagg
  refine ⟨r', hr', ?_⟩
  intro d k hne
  obtain ⟨tp, tp', htp, htp', hdev, -⟩ := stored_at h hagg hr' (mem_of_sampleRtts hne)
  refine ⟨tp, tp', htp, htp', ?_, ?_⟩
  · rw [hdev]
    exact devOf_iff hne
  · intro r₂ r₂' h₂ hagg₂ hr₂' hsame
    obtain ⟨tp₂, tp₂', htp₂, htp₂', hdev₂, -⟩ := stored_at h₂ hagg₂ hr₂' (mem_of_sampleRtts (hsame ▸ hne))
    -- the average read is the path's own too
    rw [aggAt, hsame, ← aggAt, htp] at htp₂
    cases htp₂
    rw [htp₂', Option.map_some, hdev₂, hdev, hsame]

/-- After replies in a round nothing was recorded for the loop collects the first copies. -/
theorem sampleRtts_delivered {F : Type} [Dbl F] (cfg : Config) {r0 : RData F} {p : Int}
    (hnew : ∀ (e : String) (j : Int), j ∉ peersAt r0 e p) {rs : List (Reply F)} {d : String} {k : Int}
    (hne : delivered d p k rs ≠ []) : ∃ r1, pfrCalcAvgRtt cfg p (deliver rs r0) = some r1 ∧ RoundSamples p r1 ∧ AggInv p r1 ∧
      (sampleRtts ((peersAt r1 d p).idx k)).Perm (((delivered d p k rs).filter fun x => x.seq ≠ 99).map Reply.rtt) := by
  obtain ⟨r1, r2, h1, h2⟩ := phases_isSome cfg hnew rs
  obtain ⟨tp, -, hr1, -⟩ := phases_at (hnew d k) hne h1 h2
  obtain ⟨hround, hagg⟩ := (roundSamples_deliver hnew rs).calcAvg h1
  refine ⟨r1, h1, hround, hagg, ?_⟩
  have hperm := (devSamples_perm rs (hnew d k) tp).map Tparm.rtt
  rw [← hr1, List.map_map] at hperm
  exact hperm

theorem foldl_currRtt : ∀ (l : List (Tparm ℝ)) (a : CalcAcc ℝ),
    (l.foldl calcSample a).currRtt = a.currRtt + (l.map Tparm.rtt).sum
  | [], a => by simp
  | tp :: l, a => by
    rw [List.foldl_cons, foldl_currRtt l, List.map_cons, List.sum_cons, calcSample, add_assoc]

/-- The average stored of them is their mean, rounded up. -/
theorem avgRtt_delivered {cfg : Config} {r0 r1 : RData ℝ} {p : Int} (hnew : ∀ (e : String) (j : Int), j ∉ peersAt r0 e p)
    {rs : List (Reply ℝ)} (h1 : pfrCalcAvgRtt cfg p (deliver rs r0) = some r1) {d : String} {k : Int}
    (hne : delivered d p k rs ≠ []) {tp : Tparm ℝ} (htp : aggAt (peersAt r1 d p) k = some tp) :
    tp.avgRtt = Stats.roundUp 100 (Stats.mean ((delivered d p k rs).map Reply.rtt)) := by
  obtain ⟨x, hx⟩ := List.exists_mem_of_ne_nil _ hne
  have hpeer := samples_mapPeers h1 (ExtTreeMap.mem_of_getElem? (idx_of_delivered rs (hnew d k) hx))
  rw [calcPeer, calcLoop_eq (notNull_deliver (hnew d k)), Option.map_some] at hpeer
  rw [aggAt, ← Option.some.inj hpeer, ExtTreeMap.idx_insert, if_pos rfl] at htp
  have hperm := samplesOf_perm rs (hnew d k)
  have hsum : ((samplesOf ((peersAt (deliver rs r0) d p).idx k)).map Tparm.rtt).sum = ((delivered d p k rs).map Reply.rtt).sum := by
    rw [(hperm.map Tparm.rtt).sum_eq, List.map_map]
    rfl
  have hcnt := (foldl_calcSample_count (samplesOf ((peersAt (deliver rs r0) d p).idx k)) CalcAcc.init).1
  rw [hperm.length_eq, List.length_map] at hcnt
  rw [← Option.some.inj htp, aggregate, Stats.roundUp, Stats.mean, List.length_map]
  simp only [Tparm.new, foldl_currRtt, hsum, hcnt]
  simp [CalcAcc.init, Dbl.num, Dbl.ceil, div_mul_eq_mul_div]

/-- Three replies after 20 ms: the average is 20, and no deviation is stored. -/
theorem deviation_of_equal : ∃ r r' : RData ℝ, sampleRtts ((peersAt r "198.51.100.7" 1).idx 1) = [20, 20, 20] ∧
    pfrCalcStddevRtt 1 r = some r' ∧ ∃ tp tp', aggAt (peersAt r "198.51.100.7" 1) 1 = some tp ∧
      aggAt (peersAt r' "198.51.100.7" 1) 1 = some tp' ∧ tp.avgRtt = 20 ∧ DeviationOf tp.avgRtt [20, 20, 20] tp'.stddevRtt := by
  let rs : List (Reply ℝ) :=
    [⟨"198.51.100.7", 1, 1, 0, 20, 0⟩, ⟨"198.51.100.7", 1, 1, 1, 20, 0⟩, ⟨"198.51.100.7", 1, 1, 2, 20, 0⟩]
  have hdel : delivered "198.51.100.7" 1 1 rs = rs := by simp [rs, delivered, firstCopies, Reply.On]
  have hne : delivered "198.51.100.7" 1 1 rs ≠ [] := by rw [hdel]; exact List.cons_ne_nil _ _
  obtain ⟨r, hr, hround, hagg, hperm⟩ := sampleRtts_delivered Config.default (not_mem_peersAt_empty 1) hne
  have hxs : sampleRtts ((peersAt r "198.51.100.7" 1).idx 1) = [20, 20, 20] := by
    rw [hdel] at hperm
    have heq : ((rs.filter fun x => x.seq ≠ 99).map Reply.rtt) = List.replicate 3 20 := by simp [rs, List.replicate]
    exact List.perm_replicate.mp (heq ▸ hperm)
  obtain ⟨r', hr', hall⟩ := deviation_stored_iff hround hagg
  obtain ⟨tp, tp', htp, htp', hiff, -⟩ := hall "198.51.100.7" 1 (by rw [hxs]; exact List.cons_ne_nil _ _)
  rw [hxs] at hiff
  have havg : tp.avgRtt = 20 := by
    rw [avgRtt_delivered (not_mem_peersAt_empty 1) hr hne htp, hdel]
    norm_num [rs, Stats.mean, Stats.roundUp]
  refine ⟨r, r', hxs, hr', tp, tp', htp, htp', havg, hiff.mpr (Or.inr ?_)⟩
  rw [havg, meanSquare]
  norm_num

/-- Of 20 and 40 ms, whatever the average stored, half the deviation is. -/
theorem deviation_of_two_halved : ¬∀ (p : Int) (r r' : RData ℝ), RoundSamples p r → AggInv p r →
    pfrCalcStddevRtt p r = some r' → ∀ (d : String) (k : Int), sampleRtts ((peersAt r d p).idx k) ≠ [] →
    ∀ tp ∈ aggAt (peersAt r d p) k, ∀ tp' ∈ aggAt (peersAt r' d p) k,
      DeviationOf tp.avgRtt (sampleRtts ((peersAt r d p).idx k)) tp'.stddevRtt := by
  intro hall
  let rs : List (Reply ℝ) := [⟨"198.51.100.7", 1, 1, 0, 20, 0⟩, ⟨"198.51.100.7", 1, 1, 1, 40, 0⟩]
  have hdel : delivered "198.51.100.7" 1 1 rs = rs := by simp [rs, delivered, firstCopies, Reply.On]
  obtain ⟨r, -, hround, hagg, hperm⟩ := sampleRtts_delivered Config.default (not_mem_peersAt_empty 1)
    (by rw [hdel]; exact List.cons_ne_nil _ _ : delivered "198.51.100.7" 1 1 rs ≠ [])
  have hperm' : (sampleRtts ((peersAt r "198.51.100.7" 1).idx 1)).Perm [20, 40] := by
    rw [hdel] at hperm
    simpa [rs] using hperm
  have hne : sampleRtts ((peersAt r "198.51.100.7" 1).idx 1) ≠ [] := by
    intro hnil
    rw [hnil] at hperm'
    exact absurd hperm'.length_eq (by decide)
  obtain ⟨r', hr'⟩ := hround.calcStddev_isSome hagg
  obtain ⟨tp, tp', htp, htp', hdev, -⟩ := stored_at hround hagg hr' (mem_of_sampleRtts hne)
  have hspec := hall 1 r r' hround hagg hr' _ _ hne tp htp tp' htp'
  rw [hdev, devOf_iff hne, hperm'.length_eq, meanSquare, (hperm'.map _).sum_eq, hperm'.length_eq] at hspec
  rcases hspec with hone | hsmall
  · exact absurd hone (by decide)
  · norm_num at hsmall
    nlinarith [sq_nonneg (tp.avgRtt - 30)]

end Deviation

end Pfr

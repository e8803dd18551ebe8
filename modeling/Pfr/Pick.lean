import Pfr.Calc

/- The loop over the peers in `pfr_route_scan`, in a round p ≥ 1. It walks the aggregates
   of the round in the order of the peer numbers with three variables: `curr_rtt`, the
   value last compared, `min_rtt` and `peer_id`. A NULL aggregate leaves `curr_rtt` as it
   was, which matters at the first peer only: there it is still 0.

   1. `pickLoop_peer`, `pickLoop_found`: the loop's peer is 0 or one that is there,
      and is there when some aggregate lies below the starting value;
   2. `pickFold_settled`: how the loop goes on after its first peer;
   3. `pickLoop_value`: its peer is the lowest-numbered one of the least value below the
      starting value, or 0 when there is none;
   4. `pickLoop_cases`, `pickLoop_best`: the same said of the metrics, with a first peer
      without an aggregate apart, and with every aggregate present. -/
namespace Pfr

open Std

variable {F : Type} [Dbl F]

/-- What `path_metric` selects from an aggregate; with any other metric the
variable is not assigned. -/
def selMetric (pm : PathMetric) (tp : Tparm F) : Option F :=
  match pm with
  | .metric0 => some tp.avgRtt
  | .metric1 => some tp.metric1
  | _ => none

/-- `min_rtt`, `curr_rtt` and `peer_id` in the loop over the peers. -/
structure Pick (F : Type) where
  minRtt : F
  currRtt : F
  peerId : Int

/-- One peer in a round p ≥ 1. A NULL aggregate leaves `curr_rtt` as it was. -/
def pickStep (pm : PathMetric) (a : Pick F) (k : Int) (agg : Option (Tparm F)) : Pick F :=
  let currRtt := (agg.bind (selMetric pm)).getD a.currRtt
  if currRtt < a.minRtt then ⟨currRtt, currRtt, k⟩ else ⟨a.minRtt, currRtt, a.peerId⟩

def pickLoop (pm : PathMetric) (thr : F) (peers : Peers F) : Pick F :=
  peers.toList.foldl (fun a kv => pickStep pm a kv.1 (kv.2.idx 99)) ⟨thr, Dbl.num 0, 0⟩

/-! ## The metrics -/

/-- The selected metric of a peer, if its aggregate is there. -/
def metricAt (pm : PathMetric) (peers : Peers F) (k : Int) : Option F := (aggAt peers k).bind (selMetric pm)

omit [Dbl F] in
theorem mem_of_metricAt {pm : PathMetric} {peers : Peers F} {k : Int} {w : F} (h : metricAt pm peers k = some w) :
    k ∈ peers := by
  obtain ⟨tp, htp, -⟩ := Option.bind_eq_some_iff.mp h
  exact mem_of_aggAt htp

/-- The value compared for an aggregate: `curr_rtt` stays 0 under a metric that
assigns nothing. -/
def currMetric (pm : PathMetric) (tp : Tparm F) : F := (selMetric pm tp).getD (Dbl.num 0)

/-- `b` is the lowest-numbered peer of the least metric, and `v` that metric. -/
structure IsBest (metric : Int → Option F) (b : Int) (v : F) : Prop where
  val : metric b = some v
  least : ∀ k w, metric k = some w → ¬w < v
  lowest : ∀ k, metric k = some v → b ≤ k

/-- The two metrics the scan reads. -/
def PathMetric.Read (pm : PathMetric) : Prop := pm = .metric0 ∨ pm = .metric1

instance (pm : PathMetric) : Decidable pm.Read := inferInstanceAs (Decidable (_ ∨ _))

omit [Dbl F] in
theorem selMetric_isSome {pm : PathMetric} (h : pm.Read) (tp : Tparm F) : (selMetric pm tp).isSome := by
  rcases h with rfl | rfl <;> rfl

theorem IsBest.unique [DblOrder F] {metric : Int → Option F} {b b' : Int} {v v' : F} (h : IsBest metric b v)
    (h' : IsBest metric b' v') : b = b' ∧ v = v' := by
  have hv : v = v' := by
    rcases DblOrder.total v v' with hlt | heq | hgt
    · exact absurd hlt (h'.least b v h.val)
    · exact heq
    · exact absurd hgt (h.least b' v' h'.val)
  subst hv
  exact ⟨Int.le_antisymm (h.lowest b' h'.val) (h'.lowest b h.val), rfl⟩

abbrev pickFold (pm : PathMetric) (l : List (Int × Samples F)) (a : Pick F) : Pick F :=
  l.foldl (fun a kv => pickStep pm a kv.1 (kv.2.idx 99)) a

/-- One peer is either chosen, with its value the new minimum, or passed over. -/
theorem pickStep_cases (pm : PathMetric) (a : Pick F) (k : Int) (agg : Option (Tparm F)) :
    (((agg.bind (selMetric pm)).getD a.currRtt < a.minRtt ∧ (pickStep pm a k agg).peerId = k ∧
        (pickStep pm a k agg).minRtt = (agg.bind (selMetric pm)).getD a.currRtt) ∨
      (¬(agg.bind (selMetric pm)).getD a.currRtt < a.minRtt ∧ (pickStep pm a k agg).peerId = a.peerId ∧
        (pickStep pm a k agg).minRtt = a.minRtt)) ∧
      (pickStep pm a k agg).currRtt = (agg.bind (selMetric pm)).getD a.currRtt := by
  unfold pickStep
  simp only
  split
  · next h => exact ⟨Or.inl ⟨h, rfl, rfl⟩, rfl⟩
  · next h => exact ⟨Or.inr ⟨h, rfl, rfl⟩, rfl⟩

theorem pickFold_peer (pm : PathMetric) : ∀ (l : List (Int × Samples F)) (a : Pick F),
    (pickFold pm l a).peerId = a.peerId ∨ (pickFold pm l a).peerId ∈ l.map Prod.fst
  | [], _ => Or.inl rfl
  | (k, s) :: l, a => by
    rw [pickFold, List.foldl_cons, List.map_cons, List.mem_cons]
    rcases pickFold_peer pm l (pickStep pm a k (s.idx 99)) with h | h
    · rcases (pickStep_cases pm a k (s.idx 99)).1 with ⟨-, hp, -⟩ | ⟨-, hp, -⟩
      · exact Or.inr (Or.inl (h.trans hp))
      · exact Or.inl (h.trans hp)
    · exact Or.inr (Or.inr h)

/-- A peer is chosen as soon as one aggregate lies below the starting value. -/
theorem pickFold_found (pm : PathMetric) : ∀ (l : List (Int × Samples F)) (a : Pick F),
    (∀ tp : Tparm F, selMetric pm tp = none → a.currRtt = Dbl.num 0) →
    (∃ kv ∈ l, ∃ tp, kv.2.idx 99 = some tp ∧ currMetric pm tp < a.minRtt) →
    (pickFold pm l a).peerId ∈ l.map Prod.fst
  | [], _, _, h => by obtain ⟨_, hm, _⟩ := h; simp at hm
  | (k, s) :: l, a, hcur, ⟨kv, hkv, tp, htp, hlt⟩ => by
    obtain ⟨hcase, hcurr⟩ := pickStep_cases pm a k (s.idx 99)
    rw [pickFold, List.foldl_cons, List.map_cons, List.mem_cons]
    rcases hcase with ⟨-, hp, -⟩ | ⟨hn, hp, hm⟩
    · rcases pickFold_peer pm l (pickStep pm a k (s.idx 99)) with h | h
      · exact Or.inl (h.trans hp)
      · exact Or.inr h
    · -- the head was passed over, so the aggregate below the minimum is in the tail
      have hne : kv ≠ (k, s) := by
        rintro rfl
        simp only at htp
        rw [htp, Option.bind_some] at hn
        apply hn
        cases hsel : selMetric pm tp with
        | none => rw [currMetric, hsel, Option.getD_none] at hlt; rwa [Option.getD_none, hcur tp hsel]
        | some v => rwa [currMetric, hsel] at hlt
      have htail : kv ∈ l := by
        rcases List.mem_cons.mp hkv with rfl | h
        · exact absurd rfl hne
        · exact h
      refine Or.inr (pickFold_found pm l _ ?_ ⟨kv, htail, tp, htp, by rwa [hm]⟩)
      intro tp' hnone
      rw [hcurr]
      have hall : (s.idx 99).bind (selMetric pm) = none := by
        cases s.idx 99 with
        | none => rfl
        | some t => cases pm <;> first | rfl | cases hnone
      rw [hall, Option.getD_none]
      exact hcur tp' hnone

/-- After any step `curr_rtt` is not below `min_rtt`. -/
theorem pickStep_settled [DblOrder F] (pm : PathMetric) (a : Pick F) (k : Int) (agg : Option (Tparm F)) :
    ¬(pickStep pm a k agg).currRtt < (pickStep pm a k agg).minRtt := by
  obtain ⟨hcase, hcurr⟩ := pickStep_cases pm a k agg
  rw [hcurr]
  rcases hcase with ⟨-, -, hm⟩ | ⟨hn, -, hm⟩
  · rw [hm]
    exact DblOrder.irrefl _
  · rw [hm]
    exact hn

/-- An aggregate without a metric then changes nothing. -/
theorem pickStep_null {pm : PathMetric} {a : Pick F} (h : ¬a.currRtt < a.minRtt) (k : Int) {agg : Option (Tparm F)}
    (hsel : agg.bind (selMetric pm) = none) : pickStep pm a k agg = a := by
  unfold pickStep
  simp only [hsel, Option.getD_none, if_neg h]

/-- How the loop over `l` ends when it starts at peer `b` with `min_rtt` at `m`: it
leaves both, no metric lying below `m`, or it ends at the first of the least ones. -/
def PickEnd (pm : PathMetric) (l : List (Int × Samples F)) (m : F) (b : Int) (r : Pick F) : Prop :=
  (r.peerId = b ∧ r.minRtt = m ∧ ∀ kv ∈ l, ∀ w, (kv.2.idx 99).bind (selMetric pm) = some w → ¬w < m) ∨
    ∃ kv ∈ l, r.peerId = kv.1 ∧ (kv.2.idx 99).bind (selMetric pm) = some r.minRtt ∧ r.minRtt < m ∧
      ∀ kv' ∈ l, ∀ w, (kv'.2.idx 99).bind (selMetric pm) = some w →
        ¬w < r.minRtt ∧ (w = r.minRtt → kv.1 ≤ kv'.1)

section PickEnd
variable {pm : PathMetric} {l : List (Int × Samples F)} {m : F} {b k : Int} {s : Samples F} {r : Pick F}

/-- A head without a metric is passed over. -/
theorem PickEnd.null (h : PickEnd pm l m b r) (hsel : (s.idx 99).bind (selMetric pm) = none) :
    PickEnd pm ((k, s) :: l) m b r := by
  have hhead : ∀ w, ((k, s).2.idx 99).bind (selMetric pm) ≠ some w := fun w => by rw [hsel]; nofun
  rcases h with ⟨h1, h2, h3⟩ | ⟨kv, hkv, h1, h2, h3, h4⟩
  · refine Or.inl ⟨h1, h2, ?_⟩
    intro kv' hkv' w hw
    rcases List.mem_cons.mp hkv' with rfl | htl
    · exact absurd hw (hhead w)
    · exact h3 kv' htl w hw
  · refine Or.inr ⟨kv, List.mem_cons_of_mem _ hkv, h1, h2, h3, ?_⟩
    intro kv' hkv' w hw
    rcases List.mem_cons.mp hkv' with rfl | htl
    · exact absurd hw (hhead w)
    · exact h4 kv' htl w hw

/-- A head below `m` is chosen; as the keys after it are above its own, a tie later on
does not win. -/
theorem PickEnd.chosen [DblOrder F] {v : F} (h : PickEnd pm l v k r)
    (hsel : (s.idx 99).bind (selMetric pm) = some v) (hlt : v < m) (hkeys : ∀ kv ∈ l, k < kv.1) :
    PickEnd pm ((k, s) :: l) m b r := by
  rcases h with ⟨h1, h2, h3⟩ | ⟨kv, hkv, h1, h2, h3, h4⟩
  · refine Or.inr ⟨(k, s), List.mem_cons_self, h1, by rw [hsel, h2], by rw [h2]; exact hlt, ?_⟩
    intro kv' hkv' w hw
    rw [h2]
    rcases List.mem_cons.mp hkv' with rfl | htl
    · rw [hsel] at hw
      cases hw
      exact ⟨DblOrder.irrefl v, fun _ => Int.le_refl _⟩
    · exact ⟨h3 kv' htl w hw, fun _ => Int.le_of_lt (hkeys kv' htl)⟩
  · refine Or.inr ⟨kv, List.mem_cons_of_mem _ hkv, h1, h2, DblOrder.trans _ _ _ h3 hlt, ?_⟩
    intro kv' hkv' w hw
    rcases List.mem_cons.mp hkv' with rfl | htl
    · rw [hsel] at hw
      cases hw
      exact ⟨DblOrder.asymm h3, fun he => absurd (he ▸ h3) (DblOrder.irrefl _)⟩
    · exact h4 kv' htl w hw

/-- A head not below `m` is passed over. -/
theorem PickEnd.passed [DblOrder F] {v : F} (h : PickEnd pm l m b r)
    (hsel : (s.idx 99).bind (selMetric pm) = some v) (hnlt : ¬v < m) : PickEnd pm ((k, s) :: l) m b r := by
  rcases h with ⟨h1, h2, h3⟩ | ⟨kv, hkv, h1, h2, h3, h4⟩
  · refine Or.inl ⟨h1, h2, ?_⟩
    intro kv' hkv' w hw
    rcases List.mem_cons.mp hkv' with rfl | htl
    · rw [hsel] at hw
      cases hw
      exact hnlt
    · exact h3 kv' htl w hw
  · refine Or.inr ⟨kv, List.mem_cons_of_mem _ hkv, h1, h2, h3, ?_⟩
    intro kv' hkv' w hw
    rcases List.mem_cons.mp hkv' with rfl | htl
    · rw [hsel] at hw
      cases hw
      exact ⟨fun hlt => hnlt (DblOrder.trans _ _ _ hlt h3), fun he => absurd (he ▸ h3) hnlt⟩
    · exact h4 kv' htl w hw

/-- A head with a metric is one or the other. -/
theorem PickEnd.cons [DblOrder F] {a : Pick F} {v : F}
    (h : PickEnd pm l (pickStep pm a k (s.idx 99)).minRtt (pickStep pm a k (s.idx 99)).peerId r)
    (hsel : (s.idx 99).bind (selMetric pm) = some v) (hkeys : ∀ kv ∈ l, k < kv.1) :
    PickEnd pm ((k, s) :: l) a.minRtt a.peerId r := by
  have hcases := (pickStep_cases pm a k (s.idx 99)).1
  rw [hsel, Option.getD_some] at hcases
  rcases hcases with ⟨hlt, hp, hm⟩ | ⟨hnlt, hp, hm⟩
  · rw [hp, hm] at h
    exact h.chosen hsel hlt hkeys
  · rw [hp, hm] at h
    exact h.passed hsel hnlt

end PickEnd

/-- **How the loop goes on** once `curr_rtt` is not below `min_rtt`: an aggregate without
a metric is passed over. The induction is on the peers still to come. -/
theorem pickFold_settled [DblOrder F] (pm : PathMetric) : ∀ (l : List (Int × Samples F)) (a : Pick F),
    l.Pairwise (fun x y => x.1 < y.1) → ¬a.currRtt < a.minRtt →
    PickEnd pm l a.minRtt a.peerId (pickFold pm l a)
  | [], _, _, _ => Or.inl ⟨rfl, rfl, nofun⟩
  | (k, s) :: l, a, hsort, hset => by
    rw [List.pairwise_cons] at hsort
    have ih := pickFold_settled pm l (pickStep pm a k (s.idx 99)) hsort.2 (pickStep_settled pm a k _)
    change PickEnd pm ((k, s) :: l) a.minRtt a.peerId (pickFold pm l (pickStep pm a k (s.idx 99)))
    cases hsel : (s.idx 99).bind (selMetric pm) with
    | none =>
      rw [pickStep_null hset k hsel] at ih ⊢
      exact ih.null hsel
    | some v => exact ih.cons hsel hsort.1

theorem pickLoop_peer (pm : PathMetric) (thr : F) (peers : Peers F) :
    (pickLoop pm thr peers).peerId = 0 ∨ (pickLoop pm thr peers).peerId ∈ peers := by
  rcases pickFold_peer pm peers.toList ⟨thr, Dbl.num 0, 0⟩ with h | h
  · exact Or.inl h
  · rw [ExtTreeMap.map_fst_toList_eq_keys, ExtTreeMap.mem_keys] at h
    exact Or.inr h

theorem pickLoop_found {pm : PathMetric} {thr : F} {peers : Peers F}
    (h : ∃ k ∈ peers, ∃ tp, aggAt peers k = some tp ∧ currMetric pm tp < thr) :
    (pickLoop pm thr peers).peerId ∈ peers := by
  obtain ⟨k, hk, tp, htp, hlt⟩ := h
  have hf := pickFold_found pm peers.toList ⟨thr, Dbl.num 0, 0⟩ (fun _ _ => rfl)
    ⟨_, mem_toList_of_mem hk, tp, htp, hlt⟩
  rwa [ExtTreeMap.map_fst_toList_eq_keys, ExtTreeMap.mem_keys] at hf

/-- Some aggregate's metric lies below the value `min_rtt` starts from. -/
def HeardBelow (pm : PathMetric) (thr : F) (peers : Peers F) : Prop :=
  ∃ k ∈ peers.keys, ∃ tp, aggAt peers k = some tp ∧ currMetric pm tp < thr

instance (pm : PathMetric) (thr : F) (peers : Peers F) : Decidable (HeardBelow pm thr peers) :=
  inferInstanceAs (Decidable (∃ k ∈ peers.keys, ∃ tp, aggAt peers k = some tp ∧ currMetric pm tp < thr))

theorem pickLoop_heard {pm : PathMetric} {thr : F} {peers : Peers F} (h : HeardBelow pm thr peers) :
    (pickLoop pm thr peers).peerId ∈ peers := by
  obtain ⟨k, hk, tp, htp, hlt⟩ := h
  exact pickLoop_found ⟨k, ExtTreeMap.mem_keys.mp hk, tp, htp, hlt⟩

/-- The lowest-numbered peer has no aggregate, and 0 is below the starting value: the
loop takes it for a metric of 0. -/
def LeadNull (thr : F) (peers : Peers F) (k : Int) : Prop :=
  Dbl.num 0 < thr ∧ k ∈ peers ∧ (∀ k' ∈ peers.keys, k ≤ k') ∧ aggAt peers k = none

/-- What the loop compares for a peer: the metric `path_metric` selects, and for the
first peer 0 where it selects none. -/
def scanValue (pm : PathMetric) (peers : Peers F) (k : Int) : Option F :=
  (metricAt pm peers k).or (if peers.keys.head? = some k then some (Dbl.num 0) else none)

omit [Dbl F] in
theorem toList_pairwise (peers : Peers F) : peers.toList.Pairwise (fun x y => x.1 < y.1) :=
  List.Pairwise.imp (fun h => Int.compare_eq_lt.mp h) ExtTreeMap.ordered_keys_toList

section Values
variable {pm : PathMetric} {peers : Peers F} {k : Int} {s : Samples F} {rest : List (Int × Samples F)}

variable (pm) in
/-- The values of the first peer and of those behind it, and that there are no others. -/
theorem scanValue_split (hl : peers.toList = (k, s) :: rest) :
    scanValue pm peers k = some (((s.idx 99).bind (selMetric pm)).getD (Dbl.num 0)) ∧
      (∀ kv ∈ rest, k < kv.1 ∧ scanValue pm peers kv.1 = (kv.2.idx 99).bind (selMetric pm)) ∧
      ∀ k' w, scanValue pm peers k' = some w →
        (k' = k ∧ w = ((s.idx 99).bind (selMetric pm)).getD (Dbl.num 0)) ∨
          ∃ kv ∈ rest, kv.1 = k' ∧ (kv.2.idx 99).bind (selMetric pm) = some w := by
  have hsort := toList_pairwise peers
  have hmetric : ∀ kv ∈ peers.toList, metricAt pm peers kv.1 = (kv.2.idx 99).bind (selMetric pm) :=
    fun kv hkv => by rw [metricAt, aggAt_of_mem_toList hkv]
  have hhead : peers.keys.head? = some k := by
    rw [← ExtTreeMap.map_fst_toList_eq_keys, hl]
    rfl
  rw [hl, List.pairwise_cons] at hsort
  rw [hl] at hmetric
  have hother : ∀ k', k' ≠ k → scanValue pm peers k' = metricAt pm peers k' := by
    intro k' hk
    rw [scanValue, hhead, if_neg fun h => hk (Option.some.inj h).symm, Option.or_none]
  have hrest : ∀ kv ∈ rest, k < kv.1 ∧ scanValue pm peers kv.1 = (kv.2.idx 99).bind (selMetric pm) := by
    intro kv hkv
    have hlt : k < kv.1 := hsort.1 kv hkv
    exact ⟨hlt, by rw [hother _ hlt.ne', hmetric kv (List.mem_cons_of_mem _ hkv)]⟩
  have hfirst : scanValue pm peers k = some (((s.idx 99).bind (selMetric pm)).getD (Dbl.num 0)) := by
    rw [scanValue, hmetric (k, s) List.mem_cons_self, hhead, if_pos rfl]
    cases (s.idx 99).bind (selMetric pm) <;> rfl
  refine ⟨hfirst, hrest, ?_⟩
  intro k' w hw
  by_cases hk : k' = k
  · rw [hk, hfirst] at hw
    exact Or.inl ⟨hk, (Option.some.inj hw).symm⟩
  · rw [hother k' hk] at hw
    have hmem := mem_toList_of_mem (mem_of_metricAt hw)
    rw [hl] at hmem
    rcases List.mem_cons.mp hmem with he | hmem
    · exact absurd (congrArg Prod.fst he) hk
    · exact Or.inr ⟨_, hmem, rfl, hw⟩

/-- A value is the best one if neither the first peer's nor one behind it is better. -/
theorem IsBest.of_split (hl : peers.toList = (k, s) :: rest) {b : Int} {v : F} (hval : scanValue pm peers b = some v)
    (hfirst : ¬((s.idx 99).bind (selMetric pm)).getD (Dbl.num 0) < v ∧
      (((s.idx 99).bind (selMetric pm)).getD (Dbl.num 0) = v → b ≤ k))
    (hrest : ∀ kv ∈ rest, ∀ w, (kv.2.idx 99).bind (selMetric pm) = some w → ¬w < v ∧ (w = v → b ≤ kv.1)) :
    IsBest (scanValue pm peers) b v := by
  have hall : ∀ k' w, scanValue pm peers k' = some w → ¬w < v ∧ (w = v → b ≤ k') := by
    intro k' w hw
    rcases (scanValue_split _ hl).2.2 k' w hw with ⟨rfl, rfl⟩ | ⟨kv, hkv, rfl, hsel⟩
    · exact hfirst
    · exact hrest kv hkv w hsel
  exact ⟨hval, fun k' w hw => (hall k' w hw).1, fun k' hw => (hall k' v hw).2 rfl⟩

end Values

/-- **The loop's peer is the best one**, if that is below the starting value. -/
theorem pickLoop_value [DblOrder F] (pm : PathMetric) (thr : F) (peers : Peers F) :
    ((pickLoop pm thr peers).peerId = 0 ∧ ∀ k w, scanValue pm peers k = some w → ¬w < thr) ∨
      (IsBest (scanValue pm peers) (pickLoop pm thr peers).peerId (pickLoop pm thr peers).minRtt ∧
        (pickLoop pm thr peers).minRtt < thr) := by
  cases hl : peers.toList with
  | nil =>
    refine Or.inl ⟨by rw [pickLoop, hl]; rfl, ?_⟩
    intro k w hw
    have hkeys : peers.keys = [] := by rw [← ExtTreeMap.map_fst_toList_eq_keys, hl]; rfl
    rw [scanValue, hkeys, List.head?_nil, if_neg (Option.some_ne_none k).symm, Option.or_none] at hw
    have hmem := mem_toList_of_mem (mem_of_metricAt hw)
    rw [hl] at hmem
    cases hmem
  | cons kv rest =>
    obtain ⟨k, s⟩ := kv
    have hsort := toList_pairwise peers
    rw [hl, List.pairwise_cons] at hsort
    obtain ⟨hfirst, hrest, hin⟩ := scanValue_split pm hl
    have hend := pickFold_settled pm rest (pickStep pm ⟨thr, Dbl.num 0, 0⟩ k (s.idx 99)) hsort.2
      (pickStep_settled pm _ k _)
    have hloop : pickLoop pm thr peers = pickFold pm rest (pickStep pm ⟨thr, Dbl.num 0, 0⟩ k (s.idx 99)) := by
      rw [pickLoop, hl, List.foldl_cons]
    rw [← hloop] at hend
    rcases (pickStep_cases pm ⟨thr, Dbl.num 0, 0⟩ k (s.idx 99)).1 with ⟨hlt, hp, hm⟩ | ⟨hnlt, hp, hm⟩
    · rw [hp, hm] at hend
      right
      rcases hend with ⟨h1, h2, h3⟩ | ⟨kv, hkv, h1, h2, h3, h4⟩
      · -- the first peer stays
        rw [h1, h2]
        refine ⟨.of_split hl hfirst ⟨DblOrder.irrefl _, fun _ => Int.le_refl k⟩ ?_, hlt⟩
        exact fun kv hkv w hw => ⟨h3 kv hkv w hw, fun _ => (hrest kv hkv).1.le⟩
      · rw [h1]
        refine ⟨.of_split hl (by rw [(hrest kv hkv).2, h2]) ⟨DblOrder.asymm h3, ?_⟩ h4, DblOrder.trans _ _ _ h3 hlt⟩
        intro he
        exact absurd (he ▸ h3) (DblOrder.irrefl _)
    · rw [hp, hm] at hend
      rcases hend with ⟨h1, -, h3⟩ | ⟨kv, hkv, h1, h2, h3, h4⟩
      · refine Or.inl ⟨h1, ?_⟩
        intro k' w hw
        rcases hin k' w hw with ⟨-, rfl⟩ | ⟨kv, hkv, -, hval⟩
        · exact hnlt
        · exact h3 kv hkv w hval
      · rw [h1]
        refine Or.inr ⟨.of_split hl (by rw [(hrest kv hkv).2, h2]) ⟨?_, ?_⟩ h4, h3⟩
        · exact fun h => hnlt (DblOrder.trans _ _ _ h h3)
        · intro he
          rw [← he] at h3
          exact absurd h3 hnlt

omit [Dbl F] in
/-- The lowest-numbered peer is the head of the keys. -/
theorem head_keys_iff {peers : Peers F} {k : Int} :
    peers.keys.head? = some k ↔ k ∈ peers ∧ ∀ k' ∈ peers.keys, k ≤ k' := by
  have hsort : peers.keys.Pairwise (fun x y => x < y) :=
    List.Pairwise.imp (fun h => Int.compare_eq_lt.mp h) ExtTreeMap.ordered_keys
  rw [← ExtTreeMap.mem_keys]
  cases hkeys : peers.keys with
  | nil => simp
  | cons a rest =>
    rw [hkeys, List.pairwise_cons] at hsort
    rw [List.head?_cons, Option.some_inj]
    constructor
    · intro h
      subst h
      refine ⟨List.mem_cons_self, ?_⟩
      intro k' hk'
      rcases List.mem_cons.mp hk' with rfl | htl
      · exact Int.le_refl _
      · exact (hsort.1 k' htl).le
    · intro h
      obtain ⟨hk, hlow⟩ := h
      rcases List.mem_cons.mp hk with rfl | htl
      · rfl
      · have hlt := hsort.1 k htl
        have hle := hlow a List.mem_cons_self
        omega

theorem scanValue_of_metric {pm : PathMetric} {peers : Peers F} {k : Int} {w : F} (h : metricAt pm peers k = some w) :
    scanValue pm peers k = some w := by
  rw [scanValue, h, Option.some_or]

/-- A value that is not a metric is that of a first peer without an aggregate. -/
theorem scanValue_cases {pm : PathMetric} (hpm : pm.Read) {peers : Peers F} {k : Int} {w : F}
    (h : scanValue pm peers k = some w) : metricAt pm peers k = some w ∨
      (w = Dbl.num 0 ∧ k ∈ peers ∧ (∀ k' ∈ peers.keys, k ≤ k') ∧ aggAt peers k = none) := by
  cases hmet : metricAt pm peers k with
  | some v =>
    rw [scanValue_of_metric hmet] at h
    exact Or.inl h
  | none =>
    rw [scanValue, hmet, Option.none_or] at h
    split at h
    · next hhead =>
      obtain ⟨hk, hlow⟩ := head_keys_iff.mp hhead
      refine Or.inr ⟨(Option.some.inj h).symm, hk, hlow, ?_⟩
      cases hagg : aggAt peers k with
      | none => rfl
      | some tp =>
        obtain ⟨v, hv⟩ := Option.isSome_iff_exists.mp (selMetric_isSome hpm tp)
        rw [metricAt, hagg, Option.bind_some, hv] at hmet
        cases hmet
    · cases h

theorem LeadNull.value {thr : F} {peers : Peers F} {k : Int} (h : LeadNull thr peers k) (pm : PathMetric) :
    scanValue pm peers k = some (Dbl.num 0) := by
  obtain ⟨-, hk, hlow, hnull⟩ := h
  rw [scanValue, metricAt, hnull, if_pos (head_keys_iff.mpr ⟨hk, hlow⟩)]
  rfl

/-- **What the loop over the peers finds**: nothing below the starting value; or the
lowest-numbered peer of the least metric; or a first peer without an aggregate. -/
theorem pickLoop_cases [DblOrder F] {pm : PathMetric} (hpm : pm.Read) (thr : F) (peers : Peers F) :
    ((pickLoop pm thr peers).peerId = 0 ∧ ∀ k w, metricAt pm peers k = some w → ¬w < thr) ∨
    (IsBest (metricAt pm peers) (pickLoop pm thr peers).peerId (pickLoop pm thr peers).minRtt ∧
      (pickLoop pm thr peers).minRtt < thr ∧
      ((∃ k, LeadNull thr peers k) → (pickLoop pm thr peers).minRtt < Dbl.num 0)) ∨
    ∃ k, LeadNull thr peers k ∧ (pickLoop pm thr peers).peerId = k ∧
      ∀ k' w, metricAt pm peers k' = some w → ¬w < Dbl.num 0 := by
  rcases pickLoop_value pm thr peers with ⟨h0, hnone⟩ | ⟨hbest, hlt⟩
  · exact Or.inl ⟨h0, fun k w hw => hnone k w (scanValue_of_metric hw)⟩
  · rcases scanValue_cases hpm hbest.val with hmet | ⟨hzero, hk, hlow, hnull⟩
    · refine Or.inr (Or.inl ⟨⟨hmet, fun k w hw => hbest.least k w (scanValue_of_metric hw),
        fun k hw => hbest.lowest k (scanValue_of_metric hw)⟩, hlt, ?_⟩)
      intro hlead
      obtain ⟨k, hlead⟩ := hlead
      have hval := hlead.value pm
      rcases DblOrder.total (pickLoop pm thr peers).minRtt (Dbl.num 0) with hneg | heq | hpos
      · exact hneg
      · -- on a tie the lower number wins, and there is none below the first peer's
        have hle := hbest.lowest k (by rw [hval, heq])
        have hge := hlead.2.2.1 _ (ExtTreeMap.mem_keys.mpr (mem_of_metricAt hmet))
        have hsame : (pickLoop pm thr peers).peerId = k := Int.le_antisymm hle hge
        rw [hsame, metricAt, hlead.2.2.2] at hmet
        cases hmet
      · exact absurd hpos (hbest.least k _ hval)
    · refine Or.inr (Or.inr ⟨_, ⟨hzero ▸ hlt, hk, hlow, hnull⟩, rfl, ?_⟩)
      intro k' w hw
      rw [← hzero]
      exact hbest.least k' w (scanValue_of_metric hw)

/-- With every aggregate there the last case does not arise. -/
theorem pickLoop_best [DblOrder F] {pm : PathMetric} (hpm : pm.Read) (thr : F) {peers : Peers F}
    (hagg : ∀ k, k ∈ peers → (aggAt peers k).isSome) :
    ((pickLoop pm thr peers).peerId = 0 ∧ ∀ k w, metricAt pm peers k = some w → ¬w < thr) ∨
      (IsBest (metricAt pm peers) (pickLoop pm thr peers).peerId (pickLoop pm thr peers).minRtt ∧
        (pickLoop pm thr peers).minRtt < thr) := by
  rcases pickLoop_cases hpm thr peers with h | ⟨h, hlt, -⟩ | ⟨k, ⟨-, hk, -, hnull⟩, -⟩
  · exact Or.inl h
  · exact Or.inr ⟨h, hlt⟩
  · have hsome := hagg k hk
    rw [hnull] at hsome
    cases hsome

end Pfr

import Mathlib.Data.List.Sort

/- Ordered maps with the access rules of a C++ `std::map`. `Std.ExtTreeMap`
   supplies the container (sorted keys, lookup, insertion, erasure); this module
   adds what a program written against `std::map` relies on:

   1. `idx` and `upd`: the value `m[k]` yields and the map left by a write through
      `m[k]`, which inserts a default entry when the key is absent;
   2. `mapValsM`: a loop over the entries that rewrites each value in place and
      may fail at any of them;
   3. `groupBy`: the entries of a map, sorted into groups by a class of theirs;
   4. `foldlM_isSome`, `foldlM_walk`, `foldlM_walk_isSome` and `foldlM_sim`: the progress,
      invariant and simulation rules of a loop over the keys, whose body may fail;
   5. `filter_filterMap_key`: what a pass over the keys emits under one of them. -/

set_option linter.unusedSectionVars false

namespace Std.ExtTreeMap

variable {κ : Type} {α β : Type} [Ord κ] [TransOrd κ] [LawfulEqOrd κ]

section Access
variable [Inhabited α]

/-- The value read by `m[k]`: the entry at `k`, or a default one. -/
def idx (m : ExtTreeMap κ α) (k : κ) : α := m.getD k default

/-- The map after `f` is applied to the entry `m[k]` refers to. -/
def upd (m : ExtTreeMap κ α) (k : κ) (f : α → α) : ExtTreeMap κ α := m.insert k (f (m.idx k))

theorem idx_eq (m : ExtTreeMap κ α) (k : κ) : m.idx k = m[k]?.getD default := by
  rw [idx, getD_eq_getD_getElem?]

theorem idx_of_getElem? {m : ExtTreeMap κ α} {k : κ} {v : α} (h : m[k]? = some v) : m.idx k = v := by
  rw [idx_eq, h]; rfl

theorem idx_congr {m m' : ExtTreeMap κ α} {k : κ} (h : m[k]? = m'[k]?) : m.idx k = m'.idx k := by
  rw [idx_eq, idx_eq, h]

theorem idx_of_not_mem {m : ExtTreeMap κ α} {k : κ} (h : k ∉ m) : m.idx k = default := by
  rw [idx_eq, getElem?_eq_none h]; rfl

theorem getElem?_idx {m : ExtTreeMap κ α} {k : κ} (h : k ∈ m) : m[k]? = some (m.idx k) := by
  rw [getElem?_eq_some_getElem h, idx_of_getElem? (getElem?_eq_some_getElem h)]

@[simp] theorem idx_empty (k : κ) : (∅ : ExtTreeMap κ α).idx k = default := by simp [idx_eq]

variable [DecidableEq κ]

theorem getElem?_upd (m : ExtTreeMap κ α) (k a : κ) (f : α → α) :
    (m.upd k f)[a]? = if k = a then some (f (m.idx k)) else m[a]? := by
  simp [upd, getElem?_insert]

theorem idx_insert (m : ExtTreeMap κ α) (k a : κ) (v : α) :
    (m.insert k v).idx a = if k = a then v else m.idx a := by
  rw [idx_eq, idx_eq, getElem?_insert]
  simp only [LawfulEqCmp.compare_eq_iff_eq]
  split <;> rfl

theorem idx_upd (m : ExtTreeMap κ α) (k a : κ) (f : α → α) :
    (m.upd k f).idx a = if k = a then f (m.idx k) else m.idx a := by
  rw [upd, idx_insert]

theorem idx_erase (m : ExtTreeMap κ α) (k a : κ) :
    (m.erase k).idx a = if k = a then default else m.idx a := by
  rw [idx_eq, idx_eq, getElem?_erase]
  simp only [LawfulEqCmp.compare_eq_iff_eq]
  split <;> rfl

@[simp] theorem mem_upd {m : ExtTreeMap κ α} {k a : κ} {f : α → α} : a ∈ m.upd k f ↔ k = a ∨ a ∈ m := by
  simp [upd]

/-- Rewriting a present entry to itself changes nothing. -/
theorem upd_eq_self {m : ExtTreeMap κ α} {k : κ} {f : α → α} (h : k ∈ m) (hf : f (m.idx k) = m.idx k) :
    m.upd k f = m := by
  apply ext_getElem?
  intro a
  rw [getElem?_upd]
  split
  · next he => rw [← he, getElem?_idx h, hf]
  · rfl

/-- So does reading it through `m[k]`. -/
theorem upd_id_of_mem {m : ExtTreeMap κ α} {k : κ} (h : k ∈ m) : m.upd k id = m := upd_eq_self h rfl

/-- Reading any entry through `m[k]` leaves every later read as it was. -/
theorem idx_upd_id (m : ExtTreeMap κ α) (k a : κ) : (m.upd k id).idx a = m.idx a := by
  rw [idx_upd]
  split
  · next he => rw [he, id]
  · rfl

end Access

theorem mem_of_getElem? {m : ExtTreeMap κ α} {k : κ} {v : α} (h : m[k]? = some v) : k ∈ m := by
  rw [mem_iff_isSome_getElem?, h]; rfl

theorem exists_getElem? {m : ExtTreeMap κ α} {k : κ} (h : k ∈ m) : ∃ v, m[k]? = some v :=
  ⟨m[k], getElem?_eq_some_getElem h⟩

/-- Membership in a map some of whose keys were erased. -/
theorem mem_of_erased {m m' : ExtTreeMap κ α} {gone : κ → Prop} [DecidablePred gone]
    (h : ∀ k, m'[k]? = if gone k then none else m[k]?) {k : κ} : k ∈ m' ↔ ¬gone k ∧ k ∈ m := by
  rw [mem_iff_isSome_getElem?, mem_iff_isSome_getElem?, h]
  by_cases hk : gone k <;> simp [hk]

/-- A map filtered down to one key has that key's entry. -/
theorem getElem?_filter_self [DecidableEq κ] (m : ExtTreeMap κ α) (k : κ) :
    (m.filter (fun a _ => a = k))[k]? = m[k]? := by
  rw [getElem?_filter', decide_eq_true rfl]
  cases m[k]? <;> rfl

/-! ## Rewriting the values in place -/

/-- One insertion of a rewritten value. -/
def putVal (f : κ → α → Option β) (acc : ExtTreeMap κ β) (kv : κ × α) : Option (ExtTreeMap κ β) :=
  (f kv.1 kv.2).map (acc.insert kv.1)

/-- The map with every value `v` at `k` replaced by `f k v`, in key order; a
failure at one entry is a failure of the loop. -/
def mapValsM (f : κ → α → Option β) (m : ExtTreeMap κ α) : Option (ExtTreeMap κ β) :=
  m.toList.foldlM (putVal f) ∅

/-- The loop over a list of entries, each key once: what it stores and where it stops. -/
theorem foldlM_putVal_some {f : κ → α → Option β} : ∀ (l : List (κ × α)) (acc m' : ExtTreeMap κ β),
    l.foldlM (putVal f) acc = some m' → (l.map Prod.fst).Nodup →
    (∀ kv ∈ l, m'[kv.1]? = f kv.1 kv.2 ∧ (f kv.1 kv.2).isSome) ∧
      ∀ a, a ∉ l.map Prod.fst → m'[a]? = acc[a]?
  | [], acc, m', h, _ => by
    rw [List.foldlM_nil] at h
    cases h
    simp
  | (k, v) :: l, acc, m', h, hnd => by
    rw [List.foldlM_cons] at h
    obtain ⟨acc', hput, hrest⟩ := Option.bind_eq_some_iff.mp h
    obtain ⟨w, hw, rfl⟩ := Option.map_eq_some_iff.mp hput
    rw [List.map_cons, List.nodup_cons] at hnd
    obtain ⟨hmem, hoff⟩ := foldlM_putVal_some l (acc.insert k w) m' hrest hnd.2
    refine ⟨?_, ?_⟩
    · intro kv hkv
      rcases List.mem_cons.mp hkv with rfl | hkv
      · rw [hoff k hnd.1, getElem?_insert_self, hw]
        simp
      · exact hmem kv hkv
    · intro a ha
      rw [List.map_cons, List.mem_cons, not_or] at ha
      rw [hoff a ha.2, getElem?_insert, if_neg]
      intro he
      exact ha.1 (LawfulEqCmp.eq_of_compare he).symm

theorem foldlM_putVal_isSome {f : κ → α → Option β} : ∀ (l : List (κ × α)) (acc : ExtTreeMap κ β),
    (∀ kv ∈ l, (f kv.1 kv.2).isSome) → ∃ m', l.foldlM (putVal f) acc = some m'
  | [], acc, _ => ⟨acc, by rw [List.foldlM_nil]; rfl⟩
  | (k, v) :: l, acc, h => by
    obtain ⟨w, hw⟩ := Option.isSome_iff_exists.mp (h (k, v) List.mem_cons_self)
    obtain ⟨m', hm'⟩ := foldlM_putVal_isSome l (acc.insert k w) (fun kv hkv => h kv (List.mem_cons_of_mem _ hkv))
    refine ⟨m', ?_⟩
    rw [List.foldlM_cons, putVal, hw]
    exact hm'

theorem nodup_toList_fst (m : ExtTreeMap κ α) : (m.toList.map Prod.fst).Nodup := by
  rw [map_fst_toList_eq_keys]; exact nodup_keys

/-- The entries are those of any list of entries without repetition that has the same ones. -/
theorem toList_perm {m : ExtTreeMap κ α} {l : List (κ × α)} (hl : l.Nodup) (h : ∀ kv, kv ∈ l ↔ m[kv.1]? = some kv.2) :
    m.toList.Perm l := by
  refine (List.perm_ext_iff_of_nodup (m.nodup_toList_fst.of_map _) hl).mpr ?_
  intro kv
  rw [h, ← mem_toList_iff_getElem?_eq_some]

/-- An insertion leaves the entries of the other keys. -/
theorem filter_toList_insert [DecidableEq κ] (m : ExtTreeMap κ α) (k : κ) (v : α) :
    ((m.insert k v).toList.filter fun kv => kv.1 ≠ k).Perm (m.toList.filter fun kv => kv.1 ≠ k) := by
  refine (List.perm_ext_iff_of_nodup (((m.insert k v).nodup_toList_fst.of_map _).filter _)
    ((m.nodup_toList_fst.of_map _).filter _)).mpr ?_
  intro kv
  rw [List.mem_filter, List.mem_filter, mem_toList_iff_getElem?_eq_some, mem_toList_iff_getElem?_eq_some,
    getElem?_insert]
  by_cases hk : k = kv.1
  · simp [hk]
  · rw [if_neg (by rw [LawfulEqCmp.compare_eq_iff_eq]; exact hk)]

/-- What the loop stores at each key. -/
theorem getElem?_mapValsM {f : κ → α → Option β} {m : ExtTreeMap κ α} {m' : ExtTreeMap κ β}
    (h : m.mapValsM f = some m') (k : κ) : m'[k]? = m[k]?.bind (f k) := by
  obtain ⟨hmem, hoff⟩ := foldlM_putVal_some m.toList ∅ m' h m.nodup_toList_fst
  cases hk : m[k]? with
  | none =>
    rw [hoff k ?_]
    · simp
    · rw [map_fst_toList_eq_keys, mem_keys, mem_iff_isSome_getElem?, hk]
      simp
  | some v => exact (hmem (k, v) (mem_toList_iff_getElem?_eq_some.mpr hk)).1

/-- A loop that ran to its end failed at no entry. -/
theorem mapValsM_val {f : κ → α → Option β} {m : ExtTreeMap κ α} {m' : ExtTreeMap κ β}
    (h : m.mapValsM f = some m') {k : κ} {v : α} (hk : m[k]? = some v) :
    ∃ w, f k v = some w ∧ m'[k]? = some w := by
  obtain ⟨hmem, -⟩ := foldlM_putVal_some m.toList ∅ m' h m.nodup_toList_fst
  obtain ⟨heq, hsome⟩ := hmem (k, v) (mem_toList_iff_getElem?_eq_some.mpr hk)
  obtain ⟨w, hw⟩ := Option.isSome_iff_exists.mp hsome
  exact ⟨w, hw, by rw [heq, hw]⟩

theorem mapValsM_isSome {f : κ → α → Option β} {m : ExtTreeMap κ α}
    (h : ∀ k v, m[k]? = some v → (f k v).isSome) : ∃ m', m.mapValsM f = some m' :=
  foldlM_putVal_isSome m.toList ∅ fun kv hkv => h kv.1 kv.2 (mem_toList_iff_getElem?_eq_some.mp hkv)

theorem mem_mapValsM {f : κ → α → Option β} {m : ExtTreeMap κ α} {m' : ExtTreeMap κ β}
    (h : m.mapValsM f = some m') {k : κ} : k ∈ m' ↔ k ∈ m := by
  constructor
  · intro hk
    obtain ⟨w, hw⟩ := exists_getElem? hk
    rw [getElem?_mapValsM h] at hw
    obtain ⟨v, hv, -⟩ := Option.bind_eq_some_iff.mp hw
    exact mem_of_getElem? hv
  · intro hk
    obtain ⟨v, hv⟩ := exists_getElem? hk
    obtain ⟨w, -, hw⟩ := mapValsM_val h hv
    exact mem_of_getElem? hw

theorem keys_eq_of_mem_iff {m : ExtTreeMap κ β} {l : List κ} (hl : l.Pairwise (fun a b => compare a b = .lt))
    (h : ∀ k, k ∈ m ↔ k ∈ l) : m.keys = l := by
  have hirrefl : Std.Irrefl (fun a b : κ => compare a b = .lt) := ⟨fun a ha => by
    have hself : compare a a = .eq := ReflCmp.compare_self
    rw [hself] at ha
    cases ha⟩
  have hanti : Std.Antisymm (fun a b : κ => compare a b = .lt) := ⟨fun a b hab hba => by
    have hswap : compare a b = (compare b a).swap := OrientedCmp.eq_swap
    rw [hswap, hba] at hab
    cases hab⟩
  refine List.Pairwise.eq_of_mem_iff ordered_keys hl ?_
  intro k
  rw [mem_keys, h]

variable [DecidableEq κ]

theorem toList_insert_perm_erase (m : ExtTreeMap κ α) (k : κ) (v : α) :
    (m.insert k v).toList.Perm ((k, v) :: (m.erase k).toList) := by
  have hnd : ((k, v) :: (m.erase k).toList).Nodup := by
    refine List.nodup_cons.mpr ⟨?_, (m.erase k).nodup_toList_fst.of_map _⟩
    intro hm
    have hget := mem_toList_iff_getElem?_eq_some.mp hm
    rw [getElem?_erase_self] at hget
    cases hget
  apply toList_perm hnd
  intro kv
  rw [List.mem_cons, mem_toList_iff_getElem?_eq_some, getElem?_insert, getElem?_erase]
  simp only [LawfulEqCmp.compare_eq_iff_eq]
  by_cases hk : k = kv.1
  · rw [if_pos hk, if_pos hk, hk]
    constructor
    · rintro (h | h)
      · rw [h]
      · cases h
    · intro h
      left
      rw [Option.some.injEq] at h
      rw [h]
  · rw [if_neg hk, if_neg hk]
    constructor
    · rintro (h | h)
      · exact absurd (congrArg Prod.fst h).symm hk
      · exact h
    · exact Or.inr

theorem insert_idx_of_mem [Inhabited α] {m : ExtTreeMap κ α} {k : κ} (h : k ∈ m) : m.insert k (m.idx k) = m :=
  upd_id_of_mem h

theorem erase_of_not_mem {m : ExtTreeMap κ α} {k : κ} (h : k ∉ m) : m.erase k = m := by
  apply ext_getElem?
  intro a
  rw [getElem?_erase]
  simp only [LawfulEqCmp.compare_eq_iff_eq]
  split
  · next he => rw [← he, getElem?_eq_none h]
  · rfl

theorem mapValsM_congr {f g : κ → α → Option β} {m : ExtTreeMap κ α}
    (h : ∀ k v, m[k]? = some v → f k v = g k v) : m.mapValsM f = m.mapValsM g := by
  have hl : ∀ (l : List (κ × α)) (acc : ExtTreeMap κ β), (∀ kv ∈ l, f kv.1 kv.2 = g kv.1 kv.2) →
      l.foldlM (putVal f) acc = l.foldlM (putVal g) acc := by
    intro l
    induction l with
    | nil => intro acc _; rfl
    | cons kv l ih =>
      intro acc hl
      have hput : putVal f acc kv = putVal g acc kv := by rw [putVal, putVal, hl kv List.mem_cons_self]
      rw [List.foldlM_cons, List.foldlM_cons, hput]
      congr 1
      funext acc'
      exact ih acc' fun kv' h' => hl kv' (List.mem_cons_of_mem _ h')
  exact hl m.toList ∅ fun kv hkv => h kv.1 kv.2 (mem_toList_iff_getElem?_eq_some.mp hkv)

/-- What a loop over the entries leaves, by what it does at each key. -/
theorem mapValsM_eq_some_iff {f : κ → α → Option β} {m : ExtTreeMap κ α} {m' : ExtTreeMap κ β} :
    m.mapValsM f = some m' ↔ (∀ k, m'[k]? = m[k]?.bind (f k)) ∧ ∀ k, k ∈ m → k ∈ m' := by
  constructor
  · exact fun h => ⟨getElem?_mapValsM h, fun k hk => (mem_mapValsM h).mpr hk⟩
  · rintro ⟨hget, hmem⟩
    obtain ⟨m'', h⟩ := mapValsM_isSome (m := m) (f := f) (by
      intro k v hk
      have hs := hget k
      rw [hk, Option.bind_some] at hs
      rw [← hs, ← mem_iff_isSome_getElem?]
      exact hmem k (mem_of_getElem? hk))
    rw [h]
    congr 1
    apply ext_getElem?
    intro k
    rw [getElem?_mapValsM h, hget]

/-! ## Grouping -/

section Grouping
variable {γ : Type} [Ord γ] [TransOrd γ] [LawfulEqOrd γ] [DecidableEq γ]

/-- One entry goes to the group of its class. -/
def putGroup (f : κ → α → γ) (acc : ExtTreeMap γ (ExtTreeMap κ α)) (kv : κ × α) : ExtTreeMap γ (ExtTreeMap κ α) :=
  acc.upd (f kv.1 kv.2) (·.insertIfNew kv.1 kv.2)

/-- The entries of `m`, each in the group of its class. -/
def groupBy (f : κ → α → γ) (m : ExtTreeMap κ α) : ExtTreeMap γ (ExtTreeMap κ α) := m.toList.foldl (putGroup f) ∅

theorem foldl_putGroup (f : κ → α → γ) : ∀ (l : List (κ × α)) (acc : ExtTreeMap γ (ExtTreeMap κ α)),
    (l.map Prod.fst).Nodup → (∀ kv ∈ l, ∀ c, kv.1 ∉ acc.idx c) → ∀ c k v,
      ((l.foldl (putGroup f) acc).idx c)[k]? = some v ↔ (acc.idx c)[k]? = some v ∨ ((k, v) ∈ l ∧ f k v = c) := by
  intro l
  induction l with
  | nil => simp
  | cons kv l ih =>
    intro acc hnd hnew c k v
    obtain ⟨a, w⟩ := kv
    rw [List.map_cons, List.nodup_cons] at hnd
    -- the entry goes into one group, where its key is new
    have hput : ∀ c k, ((putGroup f acc (a, w)).idx c)[k]? =
        if f a w = c ∧ a = k then some w else (acc.idx c)[k]? := by
      intro c k
      rw [putGroup, idx_upd]
      by_cases hc : f a w = c
      · subst hc
        simp [getElem?_insertIfNew, hnew (a, w) List.mem_cons_self]
      · simp [hc]
    have hrest : ∀ kv ∈ l, ∀ c, kv.1 ∉ (putGroup f acc (a, w)).idx c := by
      intro kv hkv c
      have hne : ¬a = kv.1 := fun he => hnd.1 (List.mem_map.mpr ⟨kv, hkv, he.symm⟩)
      rw [mem_iff_isSome_getElem?, hput, if_neg fun h => hne h.2, ← mem_iff_isSome_getElem?]
      exact hnew kv (List.mem_cons_of_mem _ hkv) c
    rw [List.foldl_cons, ih _ hnd.2 hrest, hput]
    by_cases hak : f a w = c ∧ a = k
    · obtain ⟨rfl, rfl⟩ := hak
      have hacc : (acc.idx (f a w))[a]? = none := getElem?_eq_none (hnew (a, w) List.mem_cons_self _)
      have hl : ∀ v, (a, v) ∉ l := fun v hv => hnd.1 (List.mem_map.mpr ⟨(a, v), hv, rfl⟩)
      rw [if_pos ⟨rfl, rfl⟩, hacc]
      constructor
      · rintro (h | h)
        · cases h
          exact Or.inr ⟨List.mem_cons_self, rfl⟩
        · exact absurd h.1 (hl v)
      · rintro (h | ⟨h, -⟩)
        · cases h
        · rcases List.mem_cons.mp h with h | h
          · cases h
            exact Or.inl rfl
          · exact absurd h (hl v)
    · rw [if_neg hak, List.mem_cons]
      constructor
      · rintro (h | h)
        · exact Or.inl h
        · exact Or.inr ⟨Or.inr h.1, h.2⟩
      · rintro (h | ⟨h | h, hf⟩)
        · exact Or.inl h
        · cases h
          exact absurd ⟨hf, rfl⟩ hak
        · exact Or.inr ⟨h, hf⟩

/-- **What a group has**: the entries of its class. -/
theorem getElem?_groupBy (f : κ → α → γ) (m : ExtTreeMap κ α) (c : γ) (k : κ) (v : α) :
    ((groupBy f m).idx c)[k]? = some v ↔ m[k]? = some v ∧ f k v = c := by
  rw [groupBy, foldl_putGroup f m.toList ∅ m.nodup_toList_fst, idx_empty, mem_toList_iff_getElem?_eq_some]
  · refine or_iff_right ?_
    change ¬(∅ : ExtTreeMap κ α)[k]? = some v
    simp
  · intro kv _ c
    rw [idx_empty]
    exact not_mem_empty

theorem mem_foldl_putGroup (f : κ → α → γ) (c : γ) : ∀ (l : List (κ × α)) (acc : ExtTreeMap γ (ExtTreeMap κ α)),
    c ∈ l.foldl (putGroup f) acc ↔ c ∈ acc ∨ ∃ kv ∈ l, f kv.1 kv.2 = c
  | [], acc => by simp
  | kv :: l, acc => by
    rw [List.foldl_cons, mem_foldl_putGroup f c l, putGroup, mem_upd]
    simp only [List.mem_cons, exists_eq_or_imp]
    tauto

/-- There is a group for each class that occurs. -/
theorem mem_groupBy {f : κ → α → γ} {m : ExtTreeMap κ α} {c : γ} : c ∈ groupBy f m ↔ ∃ k v, m[k]? = some v ∧ f k v = c := by
  rw [groupBy, mem_foldl_putGroup]
  constructor
  · rintro (h | ⟨kv, hkv, hf⟩)
    · exact absurd h not_mem_empty
    · exact ⟨kv.1, kv.2, mem_toList_iff_getElem?_eq_some.mp hkv, hf⟩
  · rintro ⟨k, v, hkv, hf⟩
    exact Or.inr ⟨(k, v), mem_toList_iff_getElem?_eq_some.mpr hkv, hf⟩

end Grouping

end Std.ExtTreeMap

/-! ## Loops over the keys -/

namespace List

variable {κ σ : Type}

/-- A loop whose body never fails reaches its end. -/
theorem foldlM_isSome {f : σ → κ → Option σ} : ∀ (l : List κ) (s : σ), (∀ s, ∀ k ∈ l, (f s k).isSome) →
    ∃ s', l.foldlM f s = some s'
  | [], s, _ => ⟨s, by rw [List.foldlM_nil]; rfl⟩
  | k :: l, s, h => by
    obtain ⟨t, ht⟩ := Option.isSome_iff_exists.mp (h s k List.mem_cons_self)
    obtain ⟨s', hs'⟩ := foldlM_isSome l t (fun s k hk => h s k (List.mem_cons_of_mem _ hk))
    exact ⟨s', by rw [List.foldlM_cons, ht]; exact hs'⟩

/-- A loop that reads through pointers none of which is NULL is the loop over what they
point to. -/
theorem foldlM_deref {α : Type} {f : σ → α → σ} : ∀ (l : List (κ × Option α)) (s : σ), (∀ kv ∈ l, kv.2.isSome) →
    l.foldlM (fun s kv => kv.2.map (f s)) s = some ((l.filterMap Prod.snd).foldl f s)
  | [], s, _ => by rw [List.foldlM_nil]; rfl
  | (k, none) :: l, s, h => by
    have hnull := h (k, none) List.mem_cons_self
    cases hnull
  | (k, some x) :: l, s, h => by
    have ih := foldlM_deref (f := f) l (f s x) fun kv hkv => h kv (List.mem_cons_of_mem _ hkv)
    rw [List.foldlM_cons, Option.map_some, Option.bind_eq_bind, Option.bind_some, ih]
    rfl

/-- A key that is not selected adds nothing to the selected keys visited. -/
theorem visited_skip (sel : κ → Prop) {done : List κ} {k : κ} (hk : ¬sel k) (x : κ) :
    (x ∈ done ++ [k] ∧ sel x) ↔ (x ∈ done ∧ sel x) := by
  rw [List.mem_append, List.mem_singleton]
  constructor
  · rintro ⟨hx | rfl, hsel⟩
    · exact ⟨hx, hsel⟩
    · exact absurd hsel hk
  · exact fun h => ⟨Or.inl h.1, h.2⟩

theorem visited_step (sel : κ → Prop) {done : List κ} {k : κ} (hk : sel k) (x : κ) :
    (x ∈ done ++ [k] ∧ sel x) ↔ (k = x ∨ (x ∈ done ∧ sel x)) := by
  rw [List.mem_append, List.mem_singleton]
  constructor
  · rintro ⟨hx | rfl, hsel⟩
    · exact Or.inr ⟨hx, hsel⟩
    · exact Or.inl rfl
  · rintro (rfl | h)
    · exact ⟨Or.inr rfl, hk⟩
    · exact ⟨Or.inl h.1, h.2⟩

/-- **Invariant rule of a loop over distinct keys.** `I done s` speaks of the
keys already visited; the body is only run at a key not visited before. -/
theorem foldlM_walk {f : σ → κ → Option σ} {I : List κ → σ → Prop} {l : List κ} (hl : l.Nodup) {s s' : σ}
    (h0 : I [] s) (hstep : ∀ done k rest s s', l = done ++ k :: rest → k ∉ done → I done s →
      f s k = some s' → I (done ++ [k]) s')
    (h : l.foldlM f s = some s') : I l s' := by
  suffices H : ∀ (rest done : List κ) (t : σ), done ++ rest = l → I done t → rest.foldlM f t = some s' →
      I l s' from H l [] s rfl h0 h
  intro rest
  induction rest with
  | nil =>
    intro done t hd hI ht
    rw [List.foldlM_nil] at ht
    cases ht
    rw [← hd, List.append_nil]
    exact hI
  | cons k rest ih =>
    intro done t hd hI ht
    rw [List.foldlM_cons] at ht
    obtain ⟨u, hu, hrest⟩ := Option.bind_eq_some_iff.mp ht
    have hnk : k ∉ done := by
      rw [← hd] at hl
      exact fun hm => List.disjoint_of_nodup_append hl hm List.mem_cons_self
    exact ih (done ++ [k]) u (by simpa using hd) (hstep done k rest t u hd.symm hnk hI hu) hrest

/-- **Progress rule of a loop over distinct keys**: under an invariant at which
the body never fails, the loop reaches its end. -/
theorem foldlM_walk_isSome {f : σ → κ → Option σ} {I : List κ → σ → Prop} {l : List κ} (hl : l.Nodup) {s : σ}
    (h0 : I [] s) (hstep : ∀ done k rest s, l = done ++ k :: rest → k ∉ done → I done s →
      ∃ s', f s k = some s' ∧ I (done ++ [k]) s') :
    ∃ s', l.foldlM f s = some s' := by
  suffices H : ∀ (rest done : List κ) (t : σ), done ++ rest = l → I done t →
      ∃ s', rest.foldlM f t = some s' from H l [] s rfl h0
  intro rest
  induction rest with
  | nil => exact fun _ t _ _ => ⟨t, by rw [List.foldlM_nil]; rfl⟩
  | cons k rest ih =>
    intro done t hd hI
    have hnk : k ∉ done := by
      rw [← hd] at hl
      exact fun hm => List.disjoint_of_nodup_append hl hm List.mem_cons_self
    obtain ⟨u, hu, hI'⟩ := hstep done k rest t hd.symm hnk hI
    obtain ⟨s', hs'⟩ := ih (done ++ [k]) u (by simpa using hd) hI'
    refine ⟨s', ?_⟩
    rw [List.foldlM_cons, hu]
    exact hs'

/-- The two rules of a loop over distinct keys in one: under an invariant at which the body
never fails, the loop reaches its end and leaves it. -/
theorem foldlM_walk_total {f : σ → κ → Option σ} {I : List κ → σ → Prop} {l : List κ} (hl : l.Nodup) {s : σ}
    (h0 : I [] s) (hstep : ∀ done k rest s, l = done ++ k :: rest → k ∉ done → I done s →
      ∃ s', f s k = some s' ∧ I (done ++ [k]) s') :
    ∃ s', l.foldlM f s = some s' ∧ I l s' := by
  obtain ⟨s', hs'⟩ := foldlM_walk_isSome hl h0 hstep
  refine ⟨s', hs', foldlM_walk hl h0 ?_ hs'⟩
  intro done k rest s t hd hk hI ht
  obtain ⟨t', ht', hI'⟩ := hstep done k rest s hd hk hI
  rw [ht] at ht'
  cases ht'
  exact hI'

/-- **The simulation rule of a loop over distinct keys.** -/
theorem foldlM_sim {τ : Type} {f : σ → κ → Option σ} {g : τ → κ → Option τ} {R : List κ → σ → τ → Prop} {l : List κ}
    (hl : l.Nodup) {s : σ} {t t' : τ} (h0 : R [] s t)
    (hstep : ∀ done k rest s t t', l = done ++ k :: rest → k ∉ done → R done s t → g t k = some t' →
      ∃ s', f s k = some s' ∧ R (done ++ [k]) s' t')
    (h : l.foldlM g t = some t') : ∃ s', l.foldlM f s = some s' ∧ R l s' t' := by
  suffices H : ∀ (rest done : List κ) (s : σ) (t : τ), done ++ rest = l → R done s t → rest.foldlM g t = some t' →
      ∃ s', rest.foldlM f s = some s' ∧ R l s' t' from H l [] s t rfl h0 h
  intro rest
  induction rest with
  | nil =>
    intro done s t hd hR ht
    rw [List.foldlM_nil] at ht
    cases ht
    rw [List.append_nil] at hd
    exact ⟨s, rfl, hd ▸ hR⟩
  | cons k rest ih =>
    intro done s t hd hR ht
    rw [List.foldlM_cons] at ht
    obtain ⟨u, hu, hrest⟩ := Option.bind_eq_some_iff.mp ht
    have hnk : k ∉ done := by
      rw [← hd] at hl
      exact fun hm => List.disjoint_of_nodup_append hl hm List.mem_cons_self
    obtain ⟨v, hv, hR'⟩ := hstep done k rest s t u hd.symm hnk hR hu
    obtain ⟨s', hs', hR''⟩ := ih (done ++ [k]) v u (by simpa using hd) hR' hrest
    exact ⟨s', by rw [List.foldlM_cons, hv]; exact hs', hR''⟩

/-- Of what a pass over distinct keys emits, each item under its own key, what it
emits under one key. -/
theorem filter_filterMap_key {β : Type} [DecidableEq κ] {f : κ → Option β} {key : β → κ}
    (hf : ∀ k c, f k = some c → key c = k) (d : κ) : ∀ {l : List κ}, l.Nodup →
    (l.filterMap f).filter (fun c => key c = d) = if d ∈ l then (f d).toList else [] := by
  intro l
  induction l with
  | nil => simp
  | cons k l ih =>
    intro hl
    rw [List.nodup_cons] at hl
    have ih := ih hl.2
    by_cases hk : k = d
    · subst hk
      rw [if_neg hl.1] at ih
      cases hc : f k with
      | none => simp [hc, ih]
      | some c => simp [hc, hf k c hc, ih]
    · have hne : ¬d = k := fun h => hk h.symm
      cases hc : f k with
      | none => simp [hc, ih, hne]
      | some c => simp [hc, hf k c hc, ih, hk, hne]

end List

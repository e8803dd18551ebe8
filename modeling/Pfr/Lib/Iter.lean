import Pfr.Lib.OrdMap

/- Walks over nested ordered maps by explicit iterators.

   The maps of a state lie one inside another, and the path of an element says where it
   lies; erasing an element erases everything whose path begins with its own. A heap is
   the state with the paths erased so far. An iterator remembers how many there were
   when it was taken, and it dangles once a later one covers its element.

   1. `Place`, `Place.sub`: a map somewhere in the state, and the map at one of its keys;
   2. `Valid`, `Erases`: which erasures leave an iterator alone;
   3. `forKeys` and `forErase`: the loops `for(it = begin(); it != end(); it++)` and
      `for(it = begin(); it != end();) { .. it = erase(it); .. }`;
   4. `forKeys_ok`, `forErase_ok`: the rules under which such a loop visits every key
      once and uses no iterator that dangles;
   5. `forKeys_error`: where a loop of the first kind stops;
   6. `clear_ok`: the loops that empty a map, and the maps in it, before it is erased. -/

set_option linter.unusedSectionVars false

/-! ## The keys of a map -/

namespace Std.ExtTreeMap

variable {κ : Type} {β : Type} [Ord κ] [TransOrd κ] [LawfulEqOrd κ]

/-- Rewriting a present entry adds no key. -/
theorem keys_insert_of_mem {m : ExtTreeMap κ β} {k : κ} (h : k ∈ m) (v : β) : (m.insert k v).keys = m.keys := by
  refine keys_eq_of_mem_iff ordered_keys ?_
  intro a
  rw [mem_insert, mem_keys, LawfulEqCmp.compare_eq_iff_eq]
  constructor
  · rintro (rfl | ha)
    · exact h
    · exact ha
  · exact Or.inr

theorem keys_erase_head {m : ExtTreeMap κ β} {k : κ} {rest : List κ} (h : m.keys = k :: rest) :
    (m.erase k).keys = rest := by
  have hsort := h ▸ m.ordered_keys
  have hnd := h ▸ m.nodup_keys
  refine keys_eq_of_mem_iff (List.Pairwise.of_cons hsort) ?_
  intro a
  rw [mem_erase, ← mem_keys, h, List.mem_cons]
  simp only [ne_eq, LawfulEqCmp.compare_eq_iff_eq]
  constructor
  · rintro ⟨hne, rfl | ha⟩
    · exact absurd rfl hne
    · exact ha
  · intro ha
    refine ⟨?_, Or.inr ha⟩
    rintro rfl
    exact (List.nodup_cons.mp hnd).1 ha

theorem insert_insert [DecidableEq κ] (m : ExtTreeMap κ β) (k : κ) (v w : β) :
    (m.insert k w).insert k v = m.insert k v := by
  apply ext_getElem?
  intro a
  simp only [getElem?_insert]
  split <;> rfl

/-- Maps that differ at one key at most. -/
theorem erase_congr [DecidableEq κ] {m m' : ExtTreeMap κ β} {k : κ} (h : ∀ a, k ≠ a → m[a]? = m'[a]?) :
    m.erase k = m'.erase k := by
  apply ext_getElem?
  intro a
  simp only [getElem?_erase, LawfulEqCmp.compare_eq_iff_eq]
  by_cases ha : k = a
  · rw [if_pos ha, if_pos ha]
  · rw [if_neg ha, if_neg ha, h a ha]

end Std.ExtTreeMap

namespace Iter

open Std

/-- What ends a walk before its end. -/
inductive Stop where
  /-- an iterator was used after its element was erased -/
  | stale
  /-- `end()` was erased -/
  | atEnd
  /-- NULL was dereferenced -/
  | null
  /-- the walk makes more turns than there were keys at its start -/
  | fuel
  deriving DecidableEq, Repr

/-- The state, and the paths of the elements erased so far, the last one first. -/
structure Heap (σ α : Type) where
  data : σ
  erased : List (List α)

/-- An iterator: the key of its element, and how much was erased before it was taken. -/
structure Pos (κ : Type) where
  key : κ
  born : Nat

/-- A map somewhere in the state. -/
structure Place (σ α κ β : Type) [Ord κ] where
  get : σ → ExtTreeMap κ β
  put : ExtTreeMap κ β → σ → σ
  path : List α
  comp : κ → α
  get_put : ∀ v s, get (put v s) = v
  put_put : ∀ v w s, put v (put w s) = put v s

variable {σ α κ β : Type} [Ord κ] [TransOrd κ] [LawfulEqOrd κ] [DecidableEq κ] [DecidableEq α]

namespace Place

variable (P : Place σ α κ β)

/-- The path of an element. -/
def node (k : κ) : List α := P.path ++ [P.comp k]

def keys (h : Heap σ α) : List κ := (P.get h.data).keys

/-- `erase(k)`. Where there is no such element, no iterator stands on one. -/
def eraseAt (k : κ) (h : Heap σ α) : Heap σ α :=
  ⟨P.put ((P.get h.data).erase k) h.data, P.node k :: h.erased⟩

/-- `erase(find(k))`. -/
def eraseFound (k : κ) (h : Heap σ α) : Except Stop (Heap σ α) :=
  if k ∈ P.get h.data then .ok (P.eraseAt k h) else .error .atEnd

/-- A lookup by `[]` of the map itself: it is put where it lies, should it not be there. -/
def touch (h : Heap σ α) : Heap σ α := ⟨P.put (P.get h.data) h.data, h.erased⟩

/-- The map at a key of a map of maps. -/
def sub {κ' β' : Type} [Ord κ'] (P : Place σ α κ (ExtTreeMap κ' β')) (k : κ) (comp : κ' → α) :
    Place σ α κ' β' where
  get s := (P.get s).idx k
  put v s := P.put ((P.get s).insert k v) s
  path := P.node k
  comp := comp
  get_put v s := by rw [P.get_put, ExtTreeMap.idx_insert, if_pos rfl]
  put_put v w s := by rw [P.get_put, P.put_put, ExtTreeMap.insert_insert]

@[simp] theorem keys_touch (h : Heap σ α) : P.keys (P.touch h) = P.keys h := by
  rw [keys, touch, P.get_put, keys]

theorem keys_eraseAt {k : κ} {rest : List κ} {h : Heap σ α} (hk : P.keys h = k :: rest) :
    P.keys (P.eraseAt k h) = rest := by
  rw [keys, eraseAt, P.get_put]
  exact ExtTreeMap.keys_erase_head hk

/-- The walk stands on a key of the map. -/
theorem mem_of_split {done rest : List κ} {k : κ} {h : Heap σ α} (hk : P.keys h = done ++ k :: rest) :
    k ∈ P.get h.data := by
  apply ExtTreeMap.mem_keys.mp
  show k ∈ P.keys h
  rw [hk]
  exact List.mem_append_right done List.mem_cons_self

end Place

/-! ## Iterators -/

section Positions
variable (P : Place σ α κ β)

/-- What was erased after the first `n` erasures. -/
def Heap.since (h : Heap σ α) (n : Nat) : List (List α) := h.erased.take (h.erased.length - n)

/-- No erasure since the iterator was taken covers its element. -/
def Valid (it : Pos κ) (h : Heap σ α) : Prop := ∀ e ∈ h.since it.born, ¬e <+: P.node it.key

instance (it : Pos κ) (h : Heap σ α) : Decidable (Valid P it h) :=
  inferInstanceAs (Decidable (∀ e ∈ h.since it.born, ¬e <+: P.node it.key))

/-- An iterator is dereferenced, advanced or erased through. -/
def use (it : Pos κ) (h : Heap σ α) : Except Stop Unit := if Valid P it h then .ok () else .error .stale

/-- An iterator taken now, at a key or at the end. -/
def Heap.posAt (h : Heap σ α) (k : Option κ) : Option (Pos κ) := k.map fun k => ⟨k, h.erased.length⟩

/-- The key after `k`. -/
def succ (keys : List κ) (k : κ) : Option κ := (keys.dropWhile (· ≠ k)).tail.head?

/-- The turns of `for(..; it != end(); it++)`, with the keys visited. -/
def walk (body : κ → Heap σ α → Except Stop (Heap σ α)) :
    Nat → Option (Pos κ) → Heap σ α → Except Stop (List κ × Heap σ α)
  | _, none, h => .ok ([], h)
  | 0, some _, _ => .error .fuel
  | n + 1, some it, h => do
    use P it h
    let t ← body it.key h
    use P it t
    let r ← walk body n (t.posAt (succ (P.keys t) it.key)) t
    return (it.key :: r.1, r.2)

/-- The turns of `for(..; it != end();) { before; it = erase(it); after; }`. -/
def eraseWalk (before after : κ → Heap σ α → Except Stop (Heap σ α)) :
    Nat → Option (Pos κ) → Heap σ α → Except Stop (List κ × Heap σ α)
  | _, none, h => .ok ([], h)
  | 0, some _, _ => .error .fuel
  | n + 1, some it, h => do
    use P it h
    let t ← before it.key h
    use P it t
    let u := P.eraseAt it.key t
    -- `erase` returns the next position of the map it erased from
    let next := u.posAt (succ (P.keys t) it.key)
    let v ← after it.key u
    let r ← eraseWalk before after n next v
    return (it.key :: r.1, r.2)

def forKeys (body : κ → Heap σ α → Except Stop (Heap σ α)) (h : Heap σ α) : Except Stop (List κ × Heap σ α) :=
  walk P body (P.keys h).length (h.posAt (P.keys h).head?) h

def forErase (before after : κ → Heap σ α → Except Stop (Heap σ α)) (h : Heap σ α) :
    Except Stop (List κ × Heap σ α) :=
  eraseWalk P before after (P.keys h).length (h.posAt (P.keys h).head?) h

end Positions

/-- The loops that empty a map: `inner` is called with each key before it is erased. -/
def clear (P : Place σ α κ β) (inner : κ → Heap σ α → Except Stop (Heap σ α)) (h : Heap σ α) :
    Except Stop (Heap σ α) := do
  let r ← forErase P inner (fun _ t => .ok t) (P.touch h)
  return r.2

/-- The walk ran to its end and visited these keys, each once and in order. -/
def Visits (out : Except Stop (List κ × Heap σ α)) (keys : List κ) : Prop := ∃ h, out = .ok (keys, h)

/-! ## What was erased -/

/-- From `h` to `t` only such paths were erased. -/
def Erases (S : List α → Prop) (h t : Heap σ α) : Prop := ∃ es, t.erased = es ++ h.erased ∧ ∀ e ∈ es, S e

section Erasures
variable {S S' : List α → Prop} {h t u : Heap σ α}

theorem Erases.refl (S : List α → Prop) (h : Heap σ α) : Erases S h h := ⟨[], rfl, by simp⟩

theorem Erases.of_eq (he : t.erased = h.erased) : Erases S h t := ⟨[], he, by simp⟩

theorem Erases.trans (h1 : Erases S h t) (h2 : Erases S t u) : Erases S h u := by
  obtain ⟨es, hes, hS⟩ := h1
  obtain ⟨fs, hfs, hS'⟩ := h2
  refine ⟨fs ++ es, by rw [hfs, hes, List.append_assoc], ?_⟩
  intro e he
  rcases List.mem_append.mp he with he | he
  · exact hS' e he
  · exact hS e he

theorem Erases.mono (hSS : ∀ e, S e → S' e) (h1 : Erases S h t) : Erases S' h t := by
  obtain ⟨es, hes, hS⟩ := h1
  exact ⟨es, hes, fun e he => hSS e (hS e he)⟩

theorem Erases.eraseAt (P : Place σ α κ β) {k : κ} (hS : S (P.node k)) (h : Heap σ α) : Erases S h (P.eraseAt k h) := by
  refine ⟨[P.node k], rfl, ?_⟩
  simpa using hS

theorem since_append {es : List (List α)} {n : Nat} (hn : n ≤ h.erased.length) (he : t.erased = es ++ h.erased) :
    t.since n = es ++ h.since n := by
  have hlen : (es ++ h.erased).length - n = es.length + (h.erased.length - n) := by
    rw [List.length_append]
    omega
  rw [Heap.since, he, hlen, List.take_length_add_append, Heap.since]

theorem since_length (h : Heap σ α) : h.since h.erased.length = [] := by simp [Heap.since]

variable {P : Place σ α κ β}

theorem valid_fresh (k : κ) (h : Heap σ α) : Valid P ⟨k, h.erased.length⟩ h := by
  intro e he
  rw [since_length] at he
  cases he

/-- An iterator stays valid while nothing its element lies in is erased. -/
theorem Valid.later {it : Pos κ} (hv : Valid P it h) (hn : it.born ≤ h.erased.length)
    (he : Erases (fun e => ¬e <+: P.node it.key) h t) : Valid P it t := by
  obtain ⟨es, hes, hS⟩ := he
  intro e hmem
  rw [since_append hn hes] at hmem
  rcases List.mem_append.mp hmem with hmem | hmem
  · exact hS e hmem
  · exact hv e hmem

theorem Erases.length_le (he : Erases S h t) : h.erased.length ≤ t.erased.length := by
  obtain ⟨es, hes, -⟩ := he
  rw [hes, List.length_append]
  omega

theorem Valid.use_eq {it : Pos κ} (hv : Valid P it h) : use P it h = .ok () := if_pos hv

/-- The element of the iterator was erased. -/
theorem use_stale {k : κ} {es : List (List α)} (hes : t.erased = es ++ h.erased) (hk : P.node k ∈ es) :
    use P ⟨k, h.erased.length⟩ t = .error .stale := by
  rw [use, if_neg]
  intro hvalid
  refine hvalid (P.node k) ?_ (List.prefix_refl _)
  rw [since_append (Nat.le_refl _) hes]
  exact List.mem_append_left _ hk

end Erasures

/-- Below `path`: the element at `path` itself stays. -/
def Below (path e : List α) : Prop := path <+: e ∧ e ≠ path

theorem Below.not_covers {path e : List α} (h : Below path e) : ¬e <+: path :=
  fun he => h.2 (he.eq_of_length_le h.1.length_le)

theorem Place.node_below (P : Place σ α κ β) (k : κ) : Below P.path (P.node k) := by
  refine ⟨List.prefix_append _ _, ?_⟩
  intro he
  have hlen := congrArg List.length he
  simp [Place.node] at hlen

theorem Below.trans {path mid e : List α} (h : Below path mid) (h' : Below mid e) : Below path e := by
  refine ⟨h.1.trans h'.1, ?_⟩
  rintro rfl
  exact h.not_covers h'.1

/-- Paths that begin differently. -/
theorem not_covers_of_head {a b : α} {l l' : List α} (h : a ≠ b) : ¬(a :: l) <+: b :: l' := by
  rw [List.cons_prefix_cons]
  exact fun he => h he.1

/-! ## The rules of the loops -/

/-- The first item that fails a test. -/
theorem exists_first {p : κ → Prop} : ∀ {l : List κ}, (∃ a ∈ l, ¬p a) →
    ∃ done a rest, l = done ++ a :: rest ∧ (∀ b ∈ done, p b) ∧ ¬p a
  | [], h => by
    obtain ⟨a, ha, -⟩ := h
    cases ha
  | x :: l, h => by
    by_cases hx : p x
    · obtain ⟨a, ha, hpa⟩ := h
      have hrest : a ∈ l := (List.mem_cons.mp ha).resolve_left fun he => hpa (he ▸ hx)
      obtain ⟨done, b, rest, hl, hdone, hb⟩ := exists_first ⟨a, hrest, hpa⟩
      refine ⟨x :: done, b, rest, by rw [hl]; rfl, ?_, hb⟩
      intro c hc
      rcases List.mem_cons.mp hc with rfl | hc
      · exact hx
      · exact hdone c hc
    · exact ⟨[], x, l, rfl, fun b hb => absurd hb List.not_mem_nil, hx⟩

theorem succ_append {done rest : List κ} {k : κ} (hk : k ∉ done) : succ (done ++ k :: rest) k = rest.head? := by
  have hdrop : (done ++ k :: rest).dropWhile (· ≠ k) = k :: rest := by
    rw [List.dropWhile_append_of_pos]
    · simp
    · intro a ha
      have hne : a ≠ k := fun h => hk (h ▸ ha)
      simpa using hne
  rw [succ, hdrop]
  rfl

theorem succ_head {rest : List κ} {k : κ} : succ (k :: rest) k = rest.head? := by
  rw [← List.nil_append (k :: rest)]
  exact succ_append List.not_mem_nil

section Rules
variable {P : Place σ α κ β} {h : Heap σ α} {I : List κ → Heap σ α → Prop}

/-- One turn of a loop that only advances. -/
theorem walk_turn {body : κ → Heap σ α → Except Stop (Heap σ α)} {done rest : List κ} {k : κ} {t t' : Heap σ α}
    (hk : k ∉ done) (hb : body k t = .ok t') (hkeys : P.keys t' = done ++ k :: rest)
    (he : Erases (fun e => ¬e <+: P.node k) t t') :
    walk P body (rest.length + 1) (t.posAt (some k)) t =
      (walk P body rest.length (t'.posAt rest.head?) t').map fun r => (k :: r.1, r.2) := by
  change (do
    use P ⟨k, t.erased.length⟩ t
    let t ← body k t
    use P ⟨k, _⟩ t
    let r ← walk P body rest.length (t.posAt (succ (P.keys t) k)) t
    return (k :: r.1, r.2)) = _
  rw [(valid_fresh k t).use_eq]
  change (body k t >>= _) = _
  rw [hb]
  change (use P _ t' >>= _) = _
  rw [((valid_fresh k t).later (Nat.le_refl _) he).use_eq, hkeys, succ_append hk]
  change (walk P body rest.length (t'.posAt rest.head?) t' >>= _) = _
  cases walk P body rest.length (t'.posAt rest.head?) t' <;> rfl

/-- The turns of the keys in `done`: their bodies add and erase no key of the map and
nothing their own element lies in. -/
theorem forKeys_front {body : κ → Heap σ α → Except Stop (Heap σ α)} {done rest : List κ}
    (hkeys : P.keys h = done ++ rest) (h0 : I [] h)
    (hstep : ∀ seen k todo t, done = seen ++ k :: todo → P.keys t = P.keys h → I seen t →
      ∃ t', body k t = .ok t' ∧ P.keys t' = P.keys h ∧ Erases (fun e => ¬e <+: P.node k) t t' ∧ I (seen ++ [k]) t') :
    ∃ t, P.keys t = P.keys h ∧ I done t ∧ forKeys P body h =
      (walk P body rest.length (t.posAt rest.head?) t).map fun r => (done ++ r.1, r.2) := by
  suffices H : ∀ (todo seen : List κ) (t : Heap σ α), done = seen ++ todo → P.keys t = P.keys h → I seen t →
      ∃ t', P.keys t' = P.keys h ∧ I done t' ∧ walk P body (todo ++ rest).length (t.posAt (todo ++ rest).head?) t =
        (walk P body rest.length (t'.posAt rest.head?) t').map fun r => (todo ++ r.1, r.2) by
    obtain ⟨t, hkt, hI, hwalk⟩ := H done [] h rfl rfl h0
    refine ⟨t, hkt, hI, ?_⟩
    rw [← hwalk, forKeys, hkeys]
  intro todo
  induction todo with
  | nil =>
    intro seen t hd hkt hI
    refine ⟨t, hkt, by rw [hd, List.append_nil]; exact hI, ?_⟩
    show walk P body rest.length (t.posAt rest.head?) t = _
    cases walk P body rest.length (t.posAt rest.head?) t <;> rfl
  | cons k todo ih =>
    intro seen t hd hkt hI
    have hall : P.keys h = seen ++ k :: (todo ++ rest) := by rw [hkeys, hd]; simp
    have hnd : (seen ++ k :: (todo ++ rest)).Nodup := hall ▸ ExtTreeMap.nodup_keys
    have hnk : k ∉ seen := fun hm => List.disjoint_of_nodup_append hnd hm List.mem_cons_self
    obtain ⟨t', hb, hkt', he, hI'⟩ := hstep seen k todo t hd hkt hI
    obtain ⟨u, hku, hIu, hwalk⟩ := ih (seen ++ [k]) t' (by rw [hd, List.append_assoc]; rfl) hkt' hI'
    refine ⟨u, hku, hIu, ?_⟩
    show walk P body ((todo ++ rest).length + 1) (t.posAt (some k)) t = _
    rw [walk_turn hnk hb (hkt'.trans hall) he, hwalk]
    cases walk P body rest.length (u.posAt rest.head?) u <;> rfl

/-- **The rule of `for(..; it++)`**: with such a body every key is visited once. -/
theorem forKeys_ok {body : κ → Heap σ α → Except Stop (Heap σ α)} (h0 : I [] h)
    (hstep : ∀ done k rest t, P.keys h = done ++ k :: rest → P.keys t = P.keys h → I done t →
      ∃ t', body k t = .ok t' ∧ P.keys t' = P.keys h ∧ Erases (fun e => ¬e <+: P.node k) t t' ∧ I (done ++ [k]) t') :
    ∃ h', forKeys P body h = .ok (P.keys h, h') ∧ I (P.keys h) h' := by
  obtain ⟨t, -, hI, hwalk⟩ := forKeys_front (List.append_nil (P.keys h)).symm h0 hstep
  refine ⟨t, ?_, hI⟩
  rw [hwalk]
  show Except.ok (P.keys h ++ [], t) = _
  rw [List.append_nil]

/-- **Where `for(..; it++)` stops**: at the first key whose turn fails. -/
theorem forKeys_error {body : κ → Heap σ α → Except Stop (Heap σ α)} {done rest : List κ} {k : κ} {stop : Stop}
    (hkeys : P.keys h = done ++ k :: rest) (h0 : I [] h)
    (hstep : ∀ seen k todo t, done = seen ++ k :: todo → P.keys t = P.keys h → I seen t →
      ∃ t', body k t = .ok t' ∧ P.keys t' = P.keys h ∧ Erases (fun e => ¬e <+: P.node k) t t' ∧ I (seen ++ [k]) t')
    (hbad : ∀ t, P.keys t = P.keys h → I done t → (body k t >>= use P ⟨k, t.erased.length⟩) = .error stop) :
    forKeys P body h = .error stop := by
  obtain ⟨t, hkt, hI, hwalk⟩ := forKeys_front hkeys h0 hstep
  have hstop := hbad t hkt hI
  have hturn : walk P body (rest.length + 1) (t.posAt (some k)) t = .error stop := by
    change (do
      use P ⟨k, t.erased.length⟩ t
      let u ← body k t
      use P ⟨k, _⟩ u
      let r ← walk P body rest.length (u.posAt (succ (P.keys u) k)) u
      return (k :: r.1, r.2)) = _
    rw [(valid_fresh k t).use_eq]
    change (body k t >>= _) = _
    cases hb : body k t with
    | error e =>
      rw [hb] at hstop
      cases hstop
      rfl
    | ok u =>
      rw [hb] at hstop
      change use P _ u = _ at hstop
      change (use P _ u >>= _) = _
      rw [hstop]
      rfl
  rw [hwalk]
  show (walk P body (rest.length + 1) (t.posAt (some k)) t).map _ = _
  rw [hturn]
  rfl

/-- **The rule of `for(..;) it = erase(it)`**: what comes before the erasure adds and erases
no key of the map and nothing its element lies in, what comes after it nothing the
elements that are left lie in. The map is empty afterwards. -/
theorem forErase_ok {before after : κ → Heap σ α → Except Stop (Heap σ α)} (h0 : I [] h)
    (hstep : ∀ done k rest t, P.keys h = done ++ k :: rest → P.keys t = k :: rest → I done t →
      ∃ u v, before k t = .ok u ∧ P.keys u = k :: rest ∧ Erases (fun e => ¬e <+: P.node k) t u ∧
        after k (P.eraseAt k u) = .ok v ∧ P.keys v = rest ∧
        Erases (fun e => ∀ a ∈ rest, ¬e <+: P.node a) (P.eraseAt k u) v ∧ I (done ++ [k]) v) :
    ∃ h', forErase P before after h = .ok (P.keys h, h') ∧ P.keys h' = [] ∧ I (P.keys h) h' := by
  suffices H : ∀ (rest done : List κ) (born : Nat) (t : Heap σ α), P.keys h = done ++ rest → P.keys t = rest →
      I done t → born ≤ t.erased.length → (∀ a ∈ rest, Valid P ⟨a, born⟩ t) →
      ∃ h', eraseWalk P before after rest.length (rest.head?.map fun k => ⟨k, born⟩) t = .ok (rest, h') ∧
        P.keys h' = [] ∧ I (P.keys h) h' from
    H (P.keys h) [] h.erased.length h rfl rfl h0 (Nat.le_refl _) fun a _ => valid_fresh a h
  intro rest
  induction rest with
  | nil =>
    intro done born t hd hkeys hI _ _
    rw [hd, List.append_nil]
    exact ⟨t, rfl, hkeys, hI⟩
  | cons k rest ih =>
    intro done born t hd hkeys hI hborn hvalid
    obtain ⟨u, v, hbefore, hkeysu, heu, hafter, hkeysv, hev, hIv⟩ := hstep done k rest t hd hkeys hI
    -- the next iterator is taken at the erasure, before what comes after it
    have hnext : ∀ a ∈ rest, Valid P ⟨a, (P.eraseAt k u).erased.length⟩ v := by
      intro a ha
      exact (valid_fresh a _).later (Nat.le_refl _) (hev.mono fun e he => he a ha)
    obtain ⟨h', hrest, hempty, hIh⟩ := ih (done ++ [k]) _ v (by rw [hd, List.append_assoc]; rfl) hkeysv hIv
      hev.length_le hnext
    refine ⟨h', ?_, hempty, hIh⟩
    have hk : Valid P ⟨k, born⟩ t := hvalid k List.mem_cons_self
    change (do
      use P ⟨k, born⟩ t
      let t ← before k t
      use P ⟨k, born⟩ t
      let v ← after k (P.eraseAt k t)
      let r ← eraseWalk P before after rest.length ((P.eraseAt k t).posAt (succ (P.keys t) k)) v
      return (k :: r.1, r.2)) = _
    rw [hk.use_eq]
    change (before k t >>= _) = _
    rw [hbefore]
    change (use P ⟨k, born⟩ u >>= _) = _
    rw [(hk.later hborn heu).use_eq]
    change (after k (P.eraseAt k u) >>= _) = _
    rw [hafter, hkeysu, succ_head]
    change (eraseWalk P before after rest.length (rest.head?.map _) v >>= _) = _
    rw [hrest]
    rfl

/-- **The rule of `clear`**: an inner loop that keeps the keys, and erases only below its
own element, leaves the map empty and everything outside of it as it was. -/
theorem clear_ok {inner : κ → Heap σ α → Except Stop (Heap σ α)} (h : Heap σ α)
    (hinner : ∀ k t m, t.data = P.put m h.data → k ∈ m → ∃ u m', inner k t = .ok u ∧
      u.data = P.put m' h.data ∧ m'.keys = m.keys ∧ Erases (Below (P.node k)) t u) :
    ∃ u, clear P inner h = .ok u ∧ u.data = P.put ∅ h.data ∧ Erases (Below P.path) h u := by
  have hwalk : ∃ u, forErase P inner (fun _ t => .ok t) (P.touch h) = .ok (P.keys (P.touch h), u) ∧ P.keys u = [] ∧
      (∃ m, u.data = P.put m h.data) ∧ Erases (Below P.path) h u :=
    forErase_ok (I := fun _ t => (∃ m, t.data = P.put m h.data) ∧ Erases (Below P.path) h t) ⟨⟨_, rfl⟩, .of_eq rfl⟩ ?_
  · obtain ⟨u, hwalk, hempty, ⟨m, hm⟩, he⟩ := hwalk
    refine ⟨u, ?_, ?_, he⟩
    · rw [clear, hwalk]
      rfl
    · rw [Place.keys, hm, P.get_put, ExtTreeMap.keys_eq_nil_iff] at hempty
      rw [hm, hempty]
  · rintro done k rest t - hkeys ⟨⟨m, hm⟩, he⟩
    have hmkeys : m.keys = k :: rest := by rw [← hkeys, Place.keys, hm, P.get_put]
    obtain ⟨u, m', hu, hm', hkeys', heu⟩ := hinner k t m hm
      (by rw [← ExtTreeMap.mem_keys, hmkeys]; exact List.mem_cons_self)
    have hukeys : P.keys u = k :: rest := by rw [Place.keys, hm', P.get_put, hkeys', hmkeys]
    refine ⟨u, P.eraseAt k u, hu, hukeys, heu.mono fun e he => he.not_covers, rfl, P.keys_eraseAt hukeys,
      .refl _ _, ⟨m'.erase k, ?_⟩, ?_⟩
    · rw [Place.eraseAt, hm', P.get_put, P.put_put]
    · have hbelow := P.node_below k
      exact (he.trans (heu.mono fun e he => hbelow.trans he)).trans (.eraseAt P hbelow u)

end Rules

end Iter

import Pfr.Lib.OrdMap
import Mathlib.Algebra.BigOperators.Group.List.Basic
import Mathlib.Data.Multiset.AddSub
import Mathlib.Algebra.GroupWithZero.Nat
import Mathlib.Algebra.Order.Group.Multiset

/- Objects on a heap, and maps that own them. An arena holds the objects of one type that
   are allocated and not yet deleted; a pointer is an address or NULL. Reading, writing and
   deleting through a pointer fail when its object is gone, so a program over an arena that
   does not fail uses no pointer after its object was deleted and deletes none twice. An
   address is never given out again, which makes every such use visible.

   1. `Arena`, with `new`, `get`, `set` and `delete`;
   2. `Ptrs` and `View`: the pointers stored in a structure, a pointer or an ordered map of
      structures, and what stands behind them;
   3. `Owns`: each stored pointer has an object of its own;
   4. `Turns`: a change of the arena and of a structure in it that touches no other object,
      with the number of objects no pointer is left to. `Turns.insert`, `Turns.erase` and
      `Turns.trans` are the frame rules: a change of one entry is a change of the map;
   5. `mapValsS_spec`, `Frees.loop`: the loops that rewrite and that delete the entries. -/

set_option linter.unusedSectionVars false

/-! ## Arenas -/

namespace Own

open Std

/-- An address; NULL is `none` of `Option Addr`. -/
abbrev Addr := Nat

/-- The objects of type `α` allocated and not deleted; no address at or above `next` was given out. -/
structure Arena (α : Type) where
  cells : ExtTreeMap Addr α
  next : Addr
  bound : ∀ a, a ∈ cells → a < next

namespace Arena

variable {α : Type}

def empty : Arena α := ⟨∅, 0, fun _ h => absurd h ExtTreeMap.not_mem_empty⟩

/-- The object at an address, if it is live. -/
def get (h : Arena α) (a : Addr) : Option α := h.cells[a]?

/-- `*p`. -/
def deref (h : Arena α) (p : Option Addr) : Option α := p.bind h.get

/-- `new`, at the address `h.next`. -/
def new (h : Arena α) (x : α) : Arena α where
  cells := h.cells.insert h.next x
  next := h.next + 1
  bound := by
    intro a ha
    rcases ExtTreeMap.mem_insert.mp ha with he | ha
    · rw [LawfulEqCmp.compare_eq_iff_eq] at he
      exact he ▸ Nat.lt_succ_self _
    · exact Nat.lt_succ_of_lt (h.bound a ha)

/-- A write to a live object. -/
def set (h : Arena α) (a : Addr) (x : α) : Option (Arena α) :=
  if ha : a ∈ h.cells then
    some ⟨h.cells.insert a x, h.next, by
      intro b hb
      rcases ExtTreeMap.mem_insert.mp hb with he | hb
      · rw [LawfulEqCmp.compare_eq_iff_eq] at he
        exact he ▸ h.bound a ha
      · exact h.bound b hb⟩
  else none

/-- `delete p`: NULL is passed over, an object that is gone is a failure. -/
def delete (h : Arena α) : Option Addr → Option (Arena α)
  | none => some h
  | some a =>
    if a ∈ h.cells then
      some ⟨h.cells.erase a, h.next, fun b hb => h.bound b (ExtTreeMap.mem_of_mem_erase hb)⟩
    else none

/-- The addresses of the live objects. -/
def addrs (h : Arena α) : Multiset Addr := h.cells.keys

theorem nodup_addrs (h : Arena α) : h.addrs.Nodup := Multiset.coe_nodup.mpr ExtTreeMap.nodup_keys

theorem mem_addrs {h : Arena α} {a : Addr} : a ∈ h.addrs ↔ a ∈ h.cells := by
  rw [addrs, Multiset.mem_coe, ExtTreeMap.mem_keys]

theorem card_addrs (h : Arena α) : h.addrs.card = h.cells.size := by
  rw [addrs, Multiset.coe_card, ExtTreeMap.length_keys]

theorem next_not_mem (h : Arena α) : h.next ∉ h.addrs := by
  intro hm
  exact Nat.lt_irrefl _ (h.bound _ (mem_addrs.mp hm))

@[simp] theorem addrs_empty : (empty : Arena α).addrs = 0 := by simp [addrs, empty]

theorem get_isSome_iff {h : Arena α} {a : Addr} : (h.get a).isSome ↔ a ∈ h.addrs := by
  rw [mem_addrs, get, ← ExtTreeMap.mem_iff_isSome_getElem?]

theorem addrs_new (h : Arena α) (x : α) : (h.new x).addrs = {h.next} + h.addrs := by
  refine Multiset.Nodup.ext (h.new x).nodup_addrs ?_ |>.mpr ?_
  · exact Multiset.nodup_cons.mpr ⟨h.next_not_mem, h.nodup_addrs⟩
  · intro a
    rw [mem_addrs, new, ExtTreeMap.mem_insert, LawfulEqCmp.compare_eq_iff_eq, Multiset.mem_add, Multiset.mem_singleton,
      mem_addrs, eq_comm]

theorem get_new (h : Arena α) (x : α) (a : Addr) : (h.new x).get a = if h.next = a then some x else h.get a := by
  rw [get, new, ExtTreeMap.getElem?_insert]
  simp only [LawfulEqCmp.compare_eq_iff_eq]
  rfl

theorem set_of_mem {h : Arena α} {a : Addr} (ha : a ∈ h.addrs) (x : α) : ∃ h', h.set a x = some h' ∧
    h'.addrs = h.addrs ∧ ∀ b, h'.get b = if a = b then some x else h.get b := by
  have hc := mem_addrs.mp ha
  rw [set, dif_pos hc]
  refine ⟨_, rfl, ?_, ?_⟩
  · refine Multiset.Nodup.ext (nodup_addrs _) h.nodup_addrs |>.mpr ?_
    intro b
    rw [mem_addrs, mem_addrs, ExtTreeMap.mem_insert, LawfulEqCmp.compare_eq_iff_eq]
    constructor
    · rintro (rfl | hb)
      · exact hc
      · exact hb
    · exact Or.inr
  · intro b
    rw [get, ExtTreeMap.getElem?_insert]
    simp only [LawfulEqCmp.compare_eq_iff_eq]
    rfl

theorem delete_of_mem {h : Arena α} {a : Addr} (ha : a ∈ h.addrs) : ∃ h', h.delete (some a) = some h' ∧
    h'.addrs + {a} = h.addrs ∧ ∀ b, a ≠ b → h'.get b = h.get b := by
  have hc := mem_addrs.mp ha
  rw [delete, if_pos hc]
  refine ⟨_, rfl, ?_, ?_⟩
  · rw [add_comm]
    refine (Multiset.Nodup.ext (Multiset.nodup_cons.mpr ⟨?_, nodup_addrs _⟩) h.nodup_addrs).mpr ?_
    · rw [mem_addrs]
      simp
    · intro b
      rw [Multiset.mem_cons, mem_addrs, mem_addrs, ExtTreeMap.mem_erase]
      simp only [ne_eq, LawfulEqCmp.compare_eq_iff_eq]
      by_cases hb : a = b
      · subst hb
        simp [hc]
      · simp [hb, Ne.symm hb]
  · intro b hb
    rw [get, ExtTreeMap.getElem?_erase]
    simp only [LawfulEqCmp.compare_eq_iff_eq]
    rw [if_neg hb]
    rfl

end Arena

/-! ## Structures of pointers -/

/-- The pointers stored in a structure, each as often as it is stored. -/
class Ptrs (M : Type) [Inhabited M] where
  ptrs : M → Multiset Addr
  ptrs_default : ptrs default = 0

/-- What stands behind the pointers of a structure; `none` if one of them is dangling. -/
class View (α M : Type) (V : outParam Type) [Inhabited M] [Ptrs M] [Inhabited V] where
  view : Arena α → M → Option V
  view_default : ∀ h, view h default = some default
  view_congr : ∀ {h h' : Arena α} {m : M}, (∀ a ∈ Ptrs.ptrs m, h'.get a = h.get a) → view h' m = view h m

export Ptrs (ptrs ptrs_default)
export View (view view_default view_congr)

instance : Ptrs (Option Addr) where
  ptrs p := p.elim 0 fun a => {a}
  ptrs_default := rfl

instance {α : Type} : View α (Option Addr) (Option α) where
  view h p := match p with
    | none => some none
    | some a => (h.get a).map some
  view_default _ := rfl
  view_congr := by
    intro h h' m heq
    cases m with
    | none => rfl
    | some a =>
      show (h'.get a).map some = (h.get a).map some
      rw [heq a (Multiset.mem_singleton_self a)]

@[simp] theorem ptrs_none : ptrs (none : Option Addr) = 0 := rfl
@[simp] theorem ptrs_some (a : Addr) : ptrs (some a) = {a} := rfl

theorem view_some {α : Type} (h : Arena α) (a : Addr) : view h (some a) = (h.get a).map some := rfl

section Maps
variable {κ M : Type} [Ord κ] [TransOrd κ] [LawfulEqOrd κ] [Inhabited M] [Ptrs M]

instance : Ptrs (ExtTreeMap κ M) where
  ptrs m := (m.toList.map fun kv => ptrs kv.2).sum
  ptrs_default := by
    change ((∅ : ExtTreeMap κ M).toList.map fun kv => ptrs kv.2).sum = 0
    rw [ExtTreeMap.toList_eq_nil_iff.mpr rfl]
    rfl

theorem ptrs_empty : ptrs (∅ : ExtTreeMap κ M) = 0 := ptrs_default

variable [DecidableEq κ]

theorem ptrs_insert_erase (m : ExtTreeMap κ M) (k : κ) (x : M) : ptrs (m.insert k x) = ptrs x + ptrs (m.erase k) := by
  change ((m.insert k x).toList.map fun kv => ptrs kv.2).sum = _
  rw [((m.toList_insert_perm_erase k x).map _).sum_eq, List.map_cons, List.sum_cons]
  rfl

/-- A map holds the pointers of an entry and of the others. -/
theorem ptrs_split (m : ExtTreeMap κ M) (k : κ) : ptrs m = ptrs (m.idx k) + ptrs (m.erase k) := by
  by_cases hk : k ∈ m
  · rw [← ptrs_insert_erase, ExtTreeMap.insert_idx_of_mem hk]
  · rw [ExtTreeMap.idx_of_not_mem hk, ptrs_default, zero_add, ExtTreeMap.erase_of_not_mem hk]

theorem ptrs_idx_le (m : ExtTreeMap κ M) (k : κ) : ptrs (m.idx k) ≤ ptrs m := by
  rw [ptrs_split m k]
  exact Multiset.le_add_right _ _

theorem ptrs_idx_of_ne (m : ExtTreeMap κ M) {k a : κ} (hk : k ≠ a) : ptrs (m.idx a) ≤ ptrs (m.erase k) := by
  have hidx : (m.erase k).idx a = m.idx a := by rw [ExtTreeMap.idx_erase, if_neg hk]
  rw [← hidx]
  exact ptrs_idx_le _ a

variable {α V : Type} [Inhabited V] [View α M V]

instance : View α (ExtTreeMap κ M) (ExtTreeMap κ V) where
  view h m := m.mapValsM fun _ => view h
  view_default h := by
    refine ExtTreeMap.mapValsM_eq_some_iff.mpr ⟨?_, fun k hk => absurd hk ExtTreeMap.not_mem_empty⟩
    intro k
    change (∅ : ExtTreeMap κ V)[k]? = (∅ : ExtTreeMap κ M)[k]?.bind _
    simp
  view_congr := by
    intro h h' m heq
    apply ExtTreeMap.mapValsM_congr
    intro k x hx
    refine view_congr fun a ha => heq a (Multiset.mem_of_le (ptrs_idx_le m k) ?_)
    rwa [ExtTreeMap.idx_of_getElem? hx]

theorem view_map_iff {h : Arena α} {m : ExtTreeMap κ M} {v : ExtTreeMap κ V} :
    view h m = some v ↔ (∀ k : κ, v[k]? = m[k]?.bind (view h)) ∧ ∀ k : κ, k ∈ m → k ∈ v :=
  ExtTreeMap.mapValsM_eq_some_iff

theorem view_mem {h : Arena α} {m : ExtTreeMap κ M} {v : ExtTreeMap κ V} (hv : view h m = some v) (k : κ) : k ∈ v ↔ k ∈ m :=
  ExtTreeMap.mem_mapValsM hv

theorem view_keys {h : Arena α} {m : ExtTreeMap κ M} {v : ExtTreeMap κ V} (hv : view h m = some v) : v.keys = m.keys := by
  refine ExtTreeMap.keys_eq_of_mem_iff ExtTreeMap.ordered_keys ?_
  intro k
  rw [ExtTreeMap.mem_keys, view_mem hv]

theorem view_idx {h : Arena α} {m : ExtTreeMap κ M} {v : ExtTreeMap κ V} (hv : view h m = some v) (k : κ) :
    view h (m.idx k) = some (v.idx k) := by
  by_cases hk : k ∈ m
  · have hget := (view_map_iff.mp hv).1 k
    rw [ExtTreeMap.getElem?_idx hk, Option.bind_some, ExtTreeMap.getElem?_idx ((view_mem hv k).mpr hk)] at hget
    exact hget.symm
  · rw [ExtTreeMap.idx_of_not_mem hk, ExtTreeMap.idx_of_not_mem (fun h' => hk ((view_mem hv k).mp h')), view_default]

end Maps

/-! ## Ownership -/

section Owns
variable {α M V : Type} [Inhabited M] [Ptrs M] [Inhabited V] [View α M V]

/-- Each pointer stored in `m` has a live object of its own, and `v` is what the objects are. -/
structure Owns (h : Arena α) (m : M) (v : V) : Prop where
  le : ptrs m ≤ h.addrs
  view : view h m = some v

/-- From `h` and `m` to `h'` and `m'`, which holds `v'`: no object outside `m` is touched, and
there are `n` objects more to which no pointer of the structure is left. -/
structure Turns (h : Arena α) (m : M) (h' : Arena α) (m' : M) (v' : V) (n : Nat) : Prop where
  view : View.view h' m' = some v'
  lost : ∃ l : Multiset Addr, l.card = n ∧ h'.addrs + ptrs m = h.addrs + ptrs m' + l
  frame : ∀ a ∈ h.addrs, a ∉ ptrs m → h'.get a = h.get a

variable {h h₁ h' : Arena α} {m m₁ m' : M} {v v₁ v' : V} {n n₁ : Nat}

theorem Turns.refl (hv : Owns h m v) : Turns h m h m v 0 where
  view := hv.view
  lost := ⟨0, rfl, by rw [add_zero]⟩
  frame := fun _ _ _ => rfl

/-- A structure that owned its objects owns them afterwards. -/
theorem Turns.owns (ht : Turns h m h' m' v' n) (hle : ptrs m ≤ h.addrs) : Owns h' m' v' := by
  refine ⟨?_, ht.view⟩
  obtain ⟨l, -, hl⟩ := ht.lost
  obtain ⟨rest, hrest⟩ := Multiset.le_iff_exists_add.mp hle
  have heq : h'.addrs = ptrs m' + (rest + l) := by
    apply add_right_cancel (b := ptrs m)
    rw [hl, hrest]
    ac_rfl
  rw [heq]
  exact Multiset.le_add_right _ _

/-- An object outside the structure stays live and outside. -/
theorem Turns.outside (ht : Turns h m h' m' v' n) {a : Addr} (ha : a ∈ h.addrs) (hm : a ∉ ptrs m) :
    a ∈ h'.addrs ∧ a ∉ ptrs m' := by
  obtain ⟨l, -, hl⟩ := ht.lost
  have hcount := congrArg (Multiset.count a) hl
  rw [Multiset.count_add, Multiset.count_add, Multiset.count_add, Multiset.count_eq_zero_of_notMem hm,
    Multiset.count_eq_one_of_mem h.nodup_addrs ha] at hcount
  have hone := Multiset.nodup_iff_count_le_one.mp h'.nodup_addrs a
  refine ⟨?_, ?_⟩
  · rw [← Multiset.count_pos]
    omega
  · rw [← Multiset.count_eq_zero]
    omega

theorem Turns.trans (ht : Turns h m h₁ m₁ v₁ n) (ht' : Turns h₁ m₁ h' m' v' n₁) : Turns h m h' m' v' (n + n₁) where
  view := ht'.view
  lost := by
    obtain ⟨l, hc, hl⟩ := ht.lost
    obtain ⟨l', hc', hl'⟩ := ht'.lost
    refine ⟨l + l', by rw [Multiset.card_add, hc, hc'], ?_⟩
    apply add_right_cancel (b := ptrs m₁)
    calc h'.addrs + ptrs m + ptrs m₁ = (h'.addrs + ptrs m₁) + ptrs m := by ac_rfl
      _ = (h₁.addrs + ptrs m) + ptrs m' + l' := by rw [hl']; ac_rfl
      _ = h.addrs + ptrs m' + (l + l') + ptrs m₁ := by rw [hl]; ac_rfl
  frame := by
    intro a ha hm
    obtain ⟨ha₁, hm₁⟩ := ht.outside ha hm
    rw [ht'.frame a ha₁ hm₁, ht.frame a ha hm]

end Owns

/-! ## Pointers -/

section Pointers
variable {α : Type} {h : Arena α} {p : Option Addr} {y : Option α}

/-- `p = new x`; what `p` pointed to before has no pointer left. -/
theorem Turns.new (h : Arena α) (p : Option Addr) (x : α) :
    Turns h p (h.new x) (some h.next) (some x) p.toList.length where
  view := by
    rw [view_some, Arena.get_new, if_pos rfl]
    rfl
  lost := by
    refine ⟨ptrs p, ?_, ?_⟩
    · cases p <;> rfl
    · rw [Arena.addrs_new, ptrs_some]
      ac_rfl
  frame := by
    intro a ha _
    have hne : h.next ≠ a := fun he => h.next_not_mem (he ▸ ha)
    rw [Arena.get_new, if_neg hne]

theorem Owns.of_some {a : Addr} {x : α} (ho : Owns h (some a) (some x)) : a ∈ h.addrs ∧ h.get a = some x := by
  have hv := ho.view
  rw [view_some] at hv
  obtain ⟨x', hx, hx'⟩ := Option.map_eq_some_iff.mp hv
  cases hx'
  refine ⟨?_, hx⟩
  rw [← Arena.get_isSome_iff, hx]
  rfl

/-- What is read through a pointer is what it stands for. -/
theorem Owns.deref (ho : Owns h p y) : h.deref p = y := by
  have hv := ho.view
  cases p with
  | none =>
    cases hv
    rfl
  | some a =>
    rw [view_some] at hv
    obtain ⟨x, hx, rfl⟩ := Option.map_eq_some_iff.mp hv
    exact hx

theorem Owns.isNone_iff (ho : Owns h p y) : p.isNone = y.isNone := by
  have hv := ho.view
  cases p with
  | none =>
    cases hv
    rfl
  | some a =>
    rw [view_some] at hv
    obtain ⟨x, -, rfl⟩ := Option.map_eq_some_iff.mp hv
    rfl

/-- `p = new x` where `p` was NULL. -/
theorem Owns.new (ho : Owns h p (none : Option α)) (x : α) : Turns h p (h.new x) (some h.next) (some x) 0 := by
  have hnone : p = none := by
    have hiff := ho.isNone_iff
    exact Option.isNone_iff_eq_none.mp hiff
  have hnew := Turns.new h p x
  rw [hnone] at hnew ⊢
  exact hnew

/-- A write through a pointer. -/
theorem Owns.set {a : Addr} {x : α} (ho : Owns h (some a) (some x)) (x' : α) : ∃ h', h.set a x' = some h' ∧
    Turns h (some a) h' (some a) (some x') 0 := by
  obtain ⟨h', hset, haddrs, hget⟩ := Arena.set_of_mem ho.of_some.1 x'
  refine ⟨h', hset, ?_, ⟨0, rfl, by rw [haddrs, add_zero]⟩, ?_⟩
  · rw [view_some, hget, if_pos rfl]
    rfl
  · intro b _ hb
    have hne : a ≠ b := fun he => hb (he ▸ Multiset.mem_singleton_self a)
    rw [hget, if_neg hne]

end Pointers

/-! ## Entries of a map -/

section Entries
variable {κ α M V : Type} [Ord κ] [TransOrd κ] [LawfulEqOrd κ] [DecidableEq κ] [Inhabited M] [Ptrs M] [Inhabited V] [View α M V]
variable {h h' : Arena α} {m : ExtTreeMap κ M} {v : ExtTreeMap κ V} {x' : M} {y : V} {n : Nat}

theorem Owns.idx (ho : Owns h m v) (k : κ) : Owns h (m.idx k) (v.idx k) :=
  ⟨(ptrs_idx_le m k).trans ho.le, view_idx ho.view k⟩

theorem Owns.empty (h : Arena α) : Owns h (∅ : ExtTreeMap κ M) (∅ : ExtTreeMap κ V) :=
  ⟨by rw [ptrs_empty]; exact Multiset.zero_le _, view_default h⟩

/-- The objects of two entries are different ones. -/
theorem Owns.apart (ho : Owns h m v) {k a : κ} (hk : k ≠ a) {b : Addr} (hb : b ∈ ptrs (m.idx a)) :
    b ∈ h.addrs ∧ b ∉ ptrs (m.idx k) := by
  refine ⟨Multiset.mem_of_le ((ptrs_idx_le m a).trans ho.le) hb, ?_⟩
  intro hbk
  have hnd := Multiset.nodup_of_le ho.le h.nodup_addrs
  rw [ptrs_split m k] at hnd
  have herase := Multiset.mem_of_le (ptrs_idx_of_ne m hk) hb
  exact Multiset.disjoint_left.mp (Multiset.nodup_add.mp hnd).2.2 hbk herase

/-- A change of one entry leaves what the others stand for. -/
theorem Turns.others (ho : Owns h m v) {k : κ} (ht : Turns h (m.idx k) h' x' y n) {a : κ} (hk : k ≠ a) :
    m[a]?.bind (View.view h') = v[a]? := by
  rw [(view_map_iff.mp ho.view).1 a]
  cases hx : m[a]? with
  | none => rfl
  | some x =>
    rw [Option.bind_some, Option.bind_some]
    apply view_congr
    intro b hb
    rw [← ExtTreeMap.idx_of_getElem? hx] at hb
    obtain ⟨hlive, hout⟩ := ho.apart hk hb
    exact ht.frame b hlive hout

/-- **The frame rule**: a change of one entry is a change of the map. -/
theorem Turns.insert (ho : Owns h m v) {k : κ} (ht : Turns h (m.idx k) h' x' y n) :
    Turns h m h' (m.insert k x') (v.insert k y) n where
  view := by
    refine view_map_iff.mpr ⟨?_, ?_⟩
    · intro a
      rw [ExtTreeMap.getElem?_insert, ExtTreeMap.getElem?_insert]
      simp only [LawfulEqCmp.compare_eq_iff_eq]
      split
      · exact ht.view.symm
      · next hk => exact (ht.others ho hk).symm
    · intro a ha
      rw [ExtTreeMap.mem_insert] at ha ⊢
      exact ha.imp_right (view_mem ho.view a).mpr
  lost := by
    obtain ⟨l, hc, hl⟩ := ht.lost
    refine ⟨l, hc, ?_⟩
    rw [ptrs_split m k, ptrs_insert_erase, ← add_assoc, hl]
    ac_rfl
  frame := fun a ha hm => ht.frame a ha fun hk => hm (Multiset.mem_of_le (ptrs_idx_le m k) hk)

theorem Turns.erase (ho : Owns h m v) {k : κ} (ht : Turns h (m.idx k) h' default default n) :
    Turns h m h' (m.erase k) (v.erase k) n where
  view := by
    refine view_map_iff.mpr ⟨?_, ?_⟩
    · intro a
      rw [ExtTreeMap.getElem?_erase, ExtTreeMap.getElem?_erase]
      simp only [LawfulEqCmp.compare_eq_iff_eq]
      split
      · rfl
      · next hk => exact (ht.others ho hk).symm
    · intro a ha
      rw [ExtTreeMap.mem_erase] at ha ⊢
      exact ha.imp_right (view_mem ho.view a).mpr
  lost := by
    obtain ⟨l, hc, hl⟩ := ht.lost
    refine ⟨l, hc, ?_⟩
    rw [ptrs_default, add_zero] at hl
    rw [ptrs_split m k, ← add_assoc, hl]
    ac_rfl
  frame := fun a ha hm => ht.frame a ha fun hk => hm (Multiset.mem_of_le (ptrs_idx_le m k) hk)

/-- Reading an entry through `m[k]` allocates nothing. -/
theorem Turns.touch (ho : Owns h m v) (k : κ) : Turns h m h (m.upd k id) (v.upd k id) 0 :=
  .insert ho (.refl (ho.idx k))

/-- A rewriting of every entry that stores the pointers it finds. -/
theorem Turns.map (ho : Owns h m v) {f : M → M} {g : V → V}
    (hf : ∀ k, Turns h (m.idx k) h (f (m.idx k)) (g (v.idx k)) 0) :
    Turns h m h (m.map fun _ => f) (v.map fun _ => g) 0 where
  view := by
    refine view_map_iff.mpr ⟨?_, ?_⟩
    · intro k
      rw [ExtTreeMap.getElem?_map, ExtTreeMap.getElem?_map]
      by_cases hk : k ∈ m
      · rw [ExtTreeMap.getElem?_idx hk, ExtTreeMap.getElem?_idx ((view_mem ho.view k).mpr hk)]
        exact (hf k).view.symm
      · rw [ExtTreeMap.getElem?_eq_none hk, ExtTreeMap.getElem?_eq_none fun h' => hk ((view_mem ho.view k).mp h')]
        rfl
    · intro k hk
      rw [ExtTreeMap.mem_map] at hk ⊢
      exact (view_mem ho.view k).mpr hk
  lost := by
    refine ⟨0, rfl, ?_⟩
    have hentry : ∀ kv ∈ m.toList, ptrs (f kv.2) = ptrs kv.2 := by
      intro kv hkv
      obtain ⟨l, hc, hl⟩ := (hf kv.1).lost
      rw [ExtTreeMap.idx_of_getElem? (ExtTreeMap.mem_toList_iff_getElem?_eq_some.mp hkv), Multiset.card_eq_zero.mp hc,
        add_zero] at hl
      exact (add_left_cancel hl).symm
    have hptrs : ptrs (m.map fun _ => f) = ptrs m := by
      change ((m.map fun _ => f).toList.map fun kv => ptrs kv.2).sum = (m.toList.map fun kv => ptrs kv.2).sum
      rw [ExtTreeMap.toList_map, List.map_map]
      congr 1
      exact List.map_congr_left hentry
    rw [hptrs, add_zero]
  frame := fun _ _ _ => rfl

end Entries

/-! ## Loops -/

section Loops
variable {κ α M V : Type} [Ord κ] [TransOrd κ] [LawfulEqOrd κ] [DecidableEq κ] [Inhabited M] [Ptrs M] [Inhabited V] [View α M V]

/-- The loop that rewrites every entry in place, with what it allocates. -/
def mapValsS (f : κ → M → Arena α → Option (M × Arena α)) (m : ExtTreeMap κ M) (h : Arena α) :
    Option (ExtTreeMap κ M × Arena α) :=
  m.toList.foldlM (fun t kv => (f kv.1 kv.2 t.2).map fun out => (t.1.insert kv.1 out.1, out.2)) (m, h)

/-- **The rule of the loop**: where each entry turns into what `g` makes of it, the map turns
into the map of these. -/
theorem mapValsS_spec {f : κ → M → Arena α → Option (M × Arena α)} {g : κ → V → Option V} {c : κ → V → Nat}
    (hf : ∀ k (h : Arena α) x y y', Owns h x y → g k y = some y' → ∃ out, f k x h = some out ∧ Turns h x out.2 out.1 y' (c k y))
    {h : Arena α} {m : ExtTreeMap κ M} {v v' : ExtTreeMap κ V} (ho : Owns h m v) (hg : v.mapValsM g = some v') :
    ∃ out, mapValsS f m h = some out ∧ Turns h m out.2 out.1 v' (v.keys.map fun k => c k (v.idx k)).sum := by
  have hw := List.foldlM_walk_total (l := m.toList) (s := (m, h))
    (f := fun t kv => (f kv.1 kv.2 t.2).map fun out => (t.1.insert kv.1 out.1, out.2))
    (I := fun done t => ∃ vt, Turns h m t.2 t.1 vt (done.map fun kv => c kv.1 (v.idx kv.1)).sum ∧
      (∀ k : κ, vt[k]? = if k ∈ done.map Prod.fst then v'[k]? else v[k]?) ∧
      ∀ k : κ, k ∉ done.map Prod.fst → t.1[k]? = m[k]?)
    (m.nodup_toList_fst.of_map _) ⟨v, .refl ho, by simp, fun _ _ => rfl⟩ ?_
  · obtain ⟨out, hout, vt, ht, hvt, -⟩ := hw
    refine ⟨out, hout, ?_⟩
    have hvv : vt = v' := by
      apply ExtTreeMap.ext_getElem?
      intro k
      rw [hvt, ExtTreeMap.map_fst_toList_eq_keys]
      simp only [ExtTreeMap.mem_keys]
      split
      · rfl
      · next hk =>
        have hv : k ∉ v := fun hm => hk ((view_mem ho.view k).mp hm)
        rw [ExtTreeMap.getElem?_eq_none hv, ExtTreeMap.getElem?_eq_none fun hm => hv ((ExtTreeMap.mem_mapValsM hg).mp hm)]
    have hsum : (m.toList.map fun kv => c kv.1 (v.idx kv.1)) = v.keys.map fun k => c k (v.idx k) := by
      rw [view_keys ho.view, ← ExtTreeMap.map_fst_toList_eq_keys, List.map_map]
      rfl
    rw [hvv, hsum] at ht
    exact ht
  · rintro done ⟨k, x⟩ rest t hl - ⟨vt, ht, hvt, hoff⟩
    -- no entry has the key of an earlier one, so this one is as it was at the start
    have hmem : (k, x) ∈ m.toList := by rw [hl]; simp
    have hx := ExtTreeMap.mem_toList_iff_getElem?_eq_some.mp hmem
    have hk : k ∉ done.map Prod.fst := by
      have hnd := m.nodup_toList_fst
      rw [hl, List.map_append, List.map_cons] at hnd
      exact fun hd => List.disjoint_of_nodup_append hnd hd List.mem_cons_self
    have hidx : t.1.idx k = x := ExtTreeMap.idx_of_getElem? (by rw [hoff k hk, hx])
    have hvk : vt.idx k = v.idx k := ExtTreeMap.idx_congr (by rw [hvt, if_neg hk])
    have hot := ht.owns ho.le
    have hok := hot.idx k
    rw [hidx, hvk] at hok
    have hkv : k ∈ v := (view_mem ho.view k).mpr (ExtTreeMap.mem_of_getElem? hx)
    obtain ⟨y', hy', hget⟩ := ExtTreeMap.mapValsM_val hg (ExtTreeMap.getElem?_idx hkv)
    obtain ⟨out, hout, hturn⟩ := hf k t.2 x (v.idx k) y' hok hy'
    refine ⟨(t.1.insert k out.1, out.2), by simp [hout], vt.insert k y', ?_, ?_, ?_⟩
    · rw [List.map_append, List.sum_append, List.map_singleton, List.sum_singleton]
      rw [← hidx] at hturn
      exact ht.trans (.insert hot hturn)
    · intro a
      rw [ExtTreeMap.getElem?_insert]
      simp only [LawfulEqCmp.compare_eq_iff_eq, List.map_append, List.mem_append, List.map_singleton, List.mem_singleton]
      by_cases ha : k = a
      · subst ha
        rw [if_pos rfl, if_pos (Or.inr rfl), hget]
      · have hiff : (a ∈ done.map Prod.fst ∨ a = k) ↔ a ∈ done.map Prod.fst := or_iff_left (Ne.symm ha)
        rw [if_neg ha, hvt]
        simp only [hiff]
    · intro a ha
      rw [List.map_append, List.mem_append, not_or, List.map_singleton, List.mem_singleton] at ha
      rw [ExtTreeMap.getElem?_insert, if_neg, hoff a ha.1]
      rw [LawfulEqCmp.compare_eq_iff_eq]
      exact fun he => ha.2 he.symm

/-- `f` deletes the objects of a structure and no other. -/
def Frees (f : M → Arena α → Option (Arena α)) : Prop :=
  ∀ (h : Arena α) (m : M), ptrs m ≤ h.addrs → ∃ h', f m h = some h' ∧ h'.addrs + ptrs m = h.addrs ∧
    ∀ a ∈ h.addrs, a ∉ ptrs m → h'.get a = h.get a

theorem Frees.delete : Frees fun (p : Option Addr) (h : Arena α) => h.delete p := by
  intro h p hle
  cases p with
  | none => exact ⟨h, rfl, add_zero _, fun _ _ _ => rfl⟩
  | some a =>
    obtain ⟨h', hdel, haddrs, hget⟩ := Arena.delete_of_mem (Multiset.mem_of_le hle (Multiset.mem_singleton_self a))
    refine ⟨h', hdel, haddrs, ?_⟩
    intro b _ hb
    exact hget b fun he => hb (he ▸ Multiset.mem_singleton_self a)

/-- So does the loop over the entries of a map of them. -/
theorem Frees.loop {f : M → Arena α → Option (Arena α)} (hf : Frees f) :
    Frees fun (m : ExtTreeMap κ M) h => m.toList.foldlM (fun h kv => f kv.2 h) h := by
  have hl : ∀ (l : List (κ × M)) (h : Arena α), (l.map fun kv => ptrs kv.2).sum ≤ h.addrs →
      ∃ h', l.foldlM (fun h kv => f kv.2 h) h = some h' ∧ h'.addrs + (l.map fun kv => ptrs kv.2).sum = h.addrs ∧
        ∀ a ∈ h.addrs, a ∉ (l.map fun kv => ptrs kv.2).sum → h'.get a = h.get a := by
    intro l
    induction l with
    | nil => exact fun h _ => ⟨h, rfl, add_zero _, fun _ _ _ => rfl⟩
    | cons kv l ih =>
      intro h hle
      rw [List.map_cons, List.sum_cons] at hle ⊢
      obtain ⟨h₁, hf₁, haddrs₁, hget₁⟩ := hf h kv.2 ((Multiset.le_add_right _ _).trans hle)
      have hle₁ : (l.map fun kv => ptrs kv.2).sum ≤ h₁.addrs := by
        rw [← haddrs₁, add_comm] at hle
        exact le_of_add_le_add_right hle
      obtain ⟨h', hfold, haddrs, hget⟩ := ih h₁ hle₁
      refine ⟨h', by rw [List.foldlM_cons, hf₁]; exact hfold, ?_, ?_⟩
      · rw [← haddrs₁, ← haddrs]
        ac_rfl
      · intro a ha hout
        rw [Multiset.mem_add, not_or] at hout
        have ha₁ : a ∈ h₁.addrs := by
          rw [← haddrs₁, Multiset.mem_add] at ha
          exact ha.resolve_right hout.1
        rw [hget a ha₁ hout.2, hget₁ a ha hout.1]
  exact fun h m hle => hl m.toList h hle

/-- What is deleted is replaced by a structure without pointers. -/
theorem Frees.turns {f : M → Arena α → Option (Arena α)} (hf : Frees f) {h : Arena α} {m : M} (hle : ptrs m ≤ h.addrs) :
    ∃ h', f m h = some h' ∧ Turns h m h' default (default : V) 0 := by
  obtain ⟨h', hh', haddrs, hget⟩ := hf h m hle
  refine ⟨h', hh', view_default h', ⟨0, rfl, ?_⟩, hget⟩
  rw [haddrs, ptrs_default, add_zero, add_zero]

end Loops

end Own

import Pfr.DstList
import Mathlib.Data.List.Nodup

/- What the list of a round holds. The loop over the tokens tests a destination against the
   table only, and as a text, so two tokens, or a token and a row, can bring the same
   address. The table is read for every list, but a list that is dropped takes it along.
   The tests of the two parts of a token go on after `inet_pton` has failed.

   1. `map_flowDsts`, `BuiltFrom.mem_iff`: the texts of a list;
   2. `Dest`, `BuiltFrom.nodup_iff`: when its addresses differ;
   3. `static_probed_iff`: when the table's destinations are probed;
   4. `well_formed_iff`: when only well-formed tokens are taken, whatever the variables
      held. -/
namespace Pfr

open CText Bytes Std

/-! ## What is listed -/

theorem map_foldl_pushDst {α : Type} (f : α → Option Text) : ∀ (xs : List α) (l : List PfrDst),
    (xs.foldl (fun l x => pushDst l (f x)) l).map PfrDst.ipv4 = l.map PfrDst.ipv4 ++ xs.filterMap f
  | [], l => by simp
  | x :: xs, l => by
    rw [List.foldl_cons, map_foldl_pushDst f xs, List.filterMap_cons]
    cases f x <;> simp [pushDst]

/-- The flow destinations are the tokens' that pass the filters. -/
theorem map_flowDsts (src : Source) (cust : PfrCustomer) :
    (flowDsts src cust).map PfrDst.ipv4 = (tokens src).filterMap (accept src cust) := by
  rw [flowDsts, map_foldl_pushDst, List.map_nil, List.nil_append]

theorem map_dbDsts (src : Source) (l : List PfrDst) :
    (dbDsts src l).map PfrDst.ipv4 = l.map PfrDst.ipv4 ++ (pfrDstGetmap src.db).keys := by
  rw [dbDsts, map_foldl_pushDst some, List.filterMap_some]

/-- A token of the source passes the filters with the destination. -/
def Accepted (o : Int × Source) (ip : Text) : Prop :=
  ∃ cust ∈ pfrCustomer o.1 o.2.db o.2.stale, ∃ tok ∈ tokens o.2, accept o.2 cust tok = some ip

instance (o : Int × Source) (ip : Text) : Decidable (Accepted o ip) :=
  inferInstanceAs (Decidable (∃ cust ∈ pfrCustomer o.1 o.2.db o.2.stale, _))

/-! ## Addresses -/

/-- What a text is resolved to: the address `inet_pton` reads in it; a name is taken for a
host of its own. -/
inductive Dest where
  | addr : UInt32 → Dest
  | name : Text → Dest
  deriving DecidableEq, Repr

def destOf (ip : Text) : Dest :=
  match inetPton ip with
  | some a => .addr a
  | none => .name ip

def PfrDst.dest (d : PfrDst) : Dest := destOf d.ipv4

/-- No two tokens that pass the filters have one destination, none has one of the table, and
no two rows of the table are one. -/
def DistinctDsts (o : Int × Source) : Prop :=
  ∀ cust ∈ pfrCustomer o.1 o.2.db o.2.stale,
    ((tokens o.2).Pairwise fun t t' =>
        ∀ ip ∈ accept o.2 cust t, ∀ ip' ∈ accept o.2 cust t', destOf ip ≠ destOf ip') ∧
      (∀ tok ∈ tokens o.2, ∀ ip ∈ accept o.2 cust tok, ∀ row ∈ o.2.db.pfrDst, destOf ip ≠ destOf row) ∧
      ∀ row ∈ o.2.db.pfrDst, ∀ row' ∈ o.2.db.pfrDst, destOf row = destOf row' → row = row'

instance (o : Int × Source) : Decidable (DistinctDsts o) :=
  inferInstanceAs (Decidable (∀ cust ∈ pfrCustomer o.1 o.2.db o.2.stale, _))

section Built
variable {o : Int × Source} {l : List PfrDst} (h : BuiltFrom o l)

include h

theorem BuiltFrom.mem_iff (ip : Text) : (∃ d ∈ l, d.ipv4 = ip) ↔ ip ∈ o.2.db.pfrDst ∨ Accepted o ip := by
  obtain ⟨cust, hcust, rfl⟩ := h
  rw [mem_dbDsts, mem_flowDsts, Accepted, hcust, or_comm]
  simp

/-- When the addresses of a list differ. -/
theorem BuiltFrom.nodup_iff : (l.map PfrDst.dest).Nodup ↔ DistinctDsts o := by
  obtain ⟨cust, hcust, rfl⟩ := h
  have hrows : ∀ {row : Text}, row ∈ (pfrDstGetmap o.2.db).keys ↔ row ∈ o.2.db.pfrDst :=
    ExtTreeMap.mem_keys.trans mem_pfrDstGetmap
  have hflows : (((tokens o.2).filterMap (accept o.2 cust)).map destOf).Nodup ↔
      (tokens o.2).Pairwise fun t t' => ∀ ip ∈ accept o.2 cust t, ∀ ip' ∈ accept o.2 cust t', destOf ip ≠ destOf ip' := by
    rw [List.nodup_iff_pairwise_ne, List.pairwise_map, List.pairwise_filterMap]
    rfl
  have htable : ((pfrDstGetmap o.2.db).keys.map destOf).Nodup ↔
      ∀ row ∈ o.2.db.pfrDst, ∀ row' ∈ o.2.db.pfrDst, destOf row = destOf row' → row = row' := by
    rw [List.nodup_map_iff_inj_on ExtTreeMap.nodup_keys]
    simp only [hrows]
  have hapart : (((tokens o.2).filterMap (accept o.2 cust)).map destOf).Disjoint ((pfrDstGetmap o.2.db).keys.map destOf) ↔
      ∀ tok ∈ tokens o.2, ∀ ip ∈ accept o.2 cust tok, ∀ row ∈ o.2.db.pfrDst, destOf ip ≠ destOf row := by
    constructor
    · intro hd tok htok ip hip row hrow heq
      refine hd (List.mem_map_of_mem (List.mem_filterMap.mpr ⟨tok, htok, hip⟩)) ?_
      rw [heq]
      exact List.mem_map_of_mem (hrows.mpr hrow)
    · intro hne x hflow hrow
      obtain ⟨ip, hip, rfl⟩ := List.mem_map.mp hflow
      obtain ⟨row, hrow, heq⟩ := List.mem_map.mp hrow
      obtain ⟨tok, htok, hip⟩ := List.mem_filterMap.mp hip
      exact hne tok htok ip hip row (hrows.mp hrow) heq.symm
  have hmap : (dbDsts o.2 (flowDsts o.2 cust)).map PfrDst.dest =
      ((tokens o.2).filterMap (accept o.2 cust)).map destOf ++ (pfrDstGetmap o.2.db).keys.map destOf := by
    rw [← List.map_append, ← map_flowDsts, ← map_dbDsts, List.map_map]
    rfl
  rw [hmap, List.nodup_append', hflows, htable, hapart, DistinctDsts, hcust]
  simp only [Option.mem_def, Option.some_inj, forall_eq']
  exact and_congr_right fun _ => and_comm

theorem BuiltFrom.eq_nil_iff : l = [] ↔ ∀ ip, ¬(ip ∈ o.2.db.pfrDst ∨ Accepted o ip) := by
  simp only [← h.mem_iff]
  constructor
  · rintro rfl ip ⟨d, hd, -⟩
    cases hd
  · intro hnone
    exact List.eq_nil_iff_forall_not_mem.mpr fun d hd => hnone d.ipv4 ⟨d, hd, rfl⟩

end Built

/-- **When the destinations of the table are probed.** For every run: every address in the
table when the last round's list was built is in that round's list exactly if each was in
the table, or brought by a token that passes the filters, in the round whose list is in
use. -/
theorem static_probed_iff {customerId : Int} {src0 : Source} {srcs : List Source} {l : List PfrDst}
    (h : pfrList customerId src0 srcs = some l) :
    (∀ ip ∈ (srcs.getLastD src0).db.pfrDst, ∃ d ∈ l, d.ipv4 = ip) ↔
      ∀ ip ∈ (srcs.getLastD src0).db.pfrDst, ip ∈ (origin customerId src0 srcs).2.db.pfrDst ∨
        Accepted (origin customerId src0 srcs) ip :=
  forall₂_congr fun ip _ => (pfrList_origin h).mem_iff ip

/-- So they are in a round that keeps its own list, as the first one does. -/
theorem static_probed_own {customerId : Int} {src0 : Source} {srcs : List Source} {l : List PfrDst}
    (h : pfrList customerId src0 srcs = some l) (hown : ∀ src ∈ srcs.getLast?, dropped src = false) :
    ∀ ip ∈ (srcs.getLastD src0).db.pfrDst, ∃ d ∈ l, d.ipv4 = ip := by
  have hlast : (origin customerId src0 srcs).2 = srcs.getLastD src0 := by
    rcases List.eq_nil_or_concat srcs with rfl | ⟨pre, src, rfl⟩
    · rfl
    · have hkeep := hown src (by simp)
      simp [origin, hkeep, List.getLastD_eq_getLast?]
  intro ip hip
  exact ((pfrList_origin h).mem_iff ip).mpr (Or.inl (by rw [hlast]; exact hip))

/-- The second round keeps the first one's list, which brought what its table has more. -/
theorem static_probed_run :
    let src0 := Source.clean "10.1.0.1,198.51.100.7".toList ⟨[7], [(7, "10.0.0.0/8".toList)], ["203.0.113.1".toList]⟩
    let src1 := Source.clean [] ⟨[7], [], ["203.0.113.1".toList, "198.51.100.7".toList]⟩
    ∃ l, pfrList 7 src0 [src1] = some l ∧ ∀ ip ∈ src1.db.pfrDst, ∃ d ∈ l, d.ipv4 = ip := by
  intro src0 src1
  obtain ⟨l, hl⟩ : ∃ l, pfrList 7 src0 [src1] = some l := Option.isSome_iff_exists.mp (by decide +kernel)
  exact ⟨l, hl, (static_probed_iff hl).mpr (by decide +kernel)⟩

/-- An address enters the table while there are no flows. -/
theorem static_not_probed : ¬∀ (customerId : Int) (src0 : Source) (srcs : List Source) (l : List PfrDst),
    pfrList customerId src0 srcs = some l → ∀ ip ∈ (srcs.getLastD src0).db.pfrDst, ∃ d ∈ l, d.ipv4 = ip := by
  intro hall
  let src0 := Source.clean [] ⟨[7], [], []⟩
  let src1 := Source.clean [] ⟨[7], [], ["203.0.113.1".toList]⟩
  obtain ⟨l, hl, hno⟩ : ∃ l ∈ pfrList 7 src0 [src1], ¬∃ d ∈ l, d.ipv4 = "203.0.113.1".toList := by decide +kernel
  exact hno (hall 7 src0 [src1] l hl _ (List.mem_singleton.mpr rfl))

/-! ## What is taken for a flow -/

/-- The token is `src,dst`, and `inet_pton` accepts both. -/
def WellFormed (token : Text) : Prop :=
  ',' ∈ token ∧ (inetPton (splitToken token).1).isSome ∧ (inetPton (splitToken token).2).isSome

instance (token : Text) : Decidable (WellFormed token) := inferInstanceAs (Decidable (_ ∧ _))

/-- In a network as an address; as anything else, if every value that may stand in `host`
is in one. -/
def LocalAnyway (nets : List Net) (daddr : Text) : Prop :=
  match inetPton daddr with
  | some a => ∃ n ∈ nets, n.net &&& n.mask = a &&& n.mask
  | none => ∀ v : UInt32, ∃ n ∈ nets, n.net &&& n.mask = v &&& n.mask

/-- Out of the ranges as an address; as anything else, if no range has a value. -/
def OutsideAnyway (cust : PfrCustomer) (saddr : Text) : Prop :=
  match inetPton saddr with
  | some a => ∀ p ∈ cust.prefix4, ¬(p.lor ≤ signed 32 a.toNat ∧ signed 32 a.toNat ≤ p.hir)
  | none => ∀ v : UInt32, ∀ p ∈ cust.prefix4, ¬(p.lor ≤ signed 32 v.toNat ∧ signed 32 v.toNat ≤ p.hir)

/-- One of the tests turns the token away, whatever the variables held. -/
def Refused (src : Source) (cust : PfrCustomer) (token : Text) : Prop :=
  '.' ∉ (splitToken token).1 ∨ (splitToken token).2 ∈ src.db.pfrDst ∨ LocalAnyway src.nets (splitToken token).2 ∨
    OutsideAnyway cust (splitToken token).1

theorem not_localAnyway_iff {nets : List Net} {daddr : Text} :
    ¬LocalAnyway nets daddr ↔ ∃ v, isHostInNetwork nets v daddr = false := by
  have hnet : ∀ v : UInt32, isHostInNetwork nets v daddr = false ↔
      ¬∃ n ∈ nets, n.net &&& n.mask = (inetPton daddr).getD v &&& n.mask := by
    intro v
    rw [isHostInNetwork, ← Bool.not_eq_true]
    simp
  simp only [hnet, LocalAnyway]
  cases inetPton daddr with
  | some a => simp
  | none => simp

theorem not_outsideAnyway_iff {cust : PfrCustomer} {saddr : Text} :
    ¬OutsideAnyway cust saddr ↔ ∃ v : UInt32, ∃ p ∈ cust.prefix4, p.ispfxhit v saddr = true := by
  have hhit : ∀ (v : UInt32) (p : PfrPrefix4), p.ispfxhit v saddr = true ↔
      p.lor ≤ signed 32 ((inetPton saddr).getD v).toNat ∧ signed 32 ((inetPton saddr).getD v).toNat ≤ p.hir := by
    intro v p
    rw [PfrPrefix4.ispfxhit, ip4Bin, decide_eq_true_iff]
  simp only [hhit, OutsideAnyway]
  cases inetPton saddr with
  | some a => simp
  | none => simp

theorem exists_ispfxhit_iff {cust : PfrCustomer} {saddr : Text} :
    (∃ st, cust.ispfxhit st saddr = true) ↔ '.' ∈ saddr ∧ ¬OutsideAnyway cust saddr := by
  rw [not_outsideAnyway_iff]
  by_cases hdot : '.' ∈ saddr
  · have h4 : is46Addr saddr = 4 := if_pos hdot
    simp only [PfrCustomer.ispfxhit, if_pos h4, hdot, true_and]
    constructor
    · rintro ⟨st, hhit⟩
      obtain ⟨x, hx, hhit⟩ := List.any_eq_true.mp hhit
      exact ⟨st x.2, x.1, List.fst_mem_of_mem_zipIdx hx, hhit⟩
    · rintro ⟨v, p, hp, hhit⟩
      obtain ⟨i, hi, rfl⟩ := List.getElem_of_mem hp
      refine ⟨fun _ => v, List.any_eq_true.mpr ⟨(cust.prefix4[i], i), ?_, hhit⟩⟩
      exact List.mem_zipIdx_iff_getElem?.mpr (List.getElem?_eq_getElem hi)
  · have h6 : ¬is46Addr saddr = 4 := by rw [is46Addr, if_neg hdot]; decide
    simp [PfrCustomer.ispfxhit, if_neg h6, hdot]

/-- **Some values let a token pass unless it is refused.** -/
theorem exists_accept_iff {src : Source} {cust : PfrCustomer} {tok : Text × Nat} :
    (∃ stale, (accept { src with stale := stale } cust tok).isSome) ↔ ¬Refused src cust tok.1 := by
  have hparts : ¬Refused src cust tok.1 ↔ (∃ v, isHostInNetwork src.nets v (splitToken tok.1).2 = false) ∧
      (splitToken tok.1).2 ∉ src.db.pfrDst ∧ ∃ st, cust.ispfxhit st (splitToken tok.1).1 = true := by
    rw [← not_localAnyway_iff, exists_ispfxhit_iff, Refused]
    tauto
  rw [hparts]
  constructor
  · rintro ⟨stale, hsome⟩
    simp only [accept] at hsome
    split at hsome
    · next hc => exact ⟨⟨_, hc.1⟩, fun hm => hc.2.1 (mem_pfrDstGetmap.mpr hm), ⟨_, hc.2.2⟩⟩
    · cases hsome
  · rintro ⟨⟨v, hhost⟩, htable, st, hhit⟩
    refine ⟨⟨fun _ => 0, fun _ => 0, fun _ => v, fun _ => st⟩, ?_⟩
    simp only [accept]
    rw [if_pos ⟨hhost, fun hm => htable (mem_pfrDstGetmap.mp hm), hhit⟩]
    rfl

/-- **When only well-formed tokens are taken.** For every shared memory, table, local
networks and customer: whatever the variables held, every token taken is well formed, and
so every flow destination an address, exactly if every token is well formed or refused by
a test that does not depend on them. The program's `inet_pton` is `inet_aton`: it takes a
text for an address up to its first blank, where `getaddrinfo` refuses one with a blank. -/
theorem well_formed_iff (src : Source) (cust : PfrCustomer) :
    (∀ stale, (∀ tok ∈ tokens src, (accept { src with stale := stale } cust tok).isSome → WellFormed tok.1) ∧
      ∀ d ∈ flowDsts { src with stale := stale } cust, (inetPton d.ipv4).isSome) ↔
      ∀ tok ∈ tokens src, WellFormed tok.1 ∨ Refused src cust tok.1 := by
  constructor
  · intro h tok htok
    by_contra hbad
    rw [not_or] at hbad
    obtain ⟨stale, hsome⟩ := exists_accept_iff.mpr hbad.2
    exact hbad.1 ((h stale).1 tok htok hsome)
  · intro h stale
    have htaken : ∀ tok ∈ tokens src, (accept { src with stale := stale } cust tok).isSome → WellFormed tok.1 :=
      fun tok htok hsome => (h tok htok).resolve_right (exists_accept_iff.mp ⟨stale, hsome⟩)
    refine ⟨htaken, ?_⟩
    intro d hd
    obtain ⟨tok, htok, hip⟩ := mem_flowDsts.mp ⟨d, hd, rfl⟩
    rw [← (accept_eq_some hip).1]
    exact (htaken tok htok (by rw [hip]; rfl)).2.2

/-- A flow of the customer and a token without a comma. -/
theorem well_formed_run :
    let src := Source.clean "10.1.0.1,198.51.100.7:198.51.100.8".toList ⟨[], [], []⟩
    let cust : PfrCustomer := ⟨[⟨0x0A000000, 0x0AFFFFFF⟩]⟩
    ∀ stale, (∀ tok ∈ tokens src, (accept { src with stale := stale } cust tok).isSome → WellFormed tok.1) ∧
      ∀ d ∈ flowDsts { src with stale := stale } cust, (inetPton d.ipv4).isSome := by
  intro src cust
  refine (well_formed_iff src cust).mpr ?_
  have htoks : ∀ tok ∈ tokens src, WellFormed tok.1 ∨ '.' ∉ (splitToken tok.1).1 := by decide +kernel
  exact fun tok htok => (htoks tok htok).imp_right Or.inl

/-- The destination is a name, and the variable held an address that is not local. -/
theorem name_taken : ¬∀ (src : Source) (cust : PfrCustomer),
    (∀ tok ∈ tokens src, (accept src cust tok).isSome → WellFormed tok.1) ∧
      ∀ d ∈ flowDsts src cust, (inetPton d.ipv4).isSome := by
  intro hall
  let src := Source.clean "10.1.0.1,router.example".toList ⟨[], [], []⟩
  let cust : PfrCustomer := ⟨[⟨0x0A000000, 0x0AFFFFFF⟩]⟩
  have hno : ¬∀ d ∈ flowDsts src cust, (inetPton d.ipv4).isSome := by decide +kernel
  exact hno (hall src cust).2

end Pfr

import Pfr.Customer
import Mathlib.Data.List.Basic
import Std.Data.ExtTreeMap

/- The list of destinations of each round. A flow collector leaves tokens `src,dst` in
   shared memory; `pfr_dst_list` takes the destinations whose source hits a prefix of
   the customer and adds those of the table `pfr_dst`. Before the first round `main`
   asks for the configured customer, `pfr_customer(customer_id)`; in every later round
   it asks for `pfr_customer(7)`. A list with fewer than three flow destinations is
   dropped for the one before.

   1. `mem_flowDsts`, `mem_dbDsts`: where an entry comes from;
   2. `origin_step`, `pfrList_origin`: the list of a round is the one built in the last
      round whose own was not dropped;
   3. `probed_from_customer_iff`: when every entry comes from the configured customer;
   4. `probed_for_other_customer`: a customer other than 7 has it wrong from the second
      round on. -/
namespace Pfr

open CText Std

/-- An entry of the list; what no function reads of it is left out. -/
structure PfrDst where
  id : Nat
  ipv4 : Text
  deriving DecidableEq

/-- What a list is built from: the shared memory, the database, the local networks and
the values left in uninitialised variables. -/
structure Source where
  shm : Text
  db : Db
  nets : List Net
  stale : Stale

def pfrDstGetmap (db : Db) : ExtTreeMap Text Bool := db.pfrDst.foldl (fun m ip => m.insert ip true) ∅

/-- `saddr` and `daddr` of a token. -/
def splitToken (token : Text) : Text × Text := if ',' ∈ token then cut ',' token else ([], token)

/-- A token with its place in the text, which names the variables its tests read. -/
def tokens (src : Source) : List (Text × Nat) := (strtok ':' src.shm).zipIdx

/-- The destination of a token that passes the filters. -/
def accept (src : Source) (cust : PfrCustomer) (tok : Text × Nat) : Option Text :=
  let (saddr, daddr) := splitToken tok.1
  if isHostInNetwork src.nets (src.stale.host tok.2) daddr = false ∧ daddr ∉ pfrDstGetmap src.db ∧
      cust.ispfxhit (src.stale.src tok.2) saddr = true
  then some daddr else none

/-- `pfrDstList.push_back(pfr_dst(dst_id, ip, "", "")); dst_id++`. -/
def pushDst (l : List PfrDst) : Option Text → List PfrDst
  | none => l
  | some ip => l ++ [⟨l.length, ip⟩]

/-- The loop over the tokens. -/
def flowDsts (src : Source) (cust : PfrCustomer) : List PfrDst :=
  (tokens src).foldl (fun l tok => pushDst l (accept src cust tok)) []

/-- The loop over the destinations of the database. -/
def dbDsts (src : Source) (l : List PfrDst) : List PfrDst :=
  (pfrDstGetmap src.db).keys.foldl (fun l ip => pushDst l (some ip)) l

/-- `pfr_dst_list(int, int, pfr_customer&)`. -/
def pfrDstListFirst (src : Source) (cust : PfrCustomer) : List PfrDst := dbDsts src (flowDsts src cust)

/-- `pfr_dst_list(int, int, pfr_dst_list&, pfr_customer&)`. -/
def pfrDstListNext (src : Source) (prev : List PfrDst) (cust : PfrCustomer) : List PfrDst :=
  if (flowDsts src cust).length < 3 then prev else dbDsts src (flowDsts src cust)

/-- The list before the first round. -/
def firstList (customerId : Int) (src : Source) : Option (List PfrDst) :=
  (pfrCustomer customerId src.db src.stale).map (pfrDstListFirst src)

/-- The list of a later round. -/
def nextList (prev : List PfrDst) (src : Source) : Option (List PfrDst) :=
  (pfrCustomer 7 src.db src.stale).map (pfrDstListNext src prev)

/-- The list probed in the last of the rounds: `src0` stands for the first one, `srcs`
for those after it. -/
def pfrList (customerId : Int) (src0 : Source) (srcs : List Source) : Option (List PfrDst) :=
  (firstList customerId src0).bind fun l => srcs.foldlM nextList l

/-! ## Where an entry comes from -/

theorem mem_pushDst {l : List PfrDst} {o : Option Text} {ip : Text} :
    (∃ d ∈ pushDst l o, d.ipv4 = ip) ↔ (∃ d ∈ l, d.ipv4 = ip) ∨ o = some ip := by
  cases o with
  | none => simp [pushDst]
  | some a =>
    constructor
    · rintro ⟨d, hd, rfl⟩
      rcases List.mem_append.mp hd with hd | hd
      · exact Or.inl ⟨d, hd, rfl⟩
      · rw [List.mem_singleton] at hd
        exact Or.inr (by rw [hd])
    · rintro (⟨d, hd, rfl⟩ | hip)
      · exact ⟨d, List.mem_append_left _ hd, rfl⟩
      · exact ⟨_, List.mem_append_right _ (List.mem_singleton.mpr rfl), Option.some.inj hip⟩

theorem mem_foldl_pushDst {α : Type} (f : α → Option Text) {ip : Text} : ∀ (xs : List α) (l : List PfrDst),
    (∃ d ∈ xs.foldl (fun l x => pushDst l (f x)) l, d.ipv4 = ip) ↔
      (∃ d ∈ l, d.ipv4 = ip) ∨ ∃ x ∈ xs, f x = some ip
  | [], l => by simp
  | x :: xs, l => by
    rw [List.foldl_cons, mem_foldl_pushDst f xs, mem_pushDst, or_assoc]
    simp only [List.mem_cons, exists_eq_or_imp]

theorem mem_flowDsts {src : Source} {cust : PfrCustomer} {ip : Text} :
    (∃ d ∈ flowDsts src cust, d.ipv4 = ip) ↔ ∃ tok ∈ tokens src, accept src cust tok = some ip := by
  rw [flowDsts, mem_foldl_pushDst]
  simp only [List.not_mem_nil, false_and, exists_false, false_or]

theorem mem_pfrDstGetmap {db : Db} {ip : Text} : ip ∈ pfrDstGetmap db ↔ ip ∈ db.pfrDst := by
  have hfold : ∀ (l : List Text) (m : ExtTreeMap Text Bool),
      ip ∈ l.foldl (fun m ip => m.insert ip true) m ↔ ip ∈ m ∨ ip ∈ l := by
    intro l
    induction l with
    | nil => simp
    | cons a l ih =>
      intro m
      rw [List.foldl_cons, ih, ExtTreeMap.mem_insert, LawfulEqCmp.compare_eq_iff_eq, List.mem_cons]
      grind
  rw [pfrDstGetmap, hfold]
  simp

theorem mem_dbDsts {src : Source} {l : List PfrDst} {ip : Text} :
    (∃ d ∈ dbDsts src l, d.ipv4 = ip) ↔ (∃ d ∈ l, d.ipv4 = ip) ∨ ip ∈ src.db.pfrDst := by
  rw [dbDsts, mem_foldl_pushDst some]
  simp only [Option.some_inj, exists_eq_right, ExtTreeMap.mem_keys, mem_pfrDstGetmap]

/-- An accepted destination is a token's, and not the table's. -/
theorem accept_eq_some {src : Source} {cust : PfrCustomer} {tok : Text × Nat} {ip : Text}
    (h : accept src cust tok = some ip) :
    (splitToken tok.1).2 = ip ∧ ip ∉ src.db.pfrDst ∧ cust.ispfxhit (src.stale.src tok.2) (splitToken tok.1).1 = true := by
  simp only [accept] at h
  split at h
  · next hc =>
    cases h
    exact ⟨rfl, fun hm => hc.2.1 (mem_pfrDstGetmap.mpr hm), hc.2.2⟩
  · cases h

/-! ## The rounds -/

/-- The round's own list is dropped for the one before. -/
def dropped (src : Source) : Bool :=
  (pfrCustomer 7 src.db src.stale).any fun cust => decide ((flowDsts src cust).length < 3)

/-- The customer asked for and the source read when the list in use was built. -/
def origin (customerId : Int) (src0 : Source) (srcs : List Source) : Int × Source :=
  srcs.foldl (fun o src => if dropped src then o else (7, src)) (customerId, src0)

/-- The list is the one built from there. -/
def BuiltFrom (o : Int × Source) (l : List PfrDst) : Prop :=
  ∃ cust, pfrCustomer o.1 o.2.db o.2.stale = some cust ∧ l = dbDsts o.2 (flowDsts o.2 cust)

theorem origin_step {o : Int × Source} {prev l : List PfrDst} {src : Source} (h : BuiltFrom o prev)
    (hnext : nextList prev src = some l) : BuiltFrom (if dropped src then o else (7, src)) l := by
  obtain ⟨cust, hcust, rfl⟩ := Option.map_eq_some_iff.mp hnext
  have hdrop : dropped src = decide ((flowDsts src cust).length < 3) := by rw [dropped, hcust, Option.any_some]
  by_cases hlen : (flowDsts src cust).length < 3
  · rw [if_pos (by rw [hdrop]; exact decide_eq_true hlen), pfrDstListNext, if_pos hlen]
    exact h
  · rw [if_neg (by rw [hdrop]; simpa using hlen), pfrDstListNext, if_neg hlen]
    exact ⟨cust, hcust, rfl⟩

/-- **The list of any round is the one of its origin.** -/
theorem pfrList_origin {customerId : Int} {src0 : Source} {srcs : List Source} {l : List PfrDst}
    (h : pfrList customerId src0 srcs = some l) : BuiltFrom (origin customerId src0 srcs) l := by
  have hrun : ∀ (srcs : List Source) (o : Int × Source) (prev : List PfrDst), BuiltFrom o prev →
      srcs.foldlM nextList prev = some l →
      BuiltFrom (srcs.foldl (fun o src => if dropped src then o else (7, src)) o) l := by
    intro srcs
    induction srcs with
    | nil =>
      intro o prev hprev hl
      cases hl
      exact hprev
    | cons src srcs ih =>
      intro o prev hprev hl
      rw [List.foldlM_cons] at hl
      obtain ⟨next, hnext, hl⟩ := Option.bind_eq_some_iff.mp hl
      exact ih _ next (origin_step hprev hnext) hl
  obtain ⟨first, hfirst, hl⟩ := Option.bind_eq_some_iff.mp h
  obtain ⟨cust, hcust, rfl⟩ := Option.map_eq_some_iff.mp hfirst
  exact hrun srcs (customerId, src0) _ ⟨cust, hcust, rfl⟩ hl

/-- The text is an address that hits a prefix of the customer. -/
def HitsCustomer (customerId : Int) (src : Source) (saddr : Text) : Prop :=
  ∃ cust ∈ pfrCustomer customerId src.db src.stale, cust.Hit saddr

/-- A token brings the destination with a source of the customer's. -/
def Brought (customerId : Int) (src : Source) (ip : Text) : Prop :=
  ∃ tok ∈ tokens src, (splitToken tok.1).2 = ip ∧ HitsCustomer customerId src (splitToken tok.1).1

/-- Every destination customer `filterId` lets through is brought by a token of customer
`customerId`. -/
def Screened (filterId customerId : Int) (src : Source) : Prop :=
  ∀ cust ∈ pfrCustomer filterId src.db src.stale, ∀ tok ∈ tokens src, ∀ ip ∈ accept src cust tok,
    Brought customerId src ip

instance (customerId : Int) (src : Source) (saddr : Text) : Decidable (HitsCustomer customerId src saddr) :=
  inferInstanceAs (Decidable (∃ cust ∈ pfrCustomer customerId src.db src.stale, cust.Hit saddr))

instance (customerId : Int) (src : Source) (ip : Text) : Decidable (Brought customerId src ip) :=
  inferInstanceAs (Decidable (∃ tok ∈ tokens src, _))

instance (filterId customerId : Int) (src : Source) : Decidable (Screened filterId customerId src) :=
  inferInstanceAs (Decidable (∀ cust ∈ pfrCustomer filterId src.db src.stale, _))

/-- The customer asked for is the configured one, and every source with a dot is an
address: then the filter is the right one. -/
theorem screened_self {customerId : Int} {src : Source}
    (h : ∀ tok ∈ tokens src, '.' ∈ (splitToken tok.1).1 → (inetPton (splitToken tok.1).1).isSome) :
    Screened customerId customerId src := by
  intro cust hcust tok htok ip hip
  obtain ⟨hd, -, hhit⟩ := accept_eq_some hip
  have hdot : '.' ∈ (splitToken tok.1).1 := by
    by_contra hno
    have h6 : ¬is46Addr (splitToken tok.1).1 = 4 := by rw [is46Addr, if_neg hno]; decide
    rw [PfrCustomer.ispfxhit, if_neg h6] at hhit
    cases hhit
  exact ⟨tok, htok, hd, cust, hcust, (ispfxhit_iff (h tok htok hdot) _).mp hhit⟩

/-- A list holds what the filter of its origin lets through. -/
theorem BuiltFrom.brought_iff {o : Int × Source} {l : List PfrDst} (h : BuiltFrom o l) (customerId : Int) :
    (∀ d ∈ l, d.ipv4 ∈ o.2.db.pfrDst ∨ Brought customerId o.2 d.ipv4) ↔ Screened o.1 customerId o.2 := by
  obtain ⟨cust, hcust, rfl⟩ := h
  constructor
  · intro hall cust' hcust' tok htok ip hip
    have hsame : cust = cust' := Option.some.inj (hcust.symm.trans hcust')
    rw [← hsame] at hip
    obtain ⟨d, hd, rfl⟩ := mem_dbDsts.mpr (Or.inl (mem_flowDsts.mpr ⟨tok, htok, hip⟩))
    exact (hall d hd).resolve_left (accept_eq_some hip).2.1
  · intro hscreen d hd
    rcases mem_dbDsts.mp ⟨d, hd, rfl⟩ with hflow | hdb
    · obtain ⟨tok, htok, hip⟩ := mem_flowDsts.mp hflow
      exact Or.inr (hscreen cust hcust tok htok _ hip)
    · exact Or.inl hdb

/-- **When every round filters by the configured customer.** For every configured
customer and every run: each destination probed in the last round that is not from
`pfr_dst` is brought by a token of the configured customer if and only if, in the round
whose list is in use, the customer asked for lets only such destinations through. -/
theorem probed_from_customer_iff {customerId : Int} {src0 : Source} {srcs : List Source} {l : List PfrDst}
    (h : pfrList customerId src0 srcs = some l) :
    (∀ d ∈ l, d.ipv4 ∈ (origin customerId src0 srcs).2.db.pfrDst ∨
      Brought customerId (origin customerId src0 srcs).2 d.ipv4) ↔
      Screened (origin customerId src0 srcs).1 customerId (origin customerId src0 srcs).2 :=
  (pfrList_origin h).brought_iff customerId

/-- A source with nothing in its uninitialised variables and the local network 192.0.2.0/24. -/
def Source.clean (shm : Text) (db : Db) : Source where
  shm := shm
  db := db
  nets := [⟨0xC0000200, 0xFFFFFF00⟩]
  stale := ⟨fun _ => 0, fun _ => 0, fun _ => 0, fun _ _ => 0⟩

/-- Customer 3 has the prefixes of customer 7 and more. The second round's list is kept
in the third, which brings one destination only. -/
theorem probed_from_customer_run :
    let db : Db := ⟨[3, 7], [(3, "10.0.0.0/8".toList), (7, "10.1.0.0/16".toList)], ["203.0.113.1".toList]⟩
    let src0 := Source.clean "10.2.0.1,198.51.100.7".toList db
    let srcs := [Source.clean "10.1.0.1,198.51.100.7:10.1.0.2,198.51.100.8:10.1.0.3,198.51.100.9".toList db,
      Source.clean "10.1.0.1,198.51.100.7".toList db]
    ∃ l, pfrList 3 src0 srcs = some l ∧ l.length = 4 ∧
      ∀ d ∈ l, d.ipv4 ∈ (origin 3 src0 srcs).2.db.pfrDst ∨ Brought 3 (origin 3 src0 srcs).2 d.ipv4 := by
  intro db src0 srcs
  obtain ⟨l, hl, hlen⟩ : ∃ l ∈ pfrList 3 src0 srcs, l.length = 4 := by decide +kernel
  exact ⟨l, hl, hlen, (probed_from_customer_iff hl).mpr (by decide +kernel)⟩

/-- Customer 3 is configured, customer 7 has other prefixes, and the flows of the second
round are customer 7's. -/
theorem probed_for_other_customer : ¬∀ (customerId : Int) (src0 : Source) (srcs : List Source) (l : List PfrDst),
    pfrList customerId src0 srcs = some l → ∀ d ∈ l, d.ipv4 ∈ (origin customerId src0 srcs).2.db.pfrDst ∨
      Brought customerId (origin customerId src0 srcs).2 d.ipv4 := by
  intro hall
  let db : Db := ⟨[3, 7], [(3, "10.0.0.0/8".toList), (7, "20.0.0.0/8".toList)], []⟩
  let srcs := [Source.clean "20.0.0.1,198.51.100.7:20.0.0.2,198.51.100.8:20.0.0.3,198.51.100.9".toList db]
  obtain ⟨l, hl, d, hd, hno⟩ : ∃ l ∈ pfrList 3 (Source.clean [] db) srcs, ∃ d ∈ l,
      ¬(d.ipv4 ∈ (origin 3 (Source.clean [] db) srcs).2.db.pfrDst ∨
        Brought 3 (origin 3 (Source.clean [] db) srcs).2 d.ipv4) := by
    decide +kernel
  exact hno (hall 3 (Source.clean [] db) srcs l hl d hd)

/-- With customer 7 configured the filter is always the right one. -/
theorem origin_seven (src0 : Source) (srcs : List Source) : (origin 7 src0 srcs).1 = 7 := by
  have hfold : ∀ (srcs : List Source) (o : Int × Source), o.1 = 7 →
      (srcs.foldl (fun o src => if dropped src then o else (7, src)) o).1 = 7 := by
    intro srcs
    induction srcs with
    | nil => exact fun _ ho => ho
    | cons src srcs ih =>
      intro o ho
      refine ih _ ?_
      change (if dropped src then o else (7, src)).1 = 7
      split
      · exact ho
      · rfl
  exact hfold srcs _ rfl

/-- So a daemon configured for it probes nobody else's destinations, if the sources in
the shared memory are addresses. -/
theorem probed_for_seven {src0 : Source} {srcs : List Source} {l : List PfrDst} (h : pfrList 7 src0 srcs = some l)
    (haddr : ∀ tok ∈ tokens (origin 7 src0 srcs).2,
      '.' ∈ (splitToken tok.1).1 → (inetPton (splitToken tok.1).1).isSome) :
    ∀ d ∈ l, d.ipv4 ∈ (origin 7 src0 srcs).2.db.pfrDst ∨ Brought 7 (origin 7 src0 srcs).2 d.ipv4 := by
  refine ((pfrList_origin h).brought_iff 7).mpr ?_
  rw [origin_seven]
  exact screened_self haddr

end Pfr

import Pfr.Lib.Bytes
import Pfr.Lib.CText

/- The two address filters of the destination list: the prefixes of a customer
   (`pfr_customer.cpp`) and the local networks (`pfr_localnets.cpp`).

   `inet_pton` writes its result only for a text it accepts, and its result is not
   looked at: the variable behind it keeps what stood there. Those values are
   parameters (`stale`) of what reads them.

   1. `PfrPrefix4.ofText`: the range a prefix text stands for;
   2. `ispfxhit_iff`: for a source that is an address, a hit is an address of one of
      the ranges, whatever the variables held. -/
namespace Pfr

open CText Bytes

/-- The repository's own, for `AF_INET`. -/
def inetPton (s : Text) : Option UInt32 := inetAton s

/-- `ip4_bin(AF_INET, srcaddr)`: `inet_pton` into an uninitialised variable, then `ntohl`. -/
def ip4Bin (stale : UInt32) (srcaddr : Text) : Nat := ((inetPton srcaddr).getD stale).toNat

def is46Addr (ip : Text) : Nat := if '.' ∈ ip then 4 else 6

/-- The bounds of a prefix, as the `int`s they are stored in. -/
structure PfrPrefix4 where
  lor : Int
  hir : Int
  deriving DecidableEq

/-- `oct | hbits` for the octet the prefix ends in, `255 >> 8 - (b - prefix_len)` being
the host bits of a prefix that ends before bit `b`. -/
def hostOctet (shir : List Text) (idx b prefixLen : Nat) : Option Text := do
  let oct ← stoi (shir.getD idx [])
  return toText (Int32.ofInt oct ||| Int32.ofNat (255 >>> (8 - (b - prefixLen)))).toInt

/-- The text of the upper bound; empty where no branch is taken. -/
def hirText (prefixLen : Int) (shir : List Text) : Option Text :=
  let n := prefixLen.toNat
  let part := fun idx => shir.getD idx []
  if prefixLen < 0 ∨ 32 < prefixLen then some []
  else if n < 8 then (hostOctet shir 0 8 n).map fun oct => oct ++ ".255.255.255".toList
  else if n < 16 then (hostOctet shir 1 16 n).map fun oct => part 0 ++ '.' :: oct ++ ".255.255".toList
  else if n < 24 then (hostOctet shir 2 24 n).map fun oct => part 0 ++ '.' :: part 1 ++ '.' :: oct ++ ".255".toList
  else (hostOctet shir 3 32 n).map fun oct => part 0 ++ '.' :: part 1 ++ '.' :: part 2 ++ '.' :: oct

/-- The constructor of `pfr_prefix4`; `none` where `std::stoi` throws or a fifth part
would be written behind the array. -/
def PfrPrefix4.ofText (staleLor staleHir : UInt32) (sPrefix : Text) : Option PfrPrefix4 := do
  let slen := if '/' ∈ sPrefix then (cut '/' sPrefix).2 else sPrefix
  let slor := (cut '/' sPrefix).1
  let prefixLen ← stoi slen
  let shir := slor.splitOn '.'
  if 4 < shir.length then none
  else
    let sshir ← hirText prefixLen shir
    return ⟨signed 32 (ip4Bin staleLor slor), signed 32 (ip4Bin staleHir sshir)⟩

def PfrPrefix4.ispfxhit (stale : UInt32) (p : PfrPrefix4) (srcaddr4 : Text) : Bool :=
  let pfx := signed 32 (ip4Bin stale srcaddr4)
  decide (p.lor ≤ pfx ∧ pfx ≤ p.hir)

structure PfrCustomer where
  prefix4 : List PfrPrefix4
  deriving DecidableEq

/-- No constructor fills `prefix6`, so the loop over it finds nothing. -/
def PfrCustomer.ispfxhit (stale : Nat → UInt32) (cust : PfrCustomer) (srcaddr : Text) : Bool :=
  if is46Addr srcaddr = 4 then cust.prefix4.zipIdx.any fun x => x.1.ispfxhit (stale x.2) srcaddr else false

/-- The tables the list is built from. -/
structure Db where
  pfrCustomer : List Int
  pfrPrefix4 : List (Int × Text)
  pfrDst : List Text

/-- What stood in the uninitialised variables when a list was built: per prefix row the
bounds, per token the host tested and, for each prefix, the source tested. -/
structure Stale where
  lor : Nat → UInt32
  hir : Nat → UInt32
  host : Nat → UInt32
  src : Nat → Nat → UInt32

/-- `pfr_customer(customer_id)`. -/
def pfrCustomer (customerId : Int) (db : Db) (stale : Stale) : Option PfrCustomer := do
  let rows := db.pfrPrefix4.filter fun row => row.1 = customerId ∧ row.1 ∈ db.pfrCustomer
  let prefix4 ← rows.zipIdx.mapM fun x => PfrPrefix4.ofText (stale.lor x.2) (stale.hir x.2) x.1.2
  return ⟨prefix4⟩

/-- An entry of `pfr_localnets`. -/
structure Net where
  net : UInt32
  mask : UInt32
  deriving DecidableEq

def isHostInNetwork (nets : List Net) (stale : UInt32) (hoststr : Text) : Bool :=
  let host := (inetPton hoststr).getD stale
  nets.any fun n => n.net &&& n.mask == host &&& n.mask

/-! ## What a hit is -/

/-- The address the text stands for lies in one of the ranges. -/
def PfrCustomer.Hit (cust : PfrCustomer) (srcaddr : Text) : Prop :=
  '.' ∈ srcaddr ∧ ∃ a ∈ inetPton srcaddr, ∃ p ∈ cust.prefix4, p.lor ≤ signed 32 a.toNat ∧ signed 32 a.toNat ≤ p.hir

instance (cust : PfrCustomer) (srcaddr : Text) : Decidable (cust.Hit srcaddr) := inferInstanceAs (Decidable (_ ∧ _))

theorem PfrPrefix4.ispfxhit_of_addr {srcaddr : Text} {a : UInt32} (h : inetPton srcaddr = some a) (stale : UInt32)
    (p : PfrPrefix4) : p.ispfxhit stale srcaddr = true ↔ p.lor ≤ signed 32 a.toNat ∧ signed 32 a.toNat ≤ p.hir := by
  rw [PfrPrefix4.ispfxhit, ip4Bin, h, Option.getD_some, decide_eq_true_iff]

/-- **For a source that is an address the filter tells whether it hits a prefix.** -/
theorem ispfxhit_iff {cust : PfrCustomer} {srcaddr : Text} (h : (inetPton srcaddr).isSome) (stale : Nat → UInt32) :
    cust.ispfxhit stale srcaddr = true ↔ cust.Hit srcaddr := by
  obtain ⟨a, ha⟩ := Option.isSome_iff_exists.mp h
  by_cases hdot : '.' ∈ srcaddr
  · have h4 : is46Addr srcaddr = 4 := if_pos hdot
    rw [PfrCustomer.ispfxhit, if_pos h4, List.any_eq_true, PfrCustomer.Hit]
    constructor
    · rintro ⟨x, hx, hhit⟩
      exact ⟨hdot, a, ha, x.1, List.fst_mem_of_mem_zipIdx hx, (PfrPrefix4.ispfxhit_of_addr ha _ _).mp hhit⟩
    · rintro ⟨-, b, hb, p, hp, hhit⟩
      have hab : a = b := Option.some.inj (ha.symm.trans hb)
      obtain ⟨i, hi, hpi⟩ := List.getElem_of_mem hp
      refine ⟨(p, i), ?_, (PfrPrefix4.ispfxhit_of_addr ha _ _).mpr (by rw [hab]; exact hhit)⟩
      exact List.mem_zipIdx_iff_getElem?.mpr (by rw [← hpi, List.getElem?_eq_getElem hi])
  · have h6 : ¬is46Addr srcaddr = 4 := by rw [is46Addr, if_neg hdot]; decide
    rw [PfrCustomer.ispfxhit, if_neg h6, PfrCustomer.Hit]
    simp [hdot]

end Pfr

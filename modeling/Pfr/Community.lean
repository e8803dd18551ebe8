import Pfr.Rdata
import Pfr.Lib.Dotted

/- The gRPC side of the router calls. With `enable_gobgp_grpc` on, a route is announced by
   `add_route4` and withdrawn by `del_route4`; both take the community as a text h:l, read
   its halves with `std::stoi` and put them together in an `int`.

   1. `addRoute4_eq`, `delRoute4_eq`: both calls carry the path `path4` makes;
   2. `ofInt_halves`: the word of two halves, modulo 2^32, holds both of them;
   3. `cm_of_halves`: the `int` overflows from h = 32768 on, where the word itself would
      still be right;
   4. `encodes_halves`: so the community is encoded for h up to 32767. -/
namespace Pfr

open CText

/-- How a call ends without sending anything: `std::stoi` throws, or an `int` overflows,
which is undefined. -/
inductive Fault where
  | thrown
  | overflow
  deriving DecidableEq, Repr

/-- A value of an `int` expression. -/
def int (n : Int) : Except Fault Int :=
  if -2147483648 ≤ n ∧ n < 2147483648 then .ok n else .error .overflow

def stoiInt (s : Text) : Except Fault Int :=
  match stoi s with
  | some n => .ok n
  | none => .error .thrown

/-- `comm.substr(comm.find(':') + 1)`: with no ':' the position is the greatest `size_t`,
and one more is 0. -/
def afterColon (comm : Text) : Text := if ':' ∈ comm then (cut ':' comm).2 else comm

/-- `comm.substr(0, comm.find(':'))` -/
def beforeColon (comm : Text) : Text := if ':' ∈ comm then (cut ':' comm).1 else comm

/-! ## The messages -/

inductive Afi where
  | ip
  deriving DecidableEq, Repr

inductive Safi where
  | unicast
  deriving DecidableEq, Repr

structure Family where
  afi : Afi
  safi : Safi
  deriving DecidableEq, Repr

structure IPAddressPrefix where
  pre : String
  prefixLen : Nat
  deriving DecidableEq, Repr

inductive PathAttr where
  | origin : Nat → PathAttr
  | nextHop : String → PathAttr
  | communities : List UInt32 → PathAttr
  deriving DecidableEq, Repr

structure Path where
  family : Family
  nlri : IPAddressPrefix
  pattrs : List PathAttr
  deriving DecidableEq, Repr

inductive TableType where
  | global
  deriving DecidableEq, Repr

/-- `AddPathRequest` and `DeletePathRequest` have the same two fields. -/
structure PathRequest where
  tableType : TableType
  path : Path
  deriving DecidableEq, Repr

inductive Rpc where
  | addPath : PathRequest → Rpc
  | deletePath : PathRequest → Rpc
  deriving DecidableEq, Repr

def addRoute4 (dstIp nh comm : String) : Except Fault Rpc := do
  let lcomm ← stoiInt (afterColon comm.toList)
  let hcomm ← stoiInt (beforeColon comm.toList)
  let prefixLen := 32
  let high ← int (hcomm * 65536)
  let cm ← int (high + lcomm)
  -- `add_communities` takes a `uint32`
  .ok (.addPath
    { tableType := .global
      path :=
        { family := ⟨.ip, .unicast⟩
          nlri := ⟨dstIp, prefixLen⟩
          pattrs := [.origin 0, .nextHop nh, .communities [UInt32.ofInt cm]] } })

def delRoute4 (dstIp nh comm : String) : Except Fault Rpc := do
  let lcomm ← stoiInt (afterColon comm.toList)
  let hcomm ← stoiInt (beforeColon comm.toList)
  let prefixLen := 32
  let high ← int (hcomm * 65536)
  let cm ← int (high + lcomm)
  .ok (.deletePath
    { tableType := .global
      path :=
        { family := ⟨.ip, .unicast⟩
          nlri := ⟨dstIp, prefixLen⟩
          pattrs := [.origin 0, .nextHop nh, .communities [UInt32.ofInt cm]] } })

/-- What the router side calls for a command. -/
def grpcCall : Journal.Entry String Via → Except Fault Rpc
  | .set dstIp via => addRoute4 dstIp via.nh via.comm
  | .unset dstIp via => delRoute4 dstIp via.nh via.comm

/-! ## One path for both -/

/-- The `int` the two functions compute. -/
def commInt (comm : Text) : Except Fault Int := do
  let lcomm ← stoiInt (afterColon comm)
  let hcomm ← stoiInt (beforeColon comm)
  let high ← int (hcomm * 65536)
  int (high + lcomm)

def path4 (dstIp nh : String) (cm : Int) : Path where
  family := ⟨.ip, .unicast⟩
  nlri := ⟨dstIp, 32⟩
  pattrs := [.origin 0, .nextHop nh, .communities [UInt32.ofInt cm]]

def Rpc.path : Rpc → Path
  | .addPath request => request.path
  | .deletePath request => request.path

theorem except_map_bind {ε α β γ : Type} (x : Except ε α) (f : α → Except ε β) (g : β → γ) :
    (x >>= f).map g = x >>= fun a => (f a).map g := by
  cases x with
  | error e => rfl
  | ok a => rfl

theorem except_ok_bind {ε α β : Type} (a : α) (f : α → Except ε β) : ((.ok a : Except ε α) >>= f) = f a := rfl

section Calls
variable (dstIp nh comm : String)

theorem addRoute4_eq :
    addRoute4 dstIp nh comm = (commInt comm.toList).map fun cm => .addPath ⟨.global, path4 dstIp nh cm⟩ := by
  simp only [addRoute4, commInt, except_map_bind]
  rfl

theorem delRoute4_eq :
    delRoute4 dstIp nh comm = (commInt comm.toList).map fun cm => .deletePath ⟨.global, path4 dstIp nh cm⟩ := by
  simp only [delRoute4, commInt, except_map_bind]
  rfl

/-- A withdrawal ends as its announcement does, with the same path in it. -/
theorem delRoute4_path :
    (delRoute4 dstIp nh comm).map Rpc.path = (addRoute4 dstIp nh comm).map Rpc.path := by
  rw [addRoute4_eq, delRoute4_eq]
  cases commInt comm.toList with
  | error fault => rfl
  | ok cm => rfl

end Calls

/-- So the withdrawal of a route names the path it was announced with. -/
theorem grpcCall_path (dstIp : String) (via : Via) :
    (grpcCall (.unset dstIp via)).map Rpc.path = (grpcCall (.set dstIp via)).map Rpc.path :=
  delRoute4_path dstIp via.nh via.comm

/-! ## The word -/

theorem int_ok {n : Int} (h : -2147483648 ≤ n ∧ n < 2147483648) : int n = .ok n := if_pos h

theorem int_overflow {n : Int} (h : 2147483648 ≤ n) : int n = .error .overflow :=
  if_neg fun hrange => absurd hrange.2 (Int.not_lt.mpr h)

/-- **The word of two halves**, from the sum modulo 2^32. -/
theorem ofInt_halves {h l : Nat} (hh : h ≤ 65535) (hl : l ≤ 65535) :
    (UInt32.ofInt ((h : Int) * 65536 + l)).toNat = h * 65536 + l := by
  have hmod : (((h : Int) * 65536 + l) % 2 ^ 32).toNat = h * 65536 + l := by omega
  rw [UInt32.ofInt, hmod, UInt32.toNat_ofNat']
  exact Nat.mod_eq_of_lt (by omega)

/-- A number as it is written, leading zeros or not. -/
def Decimal (ds : Text) (n : Nat) : Prop := ds ≠ [] ∧ digits 10 ds = some n

section Halves
variable {hs ls : Text} {h l : Nat}

theorem Decimal.stoiInt (hd : Decimal hs h) (hh : h ≤ 65535) : stoiInt hs = .ok (h : Int) := by
  rw [Pfr.stoiInt, stoi_digits hd.1 hd.2 (by omega)]

theorem Decimal.colon (hd : Decimal hs h) : ':' ∉ hs := by
  intro hmem
  have hdigit := isDigit_of_digits hd.2 ':' hmem
  cases hdigit

/-- The two positions of ':' give the two numbers. -/
theorem colon_parts (hd : Decimal hs h) (rest : Text) :
    beforeColon (hs ++ ':' :: rest) = hs ∧ afterColon (hs ++ ':' :: rest) = rest := by
  have hmem : ':' ∈ hs ++ ':' :: rest := by simp
  rw [beforeColon, afterColon, if_pos hmem, if_pos hmem, cut_append hd.colon]
  exact ⟨rfl, rfl⟩

/-- **The `int` of a community**: it overflows from 32768 on. -/
theorem commInt_of_halves (hhs : Decimal hs h) (hls : Decimal ls l) (hh : h ≤ 65535) (hl : l ≤ 65535) :
    commInt (hs ++ ':' :: ls) =
      if h ≤ 32767 then .ok ((h : Int) * 65536 + l) else .error .overflow := by
  obtain ⟨hbefore, hafter⟩ := colon_parts hhs ls
  rw [commInt, hbefore, hafter, hls.stoiInt hl, hhs.stoiInt hh, except_ok_bind, except_ok_bind]
  by_cases hfits : h ≤ 32767
  · have hhigh : int ((h : Int) * 65536) = .ok ((h : Int) * 65536) := int_ok (by omega)
    rw [if_pos hfits, hhigh, except_ok_bind]
    exact int_ok (by omega)
  · have hhigh : int ((h : Int) * 65536) = .error .overflow := int_overflow (by omega)
    rw [if_neg hfits, hhigh]
    rfl

/-- Both functions send one word, with `h` above and `l` below, and no `int` overflows on
the way to it. -/
def EncodesHalves (dstIp nh comm : String) (h l : Nat) : Prop :=
  ∃ word : UInt32,
    (∃ path, addRoute4 dstIp nh comm = .ok (.addPath ⟨.global, path⟩) ∧
      delRoute4 dstIp nh comm = .ok (.deletePath ⟨.global, path⟩) ∧
      path.pattrs.getLast? = some (.communities [word])) ∧
    word.toNat / 65536 = h ∧ word.toNat % 65536 = l

/-- **The community is encoded for h up to 32767**, and for no other: with 64512 and the
other private numbers the multiplication is already past the greatest `int`. -/
theorem encodes_halves (dstIp nh : String) (hhs : Decimal hs h) (hls : Decimal ls l) (hh : h ≤ 65535)
    (hl : l ≤ 65535) : EncodesHalves dstIp nh (String.ofList (hs ++ ':' :: ls)) h l ↔ h ≤ 32767 := by
  have hcomm := commInt_of_halves hhs hls hh hl
  have hword := ofInt_halves hh hl
  rw [EncodesHalves, addRoute4_eq, delRoute4_eq, String.toList_ofList, hcomm]
  constructor
  · rintro ⟨word, ⟨path, hadd, -⟩, -⟩
    by_contra hover
    rw [if_neg hover] at hadd
    cases hadd
  · intro hfits
    rw [if_pos hfits]
    refine ⟨UInt32.ofInt ((h : Int) * 65536 + l), ⟨path4 dstIp nh ((h : Int) * 65536 + l), rfl, rfl, rfl⟩, ?_, ?_⟩
    · rw [hword]
      omega
    · rw [hword]
      omega

end Halves

theorem encodes_halves_3333 : EncodesHalves "198.51.0.77" "198.51.0.3" "3333:38040" 3333 38040 :=
  have hhigh : Decimal "3333".toList 3333 := ⟨by decide, by decide⟩
  have hlow : Decimal "38040".toList 38040 := ⟨by decide, by decide⟩
  (encodes_halves "198.51.0.77" "198.51.0.3" hhigh hlow (by decide) (by decide)).mpr (by decide)

/-- The community of a private number: 64512 * 65536 is no `int`. -/
theorem private_as_overflows : ¬EncodesHalves "198.51.0.77" "198.51.0.3" "64512:1" 64512 1 := by
  rintro ⟨word, ⟨path, hadd, -⟩, -⟩
  have hover : addRoute4 "198.51.0.77" "198.51.0.3" "64512:1" = .error .overflow := by decide +kernel
  rw [hover] at hadd
  cases hadd

end Pfr

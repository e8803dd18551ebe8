import Pfr.Customer
import Pfr.Lib.Cidr
import Pfr.Lib.Dotted

/- What `pfr_prefix4` matches. The bounds of a prefix are made from its text: the upper
   one by setting the host bits in the octet the prefix ends in and writing 255 behind
   it, the lower one is the address as it stands. Both are stored as `int`, where
   128.0.0.0 is the least address.

   1. `hirText_octets`: the text of the upper bound is the last address of the block;
   2. `ispfxhit_prefixText`: an address is hit if it is in the block and not below the
      address of the text, and, for length 0, that one is in the upper half;
   3. `hit_agrees_iff`: so this is when matching is agreement in the first bits;
   4. `hit_all_iff`: for a whole prefix, when it has no host bits and is not empty. -/
namespace Pfr

open CText Bytes

/-- `a.b.c.d/len` -/
def prefixText (a : UInt32) (len : Nat) : Text := ipText a ++ '/' :: toText len

/-- The two addresses agree in their first `len` bits. -/
abbrev Agree (len : Nat) (a x : UInt32) : Prop := Cidr.Agree len a.toBitVec x.toBitVec

theorem agree_iff {len : Nat} (h : len ≤ 32) (a x : UInt32) :
    Agree len a x ↔ a.toNat / 2 ^ (32 - len) = x.toNat / 2 ^ (32 - len) :=
  Cidr.agree_iff_div h a.toBitVec x.toBitVec

/-! ## The upper bound -/

theorem octet_or {o j : Nat} (ho : o < 256) (hj : j ≤ 8) :
    (Int32.ofInt o ||| Int32.ofNat (255 >>> (8 - j))).toInt = Cidr.last j o := by
  have hones : ∀ j ≤ 8, 255 >>> (8 - j) = 2 ^ j - 1 := by decide
  have hlow : 2 ^ j - 1 < 256 := by
    have := Nat.pow_le_pow_right (show 0 < 2 by omega) hj
    omega
  have hor : o ||| (2 ^ j - 1) < 2 ^ 8 := Nat.or_lt_two_pow ho hlow
  have hword : Int32.ofInt o ||| Int32.ofNat (2 ^ j - 1) = Int32.ofNat (o ||| (2 ^ j - 1)) := by
    apply Int32.toBitVec_inj.mp
    rw [Int32.toBitVec_or, Int32.toBitVec_ofInt, Int32.toBitVec_ofNat', Int32.toBitVec_ofNat', BitVec.ofInt_natCast]
    apply BitVec.eq_of_toNat_eq
    simp only [BitVec.toNat_or, BitVec.toNat_ofNat]
    rw [Nat.mod_eq_of_lt (by omega), Nat.mod_eq_of_lt (by omega), Nat.mod_eq_of_lt (by omega)]
  rw [hones j hj, hword, Int32.toInt_ofNat_of_lt (by omega), Cidr.or_two_pow_sub_one]

/-- The octet the prefix ends in, its host bits set. -/
theorem hostOctet_toText {shir : List Text} {idx b len o : Nat} (hidx : shir.getD idx [] = toText o) (ho : o < 256)
    (hj : b - len ≤ 8) : hostOctet shir idx b len = some (toText (Cidr.last (b - len) o)) := by
  rw [hostOctet, hidx, stoi_toText (by omega)]
  show some (toText _) = _
  rw [octet_or ho hj]

theorem last_lt {j o : Nat} (hj : j ≤ 8) (ho : o < 256) : Cidr.last j o < 256 := by
  have hdiv := Cidr.last_div_of_le hj o
  omega

/-! The last address of a block, for each octet its prefix can end in. -/

section Octets
variable {a b c d len : Nat}

theorem last_first (hb : b < 256) (hc : c < 256) (hd : d < 256) (h : len ≤ 8) :
    ((Cidr.last (8 - len) a * 256 + 255) * 256 + 255) * 256 + 255 =
      Cidr.last (32 - len) (((a * 256 + b) * 256 + c) * 256 + d) := by
  have hones : ∀ x, ((x * 256 + 255) * 256 + 255) * 256 + 255 = x * 2 ^ 24 + (2 ^ 24 - 1) := by omega
  have hval := Cidr.last_mul_add (8 - len) 24 a (show (b * 256 + c) * 256 + d < 2 ^ 24 by omega)
  have hbits : 24 + (8 - len) = 32 - len := by omega
  have haddr : a * 2 ^ 24 + ((b * 256 + c) * 256 + d) = ((a * 256 + b) * 256 + c) * 256 + d := by omega
  calc ((Cidr.last (8 - len) a * 256 + 255) * 256 + 255) * 256 + 255
      = Cidr.last (8 - len) a * 2 ^ 24 + (2 ^ 24 - 1) := hones _
    _ = Cidr.last (24 + (8 - len)) (a * 2 ^ 24 + ((b * 256 + c) * 256 + d)) := hval.symm
    _ = Cidr.last (32 - len) (((a * 256 + b) * 256 + c) * 256 + d) := by rw [hbits, haddr]

theorem last_second (hc : c < 256) (hd : d < 256) (h : 8 ≤ len) (h' : len ≤ 16) :
    ((a * 256 + Cidr.last (16 - len) b) * 256 + 255) * 256 + 255 =
      Cidr.last (32 - len) (((a * 256 + b) * 256 + c) * 256 + d) := by
  have hones : ∀ x, ((a * 256 + x) * 256 + 255) * 256 + 255 = (a * 2 ^ 8 + x) * 2 ^ 16 + (2 ^ 16 - 1) := by omega
  have hval := Cidr.last_mul_add (16 - len) 16 (a * 2 ^ 8 + b) (show c * 256 + d < 2 ^ 16 by omega)
  have hoctet := Cidr.last_add_mul (show 16 - len ≤ 8 by omega) a b
  have hbits : 16 + (16 - len) = 32 - len := by omega
  have haddr : (a * 2 ^ 8 + b) * 2 ^ 16 + (c * 256 + d) = ((a * 256 + b) * 256 + c) * 256 + d := by omega
  calc ((a * 256 + Cidr.last (16 - len) b) * 256 + 255) * 256 + 255
      = (a * 2 ^ 8 + Cidr.last (16 - len) b) * 2 ^ 16 + (2 ^ 16 - 1) := hones _
    _ = Cidr.last (16 - len) (a * 2 ^ 8 + b) * 2 ^ 16 + (2 ^ 16 - 1) := by rw [hoctet]
    _ = Cidr.last (16 + (16 - len)) ((a * 2 ^ 8 + b) * 2 ^ 16 + (c * 256 + d)) := hval.symm
    _ = Cidr.last (32 - len) (((a * 256 + b) * 256 + c) * 256 + d) := by rw [hbits, haddr]

theorem last_third (hd : d < 256) (h : 16 ≤ len) (h' : len ≤ 24) :
    ((a * 256 + b) * 256 + Cidr.last (24 - len) c) * 256 + 255 =
      Cidr.last (32 - len) (((a * 256 + b) * 256 + c) * 256 + d) := by
  have hones : ∀ x, ((a * 256 + b) * 256 + x) * 256 + 255 = ((a * 256 + b) * 2 ^ 8 + x) * 2 ^ 8 + (2 ^ 8 - 1) := by omega
  have hval := Cidr.last_mul_add (24 - len) 8 ((a * 256 + b) * 2 ^ 8 + c) (show d < 2 ^ 8 by omega)
  have hoctet := Cidr.last_add_mul (show 24 - len ≤ 8 by omega) (a * 256 + b) c
  have hbits : 8 + (24 - len) = 32 - len := by omega
  have haddr : ((a * 256 + b) * 2 ^ 8 + c) * 2 ^ 8 + d = ((a * 256 + b) * 256 + c) * 256 + d := by omega
  calc ((a * 256 + b) * 256 + Cidr.last (24 - len) c) * 256 + 255
      = ((a * 256 + b) * 2 ^ 8 + Cidr.last (24 - len) c) * 2 ^ 8 + (2 ^ 8 - 1) := hones _
    _ = Cidr.last (24 - len) ((a * 256 + b) * 2 ^ 8 + c) * 2 ^ 8 + (2 ^ 8 - 1) := by rw [hoctet]
    _ = Cidr.last (8 + (24 - len)) (((a * 256 + b) * 2 ^ 8 + c) * 2 ^ 8 + d) := hval.symm
    _ = Cidr.last (32 - len) (((a * 256 + b) * 256 + c) * 256 + d) := by rw [hbits, haddr]

theorem last_fourth (h : 24 ≤ len) : ((a * 256 + b) * 256 + c) * 256 + Cidr.last (32 - len) d =
    Cidr.last (32 - len) (((a * 256 + b) * 256 + c) * 256 + d) :=
  (Cidr.last_add_mul (show 32 - len ≤ 8 by omega) _ d).symm

/-- **The text of the upper bound is the last address of the block.** The four cases are
the octets a prefix can end in. -/
theorem hirText_octets (ha : a < 256) (hb : b < 256) (hc : c < 256) (hd : d < 256) (hlen : len ≤ 32) :
    ∃ a' b' c' d', a' < 256 ∧ b' < 256 ∧ c' < 256 ∧ d' < 256 ∧
      hirText len [toText a, toText b, toText c, toText d] = some (dotted a' b' c' d') ∧
      ((a' * 256 + b') * 256 + c') * 256 + d' = Cidr.last (32 - len) (((a * 256 + b) * 256 + c) * 256 + d) := by
  have hrange : ¬((len : Int) < 0 ∨ 32 < (len : Int)) := by omega
  unfold hirText
  simp only [if_neg hrange, Int.toNat_natCast]
  split
  · next h8 =>
    refine ⟨Cidr.last (8 - len) a, 255, 255, 255, last_lt (by omega) ha, by omega, by omega, by omega, ?_, ?_⟩
    · rw [hostOctet_toText rfl ha (by omega)]
      rfl
    · exact last_first hb hc hd (by omega)
  · split
    · next h8 h16 =>
      refine ⟨a, Cidr.last (16 - len) b, 255, 255, ha, last_lt (by omega) hb, by omega, by omega, ?_, ?_⟩
      · rw [hostOctet_toText rfl hb (by omega)]
        simp [dotted]
        rfl
      · exact last_second hc hd (by omega) (by omega)
    · split
      · next h16 h24 =>
        refine ⟨a, b, Cidr.last (24 - len) c, 255, ha, hb, last_lt (by omega) hc, by omega, ?_, ?_⟩
        · rw [hostOctet_toText rfl hc (by omega)]
          simp [dotted]
          rfl
        · exact last_third hd (by omega) (by omega)
      · next h24 =>
        refine ⟨a, b, c, Cidr.last (32 - len) d, ha, hb, hc, last_lt (by omega) hd, ?_, ?_⟩
        · rw [hostOctet_toText rfl hd (by omega)]
          simp [dotted]
        · exact last_fourth (by omega)

end Octets

/-- The bounds of a prefix. -/
theorem ofText_prefixText (staleLor staleHir : UInt32) (a : UInt32) {len : Nat} (hlen : len ≤ 32) :
    PfrPrefix4.ofText staleLor staleHir (prefixText a len) =
      some ⟨signed 32 a.toNat, signed 32 (Cidr.last (32 - len) a.toNat)⟩ := by
  have ha := a.toNat_lt
  have hslash : '/' ∉ ipText a := not_mem_dotted (by decide) rfl
  have hcut : cut '/' (prefixText a len) = (ipText a, toText len) := cut_append hslash _
  have hmem : '/' ∈ prefixText a len := List.mem_append_right _ List.mem_cons_self
  have hsplit : (ipText a).splitOn '.' = _ := dotted_split
  obtain ⟨a', b', c', d', ha', hb', hc', hd', htext, hval⟩ := hirText_octets (a := a.toNat / 16777216)
    (b := a.toNat / 65536 % 256) (c := a.toNat / 256 % 256) (d := a.toNat % 256) (by omega) (by omega) (by omega)
    (by omega) hlen
  rw [octets_value] at hval
  have hsmall : ((a' * 256 + b') * 256 + c') * 256 + d' < 2 ^ 32 := by omega
  have hlor : ip4Bin staleLor (ipText a) = a.toNat := by
    rw [ip4Bin, inetPton, inetAton_ipText, Option.getD_some]
  have hhir : ip4Bin staleHir (dotted a' b' c' d') = Cidr.last (32 - len) a.toNat := by
    rw [ip4Bin, inetPton, inetAton_dotted ha' hb' hc' hd', Option.getD_some, UInt32.toNat_ofNat_of_lt' hsmall, hval]
  rw [PfrPrefix4.ofText, if_pos hmem, hcut, stoi_toText (show len < 2147483648 by omega)]
  simp only [Option.bind_eq_bind, Option.bind_some]
  rw [hsplit, if_neg (by simp), htext]
  show some (PfrPrefix4.mk _ _) = _
  rw [hlor, hhir]

/-! ## What is hit -/

/-- An address as an `int`. -/
theorem signed_addr {n : Nat} (h : n < 2 ^ 32) : signed 32 n = if n < 2 ^ 31 then (n : Int) else (n : Int) - 2 ^ 32 := by
  rw [signed, Int.bmod_def]
  split <;> split <;> omega

/-- Between two addresses of one half the order of the `int`s is that of the addresses. -/
theorem signed_between {l n h : Nat} (hn : n < 2 ^ 32) (hh : h < 2 ^ 32) (_ : l ≤ h) (hhalf : h / 2 ^ 31 = l / 2 ^ 31) :
    signed 32 l ≤ signed 32 n ∧ signed 32 n ≤ signed 32 h ↔ l ≤ n ∧ n ≤ h := by
  rw [signed_addr hn, signed_addr hh, signed_addr (show l < 2 ^ 32 by omega)]
  split <;> split <;> split <;> omega

/-- For length 0 the upper bound is -1. -/
theorem signed_between_zero {l n : Nat} (hl : l < 2 ^ 32) (hn : n < 2 ^ 32) :
    signed 32 l ≤ signed 32 n ∧ signed 32 n ≤ signed 32 (2 ^ 32 - 1) ↔ l ≤ n ∧ 2 ^ 31 ≤ l := by
  rw [signed_addr hn, signed_addr hl, signed_addr (by omega)]
  split <;> split <;> omega

/-- **What a prefix matches.** -/
theorem ispfxhit_prefixText (staleLor staleHir stale : UInt32) (a x : UInt32) {len : Nat} (hlen : len ≤ 32) :
    ∃ p, PfrPrefix4.ofText staleLor staleHir (prefixText a len) = some p ∧
      (p.ispfxhit stale (ipText x) = true ↔ Agree len a x ∧ a ≤ x ∧ (len = 0 → 2 ^ 31 ≤ a.toNat)) := by
  have ha := a.toNat_lt
  have hx := x.toNat_lt
  refine ⟨_, ofText_prefixText staleLor staleHir a hlen, ?_⟩
  rw [PfrPrefix4.ispfxhit_of_addr (inetAton_ipText x), agree_iff hlen, UInt32.le_iff_toNat_le]
  by_cases hzero : len = 0
  · subst hzero
    have hlast : Cidr.last (32 - 0) a.toNat = 2 ^ 32 - 1 := by
      rw [Cidr.last, Nat.div_eq_of_lt ha]
      rfl
    rw [hlast, signed_between_zero ha hx, Nat.div_eq_of_lt ha, Nat.div_eq_of_lt hx]
    simp
  · have hhalf := Cidr.last_div_of_le (show 32 - len ≤ 31 by omega) a.toNat
    have hlt : Cidr.last (32 - len) a.toNat < 2 ^ 32 := by omega
    rw [signed_between hx hlt (Cidr.le_last _ _) hhalf]
    constructor
    · rintro ⟨hax, hxl⟩
      exact ⟨(Cidr.le_last_iff hax).mp hxl, hax, fun h => absurd h hzero⟩
    · rintro ⟨hagree, hax, -⟩
      exact ⟨hax, (Cidr.le_last_iff hax).mpr hagree⟩

/-- **When matching is agreement in the first bits.** For every prefix text and address,
whatever the variables held, exactly if the address is outside the block or not below the
one of the text, that one being in the upper half if the length is 0. -/
theorem hit_agrees_iff (staleLor staleHir stale : UInt32) (a x : UInt32) {len : Nat} (hlen : len ≤ 32) :
    ∃ p, PfrPrefix4.ofText staleLor staleHir (prefixText a len) = some p ∧
      ((p.ispfxhit stale (ipText x) = true ↔ Agree len a x) ↔
        (Agree len a x → a ≤ x ∧ (len = 0 → 2 ^ 31 ≤ a.toNat))) := by
  obtain ⟨p, hp, hhit⟩ := ispfxhit_prefixText staleLor staleHir stale a x hlen
  refine ⟨p, hp, ?_⟩
  rw [hhit]
  exact ⟨fun h hagree => (h.mpr hagree).2, fun h => ⟨fun h' => h'.1, fun hagree => ⟨hagree, h hagree⟩⟩⟩

/-- An address of 10.0.0.0/8 is in it. -/
theorem hit_agrees_ten : ∃ p, PfrPrefix4.ofText 0 0 (prefixText 0x0A000000 8) = some p ∧
    (p.ispfxhit 0 (ipText 0x0A010203) = true ↔ Agree 8 0x0A000000 0x0A010203) := by
  obtain ⟨p, hp, hiff⟩ := hit_agrees_iff 0 0 0 0x0A000000 0x0A010203 (show 8 ≤ 32 by decide)
  exact ⟨p, hp, hiff.mpr fun _ => ⟨by decide, by decide⟩⟩

/-- 10.0.0.1 is in 10.1.2.3/8, and not hit. -/
theorem below_text_not_hit : ¬∀ (staleLor staleHir stale : UInt32) (a x : UInt32) (len : Nat), len ≤ 32 →
    ∃ p, PfrPrefix4.ofText staleLor staleHir (prefixText a len) = some p ∧
      (p.ispfxhit stale (ipText x) = true ↔ Agree len a x) := by
  intro hall
  have hno : ¬∃ p ∈ PfrPrefix4.ofText 0 0 (prefixText 0x0A010203 8),
      (p.ispfxhit 0 (ipText 0x0A000001) = true ↔ Agree 8 0x0A010203 0x0A000001) := by
    decide +kernel
  exact hno (hall 0 0 0 0x0A010203 0x0A000001 8 (by decide))

/-- **Which prefixes match their whole block.** -/
theorem hit_all_iff (staleLor staleHir stale : UInt32) (a : UInt32) {len : Nat} (hlen : len ≤ 32) :
    ∃ p, PfrPrefix4.ofText staleLor staleHir (prefixText a len) = some p ∧
      ((∀ x, p.ispfxhit stale (ipText x) = true ↔ Agree len a x) ↔ 1 ≤ len ∧ a.toNat % 2 ^ (32 - len) = 0) := by
  have ha := a.toNat_lt
  refine ⟨_, ofText_prefixText staleLor staleHir a hlen, ?_⟩
  have hpair : ∀ x, (PfrPrefix4.ispfxhit stale ⟨signed 32 a.toNat, signed 32 (Cidr.last (32 - len) a.toNat)⟩ (ipText x) = true ↔
      Agree len a x) ↔ (Agree len a x → a ≤ x ∧ (len = 0 → 2 ^ 31 ≤ a.toNat)) := by
    intro x
    obtain ⟨p, hp, hiff⟩ := hit_agrees_iff staleLor staleHir stale a x hlen
    rw [ofText_prefixText staleLor staleHir a hlen] at hp
    rw [Option.some_inj] at hp
    rwa [← hp] at hiff
  have hdiv : 2 ^ (32 - len) * (a.toNat / 2 ^ (32 - len)) + a.toNat % 2 ^ (32 - len) = a.toNat := Nat.div_add_mod _ _
  constructor
  · intro hall
    -- the least address of the block is hit only if the text is that address
    have hnet : (UInt32.ofNat (2 ^ (32 - len) * (a.toNat / 2 ^ (32 - len)))).toNat =
        2 ^ (32 - len) * (a.toNat / 2 ^ (32 - len)) := UInt32.toNat_ofNat_of_lt' (show _ < 2 ^ 32 by omega)
    have hagree : Agree len a (UInt32.ofNat (2 ^ (32 - len) * (a.toNat / 2 ^ (32 - len)))) := by
      rw [agree_iff hlen, hnet, Nat.mul_div_cancel_left _ (Nat.two_pow_pos _)]
    obtain ⟨hle, hhigh⟩ := (hpair _).mp (hall _) hagree
    rw [UInt32.le_iff_toNat_le, hnet] at hle
    refine ⟨?_, by omega⟩
    by_contra hlen0
    have hzero : len = 0 := by omega
    have := hhigh hzero
    rw [hzero, Nat.div_eq_of_lt ha] at hle
    omega
  · intro h x
    refine (hpair x).mpr ?_
    intro hagree
    rw [agree_iff hlen] at hagree
    refine ⟨?_, fun h0 => by omega⟩
    rw [UInt32.le_iff_toNat_le]
    calc a.toNat = 2 ^ (32 - len) * (a.toNat / 2 ^ (32 - len)) := by omega
      _ = 2 ^ (32 - len) * (x.toNat / 2 ^ (32 - len)) := by rw [hagree]
      _ ≤ x.toNat := Nat.mul_div_le _ _

end Pfr

import Pfr.PrefixHit

/- The local networks: `pfr_localnets(std::string)` makes a net of every entry of the
   list, and `is_host_in_network` compares a host with each. The mask is written to a
   buffer of 15 bytes and read back from there.

   1. `netOfText_prefixText`: which entries can be made, and what of them;
   2. `isHostInNetwork_iff`: a host is in a network if it agrees with an entry;
   3. `localnets_iff`: the list works exactly if every length lies between 1 and 24. -/
namespace Pfr

open CText

/-- Of adjacent separators one is left. -/
def squeeze (c : Char) : Text → Text
  | x :: y :: s => if x = c ∧ y = c then squeeze c (y :: s) else x :: squeeze c (y :: s)
  | s => s

/-- `boost::split(.., boost::is_any_of(c), boost::token_compress_on)`. -/
def splitCompress (c : Char) (s : Text) : List Text := (squeeze c s).splitOn c

/-- `sizeof(network_mask)` -/
def networkMaskSize : Nat := 15

/-- `0xFFFFFFFF << amount & 0xFFFFFFFF` -/
def netMask (amount : Nat) : UInt32 := 0xFFFFFFFF <<< UInt32.ofNat amount &&& 0xFFFFFFFF

/-- `sprintf(network_mask, "%lu.%lu.%lu.%lu", ..)` -/
def networkMask (mask : UInt32) : Text :=
  dotted (mask >>> 24).toNat ((mask >>> 16) &&& 0xFF).toNat ((mask >>> 8) &&& 0xFF).toNat (mask &&& 0xFF).toNat

/-- One entry. `none` where it has no length, where the shift amount is not below the
width of `unsigned int` and where the text of the mask does not fit in the buffer. The two
`inet_pton` write into fresh memory. -/
def netOfText (staleNet staleMask : UInt32) (sPrefix : Text) : Option Net := do
  let parsedPrefix := splitCompress '/' sPrefix
  let len ← (parsedPrefix[1]?).bind atoi
  let amount := 32 - len
  if amount < 0 ∨ 32 ≤ amount then none
  else
    let mask := netMask amount.toNat
    if networkMaskSize < (networkMask mask).length + 1 then none
    else return ⟨(inetPton (parsedPrefix.headD [])).getD staleNet, (inetPton (networkMask mask)).getD staleMask⟩

/-- `pfr_localnets(localnets)`; `stale` is what `malloc` leaves in each net. -/
def pfrLocalnets (stale : Nat → Net) (localnets : Text) : Option (List Net) :=
  (splitCompress ',' localnets).zipIdx.mapM fun x => netOfText (stale x.2).net (stale x.2).mask x.1

/-- The list of entries. -/
def netsText (es : List (UInt32 × Nat)) : Text := [','].intercalate (es.map fun e => prefixText e.1 e.2)

/-! ## Splitting -/

theorem squeeze_append {c : Char} : ∀ {xs : Text} (_ : c ∉ xs) (ys : Text), squeeze c (xs ++ ys) = xs ++ squeeze c ys
  | [], _, _ => rfl
  | x :: xs, h, ys => by
    have hx : ¬x = c := fun hxc => h (hxc ▸ List.mem_cons_self)
    have ih := squeeze_append (fun hmem => h (List.mem_cons_of_mem x hmem)) ys
    rw [List.cons_append, List.cons_append, ← ih]
    cases hrest : xs ++ ys with
    | nil => rfl
    | cons y s => rw [squeeze, if_neg fun hc => hx hc.1]

theorem squeeze_sep {c : Char} {ys : Text} (h : ys.head? ≠ some c) : squeeze c (c :: ys) = c :: squeeze c ys := by
  cases ys with
  | nil => rfl
  | cons y s =>
    rw [squeeze, if_neg]
    intro hc
    exact h (by rw [hc.2]; rfl)

/-- Pieces that are not empty and hold no separator are found again. -/
theorem splitCompress_intercalate {c : Char} : ∀ {es : List Text}, es ≠ [] → (∀ e ∈ es, e ≠ [] ∧ c ∉ e) →
    splitCompress c ([c].intercalate es) = es
  | [], h, _ => absurd rfl h
  | [e], _, h => by
    have he := (h e List.mem_cons_self).2
    have hsame : squeeze c e = e := by simpa [squeeze] using squeeze_append he []
    rw [splitCompress, List.intercalate_singleton, hsame, List.splitOn_eq_singleton he]
  | e :: f :: es, _, h => by
    have he := (h e List.mem_cons_self).2
    have hf := h f (by simp)
    have ih := splitCompress_intercalate (List.cons_ne_nil f es) fun x hx => h x (List.mem_cons_of_mem e hx)
    -- the next piece does not begin with a separator
    have hhead : ([c].intercalate (f :: es)).head? ≠ some c := by
      obtain ⟨y, s, rfl⟩ := List.exists_cons_of_ne_nil hf.1
      have hy : y ≠ c := fun hyc => hf.2 (hyc ▸ List.mem_cons_self)
      cases es <;> simpa [List.intercalate_cons_cons] using hy
    rw [splitCompress] at ih ⊢
    rw [List.intercalate_cons_cons, List.append_assoc, List.singleton_append, squeeze_append he, squeeze_sep hhead,
      List.splitOn_append_cons_self_of_not_mem he, ih]

/-! ## One entry -/

theorem netMask_eq : ∀ n : Fin 32, (netMask n.val).toBitVec = Cidr.mask 32 (32 - n.val) := by
  decide +kernel

/-- From a length of 25 on the mask takes 15 characters. -/
theorem networkMask_fits : ∀ n : Fin 32, networkMaskSize < (networkMask (netMask n.val)).length + 1 ↔ n.val < 8 := by
  decide +kernel

theorem networkMask_eq (mask : UInt32) : networkMask mask = ipText mask := by
  have hlow : ∀ n : Nat, n &&& 255 = n % 256 := fun n => Nat.and_two_pow_sub_one_eq_mod n 8
  simp [networkMask, ipText, Nat.shiftRight_eq_div_pow, hlow]

theorem inetPton_networkMask (mask : UInt32) : inetPton (networkMask mask) = some mask := by
  rw [networkMask_eq, inetPton, inetAton_ipText]

theorem splitCompress_prefixText (a : UInt32) (len : Nat) :
    splitCompress '/' (prefixText a len) = [ipText a, toText len] := by
  have hip : '/' ∉ ipText a := not_mem_dotted (by decide) rfl
  have hlenText : '/' ∉ toText len := not_mem_toText _ rfl
  have hjoin : prefixText a len = ['/'].intercalate [ipText a, toText len] := by
    simp [prefixText, List.intercalate_cons_cons]
  rw [hjoin]
  apply splitCompress_intercalate (List.cons_ne_nil _ _)
  intro e he
  simp only [List.mem_cons, List.not_mem_nil, or_false] at he
  rcases he with rfl | rfl
  · exact ⟨by simp [ipText, dotted], hip⟩
  · exact ⟨toText_ne_nil len, hlenText⟩

/-- **Which entries can be made.** -/
theorem netOfText_prefixText (staleNet staleMask a : UInt32) {len : Nat} (hlen : len ≤ 32) :
    netOfText staleNet staleMask (prefixText a len) =
      if 1 ≤ len ∧ len ≤ 24 then some ⟨a, netMask (32 - len)⟩ else none := by
  have hlenText : atoi (toText len) = some (len : Int) := atoi_toText (by omega)
  have hamount : ((32 : Int) - (len : Int)).toNat = 32 - len := by omega
  rw [netOfText, splitCompress_prefixText a len]
  simp only [List.getElem?_cons_succ, List.getElem?_cons_zero, Option.bind_some, hlenText, Option.bind_eq_bind, hamount]
  by_cases hzero : len = 0
  · rw [if_pos (by omega), if_neg (by omega)]
  · rw [if_neg (by omega)]
    have hfits := networkMask_fits ⟨32 - len, by omega⟩
    simp only at hfits
    by_cases hlong : 32 - len < 8
    · rw [if_pos (hfits.mpr hlong), if_neg (by omega)]
    · rw [if_neg (fun h => hlong (hfits.mp h)), if_pos (by omega), inetPton_networkMask, inetPton]
      show some (Net.mk ((inetAton (ipText a)).getD staleNet) _) = _
      rw [inetAton_ipText]
      rfl

/-! ## The list -/

theorem mapM_eq_none {α β : Type} {f : α → Option β} {x : α} (h : f x = none) : ∀ {l : List α}, x ∈ l → l.mapM f = none
  | y :: l, hx => by
    rw [List.mapM_cons]
    rcases List.mem_cons.mp hx with rfl | hx
    · rw [h]
      rfl
    · cases f y with
      | none => rfl
      | some z =>
        rw [mapM_eq_none h hx]
        rfl

theorem mapM_zipIdx {α β : Type} {f : α × Nat → Option β} {g : α → β} : ∀ {l : List α} {n : Nat},
    (∀ x ∈ l, ∀ i, f (x, i) = some (g x)) → (l.zipIdx n).mapM f = some (l.map g)
  | [], _, _ => rfl
  | x :: l, n, h => by
    have ih : (l.zipIdx (n + 1)).mapM f = some (l.map g) := mapM_zipIdx fun y hy => h y (List.mem_cons_of_mem x hy)
    rw [List.zipIdx_cons, List.mapM_cons, h x List.mem_cons_self n, ih]
    rfl

theorem splitCompress_netsText {es : List (UInt32 × Nat)} (hne : es ≠ []) :
    splitCompress ',' (netsText es) = es.map fun e => prefixText e.1 e.2 := by
  apply splitCompress_intercalate (by simpa using hne)
  intro t ht
  obtain ⟨e, he, rfl⟩ := List.mem_map.mp ht
  have hip : ',' ∉ ipText e.1 := not_mem_dotted (by decide) rfl
  have hlen : ',' ∉ toText e.2 := not_mem_toText _ rfl
  refine ⟨by simp [prefixText], ?_⟩
  simp only [prefixText, List.mem_append, List.mem_cons, not_or]
  exact ⟨hip, by decide, hlen⟩

section List
variable {es : List (UInt32 × Nat)} (hne : es ≠ []) (hlens : ∀ e ∈ es, e.2 ≤ 32)

include hne hlens

/-- The list is made of the entries, if each can be. -/
theorem pfrLocalnets_some (stale : Nat → Net) (h : ∀ e ∈ es, 1 ≤ e.2 ∧ e.2 ≤ 24) :
    pfrLocalnets stale (netsText es) = some (es.map fun e => ⟨e.1, netMask (32 - e.2)⟩) := by
  rw [pfrLocalnets, splitCompress_netsText hne, List.zipIdx_map, List.mapM_map]
  apply mapM_zipIdx
  intro e he i
  show netOfText _ _ (prefixText e.1 e.2) = _
  rw [netOfText_prefixText _ _ e.1 (hlens e he), if_pos (h e he)]

theorem pfrLocalnets_none (stale : Nat → Net) {e : UInt32 × Nat} (he : e ∈ es) (h : ¬(1 ≤ e.2 ∧ e.2 ≤ 24)) :
    pfrLocalnets stale (netsText es) = none := by
  obtain ⟨i, hi, rfl⟩ := List.getElem_of_mem he
  rw [pfrLocalnets, splitCompress_netsText hne]
  apply mapM_eq_none (x := (prefixText es[i].1 es[i].2, i))
  · show netOfText _ _ (prefixText es[i].1 es[i].2) = none
    rw [netOfText_prefixText _ _ _ (hlens _ he), if_neg h]
  · rw [List.mem_zipIdx_iff_getElem?, List.getElem?_map, List.getElem?_eq_getElem hi]
    rfl

end List

/-- **A host is in a network if it agrees with an entry.** -/
theorem isHostInNetwork_iff {es : List (UInt32 × Nat)} (h : ∀ e ∈ es, 1 ≤ e.2 ∧ e.2 ≤ 24) (stale x : UInt32) :
    isHostInNetwork (es.map fun e => ⟨e.1, netMask (32 - e.2)⟩) stale (ipText x) = true ↔ ∃ e ∈ es, Agree e.2 e.1 x := by
  have hhost : (inetPton (ipText x)).getD stale = x := by rw [inetPton, inetAton_ipText, Option.getD_some]
  simp only [isHostInNetwork, hhost, List.any_map, List.any_eq_true, Function.comp_def, beq_iff_eq]
  refine exists_congr fun e => and_congr_right fun he => ?_
  have hmask := netMask_eq ⟨32 - e.2, by have := h e he; omega⟩
  have hlen : 32 - (32 - e.2) = e.2 := by have := h e he; omega
  simp only [hlen] at hmask
  rw [Agree, Cidr.agree_iff_mask (by have := h e he; omega), ← hmask, ← UInt32.toBitVec_and, ← UInt32.toBitVec_and,
    UInt32.toBitVec_inj]

/-- **When the list of networks works.** For every list of entries and every address: the
list is made, and tells whether some entry agrees with the address in its first bits,
exactly if every length lies between 1 and 24. -/
theorem localnets_iff (stale : Nat → Net) (staleHost x : UInt32) {es : List (UInt32 × Nat)} (hne : es ≠ [])
    (hlens : ∀ e ∈ es, e.2 ≤ 32) :
    (∃ nets, pfrLocalnets stale (netsText es) = some nets ∧
      (isHostInNetwork nets staleHost (ipText x) = true ↔ ∃ e ∈ es, Agree e.2 e.1 x)) ↔ ∀ e ∈ es, 1 ≤ e.2 ∧ e.2 ≤ 24 := by
  constructor
  · intro h e he
    obtain ⟨nets, hnets, -⟩ := h
    by_contra hbad
    rw [pfrLocalnets_none hne hlens stale he hbad] at hnets
    cases hnets
  · intro h
    exact ⟨_, pfrLocalnets_some hne hlens stale h, isHostInNetwork_iff h staleHost x⟩

/-- The three private networks, and a host of the second. -/
theorem localnets_private : ∃ nets, pfrLocalnets (fun _ => ⟨0, 0⟩) "10.0.0.0/8,172.16.0.0/12,192.168.0.0/16".toList = some nets ∧
    isHostInNetwork nets 0 "172.20.1.2".toList = true := by
  have htext : netsText [(0x0A000000, 8), (0xAC100000, 12), (0xC0A80000, 16)] =
      "10.0.0.0/8,172.16.0.0/12,192.168.0.0/16".toList := by decide +kernel
  have hhost : ipText 0xAC140102 = "172.20.1.2".toList := by decide +kernel
  obtain ⟨nets, hnets, hiff⟩ := (localnets_iff (fun _ => ⟨0, 0⟩) 0 0xAC140102 (List.cons_ne_nil _ _) (by decide)).mpr
    (show ∀ e ∈ [((0x0A000000 : UInt32), 8), (0xAC100000, 12), (0xC0A80000, 16)], 1 ≤ e.2 ∧ e.2 ≤ 24 by decide)
  rw [htext] at hnets
  rw [hhost] at hiff
  exact ⟨nets, hnets, hiff.mpr (by decide +kernel)⟩

/-- The list of the configuration that comes with the program. -/
theorem localnets_shipped : ¬∀ (stale : Nat → Net) (staleHost x : UInt32) (es : List (UInt32 × Nat)), es ≠ [] →
    (∀ e ∈ es, e.2 ≤ 32) → ∃ nets, pfrLocalnets stale (netsText es) = some nets ∧
      (isHostInNetwork nets staleHost (ipText x) = true ↔ ∃ e ∈ es, Agree e.2 e.1 x) := by
  intro hall
  obtain ⟨nets, hnets, -⟩ := hall (fun _ => ⟨0, 0⟩) 0 0 [(0x0A000000, 8), (0xAC100000, 12), (0xC0A80000, 16), (0x010005E6, 32)]
    (List.cons_ne_nil _ _) (by decide)
  have hnone : pfrLocalnets (fun _ => ⟨0, 0⟩)
      (netsText [(0x0A000000, 8), (0xAC100000, 12), (0xC0A80000, 16), (0x010005E6, 32)]) = none := by
    decide +kernel
  rw [hnone] at hnets
  cases hnets

end Pfr

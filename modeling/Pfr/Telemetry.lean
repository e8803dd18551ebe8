import Pfr.Lib.Lts
import Pfr.Lib.Slide

/- Telemetry of the peers. One `performance_peers` thread a PE goes over its peers again and
   again; in round n it adds a sample for each peer and has `cleanup` take out the one of
   round n - 2, which it deletes. `pfr_calc_avg_rtt` asks for the newest sample of a peer by
   `get`. The three calls hold `mtx_perf`, so each is one step:

     `add pe`      of the thread of `pe`, for the peer it is at
     `cleanup pe`  of the same thread, for the same peer
     `next pe`     the thread has gone over its peers
     `get k`       of the main thread, at any time

   The calls made are logged, newest first, with what they return. Proved here:
   1. `KeyFacts.add`, `KeyFacts.cleanup`, `KeyFacts.frame`: what each call does to the samples
      of one peer, and that it leaves those of the others;
   2. `PerfInv.move`: the invariant of every interleaving;
   3. `window_of_two`: what the container holds, what is handed back and what `get` returns. -/
namespace Pfr

open Std Slide

/-! ## The container -/

abbrev Window := ExtTreeMap Int (Option Nat)

/-- `ppm`, by PE, peer and number. A sample is the number of its allocation; NULL is `none`. -/
abbrev Ppm := ExtTreeMap String (ExtTreeMap Int Window)

def Ppm.add (peIp : String) (peerId perfId : Int) (tp : Option Nat) (ppm : Ppm) : Ppm :=
  ppm.upd peIp (·.upd peerId (·.insert perfId tp))

/-- The sample taken out, or NULL. -/
def Ppm.cleanup (peIp : String) (peerId perfId perfDeep : Int) (ppm : Ppm) : Option Nat × Ppm :=
  let perfMin := perfId - perfDeep
  if perfMin < 0 then (none, ppm)
  else
    -- `operator[]` puts NULL where there is nothing
    let ppm := ppm.upd peIp (·.upd peerId (·.upd perfMin id))
    let p := ((ppm.idx peIp).idx peerId).idx perfMin
    (p, ppm.upd peIp (·.upd peerId (·.erase perfMin)))

/-- The last sample of the first PE that has the peer; `none` where `std::prev` steps back
from the end of an empty map. -/
def Ppm.get (peerId : Int) (ppm : Ppm) : Option (Option Nat) :=
  match ppm.keys.find? fun dstIp => (ppm.idx dstIp).contains peerId with
  | none => some none
  | some dstIp =>
    let samples := (ppm.idx dstIp).idx peerId
    samples.keys.getLast?.map samples.idx

/-! ## The threads -/

/-- The peers of each PE. A peer belongs to one. -/
structure AsbrPeers where
  peers : String → List Int
  nodup : ∀ pe, (peers pe).Nodup
  one : ∀ pe pe' k, k ∈ peers pe → k ∈ peers pe' → pe = pe'

/-- Where a thread stands: its round, the peers still to do, and whether the sample of the
first of them is in. -/
structure Loop where
  perfId : Nat
  rest : List Int
  added : Bool
  deriving DecidableEq, Repr

inductive PerfCall where
  | add : (peIp : String) → (peerId : Int) → (perfId tp : Nat) → PerfCall
  | cleanup : (peIp : String) → (peerId : Int) → (perfId : Nat) → (p : Option Nat) → PerfCall
  deriving DecidableEq, Repr

structure Perf where
  ppm : Ppm
  /-- The number of the next allocation. -/
  fresh : Nat
  loops : String → Loop
  /-- The calls made, newest first. -/
  log : List PerfCall

def Perf.start (a : AsbrPeers) : Perf where
  ppm := ∅
  fresh := 0
  loops pe := ⟨0, a.peers pe, false⟩
  log := []

inductive PerfEvent where
  | add : String → PerfEvent
  | cleanup : String → PerfEvent
  | next : String → PerfEvent
  | get : Int → PerfEvent

def setLoop (loops : String → Loop) (pe : String) (l : Loop) : String → Loop :=
  fun pe' => if pe' = pe then l else loops pe'

def perfStep (a : AsbrPeers) (s : Perf) : PerfEvent → Option Perf
  | .add pe => match s.loops pe with
    | ⟨n, k :: rest, false⟩ => some
      { ppm := s.ppm.add pe k n (some s.fresh)
        fresh := s.fresh + 1
        loops := setLoop s.loops pe ⟨n, k :: rest, true⟩
        log := .add pe k n s.fresh :: s.log }
    | _ => none
  | .cleanup pe => match s.loops pe with
    | ⟨n, k :: rest, true⟩ =>
      let out := s.ppm.cleanup pe k n 2
      some { s with
        ppm := out.2
        loops := setLoop s.loops pe ⟨n, rest, false⟩
        log := .cleanup pe k n out.1 :: s.log }
    | _ => none
  | .next pe => match s.loops pe with
    | ⟨n, [], _⟩ => some { s with loops := setLoop s.loops pe ⟨n + 1, a.peers pe, false⟩ }
    | _ => none
  | .get k => (s.ppm.get k).map fun _ => s

/-- What a step can do. -/
inductive PerfMove (a : AsbrPeers) (s : Perf) : Perf → Prop where
  | add (pe : String) (n : Nat) (k : Int) (rest : List Int) : s.loops pe = ⟨n, k :: rest, false⟩ →
      PerfMove a s ⟨s.ppm.add pe k n (some s.fresh), s.fresh + 1, setLoop s.loops pe ⟨n, k :: rest, true⟩,
        .add pe k n s.fresh :: s.log⟩
  | cleanup (pe : String) (n : Nat) (k : Int) (rest : List Int) : s.loops pe = ⟨n, k :: rest, true⟩ →
      PerfMove a s ⟨(s.ppm.cleanup pe k n 2).2, s.fresh, setLoop s.loops pe ⟨n, rest, false⟩,
        .cleanup pe k n (s.ppm.cleanup pe k n 2).1 :: s.log⟩
  | next (pe : String) (n : Nat) (added : Bool) : s.loops pe = ⟨n, [], added⟩ →
      PerfMove a s ⟨s.ppm, s.fresh, setLoop s.loops pe ⟨n + 1, a.peers pe, false⟩, s.log⟩
  | get : PerfMove a s s

theorem perfMove_of_step {a : AsbrPeers} {s t : Perf} {e : PerfEvent} (h : perfStep a s e = some t) : PerfMove a s t := by
  cases e with
  | add pe =>
    simp only [perfStep] at h
    split at h
    · next n k rest hl =>
      cases h
      exact .add pe n k rest hl
    · cases h
  | cleanup pe =>
    simp only [perfStep] at h
    split at h
    · next n k rest hl =>
      cases h
      exact .cleanup pe n k rest hl
    · cases h
  | next pe =>
    simp only [perfStep] at h
    split at h
    · next n added hl =>
      cases h
      exact .next pe n added hl
    · cases h
  | get k =>
    obtain ⟨x, -, rfl⟩ := Option.map_eq_some_iff.mp h
    exact .get

/-! ## The log -/

/-- A call about a peer of a PE. -/
def PerfCall.isAbout (pe : String) (k : Int) : PerfCall → Bool
  | .add pe' k' _ _ => pe' = pe ∧ k' = k
  | .cleanup pe' k' _ _ => pe' = pe ∧ k' = k

@[simp] theorem isAbout_add {pe : String} {k : Int} {n p : Nat} : (PerfCall.add pe k n p).isAbout pe k = true :=
  decide_eq_true ⟨rfl, rfl⟩

@[simp] theorem isAbout_cleanup {pe : String} {k : Int} {n : Nat} {p : Option Nat} :
    (PerfCall.cleanup pe k n p).isAbout pe k = true := decide_eq_true ⟨rfl, rfl⟩

/-- The samples added for a peer, oldest first. -/
def perfSamples (pe : String) (k : Int) : List PerfCall → List Nat
  | [] => []
  | .add pe' k' _ p :: log => if pe' = pe ∧ k' = k then perfSamples pe k log ++ [p] else perfSamples pe k log
  | .cleanup _ _ _ _ :: log => perfSamples pe k log

/-- How often `cleanup` was called for it. -/
def perfCleanups (pe : String) (k : Int) : List PerfCall → Nat
  | [] => 0
  | .add _ _ _ _ :: log => perfCleanups pe k log
  | .cleanup pe' k' _ _ :: log => if pe' = pe ∧ k' = k then perfCleanups pe k log + 1 else perfCleanups pe k log

/-- The samples handed back for deletion, newest first. -/
def handedBack : List PerfCall → List Nat
  | [] => []
  | .cleanup _ _ _ (some p) :: log => p :: handedBack log
  | _ :: log => handedBack log

/-- The newest sample of a peer, whatever the PE. -/
def newestSample (k : Int) : List PerfCall → Option Nat
  | [] => none
  | .add _ k' _ p :: log => if k' = k then some p else newestSample k log
  | .cleanup _ _ _ _ :: log => newestSample k log

/-- What the cleanup of round n hands back. -/
def handedAt (samples : List Nat) (n : Nat) : Option Nat := if n < 2 then none else samples[n - 2]?

/-! ## One peer -/

/-- What the newest call about a peer says of the counts. -/
def LastCall (samples : List Nat) (m : Nat) : PerfCall → Prop
  | .add _ _ n _ => samples.length = n + 1 ∧ m = n
  | .cleanup _ _ n _ => samples.length = n + 1 ∧ m = n + 1

/-- The samples of one peer: `peers` is the entry of its PE. -/
structure KeyFacts (pe : String) (k : Int) (log : List PerfCall) (peers : ExtTreeMap Int Window) : Prop where
  add_mem : ∀ n p, .add pe k n p ∈ log ↔ (perfSamples pe k log)[n]? = some p
  cleanup_mem : ∀ n p, .cleanup pe k n p ∈ log ↔ n < perfCleanups pe k log ∧ p = handedAt (perfSamples pe k log) n
  behind : perfCleanups pe k log ≤ (perfSamples pe k log).length
  last : ∀ c, log.find? (·.isAbout pe k) = some c → LastCall (perfSamples pe k log) (perfCleanups pe k log) c
  window : Holds 2 ((perfSamples pe k log).map some) (perfCleanups pe k log) (peers.idx k)
  key : k ∈ peers ↔ perfSamples pe k log ≠ []

section Key
variable {pe : String} {k : Int} {log : List PerfCall} {peers : ExtTreeMap Int Window}

theorem KeyFacts.nil : KeyFacts pe k [] ∅ where
  add_mem := by simp [perfSamples]
  cleanup_mem := by simp [perfCleanups]
  behind := Nat.le_refl _
  last := by simp
  window := by
    rw [ExtTreeMap.idx_empty]
    exact Holds.empty
  key := by simp [perfSamples]

theorem perfSamples_other {c : PerfCall} {log : List PerfCall} (hc : c.isAbout pe k = false) :
    perfSamples pe k (c :: log) = perfSamples pe k log := by
  cases c with
  | add pe' k' n p => exact if_neg (of_decide_eq_false hc)
  | cleanup pe' k' n p => rfl

theorem perfCleanups_other {c : PerfCall} {log : List PerfCall} (hc : c.isAbout pe k = false) :
    perfCleanups pe k (c :: log) = perfCleanups pe k log := by
  cases c with
  | add pe' k' n p => rfl
  | cleanup pe' k' n p => exact if_neg (of_decide_eq_false hc)

/-- A call about another peer, or of another PE. -/
theorem KeyFacts.frame (h : KeyFacts pe k log peers) {c : PerfCall} {peers' : ExtTreeMap Int Window} (hc : c.isAbout pe k = false)
    (hpeers : peers'[k]? = peers[k]?) : KeyFacts pe k (c :: log) peers' := by
  have hsamples : perfSamples pe k (c :: log) = perfSamples pe k log := perfSamples_other hc
  have hcleanups : perfCleanups pe k (c :: log) = perfCleanups pe k log := perfCleanups_other hc
  have hne : ∀ c', c'.isAbout pe k = true → (c' ∈ c :: log ↔ c' ∈ log) := by
    intro c' hc'
    rw [List.mem_cons]
    refine ⟨fun hor => hor.resolve_left ?_, Or.inr⟩
    rintro rfl
    rw [hc] at hc'
    cases hc'
  refine ⟨?_, ?_, ?_, ?_, ?_, ?_⟩
  · intro n p
    rw [hne _ isAbout_add, hsamples]
    exact h.add_mem n p
  · intro n p
    rw [hne _ isAbout_cleanup, hsamples, hcleanups]
    exact h.cleanup_mem n p
  · rw [hsamples, hcleanups]
    exact h.behind
  · intro c' hfind
    rw [List.find?_cons_of_neg (by rw [hc]; exact Bool.false_ne_true)] at hfind
    rw [hsamples, hcleanups]
    exact h.last c' hfind
  · rw [hsamples, hcleanups, ExtTreeMap.idx_congr hpeers]
    exact h.window
  · rw [hsamples, ExtTreeMap.mem_iff_isSome_getElem?, hpeers, ← ExtTreeMap.mem_iff_isSome_getElem?]
    exact h.key

theorem handedAt_append {samples : List Nat} {n : Nat} (hn : n < samples.length) (p : Nat) :
    handedAt (samples ++ [p]) n = handedAt samples n := by
  unfold handedAt
  rw [List.getElem?_append_left (by omega)]

/-- **`add`**: the sample goes in under its number. -/
theorem KeyFacts.add (h : KeyFacts pe k log peers) {n p : Nat} (hn : perfCleanups pe k log = n)
    (hlen : (perfSamples pe k log).length = n) :
    KeyFacts pe k (.add pe k n p :: log) (peers.upd k (·.insert n (some p))) := by
  have hsamples : perfSamples pe k (.add pe k n p :: log) = perfSamples pe k log ++ [p] := if_pos ⟨rfl, rfl⟩
  have hcleanups : perfCleanups pe k (.add pe k n p :: log) = n := hn
  have hwindow := h.window.put (by rw [List.length_map]; omega) (some p)
  rw [List.length_map, hlen, hn] at hwindow
  refine ⟨?_, ?_, ?_, ?_, ?_, ?_⟩
  · intro i q
    rw [hsamples, List.mem_cons, h.add_mem]
    by_cases hi : i = n
    · subst hi
      rw [← hlen, List.getElem?_concat_length, List.getElem?_eq_none (Nat.le_refl _)]
      simp [eq_comm]
    · rw [List.getElem?_append]
      split
      · simp [hi]
      · next hge =>
        rw [List.getElem?_eq_none (by omega), List.getElem?_eq_none (by simp; omega)]
        simp [hi]
  · intro i q
    have hcall : (PerfCall.cleanup pe k i q ∈ PerfCall.add pe k n p :: log) ↔ PerfCall.cleanup pe k i q ∈ log := by simp
    rw [hcall, h.cleanup_mem, hsamples, hcleanups, hn]
    constructor
    · rintro ⟨hi, hq⟩
      exact ⟨hi, by rw [handedAt_append (by omega)]; exact hq⟩
    · rintro ⟨hi, hq⟩
      exact ⟨hi, by rw [handedAt_append (by omega)] at hq; exact hq⟩
  · rw [hsamples, hcleanups, List.length_append]
    omega
  · intro c hfind
    rw [List.find?_cons_of_pos (by exact isAbout_add)] at hfind
    cases hfind
    rw [hsamples, hcleanups]
    exact ⟨by rw [List.length_append, hlen]; rfl, rfl⟩
  · rw [hsamples, hcleanups, ExtTreeMap.idx_upd, if_pos rfl, List.map_append]
    exact hwindow
  · rw [hsamples]
    simp

/-- **`cleanup`** takes out the sample of its number less two, and hands it back. -/
theorem KeyFacts.cleanup (h : KeyFacts pe k log peers) {n : Nat} {p : Option Nat} {peers' : ExtTreeMap Int Window}
    (hn : perfCleanups pe k log = n) (hlen : (perfSamples pe k log).length = n + 1)
    (hp : p = handedAt (perfSamples pe k log) n)
    (hwindow : Holds 2 ((perfSamples pe k log).map some) (n + 1) (peers'.idx k)) (hkey : k ∈ peers') :
    KeyFacts pe k (.cleanup pe k n p :: log) peers' := by
  have hsamples : perfSamples pe k (.cleanup pe k n p :: log) = perfSamples pe k log := rfl
  have hcleanups : perfCleanups pe k (.cleanup pe k n p :: log) = n + 1 := by
    rw [← hn]
    exact if_pos ⟨rfl, rfl⟩
  refine ⟨?_, ?_, ?_, ?_, ?_, ?_⟩
  · intro i q
    have hcall : (PerfCall.add pe k i q ∈ PerfCall.cleanup pe k n p :: log) ↔ PerfCall.add pe k i q ∈ log := by simp
    rw [hcall, hsamples]
    exact h.add_mem i q
  · intro i q
    rw [hsamples, hcleanups, List.mem_cons, h.cleanup_mem, hn]
    constructor
    · rintro (heq | ⟨hi, hq⟩)
      · cases heq
        exact ⟨by omega, hp⟩
      · exact ⟨by omega, hq⟩
    · rintro ⟨hi, hq⟩
      by_cases hlast : i = n
      · subst hlast
        exact Or.inl (by rw [hq, hp])
      · exact Or.inr ⟨by omega, hq⟩
  · rw [hsamples, hcleanups, hlen]
  · intro c hfind
    rw [List.find?_cons_of_pos (by exact isAbout_cleanup)] at hfind
    cases hfind
    rw [hsamples, hcleanups]
    exact ⟨hlen, rfl⟩
  · rw [hsamples, hcleanups]
    exact hwindow
  · rw [hsamples]
    refine ⟨fun _ hnil => ?_, fun _ => hkey⟩
    rw [hnil] at hlen
    cases hlen

end Key

/-! ## The container's entries -/

section Entries
variable {ppm : Ppm} {pe pe' : String} {k : Int} {n : Nat}

theorem add_idx (tp : Option Nat) : (ppm.add pe k n tp).idx pe' =
    if pe = pe' then (ppm.idx pe).upd k (·.insert n tp) else ppm.idx pe' := ExtTreeMap.idx_upd _ _ _ _

theorem cleanup_idx_other (hne : pe ≠ pe') : (ppm.cleanup pe k n 2).2.idx pe' = ppm.idx pe' := by
  unfold Ppm.cleanup
  simp only
  split
  · rfl
  · rw [ExtTreeMap.idx_upd, if_neg hne, ExtTreeMap.idx_upd, if_neg hne]

theorem cleanup_getElem?_other {k' : Int} (hne : k ≠ k') : ((ppm.cleanup pe k n 2).2.idx pe)[k']? = (ppm.idx pe)[k']? := by
  unfold Ppm.cleanup
  simp only
  split
  · rfl
  · rw [ExtTreeMap.idx_upd, if_pos rfl, ExtTreeMap.getElem?_upd, if_neg hne, ExtTreeMap.idx_upd, if_pos rfl,
      ExtTreeMap.getElem?_upd, if_neg hne]

/-- What `cleanup` returns and leaves where the samples up to n are in. -/
theorem cleanup_window {samples : List Nat} (h : Holds 2 (samples.map some) n ((ppm.idx pe).idx k)) (hkey : k ∈ ppm.idx pe) :
    (ppm.cleanup pe k n 2).1 = handedAt samples n ∧
      Holds 2 (samples.map some) (n + 1) (((ppm.cleanup pe k n 2).2.idx pe).idx k) ∧
      k ∈ (ppm.cleanup pe k n 2).2.idx pe := by
  unfold Ppm.cleanup handedAt
  by_cases hn : n < 2
  · simp only
    rw [if_pos (by omega), if_pos hn]
    exact ⟨rfl, h.early hn, hkey⟩
  · obtain ⟨hat, htake⟩ := h.take (by omega)
    have hmin : (n : Int) - (2 : Nat) = (n : Int) - 2 := rfl
    rw [hmin] at hat htake
    simp only
    rw [if_neg (by omega), if_neg hn]
    simp only [ExtTreeMap.idx_upd, if_true, id, ExtTreeMap.mem_upd, true_or, and_true]
    constructor
    · rw [ExtTreeMap.idx_eq, hat, List.getElem?_map]
      cases samples[n - 2]? with
      | none => rfl
      | some p => rfl
    · intro j
      rw [← htake j, ExtTreeMap.getElem?_erase, ExtTreeMap.getElem?_erase, ExtTreeMap.getElem?_upd]
      simp only [LawfulEqCmp.compare_eq_iff_eq]
      split
      · rfl
      · rfl

end Entries

/-! ## What the log says -/

theorem mem_handedBack {p : Nat} : ∀ {log : List PerfCall}, p ∈ handedBack log ↔ ∃ pe k n, .cleanup pe k n (some p) ∈ log
  | [] => by simp [handedBack]
  | .add _ _ _ _ :: log => by
    show p ∈ handedBack log ↔ _
    rw [mem_handedBack]
    simp
  | .cleanup _ _ _ none :: log => by
    show p ∈ handedBack log ↔ _
    rw [mem_handedBack]
    simp
  | .cleanup pe k n (some q) :: log => by
    have ih : p ∈ handedBack log ↔ ∃ pe k n, .cleanup pe k n (some p) ∈ log := mem_handedBack
    rw [handedBack, List.mem_cons, ih]
    constructor
    · rintro (rfl | ⟨pe', k', n', hmem⟩)
      · exact ⟨pe, k, n, List.mem_cons_self⟩
      · exact ⟨pe', k', n', List.mem_cons_of_mem _ hmem⟩
    · rintro ⟨pe', k', n', hmem⟩
      rcases List.mem_cons.mp hmem with heq | hmem
      · cases heq
        exact Or.inl rfl
      · exact Or.inr ⟨pe', k', n', hmem⟩

theorem newestSample_mem {k : Int} {p : Nat} : ∀ {log : List PerfCall}, newestSample k log = some p → ∃ pe n, .add pe k n p ∈ log
  | .add pe k' n q :: log, h => by
    rw [newestSample] at h
    split at h
    · next hk =>
      cases h
      exact ⟨pe, n, hk ▸ List.mem_cons_self⟩
    · obtain ⟨pe', n', hmem⟩ := newestSample_mem h
      exact ⟨pe', n', List.mem_cons_of_mem _ hmem⟩
  | .cleanup _ _ _ _ :: log, h => by
    obtain ⟨pe', n', hmem⟩ := newestSample_mem (show newestSample k log = some p from h)
    exact ⟨pe', n', List.mem_cons_of_mem _ hmem⟩

theorem newestSample_none {k : Int} : ∀ {log : List PerfCall}, newestSample k log = none → ∀ pe n q, .add pe k n q ∉ log
  | [], _, _, _, _, hmem => absurd hmem List.not_mem_nil
  | .add pe' k' n' p :: log, hnone, pe, n, q, hmem => by
    rw [newestSample] at hnone
    split at hnone
    · cases hnone
    · next hk =>
      rcases List.mem_cons.mp hmem with heq | hmem
      · cases heq
        exact hk rfl
      · exact newestSample_none hnone pe n q hmem
  | .cleanup _ _ _ _ :: log, hnone, pe, n, q, hmem => by
    rcases List.mem_cons.mp hmem with heq | hmem
    · cases heq
    · exact newestSample_none (show newestSample k log = none from hnone) pe n q hmem

theorem handedAt_some {samples : List Nat} {n p : Nat} (h : handedAt samples n = some p) : 2 ≤ n ∧ samples[n - 2]? = some p := by
  unfold handedAt at h
  split at h
  · cases h
  · next hn => exact ⟨by omega, h⟩

/-! ## The invariant -/

/-- How many cleanups of a peer its thread has done. -/
def Loop.cleaned (l : Loop) (k : Int) : Nat := if k ∈ l.rest then l.perfId else l.perfId + 1

/-- How many samples of it the thread has added. -/
def Loop.filled (l : Loop) (k : Int) : Nat :=
  if l.added = true ∧ l.rest.head? = some k then l.perfId + 1 else l.cleaned k

theorem Loop.filled_before (n : Nat) (rest : List Int) (k : Int) :
    (⟨n, rest, false⟩ : Loop).filled k = (⟨n, rest, false⟩ : Loop).cleaned k :=
  if_neg fun h => Bool.false_ne_true h.1

/-- Only the peer the thread is at can have a sample more. -/
theorem Loop.filled_ne {n : Nat} {k k' : Int} {rest : List Int} {added : Bool} (hne : k' ≠ k) :
    (⟨n, k :: rest, added⟩ : Loop).filled k' = (⟨n, k :: rest, added⟩ : Loop).cleaned k' := by
  apply if_neg
  rintro ⟨-, heq⟩
  exact hne (Option.some.inj heq).symm

structure PerfInv (a : AsbrPeers) (s : Perf) : Prop where
  suffix : ∀ pe, (s.loops pe).rest <:+ a.peers pe
  cleaned : ∀ pe k, k ∈ a.peers pe → perfCleanups pe k s.log = (s.loops pe).cleaned k
  filled : ∀ pe k, k ∈ a.peers pe → (perfSamples pe k s.log).length = (s.loops pe).filled k
  out : ∀ pe k, k ∉ a.peers pe → perfSamples pe k s.log = []
  key : ∀ pe k, KeyFacts pe k s.log (s.ppm.idx pe)
  fresh : ∀ pe k n p, .add pe k n p ∈ s.log → p < s.fresh
  distinct : ∀ pe k n pe' k' n' p, .add pe k n p ∈ s.log → .add pe' k' n' p ∈ s.log → pe = pe' ∧ k = k' ∧ n = n'
  handed : (handedBack s.log).Nodup
  newest : ∀ pe k, k ∈ a.peers pe → newestSample k s.log = (perfSamples pe k s.log).getLast?

theorem perfInv_start (a : AsbrPeers) : PerfInv a (Perf.start a) where
  suffix := fun pe => List.suffix_refl _
  cleaned := by
    intro pe k hk
    exact (if_pos hk).symm
  filled := by
    intro pe k hk
    have hzero : (⟨0, a.peers pe, false⟩ : Loop).filled k = 0 := by
      rw [Loop.filled_before]
      exact if_pos hk
    exact hzero.symm
  out := fun _ _ _ => rfl
  key := by
    intro pe k
    rw [show (Perf.start a).ppm = ∅ from rfl, ExtTreeMap.idx_empty]
    exact KeyFacts.nil
  fresh := fun _ _ _ _ h => absurd h List.not_mem_nil
  distinct := fun _ _ _ _ _ _ _ h => absurd h List.not_mem_nil
  handed := List.nodup_nil
  newest := fun _ _ _ => rfl

theorem setLoop_self (loops : String → Loop) (pe : String) (l : Loop) : setLoop loops pe l pe = l := if_pos rfl

theorem setLoop_other {loops : String → Loop} {pe pe' : String} (l : Loop) (h : pe' ≠ pe) :
    setLoop loops pe l pe' = loops pe' := if_neg h

/-- What holds of every thread after one of them moved. -/
theorem forall_setLoop {P : String → Loop → Prop} {loops : String → Loop} {pe : String} {l : Loop} (hself : P pe l)
    (hother : ∀ pe', pe' ≠ pe → P pe' (loops pe')) (pe' : String) : P pe' (setLoop loops pe l pe') := by
  by_cases hpe : pe' = pe
  · subst hpe
    rw [setLoop_self]
    exact hself
  · rw [setLoop_other l hpe]
    exact hother pe' hpe

section Step
variable {a : AsbrPeers} {s : Perf} {pe : String} {n : Nat} {k : Int} {rest : List Int}

theorem isAbout_other {c : PerfCall} {pe' : String} {k' : Int} (hc : c.isAbout pe k = true) (hne : ¬(pe' = pe ∧ k' = k)) :
    c.isAbout pe' k' = false := by
  cases c with
  | add pe'' k'' n p =>
    obtain ⟨rfl, rfl⟩ := of_decide_eq_true hc
    exact decide_eq_false fun h => hne ⟨h.1.symm, h.2.symm⟩
  | cleanup pe'' k'' n p =>
    obtain ⟨rfl, rfl⟩ := of_decide_eq_true hc
    exact decide_eq_false fun h => hne ⟨h.1.symm, h.2.symm⟩

/-- The thread has the sample of the first peer still to add. -/
theorem PerfInv.adding (h : PerfInv a s) (hl : s.loops pe = ⟨n, k :: rest, false⟩) :
    k ∈ a.peers pe ∧ perfCleanups pe k s.log = n ∧ (perfSamples pe k s.log).length = n := by
  have hsuffix := h.suffix pe
  rw [hl] at hsuffix
  have hk : k ∈ a.peers pe := hsuffix.subset List.mem_cons_self
  have hcleaned := h.cleaned pe k hk
  have hfilled := h.filled pe k hk
  rw [hl] at hcleaned hfilled
  refine ⟨hk, by rw [hcleaned, Loop.cleaned, if_pos List.mem_cons_self], ?_⟩
  rw [hfilled, Loop.filled_before, Loop.cleaned, if_pos List.mem_cons_self]

/-- The sample is in, the cleanup to come. -/
theorem PerfInv.cleaning (h : PerfInv a s) (hl : s.loops pe = ⟨n, k :: rest, true⟩) :
    k ∈ a.peers pe ∧ perfCleanups pe k s.log = n ∧ (perfSamples pe k s.log).length = n + 1 := by
  have hsuffix := h.suffix pe
  rw [hl] at hsuffix
  have hk : k ∈ a.peers pe := hsuffix.subset List.mem_cons_self
  have hcleaned := h.cleaned pe k hk
  have hfilled := h.filled pe k hk
  rw [hl] at hcleaned hfilled
  refine ⟨hk, by rw [hcleaned, Loop.cleaned, if_pos List.mem_cons_self], ?_⟩
  rw [hfilled, Loop.filled, if_pos ⟨rfl, rfl⟩]

/-- **A step that adds.** -/
theorem PerfInv.add (h : PerfInv a s) (hl : s.loops pe = ⟨n, k :: rest, false⟩) :
    PerfInv a ⟨s.ppm.add pe k n (some s.fresh), s.fresh + 1, setLoop s.loops pe ⟨n, k :: rest, true⟩,
      .add pe k n s.fresh :: s.log⟩ := by
  obtain ⟨hk, hcleanups, hlen⟩ := h.adding hl
  have hself : perfSamples pe k (.add pe k n s.fresh :: s.log) = perfSamples pe k s.log ++ [s.fresh] := if_pos ⟨rfl, rfl⟩
  have hother : ∀ pe' k', ¬(pe' = pe ∧ k' = k) → (PerfCall.add pe k n s.fresh).isAbout pe' k' = false :=
    fun pe' k' hne => isAbout_other isAbout_add hne
  have hnew : ∀ pe' k' n' p, .add pe' k' n' p ∈ (.add pe k n s.fresh :: s.log : List PerfCall) →
      (pe' = pe ∧ k' = k ∧ n' = n ∧ p = s.fresh) ∨ (.add pe' k' n' p ∈ s.log ∧ p < s.fresh) := by
    intro pe' k' n' p hmem
    rcases List.mem_cons.mp hmem with heq | hmem
    · cases heq
      exact Or.inl ⟨rfl, rfl, rfl, rfl⟩
    · exact Or.inr ⟨hmem, h.fresh pe' k' n' p hmem⟩
  refine ⟨?_, ?_, ?_, ?_, ?_, ?_, ?_, h.handed, ?_⟩
  · have hsuffix := h.suffix pe
    rw [hl] at hsuffix
    exact forall_setLoop (P := fun pe' l => l.rest <:+ a.peers pe') hsuffix fun pe' _ => h.suffix pe'
  · have hsame := h.cleaned pe
    rw [hl] at hsame
    exact forall_setLoop (P := fun pe' l => ∀ k' ∈ a.peers pe', perfCleanups pe' k' s.log = l.cleaned k') hsame
      fun pe' _ => h.cleaned pe'
  · refine forall_setLoop (P := fun pe' l => ∀ k' ∈ a.peers pe',
      (perfSamples pe' k' (.add pe k n s.fresh :: s.log)).length = l.filled k') ?_ ?_
    · intro k' hk'
      have hsame := h.filled pe k' hk'
      rw [hl] at hsame
      by_cases hkk : k' = k
      · subst hkk
        rw [hself, List.length_append, hlen, Loop.filled, if_pos ⟨rfl, rfl⟩]
        rfl
      · rw [perfSamples_other (hother _ _ fun hboth => hkk hboth.2), hsame, Loop.filled_before, Loop.filled_ne hkk]
        rfl
    · intro pe' hpe k' hk'
      rw [perfSamples_other (hother _ _ fun hboth => hpe hboth.1)]
      exact h.filled pe' k' hk'
  · intro pe' k' hk'
    have hne : ¬(pe' = pe ∧ k' = k) := by
      rintro ⟨rfl, rfl⟩
      exact hk' hk
    rw [perfSamples_other (hother _ _ hne)]
    exact h.out pe' k' hk'
  · intro pe' k'
    rw [add_idx]
    by_cases hpe : pe = pe'
    · subst hpe
      rw [if_pos rfl]
      by_cases hkk : k = k'
      · subst hkk
        exact (h.key pe k).add hcleanups hlen
      · exact (h.key pe k').frame (hother _ _ fun hboth => hkk hboth.2.symm) (by rw [ExtTreeMap.getElem?_upd, if_neg hkk])
    · rw [if_neg hpe]
      exact (h.key pe' k').frame (hother _ _ fun hboth => hpe hboth.1.symm) rfl
  · intro pe' k' n' p hmem
    rcases hnew pe' k' n' p hmem with ⟨-, -, -, rfl⟩ | ⟨-, hlt⟩
    · exact Nat.lt_succ_self _
    · exact Nat.lt_succ_of_lt hlt
  · intro pe₁ k₁ n₁ pe₂ k₂ n₂ p h₁ h₂
    rcases hnew pe₁ k₁ n₁ p h₁ with ⟨rfl, rfl, rfl, hp⟩ | ⟨h₁, hlt₁⟩
    · rcases hnew pe₂ k₂ n₂ p h₂ with ⟨rfl, rfl, rfl, -⟩ | ⟨-, hlt₂⟩
      · exact ⟨rfl, rfl, rfl⟩
      · omega
    · rcases hnew pe₂ k₂ n₂ p h₂ with ⟨-, -, -, hp⟩ | ⟨h₂, -⟩
      · omega
      · exact h.distinct pe₁ k₁ n₁ pe₂ k₂ n₂ p h₁ h₂
  · intro pe' k' hk'
    by_cases hkk : k = k'
    · subst hkk
      obtain rfl : pe' = pe := a.one pe' pe k hk' hk
      rw [hself, List.getLast?_concat]
      exact if_pos rfl
    · rw [perfSamples_other (hother _ _ fun hboth => hkk hboth.2.symm), ← h.newest pe' k' hk']
      exact if_neg hkk

/-- **A step that cleans up.** -/
theorem PerfInv.cleanup (h : PerfInv a s) (hl : s.loops pe = ⟨n, k :: rest, true⟩) :
    PerfInv a ⟨(s.ppm.cleanup pe k n 2).2, s.fresh, setLoop s.loops pe ⟨n, rest, false⟩,
      .cleanup pe k n (s.ppm.cleanup pe k n 2).1 :: s.log⟩ := by
  obtain ⟨hk, hcleanups, hlen⟩ := h.cleaning hl
  have hkeyk := h.key pe k
  have hwindow := hkeyk.window
  rw [hcleanups] at hwindow
  have hin : k ∈ s.ppm.idx pe := hkeyk.key.mpr fun hnil => by rw [hnil] at hlen; cases hlen
  obtain ⟨hp, hleft, hstays⟩ := cleanup_window hwindow hin
  generalize hout : (s.ppm.cleanup pe k n 2).1 = p at hp ⊢
  have hother : ∀ pe' k', ¬(pe' = pe ∧ k' = k) → (PerfCall.cleanup pe k n p).isAbout pe' k' = false :=
    fun pe' k' hne => isAbout_other isAbout_cleanup hne
  have hcall : ∀ pe' k' n' q, .add pe' k' n' q ∈ (.cleanup pe k n p :: s.log : List PerfCall) → .add pe' k' n' q ∈ s.log := by
    intro pe' k' n' q hmem
    rcases List.mem_cons.mp hmem with heq | hmem
    · cases heq
    · exact hmem
  have hsuffix := h.suffix pe
  rw [hl] at hsuffix
  have hnodup : (k :: rest).Nodup := hsuffix.sublist.nodup (a.nodup pe)
  have hkrest : k ∉ rest := (List.nodup_cons.mp hnodup).1
  refine ⟨?_, ?_, ?_, h.out, ?_, ?_, ?_, ?_, h.newest⟩
  · exact forall_setLoop (P := fun pe' l => l.rest <:+ a.peers pe') ((List.suffix_cons k rest).trans hsuffix)
      fun pe' _ => h.suffix pe'
  · refine forall_setLoop (P := fun pe' l => ∀ k' ∈ a.peers pe',
      perfCleanups pe' k' (.cleanup pe k n p :: s.log) = l.cleaned k') ?_ ?_
    · intro k' hk'
      have hsame := h.cleaned pe k' hk'
      rw [hl] at hsame
      by_cases hkk : k' = k
      · subst hkk
        rw [Loop.cleaned, if_neg hkrest, ← hcleanups]
        exact if_pos ⟨rfl, rfl⟩
      · rw [perfCleanups_other (hother _ _ fun hboth => hkk hboth.2), hsame]
        simp [Loop.cleaned, hkk]
    · intro pe' hpe k' hk'
      rw [perfCleanups_other (hother _ _ fun hboth => hpe hboth.1)]
      exact h.cleaned pe' k' hk'
  · refine forall_setLoop (P := fun pe' l => ∀ k' ∈ a.peers pe', (perfSamples pe' k' s.log).length = l.filled k') ?_
      fun pe' _ => h.filled pe'
    intro k' hk'
    have hsame := h.filled pe k' hk'
    rw [hl] at hsame
    rw [Loop.filled_before, Loop.cleaned]
    by_cases hkk : k' = k
    · subst hkk
      rw [if_neg hkrest]
      exact hlen
    · rw [Loop.filled_ne hkk] at hsame
      simpa [Loop.cleaned, hkk] using hsame
  · intro pe' k'
    by_cases hpe : pe = pe'
    · subst hpe
      by_cases hkk : k = k'
      · subst hkk
        exact hkeyk.cleanup hcleanups hlen hp hleft hstays
      · exact (h.key pe k').frame (hother _ _ fun hboth => hkk hboth.2.symm) (cleanup_getElem?_other hkk)
    · rw [cleanup_idx_other hpe]
      exact (h.key pe' k').frame (hother _ _ fun hboth => hpe hboth.1.symm) rfl
  · intro pe' k' n' q hmem
    exact h.fresh pe' k' n' q (hcall _ _ _ _ hmem)
  · intro pe₁ k₁ n₁ pe₂ k₂ n₂ q h₁ h₂
    exact h.distinct pe₁ k₁ n₁ pe₂ k₂ n₂ q (hcall _ _ _ _ h₁) (hcall _ _ _ _ h₂)
  · cases p with
    | none => exact h.handed
    | some q =>
      refine List.nodup_cons.mpr ⟨?_, h.handed⟩
      intro hback
      -- it would be the sample of the same number, which was not yet due
      obtain ⟨pe', k', n', hmem⟩ := mem_handedBack.mp hback
      obtain ⟨hbefore, hq⟩ := ((h.key pe' k').cleanup_mem n' (some q)).mp hmem
      obtain ⟨htwo, hat⟩ := handedAt_some hp.symm
      obtain ⟨htwo', hat'⟩ := handedAt_some hq.symm
      obtain ⟨rfl, rfl, hnum⟩ := h.distinct _ _ _ _ _ _ q ((hkeyk.add_mem _ _).mpr hat) (((h.key pe' k').add_mem _ _).mpr hat')
      omega

/-- **A step that begins the next round.** -/
theorem PerfInv.next {added : Bool} (h : PerfInv a s) (hl : s.loops pe = ⟨n, [], added⟩) :
    PerfInv a ⟨s.ppm, s.fresh, setLoop s.loops pe ⟨n + 1, a.peers pe, false⟩, s.log⟩ := by
  refine ⟨?_, ?_, ?_, h.out, h.key, h.fresh, h.distinct, h.handed, h.newest⟩
  · exact forall_setLoop (P := fun pe' l => l.rest <:+ a.peers pe') (List.suffix_refl _) fun pe' _ => h.suffix pe'
  · refine forall_setLoop (P := fun pe' l => ∀ k' ∈ a.peers pe', perfCleanups pe' k' s.log = l.cleaned k') ?_
      fun pe' _ => h.cleaned pe'
    intro k' hk'
    have hsame := h.cleaned pe k' hk'
    rw [hl] at hsame
    rw [hsame, Loop.cleaned, Loop.cleaned, if_pos hk', if_neg List.not_mem_nil]
  · refine forall_setLoop (P := fun pe' l => ∀ k' ∈ a.peers pe', (perfSamples pe' k' s.log).length = l.filled k') ?_
      fun pe' _ => h.filled pe'
    intro k' hk'
    have hsame := h.filled pe k' hk'
    have hhead : ¬(added = true ∧ ([] : List Int).head? = some k') := fun hboth => by cases hboth.2
    rw [hl, Loop.filled, if_neg hhead, Loop.cleaned, if_neg List.not_mem_nil] at hsame
    rw [hsame, Loop.filled_before, Loop.cleaned, if_pos hk']

theorem PerfInv.move {t : Perf} (h : PerfInv a s) (hm : PerfMove a s t) : PerfInv a t := by
  cases hm with
  | add pe n k rest hl => exact h.add hl
  | cleanup pe n k rest hl => exact h.cleanup hl
  | next pe n added hl => exact h.next hl
  | get => exact h

end Step

/-! ## Every interleaving -/

def AnyPerf (_ : Perf) (_ : PerfEvent) : Prop := True

instance (s : Perf) (e : PerfEvent) : Decidable (AnyPerf s e) := inferInstanceAs (Decidable True)

theorem perfInv_of_path {a : AsbrPeers} {s : Perf} (h : Lts.Path (perfStep a) AnyPerf (Perf.start a) s) : PerfInv a s :=
  h.invariant (perfInv_start a) fun _ _ _ hI _ hs => hI.move (perfMove_of_step hs)

section Reached
variable {a : AsbrPeers} {s : Perf} (h : PerfInv a s)

include h

theorem PerfInv.newest_none {k : Int} (hnone : ∀ pe, perfSamples pe k s.log = []) : newestSample k s.log = none := by
  cases hnew : newestSample k s.log with
  | none => rfl
  | some p =>
    obtain ⟨pe, n, hmem⟩ := newestSample_mem hnew
    have hat := ((h.key pe k).add_mem n p).mp hmem
    rw [hnone pe] at hat
    cases hat

/-- **`get` returns the newest sample**, and never steps back in an empty map. -/
theorem PerfInv.get_eq (k : Int) : s.ppm.get k = some (newestSample k s.log) := by
  unfold Ppm.get
  cases hfind : s.ppm.keys.find? fun dstIp => (s.ppm.idx dstIp).contains k with
  | none =>
    have hnone : ∀ pe, perfSamples pe k s.log = [] := by
      intro pe
      by_contra hne
      have hin : k ∈ s.ppm.idx pe := (h.key pe k).key.mpr hne
      by_cases hpe : pe ∈ s.ppm
      · exact List.find?_eq_none.mp hfind pe (ExtTreeMap.mem_keys.mpr hpe) (ExtTreeMap.mem_iff_contains.mp hin)
      · rw [ExtTreeMap.idx_of_not_mem hpe] at hin
        exact ExtTreeMap.not_mem_empty hin
    rw [h.newest_none hnone]
  | some pe =>
    have hin : k ∈ s.ppm.idx pe := ExtTreeMap.mem_iff_contains.mpr
      (List.find?_some (p := fun dstIp => (s.ppm.idx dstIp).contains k) hfind)
    have hne := (h.key pe k).key.mp hin
    have hk : k ∈ a.peers pe := by
      by_contra hk
      exact hne (h.out pe k hk)
    obtain ⟨n, hlen⟩ : ∃ n, (perfSamples pe k s.log).length = n + 1 :=
      Nat.exists_eq_add_one.mpr (List.length_pos_iff.mpr hne)
    have hbehind := (h.key pe k).behind
    have hwindow := (h.key pe k).window
    have hmax := hwindow.maxKey (by rw [List.length_map]; exact hlen) (by omega)
    have hat := hwindow.at (n := n) (by omega)
    simp only
    rw [← ExtTreeMap.maxKey?_eq_getLast?_keys, hmax, Option.map_some, ExtTreeMap.idx_eq, hat, h.newest pe k hk, List.getLast?_eq_getElem?, hlen, List.getElem?_map]
    rw [Nat.add_sub_cancel, List.getElem?_eq_getElem (by omega)]
    rfl

/-- **After its cleanup of round n** a peer has the samples n - 1 and n, where there are such. -/
theorem PerfInv.window {pe : String} {k : Int} {n : Nat} {p : Option Nat}
    (hlast : s.log.find? (·.isAbout pe k) = some (.cleanup pe k n p)) :
    (∀ i ≤ n, ∃! q, PerfCall.add pe k i q ∈ s.log) ∧
      ∀ (j : Int) x, ((s.ppm.idx pe).idx k)[j]? = some x ↔
        ∃ (i q : Nat), (i = n ∨ i + 1 = n) ∧ j = i ∧ x = some q ∧ .add pe k i q ∈ s.log := by
  have hkey := h.key pe k
  obtain ⟨hlen, hcleanups⟩ := hkey.last _ hlast
  have hwindow := hkey.window
  rw [hcleanups] at hwindow
  constructor
  · intro i hi
    have hat : (perfSamples pe k s.log)[i]? = some (perfSamples pe k s.log)[i] := List.getElem?_eq_getElem (by omega)
    refine ⟨_, (hkey.add_mem i _).mpr hat, ?_⟩
    intro q hq
    have hq' := (hkey.add_mem i q).mp hq
    rw [hat] at hq'
    exact (Option.some.inj hq').symm
  · intro j x
    rw [hwindow j, List.getElem?_map]
    constructor
    · intro hj
      split at hj
      · next hrange =>
        obtain ⟨q, hq, hx⟩ := Option.map_eq_some_iff.mp hj
        have hlt := (List.getElem?_eq_some_iff.mp hq).1
        exact ⟨j.toNat, q, by omega, by omega, hx.symm, (hkey.add_mem _ q).mpr hq⟩
      · cases hj
    · rintro ⟨i, q, hi, rfl, rfl, hmem⟩
      rw [if_pos (by omega), Int.toNat_natCast, (hkey.add_mem i q).mp hmem]
      rfl

/-- **A sample is handed back by the cleanup of its number plus two**, and by no other. -/
theorem PerfInv.handed_by {pe : String} {k : Int} {n q : Nat} (hadd : .add pe k n q ∈ s.log) :
    (∀ pe' k' n', .cleanup pe' k' n' (some q) ∈ s.log → pe' = pe ∧ k' = k ∧ n' = n + 2) ∧
      (q ∈ handedBack s.log ↔ ∃ p, .cleanup pe k (n + 2) p ∈ s.log) := by
  have hby : ∀ pe' k' n', .cleanup pe' k' n' (some q) ∈ s.log → pe' = pe ∧ k' = k ∧ n' = n + 2 := by
    intro pe' k' n' hmem
    obtain ⟨-, hq⟩ := ((h.key pe' k').cleanup_mem n' (some q)).mp hmem
    obtain ⟨htwo, hat⟩ := handedAt_some hq.symm
    obtain ⟨rfl, rfl, hnum⟩ := h.distinct _ _ _ _ _ _ q (((h.key pe' k').add_mem _ _).mpr hat) hadd
    exact ⟨rfl, rfl, by omega⟩
  refine ⟨hby, ?_⟩
  rw [mem_handedBack]
  constructor
  · rintro ⟨pe', k', n', hmem⟩
    obtain ⟨rfl, rfl, rfl⟩ := hby pe' k' n' hmem
    exact ⟨some q, hmem⟩
  · rintro ⟨p, hmem⟩
    have hat := ((h.key pe k).add_mem n q).mp hadd
    obtain ⟨-, hp⟩ := ((h.key pe k).cleanup_mem (n + 2) p).mp hmem
    rw [handedAt, if_neg (by omega), Nat.add_sub_cancel, hat] at hp
    exact ⟨pe, k, n + 2, hp ▸ hmem⟩

theorem PerfInv.newest_kept {k : Int} {q : Nat} (hnew : newestSample k s.log = some q) : q ∉ handedBack s.log := by
  obtain ⟨pe, n, hadd⟩ := newestSample_mem hnew
  have hkey := h.key pe k
  have hk : k ∈ a.peers pe := by
    by_contra hk
    have hat := (hkey.add_mem n q).mp hadd
    rw [h.out pe k hk] at hat
    cases hat
  rw [h.newest pe k hk, List.getLast?_eq_getElem?] at hnew
  obtain ⟨-, -, hnum⟩ := h.distinct _ _ _ _ _ _ q ((hkey.add_mem _ _).mpr hnew) hadd
  intro hback
  obtain ⟨p, hmem⟩ := (h.handed_by hadd).2.mp hback
  have hdone := ((hkey.cleanup_mem (n + 2) p).mp hmem).1
  have hbehind := hkey.behind
  have hlt := (List.getElem?_eq_some_iff.mp hnew).1
  omega

end Reached

/-- **The container keeps a window of two.** For any peers of any PEs and any interleaving of
the threads and of `get`: after the cleanup of round n a peer has the samples n - 1 and n;
each sample is handed back once, by the cleanup of its number plus two; and `get` returns the
newest sample of a peer, which was not handed back, or NULL if there was none. -/
theorem window_of_two {a : AsbrPeers} {s : Perf} (h : Lts.Path (perfStep a) AnyPerf (Perf.start a) s) :
    (∀ pe k n p, s.log.find? (·.isAbout pe k) = some (.cleanup pe k n p) →
      (∀ i ≤ n, ∃! q, PerfCall.add pe k i q ∈ s.log) ∧
        ∀ (j : Int) x, ((s.ppm.idx pe).idx k)[j]? = some x ↔
          ∃ (i q : Nat), (i = n ∨ i + 1 = n) ∧ j = i ∧ x = some q ∧ .add pe k i q ∈ s.log) ∧
    ((handedBack s.log).Nodup ∧ ∀ pe k n q, .add pe k n q ∈ s.log →
      (∀ pe' k' n', .cleanup pe' k' n' (some q) ∈ s.log → pe' = pe ∧ k' = k ∧ n' = n + 2) ∧
        (q ∈ handedBack s.log ↔ ∃ p, .cleanup pe k (n + 2) p ∈ s.log)) ∧
    ∀ k, s.ppm.get k = some (newestSample k s.log) ∧
      (newestSample k s.log = none ↔ ∀ pe n q, .add pe k n q ∉ s.log) ∧
      ∀ q, newestSample k s.log = some q → q ∉ handedBack s.log := by
  have hinv := perfInv_of_path h
  refine ⟨fun pe k n p hlast => hinv.window hlast, ⟨hinv.handed, fun pe k n q hadd => hinv.handed_by hadd⟩, ?_⟩
  intro k
  refine ⟨hinv.get_eq k, ⟨newestSample_none, ?_⟩, fun q hnew => hinv.newest_kept hnew⟩
  intro hnone
  cases hnew : newestSample k s.log with
  | none => rfl
  | some q =>
    obtain ⟨pe, n, hmem⟩ := newestSample_mem hnew
    exact absurd hmem (hnone pe n q)

/-- Two PEs, one with two peers. -/
def twoPes : AsbrPeers where
  peers pe := if pe = "10.229.4.0" then [2, 5] else if pe = "10.229.132.0" then [4] else []
  nodup := by
    intro pe
    split
    · decide
    · split
      · decide
      · decide
  one := by
    intro pe pe' k hk hk'
    split at hk
    · split at hk'
      · simp_all
      · split at hk'
        · simp_all
        · cases hk'
    · split at hk
      · split at hk'
        · simp_all
        · split at hk'
          · simp_all
          · cases hk'
      · cases hk

/-- The other PE is a round behind when the first hands back its samples of round 0. -/
theorem window_of_two_run : ∃ s, Lts.Path (perfStep twoPes) AnyPerf (Perf.start twoPes) s ∧
    handedBack s.log = [1, 0] ∧ (handedBack s.log).Nodup ∧ s.ppm.get 5 = some (newestSample 5 s.log) := by
  obtain ⟨s, hs, hback⟩ : ∃ s, Lts.Path (perfStep twoPes) AnyPerf (Perf.start twoPes) s ∧ handedBack s.log = [1, 0] :=
    Lts.Path.exists_of_runG (Perf.start twoPes)
      [.get 5, .add "10.229.4.0", .cleanup "10.229.4.0", .add "10.229.4.0", .add "10.229.132.0", .cleanup "10.229.4.0",
        .next "10.229.4.0", .add "10.229.4.0", .cleanup "10.229.4.0", .get 4, .add "10.229.4.0", .cleanup "10.229.4.0",
        .next "10.229.4.0", .add "10.229.4.0", .cleanup "10.229.132.0", .cleanup "10.229.4.0", .add "10.229.4.0",
        .cleanup "10.229.4.0", .get 5]
      (fun s => handedBack s.log = [1, 0]) (by decide +kernel)
  exact ⟨s, hs, hback, (window_of_two hs).2.1.1, ((window_of_two hs).2.2 5).1⟩

end Pfr

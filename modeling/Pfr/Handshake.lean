import Pfr.NullSafe

/- When the stop handshake excludes the receiver. `main` asks (`req_stopped`), and
   runs the phases once the answer (`send_stopped`) is there; `readloop` answers at the
   end of an iteration and goes on to the next one, which takes `mtr` only. Of the
   phases `pfr_route_free` alone takes `mtr`; in the others the lines are commented out.

   1. `receive_isSome_iff`: `readloop` runs `proc_v4` where it waits for a packet and
      there is one, whatever `main` holds;
   2. `Drained`: the condition, on the place `readloop` has reached and on its socket;
   3. `excluded_of_move`, `overlap_of_not_drained`: a step that meets it keeps the
      receiver out, and one that does not lets it in;
   4. `receiver_excluded`: so is every run, and no step but a phase changes `r`;
   5. `reply_recorded_in_round`: a run that breaks it after an answer given in time. -/
namespace Pfr

open Std

variable {F : Type} [Dbl F]

/-- With `mt_req_send` held by `main`, `readloop` has no packet to receive. -/
def Excluded (s : State F) : Prop := s.pc.holding = true → s.rcv = .recv → s.sock = []

/-- `main` finds `send_stopped` set only while `readloop` is at its acknowledgement or
out of packets, and none comes while it waits for one. -/
def Drained (s : State F) : Event F → Prop
  | .take => s.sendStopped = true → s.rcv = .recv → s.sock.isEmpty = true
  | .arrive _ => s.pc.holding = true → s.rcv ≠ .recv
  | _ => True

instance (s : State F) : (e : Event F) → Decidable (Drained s e)
  | .take => inferInstanceAs (Decidable (_ → _ → _))
  | .arrive _ => inferInstanceAs (Decidable (_ → _))
  | .receive | .timeout | .ack | .start _ | .ask | .phase | .signals _ | .release => .isTrue trivial

theorem receive_isSome_iff {s : State F} (hx : s.pc ≠ .exited) :
    (step s .receive).isSome ↔ s.rcv = .recv ∧ s.sock ≠ [] := by
  have hstep : step s .receive = rcvStep s s.rcv .receive := by rw [step, if_neg hx]
  rw [hstep]
  cases hr : s.rcv with
  | off => simp [rcvStep]
  | ack => simp [rcvStep]
  | recv =>
    cases hs : s.sock with
    | nil => simp [rcvStep, hs]
    | cons x rest => simp [rcvStep, hs]

omit [Dbl F] in
theorem not_exited_of_holding {s : State F} (h : s.pc.holding = true) : s.pc ≠ .exited := by
  intro he
  rw [he] at h
  cases h

/-- The receiver is kept out by being unable to step. -/
theorem Excluded.receive_eq_none {s : State F} (h : Excluded s) (hh : s.pc.holding = true) :
    step s .receive = none := by
  by_contra hne
  obtain ⟨hr, hs⟩ := (receive_isSome_iff (not_exited_of_holding hh)).mp (Option.isSome_iff_ne_none.mpr hne)
  exact hs (h hh hr)

/-- **A step that meets the condition keeps the receiver out.** -/
theorem excluded_of_move {s t : State F} {e : Event F} (h : Excluded s) (hG : Drained s e) (hm : Move s e t) :
    Excluded t := by
  have hfree : t.pc.holding = false → Excluded t := fun hf hh => absurd (hh.symm.trans hf) (by decide)
  cases hm with
  | arrive x =>
    intro hh hr
    exact absurd hr (hG hh)
  | receive => exact fun _ hr => by cases hr
  | timeout => exact fun _ hr => by cases hr
  | ack _ hpc => exact hfree hpc
  | start | ask | skip | shutdown | rereadFail | release => exact hfree rfl
  | take _ hs =>
    intro _ hr
    exact List.isEmpty_iff.mp (hG hs hr)
  | phase ph m hpc =>
    intro _ hr
    exact h (by rw [hpc]; rfl) hr
  | resume hpc =>
    intro _ hr
    exact h (by rw [hpc]; rfl) hr
  | reread cfg v hpc =>
    intro _ hr
    exact h (by rw [hpc]; rfl) hr

/-- **A step that does not meet it lets the receiver in.** -/
theorem overlap_of_not_drained {s t : State F} {e : Event F} (hG : ¬Drained s e) (hm : Move s e t) :
    t.pc.holding = true ∧ (step t .receive).isSome := by
  have hin : t.pc.holding = true → t.rcv = .recv → t.sock ≠ [] →
      t.pc.holding = true ∧ (step t .receive).isSome :=
    fun hh hr hs => ⟨hh, (receive_isSome_iff (not_exited_of_holding hh)).mpr ⟨hr, hs⟩⟩
  cases hm with
  | arrive x =>
    simp only [Drained, Classical.not_imp, ne_eq, not_not] at hG
    exact hin hG.1 hG.2 (by simp)
  | take _ _ =>
    simp only [Drained, Classical.not_imp, List.isEmpty_iff] at hG
    exact hin rfl hG.2.1 hG.2.2
  | skip _ hs =>
    -- a skipped round takes nothing
    simp only [Drained, Classical.not_imp] at hG
    exact absurd (hG.1.symm.trans hs) (by decide)
  | _ => exact absurd trivial hG

omit [Dbl F] in
theorem excluded_init (cfg : Config) (v : F) (mm : PeerMap) : Excluded (State.init cfg v mm) := vacuous rfl

theorem excluded_path {cfg : Config} {v : F} {mm : PeerMap} {s : State F}
    (h : Lts.Path step Drained (State.init cfg v mm) s) : Excluded s :=
  Path.preserves (excluded_init cfg v mm) (fun _ _ _ hI hG _ hm => excluded_of_move hI hG hm) h

/-- Where the receiver is kept out, `main` alone changes the records. -/
theorem Excluded.records_kept {s t : State F} {e : Event F} (h : Excluded s) (hh : s.pc.holding = true)
    (hm : Move s e t) (hph : e ≠ .phase) (hsd : e ≠ .signals .shutdown) : t.mem.r = s.mem.r := by
  cases hm with
  | receive x rest hr hsock =>
    have := h hh hr
    rw [hsock] at this
    cases this
  | phase => exact absurd rfl hph
  | shutdown => exact absurd rfl hsd
  | _ => rfl

/-- **When the handshake excludes the receiver.** In every run whose steps meet
`Drained`, from `main`'s reading of `send_stopped` to its release of `mt_req_send`
`readloop` cannot run `proc_v4` and no step but a phase of `main` changes `r`; and the
first step that breaks `Drained` lets it. -/
theorem receiver_excluded {cfg : Config} {v : F} {mm : PeerMap} {s : State F}
    (h : Lts.Path step Drained (State.init cfg v mm) s) :
    (s.pc.holding = true → step s .receive = none ∧
      ∀ e t, step s e = some t → e ≠ .phase → e ≠ .signals .shutdown → t.mem.r = s.mem.r) ∧
    ∀ e t, step s e = some t → ¬Drained s e → t.pc.holding = true ∧ (step t .receive).isSome := by
  have hex := excluded_path h
  refine ⟨fun hh => ⟨hex.receive_eq_none hh, ?_⟩, ?_⟩
  · intro e t ht hph hsd
    exact hex.records_kept hh (move_of_step ht).2 hph hsd
  · intro e t ht hG
    exact overlap_of_not_drained hG (move_of_step ht).2

/-- Two rounds; in the second the receiver has no packet left when `main` takes the lock. -/
theorem receiver_excluded_run : ∃ s : State ℚ,
    Lts.Path step Drained (State.boot [(1, ⟨"192.0.2.1", "1:1"⟩)]) s ∧
      (s.pc = .phase .calcAvg ∧ s.probeId = 1 ∧ s.rcv = .recv) ∧ step s .receive = none := by
  obtain ⟨s, hs, hend⟩ := exists_run (G := Drained) (State.boot (F := ℚ) [(1, ⟨"192.0.2.1", "1:1"⟩)])
    (roundEvents ["198.51.100.7"] [⟨"198.51.100.7", 0, 1, 1, 20, 0⟩] ++
      (roundEvents ["198.51.100.7"] [⟨"198.51.100.7", 1, 1, 1, 20, 1⟩]).take 9)
    (fun s => s.pc = .phase .calcAvg ∧ s.probeId = 1 ∧ s.rcv = .recv) (by decide +kernel)
  exact ⟨s, hs, hend, ((receiver_excluded hs).1 (by rw [hend.1]; rfl)).1⟩

/-- Round 0: the receiver answers the request and waits for the next packet. It comes
between the average and the scan, and is recorded. -/
theorem reply_recorded_in_round : ¬∀ s t : State ℚ,
    Lts.Path step AnyStep (State.boot [(1, ⟨"192.0.2.1", "1:1"⟩)]) s → s.pc.holding = true →
      step s .receive = some t → t.mem.r = s.mem.r := by
  intro hall
  obtain ⟨s, hs, hpc, hold, hnew⟩ := exists_run (G := AnyStep)
    (State.boot (F := ℚ) [(1, ⟨"192.0.2.1", "1:1"⟩)])
    ((roundEvents ["198.51.100.7"] []).take 7 ++ [.arrive (some ⟨"198.51.100.7", 0, 1, 1, 20, 0⟩)])
    (fun s => s.pc = .phase .calcStddev ∧ "198.51.100.7" ∉ s.mem.r ∧
      (step s .receive).any (fun t => "198.51.100.7" ∈ t.mem.r)) (by decide +kernel)
  obtain ⟨t, ht, hin⟩ := (Option.any_eq_true _ _).mp hnew
  rw [hall s t hs (by rw [hpc]; rfl) ht] at hin
  exact hold (of_decide_eq_true hin)

/-! ## What the phases gain -/

/-- A reply is recorded by a receiver that was not kept out. -/
theorem undisturbed_of_excluded {s : State F} (h : Excluded s) {e : Event F} {t : State F}
    (hm : Move s e t) : Undisturbed s e := by
  intro hh
  cases hm with
  | receive x rest hr hsock =>
    have := h hh hr
    rw [hsock] at this
    cases this
  | _ => rfl

/-- Every run the handshake works in is one in which nothing is recorded under the lock,
so its phases find their records. -/
theorem quiet_of_drained {cfg : Config} {v : F} {mm : PeerMap} {s : State F}
    (h : Lts.Path step Drained (State.init cfg v mm) s) : Quiet s := by
  have hboth : Excluded s ∧ Quiet s := by
    refine Path.preserves (I := fun t => Excluded t ∧ Quiet t) ⟨excluded_init cfg v mm, quiet_init cfg v mm⟩ ?_ h
    rintro t e u ⟨hex, hq⟩ hG hx hm
    exact ⟨excluded_of_move hex hG hm, hq.move (undisturbed_of_excluded hex hm) hx hm⟩
  exact hboth.2

end Pfr

import IrCtl.Gree.AirTrace

/-!
# Reads of the frame

The alarm callback reads a byte of the frame before it looks at its state. In
the states behind the last bit the index has run past the frame.
-/

namespace IrCtl

open Transition

/-- The index `tim_cb` reads `frame.bits` at, in whatever state it runs. -/
def TxDescript.byteRead (tx : TxDescript) : Nat := tx.bidx / 8

/-- The states behind the last bit of a frame. -/
def GreeStMachine.Ending (st : GreeStMachine) : Prop := st = .end0 ∨ st = .end1 ∨ st = .end2

/-- Of the states a transmission passes through, just those behind the last bit
have an index outside the nine bytes. -/
theorem byteRead_lt_iff {tx : TxDescript} (inStep : InStep tx) :
    tx.byteRead < 9 ↔ ¬ tx.st.Ending := by
  rw [TxDescript.byteRead, GreeStMachine.Ending]
  rw [InStep] at inStep
  -- where the index is 72 the byte is the ninth, elsewhere the index is lower
  cases st : tx.st <;> simp [st] at inStep ⊢ <;> omega

/-! ### One frame -/

theorem bitsPulses_length (f : Frame) (i n : Nat) : (bitsPulses f i n).length = 2 * n := by
  simp [bitsPulses, bitPulses, List.length_flatMap, Nat.mul_comm]

theorem bitsLeft_length (f : Frame) {i : Nat} (here : i < 35 ∨ 40 ≤ i ∧ i < 72) :
    4 ≤ (bitsLeft f i).length := by
  rw [bitsLeft]
  split <;> simp only [List.length_append, bitsPulses_length, List.length_cons, List.length_nil] <;>
    omega

/-- The last bit is through when two intervals are left of the wave. -/
theorem ending_iff_left {tx : TxDescript} (inStep : InStep tx) (busy : tx.st ≠ .reset) :
    tx.st.Ending ↔ (pulsesLeft tx).length ≤ 2 := by
  have first : 4 ≤ (bitsLeft tx.frame 0).length := bitsLeft_length tx.frame (by omega)
  have second : 4 ≤ (bitsLeft tx.frame 40).length := bitsLeft_length tx.frame (by omega)
  rw [InStep] at inStep
  rw [GreeStMachine.Ending, pulsesLeft]
  cases st : tx.st <;> simp only [st] at inStep busy
  case reset => exact absurd rfl busy
  case bits0 | bits1 =>
    have more := bitsLeft_length tx.frame inStep
    simp only [List.length_tail, reduceCtorEq, or_self, false_iff]
    omega
  all_goals
    simp [pulseTrain_eq, secondHalf_eq, -List.length_eq_zero_iff] <;> omega

/-- Whatever the frame, the three callbacks behind its 138th read a byte outside
it, and only they. -/
theorem timCb_byteRead {f : Frame} {before : List Interval} {ir : Ir}
    (sending : Sending f before ir) (fresh : ir.tx.st = .start0) {n : Nat} (within : n ≤ 140) :
    (timCb^[n] ir).tx.byteRead < 9 ↔ n < 138 := by
  obtain ⟨now, busy, left⟩ := sending_iterate sending fresh n within
  rw [byteRead_lt_iff now.inStep, ending_iff_left now.inStep busy, left, List.length_drop,
    pulseTrain_length]
  omega

section Runs

variable {ι : Type} {s s' : Dev ι}

theorem Quiet.inStep {calls : List AcCall} (quiet : Quiet s calls) : InStep s.ir.tx := by
  simp only [InStep, quiet.st, quiet.bidx]

theorem Sends.inStep {before : List Frame} {f : Frame} (sends : Sends s before f) :
    InStep s.ir.tx := by
  rcases sends.under with ⟨sending, -⟩ | ⟨ended, -⟩
  · exact sending.inStep
  · simp only [InStep, ended.st, ended.bidx]

/-- At every point of every call the state and the index go together. -/
theorem DevInv.inStep (inv : DevInv s) : InStep s.ir.tx := by
  cases holder : s.mutex with
  | none => exact (inv.free holder).1.inStep
  | some t =>
    obtain ⟨⟨c, k, point, -, here⟩, -⟩ := inv.held holder
    cases point with
    | body => exact Quiet.inStep here
    | wait0 seen => exact here.2.2.2.inStep
    | wait1 seen => exact here.2.2.2.inStep
    | give seen => exact here.2.inStep

/-- The callback reads one of the nine bytes of the frame. -/
def ReadsInFrame (s : Dev ι) : DevAct ι → Prop
  | .alarm => s.ir.tx.byteRead < 9
  | .task _ => True

/-- The callback does not run behind the last bit of a frame. -/
def BeforeEnd (s : Dev ι) : DevAct ι → Prop
  | .alarm => ¬ s.ir.tx.st.Ending
  | .task _ => True

variable [DecidableEq ι]

/-- The callback stays in the frame exactly in the runs in which it is never
called behind the last bit of one. -/
theorem devStep_readsInFrame_iff (hdl : ι) (gtick : Int) (as : List (DevAct ι)) :
    Meets (devStep hdl) ReadsInFrame (.boot gtick) as ↔
      Meets (devStep hdl) BeforeEnd (.boot gtick) as := by
  apply meets_congr (I := DevInv)
  · intro s a inv
    cases a with
    | alarm => exact byteRead_lt_iff inv.inStep
    | task a => exact Iff.rfl
  · intro s a s' inv stepped
    exact devStep_inv inv stepped
  · exact Dev.boot_inv gtick

omit [DecidableEq ι] in
theorem Sends.not_given {before : List Frame} {f : Frame} (sends : Sends s before f)
    (unsent : s.sent = []) : ¬ s.ir.tx.done = true := by
  intro given
  have complete := (sends.complete given).2
  rw [unsent] at complete
  exact List.append_ne_nil_of_right_ne_nil before (List.cons_ne_nil f []) complete.symm

/-- No frame has been completed, nor is the next callback to complete one. -/
structure Unsent (s : Dev ι) : Prop where
  inv : DevInv s
  sent : s.sent = []
  busy : s.ir.started = true → s.ir.tx.st ≠ .reset

theorem Unsent.step (unsent : Unsent s) {t : ι} (moved : s.step t = some s')
    (inv : DevInv s') : Unsent s' := by
  cases Dev.step_cases moved with
  | take c k now free after =>
    subst after
    exact ⟨inv, unsent.sent, unsent.busy⟩
  | perform o k now other after =>
    subst after
    exact ⟨inv, unsent.sent, unsent.busy⟩
  | give c k seen now after =>
    subst after
    exact ⟨inv, unsent.sent, unsent.busy⟩
  | body c k now after =>
    have quiet : Quiet s s.calls := (unsent.inv.inCall now).2.1
    subst after
    refine ⟨inv, unsent.sent, ?_⟩
    cases transmits : c.transmits s.world.cfg with
    | true =>
      rw [greeAcOps_transmits quiet.st transmits]
      exact fun _ => GreeStMachine.noConfusion
    | false =>
      rw [greeAcOps_silent transmits]
      exact unsent.busy
  -- the waits end behind a complete frame
  | wait0 c k seen now given after =>
    obtain ⟨-, -, -, sends⟩ := (unsent.inv.inCall now).2.1
    exact absurd given (sends.not_given unsent.sent)
  | wait1 c k seen now given after =>
    obtain ⟨-, -, -, sends⟩ := (unsent.inv.inCall now).2.1
    exact absurd given (sends.not_given unsent.sent)

/-- The reset state, where a frame is completed, is entered behind the frame only. -/
theorem devStep_unsent {hdl : ι} {a : DevAct ι} (unsent : Unsent s) (reads : ReadsInFrame s a)
    (stepped : devStep hdl s a = some s') : Unsent s' := by
  have inv : DevInv s' := devStep_inv unsent.inv stepped
  cases devStep_cases stepped with
  | start t p may now after =>
    subst after
    exact ⟨inv, unsent.sent, unsent.busy⟩
  | clock gtick after =>
    subst after
    exact ⟨inv, unsent.sent, unsent.busy⟩
  | alarm started after =>
    have busy := unsent.busy started
    have more : s.ir.tx.st ≠ .end2 := fun last =>
      (byteRead_lt_iff unsent.inv.inStep).mp reads (Or.inr (Or.inr last))
    obtain ⟨p, pulses⟩ := timCb_pulses s.ir unsent.inv.inStep busy more
    subst after
    exact ⟨inv, by rw [if_neg busy, unsent.sent], fun _ => pulses.busy⟩
  | step t may moved => exact unsent.step moved inv

/-- A run that stays in the frame completes none. -/
theorem devStep_readsInFrame_sent {hdl : ι} {gtick : Int} {as : List (DevAct ι)}
    (met : Meets (devStep hdl) ReadsInFrame (.boot gtick) as) :
    Visits (devStep hdl) (fun s => s.sent = []) (.boot gtick) as := by
  have boot : Unsent (Dev.boot gtick : Dev ι) :=
    ⟨Dev.boot_inv gtick, rfl, fun started => by cases started⟩
  apply visits_of_meets (I := Unsent) ?_ (fun _ unsent => unsent.sent) boot met
  intro s a s' unsent reads stepped
  exact devStep_unsent unsent reads stepped

end Runs

/-- The callbacks up to the one behind the last bit of the first frame of an
`ac_open`. -/
def throughLastBit : List (DevAct Unit) :=
  [.task (.start () acOpen), .task (.step ()), .task (.step ())] ++ List.replicate 138 .alarm

theorem devStep_reads_past_frame :
    ¬ Meets (devStep ()) ReadsInFrame (.boot 0) (throughLastBit ++ [.alarm]) := by
  intro met
  have view : (run (devStep ()) (.boot 0) throughLastBit).map
      (fun s => (s.ir.started, s.ir.tx.bidx)) = some (true, 72) := by decide +kernel
  obtain ⟨s, reached, same⟩ := Option.map_eq_some_iff.mp view
  obtain ⟨started, past⟩ := Prod.mk.inj same
  have inside : ReadsInFrame s .alarm := meets_last met reached (if_pos started)
  rw [ReadsInFrame, TxDescript.byteRead, past] at inside
  omega

end IrCtl

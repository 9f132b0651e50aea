import Mathlib.Data.Nat.Bitwise
import Mathlib.Logic.Function.Iterate
import IrCtl.Gree.Frame

/-!
# The alarm callback of the transmitter

`tim_cb` and the peripherals it drives, and the pulse train a frame becomes.
The callback reads a bit before it looks at its state, so the read is modelled
in every state, also where the index has run past the frame.
-/

namespace IrCtl

def periodStmStartS0 : Nat := 9000
def periodStmStartS1 : Nat := 4500
def periodStmBit0S0 : Nat := 680
def periodStmBit0S1 : Nat := 560
def periodStmBit1S0 : Nat := 680
def periodStmBit1S1 : Nat := 1600
def periodStmJointS0 : Nat := 600
def periodStmJointS1 : Nat := 20000
def periodStmEndS0 : Nat := 600
def periodStmEndS1 : Nat := 40000

/-- `enum gree_st_machine`. Only enumerators are ever stored in `tx.st`, so the
`default` arm of the callback has no counterpart. -/
inductive GreeStMachine where
  | reset
  | start0
  | start1
  | bits0
  | bits1
  | joint0
  | joint1
  | end0
  | end1
  | end2
  deriving DecidableEq, Repr

def GreeStMachine.value : GreeStMachine → Nat
  | .reset => 0
  | .start0 => 1
  | .start1 => 2
  | .bits0 => 3
  | .bits1 => 4
  | .joint0 => 5
  | .joint1 => 6
  | .end0 => 7
  | .end1 => 8
  | .end2 => 9

/-- `struct tx_descript`. -/
structure TxDescript where
  frame : Frame
  -- the alignment byte behind the union, the one `frame.bits[9]` names
  pad : U8
  bidx : Nat
  st : GreeStMachine
  done : Bool
  deriving DecidableEq, Repr

def TxDescript.bitsAt (tx : TxDescript) (i : Nat) : U8 :=
  if h : i < 9 then tx.frame[i] else tx.pad

structure Interval where
  carrier : Bool
  period : Nat
  deriving DecidableEq, Repr

def mark (period : Nat) : Interval := ⟨true, period⟩

def space (period : Nat) : Interval := ⟨false, period⟩

/-- The transmitter with its peripherals. -/
structure Ir where
  tx : TxDescript
  -- the gptimer is started, the LEDC timer is not paused
  started : Bool
  carrier : Bool
  -- the alarm period set last, and the intervals the callback has set so far
  alarm : Nat
  air : List Interval
  deriving DecidableEq, Repr

def irCwaveOff (ir : Ir) : Ir := { ir with carrier := false }

def irCwaveOn (ir : Ir) : Ir := { ir with carrier := true }

/-- `gptimer_set_alarm_action` in the callback. -/
def setAlarm (ir : Ir) (alarmCount : Nat) : Ir :=
  { ir with alarm := alarmCount, air := ir.air ++ [⟨ir.carrier, alarmCount⟩] }

/-- The switch of `tim_cb`: the transmitter after it and `alarm_config.alarm_count`. -/
def timCbSwitch (ir : Ir) : Ir × Nat :=
  let tx := ir.tx
  -- read in every state, also where the index is past the frame
  let bit := (tx.bitsAt (tx.bidx / 8)).toNat &&& (1 <<< (tx.bidx % 8))
  match tx.st with
  | .reset =>
    -- the only arm that stops the timer and gives `done`
    ({ ir with started := false, carrier := false, tx := { tx with done := true, bidx := 0 } },
      1000000)
  | .start0 => ({ ir with tx := { tx with st := .start1 } }, periodStmStartS0)
  | .start1 => ({ ir with tx := { tx with st := .bits0 } }, periodStmStartS1)
  | .bits0 =>
    ({ ir with tx := { tx with st := .bits1 } },
      if bit ≠ 0 then periodStmBit1S0 else periodStmBit0S0)
  | .bits1 =>
    let bidx := tx.bidx + 1
    -- past bit 34 the joint, past bit 71 the end
    let st := if bidx = 35 then .joint0 else if bidx = 72 then .end0 else .bits0
    ({ ir with tx := { tx with bidx := bidx, st := st } },
      if bit ≠ 0 then periodStmBit1S1 else periodStmBit0S1)
  | .joint0 => ({ ir with tx := { tx with st := .joint1 } }, periodStmJointS0)
  | .joint1 => ({ ir with tx := { tx with st := .bits0, bidx := 40 } }, periodStmJointS1)
  | .end0 => ({ ir with tx := { tx with st := .end1 } }, periodStmEndS0)
  | .end1 => ({ ir with tx := { tx with st := .end2 } }, periodStmEndS1)
  | .end2 => ({ ir with tx := { tx with bidx := 0, st := .reset } }, 1000000)

def timCb (ir : Ir) : Ir :=
  let (ir, alarmCount) := timCbSwitch ir
  -- the level follows the parity of the state the arm has moved to
  if ir.tx.st ≠ .reset then
    let ir := if ir.tx.st.value &&& 1 ≠ 0 then irCwaveOff ir else irCwaveOn ir
    setAlarm ir alarmCount
  else
    ir

/-! ### The pulse train of a frame -/

/-- Bit `i` of a frame, least significant bit of a byte first. -/
def Frame.bit (f : Frame) (i : Nat) : Bool :=
  if h : i / 8 < 9 then f[i / 8].getLsbD (i % 8) else false

def bitPulses (b : Bool) : List Interval := [mark 680, space (if b then 1600 else 560)]

def bitsPulses (f : Frame) (i n : Nat) : List Interval :=
  (List.range' i n).flatMap fun j => bitPulses (f.bit j)

def secondHalf (f : Frame) : List Interval := bitsPulses f 40 32 ++ [mark 600, space 40000]

/-- The wave of a frame. Bits 35 to 39 are not in it. -/
def pulseTrain (f : Frame) : List Interval :=
  [mark 9000, space 4500] ++ bitsPulses f 0 35 ++ [mark 600, space 20000] ++ secondHalf f

def bitsLeft (f : Frame) (i : Nat) : List Interval :=
  if i < 35 then bitsPulses f i (35 - i) ++ [mark 600, space 20000] ++ secondHalf f
  else bitsPulses f i (72 - i) ++ [mark 600, space 40000]

/-- What is left of the wave when the callback is about to run. -/
def pulsesLeft (tx : TxDescript) : List Interval :=
  match tx.st with
  | .reset => []
  | .start0 => pulseTrain tx.frame
  | .start1 => (pulseTrain tx.frame).tail
  | .bits0 => bitsLeft tx.frame tx.bidx
  | .bits1 => (bitsLeft tx.frame tx.bidx).tail
  | .joint0 => mark 600 :: space 20000 :: secondHalf tx.frame
  | .joint1 => space 20000 :: secondHalf tx.frame
  | .end0 => [mark 600, space 40000]
  | .end1 => [space 40000]
  | .end2 => []

/-- The pairs of state and index a started transmission passes through. -/
def InStep (tx : TxDescript) : Prop :=
  match tx.st with
  | .reset | .start0 | .start1 => tx.bidx = 0
  | .bits0 | .bits1 => tx.bidx < 35 ∨ 40 ≤ tx.bidx ∧ tx.bidx < 72
  | .joint0 | .joint1 => tx.bidx = 35
  | .end0 | .end1 | .end2 => tx.bidx = 72

/-! ### One callback -/

theorem bitsPulses_succ (f : Frame) (i n : Nat) :
    bitsPulses f i (n + 1) = bitPulses (f.bit i) ++ bitsPulses f (i + 1) n := by
  simp [bitsPulses, List.range'_succ]

theorem pulseTrain_eq (f : Frame) : pulseTrain f = mark 9000 :: space 4500 :: bitsLeft f 0 := by
  simp [pulseTrain, bitsLeft]

theorem secondHalf_eq (f : Frame) : secondHalf f = bitsLeft f 40 := by
  simp [secondHalf, bitsLeft]

theorem bitsLeft_step (f : Frame) (i : Nat) (here : i < 35 ∨ 40 ≤ i ∧ i < 72) :
    bitsLeft f i = mark 680 :: space (if f.bit i then 1600 else 560) ::
      (if i + 1 = 35 then mark 600 :: space 20000 :: secondHalf f
       else if i + 1 = 72 then [mark 600, space 40000] else bitsLeft f (i + 1)) := by
  -- the two halves count down to 35 and to 72
  rcases here with first | ⟨from40, below⟩
  · have count : 35 - i = (34 - i) + 1 := by omega
    rw [bitsLeft, if_pos first, count, bitsPulses_succ, bitPulses]
    by_cases last : i + 1 = 35
    · have none_left : 34 - i = 0 := by omega
      simp [last, none_left, bitsPulses]
    · have more : i + 1 < 35 := by omega
      have rest : 35 - (i + 1) = 34 - i := by omega
      have not72 : i + 1 ≠ 72 := by omega
      simp [last, not72, bitsLeft, more, rest]
  · have count : 72 - i = (71 - i) + 1 := by omega
    have not35 : i + 1 ≠ 35 := by omega
    rw [bitsLeft, if_neg (by omega), count, bitsPulses_succ, bitPulses]
    by_cases last : i + 1 = 72
    · have none_left : 71 - i = 0 := by omega
      simp [last, none_left, bitsPulses]
    · have more : ¬ i + 1 < 35 := by omega
      have rest : 72 - (i + 1) = 71 - i := by omega
      simp [not35, last, bitsLeft, more, rest]

/-- The callback's mask test reads the bit of the frame. -/
theorem bit_read (tx : TxDescript) (below : tx.bidx < 72) :
    (tx.bitsAt (tx.bidx / 8)).toNat &&& (1 <<< (tx.bidx % 8)) ≠ 0 ↔
      tx.frame.bit tx.bidx = true := by
  have byte : tx.bidx / 8 < 9 := by omega
  rw [TxDescript.bitsAt, Frame.bit, dif_pos byte, dif_pos byte, ← BitVec.testBit_toNat,
    Nat.one_shiftLeft, Nat.and_two_pow]
  cases tx.frame[tx.bidx / 8].toNat.testBit (tx.bidx % 8) <;> simp

/-- The carrier level that goes with a state: the parity of the enumerator. -/
def carrierAfter (st : GreeStMachine) : Bool := st.value &&& 1 = 0

/-- What a callback does that sets the interval `p`. -/
structure Pulses (ir ir' : Ir) (p : Interval) : Prop where
  left : pulsesLeft ir.tx = p :: pulsesLeft ir'.tx
  inStep : InStep ir'.tx
  busy : ir'.tx.st ≠ .reset
  frame : ir'.tx.frame = ir.tx.frame
  done : ir'.tx.done = ir.tx.done
  started : ir'.started = ir.started
  carrier : ir'.carrier = p.carrier
  level : p.carrier = carrierAfter ir'.tx.st
  alarm : ir'.alarm = p.period
  air : ir'.air = ir.air ++ [p]

private theorem carrierAfter_table :
    carrierAfter .start1 = true ∧ carrierAfter .bits0 = false ∧ carrierAfter .bits1 = true ∧
    carrierAfter .joint0 = false ∧ carrierAfter .joint1 = true ∧ carrierAfter .end0 = false ∧
    carrierAfter .end1 = true ∧ carrierAfter .end2 = false := by
  decide

/-- The tail of `tim_cb` behind a switch arm that leads to a busy state. -/
private theorem timCb_of_switch {ir : Ir} {tx : TxDescript} {n : Nat}
    (arm : timCbSwitch ir = ({ ir with tx := tx }, n)) (busy : tx.st ≠ .reset) :
    timCb ir = { ir with
      tx := tx
      carrier := carrierAfter tx.st
      alarm := n
      air := ir.air ++ [⟨carrierAfter tx.st, n⟩] } := by
  simp only [timCb, arm, ne_eq, busy, not_false_eq_true, if_true]
  -- an even state switches the carrier on, an odd one off
  by_cases even : tx.st.value &&& 1 = 0
  · have level : carrierAfter tx.st = true := decide_eq_true even
    simp only [even, not_true_eq_false, if_false, level]
    rfl
  · have level : carrierAfter tx.st = false := decide_eq_false even
    simp only [even, not_false_eq_true, if_true, level]
    rfl

private theorem pulses_of_switch {ir : Ir} (tx : TxDescript) (p : Interval)
    (arm : timCbSwitch ir = ({ ir with tx := tx }, p.period)) (busy : tx.st ≠ .reset)
    (parity : carrierAfter tx.st = p.carrier)
    (inStep : InStep tx) (frame : tx.frame = ir.tx.frame) (done : tx.done = ir.tx.done)
    (left : pulsesLeft ir.tx = p :: pulsesLeft tx) :
    Pulses ir (timCb ir) p := by
  rw [timCb_of_switch arm busy, parity]
  exact ⟨left, inStep, busy, frame, done, rfl, rfl, parity.symm, rfl, rfl⟩

/-- Every callback before the last two sets the next interval of the wave. -/
theorem timCb_pulses (ir : Ir) (inStep : InStep ir.tx) (busy : ir.tx.st ≠ .reset)
    (more : ir.tx.st ≠ .end2) : ∃ p, Pulses ir (timCb ir) p := by
  obtain ⟨⟨frame, pad, bidx, st, done⟩, started, carrier, alarm, air⟩ := ir
  -- one case an arm of the switch
  cases st with
  | reset => exact absurd rfl busy
  | end2 => exact absurd rfl more
  | start0 =>
    exact ⟨mark 9000, pulses_of_switch ⟨frame, pad, bidx, .start1, done⟩ _ rfl
      GreeStMachine.noConfusion (by simp only [carrierAfter_table, mark]) inStep
      rfl rfl rfl⟩
  | start1 =>
    have at0 : bidx = 0 := inStep
    subst at0
    have next : InStep ⟨frame, pad, 0, .bits0, done⟩ := Or.inl (by dsimp only; omega)
    exact ⟨space 4500, pulses_of_switch ⟨frame, pad, 0, .bits0, done⟩ _ rfl
      GreeStMachine.noConfusion (by simp only [carrierAfter_table, space]) next rfl rfl
      (by simp only [pulsesLeft, pulseTrain_eq, List.tail_cons])⟩
  | bits0 =>
    -- the mark of a bit has one length, so the bit read does not matter yet
    have here : bidx < 35 ∨ 40 ≤ bidx ∧ bidx < 72 := inStep
    have arm : timCbSwitch ⟨⟨frame, pad, bidx, .bits0, done⟩, started, carrier, alarm, air⟩ =
        (⟨⟨frame, pad, bidx, .bits1, done⟩, started, carrier, alarm, air⟩, 680) := by
      simp only [timCbSwitch, periodStmBit1S0, periodStmBit0S0, ite_self]
    exact ⟨mark 680, pulses_of_switch ⟨frame, pad, bidx, .bits1, done⟩ _ arm
      GreeStMachine.noConfusion (by simp only [carrierAfter_table, mark]) here rfl rfl
      (by simp only [pulsesLeft, bitsLeft_step frame bidx here, List.tail_cons])⟩
  | bits1 =>
    have here : bidx < 35 ∨ 40 ≤ bidx ∧ bidx < 72 := inStep
    have read := bit_read ⟨frame, pad, bidx, .bits1, done⟩ (by dsimp only; omega)
    let st := if bidx + 1 = 35 then GreeStMachine.joint0
      else if bidx + 1 = 72 then .end0 else .bits0
    let p := space (if frame.bit bidx then 1600 else 560)
    have arm : timCbSwitch ⟨⟨frame, pad, bidx, .bits1, done⟩, started, carrier, alarm, air⟩ =
        (⟨⟨frame, pad, bidx + 1, st, done⟩, started, carrier, alarm, air⟩, p.period) := by
      simp only [timCbSwitch, read]
      rfl
    -- the three ways on: the joint behind bit 34, the end behind bit 71, the next bit
    have next : st ≠ .reset ∧ carrierAfter st = false ∧
        InStep ⟨frame, pad, bidx + 1, st, done⟩ ∧
        pulsesLeft ⟨frame, pad, bidx, .bits1, done⟩ =
          p :: pulsesLeft ⟨frame, pad, bidx + 1, st, done⟩ := by
      simp only [pulsesLeft, bitsLeft_step frame bidx here, List.tail_cons]
      by_cases joint : bidx + 1 = 35
      · simp [st, p, joint, InStep, carrierAfter_table]
      · by_cases last : bidx + 1 = 72
        · simp [st, p, last, InStep, carrierAfter_table]
        · have within : bidx + 1 < 35 ∨ 40 ≤ bidx + 1 ∧ bidx + 1 < 72 := by omega
          simp only [st, p, joint, last, if_false, carrierAfter_table, and_true]
          exact ⟨GreeStMachine.noConfusion, trivial, within⟩
    obtain ⟨busy', parity, inStep', left⟩ := next
    exact ⟨p, pulses_of_switch ⟨frame, pad, bidx + 1, st, done⟩ p arm busy' parity inStep'
      rfl rfl left⟩
  | joint0 =>
    exact ⟨mark 600, pulses_of_switch ⟨frame, pad, bidx, .joint1, done⟩ _ rfl
      GreeStMachine.noConfusion (by simp only [carrierAfter_table, mark]) inStep
      rfl rfl rfl⟩
  | joint1 =>
    have next : InStep ⟨frame, pad, 40, .bits0, done⟩ := Or.inr (by dsimp only; omega)
    exact ⟨space 20000, pulses_of_switch ⟨frame, pad, 40, .bits0, done⟩ _ rfl
      GreeStMachine.noConfusion (by simp only [carrierAfter_table, space]) next rfl rfl (by simp only [pulsesLeft, secondHalf_eq])⟩
  | end0 =>
    exact ⟨mark 600, pulses_of_switch ⟨frame, pad, bidx, .end1, done⟩ _ rfl
      GreeStMachine.noConfusion (by simp only [carrierAfter_table, mark]) inStep
      rfl rfl rfl⟩
  | end1 =>
    exact ⟨space 40000, pulses_of_switch ⟨frame, pad, bidx, .end2, done⟩ _ rfl
      GreeStMachine.noConfusion (by simp only [carrierAfter_table, space]) inStep
      rfl rfl rfl⟩

theorem pulses_of_left {ir : Ir} (inStep : InStep ir.tx) (busy : ir.tx.st ≠ .reset)
    {p : Interval} {rest : List Interval} (left : pulsesLeft ir.tx = p :: rest) :
    Pulses ir (timCb ir) p := by
  have more : ir.tx.st ≠ .end2 := by
    intro last
    simp only [pulsesLeft, last, List.nil_eq, reduceCtorEq] at left
  obtain ⟨q, pulses⟩ := timCb_pulses ir inStep busy more
  have same : p = q := (List.cons.inj (left.symm.trans pulses.left)).1
  rw [same]
  exact pulses

/-- Nothing is left of the wave only before the last callback but one. -/
theorem end2_of_none_left {ir : Ir} (inStep : InStep ir.tx) (busy : ir.tx.st ≠ .reset)
    (left : pulsesLeft ir.tx = []) : ir.tx.st = .end2 := by
  by_contra more
  obtain ⟨p, pulses⟩ := timCb_pulses ir inStep busy more
  exact List.cons_ne_nil _ _ (pulses.left.symm.trans left)

/-- The last callback but one: the state is already reset, the timer still runs. -/
theorem timCb_end2 {ir : Ir} (last : ir.tx.st = .end2) :
    timCb ir = { ir with tx := { ir.tx with bidx := 0, st := .reset } } := by
  simp [timCb, timCbSwitch, last]

/-- The last callback: the timer stops and `done` is given. -/
theorem timCb_reset {ir : Ir} (idle : ir.tx.st = .reset) :
    timCb ir = { ir with
      started := false
      carrier := false
      tx := { ir.tx with done := true, bidx := 0 } } := by
  simp [timCb, timCbSwitch, idle]

/-! ### The whole run -/

/-- A transmission of `f` under way, `before` having been on the air already. -/
structure Sending (f : Frame) (before : List Interval) (ir : Ir) : Prop where
  frame : ir.tx.frame = f
  inStep : InStep ir.tx
  started : ir.started = true
  done : ir.tx.done = false
  wave : ir.air ++ pulsesLeft ir.tx = before ++ pulseTrain f
  level : ir.tx.st = .end2 ∨ ir.tx.st = .reset → ir.carrier = false

/-- The transmission of `f` is over and its `done` not yet taken. -/
structure Sent (f : Frame) (before : List Interval) (ir : Ir) : Prop where
  frame : ir.tx.frame = f
  st : ir.tx.st = .reset
  bidx : ir.tx.bidx = 0
  started : ir.started = false
  done : ir.tx.done = true
  air : ir.air = before ++ pulseTrain f
  carrier : ir.carrier = false

variable {f : Frame} {before : List Interval}

theorem Sending.start (ir : Ir) (st : ir.tx.st = .start0) (bidx : ir.tx.bidx = 0)
    (started : ir.started = true) (done : ir.tx.done = false) :
    Sending ir.tx.frame ir.air ir where
  frame := rfl
  inStep := by simp only [InStep, st, bidx]
  started := started
  done := done
  wave := by simp only [pulsesLeft, st]
  level := by simp [st]

theorem Sending.pulse {ir : Ir} (sending : Sending f before ir) {p : Interval}
    (pulses : Pulses ir (timCb ir) p) : Sending f before (timCb ir) where
  frame := pulses.frame.trans sending.frame
  inStep := pulses.inStep
  started := pulses.started.trans sending.started
  done := pulses.done.trans sending.done
  wave := by
    rw [pulses.air, List.append_assoc, List.singleton_append, ← pulses.left]
    exact sending.wave
  level := by
    rintro (last | idle)
    · rw [pulses.carrier, pulses.level, last]
      rfl
    · exact absurd idle pulses.busy

/-- One callback during a transmission: it goes on, or this was the reset
callback and it is over. -/
theorem Sending.callback {ir : Ir} (sending : Sending f before ir) :
    ir.tx.st ≠ .reset ∧ Sending f before (timCb ir) ∨
    ir.tx.st = .reset ∧ Sent f before (timCb ir) := by
  by_cases idle : ir.tx.st = .reset
  -- the state has been reset by the callback before this one
  · refine Or.inr ⟨idle, ?_⟩
    have ended : ir.air = before ++ pulseTrain f := by
      simpa [pulsesLeft, idle] using sending.wave
    rw [timCb_reset idle]
    exact ⟨sending.frame, idle, rfl, rfl, rfl, ended, rfl⟩
  · refine Or.inl ⟨idle, ?_⟩
    by_cases last : ir.tx.st = .end2
    · have quiet := sending.level (Or.inl last)
      have wave : ir.air ++ [] = before ++ pulseTrain f := by
        simpa only [pulsesLeft, last] using sending.wave
      rw [timCb_end2 last]
      exact ⟨sending.frame, rfl, sending.started, sending.done, wave, fun _ => quiet⟩
    · obtain ⟨p, pulses⟩ := timCb_pulses ir sending.inStep idle last
      exact sending.pulse pulses

theorem pulseTrain_length (f : Frame) : (pulseTrain f).length = 140 := by
  simp [pulseTrain, secondHalf, bitsPulses, bitPulses, List.length_flatMap]

section Run

variable {ir : Ir}

/-- After `n` callbacks, up to the length of the train, the train without its
first `n` intervals is left. -/
theorem sending_iterate (sending : Sending f before ir) (fresh : ir.tx.st = .start0) (n : Nat)
    (within : n ≤ 140) :
    Sending f before (timCb^[n] ir) ∧ (timCb^[n] ir).tx.st ≠ .reset ∧
      pulsesLeft (timCb^[n] ir).tx = (pulseTrain f).drop n := by
  -- the wave left shrinks by one interval a callback
  induction n with
  | zero =>
    refine ⟨sending, ?_, ?_⟩
    · simp [fresh]
    · simp [pulsesLeft, fresh, sending.frame]
  | succ n ih =>
    obtain ⟨now, busy, left⟩ := ih (by omega)
    rw [Function.iterate_succ_apply']
    have length := pulseTrain_length f
    rw [List.drop_eq_getElem_cons (by omega)] at left
    have pulses := pulses_of_left now.inStep busy left
    refine ⟨now.pulse pulses, pulses.busy, ?_⟩
    have rest := pulses.left
    rw [left] at rest
    exact (List.cons.inj rest).2.symm

/-- The callback that serves interval `n` of the train sets that interval. -/
theorem pulses_iterate (sending : Sending f before ir) (fresh : ir.tx.st = .start0) (n : Nat)
    (p : Interval) (here : (pulseTrain f)[n]? = some p) :
    Pulses (timCb^[n] ir) (timCb^[n + 1] ir) p := by
  obtain ⟨below, value⟩ := List.getElem?_eq_some_iff.mp here
  have length := pulseTrain_length f
  obtain ⟨now, busy, left⟩ := sending_iterate sending fresh n (by omega)
  rw [List.drop_eq_getElem_cons below, value] at left
  rw [Function.iterate_succ_apply']
  exact pulses_of_left now.inStep busy left

end Run

/-- The two callbacks behind the train: the state is reset, then the timer stops. -/
theorem Sending.ends {s : Ir} (now : Sending f before s) (busy : s.tx.st ≠ .reset)
    (left : pulsesLeft s.tx = []) :
    s.tx.st = .end2 ∧ (timCb s).tx.st = .reset ∧
      Sending f before (timCb s) ∧ Sent f before (timCb (timCb s)) ∧
      (timCb s).alarm = s.alarm ∧ (timCb (timCb s)).alarm = s.alarm := by
  have last := end2_of_none_left now.inStep busy left
  have idle : (timCb s).tx.st = .reset := by rw [timCb_end2 last]
  have still : Sending f before (timCb s) := by
    rcases now.callback with ⟨-, still⟩ | ⟨reset, -⟩
    · exact still
    · exact absurd reset busy
  refine ⟨last, idle, still, ?_, ?_, ?_⟩
  · rcases still.callback with ⟨more, -⟩ | ⟨-, ended⟩
    · exact absurd idle more
    · exact ended
  · rw [timCb_end2 last]
  · rw [timCb_reset idle, timCb_end2 last]

/-- The callback, run from the start of a frame, puts exactly the pulse train of
that frame on the air, one interval a callback; two callbacks later the timer
stops and `done` is given, and neither happens before. -/
theorem timCb_emits_pulseTrain (f : Frame) (pad : U8) (alarm : Nat) (air : List Interval) :
    let ir : Ir := ⟨⟨f, pad, 0, .start0, false⟩, true, false, alarm, air⟩
    (pulseTrain f).length = 140 ∧
    (∀ n p, (pulseTrain f)[n]? = some p →
      (timCb^[n + 1] ir).air = (timCb^[n] ir).air ++ [p] ∧
      (timCb^[n + 1] ir).carrier = p.carrier ∧ (timCb^[n + 1] ir).alarm = p.period) ∧
    (∀ n, 140 ≤ n → n ≤ 142 →
      (timCb^[n] ir).air = air ++ pulseTrain f ∧ (timCb^[n] ir).carrier = false ∧
      (timCb^[n] ir).alarm = (timCb^[140] ir).alarm) ∧
    (∀ n < 142, (timCb^[n] ir).started = true ∧ (timCb^[n] ir).tx.done = false) ∧
    (timCb^[142] ir).started = false ∧ (timCb^[142] ir).tx.done = true ∧
    (timCb^[142] ir).tx.st = .reset ∧ (timCb^[142] ir).tx.bidx = 0 ∧
    (timCb^[142] ir).carrier = false := by
  intro ir
  have sending : Sending f air ir := Sending.start ir rfl rfl rfl rfl
  have fresh : ir.tx.st = .start0 := rfl
  clear_value ir
  obtain ⟨now, busy, left⟩ := sending_iterate sending fresh 140 (Nat.le_refl 140)
  rw [List.drop_eq_nil_of_le (pulseTrain_length f).le] at left
  have next : timCb^[141] ir = timCb (timCb^[140] ir) := Function.iterate_succ_apply' timCb 140 ir
  have final : timCb^[142] ir = timCb (timCb^[141] ir) := Function.iterate_succ_apply' timCb 141 ir
  rw [next] at final
  -- from here on the state at the end of the train is opaque
  generalize full : timCb^[140] ir = s at *
  obtain ⟨last, idle, still, ended, alarm141, alarm142⟩ := now.ends busy left
  rw [← next] at idle still alarm141
  rw [← final] at ended alarm142
  refine ⟨pulseTrain_length f, fun n p here => ?_, fun n low high => ?_, fun n early => ?_,
    ended.started, ended.done, ended.st, ended.bidx, ended.carrier⟩
  · have pulses := pulses_iterate sending fresh n p here
    exact ⟨pulses.air, pulses.carrier, pulses.alarm⟩
  · have cases : n = 140 ∨ n = 141 ∨ n = 142 := by omega
    rcases cases with rfl | rfl | rfl
    · have wave := now.wave
      rw [left, List.append_nil] at wave
      rw [full]
      exact ⟨wave, now.level (Or.inl last), rfl⟩
    · have wave := still.wave
      simp only [pulsesLeft, idle, List.append_nil] at wave
      exact ⟨wave, still.level (Or.inr idle), alarm141⟩
    · exact ⟨ended.air, ended.carrier, alarm142⟩
  · by_cases train : n ≤ 140
    · have at_n := (sending_iterate sending fresh n train).1
      exact ⟨at_n.started, at_n.done⟩
    · have eq : n = 141 := by omega
      subst eq
      exact ⟨still.started, still.done⟩

end IrCtl

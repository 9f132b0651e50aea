import IrCtl.Gree.Receiver

/-!
# The transmitter over time

How long the calls keep the timer running, to the microsecond, and that the
carrier is never left on.
-/

namespace IrCtl

open Transition

/-! ### How long a wave is -/

def airtime (air : List Interval) : Nat := (air.map Interval.period).sum

/-- The bits of a frame that go on the air set. -/
def Frame.ones (f : Frame) : Nat :=
  (List.range' 0 35).countP f.bit + (List.range' 40 32).countP f.bit

@[simp] theorem airtime_append (air air' : List Interval) :
    airtime (air ++ air') = airtime air + airtime air' := by
  simp [airtime]

@[simp] theorem airtime_cons (p : Interval) (air : List Interval) :
    airtime (p :: air) = p.period + airtime air := by
  simp [airtime]

@[simp] theorem airtime_nil : airtime [] = 0 := rfl

/-- A bit takes 1240 microseconds, a set one 1040 more. -/
theorem airtime_bitsPulses (f : Frame) (i n : Nat) :
    airtime (bitsPulses f i n) = 1240 * n + 1040 * (List.range' i n).countP f.bit := by
  induction n generalizing i with
  | zero => rfl
  | succ n ih =>
    rw [bitsPulses_succ, airtime_append, ih, List.range'_succ, List.countP_cons]
    cases f.bit i <;> simp [bitPulses, mark, space] <;> omega

theorem airtime_pulseTrain (f : Frame) : airtime (pulseTrain f) = 157780 + 1040 * f.ones := by
  simp only [pulseTrain, secondHalf, airtime_append, airtime_cons, airtime_nil, airtime_bitsPulses,
    mark, space, Frame.ones]
  omega

theorem airtime_flatMap (fs : List Frame) :
    airtime (fs.flatMap pulseTrain) = (fs.map fun f => 157780 + 1040 * f.ones).sum := by
  induction fs with
  | nil => rfl
  | cons f fs ih => rw [List.flatMap_cons, airtime_append, airtime_pulseTrain, ih]; rfl

/-! ### One callback -/

section Callback

variable {ir : Ir}

theorem timCb_tx (ir : Ir) : (timCb ir).tx = (timCbSwitch ir).1.tx := by
  simp only [timCb, setAlarm, irCwaveOff, irCwaveOn]
  repeat' split
  all_goals rfl

/-- In a busy state the callback sets what its switch says. -/
theorem timCb_busy (busy : (timCb ir).tx.st ≠ .reset) :
    (timCb ir).alarm = (timCbSwitch ir).2 ∧ (timCb ir).carrier = carrierAfter (timCb ir).tx.st ∧
      (timCb ir).started = (timCbSwitch ir).1.started := by
  rw [timCb_tx] at busy ⊢
  simp only [timCb, busy, ne_eq, not_false_eq_true, if_true, setAlarm, carrierAfter]
  split
  · next odd => exact ⟨trivial, (decide_eq_false odd).symm, rfl⟩
  · next even => simpa [irCwaveOn] using even

theorem timCbSwitch_bits1 (st : ir.tx.st = .bits1) :
    (timCbSwitch ir).1.tx.st = .joint0 ∨ (timCbSwitch ir).1.tx.st = .end0 ∨
      (timCbSwitch ir).1.tx.st = .bits0 := by
  simp only [timCbSwitch, st]
  split_ifs <;> simp

/-- The callback that enters `end2` has set the last interval of the wave. -/
theorem timCb_to_end2 (last : (timCb ir).tx.st = .end2) : (timCb ir).alarm = 40000 := by
  have busy : (timCb ir).tx.st ≠ .reset := by simp [last]
  rw [(timCb_busy busy).1]
  rw [timCb_tx] at last
  -- only `end1` goes on to `end2`
  cases st : ir.tx.st
  case end1 => simp [timCbSwitch, st, periodStmEndS1]
  case bits1 => rcases timCbSwitch_bits1 st with next | next | next <;> simp [next] at last
  all_goals simp [timCbSwitch, st] at last

theorem carrierAfter_iff (st : GreeStMachine) : carrierAfter st = true ↔
    st = .reset ∨ st = .start1 ∨ st = .bits1 ∨ st = .joint1 ∨ st = .end1 := by
  cases st <;> decide

/-- The callback that follows a mark turns the carrier off. -/
theorem timCb_behind_mark (busy : ir.tx.st ≠ .reset) (level : carrierAfter ir.tx.st = true) :
    (timCb ir).carrier = false := by
  have next : (timCb ir).tx.st ≠ .reset ∧ carrierAfter (timCb ir).tx.st = false := by
    rw [timCb_tx]
    rw [carrierAfter_iff] at level
    unfold timCbSwitch
    -- from each state that has entered a mark, the next state has a space
    rcases level with st | st | st | st | st
    · exact absurd st busy
    · simp [st, carrierAfter, GreeStMachine.value]
    · simp only [st]
      split_ifs <;> decide
    · simp [st, carrierAfter, GreeStMachine.value]
    · simp [st, carrierAfter, GreeStMachine.value]
  rw [(timCb_busy next.1).2.1, next.2]

theorem timCb_mark (busy : (timCb ir).tx.st ≠ .reset) (on : (timCb ir).carrier = true) :
    (timCb ir).alarm ≤ 9000 ∧ (timCb (timCb ir)).carrier = false := by
  have level := (timCb_busy busy).2.1.symm.trans on
  refine ⟨?_, timCb_behind_mark busy level⟩
  rw [(timCb_busy busy).1]
  rw [timCb_tx] at busy level
  rw [carrierAfter_iff] at level
  -- the states that go on to a mark, and those that do not
  cases st : ir.tx.st
  case start0 => simp [timCbSwitch, st, periodStmStartS0]
  case bits0 => simp [timCbSwitch, st, periodStmBit0S0, periodStmBit1S0]
  case joint0 => simp [timCbSwitch, st, periodStmJointS0]
  case end0 => simp [timCbSwitch, st, periodStmEndS0]
  case bits1 => rcases timCbSwitch_bits1 st with next | next | next <;> simp [next] at level
  case reset | end2 => simp [timCbSwitch, st] at busy
  all_goals simp [timCbSwitch, st] at level

/-- The carrier is on while a mark is under way, 9 milliseconds at most, and the
callback that ends the mark turns it off. -/
structure CarrierOn (ir : Ir) : Prop where
  started : ir.started = true
  alarm : ir.alarm ≤ 9000
  next : (timCb ir).carrier = false

theorem Sending.carrierOn {f : Frame} {before : List Interval} (sending : Sending f before ir)
    (on : (timCb ir).carrier = true) : CarrierOn (timCb ir) := by
  rcases sending.callback with ⟨-, still⟩ | ⟨-, ended⟩
  · have busy : (timCb ir).tx.st ≠ .reset := by
      intro reset
      rw [still.level (Or.inr reset)] at on
      cases on
    obtain ⟨alarm, next⟩ := timCb_mark busy on
    exact ⟨still.started, alarm, next⟩
  · rw [ended.carrier] at on
    cases on

end Callback

/-! ### How long the calls take -/

/-- What the timer counts before a step: the alarm, if the callback is due. -/
def timerTime {ι : Type} (s : Dev ι) : DevAct ι → Nat
  | .alarm => s.ir.alarm
  | .task _ => 0

/-- The microseconds the timer has counted in a run. -/
def elapsed {ι : Type} [DecidableEq ι] (hdl : ι) : Dev ι → List (DevAct ι) → Nat :=
  ghost (devStep hdl) (fun n s a => n + timerTime s a) 0

/-- What the timer counts besides the waves: 1000 before the first frame of a
pair, 40000 before the second, and 40000 behind either. -/
def gaps (n : Nat) : Nat := 121000 * (n / 2) + 41000 * (n % 2)

def lead (n : Nat) : Nat :=
  -- the second frame is started with the alarm `STM_END1` has set
  if n % 2 = 0 then 1000 else 40000

theorem gaps_succ (n : Nat) : gaps (n + 1) = gaps n + lead n + 40000 := by
  rw [gaps, gaps, lead]
  split <;> omega

section Clocked

variable {ι : Type} {s s' : Dev ι} {n : Nat}

/-- The timer has counted `n` microseconds in all. -/
structure Clocked (s : Dev ι) (n : Nat) : Prop where
  inv : DevInv s
  stopped : s.ir.started = false → n = gaps s.sent.length + airtime s.ir.air
  -- an interval is on the air from its beginning, and counted at its end
  running : s.ir.started = true → n + s.ir.alarm =
    gaps s.sent.length + lead s.sent.length + airtime s.ir.air +
      if s.ir.tx.st = .reset then 40000 else 0
  last : s.ir.tx.st = .end2 ∨ s.ir.tx.done = true → s.ir.alarm = 40000
  reset : s.ir.started = true → s.ir.tx.st = .reset → s.ir.alarm = 40000

theorem announced_even (calls : List AcCall) (cfg : AcCfg) :
    (announced cfg calls).length % 2 = 0 := by
  induction calls generalizing cfg with
  | nil => rfl
  | cons c calls ih =>
    have rest := ih (c.store cfg)
    rw [announced, List.length_append]
    split <;> simp only [framePair, List.length_cons, List.length_nil] <;> omega

/-- The callback keeps the count. -/
theorem Clocked.alarm (clocked : Clocked s n) (started : s.ir.started = true) (inv : DevInv s')
    (after : s' = { s with
      ir := timCb s.ir
      sent := if s.ir.tx.st = .reset then s.sent ++ [s.ir.tx.frame] else s.sent }) :
    Clocked s' (n + s.ir.alarm) := by
  obtain ⟨f, before, sending⟩ := clocked.inv.sending started
  have counted := clocked.running started
  by_cases idle : s.ir.tx.st = .reset
  · -- the frame is complete and the timer stops
    have cb := timCb_reset idle
    rw [if_pos idle] at after counted
    subst after
    refine ⟨inv, ?_, ?_, ?_, ?_⟩
    · intro _
      dsimp only
      rw [List.length_append, List.length_singleton, gaps_succ, cb]
      dsimp only
      omega
    · intro running
      simp [cb] at running
    · intro _
      simp only [cb]
      exact clocked.reset started idle
    · intro running
      simp [cb] at running
  · rw [if_neg idle] at after counted
    have now : s'.ir = timCb s.ir := by rw [after]
    have sent : s'.sent = s.sent := by rw [after]
    by_cases last : s.ir.tx.st = .end2
    · -- the last interval of the wave is still being counted
      have cb := timCb_end2 last
      have alarm := clocked.last (Or.inl last)
      refine ⟨inv, ?_, ?_, ?_, ?_⟩ <;> rw [now, cb]
      · intro stopped
        rw [started] at stopped
        cases stopped
      · intro _
        rw [sent]
        dsimp only
        rw [if_pos rfl]
        omega
      · exact fun _ => alarm
      · exact fun _ _ => alarm
    · -- one interval is over and the next begins, as long as the alarm set
      obtain ⟨p, pulses⟩ := timCb_pulses s.ir sending.inStep idle last
      refine ⟨inv, ?_, ?_, ?_, ?_⟩ <;> rw [now]
      · intro stopped
        rw [pulses.started, started] at stopped
        cases stopped
      · intro _
        rw [sent, pulses.alarm, pulses.air, if_neg pulses.busy, airtime_append, airtime_cons,
          airtime_nil]
        omega
      · rintro (ends | given)
        · exact timCb_to_end2 ends
        · rw [pulses.done, sending.done] at given
          cases given
      · exact fun _ reset => absurd reset pulses.busy

/-- What does not touch the transmitter keeps the count. -/
theorem Clocked.congr (clocked : Clocked s n) (inv : DevInv s') (ir : s'.ir = s.ir)
    (sent : s'.sent = s.sent) : Clocked s' n := by
  constructor
  · exact inv
  · rw [ir, sent]
    exact clocked.stopped
  · rw [ir, sent]
    exact clocked.running
  · rw [ir]
    exact clocked.last
  · rw [ir]
    exact clocked.reset

/-- A frame is started from a stopped timer. -/
theorem Clocked.transmitFrame (clocked : Clocked s n) (stopped : s.ir.started = false)
    (inv : DevInv s') {gif : GreeIrframe} {w : World} {ir : Ir}
    (after : s'.ir = (transmitFrame gif w ir).2) (air : ir.air = s.ir.air)
    (done : ir.tx.done = false) (alarm : ir.alarm = lead s.sent.length)
    (sent : s'.sent = s.sent) : Clocked s' n := by
  have counted := clocked.stopped stopped
  refine ⟨inv, ?_, ?_, ?_, ?_⟩ <;> rw [after, IrCtl.transmitFrame]
  · intro stopped'
    cases stopped'
  · intro _
    dsimp only
    rw [if_neg (by simp), alarm, air, sent]
    omega
  · rintro (ends | given)
    · cases ends
    · rw [done] at given
      cases given
  · intro _ reset
    cases reset

variable [DecidableEq ι]

theorem Clocked.step {t : ι} (clocked : Clocked s n) (moved : s.step t = some s')
    (inv : DevInv s') : Clocked s' n := by
  cases Dev.step_cases moved with
  | take c k now free after => exact clocked.congr inv (by rw [after]) (by rw [after])
  | perform o k now other after => exact clocked.congr inv (by rw [after]) (by rw [after])
  | give c k seen now after => exact clocked.congr inv (by rw [after]) (by rw [after])
  | body c k now after =>
    obtain ⟨-, here, -⟩ := clocked.inv.inCall now
    have quiet : Quiet s s.calls := here
    cases transmits : c.transmits s.world.cfg with
    | true =>
      rw [greeAcOps_transmits quiet.st transmits] at after
      -- the calls so far have sent whole pairs
      have even : lead s.sent.length = 1000 := by
        rw [lead, quiet.sent, if_pos (announced_even s.calls gacCfg)]
      have starts : s'.ir = (IrCtl.transmitFrame (loadFrame0 (c.store s.world.cfg)) s.world
          { s.ir with alarm := 1000, carrier := false }).2 := by rw [after]; rfl
      exact clocked.transmitFrame quiet.started inv starts rfl quiet.done even.symm (by rw [after])
    | false =>
      rw [greeAcOps_silent transmits] at after
      exact clocked.congr inv (by rw [after]) (by rw [after])
  | wait0 c k seen now given after =>
    obtain ⟨-, ⟨-, -, -, sends⟩, -⟩ := clocked.inv.inCall now
    obtain ⟨ended, sent⟩ := sends.complete given
    -- one frame of the pair is behind, and its last alarm is still set
    have odd : lead s.sent.length = 40000 := by
      have even := announced_even s.calls gacCfg
      rw [lead, sent, List.length_append, List.length_singleton, if_neg (by omega)]
    have alarm := clocked.last (Or.inr given)
    have starts : s'.ir = (IrCtl.transmitFrame (loadFrame1 s.world.cfg) s.world
        { s.ir with tx := { s.ir.tx with done := false } }).2 := by rw [after]; rfl
    exact clocked.transmitFrame ended.started inv starts rfl rfl (alarm.trans odd.symm)
      (by rw [after])
  | wait1 c k seen now given after =>
    obtain ⟨-, ⟨-, -, -, sends⟩, -⟩ := clocked.inv.inCall now
    obtain ⟨ended, -⟩ := sends.complete given
    subst after
    refine ⟨inv, clocked.stopped, ?_, ?_, ?_⟩
    · intro running
      rw [ended.started] at running
      cases running
    · rintro (ends | given')
      · rw [ended.st] at ends
        cases ends
      · cases given'
    · intro running
      rw [ended.started] at running
      cases running

theorem devStep_clocked {hdl : ι} {a : DevAct ι} (clocked : Clocked s n)
    (stepped : devStep hdl s a = some s') : Clocked s' (n + timerTime s a) := by
  have inv : DevInv s' := devStep_inv clocked.inv stepped
  cases devStep_cases stepped with
  | start t p may now after => exact clocked.congr inv (by rw [after]) (by rw [after])
  | step t may moved => exact clocked.step moved inv
  | clock gtick after => exact clocked.congr inv (by rw [after]) (by rw [after])
  | alarm started after => exact clocked.alarm started inv after

omit [DecidableEq ι] in
theorem Clocked.boot (gtick : Int) : Clocked (Dev.boot gtick : Dev ι) 0 := by
  refine ⟨Dev.boot_inv gtick, fun _ => by simp [Dev.boot, gaps], ?_, ?_, ?_⟩
  · intro running
    cases running
  · rintro (ends | given)
    · cases ends
    · cases given
  · intro running
    cases running

/-- Whole pairs have equal gaps: 60500 a frame. -/
theorem gaps_even {fs : List Frame} (even : fs.length % 2 = 0) :
    gaps fs.length + (fs.map fun f => 157780 + 1040 * f.ones).sum =
      (fs.map fun f => 218280 + 1040 * f.ones).sum := by
  have each : ∀ fs : List Frame, 60500 * fs.length + (fs.map fun f => 157780 + 1040 * f.ones).sum =
      (fs.map fun f => 218280 + 1040 * f.ones).sum := by
    intro fs
    induction fs with
    | nil => rfl
    | cons f fs ih =>
      simp only [List.length_cons, List.map_cons, List.sum_cons, ← ih]
      omega
  rw [← each, gaps, even]
  omega

/-- Whatever is called in whatever order, between calls the timer has run for
exactly this long: for each frame the wave, by the bits set in it, and the gaps
around it. -/
theorem devStep_airtime {hdl : ι} {gtick : Int} {as : List (DevAct ι)} {s : Dev ι}
    (reached : run (devStep hdl) (.boot gtick) as = some s) (free : s.mutex = none) :
    elapsed hdl (.boot gtick) as =
      (s.sent.map fun f => 218280 + 1040 * f.ones).sum := by
  have clocked : Clocked s (elapsed hdl (.boot gtick) as) :=
    run_ghost (fun _ _ _ _ => devStep_clocked) (Clocked.boot gtick) reached
  obtain ⟨quiet, -⟩ := clocked.inv.free free
  rw [clocked.stopped quiet.started, quiet.air, airtime_flatMap]
  apply gaps_even
  rw [quiet.sent]
  exact announced_even s.calls gacCfg

end Clocked

/-- The steps of one `ac_open`. -/
def oneOpen : List (DevAct Unit) :=
  .task (.start () acOpen) :: List.replicate 2 (.task (.step ())) ++ List.replicate 142 .alarm ++
    [.task (.step ())] ++ List.replicate 142 .alarm ++ List.replicate 2 (.task (.step ()))

/-- It takes 468 milliseconds. -/
theorem devStep_airtime_oneOpen : ∃ s, run (devStep ()) (.boot 0) oneOpen = some s ∧
    s.mutex = none ∧ elapsed () (.boot 0) oneOpen =
      (s.sent.map fun f => 218280 + 1040 * f.ones).sum := by
  have view : (run (devStep ()) (.boot 0) oneOpen).map (fun s => s.mutex) = some none := by
    decide +kernel
  obtain ⟨s, reached, free⟩ := Option.map_eq_some_iff.mp view
  exact ⟨s, reached, free, devStep_airtime reached free⟩

/-! ### The carrier -/

/-- Marks and spaces take turns, a mark first, and no mark is long. -/
def Alternates (air : List Interval) : Prop :=
  ∀ i p, air[i]? = some p →
    (p.carrier = true ↔ i % 2 = 0) ∧ (p.carrier = true → p.period ≤ 9000)

theorem alternates_nil : Alternates [] := by
  intro i p here
  cases here

theorem alternates_append {air air' : List Interval} (even : air.length % 2 = 0)
    (first : Alternates air) (second : Alternates air') : Alternates (air ++ air') := by
  intro i p here
  by_cases within : i < air.length
  · rw [List.getElem?_append_left within] at here
    exact first i p here
  · rw [List.getElem?_append_right (by omega)] at here
    obtain ⟨level, short⟩ := second _ p here
    -- behind an even number of intervals marks are at even places again
    have parity : (i - air.length) % 2 = i % 2 := by omega
    rw [parity] at level
    exact ⟨level, short⟩

theorem alternates_prefix {air air' : List Interval} (pre : air <+: air')
    (whole : Alternates air') : Alternates air := by
  intro i p here
  obtain ⟨bound, -⟩ := List.getElem?_eq_some_iff.mp here
  obtain ⟨rest, rfl⟩ := pre
  exact whole i p (by rw [List.getElem?_append_left bound, here])

theorem alternates_pair {m n : Nat} (short : m ≤ 9000) : Alternates [mark m, space n] := by
  intro i p here
  match i with
  | 0 => cases here; simpa [mark] using short
  | 1 => cases here; simp [space]
  | i + 2 => cases here

theorem alternates_bitsPulses (f : Frame) (i n : Nat) : Alternates (bitsPulses f i n) := by
  induction n generalizing i with
  | zero => exact alternates_nil
  | succ n ih =>
    rw [bitsPulses_succ]
    exact alternates_append (by simp [bitPulses]) (alternates_pair (by decide)) (ih (i + 1))

theorem alternates_pulseTrain (f : Frame) : Alternates (pulseTrain f) := by
  have bits : ∀ i n, (bitsPulses f i n).length % 2 = 0 := by
    intro i n
    rw [bitsPulses_length]
    omega
  rw [pulseTrain, secondHalf]
  refine alternates_append ?_ (alternates_append ?_ (alternates_append rfl ?_ ?_) ?_)
    (alternates_append (bits 40 32) (alternates_bitsPulses f 40 32) ?_)
  all_goals first
    | exact alternates_pair (by decide)
    | exact alternates_bitsPulses f 0 35
    | simp only [List.length_append, bitsPulses_length, List.length_cons, List.length_nil]

theorem alternates_flatMap (fs : List Frame) : Alternates (fs.flatMap pulseTrain) := by
  induction fs with
  | nil => exact alternates_nil
  | cons f fs ih =>
    rw [List.flatMap_cons]
    exact alternates_append (by rw [pulseTrain_length]) (alternates_pulseTrain f) ih

section Safety

variable {ι : Type} {s s' : Dev ι}

theorem Carries.alternates {whole : List Frame} {part : List Interval}
    (carries : Carries s whole part) : Alternates s.ir.air := by
  have even : (whole.flatMap pulseTrain).length % 2 = 0 := by
    rw [List.length_flatMap]
    simp [pulseTrain_length]
    omega
  rw [carries.air]
  refine alternates_append even (alternates_flatMap whole) ?_
  rcases carries.loaded with ⟨-, rfl⟩ | ⟨f, -, pre⟩
  · exact alternates_nil
  · exact alternates_prefix pre (alternates_pulseTrain f)

/-- The light is on only while the timer is about to turn it off. -/
structure CarrierSafe (s : Dev ι) : Prop where
  inv : DevInv s
  on : s.ir.carrier = true → CarrierOn s.ir

variable [DecidableEq ι]

theorem devStep_carrierSafe {hdl : ι} {a : DevAct ι} (safe : CarrierSafe s)
    (stepped : devStep hdl s a = some s') : CarrierSafe s' := by
  refine ⟨devStep_inv safe.inv stepped, ?_⟩
  cases devStep_cases stepped with
  | start t p may now after => subst after; exact safe.on
  | clock gtick after => subst after; exact safe.on
  | alarm started after =>
    obtain ⟨f, before, sending⟩ := safe.inv.sending started
    subst after
    exact sending.carrierOn
  | step t may moved =>
    cases Dev.step_cases moved with
    | take c k now free after => subst after; exact safe.on
    | perform o k now other after => subst after; exact safe.on
    | give c k seen now after => subst after; exact safe.on
    | body c k now after =>
      obtain ⟨-, here, -⟩ := safe.inv.inCall now
      have quiet : Quiet s s.calls := here
      cases transmits : c.transmits s.world.cfg with
      | true =>
        -- `ir_io_init` pauses the carrier
        rw [greeAcOps_transmits quiet.st transmits] at after
        subst after
        intro on
        cases on
      | false =>
        rw [greeAcOps_silent transmits] at after
        subst after
        exact safe.on
    -- behind a complete frame the carrier is off
    | wait0 c k seen now given after =>
      obtain ⟨-, ⟨-, -, -, sends⟩, -⟩ := safe.inv.inCall now
      subst after
      intro on
      have off := (sends.complete given).1.carrier
      exact absurd (on.symm.trans off) (by decide)
    | wait1 c k seen now given after =>
      obtain ⟨-, ⟨-, -, -, sends⟩, -⟩ := safe.inv.inCall now
      subst after
      intro on
      have off := (sends.complete given).1.carrier
      exact absurd (on.symm.trans off) (by decide)

/-- In every run the carrier is on only during a mark, which the running timer
ends within 9 milliseconds, and marks alternate with spaces. -/
theorem devStep_carrier (hdl : ι) (gtick : Int) (as : List (DevAct ι)) :
    Visits (devStep hdl) (fun s => (s.ir.carrier = true → CarrierOn s.ir) ∧ Alternates s.ir.air)
      (.boot gtick) as := by
  apply visits_of_reached
  intro bs s reached
  have boot : CarrierSafe (Dev.boot gtick : Dev ι) :=
    ⟨Dev.boot_inv gtick, fun on => by cases on⟩
  have safe : CarrierSafe s :=
    run_invariant (fun _ _ _ kept stepped => devStep_carrierSafe kept stepped) boot reached
  obtain ⟨whole, part, carries⟩ := safe.inv.carries
  exact ⟨safe.on, carries.alternates⟩

end Safety

end IrCtl

import IrCtl.Mqtt.Handler

/-!
# One thing after another

Runs in which every command and every turn of the soft_timer finishes before
the next begins, and the setpoint such runs put on the air.
-/

namespace IrCtl

open Transition

/-- What either task takes up: an MQTT data event, with what the stack holds
where the request id will be, or a turn of the soft_timer at a clock value. -/
inductive Stim where
  | event (message : MqttEvent) (requestId : List UInt8)
  | tick (gtick : Int)

def Stim.prog (cj : CJson) : Stim → Prog Unit
  | .event message requestId => mqttDataEventHandler cj message requestId
  | .tick gtick => softTimerTurn gtick

/-- What happens to the device. `clock` is the store behind the soft_timer's
first delay, which no turn follows at once. -/
inductive Act where
  | stim (s : Stim)
  | clock (gtick : Int)

/-- The state behind an act. A suspended soft_timer has no turn. -/
def serve (cj : CJson) (w : World) : Act → World
  | .stim (.event message requestId) => (w.exec (mqttDataEventHandler cj message requestId)).2
  | .stim (.tick gtick) => if w.suspended then w else (w.exec (softTimerTurn gtick)).2
  | .clock gtick => { w with gtick := gtick }

def tickCfg (gtick : Int) (cfg : AcCfg) : AcCfg :=
  if vInter (localtime gtick).tmWday 0 6 then
    scheduled (localtime gtick) (timeInSleepAt gtick) cfg
  else cfg

def actCfg (cj : CJson) (w : World) : Act → AcCfg
  | .stim (.event message _) => cmdCfg (cmdCode cj message.data) w.gtick w.cfg
  | .stim (.tick gtick) => if w.suspended then w.cfg else tickCfg gtick w.cfg
  | .clock _ => w.cfg

theorem exec_softTimerTurn (gtick : Int) (w : World) :
    (w.exec (softTimerTurn gtick)).2 =
      World.call { w with gtick := gtick } (.acWriteCfg (tickCfg gtick w.cfg)) := by
  unfold tickCfg
  split
  · next workday =>
    simp only [softTimerTurn, acWeeklayyerAdjust, workday, if_true, acInWorkdayAdjust_eq]
    rfl
  · next weekend =>
    simp [softTimerTurn, acWeeklayyerAdjust, weekend, World.perform, World.call, AcCall.transmits]

/-- An act stores its configuration and puts on the air the pair for it, or
nothing if the configuration stays. -/
theorem serve_spec (cj : CJson) (w : World) (a : Act) :
    (serve cj w a).cfg = actCfg cj w a ∧
      ((serve cj w a).loaded = w.loaded ++ framePair (actCfg cj w a) ∨
        (serve cj w a).loaded = w.loaded ∧ actCfg cj w a = w.cfg) := by
  cases a with
  | clock gtick => exact ⟨rfl, Or.inr ⟨rfl, rfl⟩⟩
  | stim s =>
    cases s with
    | event message requestId =>
      obtain ⟨w', switched, ends⟩ := exec_handler cj message requestId w
      have loaded := switched.loaded
      simp only [serve, actCfg, ends]
      refine ⟨switched.cfg, ?_⟩
      rw [loaded, cmdFrames]
      split
      · exact Or.inl rfl
      · next quiet =>
        simp only [not_or, ne_eq, not_not] at quiet
        exact Or.inr ⟨List.append_nil _, quiet.2.2.symm⟩
    | tick gtick =>
      simp only [serve, actCfg]
      by_cases suspended : w.suspended
      · rw [if_pos suspended, if_pos suspended]
        exact ⟨rfl, Or.inr ⟨rfl, rfl⟩⟩
      · rw [if_neg suspended, if_neg suspended, exec_softTimerTurn]
        refine ⟨call_cfg _ _, ?_⟩
        rw [call_loaded]
        by_cases same : w.cfg = tickCfg gtick w.cfg
        · simp [AcCall.transmits, ← same]
        · simp [AcCall.transmits, AcCall.store, same]

/-! ### The setpoint on the air -/

/-- A temperature the nibble of a frame can carry. -/
def Fits (b : U8) : Prop := 16 ≤ b.toNat ∧ b.toNat ≤ 31

/-- Both setpoints fit, and one of them is in force. -/
structure SetpointsFit (cfg : AcCfg) : Prop where
  act : Fits cfg.tempAct
  slp : Fits cfg.tempSlp
  inForce : cfg.temp = cfg.tempAct ∨ cfg.temp = cfg.tempSlp

theorem SetpointsFit.temp {cfg : AcCfg} (fit : SetpointsFit cfg) : Fits cfg.temp := by
  rcases fit.inForce with act | slp
  · rw [act]
    exact fit.act
  · rw [slp]
    exact fit.slp

theorem gacCfg_fit : SetpointsFit gacCfg :=
  ⟨⟨by decide, by decide⟩, ⟨by decide, by decide⟩, Or.inl rfl⟩

def adjustedSetpoint (gtick : Int) (cfg : AcCfg) : U8 :=
  if timeInSleepAt gtick ≠ 0 then cfg.tempSlp else cfg.tempAct

theorem SetpointsFit.adjustedSetpoint {cfg : AcCfg} (fit : SetpointsFit cfg) (gtick : Int) :
    Fits (adjustedSetpoint gtick cfg) := by
  unfold IrCtl.adjustedSetpoint
  split
  · exact fit.slp
  · exact fit.act

theorem adjusted_temp (by_ : U8) (gtick : Int) (cfg : AcCfg) :
    (adjusted by_ (timeInSleepAt gtick) cfg).temp = adjustedSetpoint gtick cfg + by_ := by
  unfold adjusted adjustedSetpoint
  split <;> rfl

theorem SetpointsFit.adjusted {cfg : AcCfg} (fit : SetpointsFit cfg) {by_ : U8} {gtick : Int}
    (fits : Fits (IrCtl.adjustedSetpoint gtick cfg + by_)) :
    SetpointsFit (adjusted by_ (timeInSleepAt gtick) cfg) := by
  unfold IrCtl.adjustedSetpoint at fits
  unfold IrCtl.adjusted
  split
  · next asleep =>
    rw [if_pos asleep] at fits
    exact ⟨fit.act, fits, Or.inr rfl⟩
  · next awake =>
    rw [if_neg awake] at fits
    exact ⟨fits, fit.slp, Or.inl rfl⟩

theorem SetpointsFit.tick {cfg : AcCfg} (fit : SetpointsFit cfg) (gtick : Int) :
    SetpointsFit (tickCfg gtick cfg) := by
  unfold tickCfg scheduled
  split
  · refine ⟨fit.act, fit.slp, ?_⟩
    by_cases asleep : timeInSleepAt gtick ≠ 0
    · exact Or.inr (if_pos asleep)
    · exact Or.inl (if_neg asleep)
  · exact fit

theorem fits_up {b : U8} (fits : Fits b) : Fits (b + 1) ↔ b.toNat < 31 := by
  have bound := fits.2
  have sum : (b + 1).toNat = b.toNat + 1 := by
    rw [BitVec.toNat_add, Nat.mod_eq_of_lt]
    · rfl
    · change b.toNat + 1 < 256
      omega
  rw [Fits, sum]
  unfold Fits at fits
  omega

theorem fits_down {b : U8} (fits : Fits b) : Fits (b + -1) ↔ 16 < b.toNat := by
  have low := fits.1
  have high := fits.2
  have sum : (b + -1).toNat = b.toNat - 1 := by
    rw [BitVec.toNat_add]
    change (b.toNat + 255) % 256 = b.toNat - 1
    omega
  rw [Fits, sum]
  omega

/-- A `tup` at 31 or a `tdown` at 16 is what the range cannot take. -/
def WithinRange (cj : CJson) (w : World) : Act → Prop
  | .stim (.event message _) =>
    (cmdCode cj message.data = 5 → (adjustedSetpoint w.gtick w.cfg).toNat < 31) ∧
    (cmdCode cj message.data = 6 → 16 < (adjustedSetpoint w.gtick w.cfg).toNat)
  | _ => True

/-- The frames an act puts on the air carry the temperature stored behind it,
the one its reply reports, and no temperature has left the range of a frame. -/
structure SetpointOnAir (cj : CJson) (w : World) (a : Act) : Prop where
  onAir : ∀ f ∈ (serve cj w a).loaded.drop w.loaded.length,
    setpoint f = (serve cj w a).cfg.temp.toNat
  reported : ∀ message requestId, a = .stim (.event message requestId) →
    ∃ others, (serve cj w a).pubs =
      w.pubs ++ cmdReply (cmdCode cj message.data) (serve cj w a) :: others
  inRange : Fits (serve cj w a).cfg.temp ∧ Fits (serve cj w a).cfg.tempAct ∧
    Fits (serve cj w a).cfg.tempSlp

theorem actCfg_fit {cj : CJson} {w : World} (fit : SetpointsFit w.cfg) {a : Act}
    (within : WithinRange cj w a) : SetpointsFit (actCfg cj w a) := by
  cases a with
  | clock gtick => exact fit
  | stim s =>
    cases s with
    | tick gtick =>
      simp only [actCfg]
      split
      · exact fit
      · exact fit.tick gtick
    | event message requestId =>
      have adjusts := fit.adjustedSetpoint w.gtick
      simp only [WithinRange] at within
      simp only [actCfg]
      generalize cmdCode cj message.data = code at within
      induction code using cmdCode_cases with
      | other code outside =>
        rw [cmdCfg_other outside]
        exact fit
      | known i =>
        -- only the two adjusting arms touch a setpoint
        fin_cases i
        case «5» => exact fit.adjusted ((fits_up adjusts).mpr (within.1 rfl))
        case «6» => exact fit.adjusted ((fits_down adjusts).mpr (within.2 rfl))
        all_goals exact ⟨fit.act, fit.slp, fit.inForce⟩

theorem withinRange_of_fits {cj : CJson} {w : World} (fit : SetpointsFit w.cfg) {a : Act}
    (fits : Fits (actCfg cj w a).temp) : WithinRange cj w a := by
  cases a with
  | clock gtick => trivial
  | stim s =>
    cases s with
    | tick gtick => trivial
    | event message requestId =>
      have adjusts := fit.adjustedSetpoint w.gtick
      simp only [actCfg] at fits
      refine ⟨fun up => ?_, fun down => ?_⟩
      · rw [up] at fits
        simp only [cmdCfg, adjusted_temp] at fits
        exact (fits_up adjusts).mp fits
      · rw [down] at fits
        simp only [cmdCfg, adjusted_temp] at fits
        exact (fits_down adjusts).mp fits

theorem setpointOnAir_iff {cj : CJson} {w : World} (fit : SetpointsFit w.cfg) (a : Act) :
    SetpointOnAir cj w a ↔ WithinRange cj w a := by
  obtain ⟨stored, sent⟩ := serve_spec cj w a
  constructor
  · intro onAir
    have fits := onAir.inRange.1
    rw [stored] at fits
    exact withinRange_of_fits fit fits
  · intro within
    have fit' := actCfg_fit fit within
    refine ⟨?_, ?_, ?_⟩
    · intro f member
      rcases sent with pair | ⟨none, -⟩
      · rw [pair, List.drop_left] at member
        rw [stored, setpoint_eq_iff member]
        exact fit'.temp
      · rw [none, List.drop_length] at member
        cases member
    · rintro message requestId rfl
      obtain ⟨w', switched, ends⟩ := exec_handler cj message requestId w
      simp only [serve, ends, switched.pubs, List.append_assoc]
      exact ⟨_, rfl⟩
    · rw [stored]
      exact ⟨fit'.temp, fit'.act, fit'.slp⟩

/-- In a run from boot the air agrees with the store and the replies exactly
when no `tup` meets a setpoint of 31 and no `tdown` one of 16. -/
theorem serve_setpointOnAir_iff (cj : CJson) (gtick : Int) (acts : List Act) :
    Each (serve cj) (SetpointOnAir cj) (.boot gtick) acts ↔
      Each (serve cj) (WithinRange cj) (.boot gtick) acts := by
  apply each_congr (I := fun w => SetpointsFit w.cfg)
  · intro w a fit
    exact setpointOnAir_iff fit a
  · intro w a fit within
    rw [(serve_spec cj w a).1]
    exact actCfg_fit fit within
  · exact gacCfg_fit

def noon : Int := 43200

/-- Eight times up from 24: the frame says 16. -/
theorem serve_eighth_tup :
    ¬ Each (serve flatCJson) (SetpointOnAir flatCJson) (.boot noon)
      (List.replicate 8 (.stim (.event ⟨payload "tup", none, 0⟩ [0]))) := by
  intro each
  let tup : Act := .stim (.event ⟨payload "tup", none, 0⟩ [0])
  let w := (List.replicate 7 tup).foldl (serve flatCJson) (.boot noon)
  have eighth : SetpointOnAir flatCJson w tup := each (List.replicate 7 _) _ (List.prefix_refl _)
  have before : w.cfg = ⟨0, 31, 26, 31, 1⟩ := by decide
  have behind : actCfg flatCJson w tup = ⟨0, 32, 26, 32, 1⟩ := by decide
  obtain ⟨stored, pair | ⟨-, same⟩⟩ := serve_spec flatCJson w tup
  · rw [behind] at stored pair
    have member : (loadFrame0 ⟨0, 32, 26, 32, 1⟩).bits ∈ framePair ⟨0, 32, 26, 32, 1⟩ :=
      mem_framePair.mpr (Or.inl rfl)
    have air := eighth.onAir (loadFrame0 ⟨0, 32, 26, 32, 1⟩).bits (by rwa [pair, List.drop_left])
    rw [stored, setpoint_eq_iff member] at air
    exact absurd air.2 (by decide)
  · rw [before, behind] at same
    exact absurd same (by decide)

end IrCtl

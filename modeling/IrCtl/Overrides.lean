import IrCtl.Schedule

/-!
# What the schedule takes back

Commands and turns one after another: what the next turn of a workday leaves of
the commands before it.
-/

namespace IrCtl

open CString Program Transition

/-- What is not the schedule's to decide: the clock and whether the soft_timer
runs, and the two setpoints. -/
structure Panel where
  gtick : Int
  suspended : Bool
  tempAct : U8
  tempSlp : U8
  deriving DecidableEq, Repr

def World.panel (w : World) : Panel := ⟨w.gtick, w.suspended, w.cfg.tempAct, w.cfg.tempSlp⟩

def Panel.adjusted (by_ : U8) (p : Panel) : Panel :=
  if timeInSleepAt p.gtick ≠ 0 then { p with tempSlp := p.tempSlp + by_ }
  else { p with tempAct := p.tempAct + by_ }

/-- What a command does to the panel. -/
def Panel.command (cmdCode : Int) (p : Panel) : Panel :=
  match cmdCode with
  | 5 => p.adjusted 1
  | 6 => p.adjusted (-1)
  | 7 => { p with suspended := true }
  | 8 => { p with suspended := false }
  | _ => p

def Panel.act (cj : CJson) (p : Panel) : Act → Panel
  | .stim (.event message _) => p.command (cmdCode cj message.data)
  -- of a turn only the clock is left, the setpoints it only reads
  | .stim (.tick gtick) => if p.suspended then p else { p with gtick := gtick }
  | .clock gtick => { p with gtick := gtick }

/-- `tup`, `tdown`, `soft_sus`, `soft_res`, turns and stores to the clock: all but
the commands that switch or ask. -/
def lasting (cj : CJson) : Act → Bool
  | .stim (.event message _) => 5 ≤ cmdCode cj message.data ∧ cmdCode cj message.data ≤ 8
  | .stim (.tick _) | .clock _ => true

section Panel

variable {cj : CJson}

theorem command_other {code : Int} (outside : ¬ (5 ≤ code ∧ code ≤ 8)) (p : Panel) :
    p.command code = p := by
  unfold Panel.command
  split <;> first | omega | rfl

theorem panel_adjusted (by_ : U8) (gtick : Int) (suspended : Bool) (cfg : AcCfg) :
    Panel.mk gtick suspended (adjusted by_ (timeInSleepAt gtick) cfg).tempAct
        (adjusted by_ (timeInSleepAt gtick) cfg).tempSlp =
      (Panel.mk gtick suspended cfg.tempAct cfg.tempSlp).adjusted by_ := by
  unfold adjusted Panel.adjusted
  split <;> rfl

theorem switchCmd_panel (code : Int) (w : World) :
    (w.exec (switchCmd code w.cfg)).2.panel = w.panel.command code := by
  induction code using cmdCode_cases with
  | other code outside =>
    have neither : ¬ (5 ≤ code ∧ code ≤ 8) := by omega
    rw [switchCmd_other outside, command_other neither]
    rfl
  | known i =>
    fin_cases i <;>
      simp [switchCmd, Panel.command, World.panel, acOpen, acClose, acWriteCfg, adjustArm, timeInSleep,
        softTimerSuspend, softTimerResume, defaultArm, publish, World.perform, AcCall.store, toggled,
        panel_adjusted]

theorem handler_panel (cj : CJson) (event : MqttEvent) (requestId : List UInt8) (w : World) :
    (w.exec (mqttDataEventHandler cj event requestId)).2.panel =
      w.panel.command (cmdCode cj event.data) := by
  simp only [mqttDataEventHandler, World.exec, exec_bind]
  have parse := exec_jsonParse cj event.data w
  have answer := exec_respond event requestId
  simp only [World.exec] at parse answer
  rw [parse, answer]
  exact switchCmd_panel _ { w with heap := jsonLeak cj event.data w.heap }

theorem tickCfg_setpoints (gtick : Int) (cfg : AcCfg) :
    (tickCfg gtick cfg).tempAct = cfg.tempAct ∧ (tickCfg gtick cfg).tempSlp = cfg.tempSlp := by
  unfold tickCfg
  split <;> exact ⟨rfl, rfl⟩

/-- What an act does to the panel depends on the panel alone. -/
theorem serve_panel (cj : CJson) (w : World) (a : Act) : (serve cj w a).panel = w.panel.act cj a := by
  cases a with
  | clock gtick => rfl
  | stim s =>
    cases s with
    | event message requestId => exact handler_panel cj message requestId w
    | tick gtick =>
      -- the turn of a suspended soft_timer does not come
      by_cases suspended : w.suspended = true
      · have shown : w.panel.suspended = true := suspended
        rw [serve, Panel.act, if_pos suspended, if_pos shown]
      · have shown : ¬ w.panel.suspended = true := suspended
        rw [serve, Panel.act, if_neg suspended, if_neg shown, exec_softTimerTurn]
        simp [World.panel, AcCall.store, tickCfg_setpoints]

theorem act_of_not_lasting {a : Act} (passes : lasting cj a = false) (p : Panel) :
    p.act cj a = p := by
  cases a with
  | clock gtick => cases passes
  | stim s =>
    cases s with
    | tick gtick => cases passes
    | event message requestId => exact command_other (of_decide_eq_false passes) p

/-- Behind a turn of a workday the configuration is the panel's. -/
theorem turn_cfg {w : World} {gtick : Int} (work : Workday gtick) (running : w.suspended = false) :
    (serve cj w (.stim (.tick gtick))).cfg =
      decided (decision gtick) ⟨0, w.panel.tempAct, w.panel.tempSlp, 0, 0⟩ := by
  rw [serve, if_neg (by simp [running]), exec_softTimerTurn, call_cfg, AcCall.store,
    tickCfg_workday work]
  rfl

end Panel

/-- The commands that switch or ask leave no trace: two runs with the same
adjustments, suspensions and turns, whatever else has come in between them, are
set alike by the next turn of a workday. -/
theorem switches_forgotten {cj : CJson} {w w' : World} {as bs : List Act} {gtick : Int}
    (alike : w.panel = w'.panel) (same : as.filter (lasting cj) = bs.filter (lasting cj))
    (work : Workday gtick) (running : (as.foldl (serve cj) w).suspended = false) :
    (serve cj (as.foldl (serve cj) w) (.stim (.tick gtick))).cfg =
      (serve cj (bs.foldl (serve cj) w') (.stim (.tick gtick))).cfg := by
  have panels : (as.foldl (serve cj) w).panel = (bs.foldl (serve cj) w').panel := by
    -- the panel is changed by the lasting acts alone, and from itself alone
    apply view_foldl_of_filter ?_ ?_ alike same
    · intro s t a alike
      rw [serve_panel, serve_panel, alike]
    · intro s a passes
      rw [serve_panel, act_of_not_lasting passes]
  have running' : (bs.foldl (serve cj) w').suspended = false :=
    (congrArg Panel.suspended panels).symm.trans running
  rw [turn_cfg work running, turn_cfg work running', panels]

/-- An `open_ac` before noon. -/
theorem switches_forgotten_noon :
    (serve flatCJson
        (serve flatCJson (.boot 0) (.stim (.event ⟨payload "open_ac", none, 0⟩ [0])))
        (.stim (.tick noon))).cfg =
      (serve flatCJson (.boot 0) (.stim (.tick noon))).cfg := by
  have alike : (World.boot 0).panel = (World.boot 0).panel := rfl
  have same : [Act.stim (.event ⟨payload "open_ac", none, 0⟩ [0])].filter (lasting flatCJson) =
      [].filter (lasting flatCJson) := rfl
  exact switches_forgotten alike same (by decide) rfl

end IrCtl

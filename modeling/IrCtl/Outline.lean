import IrCtl.Serial

/-!
# Outlines

What is left of the tasks' programs when only the accesses to the stored
configuration and to the clock are looked at, and the invariant of the
configuration that every such access keeps.
-/

namespace IrCtl

open CString Program

/-- The operations without access to the configuration or the clock's value. -/
def quiet : (o : Op) → Option (Op.Res o)
  | .ac _ | .gtick => none
  | .setGtick _ => some ()
  | .publish _ _ => some ()
  | .heap _ => some ()
  | .suspend => some ()
  | .resume => some ()

theorem perform_quiet {o : Op} {r : Op.Res o} (known : quiet o = some r) (w : World) :
    (World.perform o w).1 = r ∧ (World.perform o w).2.cfg = w.cfg ∧
      (World.perform o w).2.loaded = w.loaded := by
  cases o with
  | ac call => cases known
  | gtick => cases known
  | setGtick g => exact ⟨rfl, rfl, rfl⟩
  | publish topic data => exact ⟨rfl, rfl, rfl⟩
  | heap h => exact ⟨rfl, rfl, rfl⟩
  | suspend => exact ⟨rfl, rfl, rfl⟩
  | resume => exact ⟨rfl, rfl, rfl⟩

/-! ### Plans -/

/-- What a stimulus means to do with the stored configuration. -/
inductive Plan where
  | nothing
  | look
  | switch (on : Bool)
  | toggle
  | adjust (by_ : U8)
  | schedule (tm : Tm)
  deriving DecidableEq, Repr

def Plan.cfg (asleep : Int) (cfg : AcCfg) : Plan → AcCfg
  | .nothing | .look => cfg
  | .switch on => { cfg with open_ := if on then 1 else 0 }
  | .toggle => toggled cfg
  | .adjust by_ => adjusted by_ asleep cfg
  | .schedule tm => scheduled tm asleep cfg

/-- How a plan is carried out by a task that has read the configuration. -/
def Plan.arm (cfg : AcCfg) : Plan → Prog Unit
  | .nothing => .ret ()
  | .look => .op .gtick fun _ => .ret ()
  | .switch on => if on then acOpen else acClose
  | .toggle => acWriteCfg (toggled cfg)
  | .adjust by_ => .op .gtick fun gtick => acWriteCfg (adjusted by_ (timeInSleepAt gtick) cfg)
  | .schedule tm => .op .gtick fun gtick => acWriteCfg (scheduled tm (timeInSleepAt gtick) cfg)

def cmdPlan (cmdCode : Int) : Plan :=
  match cmdCode with
  | 0 => .switch true
  | 1 => .switch false
  | 2 => .look
  | 4 => .toggle
  | 5 => .adjust 1
  | 6 => .adjust (-1)
  | _ => .nothing

def Stim.plan (cj : CJson) : Stim → Plan
  | .event message _ => cmdPlan (cmdCode cj message.data)
  | .tick gtick =>
    if vInter (localtime gtick).tmWday 0 6 then .schedule (localtime gtick) else .nothing

theorem cmdPlan_other {code : Int} (outside : code < 0 ∨ 8 < code) : cmdPlan code = .nothing := by
  unfold cmdPlan
  split <;> first | omega | rfl

theorem erase_jsonParse (cj : CJson) (data : List UInt8) :
    erase quiet (jsonParse cj data) = .ret (cmdCode cj data) := by
  unfold jsonParse cmdCode cmdText
  cases cj.parse (ofMem data) with
  | none => rfl
  | some tree =>
    cases found : cj.getObjectItem tree (lit "cmd") with
    | none =>
      simp only [Option.isSome_some, Option.bind_some, found, Option.map_none, Option.bind_none]
      rfl
    | some cmd =>
      simp only [Option.isSome_some, Option.bind_some, found, Option.map_some]
      cases index : cmdIndex (cj.print cmd) with
      | none => rfl
      | some i => rfl

theorem erase_respond (event : MqttEvent) (requestId : List UInt8) :
    erase quiet (respond event requestId) = .ret () := by
  simp only [respond]
  split <;> rfl

theorem erase_switchCmd (code : Int) (cfg : AcCfg) :
    erase quiet (switchCmd code cfg) = (cmdPlan code).arm cfg := by
  induction code using cmdCode_cases with
  | known i => fin_cases i <;> rfl
  | other code outside =>
    rw [switchCmd_other outside, cmdPlan_other outside]
    rfl

private theorem bind_ret (p : Prog Unit) : (p >>= fun _ => .ret ()) = p := by
  induction p with
  | ret a => rfl
  | op o k ih =>
    rw [op_bind]
    congr 1
    funext r
    exact ih r

/-- The handler reads, then carries out its plan on what it has read. -/
theorem erase_handler (cj : CJson) (event : MqttEvent) (requestId : List UInt8) :
    erase quiet (mqttDataEventHandler cj event requestId) =
      .op (.ac .acReadCfg) fun cfg => (cmdPlan (cmdCode cj event.data)).arm cfg := by
  simp only [mqttDataEventHandler, erase_bind, erase_jsonParse, ret_bind, erase_switchCmd,
    erase_respond, bind_ret]
  rfl

theorem erase_softTimerTurn (gtick : Int) :
    erase quiet (softTimerTurn gtick) =
      if vInter (localtime gtick).tmWday 0 6 then
        .op (.ac .acReadCfg) fun cfg => (Plan.schedule (localtime gtick)).arm cfg
      else .ret () := by
  simp only [softTimerTurn, acWeeklayyerAdjust]
  split
  · rw [acInWorkdayAdjust_eq]
    rfl
  · rfl

/-- Every stimulus is a read followed by its plan, but for a weekend turn,
which has no plan and does not read. -/
theorem erase_prog (cj : CJson) (s : Stim) :
    erase quiet (s.prog cj) = .op (.ac .acReadCfg) (fun cfg => (s.plan cj).arm cfg) ∨
    erase quiet (s.prog cj) = .ret () ∧ s.plan cj = .nothing := by
  cases s with
  | event message requestId => exact Or.inl (erase_handler cj message requestId)
  | tick gtick =>
    simp only [Stim.prog, Stim.plan, erase_softTimerTurn]
    split
    · exact Or.inl rfl
    · exact Or.inr ⟨rfl, rfl⟩

/-! ### The invariant of the configuration -/

/-- Power and sleep are switches, and one of the two setpoints is in force. -/
structure CfgOk (cfg : AcCfg) : Prop where
  open_ : cfg.open_ = 0 ∨ cfg.open_ = 1
  sleep : cfg.sleep = 0 ∨ cfg.sleep = 1
  inForce : cfg.temp = cfg.tempAct ∨ cfg.temp = cfg.tempSlp

theorem gacCfg_ok : CfgOk gacCfg := ⟨Or.inl rfl, Or.inr rfl, Or.inl rfl⟩

theorem CfgOk.switched {cfg : AcCfg} (ok : CfgOk cfg) {b : U8} (switch : b = 0 ∨ b = 1) :
    CfgOk { cfg with open_ := b } :=
  ⟨switch, ok.sleep, ok.inForce⟩

theorem CfgOk.toggled {cfg : AcCfg} (ok : CfgOk cfg) : CfgOk (toggled cfg) := by
  unfold IrCtl.toggled
  split
  · exact ok.switched (Or.inl rfl)
  · exact ok.switched (Or.inr rfl)

theorem CfgOk.adjusted {cfg : AcCfg} (ok : CfgOk cfg) (by_ : U8) (asleep : Int) :
    CfgOk (adjusted by_ asleep cfg) := by
  unfold IrCtl.adjusted
  split
  · exact ⟨ok.open_, ok.sleep, Or.inr rfl⟩
  · exact ⟨ok.open_, ok.sleep, Or.inl rfl⟩

theorem CfgOk.scheduled {cfg : AcCfg} (tm : Tm) (asleep : Int) : CfgOk (scheduled tm asleep cfg) := by
  unfold IrCtl.scheduled
  by_cases sleeping : asleep ≠ 0
  · refine ⟨scheduledOpen_switch tm, Or.inr (if_pos sleeping), Or.inr (if_pos sleeping)⟩
  · refine ⟨scheduledOpen_switch tm, Or.inl (if_neg sleeping), Or.inl (if_neg sleeping)⟩

/-- The stored configuration is in order, and so was every one announced. -/
structure WorldOk (w : World) : Prop where
  cfg : CfgOk w.cfg
  pairs : ∃ cfgs : List AcCfg, w.loaded = cfgs.flatMap framePair ∧ ∀ cfg ∈ cfgs, CfgOk cfg

theorem WorldOk.boot (gtick : Int) : WorldOk (.boot gtick) := by
  refine ⟨gacCfg_ok, [], rfl, ?_⟩
  intro cfg member
  cases member

theorem WorldOk.call {w : World} (ok : WorldOk w) {call : AcCall} (stores : CfgOk (call.store w.cfg)) :
    WorldOk (w.call call) := by
  obtain ⟨cfgs, loaded, all⟩ := ok.pairs
  constructor
  · rw [call_cfg]
    exact stores
  · rw [call_loaded, loaded]
    split
    · refine ⟨cfgs ++ [call.store w.cfg], by simp, ?_⟩
      intro cfg member
      rcases List.mem_append.mp member with old | new
      · exact all cfg old
      · rw [List.mem_singleton.mp new]
        exact stores
    · exact ⟨cfgs, List.append_nil _, all⟩

theorem acWriteCfg_keeps {cfg : AcCfg} (ok : CfgOk cfg) :
    (acWriteCfg cfg).Keeps World.perform WorldOk fun _ => True := by
  intro w kept
  exact ⟨kept.call ok, trivial⟩

theorem CfgOk.plan {cfg : AcCfg} (ok : CfgOk cfg) (plan : Plan) (asleep : Int) :
    CfgOk (plan.cfg asleep cfg) := by
  cases plan with
  | nothing => exact ok
  | look => exact ok
  | switch on =>
    cases on with
    | true => exact ok.switched (Or.inr rfl)
    | false => exact ok.switched (Or.inl rfl)
  | toggle => exact ok.toggled
  | adjust by_ => exact ok.adjusted by_ asleep
  | schedule tm => exact CfgOk.scheduled tm asleep

theorem Plan.arm_keeps (plan : Plan) {cfg : AcCfg} (ok : CfgOk cfg) :
    (plan.arm cfg).Keeps World.perform WorldOk fun _ => True := by
  cases plan with
  | nothing => trivial
  | look => exact fun w kept => ⟨kept, trivial⟩
  | switch on =>
    cases on with
    | true =>
      intro w kept
      have opened : CfgOk (AcCall.acOpen.store w.cfg) := kept.cfg.switched (Or.inr rfl)
      exact ⟨kept.call opened, trivial⟩
    | false =>
      intro w kept
      have closed : CfgOk (AcCall.acClose.store w.cfg) := kept.cfg.switched (Or.inl rfl)
      exact ⟨kept.call closed, trivial⟩
  | toggle => exact acWriteCfg_keeps ok.toggled
  | adjust by_ => exact fun w kept => ⟨kept, acWriteCfg_keeps (ok.adjusted _ _)⟩
  | schedule tm => exact fun w kept => ⟨kept, acWriteCfg_keeps (CfgOk.scheduled _ _)⟩

/-- A task may sit on a stale snapshot: it was in order when it was taken, so
what is written back of it is in order too. -/
theorem Stim.prog_keeps (cj : CJson) (s : Stim) :
    (s.prog cj).Keeps World.perform WorldOk fun _ => True := by
  have still : ∀ o r w, quiet o = some r → WorldOk w →
      (World.perform o w).1 = r ∧ WorldOk (World.perform o w).2 := by
    intro o r w known ok
    obtain ⟨answer, cfg, loaded⟩ := perform_quiet known w
    refine ⟨answer, ?_, ?_⟩
    · rw [cfg]
      exact ok.cfg
    · rw [loaded]
      exact ok.pairs
  apply Keeps.of_erase still
  rcases erase_prog cj s with reads | ⟨idle, -⟩
  · rw [reads]
    exact fun w kept => ⟨kept, (s.plan cj).arm_keeps kept.cfg⟩
  · rw [idle]
    trivial

end IrCtl

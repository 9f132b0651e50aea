import IrCtl.Atomic
import IrCtl.Clock

/-!
# Start-up

`app_main` starts the MQTT client before the soft_timer, and the soft_timer sets
the clock only behind a delay. Which commands meet a handle or a clock that is
not set up yet.
-/

namespace IrCtl

open CString Program Transition

/-- The call `app_main` does next. -/
inductive AppMain where
  | greeAcRegister
  | mqttAppStart
  | softTimerInit
  | returned
  deriving DecidableEq, Repr

/-- What has become of the MQTT task. -/
inductive Fate where
  | running
  -- by a `vTaskSuspend` on itself, which nothing takes back
  | suspended
  -- with the device, by an assertion
  | aborted
  deriving DecidableEq, Repr

structure StartUp where
  tasks : Tasks Tid
  appMain : AppMain
  -- whether the client is started, and the event the MQTT task has taken up last
  client : Bool
  event : Option MqttEvent
  fate : Fate
  -- whether `soft_timer_hdl` is set, and where the task is once it exists
  softTimerHdl : Bool
  timer : Option Timer
  -- whether a sync has stored to `gtick`
  synced : Bool

inductive StartUpAct where
  | main
  | message (message : MqttEvent) (requestId : List UInt8)
  -- the end of a delay of the soft_timer, and the network a sync then meets
  | wake (net : Net)
  | step (t : Tid)

/-- The next call of `app_main`. -/
def StartUp.main (s : StartUp) : Option StartUp :=
  match s.appMain with
  | .greeAcRegister => some { s with appMain := .mqttAppStart }
  | .mqttAppStart => some { s with appMain := .softTimerInit, client := true }
  | .softTimerInit =>
    some { s with appMain := .returned, softTimerHdl := true, timer := some .starting }
  | .returned => none

/-- The MQTT task takes up an event. -/
def StartUp.message (cj : CJson) (message : MqttEvent) (requestId : List UInt8) (s : StartUp) :
    Option StartUp :=
  if s.client ∧ s.fate = .running then
    (s.tasks.start .mqtt (mqttDataEventHandler cj message requestId)).map fun tasks =>
      { s with tasks := tasks, event := some message }
  else none

/-- The soft_timer goes on behind a delay: the first time with a sync, then with
a turn of its loop. -/
def StartUp.wake (net : Net) (s : StartUp) : Option StartUp :=
  if awake Tid.softTimer s.tasks.store .softTimer then
    match s.timer with
    | none => none
    | some .starting => (Timer.starting.wake net s.tasks.store.gtick).map fun (timer, gtick) =>
      { s with
        tasks := { s.tasks with store := { s.tasks.store with gtick := gtick } }
        timer := some timer, synced := true }
    | some (.looping times) =>
      ((Timer.looping times).wake net s.tasks.store.gtick).bind fun (timer, gtick) =>
        (s.tasks.start .softTimer (softTimerTurn gtick)).map fun tasks =>
          { s with tasks := tasks, timer := some timer }
  else none

/-- The next operation of a task. To `vTaskSuspend` a `NULL` handle means the
calling task; in `vTaskResume` it fails an assertion. -/
def StartUp.step (t : Tid) (s : StartUp) : Option StartUp :=
  if t = .mqtt ∧ s.fate ≠ .running then none
  else
    match t, s.softTimerHdl, s.tasks.prog t with
    | .mqtt, false, .op .suspend _ => some { s with fate := .suspended }
    | .mqtt, false, .op .resume _ => some { s with fate := .aborted }
    | t, _, _ => (tasksStep .softTimer s.tasks (.step t)).map fun tasks => { s with tasks := tasks }

def startUpStep (cj : CJson) (s : StartUp) (a : StartUpAct) : Option StartUp :=
  if s.fate = .aborted then none
  else
    match a with
    | .main => s.main
    | .message message requestId => s.message cj message requestId
    | .wake net => s.wake net
    | .step t => s.step t

/-- The clock starts in 1970. -/
def StartUp.boot : StartUp where
  tasks := .boot 0
  appMain := .greeAcRegister
  client := false
  event := none
  fate := .running
  softTimerHdl := false
  timer := none
  synced := false

/-! ### The operations of the handler -/

/-- The codes of the commands that perform an operation. -/
def Needs (cmdCode : Int) : Op → Prop
  | .suspend | .resume => cmdCode = 7 ∨ cmdCode = 8
  | .gtick => cmdCode = 2 ∨ cmdCode = 5 ∨ cmdCode = 6
  | .ac _ | .setGtick _ | .publish _ _ | .heap _ => True

theorem jsonParse_performs (cj : CJson) (data : List UInt8) (code : Int) :
    (jsonParse cj data).Performs (Needs code) (· = cmdCode cj data) := by
  unfold jsonParse cmdCode cmdText hdlFree
  cases cj.parse (ofMem data) with
  | none => simp
  | some tree =>
    cases found : cj.getObjectItem tree (lit "cmd") with
    | none => simp [found, heapOp, Needs]
    | some cmd =>
      cases index : cmdIndex (cj.print cmd) with
      | none => simp [found, index, heapOp, Needs]
      | some i => simp [found, index, heapOp, Needs]

theorem switchCmd_performs (code : Int) (cfg : AcCfg) :
    (switchCmd code cfg).Performs (Needs code) fun _ => True := by
  induction code using cmdCode_cases with
  | other code outside => simp [switchCmd_other outside, defaultArm, publish, Needs]
  | known i =>
    fin_cases i <;>
      simp [switchCmd, acOpen, acClose, acWriteCfg, adjustArm, timeInSleep, softTimerSuspend,
        softTimerResume, defaultArm, publish, Needs]

theorem handler_performs (cj : CJson) (message : MqttEvent) (requestId : List UInt8) :
    (mqttDataEventHandler cj message requestId).Performs (Needs (cmdCode cj message.data))
      fun _ => True := by
  refine (jsonParse_performs cj message.data _).bind fun code parsed => ?_
  subst parsed
  refine ⟨trivial, fun cfg => (switchCmd_performs _ cfg).bind fun _ _ => ?_⟩
  simp only [respond]
  split <;> simp [publish, Needs]

/-! ### What start-up keeps -/

/-- What a step of start-up is: a call of `app_main`, an event taken up, a sync
or a turn of the soft_timer, a call with a `NULL` handle, or an operation. -/
inductive StartUpStepped (cj : CJson) (s s' : StartUp) : StartUpAct → Prop
  | register (here : s.appMain = .greeAcRegister)
      (after : s' = { s with appMain := .mqttAppStart }) : StartUpStepped cj s s' .main
  | start (here : s.appMain = .mqttAppStart)
      (after : s' = { s with appMain := .softTimerInit, client := true }) :
      StartUpStepped cj s s' .main
  | init (here : s.appMain = .softTimerInit)
      (after : s' = { s with
        appMain := .returned, softTimerHdl := true, timer := some .starting }) :
      StartUpStepped cj s s' .main
  | message (message : MqttEvent) (requestId : List UInt8) (running : s.fate = .running)
      (after : s' = { s with
        tasks := ⟨s.tasks.store, Function.update s.tasks.prog .mqtt
          (mqttDataEventHandler cj message requestId)⟩
        event := some message }) : StartUpStepped cj s s' (.message message requestId)
  | sync (net : Net) (here : s.timer = some .starting) (times stamp : Int)
      (after : s' = { s with
        tasks := { s.tasks with store := { s.tasks.store with gtick := stamp } }
        timer := some (.looping times), synced := true }) : StartUpStepped cj s s' (.wake net)
  | turn (net : Net) {times : Int} (here : s.timer = some (.looping times)) (times' gtick : Int)
      (after : s' = { s with
        tasks := ⟨s.tasks.store, Function.update s.tasks.prog .softTimer (softTimerTurn gtick)⟩
        timer := some (.looping times') }) : StartUpStepped cj s s' (.wake net)
  | null (fate : Fate) (running : s.fate = .running) (unset : s.softTimerHdl = false)
      (o : Op) (k : Op.Res o → Prog Unit) (now : s.tasks.prog .mqtt = .op o k)
      (timer : o = .suspend ∨ o = .resume) (stops : fate ≠ .running)
      (after : s' = { s with fate := fate }) : StartUpStepped cj s s' (.step .mqtt)
  | step (t : Tid) (running : t = .mqtt → s.fate = .running) (tasks : Tasks Tid)
      (moved : s.tasks.step World.perform t = some tasks) (after : s' = { s with tasks := tasks }) :
      StartUpStepped cj s s' (.step t)

section Steps

variable {cj : CJson} {s s' : StartUp} {a : StartUpAct}

theorem StartUp.wake_cases {net : Net} (woke : s.wake net = some s') :
    StartUpStepped cj s s' (.wake net) := by
  simp only [StartUp.wake, Option.ite_none_right_eq_some] at woke
  obtain ⟨-, woke⟩ := woke
  split at woke
  · cases woke
  · next here =>
    obtain ⟨⟨timer, stamp⟩, stored, after⟩ := Option.map_eq_some_iff.mp woke
    obtain ⟨times, rfl⟩ := wake_loops stored
    exact .sync net here times stamp after.symm
  · next here =>
    obtain ⟨⟨timer, gtick⟩, turned, started⟩ := Option.bind_eq_some_iff.mp woke
    obtain ⟨tasks, free, after⟩ := Option.map_eq_some_iff.mp started
    obtain ⟨times', rfl⟩ := wake_loops turned
    obtain ⟨-, rfl⟩ := Pool.start_some.mp free
    exact .turn net here times' gtick after.symm

theorem StartUp.step_cases {t : Tid} (moved : s.step t = some s') :
    StartUpStepped cj s s' (.step t) := by
  simp only [StartUp.step, Option.ite_none_left_eq_some, not_and, not_not] at moved
  obtain ⟨running, moved⟩ := moved
  split at moved
  · next k unset now =>
    exact .null .suspended (running rfl) unset .suspend k now (Or.inl rfl) (by decide)
      (Option.some.inj moved).symm
  · next k unset now =>
    exact .null .aborted (running rfl) unset .resume k now (Or.inr rfl) (by decide)
      (Option.some.inj moved).symm
  · obtain ⟨tasks, stepped, after⟩ := Option.map_eq_some_iff.mp moved
    simp only [tasksStep, Option.ite_none_right_eq_some] at stepped
    exact .step _ running tasks stepped.2 after.symm

theorem startUpStep_cases (stepped : startUpStep cj s a = some s') : StartUpStepped cj s s' a := by
  simp only [startUpStep, Option.ite_none_left_eq_some] at stepped
  obtain ⟨-, stepped⟩ := stepped
  cases a with
  | main =>
    simp only [StartUp.main] at stepped
    split at stepped
    · next here => exact .register here (Option.some.inj stepped).symm
    · next here => exact .start here (Option.some.inj stepped).symm
    · next here => exact .init here (Option.some.inj stepped).symm
    · cases stepped
  | message message requestId =>
    simp only [StartUp.message, Option.ite_none_right_eq_some, Option.map_eq_some_iff] at stepped
    obtain ⟨⟨-, running⟩, tasks, started, after⟩ := stepped
    obtain ⟨-, rfl⟩ := Pool.start_some.mp started
    exact .message message requestId running after.symm
  | wake net => exact StartUp.wake_cases stepped
  | step t => exact StartUp.step_cases stepped

/-- The handle is set and the soft_timer exists once `app_main` is through, a
sync is what brings the soft_timer into its loop, and the MQTT task performs the
operations of the event it has taken up. -/
structure StartUpInv (cj : CJson) (s : StartUp) : Prop where
  hdl : s.softTimerHdl = true ↔ s.appMain = .returned
  timer : s.timer.isSome ↔ s.appMain = .returned
  synced : s.synced = true ↔ ∃ times, s.timer = some (.looping times)
  mqtt : (s.tasks.prog .mqtt).Performs
    (fun o => ∃ message, s.event = some message ∧ Needs (cmdCode cj message.data) o) fun _ => True

theorem StartUp.boot_inv (cj : CJson) : StartUpInv cj .boot :=
  ⟨by simp [StartUp.boot], by simp [StartUp.boot], by simp [StartUp.boot], trivial⟩

theorem startUpStep_inv (inv : StartUpInv cj s) (stepped : startUpStep cj s a = some s') :
    StartUpInv cj s' := by
  have apart : Tid.mqtt ≠ Tid.softTimer := by decide
  obtain ⟨hdl, timer, synced, mqtt⟩ := inv
  cases startUpStep_cases stepped with
  | register here after =>
    subst after
    rw [here] at hdl timer
    exact ⟨by simpa using hdl, by simpa using timer, synced, mqtt⟩
  | start here after =>
    subst after
    rw [here] at hdl timer
    exact ⟨by simpa using hdl, by simpa using timer, synced, mqtt⟩
  | init here after =>
    subst after
    rw [here] at timer
    -- the task is created only here, so no sync has been
    have absent : s.timer = none := by simpa using timer
    refine ⟨by simp, by simp, ?_, mqtt⟩
    rw [synced, absent]
    simp
  | message message requestId running after =>
    subst after
    refine ⟨hdl, timer, synced, ?_⟩
    simp only [Function.update_self]
    exact (handler_performs cj message requestId).imp fun o needs => ⟨message, rfl, needs⟩
  | sync net here times stamp after =>
    subst after
    rw [here] at timer
    exact ⟨hdl, timer, by simp, mqtt⟩
  | turn net here times' gtick after =>
    subst after
    rw [here] at timer synced
    refine ⟨hdl, timer, by simpa using synced, ?_⟩
    simp only [Function.update_of_ne apart]
    exact mqtt
  | null fate running unset o k now op stops after =>
    subst after
    exact ⟨hdl, timer, synced, mqtt⟩
  | step t running tasks moved after =>
    subst after
    exact ⟨hdl, timer, synced, Pool.performs_step moved mqtt⟩

end Steps

/-! ### Commands behind start-up -/

/-- What an operation of the handler uses is set up. -/
def SetUp (s : StartUp) : Op → Prop
  | .suspend | .resume => s.softTimerHdl = true
  | .gtick => s.synced = true
  | .ac _ | .setGtick _ | .publish _ _ | .heap _ => True

/-- The MQTT task, if it moves next, uses what is set up. -/
def UsesSetUp (s : StartUp) : StartUpAct → Prop
  | .step .mqtt => ∀ o k, s.tasks.prog .mqtt = .op o k → SetUp s o
  | .step .softTimer | .main | .message _ _ | .wake _ => True

/-- A schedule so far: the calls `app_main` has made, the delays of the soft_timer
that are over, the message delivered last, and the operations of the MQTT task
since. -/
structure Schedule where
  mains : Nat
  wakes : Nat
  message : Option MqttEvent
  steps : Nat

def Schedule.after (c : Schedule) : StartUpAct → Schedule
  | .main => { c with mains := c.mains + 1 }
  | .wake _ => { c with wakes := c.wakes + 1 }
  | .message message _ => { c with message := some message, steps := 0 }
  | .step .mqtt => { c with steps := c.steps + 1 }
  | .step .softTimer => c

def schedule (as : List StartUpAct) : Schedule := as.foldl Schedule.after ⟨0, 0, none, 0⟩

theorem schedule_append (as : List StartUpAct) (a : StartUpAct) :
    schedule (as ++ [a]) = (schedule as).after a := by
  rw [schedule, List.foldl_append, List.foldl_cons, List.foldl_nil, schedule]

/-- The fourth operation behind a `soft_sus` or `soft_res` comes after the third
call of `app_main`, and that behind a `get_time`, `tup` or `tdown` after a delay of
the soft_timer. -/
def InTime (cj : CJson) (c : Schedule) : StartUpAct → Prop
  | .step .mqtt => ∀ message, c.message = some message → c.steps = 3 →
    (cmdCode cj message.data = 7 ∨ cmdCode cj message.data = 8 → 3 ≤ c.mains) ∧
    (cmdCode cj message.data = 2 ∨ cmdCode cj message.data = 5 ∨ cmdCode cj message.data = 6 →
      1 ≤ c.wakes)
  | .step .softTimer | .main | .message _ _ | .wake _ => True

/-- Of the operations of a handler the fourth alone uses the handle or the clock,
as the command says. -/
def Fourth (code : Int) (n : Nat) (o : Op) : Prop :=
  (o = .suspend ∨ o = .resume ↔ n = 3 ∧ (code = 7 ∨ code = 8)) ∧
  (o = .gtick ↔ n = 3 ∧ (code = 2 ∨ code = 5 ∨ code = 6))

theorem respond_fourth (code : Int) (message : MqttEvent) (requestId : List UInt8) {n : Nat}
    (late : 3 < n) : (respond message requestId).PerformsFrom (Fourth code) n := by
  have other : n ≠ 3 := by omega
  simp only [respond]
  split <;> simp [publish, Fourth, other]

theorem switchCmd_fourth (i : Fin 9) (cfg : AcCfg) (message : MqttEvent) (requestId : List UInt8) :
    (switchCmd i cfg >>= fun _ => respond message requestId).PerformsFrom (Fourth i) 3 := by
  fin_cases i <;>
    simp [switchCmd, acOpen, acClose, acWriteCfg, adjustArm, timeInSleep, softTimerSuspend,
      softTimerResume, defaultArm, publish, respond_fourth, Fourth]

theorem handler_fourth (cj : CJson) (message : MqttEvent) (requestId : List UInt8) :
    (mqttDataEventHandler cj message requestId).PerformsFrom (Fourth (cmdCode cj message.data)) 0 := by
  by_cases known : Recognised cj message.data
  · -- two operations of `json_parse`, the read, and then the arm of the command
    obtain ⟨i, found⟩ := Option.isSome_iff_exists.mp ((recognised_iff cj message.data).mp known)
    obtain ⟨text, shown, index⟩ := Option.bind_eq_some_iff.mp found
    obtain ⟨item, held, rfl⟩ := Option.map_eq_some_iff.mp shown
    obtain ⟨tree, parsed, member⟩ := Option.bind_eq_some_iff.mp held
    have parse : jsonParse cj message.data =
        .op (.heap .parsed) fun _ => .op (.heap .printed) fun _ => .ret i := by
      simp [jsonParse, parsed, member, index, heapOp]
    have code : cmdCode cj message.data = i := by rw [cmdCode, found]
    rw [mqttDataEventHandler, parse, code]
    refine ⟨by simp [Fourth], fun _ => ⟨by simp [Fourth], fun _ => ⟨by simp [Fourth], fun cfg => ?_⟩⟩⟩
    exact switchCmd_fourth ⟨i, cmdIndex_lt index⟩ cfg message requestId
  · -- nothing else is recognised, and nothing else uses either
    have code := cmdCode_of_not_recognised known
    apply (handler_performs cj message requestId).from
    intro o needs n
    rw [code] at needs ⊢
    cases o <;> simp_all [Needs, Fourth]

/-- How many calls of `app_main` are behind it. -/
def AppMain.made : AppMain → Nat
  | .greeAcRegister => 0
  | .mqttAppStart => 1
  | .softTimerInit => 2
  | .returned => 3

/-- The state is as the schedule says: how far `app_main` and the soft_timer are,
and which operation of which handler comes next. -/
structure Follows (cj : CJson) (as : List StartUpAct) (s : StartUp) : Prop where
  inv : StartUpInv cj s
  mains : (schedule as).mains = s.appMain.made
  wakes : 1 ≤ (schedule as).wakes ↔ ∃ times, s.timer = some (.looping times)
  message : (schedule as).message = s.event
  mqtt : s.fate = .running → ∀ message, s.event = some message →
    (s.tasks.prog .mqtt).PerformsFrom (Fourth (cmdCode cj message.data)) (schedule as).steps

theorem StartUp.boot_follows (cj : CJson) : Follows cj [] .boot where
  inv := StartUp.boot_inv cj
  mains := rfl
  wakes := by simp [schedule, StartUp.boot]
  message := rfl
  mqtt := fun _ message taken => by cases taken

section Follows

variable {cj : CJson} {as : List StartUpAct} {s s' : StartUp}

theorem Follows.main (follows : Follows cj as s) (inv : StartUpInv cj s')
    (tasks : s'.tasks = s.tasks) (event : s'.event = s.event) (fate : s'.fate = s.fate)
    (made : s'.appMain.made = s.appMain.made + 1)
    (timer : (∃ times, s'.timer = some (.looping times)) ↔ ∃ times, s.timer = some (.looping times)) :
    Follows cj (as ++ [.main]) s' := by
  refine ⟨inv, ?_, ?_, ?_, ?_⟩ <;> simp only [schedule_append, Schedule.after]
  · rw [follows.mains, made]
  · rw [follows.wakes, timer]
  · rw [follows.message, event]
  · rw [fate, event, tasks]
    exact follows.mqtt

/-- The first delay that is over brings the soft_timer into its loop, where it
stays. -/
theorem Follows.wake {net : Net} (follows : Follows cj as s) (inv : StartUpInv cj s')
    (mqtt : s'.tasks.prog .mqtt = s.tasks.prog .mqtt) (event : s'.event = s.event)
    (fate : s'.fate = s.fate) (appMain : s'.appMain = s.appMain) {times : Int}
    (timer : s'.timer = some (.looping times)) : Follows cj (as ++ [.wake net]) s' := by
  refine ⟨inv, ?_, ?_, ?_, ?_⟩ <;> simp only [schedule_append, Schedule.after]
  · rw [follows.mains, appMain]
  · exact iff_of_true (Nat.le_add_left 1 _) ⟨times, timer⟩
  · rw [follows.message, event]
  · rw [fate, event, mqtt]
    exact follows.mqtt

/-- An operation leaves `app_main`, the soft_timer's delays and the deliveries as
they are. -/
theorem Follows.step {t : Tid} (follows : Follows cj as s) (inv : StartUpInv cj s')
    (event : s'.event = s.event) (appMain : s'.appMain = s.appMain) (timer : s'.timer = s.timer)
    (moved : s'.fate = .running → ∀ message, s.event = some message →
      (s'.tasks.prog .mqtt).PerformsFrom (Fourth (cmdCode cj message.data))
        ((schedule as).after (.step t)).steps) : Follows cj (as ++ [.step t]) s' := by
  have same : ((schedule as).after (.step t)).mains = (schedule as).mains ∧
      ((schedule as).after (.step t)).wakes = (schedule as).wakes ∧
      ((schedule as).after (.step t)).message = (schedule as).message := by
    cases t <;> exact ⟨rfl, rfl, rfl⟩
  obtain ⟨mains, wakes, message⟩ := same
  refine ⟨inv, ?_, ?_, ?_, ?_⟩ <;> rw [schedule_append]
  · rw [mains, follows.mains, appMain]
  · rw [wakes, follows.wakes, timer]
  · rw [message, follows.message, event]
  · rw [event]
    exact moved

theorem startUpStep_follows {a : StartUpAct} (follows : Follows cj as s)
    (stepped : startUpStep cj s a = some s') : Follows cj (as ++ [a]) s' := by
  have inv := startUpStep_inv follows.inv stepped
  have apart : Tid.mqtt ≠ Tid.softTimer := by decide
  cases startUpStep_cases stepped with
  | register here after =>
    subst after
    exact follows.main inv rfl rfl rfl (by rw [here]; rfl) Iff.rfl
  | start here after =>
    subst after
    exact follows.main inv rfl rfl rfl (by rw [here]; rfl) Iff.rfl
  | init here after =>
    subst after
    -- the soft_timer exists from here on, and has not been in its loop before
    have absent : s.timer = none := by
      have exists_ := follows.inv.timer
      rw [here] at exists_
      simpa using exists_
    exact follows.main inv rfl rfl rfl (by rw [here]; rfl) (by simp [absent])
  | message message requestId running after =>
    subst after
    refine ⟨inv, ?_, ?_, ?_, ?_⟩ <;> simp only [schedule_append, Schedule.after]
    · exact follows.mains
    · exact follows.wakes
    · rintro - _ ⟨⟩
      simp only [Function.update_self]
      exact handler_fourth cj message requestId
  | sync net here times stamp after =>
    subst after
    exact follows.wake inv rfl rfl rfl rfl rfl
  | turn net here times' gtick after =>
    have mqtt : s'.tasks.prog .mqtt = s.tasks.prog .mqtt := by
      rw [after]
      exact Function.update_of_ne apart (softTimerTurn gtick) s.tasks.prog
    subst after
    exact follows.wake inv mqtt rfl rfl rfl rfl
  | null fate running unset o k now op stops after =>
    subst after
    exact follows.step inv rfl rfl rfl fun goes_on => absurd goes_on stops
  | step t running tasks moved after =>
    subst after
    refine follows.step inv rfl rfl rfl fun fate message taken => ?_
    have mqtt := follows.mqtt fate message taken
    obtain ⟨o, k, now, rfl⟩ := Pool.step_some.mp moved
    cases t with
    | mqtt =>
      rw [now] at mqtt
      simpa only [Function.update_self, Schedule.after] using mqtt.2 _
    | softTimer => simpa only [Function.update_of_ne apart, Schedule.after] using mqtt

/-- The MQTT task can move while it runs and has an operation left. -/
theorem startUpStep_mqtt_op (stepped : startUpStep cj s (.step .mqtt) = some s') :
    s.fate = .running ∧ ∃ o k, s.tasks.prog .mqtt = .op o k := by
  cases startUpStep_cases stepped with
  | null fate running unset o k now op stops after => exact ⟨running, o, k, now⟩
  | step _ running tasks moved after =>
    obtain ⟨o, k, now, -⟩ := Pool.step_some.mp moved
    exact ⟨running rfl, o, k, now⟩

/-- An operation left is one of the message taken up last. -/
theorem StartUpInv.message_of_op (inv : StartUpInv cj s) {o : Op} {k : Op.Res o → Prog Unit}
    (now : s.tasks.prog .mqtt = .op o k) : ∃ message, s.event = some message := by
  have mine := inv.mqtt
  rw [now] at mine
  obtain ⟨⟨message, taken, -⟩, -⟩ := mine
  exact ⟨message, taken⟩

/-- What an operation of the MQTT task uses is set up if it comes in time. -/
theorem Follows.usesSetUp_iff {a : StartUpAct} (follows : Follows cj as s)
    (stepped : startUpStep cj s a = some s') : UsesSetUp s a ↔ InTime cj (schedule as) a := by
  cases a with
  | main => exact Iff.rfl
  | message message requestId => exact Iff.rfl
  | wake net => exact Iff.rfl
  | step t =>
    cases t with
    | softTimer => exact Iff.rfl
    | mqtt =>
      obtain ⟨running, o, k, now⟩ := startUpStep_mqtt_op stepped
      obtain ⟨message, taken⟩ := follows.inv.message_of_op now
      have position := follows.mqtt running message taken
      rw [now] at position
      obtain ⟨⟨handle, clock⟩, -⟩ := position
      have hdl : s.softTimerHdl = true ↔ 3 ≤ (schedule as).mains := by
        rw [follows.inv.hdl, follows.mains]
        cases s.appMain <;> simp [AppMain.made]
      have synced : s.synced = true ↔ 1 ≤ (schedule as).wakes :=
        follows.inv.synced.trans follows.wakes.symm
      have uses : UsesSetUp s (.step .mqtt) ↔ SetUp s o := by
        constructor
        · intro all
          exact all o k now
        · intro setUp o' k' now'
          rw [now] at now'
          cases now'
          exact setUp
      have inTime : InTime cj (schedule as) (.step .mqtt) ↔
          ((o = .suspend ∨ o = .resume) → 3 ≤ (schedule as).mains) ∧
            (o = .gtick → 1 ≤ (schedule as).wakes) := by
        simp only [InTime, follows.message, taken, Option.some.injEq, forall_eq', handle, clock]
        rw [imp_and, and_imp, and_imp]
      rw [uses, inTime, ← hdl, ← synced]
      cases o <;> simp [SetUp]

end Follows

/-- No command uses what is not set up exactly in the schedules that bring the
fourth operation of a handler behind what it uses. -/
theorem startUpStep_usesSetUp_iff (cj : CJson) (as : List StartUpAct) :
    Meets (startUpStep cj) UsesSetUp .boot as ↔
      ∀ bs a, bs ++ [a] <+: as → (run (startUpStep cj) .boot (bs ++ [a])).isSome →
        InTime cj (schedule bs) a := by
  apply meets_iff_labels (I := Follows cj) ?_ ?_ (StartUp.boot_follows cj)
  · intro bs a s s' follows stepped
    exact follows.usesSetUp_iff stepped
  · intro bs s a s' follows stepped
    exact startUpStep_follows follows stepped

/-- A `tup` that comes in while the soft_timer is in its first delay. -/
theorem startUpStep_reads_unset_clock :
    ¬ Meets (startUpStep flatCJson) UsesSetUp .boot
      ([.main, .main, .main, .message ⟨payload "tup", none, 0⟩ [0]] ++
        List.replicate 3 (.step .mqtt) ++ [.step .mqtt]) := by
  intro met
  obtain ⟨s, s', k, reached, stepped, reads, unset⟩ : ∃ s s' k,
      run (startUpStep flatCJson) .boot ([.main, .main, .main,
        .message ⟨payload "tup", none, 0⟩ [0]] ++ List.replicate 3 (.step .mqtt)) = some s ∧
      startUpStep flatCJson s (.step .mqtt) = some s' ∧
      s.tasks.prog .mqtt = .op .gtick k ∧ s.synced = false :=
    ⟨_, _, _, rfl, rfl, rfl, rfl⟩
  have set : s.synced = true := meets_last met reached stepped .gtick k reads
  rw [unset] at set
  cases set

/-! ### A `NULL` handle -/

section Null

variable {cj : CJson} {s s' : StartUp} {a : StartUpAct}

/-- Only a call with a `NULL` handle decides the fate of the MQTT task. -/
theorem fate_of_step (stepped : startUpStep cj s a = some s') :
    s'.fate = s.fate ∨ a = .step .mqtt ∧ s.softTimerHdl = false ∧
      ∃ o k, s.tasks.prog .mqtt = .op o k ∧ (o = .suspend ∨ o = .resume) := by
  cases startUpStep_cases stepped with
  | register here after => exact Or.inl (by rw [after])
  | start here after => exact Or.inl (by rw [after])
  | init here after => exact Or.inl (by rw [after])
  | message message requestId running after => exact Or.inl (by rw [after])
  | sync net here times stamp after => exact Or.inl (by rw [after])
  | turn net here times' gtick after => exact Or.inl (by rw [after])
  | null fate running unset o k now op stops after => exact Or.inr ⟨rfl, unset, o, k, now, op⟩
  | step t running tasks moved after => exact Or.inl (by rw [after])

/-- An MQTT task that uses what is set up goes on running. -/
theorem startUpStep_running {as : List StartUpAct}
    (met : Meets (startUpStep cj) UsesSetUp .boot as) :
    Visits (startUpStep cj) (fun s => s.fate = .running) .boot as := by
  apply visits_of_meets (I := fun s => s.fate = .running) ?_ (fun _ running => running) rfl met
  intro s a s' running uses stepped
  rcases fate_of_step stepped with same | ⟨rfl, null, o, k, now, timer⟩
  · exact same.trans running
  · have handle : s.softTimerHdl = true := by
      have setUp := uses o k now
      rcases timer with rfl | rfl
      · exact setUp
      · exact setUp
    rw [null] at handle
    cases handle

/-- An MQTT task that has been stopped stays where it is. -/
theorem stopped_step (stopped : s.fate ≠ .running) (stepped : startUpStep cj s a = some s') :
    s'.fate = s.fate ∧ s'.tasks.prog .mqtt = s.tasks.prog .mqtt := by
  have apart : Tid.mqtt ≠ Tid.softTimer := by decide
  cases startUpStep_cases stepped with
  | register here after => rw [after]; exact ⟨rfl, rfl⟩
  | start here after => rw [after]; exact ⟨rfl, rfl⟩
  | init here after => rw [after]; exact ⟨rfl, rfl⟩
  | message message requestId running after => exact absurd running stopped
  | sync net here times stamp after => rw [after]; exact ⟨rfl, rfl⟩
  | turn net here times' gtick after =>
    rw [after]
    exact ⟨rfl, Function.update_of_ne apart (softTimerTurn gtick) s.tasks.prog⟩
  | null fate running unset o k now op stops after => exact absurd running stopped
  | step t running tasks moved after =>
    have other : Tid.mqtt ≠ t := fun mine => stopped (running mine.symm)
    obtain ⟨o, k, -, rfl⟩ := Pool.step_some.mp moved
    rw [after]
    exact ⟨rfl, Function.update_of_ne other _ _⟩

/-- A `vTaskSuspend` with a `NULL` handle stops the MQTT task for ever: it stays
at that call. -/
theorem null_suspend_forever {k : Unit → Prog Unit} (running : s.fate = .running)
    (now : s.tasks.prog .mqtt = .op .suspend k) (null : s.softTimerHdl = false) :
    startUpStep cj s (.step .mqtt) = some { s with fate := .suspended } ∧
    ∀ as, Visits (startUpStep cj) (fun s' => s'.tasks.prog .mqtt = .op .suspend k)
      { s with fate := .suspended } as := by
  refine ⟨by simp [startUpStep, StartUp.step, running, now, null], fun as => ?_⟩
  apply visits_of_reached
  intro bs s' reached
  have kept : s'.fate = .suspended ∧ s'.tasks.prog .mqtt = .op .suspend k := by
    apply run_invariant (I := fun s => s.fate = .suspended ∧ s.tasks.prog .mqtt = .op .suspend k)
      ?_ ⟨rfl, now⟩ reached
    rintro t a t' ⟨suspended, there⟩ stepped
    have stopped : t.fate ≠ .running := by
      rw [suspended]
      decide
    obtain ⟨fate, prog⟩ := stopped_step stopped stepped
    exact ⟨fate.trans suspended, prog.trans there⟩
  exact kept.2

end Null

end IrCtl

import IrCtl.Atomic

/-!
# The session with the broker

`mqtt_event_handler` and all its events beside the turns of the soft_timer. What
the broker is sent is, event by event, what the handler of each makes of what it
has read.
-/

namespace IrCtl

open CString Program Transition

/-- The calls into the client. -/
inductive ClientCall where
  | publish (topic data : CStr) (qos : Nat)
  | subscribe (topic : CStr) (qos : Nat)
  deriving DecidableEq, Repr

/-- Operations with the calls only the event handler makes. -/
inductive ClientOp where
  | op (o : Op)
  | client (call : ClientCall)

abbrev ClientOp.Res : ClientOp → Type
  | .op o => Op.Res o
  | .client _ => Unit

/-- The events by their ids; what is only logged of them is left out. -/
inductive EspMqttEventId where
  | connected
  | disconnected
  | subscribed
  | unsubscribed
  | published
  | data (event : MqttEvent) (requestId : List UInt8)
  | error
  | other

def messagesUp : CStr := lit "$oc/devices/664786226bc31504f06ac4b3_A111/sys/messages/up"

def acSwi : CStr := lit "M2M/ACSWI"

def mqttEventHandler (cj : CJson) : EspMqttEventId → Program ClientOp ClientOp.Res Unit
  | .connected =>
    -- the only message at quality 1
    .op (.client (.publish messagesUp (lit "MQTT_EVENT_CONNECTED") 1)) fun _ =>
      .op (.client (.subscribe acSwi 0)) fun _ => .ret ()
  | .data event requestId => (mqttDataEventHandler cj event requestId).relabel .op fun _ r => r
  | .disconnected | .subscribed | .unsubscribed | .published | .error | .other => .ret ()

/-- What the tasks share, and the calls into the client so far. -/
structure Client where
  world : World
  calls : List ClientCall

/-- The messages a handler publishes go out at quality 0. -/
def Op.clientCalls : Op → List ClientCall
  | .publish topic data => [.publish topic data 0]
  | .ac _ | .gtick | .setGtick _ | .heap _ | .suspend | .resume => []

def ClientOp.clientCalls : ClientOp → List ClientCall
  | .op o => o.clientCalls
  | .client call => [call]

def Client.perform : (o : ClientOp) → Client → ClientOp.Res o × Client
  | .op o, c =>
    ((World.perform o c.world).1, ⟨(World.perform o c.world).2, c.calls ++ o.clientCalls⟩)
  | .client call, c => ((), ⟨c.world, c.calls ++ [call]⟩)

theorem perform_calls (o : ClientOp) (c : Client) :
    (Client.perform o c).2.calls = c.calls ++ o.clientCalls := by
  cases o <;> rfl

abbrev Session := Pool Tid ClientOp ClientOp.Res Client

def Session.boot (gtick : Int) : Session := ⟨⟨.boot gtick, []⟩, fun _ => .ret ()⟩

inductive SessionAct where
  | event (event : EspMqttEventId)
  | tick (gtick : Int)
  | step (t : Tid)
  | clock (gtick : Int)

def sessionStep (cj : CJson) (s : Session) : SessionAct → Option Session
  | .event event => s.start .mqtt (mqttEventHandler cj event)
  | .tick gtick =>
    if awake Tid.softTimer s.store.world .softTimer then
      s.start .softTimer ((softTimerTurn gtick).relabel .op fun _ r => r)
    else none
  | .step t => if awake Tid.softTimer s.store.world t then s.step Client.perform t else none
  | .clock gtick =>
    some { s with store := { s.store with world := { s.store.world with gtick := gtick } } }

/-! ### What each event says -/

/-- What the MQTT task does that its answers show: what it reads and what it
calls the client for. -/
inductive Told where
  | cfg (read : AcCfg)
  | clock (read : Int)
  | call (call : ClientCall)
  deriving DecidableEq, Repr

def Op.told : (o : Op) → Op.Res o → List Told
  | .ac .acReadCfg, read => [.cfg read]
  | .gtick, read => [.clock read]
  | .publish topic data, _ => [.call (.publish topic data 0)]
  | .ac .acOpen, _ | .ac .acClose, _ | .ac (.acWriteCfg _), _ => []
  | .setGtick _, _ | .heap _, _ | .suspend, _ | .resume, _ => []

def ClientOp.told : (o : ClientOp) → ClientOp.Res o → List Told
  | .op o, r => o.told r
  | .client call, _ => [.call call]

def clientCalls (told : List Told) : List ClientCall :=
  told.filterMap fun t => match t with
    | .call call => some call
    | .cfg _ | .clock _ => none

theorem clientCalls_append (told rest : List Told) :
    clientCalls (told ++ rest) = clientCalls told ++ clientCalls rest :=
  List.filterMap_append

theorem clientCalls_told (o : ClientOp) (r : ClientOp.Res o) :
    clientCalls (o.told r) = o.clientCalls := by
  cases o with
  | client call => rfl
  | op o =>
    cases o with
    | ac call => cases call <;> rfl
    | _ => rfl

/-- The commands whose arms read the clock. -/
def readsClock (cmdCode : Int) : Bool := cmdCode = 2 ∨ cmdCode = 5 ∨ cmdCode = 6

/-- What the switch publishes, `cfg` and `gtick` being what its handler has read;
`soft_res` runs on into the default arm. -/
def switchReplies (cmdCode gtick : Int) (cfg : AcCfg) : List (CStr × CStr) :=
  cmdReply cmdCode { World.boot gtick with cfg := cmdCfg cmdCode gtick cfg } ::
    if cmdCode = 8 then [undefine] else []

def toldOf (messages : List (CStr × CStr)) : List Told :=
  messages.map fun m => .call (.publish m.1 m.2 0)

/-- What the data handler says to an event: the configuration it reads, the clock
if the command needs it, and computed from these the replies of its command, then
the response. -/
def DataAnswer (cj : CJson) (event : MqttEvent) (requestId : List UInt8) (out : List Told) : Prop :=
  ∃ cfg gtick, out =
    .cfg cfg :: (if readsClock (cmdCode cj event.data) then [.clock gtick] else []) ++
      toldOf (switchReplies (cmdCode cj event.data) gtick cfg ++ responses event requestId)

def Answer (cj : CJson) : EspMqttEventId → List Told → Prop
  | .connected, out =>
    out = [.call (.publish messagesUp (lit "MQTT_EVENT_CONNECTED") 1), .call (.subscribe acSwi 0)]
  | .data event requestId, out => DataAnswer cj event requestId out
  | .disconnected, out | .subscribed, out | .unsubscribed, out | .published, out
  | .error, out | .other, out => out = []

theorem jsonParse_tells (cj : CJson) (data : List UInt8) :
    (jsonParse cj data).Tells Op.told fun out code => out = [] ∧ code = cmdCode cj data := by
  unfold jsonParse cmdCode cmdText hdlFree
  cases cj.parse (ofMem data) with
  | none => simp
  | some tree =>
    cases found : cj.getObjectItem tree (lit "cmd") with
    | none => simp [found, heapOp, Op.told]
    | some cmd =>
      cases index : cmdIndex (cj.print cmd) with
      | none => simp [found, index, heapOp, Op.told]
      | some i => simp [found, index, heapOp, Op.told]

theorem switchCmd_tells (code : Int) (cfg : AcCfg) :
    (switchCmd code cfg).Tells Op.told fun out _ => ∃ gtick, out =
      (if readsClock code then [.clock gtick] else []) ++ toldOf (switchReplies code gtick cfg) := by
  induction code using cmdCode_cases with
  | other code outside =>
    have silent : readsClock code = false := by
      simp only [readsClock, decide_eq_false_iff_not]
      omega
    have not8 : code ≠ 8 := by omega
    simp [switchCmd_other outside, switchReplies, cmdReply_other outside, silent, not8, toldOf,
      defaultArm, publish, Op.told]
  | known i =>
    -- an arm that reads the clock says what it has read; to the others any clock will do
    fin_cases i <;>
      simp [switchCmd, switchReplies, cmdCfg, cmdReply, readsClock, toldOf, acOpen, acClose,
        acWriteCfg, adjustArm, timeInSleep, softTimerSuspend, softTimerResume, defaultArm,
        publish, Op.told]
    · exact fun gtick => rfl

theorem respond_tells (event : MqttEvent) (requestId : List UInt8) :
    (respond event requestId).Tells Op.told fun out _ =>
      out = toldOf (responses event requestId) := by
  simp only [respond, responses, byteAt_zero_ne_iff]
  by_cases empty : ofMem (getRequestId event.topic event.topicLen requestId) = []
  · simp [empty, toldOf]
  · simp [empty, toldOf, publish, Op.told]

theorem handler_tells (cj : CJson) (event : MqttEvent) (requestId : List UInt8) :
    (mqttDataEventHandler cj event requestId).Tells Op.told fun out _ =>
      DataAnswer cj event requestId out := by
  apply Tells.bind
  refine (jsonParse_tells cj event.data).imp ?_
  rintro _ _ ⟨rfl, rfl⟩
  intro cfg
  change Tells _ (switchCmd (cmdCode cj event.data) cfg >>= fun _ => respond event requestId) _
  apply Tells.bind
  refine (switchCmd_tells _ cfg).imp ?_
  rintro _ - ⟨gtick, rfl⟩
  refine (respond_tells event requestId).imp ?_
  rintro _ - rfl
  exact ⟨cfg, gtick, by simp [Op.told, toldOf]⟩

theorem softTimerTurn_silent (gtick : Int) :
    (softTimerTurn gtick).Performs (fun o => o.clientCalls = []) fun _ => True := by
  simp only [softTimerTurn, acWeeklayyerAdjust]
  split
  · rw [acInWorkdayAdjust_eq]
    simp [acWriteCfg, Op.clientCalls]
  · simp [Op.clientCalls]

theorem mqttEventHandler_tells (cj : CJson) (event : EspMqttEventId) :
    (mqttEventHandler cj event).Tells ClientOp.told fun out _ => Answer cj event out := by
  cases event with
  | data event requestId =>
    exact relabel_tells _ _ (fun _ _ => rfl) (handler_tells cj event requestId)
  | _ => simp [mqttEventHandler, Answer, ClientOp.told]

/-! ### What the broker is sent -/

/-- The events among what happens, in the order they are taken up. -/
def events (as : List SessionAct) : List EspMqttEventId :=
  as.filterMap fun a => match a with
    | .event event => some event
    | .tick _ | .step _ | .clock _ => none

/-- What the MQTT task does in a step: what it reads is what it finds there. -/
def toldBy (s : Session) : SessionAct → List Told
  | .step .mqtt => match s.prog .mqtt with
    | .op o _ => o.told (Client.perform o s.store).1
    | .ret _ => []
  | .step .softTimer | .event _ | .tick _ | .clock _ => []

/-- All that the MQTT task has read and said in a run. -/
def told (cj : CJson) : Session → List SessionAct → List Told :=
  ghost (sessionStep cj) (fun told s a => told ++ toldBy s a) []

/-- Each event has its own answer, in order and with nothing between, and only
the last may still lack the end of it: not, if the handler is through. -/
def InTurn (cj : CJson) (events : List EspMqttEventId) (through : Prop) (told : List Told) : Prop :=
  ∃ answers, List.Forall₂ (Answer cj) events answers ∧ answers.dropLast.flatten <+: told ∧
    told <+: answers.flatten ∧ (through → told = answers.flatten)

/-- What has been told so far, and what is left to tell of the last event. -/
inductive Speaking (cj : CJson) :
    List EspMqttEventId → List Told → Program ClientOp ClientOp.Res Unit → Prop
  | silent : Speaking cj [] [] (.ret ())
  | speaking {earlier : List EspMqttEventId} {last : EspMqttEventId} {answers : List (List Told)}
      {part : List Told} {p : Program ClientOp ClientOp.Res Unit}
      (all : List.Forall₂ (Answer cj) earlier answers)
      (tells : p.Tells ClientOp.told fun rest _ => Answer cj last (part ++ rest)) :
      Speaking cj (earlier ++ [last]) (answers.flatten ++ part) p

section Speaking

variable {cj : CJson} {es : List EspMqttEventId} {out : List Told}

/-- A handler that is through has said its answer. -/
theorem Speaking.through (speaking : Speaking cj es out (.ret ())) :
    ∃ answers, List.Forall₂ (Answer cj) es answers ∧ out = answers.flatten := by
  cases speaking with
  | silent => exact ⟨[], .nil, rfl⟩
  | @speaking _ _ answers part _ all tells =>
    rw [tells_ret, List.append_nil] at tells
    exact ⟨answers ++ [part], List.rel_append all (.cons tells .nil), by simp⟩

theorem Speaking.take (speaking : Speaking cj es out (.ret ())) (event : EspMqttEventId) :
    Speaking cj (es ++ [event]) out (mqttEventHandler cj event) := by
  obtain ⟨answers, all, rfl⟩ := speaking.through
  rw [← List.append_nil answers.flatten]
  exact .speaking all (mqttEventHandler_tells cj event)

theorem Speaking.op {o : ClientOp} {k : ClientOp.Res o → Program ClientOp ClientOp.Res Unit}
    (speaking : Speaking cj es out (.op o k)) (r : ClientOp.Res o) :
    Speaking cj es (out ++ o.told r) (k r) := by
  cases speaking with
  | speaking all tells =>
    rw [List.append_assoc]
    refine .speaking all ((tells r).imp ?_)
    intro rest a answer
    rwa [List.append_assoc]

theorem Speaking.inTurn {p : Program ClientOp ClientOp.Res Unit} (speaking : Speaking cj es out p)
    (c : Client) : InTurn cj es (p = .ret ()) out := by
  cases speaking with
  | silent => exact ⟨[], .nil, List.prefix_rfl, List.prefix_rfl, fun _ => rfl⟩
  | @speaking _ _ answers part _ all tells =>
    by_cases done : p = .ret ()
    · subst done
      rw [tells_ret, List.append_nil] at tells
      refine ⟨answers ++ [part], List.rel_append all (.cons tells .nil), ?_, ?_, ?_⟩ <;> simp
    · -- run on by itself, the handler would complete the last answer
      obtain ⟨rest, -, answer⟩ := tells.meets Client.perform c
      refine ⟨answers ++ [part ++ rest], List.rel_append all (.cons answer .nil), ?_, ?_, ?_⟩
      · simp
      · simp [← List.append_assoc]
      · exact fun through => absurd through done

end Speaking

/-- The soft_timer says nothing, and the MQTT task speaks of its events. -/
structure InSession (cj : CJson) (as : List SessionAct) (s : Session) (told : List Told) :
    Prop where
  timer : (s.prog .softTimer).Performs (fun o => o.clientCalls = []) fun _ => True
  mqtt : Speaking cj (events as) told (s.prog .mqtt)
  calls : s.store.calls = clientCalls told

theorem sessionStep_inSession {cj : CJson} {as : List SessionAct} {s s' : Session} {a : SessionAct}
    {told : List Told} (inSession : InSession cj as s told)
    (stepped : sessionStep cj s a = some s') :
    InSession cj (as ++ [a]) s' (told ++ toldBy s a) := by
  have apart : Tid.mqtt ≠ Tid.softTimer := by decide
  obtain ⟨timer, mqtt, calls⟩ := inSession
  cases a with
  | event event =>
    -- the event loop takes up an event when the handler of the last one has returned
    obtain ⟨through, rfl⟩ := Pool.start_some.mp stepped
    rw [through] at mqtt
    refine ⟨?_, ?_, ?_⟩
    · simpa only [Function.update_of_ne apart.symm] using timer
    · simpa [events, toldBy] using mqtt.take event
    · simpa [toldBy] using calls
  | tick gtick =>
    simp only [sessionStep, Option.ite_none_right_eq_some] at stepped
    obtain ⟨-, rfl⟩ := Pool.start_some.mp stepped.2
    refine ⟨?_, ?_, ?_⟩
    · simp only [Function.update_self]
      exact relabel_performs _ _ (softTimerTurn_silent gtick)
    · simpa [events, toldBy, Function.update_of_ne apart] using mqtt
    · simpa [toldBy] using calls
  | clock gtick =>
    cases stepped
    exact ⟨timer, by simpa [events, toldBy] using mqtt, by simpa [toldBy] using calls⟩
  | step t =>
    simp only [sessionStep, Option.ite_none_right_eq_some] at stepped
    have silent := Pool.performs_step stepped.2 timer
    obtain ⟨o, k, now, rfl⟩ := Pool.step_some.mp stepped.2
    have same : events (as ++ [.step t]) = events as := by simp [events]
    cases t with
    | mqtt =>
      have said : toldBy s (.step .mqtt) = o.told (Client.perform o s.store).1 := by
        simp only [toldBy, now]
      rw [now] at mqtt
      refine ⟨silent, ?_, ?_⟩
      · rw [same, said]
        simpa only [Function.update_self] using mqtt.op _
      · rw [perform_calls, said, clientCalls_append, clientCalls_told, calls]
    | softTimer =>
      rw [now] at timer
      refine ⟨silent, ?_, ?_⟩
      · rw [same]
        simpa only [toldBy, List.append_nil, Function.update_of_ne apart] using mqtt
      · simpa only [perform_calls, timer.1, toldBy, List.append_nil] using calls

/-- Whatever the interleaving with the soft_timer, the MQTT task gives each event
its own answer, in the order of the events, none lost and none repeated, and the
broker is sent these answers and nothing else. -/
theorem session_in_turn {cj : CJson} {gtick : Int} {as : List SessionAct} {s : Session}
    (reached : run (sessionStep cj) (.boot gtick) as = some s) :
    InTurn cj (events as) (s.prog .mqtt = .ret ()) (told cj (.boot gtick) as) ∧
      s.store.calls = clientCalls (told cj (.boot gtick) as) := by
  have inSession : InSession cj as s (told cj (.boot gtick) as) := by
    apply run_history_ghost _ ?_ ?_ reached
    · intro as s a s' told before stepped
      exact sessionStep_inSession before stepped
    · exact ⟨trivial, .silent, rfl⟩
  exact ⟨inSession.mqtt.inTurn s.store, inSession.calls⟩

def requestEvent (name : String) : EspMqttEventId :=
  .data ⟨payload name, some (lit "request_id=17"), 13⟩ [0]

/-- A turn of the soft_timer goes on from the announcement into the `tup`, between
its read and its write; the next one begins during the `soft_res`. -/
def overlapped : List SessionAct :=
  [.event .connected, .step .mqtt, .tick (noon + 5), .step .softTimer, .step .mqtt,
    .event .subscribed] ++
  .event (requestEvent "tup") :: List.replicate 3 (.step .mqtt) ++
    List.replicate 3 (.step .softTimer) ++ List.replicate 4 (.step .mqtt) ++
  .event (requestEvent "soft_res") :: List.replicate 3 (.step .mqtt) ++
    .tick (noon + 10) :: .step .softTimer :: List.replicate 4 (.step .mqtt)

theorem session_in_turn_overlapped : ∃ s : Session,
    run (sessionStep flatCJson) (.boot noon) overlapped = some s ∧ s.prog .mqtt = .ret () ∧
      InTurn flatCJson [.connected, .subscribed, requestEvent "tup", requestEvent "soft_res"]
        (s.prog .mqtt = .ret ()) (told flatCJson (.boot noon) overlapped) ∧
      s.store.calls = clientCalls (told flatCJson (.boot noon) overlapped) := by
  obtain ⟨s, reached, through⟩ : ∃ s,
      run (sessionStep flatCJson) (.boot noon) overlapped = some s ∧ s.prog .mqtt = .ret () :=
    ⟨_, rfl, rfl⟩
  exact ⟨s, reached, through, session_in_turn reached⟩

/-! ### Sessions among the tasks -/

/-- A program of the tasks within a session. -/
abbrev withClient (p : Prog Unit) : Program ClientOp ClientOp.Res Unit := p.relabel .op fun _ r => r

/-- A task of a session is as it is without the client, or only calls the client
and is idle without. -/
def TaskEmbeds (q : Program ClientOp ClientOp.Res Unit) (p : Prog Unit) : Prop :=
  q = withClient p ∨ p = .ret () ∧ q.Performs (fun o => ∃ call, o = .client call) fun _ => True

structure Embeds (s : Session) (p : Tasks Tid) : Prop where
  store : p.store = s.store.world
  tasks : ∀ t, TaskEmbeds (s.prog t) (p.prog t)

section Embeds

variable {cj : CJson} {s s' : Session} {p : Tasks Tid} {t : Tid}

theorem TaskEmbeds.idle {q : Prog Unit} (embeds : TaskEmbeds (.ret ()) q) : q = .ret () := by
  rcases embeds with same | ⟨idle, -⟩
  · cases q with
    | ret a => rfl
    | op o k => cases same
  · exact idle

theorem Embeds.update (embeds : Embeds s p) {world : World} {calls : List ClientCall}
    {q : Program ClientOp ClientOp.Res Unit} {q' : Prog Unit} (task : TaskEmbeds q q') :
    Embeds ⟨⟨world, calls⟩, Function.update s.prog t q⟩ ⟨world, Function.update p.prog t q'⟩ := by
  refine ⟨rfl, fun u => ?_⟩
  by_cases same : u = t
  · subst same
    simpa only [Function.update_self] using task
  · simpa only [Function.update_of_ne same] using embeds.tasks u

theorem Embeds.idle (embeds : Embeds s p) (through : s.prog t = .ret ()) :
    p = ⟨s.store.world, Function.update p.prog t (.ret ())⟩ := by
  have task := embeds.tasks t
  rw [through] at task
  rw [← task.idle, Function.update_eq_self, ← embeds.store]

/-- A handler that only calls the client is taken up unseen. -/
theorem Embeds.attend (embeds : Embeds s p) {q : Program ClientOp ClientOp.Res Unit}
    (client : q.Performs (fun o => ∃ call, o = .client call) fun _ => True)
    (started : s.start t q = some s') : Embeds s' p := by
  obtain ⟨through, rfl⟩ := Pool.start_some.mp started
  rw [embeds.idle through]
  exact embeds.update (Or.inr ⟨rfl, client⟩)

theorem Embeds.start (embeds : Embeds s p) {q : Prog Unit}
    (started : s.start t (withClient q) = some s') :
    ∃ p', p.start t q = some p' ∧ Embeds s' p' := by
  obtain ⟨through, rfl⟩ := Pool.start_some.mp started
  have idle : p.prog t = .ret () := by
    have task := embeds.tasks t
    rw [through] at task
    exact task.idle
  refine ⟨_, Pool.start_some.mpr ⟨idle, rfl⟩, ?_⟩
  rw [embeds.store]
  exact embeds.update (Or.inl rfl)

/-- An operation is one of the tasks, or a call nobody else sees. -/
theorem Embeds.step (embeds : Embeds s p) (stepped : s.step Client.perform t = some s') :
    (∃ p', p.step World.perform t = some p' ∧ Embeds s' p') ∨ Embeds s' p := by
  obtain ⟨o, k, now, rfl⟩ := Pool.step_some.mp stepped
  have task := embeds.tasks t
  rw [now] at task
  rcases task with same | ⟨idle, client⟩
  · -- the same operation comes next without the client
    left
    cases there : p.prog t with
    | ret a =>
      rw [there] at same
      cases same
    | op o' k' =>
      rw [there] at same
      cases same
      refine ⟨_, Pool.step_some.mpr ⟨o', k', there, rfl⟩, ?_⟩
      rw [embeds.store]
      exact embeds.update (Or.inl rfl)
  · right
    obtain ⟨⟨call, rfl⟩, rest⟩ := client
    have unchanged : p = ⟨s.store.world, Function.update p.prog t (.ret ())⟩ := by
      rw [← idle, Function.update_eq_self, ← embeds.store]
    rw [unchanged]
    exact embeds.update (Or.inr ⟨rfl, rest ()⟩)

end Embeds

/-- A session is simulated by the tasks with the data handler alone. -/
theorem sessionStep_simulates (cj : CJson) :
    Simulates (sessionStep cj) (atomicStep cj) Embeds := by
  intro s a s' p embeds stepped
  cases a with
  | clock gtick =>
    cases stepped
    refine ⟨[.clock gtick], { p with store := { p.store with gtick := gtick } }, rfl, ?_, embeds.tasks⟩
    rw [embeds.store]
  | tick gtick =>
    simp only [sessionStep, Option.ite_none_right_eq_some] at stepped
    obtain ⟨may, started⟩ := stepped
    obtain ⟨p', taken, after⟩ := embeds.start started
    refine ⟨[.take (.tick gtick)], p', ?_, after⟩
    rw [← embeds.store] at may
    rw [run_cons_some]
    exact ⟨p', by simp [atomicStep, Happening.act, tasksStep, Stim.tid, Stim.prog, may, taken], rfl⟩
  | step t =>
    simp only [sessionStep, Option.ite_none_right_eq_some] at stepped
    obtain ⟨may, moved⟩ := stepped
    rcases embeds.step moved with ⟨p', performed, after⟩ | after
    · refine ⟨[.step t], p', ?_, after⟩
      rw [← embeds.store] at may
      rw [run_cons_some]
      exact ⟨p', by simp [atomicStep, Happening.act, tasksStep, may, performed], rfl⟩
    · exact ⟨[], p, rfl, after⟩
  | event event =>
    cases event with
    | data event requestId =>
      obtain ⟨p', taken, after⟩ := embeds.start stepped
      refine ⟨[.take (.event event requestId)], p', ?_, after⟩
      rw [run_cons_some]
      exact ⟨p', by simp [atomicStep, Happening.act, tasksStep, awake, Stim.tid, Stim.prog, taken], rfl⟩
    -- `connected` calls the client only, the others do nothing
    | _ => exact ⟨[], p, rfl, embeds.attend (by simp [mqttEventHandler]) stepped⟩

/-- Every state of a session is one the two tasks reach without the events the
data handler does not see. -/
theorem session_embedded (cj : CJson) (gtick : Int) (as : List SessionAct) :
    Visits (sessionStep cj)
      (fun s => ∃ bs p, run (atomicStep cj) (.boot gtick) bs = some p ∧ Embeds s p)
      (.boot gtick) as := by
  apply visits_of_reached
  intro bs s reached
  have boot : Embeds (.boot gtick) (.boot gtick) := ⟨rfl, fun _ => Or.inl rfl⟩
  exact (sessionStep_simulates cj).run boot reached

end IrCtl

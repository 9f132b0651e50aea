import Mathlib.Tactic.FinCases
import IrCtl.SoftTimer
import IrCtl.Mqtt.Json
import IrCtl.Mqtt.RequestId

/-!
# The MQTT data event handler

`mqtt_data_event_handler`, run by itself: what each command does to the shared
state, what it publishes, and which response goes back to the sender.
-/

namespace IrCtl

open CString

/-- The fields of `esp_mqtt_event_t` the handler uses: the memory from the
payload on and, if there is one, from the topic on. -/
structure MqttEvent where
  data : List UInt8
  topic : Option (List UInt8)
  topicLen : Nat

def acPub : CStr := lit "M2M/AC_PUB"

-- `DEVICE_ID` stands inside the quotes here, so it is not expanded
def userApp : CStr := lit "$oc/devices/DEVICE_ID/user/app"

def responsePrefix : CStr :=
  lit "$oc/devices/664786226bc31504f06ac4b3_A111/sys/commands/response/request_id="

def undefine : CStr × CStr := (userApp, lit "\x7b\"UNDEFINE\"\x7d")

def response (id : CStr) : CStr × CStr := (responsePrefix ++ id, lit "\x7b\"result_code\": 0\x7d")

def power (cfg : AcCfg) : CStr := if cfg.open_ ≠ 0 then lit "open" else lit "close"

def statusStr (cfg : AcCfg) : CStr :=
  lit "\x7b\"" ++ power cfg ++ lit ", t = " ++ decimal cfg.temp.toNat ++ lit "\"\x7d"

def toggleStr (cfg : AcCfg) : CStr := lit "\x7b\"" ++ power cfg ++ lit "\"\x7d"

def tempStr (cfg : AcCfg) : CStr := lit "\x7b\"T = " ++ decimal cfg.temp.toNat ++ lit "\"\x7d"

def timeStr (gtick : Int) : CStr := lit "\x7b\"" ++ ctime gtick ++ lit "\"\x7d"

def toggled (cfg : AcCfg) : AcCfg := { cfg with open_ := if cfg.open_ ≠ 0 then 0 else 1 }

/-- The assignments of `tup` (`by := 1`) and `tdown` (`by := -1`). -/
def adjusted (by_ : U8) (asleep : Int) (cfg : AcCfg) : AcCfg :=
  if asleep ≠ 0 then
    let cfg := { cfg with tempSlp := cfg.tempSlp + by_ }
    { cfg with temp := cfg.tempSlp }
  else
    let cfg := { cfg with tempAct := cfg.tempAct + by_ }
    { cfg with temp := cfg.tempAct }

def adjustArm (by_ : U8) (curCfg : AcCfg) : Prog Unit := do
  let asleep ← timeInSleep
  let curCfg := adjusted by_ asleep curCfg
  acWriteCfg curCfg
  publish acPub (tempStr curCfg)

def defaultArm : Prog Unit := publish undefine.1 undefine.2

def switchCmd (cmdCode : Int) (curCfg : AcCfg) : Prog Unit :=
  match cmdCode with
  | 0 => do
    acOpen
    publish acPub (lit "\x7b\"OPEN ACK\"\x7d")
  | 1 => do
    acClose
    publish acPub (lit "\x7b\"CLOSE ACK\"\x7d")
  | 2 => .op .gtick fun gtick => publish acPub (timeStr gtick)
  | 3 => publish acPub (statusStr curCfg)
  | 4 => do
    let curCfg := toggled curCfg
    acWriteCfg curCfg
    publish acPub (toggleStr curCfg)
  | 5 => adjustArm 1 curCfg
  | 6 => adjustArm (-1) curCfg
  | 7 => do
    softTimerSuspend
    publish acPub (lit "\x7b\"suspned\"\x7d")
  | 8 => do
    softTimerResume
    publish acPub (lit "\x7b\"resume\"\x7d")
    -- there is no `break`: the arm runs into the default one
    defaultArm
  | _ => defaultArm

/-- The response at the end of the handler. `requestId` is the buffer on its
stack, as earlier calls have left it. -/
def respond (event : MqttEvent) (requestId : List UInt8) : Prog Unit :=
  let requestId := getRequestId event.topic event.topicLen requestId
  if byteAt requestId 0 ≠ 0 then
    publish (response (ofMem requestId)).1 (response (ofMem requestId)).2
  else .ret ()

def mqttDataEventHandler (cj : CJson) (event : MqttEvent) (requestId : List UInt8) : Prog Unit := do
  let cmdCode ← jsonParse cj event.data
  let curCfg ← acReadCfg
  switchCmd cmdCode curCfg
  respond event requestId

/-! ### What a command does -/

/-- The configuration a command leaves behind. -/
def cmdCfg (cmdCode : Int) (gtick : Int) (cfg : AcCfg) : AcCfg :=
  match cmdCode with
  | 0 => { cfg with open_ := 1 }
  | 1 => { cfg with open_ := 0 }
  | 4 => toggled cfg
  | 5 => adjusted 1 (timeInSleepAt gtick) cfg
  | 6 => adjusted (-1) (timeInSleepAt gtick) cfg
  | _ => cfg

def cmdReply (cmdCode : Int) (w : World) : CStr × CStr :=
  match cmdCode with
  | 0 => (acPub, lit "\x7b\"OPEN ACK\"\x7d")
  | 1 => (acPub, lit "\x7b\"CLOSE ACK\"\x7d")
  | 2 => (acPub, timeStr w.gtick)
  | 3 => (acPub, statusStr w.cfg)
  | 4 => (acPub, toggleStr w.cfg)
  | 5 | 6 => (acPub, tempStr w.cfg)
  | 7 => (acPub, lit "\x7b\"suspned\"\x7d")
  | 8 => (acPub, lit "\x7b\"resume\"\x7d")
  | _ => undefine

def cmdFrames (cmdCode : Int) (gtick : Int) (cfg : AcCfg) : List Frame :=
  if cmdCode = 0 ∨ cmdCode = 1 ∨ cfg ≠ cmdCfg cmdCode gtick cfg then
    framePair (cmdCfg cmdCode gtick cfg)
  else []

def responses (event : MqttEvent) (requestId : List UInt8) : List (CStr × CStr) :=
  let id := ofMem (getRequestId event.topic event.topicLen requestId)
  if id = [] then [] else [response id]

theorem cmdCode_cases {P : Int → Prop} (known : ∀ i : Fin 9, P i.val)
    (other : ∀ code, code < 0 ∨ 8 < code → P code) (code : Int) : P code := by
  by_cases inside : code < 0 ∨ 8 < code
  · exact other code inside
  · have bound : code.toNat < 9 := by omega
    have same : ((⟨code.toNat, bound⟩ : Fin 9).val : Int) = code := by
      dsimp only
      omega
    rw [← same]
    exact known ⟨code.toNat, bound⟩

theorem cmdCfg_other {code : Int} (outside : code < 0 ∨ 8 < code) (gtick : Int) (cfg : AcCfg) :
    cmdCfg code gtick cfg = cfg := by
  unfold cmdCfg
  split <;> first | omega | rfl

theorem switchCmd_other {code : Int} (outside : code < 0 ∨ 8 < code) (cfg : AcCfg) :
    switchCmd code cfg = defaultArm := by
  unfold switchCmd
  split <;> first | omega | rfl

theorem cmdReply_other {code : Int} (outside : code < 0 ∨ 8 < code) (w : World) :
    cmdReply code w = undefine := by
  unfold cmdReply
  split <;> first | omega | rfl

/-- What the switch leaves: the configuration, the frames, the reply, and
nothing else but the suspend flag. -/
structure Switched (cmdCode : Int) (w w' : World) : Prop where
  cfg : w'.cfg = cmdCfg cmdCode w.gtick w.cfg
  loaded : w'.loaded = w.loaded ++ cmdFrames cmdCode w.gtick w.cfg
  pubs : w'.pubs = w.pubs ++ cmdReply cmdCode w' :: if cmdCode = 8 then [undefine] else []
  gtick : w'.gtick = w.gtick
  heap : w'.heap = w.heap

theorem switchCmd_spec (cmdCode : Int) (w : World) :
    Switched cmdCode w (w.exec (switchCmd cmdCode w.cfg)).2 := by
  induction cmdCode using cmdCode_cases with
  | other code outside =>
    have not8 : code ≠ 8 := by omega
    have frames : cmdFrames code w.gtick w.cfg = [] := by
      rw [cmdFrames, if_neg]
      simp only [cmdCfg_other outside, ne_eq, not_true_eq_false, or_false]
      omega
    constructor <;>
      simp [switchCmd_other outside, cmdCfg_other outside, cmdReply_other outside, frames, not8,
        defaultArm, publish, World.perform]
  | known i =>
    -- one arm a code: perform its operations and compare with the tables
    fin_cases i <;> constructor <;>
      simp [switchCmd, cmdCfg, cmdReply, cmdFrames, acOpen, acClose, acWriteCfg, adjustArm,
        timeInSleep, softTimerSuspend, softTimerResume, defaultArm, publish, World.perform,
        call_loaded, AcCall.transmits, AcCall.store]

theorem byteAt_zero_ne_iff (buffer : List UInt8) : byteAt buffer 0 ≠ 0 ↔ ofMem buffer ≠ [] := by
  cases buffer with
  | nil => simp [byteAt, ofMem]
  | cons c cs => by_cases nul : c = 0 <;> simp [byteAt, ofMem, nul]

theorem exec_respond (event : MqttEvent) (requestId : List UInt8) (w : World) :
    w.exec (respond event requestId) =
      ((), { w with pubs := w.pubs ++ responses event requestId }) := by
  simp only [respond, responses, byteAt_zero_ne_iff]
  by_cases empty : ofMem (getRequestId event.topic event.topicLen requestId) = []
  · simp [empty]
  · simp [empty, publish, World.perform]

/-- The state the handler leaves, from the state its switch leaves. -/
theorem exec_handler (cj : CJson) (event : MqttEvent) (requestId : List UInt8) (w : World) :
    ∃ w', Switched (cmdCode cj event.data) { w with heap := jsonLeak cj event.data w.heap } w' ∧
      w.exec (mqttDataEventHandler cj event requestId) =
        ((), { w' with pubs := w'.pubs ++ responses event requestId }) := by
  refine ⟨_, switchCmd_spec (cmdCode cj event.data)
    { w with heap := jsonLeak cj event.data w.heap }, ?_⟩
  simp only [mqttDataEventHandler, World.exec, Program.exec_bind]
  have parse := exec_jsonParse cj event.data w
  have answer := exec_respond event requestId
  simp only [World.exec] at parse answer
  rw [parse, answer]
  rfl

end IrCtl

import IrCtl.Semantics.Program
import IrCtl.Semantics.CString
import IrCtl.Gree.Frame

/-!
# The operations of the tasks

What the MQTT task and the soft_timer task do to the state they share, one
operation at a time. Here a call of the `ac_*` interface is one operation and a
transmission two frames on the air; `Gree.Device` opens it up into mutex,
semaphore and alarm callback.
-/

namespace IrCtl

open CString

inductive AcCall where
  | acOpen
  | acClose
  | acReadCfg
  | acWriteCfg (cfg : AcCfg)
  deriving DecidableEq, Repr

inductive HeapOp where
  -- `cJSON_Parse` and `cJSON_Print` allocate, `cJSON_Delete` and `free` release
  | parsed
  | printed
  | deleted
  | freed
  deriving DecidableEq, Repr

/-- Operations on what the tasks share. -/
inductive Op where
  | ac (call : AcCall)
  | gtick
  | setGtick (g : Int)
  | publish (topic data : CStr)
  | heap (h : HeapOp)
  -- `vTaskSuspend` and `vTaskResume` on `soft_timer_hdl`
  | suspend
  | resume
  deriving DecidableEq, Repr

/-- The answer to an operation. -/
abbrev Op.Res : Op → Type
  -- a call answers with the configuration it has met, which only a read uses
  | .ac _ => AcCfg
  | .gtick => Int
  | _ => Unit

abbrev Prog (α : Type) := Program Op Op.Res α

structure Heap where
  trees : Nat
  strings : Nat
  deriving DecidableEq, Repr

def Heap.apply (heap : Heap) : HeapOp → Heap
  | .parsed => { heap with trees := heap.trees + 1 }
  | .printed => { heap with strings := heap.strings + 1 }
  | .deleted => { heap with trees := heap.trees - 1 }
  | .freed => { heap with strings := heap.strings - 1 }

/-- What the tasks share. -/
structure World where
  -- the stored `gac.ac.cfg` and the clock
  cfg : AcCfg
  gtick : Int
  -- the frames loaded for transmission and the messages published so far
  loaded : List Frame
  pubs : List (CStr × CStr)
  -- what `json_parse` has not released
  heap : Heap
  -- whether the soft_timer task is suspended
  suspended : Bool
  deriving DecidableEq, Repr

def gacCfg : AcCfg where
  open_ := 0
  temp := 24
  sleep := 1
  tempAct := 24
  tempSlp := 26

-- the clock may start anywhere: nothing sets it before the soft_timer does
def World.boot (gtick : Int) : World := ⟨gacCfg, gtick, [], [], ⟨0, 0⟩, false⟩

def World.transmit (w : World) (cfg : AcCfg) : World :=
  { w with cfg := cfg, loaded := w.loaded ++ framePair cfg }

def AcCall.store (call : AcCall) (cfg : AcCfg) : AcCfg :=
  match call with
  | .acOpen => { cfg with open_ := 1 }
  | .acClose => { cfg with open_ := 0 }
  | .acReadCfg => cfg
  | .acWriteCfg new => new

/-- Whether a call transmits, `cfg` being the stored configuration. -/
def AcCall.transmits (call : AcCall) (cfg : AcCfg) : Bool :=
  match call with
  | .acOpen | .acClose => true
  | .acReadCfg => false
  -- the `memcmp` of `gree_ac_write_cfg`
  | .acWriteCfg new => cfg ≠ new

def World.call (w : World) (call : AcCall) : World :=
  if call.transmits w.cfg then w.transmit (call.store w.cfg) else w

def World.perform : (o : Op) → World → Op.Res o × World
  | .ac call, w => (w.cfg, w.call call)
  | .gtick, w => (w.gtick, w)
  | .setGtick g, w => ((), { w with gtick := g })
  | .publish topic data, w => ((), { w with pubs := w.pubs ++ [(topic, data)] })
  | .heap h, w => ((), { w with heap := w.heap.apply h })
  | .suspend, w => ((), { w with suspended := true })
  | .resume, w => ((), { w with suspended := false })

/-- A program run by a task no other task interrupts. -/
abbrev World.exec {α : Type} (p : Prog α) (w : World) : α × World := Program.exec World.perform p w

@[simp] theorem call_cfg (w : World) (call : AcCall) : (w.call call).cfg = call.store w.cfg := by
  cases call with
  | acOpen => rfl
  | acClose => rfl
  | acReadCfg => rfl
  | acWriteCfg new =>
    -- a write of what is stored is skipped, which stores the same
    by_cases same : w.cfg = new
    · simp [World.call, AcCall.transmits, AcCall.store, same]
    · simp [World.call, AcCall.transmits, AcCall.store, same, World.transmit]

theorem call_loaded (w : World) (call : AcCall) :
    (w.call call).loaded =
      w.loaded ++ if call.transmits w.cfg then framePair (call.store w.cfg) else [] := by
  unfold World.call
  split <;> simp [World.transmit]

@[simp] theorem call_frame (w : World) (call : AcCall) :
    (w.call call).gtick = w.gtick ∧ (w.call call).pubs = w.pubs ∧
    (w.call call).heap = w.heap ∧ (w.call call).suspended = w.suspended := by
  unfold World.call
  split <;> exact ⟨rfl, rfl, rfl, rfl⟩

def acOpen : Prog Unit := .op (.ac .acOpen) fun _ => .ret ()

def acClose : Prog Unit := .op (.ac .acClose) fun _ => .ret ()

def acReadCfg : Prog AcCfg := .op (.ac .acReadCfg) .ret

def acWriteCfg (cfg : AcCfg) : Prog Unit := .op (.ac (.acWriteCfg cfg)) fun _ => .ret ()

def publish (topic data : CStr) : Prog Unit := .op (.publish topic data) .ret

end IrCtl

import IrCtl.World
import IrCtl.Semantics.Transition

/-!
# Tasks

Any number of tasks that run programs over the shared world, interleaved
operation by operation.
-/

namespace IrCtl

/-- Tasks that share the world, each with what is left of its program. -/
abbrev Tasks (ι : Type) := Pool ι Op Op.Res World

/-- What happens among tasks: one takes up a program or performs its next
operation, or the clock is stored to outside a turn. -/
inductive TaskAct (ι : Type) where
  | start (t : ι) (p : Prog Unit)
  | step (t : ι)
  | clock (gtick : Int)

section Tasks

variable {ι : Type} [DecidableEq ι]

/-- Whether task `t` may run; `hdl` is the task that `vTaskSuspend` stops. -/
def awake (hdl : ι) (w : World) (t : ι) : Bool := t ≠ hdl || !w.suspended

def tasksStep (hdl : ι) (s : Tasks ι) : TaskAct ι → Option (Tasks ι)
  | .start t p => if awake hdl s.store t then s.start t p else none
  | .step t => if awake hdl s.store t then s.step World.perform t else none
  | .clock gtick => some { s with store := { s.store with gtick := gtick } }

def Tasks.boot (gtick : Int) : Tasks ι := ⟨.boot gtick, fun _ => .ret ()⟩

end Tasks

end IrCtl

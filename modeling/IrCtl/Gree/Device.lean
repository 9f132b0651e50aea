import IrCtl.Tasks
import IrCtl.Gree.TimCb

/-!
# The device

The `ac_*` calls opened up: each takes the mutex, runs its body with the two
waits of `gree_ac_ir_tranx`, and gives the mutex back, while the alarm callback
fires whenever the timer is started. Between two of these points a task is not
disturbed; what it does there is one step.
-/

namespace IrCtl

open Transition

/-- A point inside a call: before its body, at either wait, before the release.
`seen` is the configuration the call has met. -/
inductive Point where
  | body
  | wait0 (seen : AcCfg)
  | wait1 (seen : AcCfg)
  | give (seen : AcCfg)

/-- What a task is at: its program, or a call of it, which holds the mutex. -/
inductive Task where
  | run (p : Prog Unit)
  | call (c : AcCall) (k : AcCfg → Prog Unit) (point : Point)

/-- The device and its tasks. `calls` lists the completed calls in the order in
which they held the mutex, `sent` the frames whose transmission is complete. -/
structure Dev (ι : Type) where
  world : World
  ir : Ir
  mutex : Option ι
  task : ι → Task
  calls : List AcCall
  sent : List Frame

/-! ### The bodies of the calls -/

def irIoInit (ir : Ir) : Ir := { ir with carrier := false }

/-- Loading a frame and starting the timer for it. -/
def transmitFrame (gif : GreeIrframe) (w : World) (ir : Ir) : World × Ir :=
  ({ w with loaded := w.loaded ++ [gif.bits] },
    { ir with started := true, tx := { ir.tx with frame := gif.bits, st := .start0 } })

/-- `gree_ac_ir_tranx` up to its first wait; `none` is the early return. -/
def greeAcIrTranx (w : World) (ir : Ir) : Option (World × Ir) :=
  if ir.tx.st ≠ .reset then none
  else
    let ir := { ir with alarm := 1000 }
    let ir := irIoInit ir
    some (transmitFrame (loadFrame0 w.cfg) w ir)

/-- `gree_ac_ir_tranx` between its waits. -/
def greeAcIrTranxNext (w : World) (ir : Ir) : World × Ir :=
  transmitFrame (loadFrame1 w.cfg) w { ir with tx := { ir.tx with done := false } }

/-- A transmission as the last thing a body does: it waits, or it has returned
early and leaves the new configuration stored. -/
def transmitOrReturn (w : World) (ir : Ir) : World × Ir × Bool :=
  match greeAcIrTranx w ir with
  | some next => (next.1, next.2, true)
  | none => (w, ir, false)

def greeAcOpen (w : World) (ir : Ir) : World × Ir × Bool :=
  transmitOrReturn { w with cfg := { w.cfg with open_ := 1 } } ir

def greeAcClose (w : World) (ir : Ir) : World × Ir × Bool :=
  transmitOrReturn { w with cfg := { w.cfg with open_ := 0 } } ir

-- the copy it makes is the `seen` of the points behind the body
def greeAcReadCfg (w : World) (ir : Ir) : World × Ir × Bool := (w, ir, false)

def greeAcWriteCfg (cfg : AcCfg) (w : World) (ir : Ir) : World × Ir × Bool :=
  if w.cfg ≠ cfg then transmitOrReturn { w with cfg := cfg } ir else (w, ir, false)

/-- `gree_ac_ops`: the body of a call up to its first wait, and whether it waits. -/
def greeAcOps : AcCall → World → Ir → World × Ir × Bool
  | .acOpen => greeAcOpen
  | .acClose => greeAcClose
  | .acReadCfg => greeAcReadCfg
  | .acWriteCfg cfg => greeAcWriteCfg cfg

/-! ### Steps -/

inductive DevAct (ι : Type) where
  | task (a : TaskAct ι)
  | alarm

section Steps

variable {ι : Type} [DecidableEq ι]

/-- Task `t` moves on by one step, if it is not done and not blocked. -/
def Dev.step (s : Dev ι) (t : ι) : Option (Dev ι) :=
  match s.task t with
  | .run (.ret _) => none
  | .run (.op (.ac c) k) =>
    if s.mutex = none then
      some { s with mutex := some t, task := Function.update s.task t (.call c k .body) }
    else none
  | .run (.op o k) =>
    some { s with
      world := (World.perform o s.world).2
      task := Function.update s.task t (.run (k (World.perform o s.world).1)) }
  | .call c k .body =>
    let body := greeAcOps c s.world s.ir
    some { s with
      world := body.1
      ir := body.2.1
      task := Function.update s.task t
        (.call c k (if body.2.2 then .wait0 s.world.cfg else .give s.world.cfg)) }
  | .call c k (.wait0 seen) =>
    if s.ir.tx.done then
      let next := greeAcIrTranxNext s.world s.ir
      some { s with
        world := next.1
        ir := next.2
        task := Function.update s.task t (.call c k (.wait1 seen)) }
    else none
  | .call c k (.wait1 seen) =>
    if s.ir.tx.done then
      some { s with
        ir := { s.ir with tx := { s.ir.tx with done := false } }
        task := Function.update s.task t (.call c k (.give seen)) }
    else none
  | .call c k (.give seen) =>
    some { s with
      mutex := none
      task := Function.update s.task t (.run (k seen))
      calls := s.calls ++ [c] }

def Dev.start (s : Dev ι) (t : ι) (p : Prog Unit) : Option (Dev ι) :=
  match s.task t with
  | .run (.ret _) => some { s with task := Function.update s.task t (.run p) }
  | _ => none

/-- The alarm callback, and the frame it completes. -/
def Dev.alarm (s : Dev ι) : Option (Dev ι) :=
  if s.ir.started then
    some { s with
      ir := timCb s.ir
      sent := if s.ir.tx.st = .reset then s.sent ++ [s.ir.tx.frame] else s.sent }
  else none

def devStep (hdl : ι) (s : Dev ι) : DevAct ι → Option (Dev ι)
  | .task (.start t p) => if awake hdl s.world t then s.start t p else none
  | .task (.step t) => if awake hdl s.world t then s.step t else none
  | .task (.clock gtick) => some { s with world := { s.world with gtick := gtick } }
  | .alarm => s.alarm

def Dev.boot (gtick : Int) : Dev ι where
  world := .boot gtick
  ir := ⟨⟨Vector.replicate 9 0, 0, 0, .reset, false⟩, false, false, 0, []⟩
  mutex := none
  task := fun _ => .run (.ret ())
  calls := []
  sent := []

inductive DevStepped (s s' : Dev ι) (t : ι) : Prop
  | take (c : AcCall) (k : AcCfg → Prog Unit) (now : s.task t = .run (.op (.ac c) k))
      (free : s.mutex = none)
      (after : s' = { s with
        mutex := some t
        task := Function.update s.task t (.call c k .body) })
  | perform (o : Op) (k : Op.Res o → Prog Unit) (now : s.task t = .run (.op o k))
      (other : ∀ c, o ≠ .ac c)
      (after : s' = { s with
        world := (World.perform o s.world).2
        task := Function.update s.task t (.run (k (World.perform o s.world).1)) })
  | body (c : AcCall) (k : AcCfg → Prog Unit) (now : s.task t = .call c k .body)
      (after : s' = { s with
        world := (greeAcOps c s.world s.ir).1
        ir := (greeAcOps c s.world s.ir).2.1
        task := Function.update s.task t (.call c k
          (if (greeAcOps c s.world s.ir).2.2 then .wait0 s.world.cfg else .give s.world.cfg)) })
  | wait0 (c : AcCall) (k : AcCfg → Prog Unit) (seen : AcCfg)
      (now : s.task t = .call c k (.wait0 seen)) (done : s.ir.tx.done = true)
      (after : s' = { s with
        world := (greeAcIrTranxNext s.world s.ir).1
        ir := (greeAcIrTranxNext s.world s.ir).2
        task := Function.update s.task t (.call c k (.wait1 seen)) })
  | wait1 (c : AcCall) (k : AcCfg → Prog Unit) (seen : AcCfg)
      (now : s.task t = .call c k (.wait1 seen)) (done : s.ir.tx.done = true)
      (after : s' = { s with
        ir := { s.ir with tx := { s.ir.tx with done := false } }
        task := Function.update s.task t (.call c k (.give seen)) })
  | give (c : AcCall) (k : AcCfg → Prog Unit) (seen : AcCfg)
      (now : s.task t = .call c k (.give seen))
      (after : s' = { s with
        mutex := none
        task := Function.update s.task t (.run (k seen))
        calls := s.calls ++ [c] })

theorem Dev.step_cases {s s' : Dev ι} {t : ι} (stepped : s.step t = some s') :
    DevStepped s s' t := by
  unfold Dev.step at stepped
  split at stepped
  · cases stepped
  · next c k now =>
    rw [Option.ite_none_right_eq_some] at stepped
    obtain ⟨free, same⟩ := stepped
    cases same
    exact .take c k now free rfl
  · next o k other now =>
    cases stepped
    refine .perform o k now ?_ rfl
    rintro c rfl
    exact other c k rfl HEq.rfl
  · next c k now =>
    cases stepped
    exact .body c k now rfl
  · next c k seen now =>
    rw [Option.ite_none_right_eq_some] at stepped
    obtain ⟨done, same⟩ := stepped
    cases same
    exact .wait0 c k seen now done rfl
  · next c k seen now =>
    rw [Option.ite_none_right_eq_some] at stepped
    obtain ⟨done, same⟩ := stepped
    cases same
    exact .wait1 c k seen now done rfl
  · next c k seen now =>
    cases stepped
    exact .give c k seen now rfl

theorem Dev.start_some {s s' : Dev ι} {t : ι} {p : Prog Unit} (started : s.start t p = some s') :
    s.task t = .run (.ret ()) ∧ s' = { s with task := Function.update s.task t (.run p) } := by
  unfold Dev.start at started
  split at started
  · next now =>
    cases started
    exact ⟨now, rfl⟩
  · cases started

/-- What a step of the device is. -/
inductive DevActed (hdl : ι) (s s' : Dev ι) : DevAct ι → Prop
  | start (t : ι) (p : Prog Unit) (may : awake hdl s.world t = true)
      (now : s.task t = .run (.ret ()))
      (after : s' = { s with task := Function.update s.task t (.run p) }) :
      DevActed hdl s s' (.task (.start t p))
  | step (t : ι) (may : awake hdl s.world t = true) (moved : s.step t = some s') :
      DevActed hdl s s' (.task (.step t))
  | clock (gtick : Int) (after : s' = { s with world := { s.world with gtick := gtick } }) :
      DevActed hdl s s' (.task (.clock gtick))
  | alarm (started : s.ir.started = true)
      (after : s' = { s with
        ir := timCb s.ir
        sent := if s.ir.tx.st = .reset then s.sent ++ [s.ir.tx.frame] else s.sent }) :
      DevActed hdl s s' .alarm

theorem devStep_cases {hdl : ι} {s s' : Dev ι} {a : DevAct ι}
    (stepped : devStep hdl s a = some s') : DevActed hdl s s' a := by
  cases a with
  | alarm =>
    simp only [devStep, Dev.alarm, Option.ite_none_right_eq_some] at stepped
    obtain ⟨started, same⟩ := stepped
    exact .alarm started (Option.some.inj same).symm
  | task a =>
    cases a with
    | start t p =>
      simp only [devStep, Option.ite_none_right_eq_some] at stepped
      obtain ⟨now, after⟩ := Dev.start_some stepped.2
      exact .start t p stepped.1 now after
    | step t =>
      simp only [devStep, Option.ite_none_right_eq_some] at stepped
      exact .step t stepped.1 stepped.2
    | clock gtick => exact .clock gtick (Option.some.inj stepped).symm

end Steps

end IrCtl

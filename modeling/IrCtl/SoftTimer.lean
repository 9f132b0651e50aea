import IrCtl.World
import IrCtl.Calendar

/-!
# The soft timer

`soft_timer.c`: the sleep window, the schedule, and one turn of the task's loop.
-/

namespace IrCtl

def getMinius (tm : Tm) : Int := tm.tmHour * 60 + tm.tmMin

def toMinuis (h m : Int) : Int := h * 60 + m

def vInter (v l h : Int) : Bool := v > l && v < h

/-- `time_in_sleep` at a given clock value. -/
def timeInSleepAt (gtick : Int) : Int :=
  let ret := 0
  let tm := localtime gtick
  -- the bounds are strict: 23:00, 23:59, 0:00 and 9:00 count as awake
  let ret := if vInter (getMinius tm) (toMinuis 23 0) (toMinuis 23 59) then 1 else ret
  let ret := if vInter (getMinius tm) (toMinuis 0 0) (toMinuis 9 0) then 1 else ret
  ret

def timeInSleep : Prog Int := .op .gtick fun gtick => .ret (timeInSleepAt gtick)

def acInWorkdayAdjust (tm : Tm) : Prog Unit := do
  let cfg ← acReadCfg
  let cfg :=
    if vInter (getMinius tm) (toMinuis 9 0) (toMinuis 20 45) then { cfg with open_ := 0 }
    else { cfg with open_ := 1 }
  -- the clock is read again here, whatever `tm` says
  let asleep ← timeInSleep
  let cfg :=
    if asleep ≠ 0 then { cfg with temp := cfg.tempSlp, sleep := 1 }
    else { cfg with temp := cfg.tempAct, sleep := 0 }
  acWriteCfg cfg

def acWeeklayyerAdjust (tm : Tm) : Prog Unit :=
  -- strict bounds again: Monday to Friday
  if vInter tm.tmWday 0 6 then acInWorkdayAdjust tm else .ret ()

/-- A turn of the loop of `soft_timer` behind its delay. -/
def softTimerTurn (gtick : Int) : Prog Unit := do
  -- five seconds more than before, or a fresh `time_stamp()`
  .op (.setGtick gtick) fun _ => .ret ()
  acWeeklayyerAdjust (localtime gtick)

def softTimerSuspend : Prog Unit := .op .suspend .ret

def softTimerResume : Prog Unit := .op .resume .ret

def scheduledOpen (tm : Tm) : U8 :=
  if vInter (getMinius tm) (toMinuis 9 0) (toMinuis 20 45) then 0 else 1

/-- The configuration a workday turn writes over what it has read. -/
def scheduled (tm : Tm) (asleep : Int) (cfg : AcCfg) : AcCfg :=
  { cfg with
    open_ := scheduledOpen tm
    temp := if asleep ≠ 0 then cfg.tempSlp else cfg.tempAct
    sleep := if asleep ≠ 0 then 1 else 0 }

theorem acInWorkdayAdjust_eq (tm : Tm) :
    acInWorkdayAdjust tm = .op (.ac .acReadCfg) fun cfg => .op .gtick fun gtick =>
      acWriteCfg (scheduled tm (timeInSleepAt gtick) cfg) := by
  simp only [acInWorkdayAdjust, acReadCfg, timeInSleep, Program.op_bind, Program.ret_bind]
  -- the continuations agree on every answer
  congr 1
  funext cfg
  congr 1
  funext gtick
  unfold scheduled scheduledOpen
  split <;> split <;> rfl

theorem scheduledOpen_switch (tm : Tm) : scheduledOpen tm = 0 ∨ scheduledOpen tm = 1 := by
  unfold scheduledOpen
  split
  · exact Or.inl rfl
  · exact Or.inr rfl

end IrCtl

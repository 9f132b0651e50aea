import IrCtl.Deadlock

/-!
# Progress

The steps the firmware takes of itself are paid for by the stimuli it has taken
up, so it comes to rest; and it rests with all its tasks done, unless the
soft_timer is suspended with the mutex.
-/

namespace IrCtl

open Program Transition

/-! ### What the programs cost -/

/-- A call that transmits takes and gives the mutex, runs its body, waits twice,
and has 142 callbacks a frame. -/
def AcCall.cost : AcCall → Nat
  | .acReadCfg => 3
  -- a write that changes nothing needs less
  | _ => 289

def opCost : Op → Nat
  | .ac c => c.cost
  | _ => 1

/-- What is left of a call behind a point of it, callbacks under way not counted. -/
def AcCall.costBehind (c : AcCall) : Point → Nat
  | .body => c.cost - 1
  | .wait0 _ => 145
  | .wait1 _ => 2
  | .give _ => 1

def Task.Within : Task → Nat → Prop
  | .run p, n => p.Within opCost n
  | .call c k point, n => ∃ m, c.costBehind point + m ≤ n ∧ ∀ seen, (k seen).Within opCost m

theorem jsonParse_within (cj : CJson) (data : List UInt8) :
    (jsonParse cj data).Within opCost 4 := by
  simp only [jsonParse, hdlFree]
  repeat' split
  all_goals simp [heapOp, opCost]

theorem respond_within (event : MqttEvent) (requestId : List UInt8) :
    (respond event requestId).Within opCost 1 := by
  simp only [respond]
  split <;> simp [publish, opCost]

theorem switchCmd_within (code : Int) (cfg : AcCfg) : (switchCmd code cfg).Within opCost 291 := by
  induction code using cmdCode_cases with
  | other code outside => simp [switchCmd_other outside, defaultArm, publish, opCost]
  | known i =>
    fin_cases i <;>
      simp [switchCmd, acOpen, acClose, acWriteCfg, adjustArm, timeInSleep, softTimerSuspend,
        softTimerResume, defaultArm, publish, opCost, AcCall.cost]

theorem handler_within (cj : CJson) (event : MqttEvent) (requestId : List UInt8) :
    (mqttDataEventHandler cj event requestId).Within opCost 299 := by
  -- 4 for the payload, 3 for the read, 291 for the switch, 1 for the response
  have rest : ∀ code, (acReadCfg >>= fun cfg => switchCmd code cfg >>= fun _ =>
      respond event requestId).Within opCost 295 := by
    intro code
    refine ⟨by decide, fun cfg => ?_⟩
    exact (switchCmd_within code cfg).bind fun _ => respond_within event requestId
  exact (jsonParse_within cj event.data).bind rest

theorem softTimerTurn_within (gtick : Int) : (softTimerTurn gtick).Within opCost 299 := by
  simp only [softTimerTurn, acWeeklayyerAdjust, acInWorkdayAdjust_eq]
  split <;> simp [acWriteCfg, opCost, AcCall.cost]

/-- Whatever comes in, serving it takes at most 299 steps and callbacks. -/
theorem Stim.prog_within (cj : CJson) (s : Stim) : (s.prog cj).Within opCost 299 := by
  cases s with
  | event message requestId => exact handler_within cj message requestId
  | tick gtick => exact softTimerTurn_within gtick

/-! ### Coming to rest -/

/-- The callbacks a started timer has before it. -/
def callbacksLeft (ir : Ir) : Nat :=
  -- behind the pulses come the callbacks of `STM_END2` and `STM_RESET`
  if ir.started then if ir.tx.st = .reset then 1 else (pulsesLeft ir.tx).length + 2 else 0

theorem callbacksLeft_timCb {f : Frame} {before : List Interval} {ir : Ir}
    (sending : Sending f before ir) : callbacksLeft (timCb ir) + 1 = callbacksLeft ir := by
  rw [callbacksLeft, callbacksLeft, if_pos sending.started]
  by_cases idle : ir.tx.st = .reset
  · rw [if_pos idle, timCb_reset idle]
    rfl
  · rw [if_neg idle]
    by_cases last : ir.tx.st = .end2
    · simp [timCb_end2 last, sending.started, pulsesLeft, last]
    · obtain ⟨p, pulses⟩ := timCb_pulses ir sending.inStep idle last
      rw [if_pos (pulses.started.trans sending.started), if_neg pulses.busy, pulses.left]
      rfl

/-- The tasks and the timer have at most `n` steps before them. -/
structure Rests (s : Dev Tid) (n : Nat) : Prop where
  inv : DevInv s
  within : ∃ b : Tid → Nat, (∀ t, (s.task t).Within (b t)) ∧
    b .mqtt + b .softTimer + callbacksLeft s.ir ≤ n

section Steps

variable {cj : CJson} {s s' : Dev Tid} {t : Tid} {n : Nat}

/-- One task moves on, and what it needs from then on is what it had at most,
less what the timer needs and `paid`. -/
theorem Rests.update (rests : Rests s n) (inv : DevInv s') {now : Task} {paid gain : Nat}
    (task : s'.task = Function.update s.task t now)
    (enough : ∀ b, (s.task t).Within b → ∃ m, now.Within m ∧
      m + callbacksLeft s'.ir + paid ≤ b + callbacksLeft s.ir + gain) :
    ∃ m, Rests s' m ∧ m + paid ≤ n + gain := by
  obtain ⟨b, within, sum⟩ := rests.within
  -- only the bound of this task is changed
  obtain ⟨m, within', less⟩ := enough (b t) (within t)
  refine ⟨_, ⟨inv, Function.update b t m, ?_, Nat.le_refl _⟩, ?_⟩
  · intro u
    rw [task]
    by_cases same : u = t
    · subst same
      rw [Function.update_self, Function.update_self]
      exact within'
    · rw [Function.update_of_ne same, Function.update_of_ne same]
      exact within u
  · cases t with
    | mqtt =>
      rw [Function.update_self, Function.update_of_ne (by decide)]
      omega
    | softTimer =>
      rw [Function.update_self, Function.update_of_ne (by decide)]
      omega

theorem callbacksLeft_stopped {ir : Ir} (stopped : ir.started = false) : callbacksLeft ir = 0 := by
  rw [callbacksLeft, stopped]
  rfl

theorem callbacksLeft_transmitFrame (gif : GreeIrframe) (w : World) (ir : Ir) :
    callbacksLeft (transmitFrame gif w ir).2 = 142 := by
  simp [callbacksLeft, transmitFrame, pulsesLeft, pulseTrain_length]

/-- Once `done` is given the timer has stopped. -/
theorem Sends.stopped {before : List Frame} {f : Frame} (sends : Sends s before f)
    (done : s.ir.tx.done = true) : s.ir.started = false :=
  (sends.complete done).1.started

theorem AcCall.cost_bounds (c : AcCall) : 3 ≤ c.cost ∧ c.cost ≤ 289 := by
  cases c <;> simp [AcCall.cost]

theorem cost_of_transmits {c : AcCall} {cfg : AcCfg} (transmits : c.transmits cfg = true) :
    c.cost = 289 := by
  cases c with
  | acReadCfg => cases transmits
  | _ => rfl

/-- A call moves on to its next point, which leaves less of it and of the timer. -/
theorem Rests.point (rests : Rests s n) (inv : DevInv s') {c : AcCall} {k : AcCfg → Prog Unit}
    {point point' : Point} (now : s.task t = .call c k point)
    (task : s'.task = Function.update s.task t (.call c k point'))
    (less : c.costBehind point' + callbacksLeft s'.ir + 1 ≤
      c.costBehind point + callbacksLeft s.ir) : ∃ m, Rests s' m ∧ m + 1 ≤ n + 0 := by
  refine rests.update inv task ?_
  intro b within
  rw [now] at within
  -- what comes behind the call is the same at both points
  obtain ⟨m, bound, rest⟩ := within
  refine ⟨c.costBehind point' + m, ⟨m, Nat.le_refl _, rest⟩, ?_⟩
  omega

theorem Rests.step (rests : Rests s n) (moved : s.step t = some s') (inv : DevInv s') :
    ∃ m, Rests s' m ∧ m + 1 ≤ n + 0 := by
  cases Dev.step_cases moved with
  | take c k now free after =>
    refine rests.update inv (by rw [after]) ?_
    intro b within
    rw [now] at within
    obtain ⟨some_left, rest⟩ := within
    have bounds := c.cost_bounds
    have ir : s'.ir = s.ir := by rw [after]
    simp only [opCost] at some_left
    refine ⟨b - 1, ⟨b - c.cost, ?_, rest⟩, ?_⟩
    · simp only [AcCall.costBehind]
      omega
    · rw [ir]
      omega
  | perform o k now other after =>
    refine rests.update inv (by rw [after]) ?_
    intro b within
    rw [now] at within
    -- a call is taken, not performed
    have one : opCost o = 1 := by
      cases o with
      | ac c => exact absurd rfl (other c)
      | _ => rfl
    refine ⟨b - opCost o, within.2 _, ?_⟩
    have some_left := within.1
    have ir : s'.ir = s.ir := by rw [after]
    rw [ir]
    omega
  | body c k now after =>
    obtain ⟨-, here, -⟩ := rests.inv.inCall now
    have quiet : Quiet s s.calls := here
    have stopped := callbacksLeft_stopped quiet.started
    have bounds := c.cost_bounds
    cases transmits : c.transmits s.world.cfg with
    | true =>
      -- the first frame is started: its callbacks are part of the cost of the call
      rw [greeAcOps_transmits quiet.st transmits] at after
      apply rests.point inv now (by rw [after])
      rw [after, callbacksLeft_transmitFrame, stopped]
      simp [AcCall.costBehind, cost_of_transmits transmits]
    | false =>
      rw [greeAcOps_silent transmits] at after
      apply rests.point inv now (by rw [after])
      rw [after, stopped]
      have give : c.costBehind (.give s.world.cfg) = 1 := rfl
      have body : c.costBehind .body = c.cost - 1 := rfl
      simp only [Bool.false_eq_true, if_false, give, body]
      omega
  | wait0 c k seen now given after =>
    obtain ⟨-, ⟨-, -, -, sends⟩, -⟩ := rests.inv.inCall now
    have stopped := callbacksLeft_stopped (sends.stopped given)
    -- the second frame is started
    apply rests.point inv now (by rw [after])
    rw [after, greeAcIrTranxNext, callbacksLeft_transmitFrame, stopped]
    simp [AcCall.costBehind]
  | wait1 c k seen now given after =>
    obtain ⟨-, ⟨-, -, -, sends⟩, -⟩ := rests.inv.inCall now
    have stopped := sends.stopped given
    have still : callbacksLeft s'.ir = 0 := callbacksLeft_stopped (by rw [after]; exact stopped)
    apply rests.point inv now (by rw [after])
    rw [still, callbacksLeft_stopped stopped]
    simp [AcCall.costBehind]
  | give c k seen now after =>
    refine rests.update inv (by rw [after]) ?_
    intro b within
    rw [now] at within
    obtain ⟨m, less, rest⟩ := within
    refine ⟨m, rest seen, ?_⟩
    have ir : s'.ir = s.ir := by rw [after]
    simp only [AcCall.costBehind] at less
    rw [ir]
    omega

/-- The steps the firmware takes of itself. -/
def FirmwareAct.own : FirmwareAct → Nat
  | .happens (.step _) | .alarm => 1
  | .happens (.take _) | .happens (.clock _) => 0

/-- The steps a stimulus pays for. -/
def FirmwareAct.brings : FirmwareAct → Nat
  | .happens (.take _) => 299
  | .happens (.step _) | .happens (.clock _) | .alarm => 0

theorem firmwareStep_pays {a : FirmwareAct} (rests : Rests s n)
    (stepped : firmwareStep cj s a = some s') :
    ∃ m, Rests s' m ∧ m + a.own ≤ n + a.brings := by
  have inv : DevInv s' := devStep_inv rests.inv stepped
  have acted := devStep_cases stepped
  cases a with
  | alarm =>
    cases acted with
    | alarm started after =>
      -- the tasks stay where they are, the timer has one callback less
      obtain ⟨b, within, sum⟩ := rests.within
      obtain ⟨f, before, sending⟩ := rests.inv.sending started
      have less := callbacksLeft_timCb sending
      subst after
      refine ⟨_, ⟨inv, b, within, Nat.le_refl _⟩, ?_⟩
      simp only [FirmwareAct.own, FirmwareAct.brings]
      omega
  | happens a =>
    cases a with
    | clock gtick =>
      cases acted with
      | clock _ after =>
        subst after
        exact ⟨n, ⟨inv, rests.within⟩, Nat.le_refl _⟩
    | step t =>
      cases acted with
      | step _ may moved => exact rests.step moved inv
    | take stim =>
      cases acted with
      | start _ _ may now after =>
        refine rests.update inv (by rw [after]) ?_
        intro b within
        refine ⟨299, stim.prog_within cj, ?_⟩
        have ir : s'.ir = s.ir := by rw [after]
        rw [ir]
        simp only [FirmwareAct.own, FirmwareAct.brings]
        omega

end Steps

/-! ### At rest -/

/-- Neither a task nor the timer moves of itself. -/
def AtRest (cj : CJson) (s : Dev Tid) : Prop := ∀ a, a.own = 1 → firmwareStep cj s a = none

/-- All that was taken up is done. -/
structure Settled (s : Dev Tid) : Prop where
  started : s.ir.started = false
  mutex : s.mutex = none
  done : ∀ t, awake .softTimer s.world t = true → s.task t = .run (.ret ())

/-- The suspended soft_timer has the mutex, and the MQTT task is idle or waits for it. -/
structure Jammed (s : Dev Tid) : Prop where
  started : s.ir.started = false
  holding : SuspendedHolding s
  mqtt : s.task .mqtt = .run (.ret ()) ∨ ∃ c k, s.task .mqtt = .run (.op (.ac c) k)

section AtRest

variable {cj : CJson} {s : Dev Tid}

theorem AtRest.stopped (rest : AtRest cj s) : s.ir.started = false := by
  have none_fires : s.alarm = none := rest .alarm rfl
  by_contra running
  rw [Bool.not_eq_false] at running
  rw [Dev.alarm, if_pos running] at none_fires
  cases none_fires

theorem AtRest.step (rest : AtRest cj s) {t : Tid} (may : awake .softTimer s.world t = true) :
    s.step t = none := by
  -- a step is refused either to a task asleep or by the device itself
  have stays : firmwareStep cj s (.happens (.step t)) = none := rest _ rfl
  simpa only [firmwareStep, FirmwareAct.act, Happening.act, devStep, may, if_true] using stays

/-- A task outside its calls rests when it is done or waits for the mutex. -/
theorem step_run_eq_none {t : Tid} {p : Prog Unit} (now : s.task t = .run p) :
    s.step t = none ↔ p = .ret () ∨ (∃ c k, p = .op (.ac c) k) ∧ s.mutex ≠ none := by
  cases p with
  | ret a => simp [Dev.step, now]
  | op o k =>
    cases o with
    | ac c =>
      simp only [Dev.step, now, reduceCtorEq, false_or, ite_eq_right_iff, imp_false]
      exact ⟨fun held => ⟨⟨c, k, rfl⟩, held⟩, And.right⟩
    | _ => simp [Dev.step, now]

/-- A task in a call rests only while its frame is on the way. -/
theorem DevInv.call_moves (inv : DevInv s) {t : Tid} {c : AcCall} {k : AcCfg → Prog Unit}
    {point : Point} (now : s.task t = .call c k point) (stopped : s.ir.started = false) :
    s.step t ≠ none := by
  obtain ⟨-, here, -⟩ := inv.inCall now
  -- with the timer stopped the semaphore has been given, so no wait holds the call up
  have given : ∀ {before f}, Sends s before f → s.ir.tx.done = true := by
    intro before f sends
    rcases sends.under with ⟨sending, -⟩ | ⟨ended, -⟩
    · rw [sending.started] at stopped
      cases stopped
    · exact ended.done
  cases point with
  | body => simp [Dev.step, now]
  | wait0 seen => simp [Dev.step, now, given here.2.2.2]
  | wait1 seen => simp [Dev.step, now, given here.2.2.2]
  | give seen => simp [Dev.step, now]

theorem atRest_iff (inv : DevInv s) : AtRest cj s ↔ Settled s ∨ Jammed s := by
  constructor
  · intro rest
    have stopped := rest.stopped
    cases holder : s.mutex with
    | none =>
      -- nobody waits for a free mutex
      refine Or.inl ⟨stopped, holder, fun t may => ?_⟩
      obtain ⟨p, now⟩ := (inv.free holder).2 t
      rcases (step_run_eq_none now).mp (rest.step may) with done | ⟨-, held⟩
      · rw [now, done]
      · exact absurd holder held
    | some t =>
      obtain ⟨⟨c, k, point, there, -⟩, others⟩ := inv.held holder
      -- the holder is asleep, so it is the soft_timer
      have asleep : ¬ awake .softTimer s.world t = true := fun may =>
        inv.call_moves there stopped (rest.step may)
      cases t with
      | mqtt => exact absurd rfl asleep
      | softTimer =>
        have suspended : s.world.suspended = true := by simpa [awake] using asleep
        -- the MQTT task is outside its calls and cannot move: done, or before the mutex
        obtain ⟨p, now⟩ := others .mqtt (by decide)
        refine Or.inr ⟨stopped, ⟨suspended, holder⟩, ?_⟩
        rw [now]
        rcases (step_run_eq_none now).mp (rest.step rfl) with rfl | ⟨⟨c, k, rfl⟩, -⟩
        · exact Or.inl rfl
        · exact Or.inr ⟨c, k, rfl⟩
  · intro resting a own
    have stopped : s.ir.started = false := resting.elim Settled.started Jammed.started
    cases a with
    | alarm => simp [firmwareStep, FirmwareAct.act, devStep, Dev.alarm, stopped]
    | happens a =>
      cases a with
      | take stim => cases own
      | clock gtick => cases own
      | step t =>
        simp only [firmwareStep, FirmwareAct.act, Happening.act, devStep, ite_eq_right_iff]
        intro may
        rcases resting with settled | jammed
        · exact (step_run_eq_none (settled.done t may)).mpr (Or.inl rfl)
        · cases t with
          | softTimer =>
            rw [jammed.holding.asleep] at may
            cases may
          | mqtt =>
            have held : s.mutex ≠ none := by simp [jammed.holding.2]
            rcases jammed.mqtt with done | ⟨c, k, waits⟩
            · exact (step_run_eq_none done).mpr (Or.inl rfl)
            · exact (step_run_eq_none waits).mpr (Or.inr ⟨⟨c, k, rfl⟩, held⟩)

end AtRest

/-- The firmware is at rest in just two kinds of states: settled, or jammed by a
suspended soft_timer. -/
theorem firmwareStep_atRest_iff (cj : CJson) (gtick : Int) (as : List FirmwareAct) :
    Visits (firmwareStep cj) (fun s => AtRest cj s ↔ Settled s ∨ Jammed s) (.boot gtick) as := by
  apply visits_of_reached
  intro bs s reached
  exact atRest_iff (firmware_reached reached).1

theorem Rests.comes_to_rest {cj : CJson} {s : Dev Tid} {n : Nat} (rests : Rests s n) :
    ∃ bs s', (∀ b ∈ bs, FirmwareAct.own b = 1) ∧ run (firmwareStep cj) s bs = some s' ∧
      AtRest cj s' := by
  induction n using Nat.strong_induction_on generalizing s with
  | h n ih =>
    by_cases rest : AtRest cj s
    · exact ⟨[], s, List.forall_mem_nil _, rfl, rest⟩
    · simp only [AtRest, not_forall] at rest
      obtain ⟨a, own, moves⟩ := rest
      obtain ⟨s₁, stepped⟩ := Option.ne_none_iff_exists'.mp moves
      -- a step of its own leaves fewer steps to go
      obtain ⟨m, rests₁, less⟩ := firmwareStep_pays rests stepped
      have nothing : a.brings = 0 := by
        cases a with
        | alarm => rfl
        | happens a => cases a <;> first | rfl | cases own
      obtain ⟨bs, s', all, reached, rest'⟩ := ih m (by omega) rests₁
      refine ⟨a :: bs, s', ?_, (run_cons_some s s' a bs).mpr ⟨s₁, stepped, reached⟩, rest'⟩
      exact List.forall_mem_cons.mpr ⟨own, all⟩

/-- Whatever happens in whatever order, the steps taken by the tasks and the
timer are at most 299 for each stimulus taken up, and left to themselves they
come to rest. -/
theorem firmware_comes_to_rest {cj : CJson} {gtick : Int} {as : List FirmwareAct} {s : Dev Tid}
    (reached : run (firmwareStep cj) (.boot gtick) as = some s) :
    (as.map FirmwareAct.own).sum ≤ (as.map FirmwareAct.brings).sum ∧
    ∃ bs s', (∀ b ∈ bs, FirmwareAct.own b = 1) ∧ run (firmwareStep cj) s bs = some s' ∧
      AtRest cj s' := by
  have boot : Rests (Dev.boot gtick) 0 :=
    ⟨Dev.boot_inv gtick, fun _ => 0, fun _ => trivial, Nat.le_refl 0⟩
  obtain ⟨m, rests, paid⟩ := run_paid (fun _ _ _ _ => firmwareStep_pays) boot reached
  exact ⟨by omega, rests.comes_to_rest⟩

theorem firmware_comes_to_rest_suspended : ∃ s,
    run (firmwareStep flatCJson) (.boot noon) suspendedTurn = some s ∧
    (suspendedTurn.map FirmwareAct.own).sum ≤ (suspendedTurn.map FirmwareAct.brings).sum ∧
    ∃ bs s', (∀ b ∈ bs, FirmwareAct.own b = 1) ∧ run (firmwareStep flatCJson) s bs = some s' ∧
      AtRest flatCJson s' := by
  have reached : ∃ s, run (firmwareStep flatCJson) (.boot noon) suspendedTurn = some s := ⟨_, rfl⟩
  obtain ⟨s, reached⟩ := reached
  exact ⟨s, reached, firmware_comes_to_rest reached⟩

end IrCtl

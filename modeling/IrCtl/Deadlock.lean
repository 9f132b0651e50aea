import IrCtl.Firmware

/-!
# The deadlock

A soft_timer suspended with the mutex stays so: the MQTT task has no way to
`vTaskResume` that does not lead through the mutex.
-/

namespace IrCtl

open CString Program Transition

def isCall (o : Op) : Prop := ∃ c, o = .ac c

/-- Whatever a program does before its next call, it does not resume. -/
abbrev Blocks {α : Type} (p : Prog α) : Prop := p.Behind isCall (· = .resume)

/-- A program that suspends leads through a call before it resumes. -/
abbrev SuspendsLast {α : Type} (p : Prog α) : Prop :=
  p.BehindAfter (· = .suspend) isCall (· = .resume)

theorem isCall_ac (c : AcCall) : isCall (.ac c) := ⟨c, rfl⟩

/-! ### The programs -/

theorem jsonParse_blocks (cj : CJson) (data : List UInt8) : Blocks (jsonParse cj data) := by
  simp only [jsonParse, hdlFree]
  repeat' split
  all_goals simp [heapOp]

theorem jsonParse_suspendsLast (cj : CJson) (data : List UInt8) :
    SuspendsLast (jsonParse cj data) := by
  simp only [jsonParse, hdlFree]
  repeat' split
  all_goals simp [heapOp]

theorem respond_blocks (event : MqttEvent) (requestId : List UInt8) :
    Blocks (respond event requestId) := by
  simp only [respond]
  split <;> simp [publish]

theorem respond_suspendsLast (event : MqttEvent) (requestId : List UInt8) :
    SuspendsLast (respond event requestId) := by
  simp only [respond]
  split <;> simp [publish]

/-- `soft_sus` only publishes behind its `vTaskSuspend`, and `soft_res` does not
suspend. -/
theorem switchCmd_suspendsLast (code : Int) (cfg : AcCfg) : SuspendsLast (switchCmd code cfg) := by
  induction code using cmdCode_cases with
  | other code outside => simp [switchCmd_other outside, defaultArm, publish]
  | known i =>
    fin_cases i <;>
      simp [switchCmd, acOpen, acClose, acWriteCfg, adjustArm, timeInSleep, softTimerSuspend,
        softTimerResume, defaultArm, publish]

theorem handler_blocks (cj : CJson) (event : MqttEvent) (requestId : List UInt8) :
    Blocks (mqttDataEventHandler cj event requestId) :=
  (jsonParse_blocks cj event.data).bind fun _ => Or.inl (isCall_ac .acReadCfg)

theorem handler_suspendsLast (cj : CJson) (event : MqttEvent) (requestId : List UInt8) :
    SuspendsLast (mqttDataEventHandler cj event requestId) := by
  refine (jsonParse_suspendsLast cj event.data).bind
    (fun _ => Or.inl (isCall_ac .acReadCfg)) fun code cfg => ⟨fun read => ?_, ?_⟩
  · cases read
  · exact (switchCmd_suspendsLast code cfg).bind (fun _ => respond_blocks event requestId)
      fun _ => respond_suspendsLast event requestId

theorem softTimerTurn_suspendsLast (gtick : Int) : SuspendsLast (softTimerTurn gtick) := by
  simp only [softTimerTurn, acWeeklayyerAdjust, acInWorkdayAdjust_eq]
  split <;> simp [acWriteCfg]

theorem Stim.prog_suspendsLast (cj : CJson) (s : Stim) : SuspendsLast (s.prog cj) := by
  cases s with
  | event message requestId => exact handler_suspendsLast cj message requestId
  | tick gtick => exact softTimerTurn_suspendsLast gtick

theorem atomicStep_suspendsLast {cj : CJson} {s s' : Tasks Tid} {a : Happening}
    (ordered : ∀ t, SuspendsLast (s.prog t)) (stepped : atomicStep cj s a = some s') :
    ∀ t, SuspendsLast (s'.prog t) := by
  cases a with
  | take stim =>
    simp only [atomicStep, Happening.act, tasksStep, Option.ite_none_right_eq_some] at stepped
    exact Pool.behindAfter_start stepped.2 (stim.prog_suspendsLast cj) ordered
  | step t =>
    simp only [atomicStep, Happening.act, tasksStep, Option.ite_none_right_eq_some] at stepped
    exact Pool.behindAfter_step stepped.2 ordered
  | clock gtick =>
    cases stepped
    exact ordered

/-! ### The state that is never left -/

/-- The soft_timer is suspended with the mutex, and the MQTT task is at
something that ends at the mutex. -/
structure Deadlocked (s : Dev Tid) : Prop where
  holding : SuspendedHolding s
  mqtt : ∃ p, s.task .mqtt = .run p ∧ Blocks p

section Deadlock

variable {cj : CJson} {s s' : Dev Tid} {a : FirmwareAct}

theorem SuspendedHolding.asleep (holding : SuspendedHolding s) :
    awake Tid.softTimer s.world .softTimer = false := by
  simp [awake, holding.1]

/-- The MQTT task outside its calls, at something that ends at the mutex, cannot
get past it. -/
theorem Deadlocked.mqtt_step (dead : Deadlocked s) (moved : s.step .mqtt = some s') :
    Deadlocked s' ∧ s'.calls = s.calls := by
  obtain ⟨⟨suspended, held⟩, p, running, blocks⟩ := dead
  cases Dev.step_cases moved with
  | take c k now free after =>
    rw [held] at free
    cases free
  | perform o k now other after =>
    rw [running] at now
    cases now
    rcases blocks with ⟨c, call⟩ | ⟨good, later⟩
    · exact absurd call (other c)
    · subst after
      refine ⟨⟨⟨?_, held⟩, _, ?_, later (World.perform o s.world).1⟩, rfl⟩
      · cases o with
        | ac c => exact absurd rfl (other c)
        | resume => exact absurd rfl good
        | suspend => rfl
        | _ => exact suspended
      · exact Function.update_self Tid.mqtt _ s.task
  | body c k now after => rw [running] at now; cases now
  | wait0 c k seen now given after => rw [running] at now; cases now
  | wait1 c k seen now given after => rw [running] at now; cases now
  | give c k seen now after => rw [running] at now; cases now

/-- No step leads out of the deadlock, and none completes a call in it. -/
theorem Deadlocked.step (dead : Deadlocked s) (stepped : firmwareStep cj s a = some s') :
    Deadlocked s' ∧ s'.calls = s.calls := by
  cases firmwareStep_cases stepped with
  | still _ which suspended mutex task calls =>
    refine ⟨⟨⟨suspended.trans dead.holding.1, mutex.trans dead.holding.2⟩, ?_⟩, calls⟩
    rw [task]
    exact dead.mqtt
  | take stim may now after =>
    subst after
    cases stim with
    | tick gtick =>
      rw [Stim.tid, dead.holding.asleep] at may
      cases may
    | event message requestId =>
      refine ⟨⟨dead.holding, _, ?_, handler_blocks cj message requestId⟩, rfl⟩
      exact Function.update_self Tid.mqtt _ s.task
  | step t may moved =>
    cases t with
    | softTimer =>
      rw [dead.holding.asleep] at may
      cases may
    | mqtt => exact dead.mqtt_step moved

/-- A step of a task moves the mutex only to the task or away from it. -/
theorem mutex_of_step {t u : Tid} (moved : s.step t = some s') (held : s'.mutex = some u) :
    s.mutex = some u ∨ u = t := by
  cases Dev.step_cases moved with
  | take c k now free after =>
    subst after
    exact Or.inr (Option.some.inj held).symm
  | give c k seen now after => subst after; cases held
  | perform o k now other after => subst after; exact Or.inl held
  | body c k now after => subst after; exact Or.inl held
  | wait0 c k seen now given after => subst after; exact Or.inl held
  | wait1 c k seen now given after => subst after; exact Or.inl held

/-- Only a `vTaskSuspend` of the MQTT task leads into it. -/
theorem SuspendedHolding.enter (inv : DevInv s) (ordered : ∀ t, SuspendsLast (s.atomic.prog t))
    (outside : ¬ SuspendedHolding s) (stepped : firmwareStep cj s a = some s')
    (holding : SuspendedHolding s') : Deadlocked s' := by
  cases firmwareStep_cases stepped with
  | still _ which suspended mutex task calls =>
    exact absurd ⟨suspended.symm.trans holding.1, mutex.symm.trans holding.2⟩ outside
  | take stim may now after =>
    subst after
    exact absurd holding outside
  | step t may moved =>
    rcases suspended_of_step moved holding.1 with before | ⟨k, now⟩
    · -- the soft_timer was asleep, so the mutex has not come to it
      refine absurd ⟨before, ?_⟩ outside
      rcases mutex_of_step moved holding.2 with same | rfl
      · exact same
      · simp [awake, before] at may
    · have last := ordered t
      simp only [Dev.atomic, now, Task.left] at last
      rw [step_suspend now] at moved
      cases moved
      obtain ⟨⟨c, k', point, there, -⟩, -⟩ := inv.held holding.2
      cases t with
      | softTimer =>
        rw [now] at there
        cases there
      | mqtt =>
        refine ⟨holding, k (), ?_, (last ()).1 rfl⟩
        exact Function.update_self Tid.mqtt _ s.task

/-- Every reachable state that has the soft_timer suspended with the mutex is a
deadlock. -/
theorem deadlocked_of_reached {gtick : Int} {as : List FirmwareAct}
    (reached : run (firmwareStep cj) (.boot gtick) as = some s) (holding : SuspendedHolding s) :
    Deadlocked s := by
  let I : Dev Tid → Prop := fun s =>
    DevInv s ∧ (∀ t, SuspendsLast (s.atomic.prog t)) ∧ (SuspendedHolding s → Deadlocked s)
  have inv : I s := by
    apply run_invariant (I := I) ?_ ?_ reached
    · rintro s a s' ⟨inv, ordered, dead⟩ stepped
      refine ⟨devStep_inv inv stepped, ?_, fun holding' => ?_⟩
      · obtain ⟨bs, p, answered, -, rfl⟩ := firmwareStep_simulates cj s a s' _ ⟨inv, rfl⟩ stepped
        exact run_invariant (fun _ _ _ => atomicStep_suspendsLast) ordered answered
      · by_cases before : SuspendedHolding s
        · exact ((dead before).step stepped).1
        · exact SuspendedHolding.enter inv ordered before stepped holding'
    · refine ⟨Dev.boot_inv gtick, fun t => trivial, fun holding => ?_⟩
      cases holding.1
  exact inv.2.2 holding

/-- From there on the soft_timer stays suspended with the mutex, and no call of
either task ever completes. -/
theorem suspendedHolding_forever {gtick : Int} {as : List FirmwareAct}
    (reached : run (firmwareStep cj) (.boot gtick) as = some s) (holding : SuspendedHolding s)
    (bs : List FirmwareAct) :
    Visits (firmwareStep cj) (fun s' => SuspendedHolding s' ∧ s'.calls = s.calls) s bs := by
  apply visits_of_reached
  intro bs' s' later
  have kept : Deadlocked s' ∧ s'.calls = s.calls := by
    apply run_invariant (I := fun s' => Deadlocked s' ∧ s'.calls = s.calls) ?_ ?_ later
    · rintro u a u' ⟨dead, calls⟩ stepped
      obtain ⟨dead', calls'⟩ := dead.step stepped
      exact ⟨dead', calls'.trans calls⟩
    · exact ⟨deadlocked_of_reached reached holding, rfl⟩
  exact ⟨kept.1.holding, kept.2⟩

end Deadlock

end IrCtl

import IrCtl.Refinement

/-!
# The firmware

The device under its two tasks. Its runs refine those with atomic calls, so
every frame comes from a configuration in order and carries a valid checksum;
and the soft_timer can be suspended while it holds the device.
-/

namespace IrCtl

open CString Transition

inductive FirmwareAct where
  | happens (a : Happening)
  | alarm

def FirmwareAct.act (cj : CJson) : FirmwareAct → DevAct Tid
  | .happens a => .task (a.act cj)
  | .alarm => .alarm

def firmwareStep (cj : CJson) (s : Dev Tid) (a : FirmwareAct) : Option (Dev Tid) :=
  devStep .softTimer s (a.act cj)

/-- What a step of the firmware is: nothing to the tasks and the mutex, a task
that takes up a stimulus, or one that moves on. -/
inductive FirmwareStepped (cj : CJson) (s s' : Dev Tid) : FirmwareAct → Prop
  | still (a : FirmwareAct) (which : a = .alarm ∨ ∃ gtick, a = .happens (.clock gtick))
      (suspended : s'.world.suspended = s.world.suspended)
      (mutex : s'.mutex = s.mutex) (task : s'.task = s.task) (calls : s'.calls = s.calls) :
      FirmwareStepped cj s s' a
  | take (stim : Stim) (may : awake .softTimer s.world stim.tid = true)
      (now : s.task stim.tid = .run (.ret ()))
      (after : s' = { s with task := Function.update s.task stim.tid (.run (stim.prog cj)) }) :
      FirmwareStepped cj s s' (.happens (.take stim))
  | step (t : Tid) (may : awake .softTimer s.world t = true) (moved : s.step t = some s') :
      FirmwareStepped cj s s' (.happens (.step t))

theorem firmwareStep_cases {cj : CJson} {s s' : Dev Tid} {a : FirmwareAct}
    (stepped : firmwareStep cj s a = some s') : FirmwareStepped cj s s' a := by
  have acted := devStep_cases stepped
  cases a with
  | alarm =>
    cases acted with
    | alarm started after =>
      subst after
      exact .still _ (Or.inl rfl) rfl rfl rfl rfl
  | happens a =>
    cases a with
    | clock gtick =>
      cases acted with
      | clock _ after =>
        subst after
        exact .still _ (Or.inr ⟨gtick, rfl⟩) rfl rfl rfl rfl
    | take stim =>
      cases acted with
      | start _ _ may now after => exact .take stim may now after
    | step t =>
      cases acted with
      | step _ may moved => exact .step t may moved

/-- The firmware refines the tasks with atomic calls. -/
theorem firmwareStep_simulates (cj : CJson) :
    Simulates (firmwareStep cj) (atomicStep cj) fun s p => DevInv s ∧ p = s.atomic := by
  rintro s a s' p ⟨inv, rfl⟩ stepped
  have inv' := devStep_inv inv stepped
  rcases devStep_atomic inv stepped with same | ⟨b, act, step⟩
  · exact ⟨[], s.atomic, rfl, inv', same.symm⟩
  · cases a with
    | alarm => cases act
    | happens a =>
      cases act
      refine ⟨[a], s'.atomic, ?_, inv', rfl⟩
      rw [run_cons_some]
      exact ⟨s'.atomic, step, rfl⟩

/-- In every state reached the device is in one of its points and the store is
in order. -/
theorem firmware_reached {cj : CJson} {gtick : Int} {as : List FirmwareAct} {s : Dev Tid}
    (reached : run (firmwareStep cj) (.boot gtick) as = some s) :
    DevInv s ∧ WorldOk s.atomic.store := by
  have boot : DevInv (Dev.boot gtick : Dev Tid) ∧
      (Tasks.boot gtick : Tasks Tid) = (Dev.boot gtick : Dev Tid).atomic :=
    ⟨Dev.boot_inv gtick, rfl⟩
  obtain ⟨bs, p, answered, inv, rfl⟩ := (firmwareStep_simulates cj).run boot reached
  have keeps : s.atomic.Keeps World.perform WorldOk :=
    run_invariant (fun _ _ _ kept stepped => atomicStep_keeps kept stepped)
      (Tasks.boot_keeps gtick) answered
  exact ⟨inv, keeps.1⟩

/-! ### Checksums on the air -/

theorem pair_of_getElem? {cfgs : List AcCfg} {n : Nat} {f g : Frame}
    (first : (cfgs.flatMap framePair)[2 * n]? = some f)
    (second : (cfgs.flatMap framePair)[2 * n + 1]? = some g) :
    ∃ cfg ∈ cfgs, f = (loadFrame0 cfg).bits ∧ g = (loadFrame1 cfg).bits := by
  induction cfgs generalizing n with
  | nil => cases first
  | cons cfg cfgs ih =>
    rw [List.flatMap_cons, framePair] at first second
    cases n with
    | zero =>
      cases first
      cases second
      exact ⟨cfg, List.mem_cons_self, rfl, rfl⟩
    | succ n =>
      obtain ⟨cfg', member, pair⟩ := ih (n := n) first second
      exact ⟨cfg', List.mem_cons_of_mem cfg member, pair⟩

/-- Every frame loaded satisfies the block checksum, and each pair is the two
frames of one configuration and carries one setting. -/
structure FramesChecked (loaded : List Frame) : Prop where
  checked : ∀ f ∈ loaded, BlockChecked f
  paired : ∀ n f g, loaded[2 * n]? = some f → loaded[2 * n + 1]? = some g →
    SameSetting f g ∧ ∃ cfg, f = (loadFrame0 cfg).bits ∧ g = (loadFrame1 cfg).bits

theorem framesChecked_of_prefix {loaded : List Frame} {cfgs : List AcCfg}
    (ok : ∀ cfg ∈ cfgs, CfgOk cfg) (pre : loaded <+: cfgs.flatMap framePair) :
    FramesChecked loaded := by
  constructor
  · intro f member
    obtain ⟨cfg, among, pair⟩ := List.mem_flatMap.mp (pre.subset member)
    exact framePair_checked cfg (ok cfg among).open_ pair
  · intro n f g first second
    obtain ⟨rest, whole⟩ := pre
    obtain ⟨low, -⟩ := List.getElem?_eq_some_iff.mp first
    obtain ⟨high, -⟩ := List.getElem?_eq_some_iff.mp second
    have among : ∀ i, i < loaded.length → (cfgs.flatMap framePair)[i]? = loaded[i]? := by
      intro i bound
      rw [← whole, List.getElem?_append_left bound]
    obtain ⟨cfg, -, rfl, rfl⟩ :=
      pair_of_getElem? ((among _ low).trans first) ((among _ high).trans second)
    exact ⟨framePair_same cfg, cfg, rfl, rfl⟩

/-- In every run of the firmware the hand-written offsets yield the block
checksum. -/
theorem firmwareStep_framesChecked (cj : CJson) (gtick : Int) (as : List FirmwareAct) :
    Visits (firmwareStep cj) (fun s => FramesChecked s.world.loaded) (.boot gtick) as := by
  apply visits_of_reached
  intro bs s reached
  obtain ⟨-, ok⟩ := firmware_reached reached
  obtain ⟨cfgs, loaded, all⟩ := ok.pairs
  apply framesChecked_of_prefix all
  rw [← loaded]
  exact List.prefix_append _ _

/-! ### Suspension -/

/-- A `vTaskSuspend` meets the soft_timer outside its calls: in its delay,
between two calls, or still waiting for the mutex. -/
def SuspendsOutside (s : Dev Tid) : FirmwareAct → Prop
  | .happens (.step t) =>
    (∃ k, s.task t = .run (.op .suspend k)) → ∃ p, s.task .softTimer = .run p
  | .happens (.take _) | .happens (.clock _) | .alarm => True

/-- The soft_timer is suspended and holds the mutex. -/
def SuspendedHolding (s : Dev Tid) : Prop :=
  s.world.suspended = true ∧ s.mutex = some .softTimer

structure SuspendedOutside (s : Dev Tid) : Prop where
  inv : DevInv s
  outside : s.world.suspended = true → ∃ p, s.task .softTimer = .run p

theorem SuspendedOutside.not_holding {s : Dev Tid} (out : SuspendedOutside s) :
    ¬ SuspendedHolding s := by
  rintro ⟨suspended, held⟩
  obtain ⟨p, running⟩ := out.outside suspended
  obtain ⟨⟨c, k, point, there, -⟩, -⟩ := out.inv.held held
  rw [running] at there
  cases there

section Suspension

variable {s s' : Dev Tid} {t : Tid}

theorem greeAcOps_suspended (c : AcCall) (w : World) (ir : Ir) :
    (greeAcOps c w ir).1.suspended = w.suspended := by
  have tranx : ∀ w', (transmitOrReturn w' ir).1.suspended = w'.suspended := by
    intro w'
    rw [transmitOrReturn, greeAcIrTranx]
    by_cases busy : ir.tx.st ≠ .reset
    · rw [if_pos busy]
    · rw [if_neg busy]
      rfl
  cases c with
  | acOpen => exact tranx _
  | acClose => exact tranx _
  | acReadCfg => rfl
  | acWriteCfg new =>
    rw [greeAcOps, greeAcWriteCfg]
    split
    · exact tranx _
    · rfl

/-- Only `vTaskSuspend` suspends. -/
theorem suspended_of_step (stepped : s.step t = some s') (suspended : s'.world.suspended = true) :
    s.world.suspended = true ∨ ∃ k, s.task t = .run (.op .suspend k) := by
  cases Dev.step_cases stepped with
  | take c k now free after => exact Or.inl (by rw [after] at suspended; exact suspended)
  | body c k now after =>
    rw [after] at suspended
    exact Or.inl ((greeAcOps_suspended c s.world s.ir).symm.trans suspended)
  | wait0 c k seen now given after => exact Or.inl (by rw [after] at suspended; exact suspended)
  | wait1 c k seen now given after => exact Or.inl (by rw [after] at suspended; exact suspended)
  | give c k seen now after => exact Or.inl (by rw [after] at suspended; exact suspended)
  | perform o k now other after =>
    rw [after] at suspended
    cases o with
    | ac c => exact absurd rfl (other c)
    | suspend => exact Or.inr ⟨k, now⟩
    | resume => cases suspended
    | _ => exact Or.inl suspended

theorem task_of_step (stepped : s.step t = some s') {u : Tid} (other : u ≠ t) :
    s'.task u = s.task u := by
  cases Dev.step_cases stepped with
  | take c k now free after => rw [after]; exact Function.update_of_ne other ..
  | perform o k now outside after => rw [after]; exact Function.update_of_ne other ..
  | body c k now after => rw [after]; exact Function.update_of_ne other ..
  | wait0 c k seen now given after => rw [after]; exact Function.update_of_ne other ..
  | wait1 c k seen now given after => rw [after]; exact Function.update_of_ne other ..
  | give c k seen now after => rw [after]; exact Function.update_of_ne other ..

theorem step_suspend {k : Unit → Prog Unit} (now : s.task t = .run (.op .suspend k)) :
    s.step t = some { s with
      world := { s.world with suspended := true }
      task := Function.update s.task t (.run (k ())) } := by
  simp only [Dev.step, now]
  rfl

theorem SuspendedOutside.step {cj : CJson} {a : FirmwareAct} (out : SuspendedOutside s)
    (outside : SuspendsOutside s a) (stepped : firmwareStep cj s a = some s') :
    SuspendedOutside s' := by
  refine ⟨devStep_inv out.inv stepped, ?_⟩
  intro suspended
  cases firmwareStep_cases stepped with
  | still _ which same mutex task calls =>
    rw [task]
    exact out.outside (same.symm.trans suspended)
  | take stim may now after =>
    subst after
    exact outside_update fun _ => out.outside suspended
  | step t may moved =>
    rcases suspended_of_step moved suspended with before | ⟨k, now⟩
    · have other : Tid.softTimer ≠ t := by
        -- a suspended task takes no step
        rintro rfl
        simp [awake, before] at may
      rw [task_of_step moved other]
      exact out.outside before
    · -- the condition says where this step finds the soft_timer
      rw [step_suspend now] at moved
      cases moved
      exact outside_update fun _ => outside ⟨k, now⟩

/-- The soft_timer is never suspended with the mutex exactly in the runs whose
every `vTaskSuspend` meets it outside its calls. -/
theorem firmwareStep_not_suspendedHolding_iff (cj : CJson) (gtick : Int) (as : List FirmwareAct) :
    Visits (firmwareStep cj) (fun s => ¬ SuspendedHolding s) (.boot gtick) as ↔
      Meets (firmwareStep cj) SuspendsOutside (.boot gtick) as := by
  constructor
  · apply meets_of_visits (I := DevInv)
    · intro s a s' inv stepped
      exact devStep_inv inv stepped
    · intro s a s' inv stepped free
      cases firmwareStep_cases stepped with
      | still a which suspended mutex task calls =>
        obtain rfl | ⟨gtick, rfl⟩ := which
        · trivial
        · trivial
      | take stim may now after => trivial
      | step t may moved =>
        rintro ⟨k, now⟩
        rw [step_suspend now] at moved
        cases moved
        cases there : s.task .softTimer with
        | run p => exact ⟨p, rfl⟩
        | call c k point => exact absurd ⟨rfl, (inv.inCall there).1⟩ free
    · exact Dev.boot_inv gtick
  · apply visits_of_meets (I := SuspendedOutside)
    · intro s a s' out outside stepped
      exact out.step outside stepped
    · intro s out
      exact out.not_holding
    · refine ⟨Dev.boot_inv gtick, ?_⟩
      intro suspended
      cases suspended

end Suspension

/-- A turn reads the configuration and waits for its frame while `soft_sus`
comes in. -/
def suspendedTurn : List FirmwareAct :=
  let turn := FirmwareAct.happens (.step .softTimer)
  let handler := FirmwareAct.happens (.step .mqtt)
  .happens (.take (.tick noon)) :: List.replicate 5 turn ++
    .happens (.take (.event ⟨payload "soft_sus", none, 0⟩ [0])) :: List.replicate 5 handler ++
    List.replicate 2 turn ++ [handler]

theorem firmwareStep_suspends_holder :
    ¬ Visits (firmwareStep flatCJson) (fun s => ¬ SuspendedHolding s) (.boot noon)
      suspendedTurn := by
  intro visits
  obtain ⟨s, reached, holding⟩ : ∃ s,
      run (firmwareStep flatCJson) (.boot noon) suspendedTurn = some s ∧ SuspendedHolding s := by
    exact ⟨_, rfl, rfl, rfl⟩
  exact visits_last visits reached holding

end IrCtl

import IrCtl.Serial
import IrCtl.Gree.AirCon

/-!
# One stimulus at a time

Where each message and each turn finds the device done with the one before, the
firmware, with its mutex, its waits and its callbacks, leaves what the stimuli
leave when they are served one after another.
-/

namespace IrCtl

open Program Transition

def Task.idle : Task → Bool
  | .run (.ret _) => true
  | .run (.op _ _) | .call _ _ _ => false

theorem Task.idle_iff (task : Task) : task.idle = true ↔ task = .run (.ret ()) := by
  cases task with
  | run p => cases p <;> simp [Task.idle]
  | call c k point => simp [Task.idle]

/-- All tasks have done what they took up. -/
def Done (s : Dev Tid) : Prop := ∀ t, s.task t = .run (.ret ())

/-- Nothing is taken up and no clock stored while anything is to be done. -/
def TakenAlone (s : Dev Tid) : FirmwareAct → Prop
  | .happens (.take _) | .happens (.clock _) => Done s
  | .happens (.step _) | .alarm => True

/-- What an act of the firmware is to the device as a whole. -/
def FirmwareAct.served (cj : CJson) (w : World) : FirmwareAct → World
  | .happens (.take stim) => serve cj w (.stim stim)
  | .happens (.clock gtick) => serve cj w (.clock gtick)
  | .happens (.step _) | .alarm => w

section Steps

variable {cj : CJson} {s s' : Dev Tid} {w : World}

theorem Done.free (done : Done s) (inv : DevInv s) : s.mutex = none := by
  cases holder : s.mutex with
  | none => rfl
  | some t =>
    obtain ⟨⟨c, k, point, there, -⟩, -⟩ := inv.held holder
    rw [done t] at there
    cases there

theorem atomic_store_of_free (free : s.mutex = none) : s.atomic.store = s.world := by
  simp only [Dev.atomic, Dev.pending_of_free free, List.append_nil]

theorem serve_prog (cj : CJson) {w : World} {stim : Stim}
    (may : awake Tid.softTimer w stim.tid = true) :
    serve cj w (.stim stim) = (w.exec (stim.prog cj)).2 := by
  cases stim with
  | event message requestId => rfl
  | tick gtick =>
    have running : ¬ w.suspended = true := by simpa [awake, Stim.tid] using may
    rw [serve, if_neg running]
    rfl

/-- Some task is on its way to leaving `w`, or has left it. -/
def Serves (w : World) (s : Dev Tid) : Prop := ∃ t, s.atomic.Leads World.perform t w

theorem Done.world (done : Done s) (inv : DevInv s) (serves : Serves w s) : s.world = w := by
  obtain ⟨t, leads⟩ := serves
  -- a program that is through leads to the store as it is
  rw [← atomic_store_of_free (done.free inv)]
  apply leads.store
  simp only [Dev.atomic, done t, Task.left]

theorem Done.serves (done : Done s) (inv : DevInv s) : Serves s.world s := by
  refine ⟨.mqtt, fun u _ => by simp only [Dev.atomic, done u, Task.left], ?_⟩
  rw [atomic_store_of_free (done.free inv)]
  simp only [Dev.atomic, done _, Task.left, exec_ret]

theorem Serves.take {stim : Stim} (done : Done s) (inv : DevInv s)
    (may : awake .softTimer s.world stim.tid = true) :
    Serves (serve cj s.world (.stim stim))
      { s with task := Function.update s.task stim.tid (.run (stim.prog cj)) } := by
  refine ⟨stim.tid, ?_, ?_⟩
  · intro u other
    simp only [Dev.atomic, Function.update_of_ne other, done u, Task.left]
  · rw [atomic_store_of_free (by exact done.free inv), serve_prog cj may]
    simp only [Dev.atomic, Function.update_self, Task.left]

/-- A step of the firmware gets on with what it serves. -/
theorem Serves.step {a : FirmwareAct} (inv : DevInv s) (serves : Serves w s) (alone : TakenAlone s a)
    (stepped : firmwareStep cj s a = some s') : Serves (a.served cj w) s' := by
  have acted := devStep_cases stepped
  cases a with
  | alarm =>
    cases acted with
    | alarm started after =>
      subst after
      exact serves
  | happens a =>
    cases a with
    | clock gtick =>
      -- nothing is left to be done, so the world is the one served so far
      have done : Done s := alone
      cases acted with
      | clock _ after =>
        have inv' : DevInv s' := devStep_inv inv stepped
        subst after
        rw [← done.world inv serves]
        exact Done.serves done inv'
    | take stim =>
      have done : Done s := alone
      cases acted with
      | start _ _ may now after =>
        rw [after, ← done.world inv serves]
        exact Serves.take done inv may
    | step t =>
      -- a step within a call is none to the abstract tasks, or one of theirs
      rcases devStep_atomic inv stepped with same | ⟨b, act, moved⟩
      · rw [Serves, same]
        exact serves
      · cases act
        obtain ⟨u, leads⟩ := serves
        simp only [Happening.act, tasksStep, Option.ite_none_right_eq_some] at moved
        exact ⟨u, leads.step moved.2⟩

theorem Serves.run {as : List FirmwareAct} (inv : DevInv s) (serves : Serves w s)
    (alone : Meets (firmwareStep cj) TakenAlone s as)
    (reached : Transition.run (firmwareStep cj) s as = some s') :
    DevInv s' ∧ Serves (as.foldl (FirmwareAct.served cj) w) s' := by
  induction as generalizing s w with
  | nil =>
    cases reached
    exact ⟨inv, serves⟩
  | cons a as ih =>
    obtain ⟨m, stepped, rest⟩ := (run_cons_some s s' a as).mp reached
    obtain ⟨here, later⟩ := alone m stepped
    exact ih (devStep_inv inv stepped) (serves.step inv here stepped) later rest

end Steps

/-- Where stimuli are taken up one at a time, the device that has done them all
holds what serving them in order leaves: the configuration, the clock, the frames
and the messages. An air conditioner that has heard of them is set to what its frames
say, and so to what it asks for if its temperature is in range. -/
theorem firmware_serves {cj : CJson} {gtick : Int} {as : List FirmwareAct} {s : Dev Tid}
    (alone : Meets (firmwareStep cj) TakenAlone (.boot gtick) as)
    (reached : run (firmwareStep cj) (.boot gtick) as = some s) (done : Done s) :
    s.world = as.foldl (FirmwareAct.served cj) (.boot gtick) ∧
      ∀ ac : AirCon, (hear s.ir.air).1 ≠ [] → ac.listen s.ir.air = s.world.cfg.carried ∧
        (ac.listen s.ir.air = s.world.cfg.setting ↔ Fits s.world.cfg.temp) := by
  have boot : Serves (.boot gtick) (.boot gtick) := Done.serves (fun _ => rfl) (Dev.boot_inv gtick)
  obtain ⟨inv, serves⟩ := Serves.run (Dev.boot_inv gtick) boot alone reached
  refine ⟨done.world inv serves, fun ac heard => ?_⟩
  have ok := (firmware_reached reached).2
  exact (inv.obeyed ok.cfg (firmware_storedBy reached) ac).free (done.free inv) heard

/-- An `open_ac`, from the message to the end of its second frame. -/
def openSteps : List FirmwareAct :=
  List.replicate 7 (.happens (.step .mqtt)) ++ List.replicate 142 .alarm ++
    [.happens (.step .mqtt)] ++ List.replicate 142 .alarm ++ List.replicate 3 (.happens (.step .mqtt))

def openOnce : List FirmwareAct :=
  .happens (.take (.event ⟨payload "open_ac", none, 0⟩ [0])) :: openSteps

theorem openSteps_own : ∀ a ∈ openSteps, a = .alarm ∨ a = .happens (.step .mqtt) := by
  intro a member
  simp only [openSteps, List.mem_append, List.mem_replicate, List.mem_singleton] at member
  tauto

theorem firmware_serves_open : ∃ s : Dev Tid,
    run (firmwareStep flatCJson) (.boot noon) openOnce = some s ∧
      s.world = serve flatCJson (.boot noon) (.stim (.event ⟨payload "open_ac", none, 0⟩ [0])) ∧
      ∀ ac : AirCon, ac.listen s.ir.air = s.world.cfg.carried ∧
        (ac.listen s.ir.air = s.world.cfg.setting ↔ Fits s.world.cfg.temp) := by
  have view : (run (firmwareStep flatCJson) (.boot noon) openOnce).map (fun s =>
      ((s.task .mqtt).idle && (s.task .softTimer).idle, (hear s.ir.air).1.length)) =
      some (true, 2) := by
    decide +kernel
  obtain ⟨s, reached, seen⟩ := Option.map_eq_some_iff.mp view
  rw [Prod.mk.injEq, Bool.and_eq_true, Task.idle_iff, Task.idle_iff] at seen
  obtain ⟨⟨mqtt, timer⟩, two⟩ := seen
  have done : Done s
    | .mqtt => mqtt
    | .softTimer => timer
  have alone : Meets (firmwareStep flatCJson) TakenAlone (.boot noon) openOnce := by
    intro t _
    refine ⟨fun _ => rfl, meets_of_labels ?_ t⟩
    intro a member s
    rcases openSteps_own a member with rfl | rfl <;> trivial
  obtain ⟨world, listens⟩ := firmware_serves alone reached done
  refine ⟨s, reached, ?_, fun ac => listens ac fun none_heard => ?_⟩
  · rw [world, openOnce, List.foldl_cons]
    apply List.foldlRecOn (motive := fun w => w = _) openSteps _ rfl
    intro w same a member
    rcases openSteps_own a member with rfl | rfl <;> exact same
  · rw [none_heard] at two
    cases two

end IrCtl

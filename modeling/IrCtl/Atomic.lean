import IrCtl.Outline
import IrCtl.Tasks

/-!
# Two tasks, calls as atomic steps

The MQTT task and the soft_timer task interleaved operation by operation, each
call of the `ac_*` interface one step. A task may hold a snapshot that the
other has made stale.
-/

namespace IrCtl

open Transition

section Tasks

variable {ι : Type} [DecidableEq ι]

/-- Tasks whose programs keep the configuration in order keep it so together. -/
theorem tasksStep_keeps {hdl : ι} {s s' : Tasks ι} {a : TaskAct ι}
    (keeps : s.Keeps World.perform WorldOk)
    (fresh : ∀ t p, a = .start t p → p.Keeps World.perform WorldOk fun _ => True)
    (stepped : tasksStep hdl s a = some s') : s'.Keeps World.perform WorldOk := by
  cases a with
  | start t p =>
    simp only [tasksStep, Option.ite_none_right_eq_some] at stepped
    exact keeps.start (fresh t p rfl) stepped.2
  | step t =>
    simp only [tasksStep, Option.ite_none_right_eq_some] at stepped
    exact keeps.step stepped.2
  | clock gtick =>
    cases stepped
    exact ⟨⟨keeps.1.cfg, keeps.1.pairs⟩, keeps.2⟩

end Tasks

/-- The two tasks of the program. -/
inductive Tid where
  | mqtt
  | softTimer
  deriving DecidableEq, Repr

def Stim.tid : Stim → Tid
  | .event _ _ => .mqtt
  | .tick _ => .softTimer

/-- What happens in the program: a task takes up a stimulus or performs its
next operation, or the clock is stored to. -/
inductive Happening where
  | take (s : Stim)
  | step (t : Tid)
  | clock (gtick : Int)

def Happening.act (cj : CJson) : Happening → TaskAct Tid
  | .take s => .start s.tid (s.prog cj)
  | .step t => .step t
  | .clock gtick => .clock gtick

def atomicStep (cj : CJson) (s : Tasks Tid) (a : Happening) : Option (Tasks Tid) :=
  tasksStep .softTimer s (a.act cj)

theorem atomicStep_keeps {cj : CJson} {s s' : Tasks Tid} {a : Happening}
    (keeps : s.Keeps World.perform WorldOk) (stepped : atomicStep cj s a = some s') :
    s'.Keeps World.perform WorldOk := by
  apply tasksStep_keeps keeps ?_ stepped
  intro t p same
  cases a with
  | take stim =>
    cases same
    exact stim.prog_keeps cj
  | step t => cases same
  | clock gtick => cases same

theorem Tasks.boot_keeps (gtick : Int) :
    (Tasks.boot gtick : Tasks Tid).Keeps World.perform WorldOk :=
  ⟨WorldOk.boot gtick, fun _ => trivial⟩

/-- Whatever the interleaving, the stored configuration is in order, and the
one-bit fields of its frames hold their values whole. -/
theorem atomicStep_cfgOk (cj : CJson) (gtick : Int) (as : List Happening) :
    Visits (atomicStep cj)
      (fun s => CfgOk s.store.cfg ∧
        (loadFrame0 s.store.cfg).swi.toNat = s.store.cfg.open_.toNat ∧
        (loadFrame0 s.store.cfg).sleepEn.toNat = s.store.cfg.sleep.toNat ∧
        (loadFrame1 s.store.cfg).swi.toNat = s.store.cfg.open_.toNat ∧
        (loadFrame1 s.store.cfg).sleepEn.toNat = s.store.cfg.sleep.toNat)
      (.boot gtick) as := by
  apply visits_of_reached
  intro bs s reached
  have keeps : s.Keeps World.perform WorldOk :=
    run_invariant (fun _ _ _ kept stepped => atomicStep_keeps kept stepped)
      (Tasks.boot_keeps gtick) reached
  have ok := keeps.1.cfg
  obtain ⟨-, swi0, -, sleep0⟩ := loadFrame0_setting s.store.cfg
  obtain ⟨-, swi1, -, sleep1⟩ := loadFrame1_setting s.store.cfg
  rw [swi0, sleep0, swi1, sleep1]
  exact ⟨ok, switch_setWidth ok.open_, switch_setWidth ok.sleep,
    switch_setWidth ok.open_, switch_setWidth ok.sleep⟩

end IrCtl

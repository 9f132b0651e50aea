import IrCtl.Atomic
import IrCtl.Gree.AirTrace

/-!
# Calls are atomic

The device with its calls opened up refines the tasks with atomic calls: a call
takes effect in its body, under the mutex. What holds of the store under any
interleaving of atomic calls then holds of the device.
-/

namespace IrCtl

open Transition

/-- What is left of a task's program once the call it is in has taken effect. -/
def Task.left : Task → Prog Unit
  | .run p => p
  | .call c k .body => .op (.ac c) k
  | .call _ k (.wait0 seen) => k seen
  | .call _ k (.wait1 seen) => k seen
  | .call _ k (.give seen) => k seen

/-- The second frame of a pair, while only the first is loaded. -/
def Task.pending (cfg : AcCfg) : Task → List Frame
  | .call _ _ (.wait0 _) => [(loadFrame1 cfg).bits]
  | _ => []

section Refinement

variable {ι : Type}

def Dev.pending (s : Dev ι) : List Frame :=
  match s.mutex with
  | none => []
  | some t => (s.task t).pending s.world.cfg

/-- The tasks as they stand with the call under way taken as a whole. -/
def Dev.atomic (s : Dev ι) : Tasks ι where
  store := { s.world with loaded := s.world.loaded ++ s.pending }
  prog := fun t => (s.task t).left

variable {s s' : Dev ι} {t : ι}

theorem Dev.pending_of_held (held : s.mutex = some t) :
    s.pending = (s.task t).pending s.world.cfg := by
  simp only [Dev.pending, held]

theorem Dev.pending_of_free (free : s.mutex = none) : s.pending = [] := by
  simp only [Dev.pending, free]

variable [DecidableEq ι]

theorem Dev.atomic_prog {now : Task} (task : s'.task = Function.update s.task t now) :
    s'.atomic.prog = Function.update s.atomic.prog t now.left := by
  change (fun u => (s'.task u).left) = _
  rw [task]
  exact Function.comp_update Task.left s.task t now

/-- A step within a call, or into or out of one, is no step of the atomic tasks. -/
theorem Dev.atomic_stutter {now : Task} (task : s'.task = Function.update s.task t now)
    (left : now.left = (s.task t).left)
    (store : s'.atomic.store = s.atomic.store) : s'.atomic = s.atomic := by
  have prog : s'.atomic.prog = s.atomic.prog := by
    rw [atomic_prog task, left]
    exact Function.update_eq_self t s.atomic.prog
  calc s'.atomic = ⟨s'.atomic.store, s'.atomic.prog⟩ := rfl
    _ = ⟨s.atomic.store, s.atomic.prog⟩ := by rw [store, prog]

theorem Dev.atomic_op {o : Op} {k : Op.Res o → Prog Unit} {now : Task}
    (next : s.atomic.prog t = .op o k) (task : s'.task = Function.update s.task t now)
    (left : now.left = k (World.perform o s.atomic.store).1)
    (store : s'.atomic.store = (World.perform o s.atomic.store).2) :
    s.atomic.step World.perform t = some s'.atomic := by
  rw [Pool.step_some]
  refine ⟨o, k, next, ?_⟩
  calc s'.atomic = ⟨s'.atomic.store, s'.atomic.prog⟩ := rfl
    _ = _ := by rw [store, atomic_prog task, left]

theorem Dev.pending_outside {p q : Prog Unit} (now : s.task t = .run p)
    (mutex : s'.mutex = s.mutex) (task : s'.task = Function.update s.task t (.run q))
    (cfg : s'.world.cfg = s.world.cfg) : s'.pending = s.pending := by
  cases holder : s.mutex with
  | none => rw [pending_of_free holder, pending_of_free (mutex.trans holder)]
  | some u =>
    rw [pending_of_held holder, pending_of_held (mutex.trans holder), task, cfg]
    by_cases same : u = t
    · subst same
      rw [Function.update_self, now]
      rfl
    · rw [Function.update_of_ne same]

private theorem perform_loaded {o : Op} (other : ∀ c, o ≠ .ac c) (w : World) (frames : List Frame) :
    World.perform o { w with loaded := frames } =
      ((World.perform o w).1, { (World.perform o w).2 with loaded := frames }) := by
  cases o with
  | ac c => exact absurd rfl (other c)
  | _ => rfl

/-- An operation outside the `ac_*` interface is a step of the atomic tasks. -/
theorem Dev.atomic_perform {o : Op} {k : Op.Res o → Prog Unit} (now : s.task t = .run (.op o k))
    (other : ∀ c, o ≠ .ac c)
    (after : s' = { s with
      world := (World.perform o s.world).2
      task := Function.update s.task t (.run (k (World.perform o s.world).1)) }) :
    s.atomic.step World.perform t = some s'.atomic := by
  obtain ⟨cfg, loaded⟩ := perform_other other s.world
  have pending : s'.pending = s.pending :=
    Dev.pending_outside now (by rw [after]) (by rw [after]) (by rw [after]; exact cfg)
  have performed := perform_loaded other s.world (s.world.loaded ++ s.pending)
  have next : s.atomic.prog t = .op o k := by simp only [Dev.atomic, now, Task.left]
  apply atomic_op next (by rw [after])
  · simp only [Task.left, Dev.atomic]
    rw [performed]
  · simp only [Dev.atomic, pending]
    rw [performed, after, loaded]

/-- The body of a call is the step in which the atomic call happens. -/
theorem Dev.atomic_body (inv : DevInv s) {c : AcCall} {k : AcCfg → Prog Unit}
    (now : s.task t = .call c k .body)
    (after : s' = { s with
      world := (greeAcOps c s.world s.ir).1
      ir := (greeAcOps c s.world s.ir).2.1
      task := Function.update s.task t (.call c k
        (if (greeAcOps c s.world s.ir).2.2 then .wait0 s.world.cfg else .give s.world.cfg)) }) :
    s.atomic.step World.perform t = some s'.atomic := by
  obtain ⟨mine, quiet, -⟩ := inv.inCall now
  have none_pending : s.pending = [] := by
    rw [pending_of_held mine, now]
    rfl
  have held : s'.mutex = some t := by rw [after, mine]
  have next : s.atomic.prog t = .op (.ac c) k := by simp only [Dev.atomic, now, Task.left]
  have store : s.atomic.store = s.world := by simp only [Dev.atomic, none_pending, List.append_nil]
  -- the atomic call loads both frames at once; here the second is then pending
  apply atomic_op next (by rw [after])
  · rw [store]
    split <;> rfl
  · rw [store]
    simp only [World.perform]
    cases transmits : c.transmits s.world.cfg with
    | true =>
      rw [greeAcOps_transmits quiet.st transmits] at after
      have pending : s'.pending = [(loadFrame1 (c.store s.world.cfg)).bits] := by
        rw [pending_of_held held, after]
        simp only [Function.update_self]
        rfl
      rw [World.call, if_pos transmits]
      simp only [Dev.atomic, pending]
      rw [after]
      simp only [transmitFrame, World.transmit, framePair, List.append_assoc, List.singleton_append]
    | false =>
      rw [greeAcOps_silent transmits] at after
      have pending : s'.pending = [] := by
        rw [pending_of_held held, after]
        simp only [Function.update_self]
        rfl
      rw [World.call, transmits, if_neg Bool.false_ne_true]
      simp only [Dev.atomic, pending, List.append_nil]
      rw [after]

theorem Dev.atomic_step (inv : DevInv s) (stepped : s.step t = some s') :
    s'.atomic = s.atomic ∨ s.atomic.step World.perform t = some s'.atomic := by
  cases Dev.step_cases stepped with
  | take c k now free after =>
    refine Or.inl (atomic_stutter (by rw [after]) (by rw [now]; rfl) ?_)
    subst after
    simp only [Dev.atomic, Dev.pending, free, Function.update_self, Task.pending]
  | perform o k now other after => exact Or.inr (atomic_perform now other after)
  | body c k now after => exact Or.inr (atomic_body inv now after)
  | wait0 c k seen now given after =>
    obtain ⟨mine, -, -⟩ := inv.inCall now
    refine Or.inl (atomic_stutter (by rw [after]) (by rw [now]; rfl) ?_)
    subst after
    -- the pending frame becomes a loaded one
    simp only [Dev.atomic, Dev.pending, mine, now, Function.update_self, Task.pending,
      greeAcIrTranxNext, transmitFrame, List.append_nil]
  | wait1 c k seen now given after =>
    obtain ⟨mine, -, -⟩ := inv.inCall now
    refine Or.inl (atomic_stutter (by rw [after]) (by rw [now]; rfl) ?_)
    subst after
    simp only [Dev.atomic, Dev.pending, mine, now, Function.update_self, Task.pending]
  | give c k seen now after =>
    obtain ⟨mine, -, -⟩ := inv.inCall now
    refine Or.inl (atomic_stutter (by rw [after]) (by rw [now]; rfl) ?_)
    subst after
    simp only [Dev.atomic, Dev.pending, mine, now, Task.pending]

/-- Every step of the device is a step of the atomic tasks or none. -/
theorem devStep_atomic {hdl : ι} {a : DevAct ι} (inv : DevInv s)
    (stepped : devStep hdl s a = some s') :
    s'.atomic = s.atomic ∨ ∃ b, a = .task b ∧ tasksStep hdl s.atomic b = some s'.atomic := by
  cases devStep_cases stepped with
  | alarm started after =>
    subst after
    exact Or.inl rfl
  | clock gtick after =>
    subst after
    exact Or.inr ⟨_, rfl, rfl⟩
  | start t p may now after =>
    subst after
    refine Or.inr ⟨_, rfl, ?_⟩
    have may' : awake hdl s.atomic.store t = true := may
    rw [tasksStep, if_pos may', Pool.start_some]
    constructor
    · simp only [Dev.atomic, now, Task.left]
    · let s' : Dev ι := { s with task := Function.update s.task t (.run p) }
      have pending : s'.pending = s.pending := Dev.pending_outside now rfl rfl rfl
      have store : s'.atomic.store = s.atomic.store := by simp only [Dev.atomic, pending, s']
      calc s'.atomic = ⟨s'.atomic.store, s'.atomic.prog⟩ := rfl
        _ = ⟨s.atomic.store, Function.update s.atomic.prog t p⟩ := by
          rw [store, Dev.atomic_prog (t := t) rfl]
          rfl
  | step t may moved =>
    rcases Dev.atomic_step inv moved with same | stepped'
    · exact Or.inl same
    · refine Or.inr ⟨_, rfl, ?_⟩
      have may' : awake hdl s.atomic.store t = true := may
      rw [tasksStep, if_pos may']
      exact stepped'

end Refinement

end IrCtl

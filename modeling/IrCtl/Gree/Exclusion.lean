import IrCtl.Gree.AirTrace

/-!
# One at a time

The transmitter always has one owner, the running timer or else the holder of
the mutex, and the calls of any number of tasks answer as if they were made one
after another.
-/

namespace IrCtl

open Transition

section Ownership

variable {ι : Type} {s s' : Dev ι}

/-- Who may change the transmitter: the callback while the timer runs, else the
task that holds the mutex. -/
def Owns (s : Dev ι) : DevAct ι → Prop
  | .alarm => s.ir.started = true
  | .task (.step t) => s.mutex = some t ∧ s.ir.started = false
  | .task (.start _ _) | .task (.clock _) => False

/-- Two that may change the transmitter at once are the same. -/
theorem Owns.unique {a b : DevAct ι} (owns : Owns s a) (other : Owns s b) : b = a := by
  match a, b with
  | .alarm, .alarm => rfl
  | .alarm, .task (.step u) => exact absurd (owns.symm.trans other.2) (by decide)
  | .task (.step t), .alarm => exact absurd (other.symm.trans owns.2) (by decide)
  | .task (.step t), .task (.step u) =>
    rw [Option.some.inj (owns.1.symm.trans other.1)]

variable [DecidableEq ι]

theorem DevInv.owns (inv : DevInv s) {hdl : ι} {a : DevAct ι}
    (stepped : devStep hdl s a = some s') (changed : s'.ir ≠ s.ir) : Owns s a := by
  cases devStep_cases stepped with
  | start t p may now after =>
    subst after
    exact absurd rfl changed
  | clock gtick after =>
    subst after
    exact absurd rfl changed
  | alarm started after => exact started
  | step t may moved =>
    cases Dev.step_cases moved with
    | take c k now free after =>
      subst after
      exact absurd rfl changed
    | perform o k now other after =>
      subst after
      exact absurd rfl changed
    | give c k seen now after =>
      subst after
      exact absurd rfl changed
    -- a body begins with the transmitter quiet
    | body c k now after =>
      obtain ⟨mine, here, -⟩ := inv.inCall now
      exact ⟨mine, Quiet.started here⟩
    -- the waits end when the timer has stopped
    | wait0 c k seen now given after =>
      obtain ⟨mine, ⟨-, -, -, sends⟩, -⟩ := inv.inCall now
      exact ⟨mine, (sends.complete given).1.started⟩
    | wait1 c k seen now given after =>
      obtain ⟨mine, ⟨-, -, -, sends⟩, -⟩ := inv.inCall now
      exact ⟨mine, (sends.complete given).1.started⟩

/-- The callback and the tasks take turns at the transmitter: in no state of a
run may two of them change it. -/
theorem devStep_owned (hdl : ι) (gtick : Int) (as : List (DevAct ι)) :
    Visits (devStep hdl)
      (fun s => ∀ a s', devStep hdl s a = some s' → s'.ir ≠ s.ir →
        Owns s a ∧ ∀ b, Owns s b → b = a)
      (.boot gtick) as := by
  apply visits_of_reached
  intro bs s reached a s' stepped changed
  have inv : DevInv s :=
    run_invariant (fun _ _ _ kept stepped => devStep_inv kept stepped) (Dev.boot_inv gtick) reached
  have owns := inv.owns stepped changed
  exact ⟨owns, fun b other => owns.unique other⟩

end Ownership

/-! ### Histories -/

section History

variable {ι : Type}

/-- A call that has returned: who made it, which it was, and its answer. -/
structure Returned (ι : Type) where
  task : ι
  call : AcCall
  answer : AcCfg

/-- The calls answer as those of one object that holds a configuration. -/
def LegalFrom (cfg : AcCfg) : List (Returned ι) → Prop
  | [] => True
  | r :: rs => r.answer = cfg ∧ LegalFrom (r.call.store cfg) rs

/-- What returns in a step. -/
def returns (s : Dev ι) : DevAct ι → List (Returned ι)
  | .task (.step t) =>
    match s.task t with
    -- a call returns when it gives the mutex back
    | .call c _ (.give seen) => [⟨t, c, seen⟩]
    | _ => []
  | .task (.start _ _) | .task (.clock _) | .alarm => []

theorem legalFrom_snoc {cfg : AcCfg} {rs : List (Returned ι)} (legal : LegalFrom cfg rs)
    {r : Returned ι} (answer : r.answer = (rs.map Returned.call).foldl (fun cfg c => c.store cfg) cfg) :
    LegalFrom cfg (rs ++ [r]) := by
  induction rs generalizing cfg with
  | nil => exact ⟨answer, trivial⟩
  | cons q rs ih => exact ⟨legal.1, ih legal.2 answer⟩

variable [DecidableEq ι]

/-- The calls that have returned are those completed, and answer in order. -/
structure Answered (s : Dev ι) (rs : List (Returned ι)) : Prop where
  inv : DevInv s
  calls : rs.map Returned.call = s.calls
  legal : LegalFrom gacCfg rs

variable {s s' : Dev ι} {rs : List (Returned ι)}

omit [DecidableEq ι] in
theorem Answered.still (answered : Answered s rs) (inv : DevInv s') (calls : s'.calls = s.calls)
    {a : DevAct ι} (nothing : returns s a = []) : Answered s' (rs ++ returns s a) := by
  rw [nothing, List.append_nil]
  exact ⟨inv, by rw [calls, answered.calls], answered.legal⟩

theorem Answered.step {hdl : ι} {a : DevAct ι} (answered : Answered s rs)
    (stepped : devStep hdl s a = some s') : Answered s' (rs ++ returns s a) := by
  have inv : DevInv s' := devStep_inv answered.inv stepped
  cases devStep_cases stepped with
  | start t p may now after => exact answered.still inv (by rw [after]) rfl
  | clock gtick after => exact answered.still inv (by rw [after]) rfl
  | alarm started after => exact answered.still inv (by rw [after]) rfl
  | step t may moved =>
    cases Dev.step_cases moved with
    | take c k now free after =>
      exact answered.still inv (by rw [after]) (by simp only [returns, now])
    | perform o k now other after =>
      exact answered.still inv (by rw [after]) (by simp only [returns, now])
    | body c k now after =>
      exact answered.still inv (by rw [after]) (by simp only [returns, now])
    | wait0 c k seen now given after =>
      exact answered.still inv (by rw [after]) (by simp only [returns, now])
    | wait1 c k seen now given after =>
      exact answered.still inv (by rw [after]) (by simp only [returns, now])
    | give c k seen now after =>
      -- what the call has met is what the completed calls have stored
      obtain ⟨-, ⟨answer, -⟩, -⟩ := answered.inv.inCall now
      have here : returns s (.task (.step t)) = [⟨t, c, seen⟩] := by simp only [returns, now]
      rw [here]
      refine ⟨inv, ?_, legalFrom_snoc answered.legal ?_⟩
      · rw [List.map_append, answered.calls, after]
        rfl
      · rw [answered.calls]
        exact answer

end History

end IrCtl

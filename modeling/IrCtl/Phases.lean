import Mathlib.Data.List.Chain
import IrCtl.Schedule

/-!
# The phases of the week

The schedule's decisions change at six times of a workday and never on a
weekend. Turns that come often enough not to miss one transmit once at each
change: thirty times a week.
-/

namespace IrCtl

/-! ### Counting the changes -/

/-- How many of the day's changes are behind a time of the day. -/
def stage (time : Int) : Int :=
  if time < 60 then 0
  -- asleep until nine, but not closed before the minute is over
  else if time < 32400 then 1
  else if time < 32460 then 2
  else if time < 74700 then 3
  else if time < 82860 then 4
  else if time < 86340 then 5
  else 6

/-- The workdays before a day, counted from some Monday on. -/
def workdaysBefore (day : Int) : Int := 5 * ((day + 4) / 7) + min 5 (max 0 ((day + 4) % 7 - 1))

/-- How many changes of the decision are behind a clock value. -/
def phase (gtick : Int) : Int :=
  6 * workdaysBefore (gtick / 86400) + if Workday gtick then stage (gtick % 86400) else 0

/-- The decision of each phase: awake and open but for the closed hours, phase
three, and the two stretches of sleep, phases one and five. -/
def planned (n : Int) : Bool × Bool := (n % 6 = 3, n % 6 = 1 ∨ n % 6 = 5)

theorem workday_iff (gtick : Int) :
    Workday gtick ↔ 0 < (gtick / 86400 + 4) % 7 ∧ (gtick / 86400 + 4) % 7 < 6 := by
  simp [Workday, vInter, localtime]

theorem workdaysBefore_succ (day : Int) :
    workdaysBefore (day + 1) =
      workdaysBefore day + if 0 < (day + 4) % 7 ∧ (day + 4) % 7 < 6 then 1 else 0 := by
  unfold workdaysBefore
  split <;> omega

theorem stage_eq_three_iff (time : Int) : stage time = 3 ↔ 32460 ≤ time ∧ time < 74700 := by
  unfold stage
  split_ifs <;> omega

theorem stage_asleep_iff (time : Int) : stage time = 1 ∨ stage time = 5 ↔
    82860 ≤ time ∧ time < 86340 ∨ 60 ≤ time ∧ time < 32400 := by
  unfold stage
  split_ifs <;> omega

theorem stage_bounds (time : Int) : 0 ≤ stage time ∧ stage time ≤ 6 := by
  unfold stage
  split_ifs <;> omega

/-- No stretch of the day is shorter than a minute. -/
theorem stage_step {time time' : Int} (later : time ≤ time') (soon : time' ≤ time + 60) :
    stage time' = stage time ∨ stage time' = stage time + 1 := by
  unfold stage
  split_ifs <;> omega

theorem decision_eq_planned {gtick : Int} (work : Workday gtick) :
    decision gtick = planned (phase gtick) := by
  have bounds := stage_bounds (gtick % 86400)
  have closed : vInter (getMinius (localtime gtick)) (toMinuis 9 0) (toMinuis 20 45) = true ↔
      phase gtick % 6 = 3 := by
    have three := stage_eq_three_iff (gtick % 86400)
    rw [phase, if_pos work, getMinius_localtime, vInter, Bool.and_eq_true, decide_eq_true_eq,
      decide_eq_true_eq, toMinuis, toMinuis]
    omega
  have asleep : timeInSleepAt gtick ≠ 0 ↔ phase gtick % 6 = 1 ∨ phase gtick % 6 = 5 := by
    have stretch := stage_asleep_iff (gtick % 86400)
    have switch := timeInSleepAt_switch gtick
    have window := timeInSleepAt_iff gtick
    rw [phase, if_pos work]
    omega
  simp only [decision, planned, Prod.mk.injEq, asleep, and_true]
  exact Bool.eq_iff_iff.mpr (closed.trans decide_eq_true_iff.symm)

/-- Within a minute the phase moves on by one at most, and only on a workday. -/
theorem phase_step {gtick gtick' : Int} (later : gtick ≤ gtick') (soon : gtick' ≤ gtick + 60) :
    phase gtick' = phase gtick ∨ phase gtick' = phase gtick + 1 ∧ Workday gtick' := by
  have days : gtick' / 86400 = gtick / 86400 ∨ gtick' / 86400 = gtick / 86400 + 1 := by omega
  rcases days with same | next
  · have both : Workday gtick ↔ Workday gtick' := by rw [workday_iff, workday_iff, same]
    by_cases work : Workday gtick
    · have moves : stage (gtick' % 86400) = stage (gtick % 86400) ∨
          stage (gtick' % 86400) = stage (gtick % 86400) + 1 := stage_step (by omega) (by omega)
      rw [phase, phase, if_pos work, if_pos (both.mp work), same]
      refine moves.imp (fun still => by rw [still]) fun on => ⟨by omega, both.mp work⟩
    · left
      rw [phase, phase, if_neg work, if_neg (mt both.mpr work), same]
  · -- midnight: the last change of the day is behind, the first of the next ahead
    left
    have all_behind : stage (gtick % 86400) = 6 := by
      unfold stage
      split_ifs <;> omega
    have none_yet : stage (gtick' % 86400) = 0 := by
      unfold stage
      split_ifs <;> omega
    rw [phase, phase, all_behind, none_yet, ite_self, next, workdaysBefore_succ]
    simp only [workday_iff]
    split <;> omega

/-! ### Transmitting at the changes -/

theorem planned_succ_ne (n : Int) : planned (n + 1) ≠ planned n := by
  simp only [planned, ne_eq, Prod.mk.injEq, decide_eq_decide]
  omega

/-- A store settled for one decision is not settled for another. -/
theorem decided_ne {d d' : Bool × Bool} {cfg : AcCfg} (settled : decided d cfg = cfg)
    (differ : d' ≠ d) : decided d' cfg ≠ cfg := by
  intro same
  -- the decision can be read off what it has made of the store
  have open_ : (if d.1 then (0 : U8) else 1) = if d'.1 then 0 else 1 :=
    congrArg AcCfg.open_ (settled.trans same.symm)
  have sleep : (if d.2 then (1 : U8) else 0) = if d'.2 then 1 else 0 :=
    congrArg AcCfg.sleep (settled.trans same.symm)
  have power : ∀ a b : Bool, (if a then (0 : U8) else 1) = (if b then 0 else 1) → b = a := by decide
  have rest : ∀ a b : Bool, (if a then (1 : U8) else 0) = (if b then 1 else 0) → b = a := by decide
  exact differ (Prod.ext (power d.1 d'.1 open_) (rest d.2 d'.2 sleep))

/-- Each turn comes within a minute of the one before. -/
def Paced (gs : List Int) : Prop := gs.IsChain fun g g' => g ≤ g' ∧ g' ≤ g + 60

/-- From a store settled for its phase on, turns transmit once for each phase. -/
theorem transmissions_eq_of_settled {w : World} {g : Int} {gs : List Int}
    (settled : decided (planned (phase g)) w.cfg = w.cfg) (paced : Paced (g :: gs)) :
    (transmissions w gs : Int) = phase (gs.getLastD g) - phase g := by
  induction gs generalizing w g with
  | nil => simp [transmissions]
  | cons g' gs ih =>
    -- the invariant: the store is settled for the phase of the last turn
    obtain ⟨⟨later, soon⟩, rest⟩ := List.isChain_cons_cons.mp paced
    rw [transmissions, List.getLastD_cons]
    by_cases work : Workday g'
    · have settled' : decided (planned (phase g')) (turnAt w g').cfg = (turnAt w g').cfg := by
        rw [← decision_eq_planned work]
        exact decided_turnAt work w
      have later_turns := ih settled' rest
      -- a turn transmits just when it settles the store for another phase
      rcases phase_step later soon with same | ⟨next, -⟩
      · have quiet : (turnAt w g').loaded = w.loaded := by
          rw [turnAt_loaded_eq_iff, tickCfg_workday work, decision_eq_planned work, same, settled]
        rw [if_pos quiet]
        omega
      · have speaks : (turnAt w g').loaded ≠ w.loaded := by
          rw [Ne, turnAt_loaded_eq_iff, tickCfg_workday work, decision_eq_planned work, next]
          exact decided_ne settled (planned_succ_ne (phase g))
        rw [if_neg speaks]
        omega
    · -- on a weekend neither the store nor the phase changes
      have still : Still w (turnAt w g') := turnAt_weekend work
      have same : phase g' = phase g := (phase_step later soon).resolve_right fun moves => work moves.2
      have later_turns := ih (by rw [still.cfg, same]; exact settled) rest
      rw [if_pos still.loaded]
      omega

/-- Without commands, from a workday turn on, there is just one transmission for
each change of phase. -/
theorem transmissions_eq_phases {g : Int} {gs : List Int} (work : Workday g)
    (paced : Paced (g :: gs)) (w : World) :
    (transmissions (turnAt w g) gs : Int) = phase (gs.getLastD g) - phase g := by
  apply transmissions_eq_of_settled ?_ paced
  rw [← decision_eq_planned work]
  exact decided_turnAt work w

/-- Into the closed hours: one transmission. -/
theorem transmissions_eq_phases_nine :
    (transmissions (turnAt (.boot 0) 32455) [32460, 32465] : Int) = phase 32465 - phase 32455 :=
  transmissions_eq_phases (by decide) (by simp [Paced]) (.boot 0)

/-- A week is thirty phases, whenever it begins. -/
theorem phase_week (g : Int) : phase (g + 604800) = phase g + 30 := by
  have day : (g + 604800) / 86400 = g / 86400 + 7 := by omega
  have time : (g + 604800) % 86400 = g % 86400 := by omega
  have same : Workday (g + 604800) ↔ Workday g := by
    rw [workday_iff, workday_iff, day]
    omega
  have week : workdaysBefore (g / 86400 + 7) = workdaysBefore (g / 86400) + 5 := by
    unfold workdaysBefore
    omega
  rw [phase, phase, day, time, week]
  simp only [same]
  omega

/-! ### A week of turns -/

/-- No turn changes what a decision would make of the store. -/
theorem decided_turns (d : Bool × Bool) (w : World) (gs : List Int) :
    decided d (gs.foldl turnAt w).cfg = decided d w.cfg := by
  induction gs generalizing w with
  | nil => rfl
  | cons g gs ih =>
    rw [List.foldl_cons, ih, turnAt_cfg]
    by_cases work : Workday g
    · rw [tickCfg_workday work, decided_decided]
    · rw [tickCfg_weekend work]

/-- The store stays settled for the phase it is in. -/
theorem settled_turns {w : World} {g : Int} {gs : List Int}
    (settled : decided (planned (phase g)) w.cfg = w.cfg) (paced : Paced (g :: gs)) :
    decided (planned (phase (gs.getLastD g))) (gs.foldl turnAt w).cfg = (gs.foldl turnAt w).cfg := by
  induction gs generalizing w g with
  | nil => exact settled
  | cons g' gs ih =>
    obtain ⟨⟨later, soon⟩, rest⟩ := List.isChain_cons_cons.mp paced
    rw [List.foldl_cons, List.getLastD_cons]
    refine ih ?_ rest
    by_cases work : Workday g'
    · rw [← decision_eq_planned work]
      exact decided_turnAt work w
    · have same : phase g' = phase g := (phase_step later soon).resolve_right fun moves => work moves.2
      rw [(turnAt_weekend work).cfg, same]
      exact settled

/-- The clock values of the next turns of the loop. -/
def clocks (start : Int) (n : Nat) : List Int := (List.range n).map (clockAt (start + 5))

theorem nextTurn_iterate_eq_foldl (w : World) (n : Nat) :
    nextTurn^[n] w = (clocks w.gtick n).foldl turnAt w := by
  induction n with
  | zero => rfl
  | succ n ih =>
    rw [nextTurn_iterate_succ, ih, clocks, clocks, List.range_succ, List.map_append,
      List.foldl_append]
    rfl

theorem paced_clocks (start : Int) (n : Nat) : Paced (start :: clocks start n) := by
  have whole : start :: clocks start n = (List.range (n + 1)).map (fun i : Nat => start + 5 * (i : Int)) := by
    rw [List.range_succ_eq_map, List.map_cons, List.map_map, clocks]
    congr 1
    · simp
    · apply List.map_congr_left
      intro i _
      simp only [clockAt, Function.comp_apply]
      push_cast
      omega
  rw [whole, Paced, List.isChain_iff_getElem]
  intro i bound
  simp only [List.getElem_map, List.getElem_range]
  omega

theorem clocks_getLastD (start : Int) (n : Nat) : (clocks start n).getLastD start = start + 5 * n := by
  cases n with
  | zero => simp [clocks]
  | succ n =>
    rw [clocks, List.range_succ, List.map_append]
    simp only [List.map_cons, List.map_nil, List.getLastD_concat, clockAt]
    omega

/-- In a week of turns the device is sent its setting thirty times, two frames
a time, and is then set as it was. -/
theorem week_of_turns {w : World} {g : Int} {gs : List Int}
    (settled : decided (planned (phase g)) w.cfg = w.cfg) (paced : Paced (g :: gs))
    (week : gs.getLastD g = g + 604800) :
    (gs.foldl turnAt w).loaded.length = w.loaded.length + 60 ∧ (gs.foldl turnAt w).cfg = w.cfg := by
  have count := transmissions_eq_of_settled settled paced
  have final := settled_turns settled paced
  rw [week, phase_week] at count final
  constructor
  · rw [turns_loaded_length]
    omega
  · -- thirty phases on the decision is the same
    have same : planned (phase g + 30) = planned (phase g) := by
      have six : (phase g + 30) % 6 = phase g % 6 := by omega
      simp only [planned, six]
    rw [same, decided_turns, settled] at final
    exact final.symm

/-- The turns of the loop itself, from noon on a workday. -/
theorem week_of_turns_noon :
    (nextTurn^[120960] (turnAt (.boot 0) noon)).cfg = (turnAt (.boot 0) noon).cfg := by
  rw [nextTurn_iterate_eq_foldl, turnAt_gtick]
  exact (week_of_turns (by decide) (paced_clocks noon 120960) (clocks_getLastD noon 120960)).2

end IrCtl

import IrCtl.Clock

/-!
# The schedule

Turns of the soft_timer one after another, without commands: when they write and
transmit, and what the night looks like to them.
-/

namespace IrCtl

open CString

/-- A turn at a clock value, run whole. -/
def turnAt (w : World) (gtick : Int) : World := (w.exec (softTimerTurn gtick)).2

def Workday (gtick : Int) : Prop := vInter (localtime gtick).tmWday 0 6 = true

instance (gtick : Int) : Decidable (Workday gtick) := inferInstanceAs (Decidable (_ = true))

/-- What a turn decides on: whether the day's closed hours run, and whether it is
time to sleep. -/
def decision (gtick : Int) : Bool × Bool :=
  (vInter (getMinius (localtime gtick)) (toMinuis 9 0) (toMinuis 20 45),
    timeInSleepAt gtick ≠ 0)

/-- The configuration a decision makes of a stored one. -/
def decided (d : Bool × Bool) (cfg : AcCfg) : AcCfg :=
  { cfg with
    open_ := if d.1 then 0 else 1
    temp := if d.2 then cfg.tempSlp else cfg.tempAct
    sleep := if d.2 then 1 else 0 }

/-- The store is the same, and nothing has gone on the air. -/
structure Still (w w' : World) : Prop where
  cfg : w'.cfg = w.cfg
  loaded : w'.loaded = w.loaded

section Turns

variable {w : World} {gtick gtick' : Int}

theorem tickCfg_workday (work : Workday gtick) (cfg : AcCfg) :
    tickCfg gtick cfg = decided (decision gtick) cfg := by
  have opens : vInter (localtime gtick).tmWday 0 6 = true := work
  rw [tickCfg, if_pos opens]
  by_cases asleep : timeInSleepAt gtick ≠ 0 <;>
    simp [scheduled, scheduledOpen, decided, decision, asleep]

theorem tickCfg_weekend (off : ¬ Workday gtick) (cfg : AcCfg) : tickCfg gtick cfg = cfg :=
  if_neg off

/-- A decision takes nothing over from an earlier one. -/
theorem decided_decided (d d' : Bool × Bool) (cfg : AcCfg) :
    decided d (decided d' cfg) = decided d cfg := rfl

@[simp] theorem turnAt_cfg (w : World) (gtick : Int) :
    (turnAt w gtick).cfg = tickCfg gtick w.cfg := by
  rw [turnAt, exec_softTimerTurn, call_cfg]
  rfl

@[simp] theorem turnAt_gtick (w : World) (gtick : Int) : (turnAt w gtick).gtick = gtick :=
  softTimerTurn_gtick gtick w

theorem turnAt_loaded (w : World) (gtick : Int) :
    (turnAt w gtick).loaded = w.loaded ++
      if tickCfg gtick w.cfg = w.cfg then [] else framePair (tickCfg gtick w.cfg) := by
  rw [turnAt, exec_softTimerTurn, call_loaded]
  by_cases same : tickCfg gtick w.cfg = w.cfg
  · simp [AcCall.transmits, same]
  · simp [AcCall.transmits, AcCall.store, same, Ne.symm same]

/-- A turn is still exactly when its decision changes nothing. -/
theorem turnAt_still_iff : Still w (turnAt w gtick) ↔ tickCfg gtick w.cfg = w.cfg := by
  constructor
  · intro still
    rw [← turnAt_cfg]
    exact still.cfg
  · intro same
    refine ⟨by rw [turnAt_cfg, same], ?_⟩
    rw [turnAt_loaded, if_pos same, List.append_nil]

theorem turnAt_loaded_eq_iff :
    (turnAt w gtick).loaded = w.loaded ↔ tickCfg gtick w.cfg = w.cfg := by
  rw [turnAt_loaded]
  by_cases same : tickCfg gtick w.cfg = w.cfg
  · simp [same]
  · simp [same, framePair]

theorem turnAt_weekend (off : ¬ Workday gtick) : Still w (turnAt w gtick) :=
  turnAt_still_iff.mpr (tickCfg_weekend off w.cfg)

theorem turns_weekend {mid : List Int} (off : ∀ g ∈ mid, ¬ Workday g) (w : World) :
    (mid.foldl turnAt w).cfg = w.cfg := by
  induction mid generalizing w with
  | nil => rfl
  | cons g mid ih =>
    rw [List.foldl_cons, ih fun h member => off h (List.mem_cons_of_mem g member)]
    exact (turnAt_weekend (off g List.mem_cons_self)).cfg

end Turns

/-! ### Turns that decide the same -/

/-- The turns that transmit. -/
def transmissions (w : World) : List Int → Nat
  | [] => 0
  | g :: gs => (if (turnAt w g).loaded = w.loaded then 0 else 1) + transmissions (turnAt w g) gs

/-- How often a decision differs from the one before. -/
def changes : List (Bool × Bool) → Nat
  | [] => 0
  | [_] => 0
  | d :: d' :: ds => (if d = d' then 0 else 1) + changes (d' :: ds)

def decisions (gs : List Int) : List (Bool × Bool) := (gs.filter (Workday ·)).map decision

theorem decisions_workday {g : Int} (work : Workday g) (gs : List Int) :
    decisions (g :: gs) = decision g :: decisions gs := by
  simp [decisions, work]

theorem decisions_weekend {g : Int} (off : ¬ Workday g) (gs : List Int) :
    decisions (g :: gs) = decisions gs := by
  simp [decisions, off]

/-- Behind a turn the store is as its decision has it. -/
theorem decided_turnAt {g : Int} (work : Workday g) (w : World) :
    decided (decision g) (turnAt w g).cfg = (turnAt w g).cfg := by
  rw [turnAt_cfg, tickCfg_workday work, decided_decided]

/-- A pair of frames goes on the air at each transmission. -/
theorem turns_loaded_length (w : World) (gs : List Int) :
    (gs.foldl turnAt w).loaded.length = w.loaded.length + 2 * transmissions w gs := by
  induction gs generalizing w with
  | nil => rfl
  | cons g gs ih =>
    rw [List.foldl_cons, ih, transmissions]
    by_cases same : tickCfg g w.cfg = w.cfg
    · rw [if_pos (turnAt_loaded_eq_iff.mpr same), turnAt_loaded_eq_iff.mpr same]
      omega
    · rw [if_neg (mt turnAt_loaded_eq_iff.mp same), turnAt_loaded, if_neg same,
        List.length_append, framePair]
      simp only [List.length_cons, List.length_nil]
      omega

/-- Once the store is as `d` decides, a turn transmits only when its decision
differs from the one before. -/
theorem transmissions_le_of_decided {d : Bool × Bool} (gs : List Int) {w : World}
    (settled : decided d w.cfg = w.cfg) : transmissions w gs ≤ changes (d :: decisions gs) := by
  induction gs generalizing d w with
  | nil => exact Nat.le_refl 0
  | cons g gs ih =>
    rw [transmissions]
    by_cases work : Workday g
    · have rest := ih (decided_turnAt work w)
      rw [decisions_workday work, changes]
      by_cases same : d = decision g
      · have quiet : (turnAt w g).loaded = w.loaded := by
          rw [turnAt_loaded_eq_iff, tickCfg_workday work, ← same, settled]
        rw [if_pos quiet, if_pos same]
        omega
      · rw [if_neg same]
        split <;> omega
    · have still : Still w (turnAt w g) := turnAt_weekend work
      rw [if_pos still.loaded, decisions_weekend work, Nat.zero_add]
      apply ih
      rw [still.cfg]
      exact settled

theorem transmissions_le (w : World) (gs : List Int) :
    transmissions w gs ≤ 1 + changes (decisions gs) := by
  induction gs generalizing w with
  | nil => exact Nat.zero_le _
  | cons g gs ih =>
    by_cases work : Workday g
    · have rest := transmissions_le_of_decided gs (decided_turnAt work w)
      rw [transmissions, decisions_workday work]
      split <;> omega
    · have still : Still w (turnAt w g) := turnAt_weekend work
      rw [transmissions, if_pos still.loaded, decisions_weekend work, Nat.zero_add]
      exact ih _

/-- The second of two workday turns that decide the same, with only weekend
turns between them, changes nothing and transmits nothing. -/
theorem turn_repeated {w : World} {g g' : Int} {mid : List Int} (work : Workday g)
    (off : ∀ h ∈ mid, ¬ Workday h) (work' : Workday g') (same : decision g = decision g') :
    Still ((g :: mid).foldl turnAt w) (turnAt ((g :: mid).foldl turnAt w) g') := by
  rw [turnAt_still_iff, List.foldl_cons, turns_weekend off, turnAt_cfg, tickCfg_workday work,
    tickCfg_workday work', ← same, decided_decided]

/-- The schedule is idempotent, and without commands it transmits no more often
than its decisions change, and once at the start. -/
theorem turns_quiet :
    (∀ (w : World) (g g' : Int) (mid : List Int), Workday g → (∀ h ∈ mid, ¬ Workday h) →
      Workday g' → decision g = decision g' →
      Still ((g :: mid).foldl turnAt w) (turnAt ((g :: mid).foldl turnAt w) g')) ∧
    (∀ (w : World) (gs : List Int), transmissions w gs ≤ 1 + changes (decisions gs)) ∧
    ∀ (w : World) (g : Int), ¬ Workday g → Still w (turnAt w g) :=
  ⟨fun _ _ _ _ work off work' same => turn_repeated work off work' same, transmissions_le,
    fun _ _ off => turnAt_weekend off⟩

theorem turns_quiet_noon :
    Still ([noon].foldl turnAt (.boot 0)) (turnAt ([noon].foldl turnAt (.boot 0)) (noon + 5)) :=
  turns_quiet.1 (.boot 0) noon (noon + 5) [] (by decide) (by decide) (by decide) (by decide)

/-! ### The night -/

/-- Strictly between 23:01:00 and 09:00:00. -/
def Night (gtick : Int) : Prop := 82860 < gtick % 86400 ∨ gtick % 86400 < 32400

instance (gtick : Int) : Decidable (Night gtick) := inferInstanceAs (Decidable (_ ∨ _))

/-- From 23:59:00 to 00:00:59. -/
def Seam (gtick : Int) : Prop := 86340 ≤ gtick % 86400 ∨ gtick % 86400 < 60

theorem timeInSleepAt_switch (gtick : Int) : timeInSleepAt gtick = 0 ∨ timeInSleepAt gtick = 1 := by
  simp only [timeInSleepAt]
  split
  · exact Or.inr rfl
  · split
    · exact Or.inr rfl
    · exact Or.inl rfl

theorem getMinius_localtime (gtick : Int) :
    getMinius (localtime gtick) = gtick % 86400 / 60 := by
  simp only [getMinius, localtime]
  omega

/-- The two intervals as the strict bounds leave them. -/
theorem timeInSleepAt_iff (gtick : Int) :
    timeInSleepAt gtick = 1 ↔
      82860 ≤ gtick % 86400 ∧ gtick % 86400 < 86340 ∨
        60 ≤ gtick % 86400 ∧ gtick % 86400 < 32400 := by
  simp only [timeInSleepAt, getMinius_localtime, toMinuis, vInter, Bool.and_eq_true, decide_eq_true_eq]
  split
  · omega
  · split <;> omega

theorem decision_of_night {gtick : Int} (night : Night gtick) (asleep : timeInSleepAt gtick = 1) :
    decision gtick = (false, true) := by
  have shut : vInter (gtick % 86400 / 60) (toMinuis 9 0) (toMinuis 20 45) = false := by
    rw [Bool.eq_false_iff]
    intro inside
    have low := of_decide_eq_true (Bool.and_eq_true_iff.mp inside).1
    have high := of_decide_eq_true (Bool.and_eq_true_iff.mp inside).2
    simp only [toMinuis] at low high
    rw [Night] at night
    omega
  rw [decision, getMinius_localtime, shut, asleep]
  rfl

/-- The sleep window is whole but for its seam. -/
theorem asleep_iff_not_seam {gtick : Int} (night : Night gtick) :
    timeInSleepAt gtick = 1 ↔ ¬ Seam gtick := by
  rw [Night] at night
  rw [timeInSleepAt_iff, Seam]
  omega

/-- The next turn of the loop, without a sync. -/
def nextTurn (w : World) : World := turnAt w (w.gtick + 5)

/-- The turn a delay of the loop ends with, if no sync is due, is the next one. -/
theorem turn_eq_nextTurn {net : Net} {s s' : Kept} {times : Int} (timer : s.timer = .looping times)
    (counts : times ≤ 12 * 3600) (turned : s.turn net = some s') : s'.world = nextTurn s.world := by
  rw [Kept.turn, timer, wake_of_counts (by exact Int.not_lt.mpr counts), Option.map_some,
    Option.some.injEq] at turned
  dsimp only at turned
  rw [if_neg (Int.not_lt.mpr counts)] at turned
  rw [← turned]
  rfl

theorem nextTurn_iterate_gtick (w : World) (n : Nat) : (nextTurn^[n] w).gtick = w.gtick + 5 * n := by
  induction n with
  | zero => simp
  | succ n ih =>
    rw [Function.iterate_succ_apply', nextTurn, turnAt_gtick, ih]
    push_cast
    omega

/-- The first 09:00:00 behind a time of the night. -/
def nightEnd (gtick : Int) : Int :=
  gtick - gtick % 86400 + if gtick % 86400 < 32400 then 32400 else 86400 + 32400

/-- The clock at turn `i` of a run that begins at `start`. -/
def clockAt (start : Int) (i : Nat) : Int := start + 5 * i

/-- Of `n` turns from `w` on, once one has put the device to sleep, no later one
of the same night on a workday writes or transmits. -/
def NightQuiet (w : World) (n : Nat) : Prop :=
  ∀ i j, i < j → j < n → clockAt (w.gtick + 5) j < nightEnd (w.gtick + 5) →
    Workday (clockAt (w.gtick + 5) i) → timeInSleepAt (clockAt (w.gtick + 5) i) = 1 →
    Workday (clockAt (w.gtick + 5) j) → Still (nextTurn^[j] w) (nextTurn^[j + 1] w)

/-- The turns do not come to the seam out of sleep: they begin at 23:59 or
behind it, or end before. -/
def SeamAvoided (start : Int) (n : Nat) : Prop :=
  86340 ≤ start % 86400 ∨ start % 86400 < 32400 ∨ start % 86400 + 5 * (n - 1 : Int) < 86340

theorem clockAt_lt_of_le {start bound : Int} {k j : Nat} (later : k ≤ j)
    (early : clockAt start j < bound) : clockAt start k < bound := by
  simp only [clockAt] at early ⊢
  omega

theorem nextTurn_iterate_succ (w : World) (i : Nat) :
    nextTurn^[i + 1] w = turnAt (nextTurn^[i] w) (clockAt (w.gtick + 5) i) := by
  rw [Function.iterate_succ_apply', nextTurn, nextTurn_iterate_gtick, clockAt]
  congr 1
  omega

theorem workday_same_day {g g' : Int} (day : g / 86400 = g' / 86400) (work : Workday g) :
    Workday g' := by
  have same : (localtime g).tmWday = (localtime g').tmWday := by
    simp only [localtime, day]
  rw [Workday, ← same]
  exact work

section NightRuns

variable {w : World} {n i j : Nat}

/-- Off the seam, sleep lasts to the end of the night. -/
theorem asleep_until {start : Int} (night : Night start) (avoided : SeamAvoided start n)
    (later : i ≤ j) (inside : j < n) (early : clockAt start j < nightEnd start)
    (asleep : timeInSleepAt (clockAt start i) = 1) :
    Night (clockAt start j) ∧ timeInSleepAt (clockAt start j) = 1 := by
  rw [timeInSleepAt_iff] at asleep ⊢
  unfold Night SeamAvoided nightEnd clockAt at *
  split at early <;> omega

/-- A turn asleep settles the store until the end of the night. -/
theorem settled_until (night : Night (w.gtick + 5)) (avoided : SeamAvoided (w.gtick + 5) n)
    (work : Workday (clockAt (w.gtick + 5) i))
    (asleep : timeInSleepAt (clockAt (w.gtick + 5) i) = 1) (later : i + 1 ≤ j) (inside : j < n)
    (early : clockAt (w.gtick + 5) j < nightEnd (w.gtick + 5)) :
    decided (false, true) (nextTurn^[j] w).cfg = (nextTurn^[j] w).cfg := by
  have turns : ∀ k, i ≤ k → k < j → Workday (clockAt (w.gtick + 5) k) →
      (nextTurn^[k + 1] w).cfg = decided (false, true) (nextTurn^[k] w).cfg := by
    intro k from_i below work
    obtain ⟨night_k, asleep_k⟩ :=
      asleep_until night avoided from_i (by omega) (clockAt_lt_of_le below.le early) asleep
    rw [nextTurn_iterate_succ, turnAt_cfg, tickCfg_workday work, decision_of_night night_k asleep_k]
  induction j, later using Nat.le_induction with
  | base =>
    rw [turns i (Nat.le_refl i) (Nat.lt_succ_self i) work, decided_decided]
  | succ k from_i ih =>
    have before := clockAt_lt_of_le (Nat.le_succ k) early
    have settled := ih (by omega) before fun m low high => turns m low (by omega)
    by_cases work_k : Workday (clockAt (w.gtick + 5) k)
    · rw [turns k (by omega) (by omega) work_k, decided_decided]
    · rw [nextTurn_iterate_succ, turnAt_cfg, tickCfg_weekend work_k]
      exact settled

theorem nightQuiet_of_seamAvoided (night : Night (w.gtick + 5))
    (avoided : SeamAvoided (w.gtick + 5) n) : NightQuiet w n := by
  intro i j later inside early work asleep work'
  obtain ⟨night', asleep'⟩ :=
    asleep_until night avoided (Nat.le_of_lt later) inside early asleep
  rw [nextTurn_iterate_succ, turnAt_still_iff, tickCfg_workday work',
    decision_of_night night' asleep']
  exact settled_until night avoided work asleep later inside early

/-- A run that comes to 23:59:00 out of sleep wakes the device there. -/
theorem seamAvoided_of_nightQuiet (work : Workday (w.gtick + 5)) (quiet : NightQuiet w n) :
    SeamAvoided (w.gtick + 5) n := by
  by_contra meets
  rw [SeamAvoided] at meets
  -- turn `i` is the last before the seam, turn `i + 1` the first in it
  obtain ⟨i, last, first⟩ : ∃ i : Nat, (w.gtick + 5) % 86400 + 5 * i < 86340 ∧
      86340 ≤ (w.gtick + 5) % 86400 + 5 * (i + 1) :=
    ⟨((86339 - (w.gtick + 5) % 86400) / 5).toNat, by omega, by omega⟩
  have work_i : Workday (clockAt (w.gtick + 5) i) :=
    workday_same_day (by rw [clockAt]; omega) work
  have work_j : Workday (clockAt (w.gtick + 5) (i + 1)) :=
    workday_same_day (by rw [clockAt]; omega) work
  have asleep : timeInSleepAt (clockAt (w.gtick + 5) i) = 1 := by
    rw [timeInSleepAt_iff, clockAt]
    omega
  have awake : timeInSleepAt (clockAt (w.gtick + 5) (i + 1)) ≠ 1 := by
    rw [Ne, timeInSleepAt_iff, clockAt]
    omega
  have early : clockAt (w.gtick + 5) (i + 1) < nightEnd (w.gtick + 5) := by
    unfold clockAt nightEnd
    split <;> omega
  have still := quiet i (i + 1) (Nat.lt_succ_self i) (by omega) early work_i asleep work_j
  have slept : (nextTurn^[i + 1] w).cfg.sleep = 1 := by
    rw [nextTurn_iterate_succ, turnAt_cfg, tickCfg_workday work_i]
    simp [decided, decision, asleep]
  have woken : (nextTurn^[i + 1 + 1] w).cfg.sleep = 0 := by
    have zero := (timeInSleepAt_switch (clockAt (w.gtick + 5) (i + 1))).resolve_right awake
    rw [nextTurn_iterate_succ, turnAt_cfg, tickCfg_workday work_j]
    simp [decided, decision, zero]
  rw [still.cfg, slept] at woken
  exact absurd woken (by decide)

end NightRuns

/-- In the night it is time to sleep except in the two minutes of the seam, and
the runs that begin then are quiet exactly where the seam is not come to out of
sleep. -/
theorem night_quiet_iff (gtick : Int) (night : Night gtick) :
    (timeInSleepAt gtick = 1 ↔ ¬ Seam gtick) ∧
    ∀ (w : World) (n : Nat), w.gtick + 5 = gtick → Workday gtick →
      (NightQuiet w n ↔ SeamAvoided gtick n) := by
  refine ⟨asleep_iff_not_seam night, ?_⟩
  rintro w n rfl work
  exact ⟨seamAvoided_of_nightQuiet work, nightQuiet_of_seamAvoided night⟩

/-- From half past midnight on a workday, a night is quiet. -/
theorem night_quiet_iff_midnight :
    NightQuiet (.boot 1795) 4 ↔ SeamAvoided 1800 4 :=
  (night_quiet_iff 1800 (by decide)).2 (.boot 1795) 4 rfl (by decide)

/-- Turns at 23:58:54, 23:58:59 and 23:59:04: the last one wakes the device. -/
theorem night_wakes_at_2359 :
    Night 86344 ∧ timeInSleepAt 86344 = 0 ∧ ¬ NightQuiet (.boot 86329) 3 := by
  refine ⟨by decide, by decide, fun quiet => ?_⟩
  have still := quiet 1 2 (by decide) (by decide) (by decide) (by decide) (by decide) (by decide)
  have stored := still.cfg
  revert stored
  decide

end IrCtl

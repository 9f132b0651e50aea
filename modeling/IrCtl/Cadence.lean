import IrCtl.Phases

/-!
# From sync to sync

A device without commands: at which of its wake-ups it asks for the time, and
what it does where the answers are true.
-/

namespace IrCtl

open Transition

/-- The device as it comes up, in the delay before the first sync. -/
def Kept.boot (gtick : Int) : Kept := ⟨.boot gtick, .starting, gtick, 0, 0, 0⟩

/-- The wake-ups from one sync to the next. -/
def cadence : Nat := 12 * 3600 / 5 + 2

/-- The network a period at a time, and no message. -/
def elapse (nets : List Net) : List KeptAct := nets.map .period

/-- What the wake-ups so far leave, the last of them being number `n`: the clock
is the answer of the last sync and five seconds for each wake-up since. -/
structure Synced (nets : List Net) (n : Nat) (s : Kept) : Prop where
  running : s.world.suspended = false
  asked : ∃ net, nets[n - n % cadence]? = some net ∧ timeStamp net = some s.stamp
  timer : s.timer = .looping (5 * (n % cadence : Nat))
  gtick : s.world.gtick = s.stamp + 5 * (n % cadence : Nat)

@[simp] theorem turnAt_suspended (w : World) (gtick : Int) :
    (turnAt w gtick).suspended = w.suspended := by
  rw [turnAt, exec_softTimerTurn, (call_frame _ _).2.2.2]

section Turns

variable {cj : CJson} {s s' : Kept} {net : Net} {times : Int}

theorem period_running (running : s.world.suspended = false) :
    keptStep cj s (.period net) = Kept.turn net { s with periods := s.periods + 1 } := by
  simp [keptStep, running]

theorem turn_of_counts (timer : s.timer = .looping times) (counts : times ≤ 12 * 3600) :
    s.turn net = some { s with world := nextTurn s.world, timer := .looping (times + 5) } := by
  have early : ¬ times > 12 * 3600 := Int.not_lt.mpr counts
  rw [Kept.turn, timer, wake_of_counts early, Option.map_some]
  dsimp only
  rw [if_neg early]
  rfl

theorem turn_of_syncs (timer : s.timer = .looping times) (late : times > 12 * 3600) :
    s.turn net = (timeStamp net).map fun stamp =>
      ⟨turnAt s.world stamp, .looping 0, stamp, 0, 0, 0⟩ := by
  have syncs : (Timer.looping times).Syncs := late
  rw [Kept.turn, timer, wake_of_syncs syncs, Option.map_map]
  congr 1
  funext stamp
  simp only [Function.comp_apply, if_pos late]
  rfl

theorem turn_of_starting (timer : s.timer = .starting) :
    s.turn net = (timeStamp net).map fun stamp =>
      ⟨{ s.world with gtick := stamp }, .looping 0, stamp, 0, 0, 0⟩ := by
  have syncs : Timer.starting.Syncs := trivial
  rw [Kept.turn, timer, wake_of_syncs syncs, Option.map_map]
  rfl

end Turns

/-! ### At which wake-ups the time is asked -/

section Wakes

variable {cj : CJson} {s s' : Kept} {nets : List Net} {net : Net} {n : Nat}

/-- A wake-up that is not a multiple of the cadence counts five seconds. -/
theorem Synced.counts (synced : Synced nets n s) (between : (n + 1) % cadence ≠ 0) :
    keptStep cj s (.period net) = some { s with
      world := nextTurn s.world
      timer := .looping (5 * (n % cadence : Nat) + 5)
      periods := s.periods + 1 } := by
  have short : (5 * (n % cadence : Nat) : Int) ≤ 12 * 3600 := by
    rw [cadence] at between ⊢
    omega
  rw [period_running synced.running]
  exact turn_of_counts synced.timer short

/-- A multiple of the cadence asks for the time. -/
theorem Synced.asks (synced : Synced nets n s) (due : (n + 1) % cadence = 0) :
    keptStep cj s (.period net) = (timeStamp net).map fun stamp =>
      ⟨turnAt s.world stamp, .looping 0, stamp, 0, 0, 0⟩ := by
  have long : (5 * (n % cadence : Nat) : Int) > 12 * 3600 := by
    rw [cadence] at due ⊢
    omega
  rw [period_running synced.running]
  exact turn_of_syncs synced.timer long

theorem Synced.start {gtick : Int} (stepped : keptStep cj (.boot gtick) (.period net) = some s) :
    Synced [net] 0 s := by
  have fresh : (Kept.boot gtick).world.suspended = false := rfl
  rw [period_running fresh, turn_of_starting rfl, Option.map_eq_some_iff] at stepped
  obtain ⟨stamp, told, rfl⟩ := stepped
  exact ⟨rfl, ⟨net, rfl, told⟩, rfl, by simp⟩

theorem Synced.step (synced : Synced nets n s) (length : nets.length = n + 1)
    (stepped : keptStep cj s (.period net) = some s') : Synced (nets ++ [net]) (n + 1) s' := by
  by_cases due : (n + 1) % cadence = 0
  · -- the answer is the new stamp, and no second has been counted since
    rw [synced.asks due, Option.map_eq_some_iff] at stepped
    obtain ⟨stamp, told, rfl⟩ := stepped
    refine ⟨by simpa using synced.running, ⟨net, ?_, told⟩, by simp [due], by simp [due]⟩
    rw [due, Nat.sub_zero, ← length]
    exact List.getElem?_concat_length
  · rw [synced.counts due] at stepped
    cases stepped
    have next : (n + 1) % cadence = n % cadence + 1 := by
      rw [cadence] at due ⊢
      omega
    obtain ⟨asked, there, told⟩ := synced.asked
    refine ⟨?_, ⟨asked, ?_, told⟩, ?_, ?_⟩
    · simpa [nextTurn] using synced.running
    · -- the last sync is the same
      have same : n + 1 - (n + 1) % cadence = n - n % cadence := by omega
      rw [same, List.getElem?_append_left, there]
      omega
    · rw [next]
      push_cast
      congr 1
    · dsimp only
      rw [nextTurn, turnAt_gtick, synced.gtick, next]
      push_cast
      omega

end Wakes

/-! ### Servers that tell the truth -/

/-- Asked at a wake-up that syncs, the servers answer the time it is then, `t`
being the time of the first one. -/
def TimeTold (t : Int) (nets : List Net) : Prop :=
  ∀ n net, nets[n]? = some net → n % cadence = 0 → timeStamp net = some (t + 5 * n)

theorem elapse_world {t : Int} {net : Net} {nets : List Net} (truthful : TimeTold t (net :: nets))
    (cj : CJson) (gtick : Int) :
    ∃ s, run (keptStep cj) (.boot gtick) (elapse (net :: nets)) = some s ∧
      Synced (net :: nets) nets.length s ∧ s.world = nextTurn^[nets.length] (.boot t) := by
  induction nets using List.reverseRecOn with
  | nil =>
    have told : timeStamp net = some t := by simpa using truthful 0 net rfl rfl
    have stepped : keptStep cj (.boot gtick) (.period net) =
        some ⟨.boot t, .looping 0, t, 0, 0, 0⟩ := by
      rw [period_running rfl, turn_of_starting rfl, told]
      rfl
    exact ⟨_, by rw [elapse, List.map_singleton, run_cons, stepped]; rfl, .start stepped, rfl⟩
  | append_singleton nets last ih =>
    have earlier : TimeTold t (net :: nets) := fun n met there =>
      truthful n met (by
        rw [← List.cons_append]
        exact (List.getElem?_append_left (List.getElem?_eq_some_iff.mp there).1).trans there)
    obtain ⟨s, elapsed, synced, world⟩ := ih earlier
    -- either way the wake-up is a turn five seconds on
    obtain ⟨s', stepped, turned⟩ : ∃ s', keptStep cj s (.period last) = some s' ∧
        s'.world = nextTurn s.world := by
      by_cases due : (nets.length + 1) % cadence = 0
      · have told : timeStamp last = some (t + 5 * (nets.length + 1 : Nat)) :=
          truthful _ last (by simp) due
        refine ⟨_, by rw [synced.asks due, told]; rfl, ?_⟩
        -- the answer is what counting comes to
        have counted : s.world.gtick + 5 = t + 5 * (nets.length + 1 : Nat) := by
          rw [world, nextTurn_iterate_gtick]
          simp only [World.boot]
          omega
        rw [nextTurn, counted]
      · exact ⟨_, synced.counts due, rfl⟩
    refine ⟨s', ?_, ?_, ?_⟩
    · rw [elapse, ← List.cons_append, List.map_append, run_append_some]
      exact ⟨s, elapsed, by rw [List.map_singleton, run_cons, stepped]; rfl⟩
    · rw [List.length_append]
      exact synced.step rfl stepped
    · rw [turned, world, List.length_append, List.length_singleton, Function.iterate_succ_apply']

/-! ### A device without commands -/

/-- In every run without commands the device asks for the time at its first
wake-up and at each 8642nd from there on, and the clock is the last answer and
five seconds for each wake-up since. -/
theorem elapse_synced {cj : CJson} {gtick : Int} {net : Net} {nets : List Net} {s : Kept}
    (elapsed : run (keptStep cj) (.boot gtick) (elapse (net :: nets)) = some s) :
    Synced (net :: nets) nets.length s := by
  -- on the periods from the last one back, so that the run ends with the step
  induction nets using List.reverseRecOn generalizing s with
  | nil =>
    obtain ⟨_, stepped, same⟩ := (run_cons_some _ _ _ _).mp elapsed
    cases same
    exact .start stepped
  | append_singleton nets last ih =>
    rw [elapse, ← List.cons_append, List.map_append, run_append_some] at elapsed
    obtain ⟨before, ran, stepped⟩ := elapsed
    obtain ⟨_, stepped, same⟩ := (run_cons_some _ _ _ _).mp stepped
    cases same
    rw [List.length_append]
    exact (ih ran).step rfl stepped

/-- All servers answer with the time. -/
def tellingNet (time : Int) : Net where
  sockfd := 3
  servers _ := ⟨true, 0, 48, .bytes (List.replicate 40 0 ++ ntpField time) (field_fits time)⟩

/-- From noon in Beijing, which is four hours past midnight, to the next sync. -/
def halfDay : List Net :=
  tellingNet 14400 :: (List.replicate 8641 silentNet ++ [tellingNet 57610])

theorem timeTold_halfDay : TimeTold noon halfDay := by
  have idle : (List.replicate 8641 silentNet).length = 8641 := List.length_replicate
  intro n net there due
  have inside := (List.getElem?_eq_some_iff.mp there).1
  rw [halfDay, List.length_cons, List.length_append, idle, List.length_singleton] at inside
  -- only the first wake-up and the last are due
  obtain rfl | rfl : n = 0 ∨ n = 8642 := by
    rw [cadence] at due
    omega
  · cases there
    rfl
  · have last : halfDay[8642]? = some (tellingNet 57610) := by
      rw [halfDay, List.getElem?_cons_succ, List.getElem?_append_right (by rw [idle]), idle]
      rfl
    rw [last] at there
    cases there
    rfl

theorem elapse_synced_halfDay :
    ∃ s, run (keptStep flatCJson) (.boot 0) (elapse halfDay) = some s ∧ Synced halfDay 8642 s := by
  obtain ⟨s, elapsed, -⟩ := elapse_world timeTold_halfDay flatCJson 0
  have synced := elapse_synced elapsed
  rw [List.length_append, List.length_replicate] at synced
  exact ⟨s, elapsed, synced⟩

/-- From a workday turn on the turns of the loop transmit once for each change of
phase. -/
theorem turns_transmit {w : World} (work : Workday (w.gtick + 5)) (n : Nat) :
    ((nextTurn^[n + 1] w).loaded.length : Int) = (nextTurn w).loaded.length +
      2 * (phase (w.gtick + 5 * (n + 1 : Nat)) - phase (w.gtick + 5)) := by
  have settled : decided (planned (phase (w.gtick + 5))) (nextTurn w).cfg = (nextTurn w).cfg := by
    rw [← decision_eq_planned work]
    exact decided_turnAt work w
  have count := transmissions_eq_of_settled settled (paced_clocks (w.gtick + 5) n)
  rw [clocks_getLastD] at count
  -- two frames for each transmission
  rw [Function.iterate_succ_apply, nextTurn_iterate_eq_foldl, turns_loaded_length]
  have clock : (nextTurn w).gtick = w.gtick + 5 := turnAt_gtick w _
  rw [clock]
  have finish : w.gtick + 5 * (n + 1 : Nat) = w.gtick + 5 + 5 * n := by
    push_cast
    omega
  rw [finish]
  push_cast
  omega

/-- Where the syncs are told the truth they make no difference: the device is as
one that has the right time at the start and only counts from there on. From a
workday on it transmits once for each change of phase. -/
theorem elapse_truthful {t : Int} {net : Net} {nets : List Net} (truthful : TimeTold t (net :: nets))
    (cj : CJson) (gtick : Int) :
    ∃ s, run (keptStep cj) (.boot gtick) (elapse (net :: nets)) = some s ∧
      s.world = nextTurn^[nets.length] (.boot t) ∧
      (Workday (t + 5) → nets ≠ [] → (s.world.loaded.length : Int) =
        (nextTurn (.boot t)).loaded.length + 2 * (phase (t + 5 * nets.length) - phase (t + 5))) := by
  obtain ⟨s, elapsed, -, world⟩ := elapse_world truthful cj gtick
  refine ⟨s, elapsed, world, fun work some => ?_⟩
  obtain ⟨_, later, rfl⟩ := List.exists_cons_of_ne_nil some
  rw [world, List.length_cons]
  exact turns_transmit (w := .boot t) work later.length

/-- Three changes of phase and the second sync, at midnight. -/
theorem elapse_truthful_halfDay :
    ∃ s, run (keptStep flatCJson) (.boot 0) (elapse halfDay) = some s ∧
      s.world = nextTurn^[8642] (.boot noon) ∧
      (s.world.loaded.length : Int) = (nextTurn (.boot noon)).loaded.length + 6 := by
  obtain ⟨s, elapsed, world, count⟩ := elapse_truthful timeTold_halfDay flatCJson 0
  rw [List.length_append, List.length_replicate] at world count
  refine ⟨s, elapsed, world, ?_⟩
  have phases : phase (noon + 5 * (8641 + 1 : Nat)) - phase (noon + 5) = 3 := by decide
  have sent := count (by decide) (List.append_ne_nil_of_right_ne_nil _ (List.cons_ne_nil _ _))
  rw [List.length_singleton, phases] at sent
  exact sent

end IrCtl

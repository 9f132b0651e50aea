import IrCtl.Ntp
import IrCtl.Serial

/-!
# The clock

`soft_timer` counts the clock in its loop and sets it by `time_stamp` from time
to time. What its syncs store, and how the clock fares while commands suspend
and resume the task that counts it.
-/

namespace IrCtl

open Transition

/-- Where `soft_timer` is: in the delay it begins with, or in one of its loop. -/
inductive Timer where
  | starting
  | looping (times : Int)
  deriving DecidableEq, Repr

/-- The end of a delay: `soft_timer` behind it, and what it stores to `gtick`. -/
def Timer.wake (net : Net) (gtick : Int) : Timer → Option (Timer × Int)
  | .starting => (timeStamp net).map fun stamp => (.looping 0, stamp)
  | .looping times =>
    if times > 12 * 3600 then (timeStamp net).map fun stamp => (.looping 0, stamp)
    else some (.looping (times + 5), gtick + 5)

def Timer.Syncs : Timer → Prop
  | .starting => True
  | .looping times => 12 * 3600 < times

theorem wake_of_syncs {t : Timer} (syncs : t.Syncs) (net : Net) (gtick : Int) :
    t.wake net gtick = (timeStamp net).map fun stamp => (.looping 0, stamp) := by
  cases t with
  | starting => rfl
  | looping times => exact if_pos syncs

theorem wake_of_counts {times : Int} (counts : ¬ (Timer.looping times).Syncs) (net : Net)
    (gtick : Int) :
    (Timer.looping times).wake net gtick = some (.looping (times + 5), gtick + 5) :=
  if_neg counts

theorem wake_loops {t t' : Timer} {net : Net} {gtick gtick' : Int}
    (woke : t.wake net gtick = some (t', gtick')) : ∃ times, t' = .looping times := by
  by_cases syncs : t.Syncs
  · rw [wake_of_syncs syncs, Option.map_eq_some_iff] at woke
    obtain ⟨stamp, -, same⟩ := woke
    cases same
    exact ⟨0, rfl⟩
  · cases t with
    | starting => exact absurd trivial syncs
    | looping times =>
      rw [wake_of_counts syncs] at woke
      cases woke
      exact ⟨times + 5, rfl⟩

/-! ### What a sync stores -/

/-- The clock had there been no sync: a turn adds its five seconds. -/
def Timer.kept (gtick : Int) : Timer → Int
  | .starting => gtick
  | .looping _ => gtick + 5

/-- A sync stores the time of a complete reply, or nothing new, exactly when the
field the time is taken from was read last from one complete reply. -/
theorem wake_syncSound_iff {net : Net} {t t' : Timer} {gtick gtick' : Int} (syncs : t.Syncs)
    (woke : t.wake net gtick = some (t', gtick')) :
    SyncSound (List.ofFn net.servers) (t.kept gtick) gtick' ↔
      FieldIntact (List.ofFn net.servers) (t.kept gtick) := by
  rw [wake_of_syncs syncs, Option.map_eq_some_iff] at woke
  obtain ⟨stamp, returned, same⟩ := woke
  cases same
  exact timeStamp_syncSound_iff_fieldIntact returned

/-- A network in which no host is found. -/
def silentNet : Net := ⟨3, fun _ => ⟨false, 0, 48, .failed⟩⟩

theorem wake_syncSound_iff_silent :
    SyncSound (List.ofFn silentNet.servers) 0 (-2208960000) ↔
      FieldIntact (List.ofFn silentNet.servers) 0 := by
  have syncs : Timer.starting.Syncs := trivial
  have woke : Timer.starting.wake silentNet 0 = some (.looping 0, -2208960000) := by decide
  exact wake_syncSound_iff syncs woke

/-- Without any reply the clock is set from the zeroes of the request. -/
theorem wake_takes_zeroed_packet :
    ∃ t' gtick', (Timer.looping 43205).wake silentNet noon = some (t', gtick') ∧
      ¬ SyncSound (List.ofFn silentNet.servers) ((Timer.looping 43205).kept noon) gtick' := by
  refine ⟨.looping 0, -2208960000, by decide, ?_⟩
  have none_replies : ∀ reply, ¬ Replies (List.ofFn silentNet.servers) reply := by
    rintro reply ⟨server, member, whole⟩
    have empty : delivered server = [] := by
      obtain ⟨i, rfl⟩ := List.mem_ofFn.mp member
      rfl
    have length := congrArg List.length whole
    simp [empty] at length
  rintro (⟨reply, replies, -⟩ | ⟨-, kept⟩)
  · exact none_replies reply replies
  · exact absurd kept (by decide)

/-! ### Periods of five seconds -/

/-- The device with what has happened since the last sync. -/
structure Kept where
  world : World
  timer : Timer
  -- the value that sync has stored, and the periods elapsed since
  stamp : Int
  periods : Nat
  -- those of them that found the soft_timer suspended
  missed : Nat
  -- turns that a resume has brought on before their time
  early : Nat

/-- What happens to the device: five seconds elapse, or a message is handled.
Whether the delay of a task that is resumed is over at once is left open:
`wakes` is then the network its turn meets. -/
inductive KeptAct where
  | period (net : Net)
  | message (message : MqttEvent) (requestId : List UInt8) (wakes : Option Net)

/-- A turn of the loop of `soft_timer`, or the sync it begins with. -/
def Kept.turn (net : Net) (s : Kept) : Option Kept :=
  (s.timer.wake net s.world.gtick).map fun (timer, gtick) =>
    match s.timer with
    | .starting =>
      { s with
        world := { s.world with gtick := gtick }
        timer := timer, stamp := gtick, periods := 0, missed := 0, early := 0 }
    | .looping times =>
      let s := { s with world := (s.world.exec (softTimerTurn gtick)).2, timer := timer }
      if times > 12 * 3600 then { s with stamp := gtick, periods := 0, missed := 0, early := 0 }
      else s

def keptStep (cj : CJson) (s : Kept) : KeptAct → Option Kept
  | .period net =>
    let s := { s with periods := s.periods + 1 }
    if s.world.suspended then some { s with missed := s.missed + 1 } else s.turn net
  | .message message requestId wakes =>
    let world := (s.world.exec (mqttDataEventHandler cj message requestId)).2
    let after := { s with world := world }
    match wakes with
    | some net =>
      if s.world.suspended && !world.suspended then
        { after with early := after.early + 1 }.turn net
      else some after
    | none => some after

/-- The device behind a sync. -/
def Kept.atSync (w : World) : Kept := ⟨w, .looping 0, w.gtick, 0, 0, 0⟩

/-- The clock is the time of the last sync and the time elapsed since, and that
sync is less than twelve hours and ten seconds ago. -/
def Kept.ClockRight (s : Kept) : Prop :=
  s.world.gtick = s.stamp + 5 * s.periods ∧ 5 * s.periods < 12 * 3600 + 10

/-- The turns since the last sync are the periods less those missed, and those
that came early. -/
structure Counted (s : Kept) (turns : Nat) : Prop where
  times : s.timer = .looping (5 * turns)
  gtick : s.world.gtick = s.stamp + 5 * turns
  noted : turns + s.missed = s.periods + s.early
  bound : 5 * turns ≤ 12 * 3600 + 5

theorem Counted.clockRight_iff {s : Kept} {turns : Nat} (counted : Counted s turns) :
    s.ClockRight ↔ s.missed = s.early := by
  have gtick := counted.gtick
  have noted := counted.noted
  have bound := counted.bound
  rw [Kept.ClockRight, gtick]
  omega

theorem softTimerTurn_gtick (gtick : Int) (w : World) :
    (w.exec (softTimerTurn gtick)).2.gtick = gtick := by
  rw [exec_softTimerTurn, (call_frame _ _).1]

theorem handler_gtick (cj : CJson) (message : MqttEvent) (requestId : List UInt8) (w : World) :
    (w.exec (mqttDataEventHandler cj message requestId)).2.gtick = w.gtick := by
  obtain ⟨w', switched, ends⟩ := exec_handler cj message requestId w
  rw [ends]
  exact switched.gtick

/-- A turn counts itself, or starts the count again; the period or the resume
that brings it on is noted before. -/
theorem Counted.turn {s s' : Kept} (turns : Nat) {net : Net} (times : s.timer = .looping (5 * turns))
    (gtick : s.world.gtick = s.stamp + 5 * turns)
    (noted : turns + 1 + s.missed = s.periods + s.early) (turned : s.turn net = some s') :
    ∃ turns', Counted s' turns' := by
  rw [Kept.turn, Option.map_eq_some_iff] at turned
  obtain ⟨⟨timer, stored⟩, woke, rfl⟩ := turned
  rw [times] at woke ⊢
  dsimp only
  by_cases syncs : (Timer.looping (5 * turns)).Syncs
  · have late : (5 * turns : Int) > 12 * 3600 := syncs
    rw [wake_of_syncs syncs, Option.map_eq_some_iff] at woke
    obtain ⟨stamp, -, same⟩ := woke
    cases same
    rw [if_pos late]
    exact ⟨0, rfl, by simp [softTimerTurn_gtick], rfl, by decide⟩
  · have counts : ¬ (5 * turns : Int) > 12 * 3600 := syncs
    rw [wake_of_counts syncs] at woke
    cases woke
    rw [if_neg counts]
    refine ⟨turns + 1, ?_, ?_, noted, by omega⟩
    · dsimp only
      congr 1
    · rw [softTimerTurn_gtick, gtick]
      dsimp only
      omega

theorem keptStep_counted {cj : CJson} {s s' : Kept} {a : KeptAct}
    (counted : ∃ turns, Counted s turns) (stepped : keptStep cj s a = some s') :
    ∃ turns, Counted s' turns := by
  obtain ⟨turns, times, gtick, noted, bound⟩ := counted
  cases a with
  | period net =>
    simp only [keptStep] at stepped
    split at stepped
    · cases stepped
      exact ⟨turns, times, gtick, by dsimp only; omega, bound⟩
    · apply Counted.turn turns ?_ ?_ ?_ stepped
      · exact times
      · exact gtick
      · dsimp only
        omega
  | message message requestId wakes =>
    have same := handler_gtick cj message requestId s.world
    cases wakes with
    | none =>
      cases stepped
      exact ⟨turns, times, same.trans gtick, noted, bound⟩
    | some net =>
      simp only [keptStep] at stepped
      split at stepped
      · apply Counted.turn turns ?_ ?_ ?_ stepped
        · exact times
        · exact same.trans gtick
        · dsimp only
          omega
      · cases stepped
        exact ⟨turns, times, same.trans gtick, noted, bound⟩

/-- From a sync on, the clock is right throughout exactly when at every moment
as many periods have been missed as turns came early: none, if the timer is
never suspended when a period ends and a resume lets its delay run on. -/
theorem keptStep_clockRight_iff (cj : CJson) (w : World) (as : List KeptAct) :
    Visits (keptStep cj) Kept.ClockRight (.atSync w) as ↔
      Visits (keptStep cj) (fun s => s.missed = s.early) (.atSync w) as := by
  apply visits_congr (I := fun s => ∃ turns, Counted s turns)
  · rintro s ⟨turns, counted⟩
    exact counted.clockRight_iff
  · intro s a s' counted stepped
    exact keptStep_counted counted stepped
  · exact ⟨0, rfl, by simp [Kept.atSync], rfl, by decide⟩

/-- A period elapses while the timer is suspended. -/
theorem keptStep_stops_clock :
    ¬ Visits (keptStep flatCJson) Kept.ClockRight (.atSync (.boot noon))
      [.message ⟨payload "soft_sus", none, 0⟩ [0] none, .period silentNet] := by
  intro visits
  obtain ⟨s, reached, stored, stamp, periods⟩ : ∃ s,
      run (keptStep flatCJson) (.atSync (.boot noon))
        [.message ⟨payload "soft_sus", none, 0⟩ [0] none, .period silentNet] = some s ∧
      s.world.gtick = noon ∧ s.stamp = noon ∧ s.periods = 1 :=
    ⟨_, rfl, rfl, rfl, rfl⟩
  have right := (visits_last visits reached).1
  rw [stored, stamp, periods] at right
  exact absurd right (by decide)

end IrCtl

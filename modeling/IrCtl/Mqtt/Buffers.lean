import IrCtl.StartUp

/-!
# Texts in their buffers

The handler prints into `status_str`, which has 32 bytes, and `chartime`, which
has 60; `ctime` prints into 26 bytes of its own. What the clock and the
configuration are when they do.
-/

namespace IrCtl

open CString Program Transition

/-! ### How long a text is -/

/-- A clock no further from 1970 than a field of 32 bits and a run without sync
take it. -/
def InEra (gtick : Int) : Prop := -2208960000 ≤ gtick ∧ gtick ≤ 2086007295 + 43205

theorem year_bounds {gtick : Int} (era : InEra gtick) :
    0 ≤ 1900 + (localtime gtick).tmYear ∧ 1900 + (localtime gtick).tmYear < 10000 := by
  obtain ⟨low, high⟩ := era
  simp only [localtime, civil]
  split <;> omega

theorem ctime_length {gtick : Int} (era : InEra gtick) : (ctime gtick).length ≤ 25 := by
  obtain ⟨low, high⟩ := year_bounds era
  obtain ⟨year, same⟩ := Int.eq_ofNat_of_zero_le low
  have digits : (decimal (1900 + (localtime gtick).tmYear)).length ≤ 4 := by
    rw [same]
    exact (decimal_length_le_iff year (by decide)).mpr (by omega)
  have newline : (lit "\n").length = 1 := rfl
  have columns := ctimePieces_widths gtick
  rw [ctime_eq, List.length_append, List.length_flatten, columns, List.length_append, newline]
  simp only [List.sum_cons, List.sum_nil]
  omega

/-! ### What the handler prints -/

/-- The clock is one `ctime` can print, and every text published fits, with its
NUL, the smaller of the handler's two buffers. -/
structure TextsFit (w : World) : Prop where
  clock : InEra w.gtick
  texts : ∀ m ∈ w.pubs, m.2.length + 1 ≤ 32

theorem quoted_length (text : CStr) :
    (lit "\x7b\"" ++ text ++ lit "\"\x7d").length = text.length + 4 := by
  have front : (lit "\x7b\"").length = 2 := rfl
  have back : (lit "\"\x7d").length = 2 := rfl
  rw [List.length_append, List.length_append, front, back]
  omega

theorem timeStr_fits {gtick : Int} (era : InEra gtick) : (timeStr gtick).length + 1 ≤ 32 := by
  have text := ctime_length era
  rw [timeStr, quoted_length]
  omega

theorem temp_length (cfg : AcCfg) : (decimal cfg.temp.toNat).length ≤ 3 := by
  have byte : cfg.temp.toNat < 256 := cfg.temp.isLt
  exact (decimal_length_le_iff cfg.temp.toNat (by decide)).mpr (by omega)

theorem power_length (cfg : AcCfg) : (power cfg).length ≤ 5 := by
  unfold power
  split <;> decide

theorem statusStr_fits (cfg : AcCfg) : (statusStr cfg).length + 1 ≤ 32 := by
  have word := power_length cfg
  have temp := temp_length cfg
  have front : (lit "\x7b\"").length = 2 := rfl
  have middle : (lit ", t = ").length = 6 := rfl
  have back : (lit "\"\x7d").length = 2 := rfl
  simp only [statusStr, List.length_append, front, middle, back]
  omega

theorem toggleStr_fits (cfg : AcCfg) : (toggleStr cfg).length + 1 ≤ 32 := by
  have word := power_length cfg
  rw [toggleStr, quoted_length]
  omega

theorem tempStr_fits (cfg : AcCfg) : (tempStr cfg).length + 1 ≤ 32 := by
  have temp := temp_length cfg
  have front : (lit "\x7b\"T = ").length = 6 := rfl
  have back : (lit "\"\x7d").length = 2 := rfl
  simp only [tempStr, List.length_append, front, back]
  omega

/-! ### The operations of the tasks -/

/-- The operations that leave the clock and the messages as they are. -/
def Inward : Op → Prop
  | .ac _ | .gtick | .heap _ | .suspend | .resume => True
  | .setGtick _ | .publish _ _ => False

theorem TextsFit.inward {w : World} (fit : TextsFit w) {o : Op} (inward : Inward o) :
    TextsFit (World.perform o w).2 := by
  cases o with
  | ac call =>
    obtain ⟨gtick, pubs, -, -⟩ := call_frame w call
    have clock : InEra (w.call call).gtick := by
      rw [gtick]
      exact fit.clock
    refine ⟨clock, ?_⟩
    change ∀ m ∈ (w.call call).pubs, m.2.length + 1 ≤ 32
    rw [pubs]
    exact fit.texts
  | gtick => exact fit
  | heap h => exact ⟨fit.clock, fit.texts⟩
  | suspend => exact ⟨fit.clock, fit.texts⟩
  | resume => exact ⟨fit.clock, fit.texts⟩
  | setGtick g => cases inward
  | publish topic data => cases inward

theorem TextsFit.publish {w : World} (fit : TextsFit w) (topic : CStr) {data : CStr}
    (short : data.length + 1 ≤ 32) : TextsFit (World.perform (.publish topic data) w).2 := by
  refine ⟨fit.clock, ?_⟩
  intro m member
  rcases List.mem_append.mp member with old | new
  · exact fit.texts m old
  · rw [List.mem_singleton.mp new]
    exact short

theorem keeps_of_inward {α : Type} {p : Prog α} (inward : p.Performs Inward fun _ => True) :
    p.Keeps World.perform TextsFit fun _ => True := by
  induction p with
  | ret a => trivial
  | op o k ih => exact fun w fit => ⟨fit.inward inward.1, ih _ (inward.2 _)⟩

theorem publish_keeps (topic : CStr) {data : CStr} (short : data.length + 1 ≤ 32) :
    (publish topic data).Keeps World.perform TextsFit fun _ => True :=
  fun _ fit => ⟨fit.publish topic short, trivial⟩

theorem adjustArm_keeps (by_ : U8) (cfg : AcCfg) :
    (adjustArm by_ cfg).Keeps World.perform TextsFit fun _ => True := by
  intro w fit
  refine ⟨fit, fun w' fit' => ⟨fit'.inward trivial, ?_⟩⟩
  exact publish_keeps acPub (tempStr_fits _)

theorem switchCmd_keeps (code : Int) (cfg : AcCfg) :
    (switchCmd code cfg).Keeps World.perform TextsFit fun _ => True := by
  have undefined : defaultArm.Keeps World.perform TextsFit fun _ => True :=
    publish_keeps _ (by decide)
  induction code using cmdCode_cases with
  | other code outside =>
    rw [switchCmd_other outside]
    exact undefined
  | known i =>
    fin_cases i
    · exact fun w fit => ⟨fit.inward trivial, publish_keeps acPub (by decide)⟩
    · exact fun w fit => ⟨fit.inward trivial, publish_keeps acPub (by decide)⟩
    · -- the clock read is that of the store
      exact fun w fit => ⟨fit, publish_keeps acPub (timeStr_fits fit.clock)⟩
    · exact publish_keeps acPub (statusStr_fits cfg)
    · exact fun w fit => ⟨fit.inward trivial, publish_keeps acPub (toggleStr_fits _)⟩
    · exact adjustArm_keeps 1 cfg
    · exact adjustArm_keeps (-1) cfg
    · exact fun w fit => ⟨fit.inward trivial, publish_keeps acPub (by decide)⟩
    · -- `soft_res` falls through to the default arm
      refine fun w fit => ⟨fit.inward trivial, fun w' fit' => ?_⟩
      exact ⟨fit'.publish acPub (by decide), undefined⟩

theorem jsonParse_inward (cj : CJson) (data : List UInt8) :
    (jsonParse cj data).Performs Inward fun _ => True := by
  unfold jsonParse hdlFree
  cases cj.parse (ofMem data) with
  | none => simp
  | some tree =>
    cases found : cj.getObjectItem tree (lit "cmd") with
    | none => simp [found, heapOp, Inward]
    | some cmd =>
      cases index : cmdIndex (cj.print cmd) with
      | none => simp [found, index, heapOp, Inward]
      | some i => simp [found, index, heapOp, Inward]

theorem handler_keeps (cj : CJson) (event : MqttEvent) (requestId : List UInt8) :
    (mqttDataEventHandler cj event requestId).Keeps World.perform TextsFit fun _ => True := by
  refine (keeps_of_inward (jsonParse_inward cj event.data)).bind fun code _ => ?_
  -- the configuration read is arbitrary to the arms: any one prints short enough
  intro w fit
  refine ⟨fit, (switchCmd_keeps code w.cfg).bind fun _ _ => ?_⟩
  simp only [respond]
  split
  · exact publish_keeps _ (by simp [response]; decide)
  · trivial

/-! ### The clock from start-up on -/

/-- A clock `times` seconds behind a sync at most. -/
def ClockWithin (times gtick : Int) : Prop :=
  -2208960000 ≤ gtick ∧ gtick ≤ 2086007295 + times

theorem inEra_of_within {times gtick : Int} (since : ClockWithin times gtick)
    (counts : times ≤ 12 * 3600 + 5) : InEra gtick :=
  ⟨since.1, by have high := since.2; omega⟩

theorem ntpSeconds_within (b40 b41 b42 b43 : U8) : ClockWithin 0 (ntpSeconds b40 b41 b42 b43) := by
  have bound := (b40 ++ b41 ++ b42 ++ b43 : BitVec 32).isLt
  rw [ntpSeconds, ClockWithin]
  omega

theorem timeStamp_within {net : Net} {stamp : Int} (told : timeStamp net = some stamp) :
    ClockWithin 0 stamp := by
  rw [timeStamp, Option.ite_none_left_eq_some] at told
  obtain ⟨-, value⟩ := told
  -- whatever four bytes stand in the field
  rw [← Option.some.inj value, txTm_askServers]
  exact ntpSeconds_within _ _ _ _

/-- The seconds counted since the last sync. -/
def Timer.counted : Timer → Int
  | .starting => 0
  | .looping times => times

theorem wake_within {t t' : Timer} {net : Net} {gtick gtick' : Int}
    (woke : t.wake net gtick = some (t', gtick')) (before : ClockWithin t.counted gtick)
    (some : 0 ≤ t.counted) :
    ClockWithin t'.counted gtick' ∧ 0 ≤ t'.counted ∧ t'.counted ≤ 12 * 3600 + 5 := by
  by_cases syncs : t.Syncs
  · rw [wake_of_syncs syncs, Option.map_eq_some_iff] at woke
    obtain ⟨stamp, told, same⟩ := woke
    cases same
    exact ⟨timeStamp_within told, Int.le_refl 0, by decide⟩
  · cases t with
    | starting => exact absurd trivial syncs
    | looping times =>
      rw [wake_of_counts syncs] at woke
      cases woke
      have counts : ¬ 12 * 3600 < times := syncs
      simp only [Timer.counted, ClockWithin] at before some ⊢
      omega

def NoClock (o : Op) : Prop := ∀ gtick, o ≠ .setGtick gtick

theorem Inward.noClock {o : Op} (inward : Inward o) : NoClock o := by
  rintro gtick rfl
  cases inward

theorem switchCmd_noClock (code : Int) (cfg : AcCfg) :
    (switchCmd code cfg).Performs NoClock fun _ => True := by
  induction code using cmdCode_cases with
  | other code outside => simp [switchCmd_other outside, defaultArm, publish, NoClock]
  | known i =>
    fin_cases i <;>
      simp [switchCmd, acOpen, acClose, acWriteCfg, adjustArm, timeInSleep, softTimerSuspend,
        softTimerResume, defaultArm, publish, NoClock]

theorem handler_noClock (cj : CJson) (event : MqttEvent) (requestId : List UInt8) :
    (mqttDataEventHandler cj event requestId).Performs NoClock fun _ => True := by
  have parse := (jsonParse_inward cj event.data).imp fun _ inward => inward.noClock
  refine parse.bind fun code _ => ⟨by simp [NoClock], fun cfg => ?_⟩
  refine (switchCmd_noClock code cfg).bind fun _ _ => ?_
  simp only [respond]
  split <;> simp [publish, NoClock]

theorem acWeeklayyerAdjust_inward (tm : Tm) :
    (acWeeklayyerAdjust tm).Performs Inward fun _ => True := by
  simp only [acWeeklayyerAdjust]
  split
  · rw [acInWorkdayAdjust_eq]
    simp [acWriteCfg, Inward]
  · trivial

theorem softTimerTurn_keeps {gtick : Int} (era : InEra gtick) :
    (softTimerTurn gtick).Keeps World.perform TextsFit fun _ => True :=
  fun _ fit => ⟨⟨era, fit.texts⟩, keeps_of_inward (acWeeklayyerAdjust_inward (localtime gtick))⟩

/-- The first operation of a turn stores the clock, no other does. -/
theorem softTimerTurn_eq (gtick : Int) :
    softTimerTurn gtick = .op (.setGtick gtick) fun _ => acWeeklayyerAdjust (localtime gtick) := rfl

theorem perform_gtick {o : Op} (noClock : NoClock o) (w : World) :
    (World.perform o w).2.gtick = w.gtick := by
  cases o with
  | ac call => exact (call_frame w call).1
  | setGtick gtick => exact absurd rfl (noClock gtick)
  | gtick => rfl
  | publish topic data => rfl
  | heap h => rfl
  | suspend => rfl
  | resume => rfl

def StartUp.counted (s : StartUp) : Int := (s.timer.map Timer.counted).getD 0

/-- All that is published fits; and the clock the soft_timer is about to store,
or has stored, is no further from its last sync than it has counted. -/
structure Printable (s : StartUp) : Prop where
  keeps : s.tasks.Keeps World.perform TextsFit
  mqtt : (s.tasks.prog .mqtt).Performs NoClock fun _ => True
  counted : 0 ≤ s.counted ∧ s.counted ≤ 12 * 3600 + 5
  -- between a wake-up and the first operation of its turn the store is still old
  clock : ∃ gtick, ClockWithin s.counted gtick ∧
    (s.tasks.prog .softTimer = softTimerTurn gtick ∨
      s.tasks.store.gtick = gtick ∧ (s.tasks.prog .softTimer).Performs NoClock fun _ => True)

theorem StartUp.boot_printable : Printable .boot := by
  have fit : TextsFit (World.boot 0) :=
    ⟨by simp [InEra, World.boot], fun m member => by cases member⟩
  refine ⟨⟨fit, fun _ => trivial⟩, trivial, by decide, 0, by simp [ClockWithin, StartUp.counted,
    StartUp.boot], Or.inr ⟨rfl, trivial⟩⟩

section Steps

variable {cj : CJson} {s s' : StartUp} {a : StartUpAct}

theorem Printable.wake {net : Net} (printable : Printable s) (woke : s.wake net = some s') :
    Printable s' := by
  have apart : Tid.mqtt ≠ Tid.softTimer := by decide
  obtain ⟨keeps, mqtt, counted, gtick, before, clock⟩ := printable
  simp only [StartUp.wake, Option.ite_none_right_eq_some] at woke
  obtain ⟨-, woke⟩ := woke
  split at woke
  · cases woke
  · -- the first wake-up stores the answer itself
    next here =>
    obtain ⟨⟨timer, stamp⟩, stored, rfl⟩ := Option.map_eq_some_iff.mp woke
    have syncs : Timer.starting.Syncs := trivial
    rw [wake_of_syncs syncs, Option.map_eq_some_iff] at stored
    obtain ⟨_, told, same⟩ := stored
    cases same
    have since := timeStamp_within told
    have anew : (0 : Int) ≤ 0 ∧ (0 : Int) ≤ 12 * 3600 + 5 := by decide
    refine ⟨⟨⟨inEra_of_within since (by decide), keeps.1.texts⟩, keeps.2⟩, mqtt, anew, ?_⟩
    rcases clock with pending | ⟨-, done⟩
    · have none_yet : s.counted = 0 := by rw [StartUp.counted, here]; rfl
      rw [none_yet] at before
      exact ⟨gtick, before, Or.inl pending⟩
    · exact ⟨stamp, since, Or.inr ⟨rfl, done⟩⟩
  · next times here =>
    obtain ⟨⟨timer, gtick'⟩, turned, started⟩ := Option.bind_eq_some_iff.mp woke
    obtain ⟨tasks, free, rfl⟩ := Option.map_eq_some_iff.mp started
    obtain ⟨idle, rfl⟩ := Pool.start_some.mp free
    -- a turn that is through has stored its clock
    have now : s.tasks.store.gtick = gtick := by
      rcases clock with pending | ⟨same, -⟩
      · rw [idle] at pending
        cases pending
      · exact same
    have count : s.counted = times := by rw [StartUp.counted, here]; rfl
    rw [count, ← now] at before
    rw [count] at counted
    obtain ⟨after, low, high⟩ := wake_within turned before counted.1
    refine ⟨⟨keeps.1, ?_⟩, ?_, ⟨low, high⟩, gtick', after, ?_⟩
    · rw [Function.forall_update_iff s.tasks.prog fun _ p => p.Keeps World.perform TextsFit fun _ => True]
      exact ⟨softTimerTurn_keeps (inEra_of_within after high), fun u _ => keeps.2 u⟩
    · simpa only [Function.update_of_ne apart] using mqtt
    · exact Or.inl (by simp only [Function.update_self])

theorem Printable.step {t : Tid} {tasks : Tasks Tid} (printable : Printable s)
    (moved : s.tasks.step World.perform t = some tasks) : Printable { s with tasks := tasks } := by
  have apart : Tid.mqtt ≠ Tid.softTimer := by decide
  obtain ⟨keeps, mqtt, counted, gtick, before, clock⟩ := printable
  refine ⟨keeps.step moved, Pool.performs_step moved mqtt, counted, gtick, before, ?_⟩
  obtain ⟨o, k, now, rfl⟩ := Pool.step_some.mp moved
  cases t with
  | mqtt =>
    rw [now] at mqtt
    simpa only [Function.update_of_ne apart.symm, perform_gtick mqtt.1] using clock
  | softTimer =>
    rcases clock with pending | ⟨same, done⟩
    · -- the clock is stored, and not again before the next wake-up
      rw [pending, softTimerTurn_eq] at now
      cases now
      refine Or.inr ⟨rfl, ?_⟩
      simp only [Function.update_self]
      exact (acWeeklayyerAdjust_inward _).imp fun _ inward => inward.noClock
    · refine Or.inr ⟨?_, Pool.performs_step moved done⟩
      rw [now] at done
      exact (perform_gtick done.1 _).trans same

theorem startUpStep_printable (inv : StartUpInv cj s) (printable : Printable s)
    (stepped : startUpStep cj s a = some s') : Printable s' := by
  have apart : Tid.mqtt ≠ Tid.softTimer := by decide
  have same := printable
  obtain ⟨keeps, mqtt, counted, clock⟩ := printable
  cases a with
  | wake net =>
    simp only [startUpStep, Option.ite_none_left_eq_some] at stepped
    exact same.wake stepped.2
  | main =>
    cases startUpStep_cases stepped with
    | register here after => rw [after]; exact ⟨keeps, mqtt, counted, clock⟩
    | start here after => rw [after]; exact ⟨keeps, mqtt, counted, clock⟩
    | init here after =>
      -- the task has not counted before it exists
      have absent : s.timer = none := by
        have exists_ := inv.timer
        rw [here] at exists_
        simpa using exists_
      have zero : s.counted = 0 := by
        rw [StartUp.counted, absent]
        rfl
      rw [zero] at counted clock
      rw [after]
      exact ⟨keeps, mqtt, counted, clock⟩
  | message message requestId =>
    cases startUpStep_cases stepped with
    | message _ _ running after =>
      rw [after]
      obtain ⟨gtick, before, clock⟩ := clock
      refine ⟨⟨keeps.1, ?_⟩, ?_, counted, gtick, before, ?_⟩
      · rw [Function.forall_update_iff s.tasks.prog fun _ p =>
          p.Keeps World.perform TextsFit fun _ => True]
        exact ⟨handler_keeps cj message requestId, fun u _ => keeps.2 u⟩
      · simp only [Function.update_self]
        exact handler_noClock cj message requestId
      · simpa only [Function.update_of_ne apart.symm] using clock
  | step t =>
    cases startUpStep_cases stepped with
    | null fate running unset o k now timer stops after => rw [after]; exact ⟨keeps, mqtt, counted, clock⟩
    | step _ running tasks moved after =>
      rw [after]
      exact same.step moved

end Steps

theorem startUp_printable {cj : CJson} {as : List StartUpAct} {s : StartUp}
    (reached : run (startUpStep cj) .boot as = some s) : Printable s := by
  have both : StartUpInv cj s ∧ Printable s := by
    apply run_invariant (I := fun s => StartUpInv cj s ∧ Printable s) ?_ ?_ reached
    · rintro s a s' ⟨inv, printable⟩ stepped
      exact ⟨startUpStep_inv inv stepped, startUpStep_printable inv printable stepped⟩
    · exact ⟨StartUp.boot_inv cj, StartUp.boot_printable⟩
  exact both.2

/-- In every run from start-up on, whatever the servers answer and however the
tasks interleave, `ctime` prints its text into 26 bytes, and every text published
fits the buffer the handler prints it into. -/
theorem startUpStep_textsFit (cj : CJson) (as : List StartUpAct) :
    Visits (startUpStep cj)
      (fun s => (ctime s.tasks.store.gtick).length + 1 ≤ 26 ∧
        ∀ m ∈ s.tasks.store.pubs, m.2.length + 1 ≤ 32) .boot as := by
  apply visits_of_reached
  intro bs s reached
  obtain ⟨clock, texts⟩ := (startUp_printable reached).keeps.1
  have text := ctime_length clock
  exact ⟨by omega, texts⟩

/-! ### The time told -/

/-- The clock a reply to `get_time` tells. -/
def readTime (text : CStr) : Int := readCtime ((text.drop 2).take (text.length - 4))

theorem readTime_timeStr {gtick : Int} (era : InEra gtick) : readTime (timeStr gtick) = gtick := by
  have quoted := quoted_length (ctime gtick)
  have front : (lit "\x7b\"").length = 2 := rfl
  have inside : (timeStr gtick).drop 2 = ctime gtick ++ lit "\"\x7d" := by
    rw [timeStr, List.append_assoc, ← front, List.drop_left]
  rw [readTime, inside, timeStr, quoted, Nat.add_sub_cancel, List.take_left]
  exact readCtime_ctime (year_bounds era).1

/-- Throughout such a run the reply to `get_time` reads back as the clock. -/
theorem startUpStep_timeTold (cj : CJson) (as : List StartUpAct) :
    Visits (startUpStep cj)
      (fun s => readTime (timeStr s.tasks.store.gtick) = s.tasks.store.gtick) .boot as := by
  apply visits_of_reached
  intro bs s reached
  exact readTime_timeStr (startUp_printable reached).keeps.1.clock

end IrCtl

import Mathlib.Data.Int.ModEq
import IrCtl.Atomic

/-!
# Lost updates

Both tasks write back a whole configuration they have read earlier. Runs are
recorded item by item and compared with serial runs of the same items; an
update is lost exactly where a write falls on a configuration that is no longer
the one its task has read.
-/

namespace IrCtl

open Transition Program

/-- A stimulus taken up by a task, with the clock value its program has read. -/
structure Item where
  stim : Stim
  clock : Int

def Item.cfg (cj : CJson) (cfg : AcCfg) (i : Item) : AcCfg :=
  (i.stim.plan cj).cfg (timeInSleepAt i.clock) cfg

/-! ### Serial runs -/

def performAt (clock : Int) (o : Op) (w : World) : Op.Res o × World :=
  match o with
  | .gtick => (clock, w)
  | o => World.perform o w

/-- An item run whole, with the clock value it has read. -/
def Item.run (cj : CJson) (w : World) (i : Item) : World :=
  ((i.stim.prog cj).exec (performAt i.clock) w).2

private def cfgAt (clock : Int) (o : Op) (cfg : AcCfg) : Op.Res o × AcCfg :=
  match o with
  | .ac call => (cfg, call.store cfg)
  | .gtick => (clock, cfg)
  | .setGtick _ | .publish _ _ | .heap _ | .suspend | .resume => ((), cfg)

private theorem arm_cfgAt (plan : Plan) (clock : Int) (cfg : AcCfg) :
    ((plan.arm cfg).exec (cfgAt clock) cfg).2 = plan.cfg (timeInSleepAt clock) cfg := by
  cases plan with
  | switch on => cases on <;> rfl
  | _ => rfl

theorem Item.run_cfg (cj : CJson) (w : World) (i : Item) :
    (i.run cj w).cfg = i.cfg cj w.cfg := by
  have viewed : (((i.stim.prog cj).exec (performAt i.clock) w).1,
      ((i.stim.prog cj).exec (performAt i.clock) w).2.cfg) =
      (erase quiet (i.stim.prog cj)).exec (cfgAt i.clock) w.cfg :=
    exec_erase World.cfg ?_ ?_ (i.stim.prog cj) w
  · have stored := (Prod.ext_iff.mp viewed).2
    dsimp only at stored
    rw [Item.run, stored]
    rcases erase_prog cj i.stim with reads | ⟨idle, nothing⟩
    · rw [reads, exec_op]
      exact arm_cfgAt (i.stim.plan cj) i.clock w.cfg
    · rw [idle, Item.cfg, nothing]
      rfl
  · intro o r s known
    cases o <;> first | cases known; done | exact ⟨rfl, rfl⟩
  · intro o s seen
    cases o with
    | ac call => simp [cfgAt, performAt, World.perform]
    | gtick => rfl
    | _ => cases seen

theorem run_items_cfg (cj : CJson) (items : List Item) (w : World) :
    (items.foldl (Item.run cj) w).cfg = items.foldl (Item.cfg cj) w.cfg := by
  induction items generalizing w with
  | nil => rfl
  | cons i items ih => rw [List.foldl_cons, List.foldl_cons, ih, Item.run_cfg]

theorem CfgOk.items {cfg : AcCfg} (ok : CfgOk cfg) (cj : CJson) (items : List Item) :
    CfgOk (items.foldl (Item.cfg cj) cfg) := by
  induction items generalizing cfg with
  | nil => exact ok
  | cons i items ih => exact ih (ok.plan (i.stim.plan cj) (timeInSleepAt i.clock))

/-! ### Recorded runs -/

/-- The tasks, with what each has taken up before, what it is at or was at
last, and the configuration it has read last. -/
structure Traced where
  tasks : Tasks Tid
  past : Tid → List Item
  cur : Tid → Option Item
  snap : Tid → AcCfg

def Traced.log (s : Traced) (t : Tid) : List Item := s.past t ++ (s.cur t).toList

/-- The record of a step to `tasks`. -/
def Traced.note (s : Traced) (tasks : Tasks Tid) : Happening → Traced
  | .take stim =>
    { s with
      tasks := tasks
      past := Function.update s.past stim.tid (s.log stim.tid)
      cur := Function.update s.cur stim.tid (some ⟨stim, 0⟩) }
  | .step t =>
    match s.tasks.prog t with
    | .op (.ac .acReadCfg) _ =>
      { s with tasks := tasks, snap := Function.update s.snap t s.tasks.store.cfg }
    | .op .gtick _ =>
      { s with
        tasks := tasks
        cur := Function.update s.cur t
          ((s.cur t).map fun i => { i with clock := s.tasks.store.gtick }) }
    | _ => { s with tasks := tasks }
  | .clock _ => { s with tasks := tasks }

def tracedStep (cj : CJson) (s : Traced) (a : Happening) : Option Traced :=
  (atomicStep cj s.tasks a).map fun tasks => s.note tasks a

def Traced.boot (gtick : Int) : Traced := ⟨.boot gtick, fun _ => [], fun _ => none, fun _ => gacCfg⟩

/-- What is left of a task's accesses to the configuration and the clock. -/
def Traced.rest (s : Traced) (t : Tid) : Prog Unit := erase quiet (s.tasks.prog t)

structure Same (s s' : Traced) (u : Tid) : Prop where
  past : s'.past u = s.past u
  cur : s'.cur u = s.cur u
  snap : s'.snap u = s.snap u
  rest : s'.rest u = s.rest u

theorem tracedStep_take {cj : CJson} {s s' : Traced} {stim : Stim}
    (stepped : tracedStep cj s (.take stim) = some s') :
    s.rest stim.tid = .ret () ∧ s'.tasks.store = s.tasks.store ∧
      s'.past stim.tid = s.log stim.tid ∧ s'.cur stim.tid = some ⟨stim, 0⟩ ∧
      s'.rest stim.tid = erase quiet (stim.prog cj) ∧
      ∀ u, u ≠ stim.tid → Same s s' u := by
  simp only [tracedStep, atomicStep, Happening.act, tasksStep, Option.map_eq_some_iff,
    Option.ite_none_right_eq_some] at stepped
  obtain ⟨tasks, ⟨-, started⟩, rfl⟩ := stepped
  obtain ⟨idle, rfl⟩ := Pool.start_some.mp started
  refine ⟨?_, rfl, ?_, ?_, ?_, ?_⟩
  · rw [Traced.rest, idle]
    rfl
  · exact Function.update_self ..
  · exact Function.update_self ..
  · simp only [Traced.rest, Traced.note, Function.update_self]
  · intro u other
    constructor
    · exact Function.update_of_ne other ..
    · exact Function.update_of_ne other ..
    · rfl
    · simp only [Traced.rest, Traced.note, Function.update_of_ne other]

/-- What a step of task `t` can be, seen from the configuration. -/
inductive Stepped (s s' : Traced) (t : Tid) : Prop
  | silent (store : s'.tasks.store.cfg = s.tasks.store.cfg) (same : ∀ u, Same s s' u)
  | call (call : AcCall) (k₀ k : AcCfg → Prog Unit)
      (next : s.tasks.prog t = .op (.ac call) k₀) (rest : s.rest t = .op (.ac call) k)
      (store : s'.tasks.store.cfg = call.store s.tasks.store.cfg)
      (past : s'.past t = s.past t) (cur : s'.cur t = s.cur t)
      (snap : s'.snap t = if call = .acReadCfg then s.tasks.store.cfg else s.snap t)
      (rest' : s'.rest t = k s.tasks.store.cfg) (others : ∀ u, u ≠ t → Same s s' u)
  | clock (g : Int) (k : Int → Prog Unit) (rest : s.rest t = .op .gtick k)
      (store : s'.tasks.store.cfg = s.tasks.store.cfg)
      (past : s'.past t = s.past t)
      (cur : s'.cur t = (s.cur t).map fun i => { i with clock := g })
      (snap : s'.snap t = s.snap t)
      (rest' : s'.rest t = k g) (others : ∀ u, u ≠ t → Same s s' u)

theorem tracedStep_step {cj : CJson} {s s' : Traced} {t : Tid}
    (stepped : tracedStep cj s (.step t) = some s') : Stepped s s' t := by
  simp only [tracedStep, atomicStep, Happening.act, tasksStep, Option.map_eq_some_iff,
    Option.ite_none_right_eq_some] at stepped
  obtain ⟨tasks, ⟨-, moved⟩, rfl⟩ := stepped
  obtain ⟨o, k, next, rfl⟩ := Pool.step_some.mp moved
  cases known : quiet o with
  | some r =>
    obtain ⟨answer, cfg, -⟩ := perform_quiet known s.tasks.store
    have note : s.note ⟨(World.perform o s.tasks.store).2,
        Function.update s.tasks.prog t (k (World.perform o s.tasks.store).1)⟩ (.step t) =
        { s with tasks := ⟨(World.perform o s.tasks.store).2,
          Function.update s.tasks.prog t (k (World.perform o s.tasks.store).1)⟩ } := by
      cases o <;> first | cases known; done | simp only [Traced.note, next]
    rw [note]
    refine .silent cfg ?_
    intro u
    refine ⟨rfl, rfl, rfl, ?_⟩
    by_cases mine : u = t
    · subst mine
      simp only [Traced.rest, Function.update_self, next, erase_silent known, answer]
    · simp only [Traced.rest, Function.update_of_ne mine]
  | none =>
    have rest : erase quiet (.op o k) = .op o fun r => erase quiet (k r) := erase_visible known k
    cases o with
    | ac call =>
      refine .call call k (fun cfg => erase quiet (k cfg)) next ?_ ?_ ?_ ?_ ?_ ?_ ?_
      · rw [Traced.rest, next, rest]
      · cases call <;> simp [Traced.note, next, World.perform]
      · cases call <;> simp [Traced.note, next]
      · cases call <;> simp [Traced.note, next]
      · cases call <;> simp [Traced.note, next]
      · cases call <;> simp [Traced.note, next, Traced.rest, World.perform]
      · intro u other
        constructor
        · cases call <;> simp [Traced.note, next]
        · cases call <;> simp [Traced.note, next]
        · cases call <;> simp [Traced.note, next, other]
        · cases call <;> simp [Traced.note, next, Traced.rest, other]
    | gtick =>
      refine .clock s.tasks.store.gtick (fun g => erase quiet (k g)) ?_ ?_ ?_ ?_ ?_ ?_ ?_
      · rw [Traced.rest, next, rest]
      · simp [Traced.note, next, World.perform]
      · simp [Traced.note, next]
      · simp [Traced.note, next]
      · simp [Traced.note, next]
      · simp [Traced.note, next, Traced.rest, World.perform]
      · intro u other
        constructor
        · simp [Traced.note, next]
        · simp [Traced.note, next, other]
        · simp [Traced.note, next]
        · simp [Traced.note, next, Traced.rest, other]
    | _ => cases known

/-! ### The invariant -/

/-- Plans that read the clock between the configuration and the write. -/
def Plan.timed : Plan → Bool
  | .adjust _ | .schedule _ => true
  | _ => false

/-- A plan with nothing to do behind the read leaves the configuration as it is. -/
theorem cfg_of_arm_ret {plan : Plan} {cfg : AcCfg} (idle : plan.arm cfg = .ret ()) (asleep : Int) :
    plan.cfg asleep cfg = cfg := by
  cases plan with
  | nothing => rfl
  | look => rfl
  | switch on => cases on <;> cases idle
  | toggle => cases idle
  | adjust by_ => cases idle
  | schedule tm => cases idle

/-- A call that stands first behind the read is a switch or the write of a
toggle, and ends the program. -/
theorem arm_call {plan : Plan} {cfg : AcCfg} {call : AcCall} {k : AcCfg → Prog Unit}
    (behind : plan.arm cfg = .op (.ac call) k) :
    (plan = .toggle ∧ call = .acWriteCfg (toggled cfg) ∨
      ∀ asleep stored, plan.cfg asleep stored = call.store stored) ∧
    ∀ answer, k answer = .ret () := by
  cases plan with
  | nothing => cases behind
  | look => cases behind
  | switch on => cases on <;> cases behind <;> exact ⟨Or.inr fun _ _ => rfl, fun _ => rfl⟩
  | toggle =>
    cases behind
    exact ⟨Or.inl ⟨rfl, rfl⟩, fun _ => rfl⟩
  | adjust by_ => cases behind
  | schedule tm => cases behind

/-- The clock is read by a `get_time`, that ends with it, or before the write of
a timed plan. -/
theorem arm_gtick {plan : Plan} {cfg : AcCfg} {k : Int → Prog Unit}
    (behind : plan.arm cfg = .op .gtick k) (g : Int) :
    (∀ asleep stored, plan.cfg asleep stored = stored) ∧ k g = .ret () ∨
      plan.timed = true ∧ k g = acWriteCfg (plan.cfg (timeInSleepAt g) cfg) := by
  cases plan with
  | nothing => cases behind
  | look =>
    cases behind
    exact Or.inl ⟨fun _ _ => rfl, rfl⟩
  | switch on => cases on <;> cases behind
  | toggle => cases behind
  | adjust by_ =>
    cases behind
    exact Or.inr ⟨rfl, rfl⟩
  | schedule tm =>
    cases behind
    exact Or.inr ⟨rfl, rfl⟩

/-- Where a task stands: at no item, or before the read, behind it, or before
the write of one. -/
def Stage (cj : CJson) (cur : Option Item) (snap : AcCfg) (rest : Prog Unit) : Prop :=
  rest = .ret () ∨ ∃ i, cur = some i ∧
    ((rest = .op (.ac .acReadCfg) fun cfg => (i.stim.plan cj).arm cfg) ∨
      rest = (i.stim.plan cj).arm snap ∨
      (i.stim.plan cj).timed = true ∧ rest = acWriteCfg (i.cfg cj snap))

def Traced.finished (s : Traced) (t : Tid) : List Item :=
  match s.rest t with
  | .ret _ => s.log t
  | .op _ _ => s.past t

/-- A task that still uses the configuration it has read. -/
def holding : Prog Unit → Bool
  | .ret _ => false
  | .op (.ac .acReadCfg) _ => false
  | .op _ _ => true

/-- `ord` is a serial order of the items finished so far. `window` splits it at
the read of the handler under way: behind it only turns have finished. -/
structure Serialized (cj : CJson) (s : Traced) (ord : List Item) : Prop where
  result : ord.foldl (Item.cfg cj) gacCfg = s.tasks.store.cfg
  order : ∀ t, ord.filter (fun i => i.stim.tid = t) = s.finished t
  own : ∀ t i, s.cur t = some i → i.stim.tid = t
  stage : ∀ t, Stage cj (s.cur t) (s.snap t) (s.rest t)
  window : holding (s.rest .mqtt) = true → ∃ pre win, ord = pre ++ win ∧
    (∀ i ∈ win, i.stim.tid = .softTimer) ∧ pre.foldl (Item.cfg cj) gacCfg = s.snap .mqtt

section Serialized

variable {cj : CJson} {s s' : Traced} {ord pre win : List Item} {t : Tid}

theorem Same.finished {u : Tid} (same : Same s s' u) : s'.finished u = s.finished u := by
  simp only [Traced.finished, Traced.log, same.rest, same.past, same.cur]

theorem finished_of_ret (idle : s.rest t = .ret ()) : s.finished t = s.log t := by
  simp only [Traced.finished, idle]

theorem finished_of_op {o : Op} {k : Op.Res o → Prog Unit} (busy : s.rest t = .op o k) :
    s.finished t = s.past t := by
  simp only [Traced.finished, busy]

theorem Serialized.own_step (ser : Serialized cj s ord) (others : ∀ u, u ≠ t → Same s s' u)
    (own : ∀ i, s'.cur t = some i → i.stim.tid = t) (u : Tid) (i : Item)
    (now : s'.cur u = some i) : i.stim.tid = u := by
  by_cases mine : u = t
  · subst mine
    exact own i now
  · rw [(others u mine).cur] at now
    exact ser.own u i now

theorem Serialized.stage_step (ser : Serialized cj s ord) (others : ∀ u, u ≠ t → Same s s' u)
    (stage : Stage cj (s'.cur t) (s'.snap t) (s'.rest t)) (u : Tid) :
    Stage cj (s'.cur u) (s'.snap u) (s'.rest u) := by
  by_cases mine : u = t
  · subst mine
    exact stage
  · rw [(others u mine).cur, (others u mine).snap, (others u mine).rest]
    exact ser.stage u

/-- Nothing finishes: the task moves within its item, all else is the same. -/
theorem Serialized.stay (ser : Serialized cj s ord)
    (store : s'.tasks.store.cfg = s.tasks.store.cfg)
    (finished : s'.finished t = s.finished t)
    (own : ∀ i, s'.cur t = some i → i.stim.tid = t)
    (stage : Stage cj (s'.cur t) (s'.snap t) (s'.rest t))
    (window : t = .mqtt → holding (s'.rest .mqtt) = true →
      s'.snap .mqtt = s.tasks.store.cfg ∨
        holding (s.rest .mqtt) = true ∧ s'.snap .mqtt = s.snap .mqtt)
    (others : ∀ u, u ≠ t → Same s s' u) : Serialized cj s' ord := by
  refine ⟨?_, ?_, ser.own_step others own, ser.stage_step others stage, ?_⟩
  · rw [store]
    exact ser.result
  · intro u
    by_cases mine : u = t
    · subst mine
      rw [finished]
      exact ser.order u
    · rw [(others u mine).finished]
      exact ser.order u
  · intro holds
    by_cases mine : t = .mqtt
    · rcases window mine holds with now | ⟨before, snap⟩
      -- a read just done opens an empty window
      · refine ⟨ord, [], (List.append_nil ord).symm, ?_, ?_⟩
        · intro i member
          cases member
        · rw [now]
          exact ser.result
      · rw [snap]
        exact ser.window before
    · have same := others .mqtt (Ne.symm mine)
      rw [same.rest] at holds
      rw [same.snap]
      exact ser.window holds

/-- The task finishes its item, whose place in the order is `pre ++ i :: win`. -/
theorem Serialized.finish (ser : Serialized cj s (pre ++ win)) {i : Item}
    (result : (pre ++ i :: win).foldl (Item.cfg cj) gacCfg = s'.tasks.store.cfg)
    (own : i.stim.tid = t) (last : ∀ j ∈ win, j.stim.tid ≠ t)
    (past : s'.past t = s.finished t) (cur : s'.cur t = some i) (rest : s'.rest t = .ret ())
    (window : t = .softTimer → win = [])
    (others : ∀ u, u ≠ t → Same s s' u) : Serialized cj s' (pre ++ i :: win) := by
  have mine : ∀ j, s'.cur t = some j → j.stim.tid = t := by
    intro j now
    rw [cur] at now
    cases now
    exact own
  refine ⟨result, ?_, ser.own_step others mine, ser.stage_step others (Or.inl rest), ?_⟩
  · intro u
    have before := ser.order u
    rw [List.filter_append] at before
    rw [List.filter_append, List.filter_cons]
    by_cases mine : u = t
    · subst mine
      have none_behind : win.filter (fun j => j.stim.tid = u) = [] := by
        rw [List.filter_eq_nil_iff]
        intro j member
        simp [last j member]
      rw [none_behind, List.append_nil] at before
      rw [none_behind, before, if_pos (by simp [own]), finished_of_ret rest, Traced.log, past, cur]
      rfl
    · rw [(others u mine).finished, ← before, if_neg]
      simp [own, Ne.symm mine]
  · intro holds
    cases t with
    | mqtt =>
      rw [rest] at holds
      cases holds
    | softTimer =>
      -- a turn that finishes inside the window of a handler extends it
      have same := others .mqtt (by decide)
      rw [same.rest] at holds
      rw [same.snap, window rfl]
      obtain ⟨first, behind, split, turns, read⟩ := ser.window holds
      rw [window rfl, List.append_nil] at split
      refine ⟨first, behind ++ [i], by rw [split, List.append_assoc], ?_, read⟩
      intro j member
      rcases List.mem_append.mp member with old | new
      · exact turns j old
      · rw [List.mem_singleton.mp new]
        exact own

/-- An item that finishes with its effect on the stored configuration comes last. -/
theorem Serialized.append (ser : Serialized cj s ord) {i : Item}
    (store : s'.tasks.store.cfg = i.cfg cj s.tasks.store.cfg) (own : i.stim.tid = t)
    (past : s'.past t = s.finished t) (cur : s'.cur t = some i) (rest : s'.rest t = .ret ())
    (others : ∀ u, u ≠ t → Same s s' u) : Serialized cj s' (ord ++ [i]) := by
  rw [← List.append_nil ord] at ser
  apply ser.finish ?_ own ?_ past cur rest (fun _ => rfl) others
  · rw [List.foldl_append, List.foldl_cons, List.foldl_nil, store, ← ser.result, List.append_nil]
  · intro j member
    cases member

/-! ### Fresh writes -/

/-- The stored configuration still agrees with the snapshot in what the write
takes over from it. -/
def Fresh (snap stored : AcCfg) : Plan → Prop
  | .adjust _ => stored.open_ = snap.open_ ∧ stored.sleep = snap.sleep ∧
      stored.tempAct = snap.tempAct ∧ stored.tempSlp = snap.tempSlp
  | .schedule _ => stored.tempAct = snap.tempAct ∧ stored.tempSlp = snap.tempSlp
  -- a toggle that meets a changed power state comes before the turns that changed it
  | .toggle => stored.temp = snap.temp ∧ stored.sleep = snap.sleep ∧
      stored.tempAct = snap.tempAct ∧ stored.tempSlp = snap.tempSlp
  | .nothing | .look | .switch _ => True

def WritesFresh (cj : CJson) (s : Traced) : Happening → Prop
  | .step t =>
    match s.tasks.prog t, s.cur t with
    | .op (.ac (.acWriteCfg _)) _, some i => Fresh (s.snap t) s.tasks.store.cfg (i.stim.plan cj)
    | _, _ => True
  | .take _ | .clock _ => True

/-- A timed plan fresh enough writes what it would write had it read just now. -/
theorem timed_fresh {plan : Plan} (timed : plan.timed = true) {snap stored : AcCfg}
    (fresh : Fresh snap stored plan) (asleep : Int) :
    plan.cfg asleep snap = plan.cfg asleep stored := by
  cases plan with
  | adjust by_ =>
    obtain ⟨open_, sleep, act, slp⟩ := fresh
    simp only [Plan.cfg, adjusted, open_, sleep, act, slp]
  | schedule tm =>
    obtain ⟨act, slp⟩ := fresh
    simp only [Plan.cfg, scheduled, act, slp]
  | nothing => cases timed
  | look => cases timed
  | switch on => cases timed
  | toggle => cases timed

theorem plan_of_softTimer (cj : CJson) {stim : Stim} (turn : stim.tid = .softTimer) :
    stim.plan cj = .nothing ∨ ∃ tm, stim.plan cj = .schedule tm := by
  cases stim with
  | event message requestId => cases turn
  | tick gtick =>
    simp only [Stim.plan]
    split
    · exact Or.inr ⟨_, rfl⟩
    · exact Or.inl rfl

/-- Turns keep the setpoints, and settle everything else, unless all of them
fall on a weekend. -/
theorem turns_settle (cj : CJson) {win : List Item} (turns : ∀ i ∈ win, i.stim.tid = .softTimer) :
    (∀ cfg, win.foldl (Item.cfg cj) cfg = cfg) ∨
    ∀ cfg cfg' : AcCfg, cfg.tempAct = cfg'.tempAct → cfg.tempSlp = cfg'.tempSlp →
      win.foldl (Item.cfg cj) cfg = win.foldl (Item.cfg cj) cfg' := by
  induction win with
  | nil => exact Or.inl fun _ => rfl
  | cons i win ih =>
    have later := ih fun j member => turns j (List.mem_cons_of_mem i member)
    rcases plan_of_softTimer cj (turns i List.mem_cons_self) with nothing | ⟨tm, schedule⟩
    · have still : ∀ cfg, i.cfg cj cfg = cfg := fun cfg => by rw [Item.cfg, nothing]; rfl
      simpa only [List.foldl_cons, still] using later
    · refine Or.inr fun cfg cfg' act slp => ?_
      have settled : i.cfg cj cfg = i.cfg cj cfg' := by
        simp only [Item.cfg, schedule, Plan.cfg, scheduled, act, slp]
      rw [List.foldl_cons, List.foldl_cons, settled]

/-- A toggle that writes a changed power state back comes before the window. -/
theorem toggle_before {snap : AcCfg} (turns : ∀ i ∈ win, i.stim.tid = .softTimer)
    (ok : CfgOk snap) (fresh : Fresh snap (win.foldl (Item.cfg cj) snap) .toggle)
    (changed : (win.foldl (Item.cfg cj) snap).open_ ≠ snap.open_) :
    win.foldl (Item.cfg cj) (toggled snap) = toggled snap := by
  have ok' := ok.items cj win
  rcases turns_settle cj turns with still | settles
  · exact absurd (congrArg AcCfg.open_ (still snap)) changed
  · have same : win.foldl (Item.cfg cj) (toggled snap) = win.foldl (Item.cfg cj) snap :=
      settles _ _ rfl rfl
    rw [same]
    generalize win.foldl (Item.cfg cj) snap = stored at *
    obtain ⟨temp, sleep, act, slp⟩ := fresh
    have flipped : stored.open_ = (toggled snap).open_ := by
      rcases ok.open_ with off | on <;> rcases ok'.open_ with off' | on' <;>
        simp_all [toggled]
    have rest : (toggled snap).tempAct = snap.tempAct ∧ (toggled snap).tempSlp = snap.tempSlp ∧
        (toggled snap).temp = snap.temp ∧ (toggled snap).sleep = snap.sleep := ⟨rfl, rfl, rfl, rfl⟩
    obtain ⟨act', slp', temp', sleep'⟩ := rest
    exact AcCfg.ext flipped (act.trans act'.symm) (slp.trans slp'.symm) (temp.trans temp'.symm)
      (sleep.trans sleep'.symm)

/-! ### The invariant is kept -/

theorem Serialized.take (ser : Serialized cj s ord) {stim : Stim}
    (stepped : tracedStep cj s (.take stim) = some s') : ∃ ord', Serialized cj s' ord' := by
  obtain ⟨idle, store, past, cur, rest, others⟩ := tracedStep_take stepped
  have before : s.finished stim.tid = s.log stim.tid := finished_of_ret idle
  rcases erase_prog cj stim with reads | ⟨empty, nothing⟩
  · rw [reads] at rest
    refine ⟨ord, ser.stay (by rw [store]) ?_ ?_ ?_ ?_ others⟩
    · rw [finished_of_op rest, past, before]
    · intro i now
      rw [cur] at now
      cases now
      rfl
    · exact Or.inr ⟨_, cur, Or.inl rest⟩
    · intro mine holds
      rw [← mine, rest] at holds
      cases holds
  · rw [empty] at rest
    refine ⟨ord ++ [⟨stim, 0⟩], ser.append ?_ rfl ?_ cur rest others⟩
    · rw [store, Item.cfg, nothing]
      rfl
    · rw [past, before]

theorem Serialized.toggle (ser : Serialized cj s ord) {i : Item} (cur : s.cur t = some i)
    (plan : i.stim.plan cj = .toggle) (busy : s.rest t = acWriteCfg (toggled (s.snap t)))
    (fresh : Fresh (s.snap t) s.tasks.store.cfg .toggle)
    (store : s'.tasks.store.cfg = toggled (s.snap t)) (past : s'.past t = s.past t)
    (cur' : s'.cur t = some i) (rest : s'.rest t = .ret ())
    (others : ∀ u, u ≠ t → Same s s' u) : ∃ ord', Serialized cj s' ord' := by
  have own := ser.own t i cur
  have finished : s'.past t = s.finished t := by rw [past, finished_of_op busy]
  have effect : ∀ cfg, i.cfg cj cfg = toggled cfg := fun cfg => by rw [Item.cfg, plan]; rfl
  -- a toggle that finds the power state it has read comes last, else before the window
  by_cases kept : s.tasks.store.cfg.open_ = (s.snap t).open_
  · have same : s.tasks.store.cfg = s.snap t := by
      obtain ⟨temp, sleep, act, slp⟩ := fresh
      exact AcCfg.ext kept act slp temp sleep
    refine ⟨ord ++ [i], ser.append ?_ own finished cur' rest others⟩
    rw [store, effect, same]
  · cases t with
    | softTimer =>
      -- only a command toggles
      rcases plan_of_softTimer cj own with nothing | ⟨tm, schedule⟩
      · rw [nothing] at plan
        cases plan
      · rw [schedule] at plan
        cases plan
    | mqtt =>
      obtain ⟨pre, win, rfl, turns, read⟩ := ser.window (by rw [busy]; rfl)
      have result := ser.result
      rw [List.foldl_append, read] at result
      have ok : CfgOk (s.snap .mqtt) := by
        rw [← read]
        exact gacCfg_ok.items cj pre
      rw [← result] at fresh kept
      refine ⟨pre ++ i :: win, ser.finish ?_ own ?_ finished cur' rest ?_ others⟩
      · rw [List.foldl_append, List.foldl_cons, read, effect, store]
        exact toggle_before turns ok fresh kept
      · intro j member turn
        rw [turns j member] at turn
        cases turn
      · intro absurd
        cases absurd

/-- The read: from here on the task holds the stored configuration. -/
theorem Serialized.read (ser : Serialized cj s ord) {i : Item} (cur : s.cur t = some i)
    (unread : s.rest t = .op (.ac .acReadCfg) fun cfg => (i.stim.plan cj).arm cfg)
    (store : s'.tasks.store.cfg = s.tasks.store.cfg) (past : s'.past t = s.past t)
    (cur' : s'.cur t = some i) (snap : s'.snap t = s.tasks.store.cfg)
    (rest : s'.rest t = (i.stim.plan cj).arm s.tasks.store.cfg)
    (others : ∀ u, u ≠ t → Same s s' u) : ∃ ord', Serialized cj s' ord' := by
  have own := ser.own t i cur
  have finished : s'.past t = s.finished t := by rw [past, finished_of_op unread]
  by_cases through : s'.rest t = .ret ()
  · -- a command that is not known: the item ends with the read
    refine ⟨ord ++ [i], ser.append ?_ own finished cur' through others⟩
    rw [rest] at through
    rw [store, Item.cfg, cfg_of_arm_ret through]
  · refine ⟨ord, ser.stay store ?_ ?_ ?_ ?_ others⟩
    · cases left : s'.rest t with
      | ret a => exact absurd left through
      | op o k => rw [finished_of_op left, finished]
    · intro j later
      rw [cur'] at later
      cases later
      exact own
    · refine Or.inr ⟨i, cur', Or.inr (Or.inl ?_)⟩
      rw [rest, snap]
    · intro mine _
      subst mine
      exact Or.inl snap

theorem Serialized.call (ser : Serialized cj s ord) {call : AcCall} {k₀ k : AcCfg → Prog Unit}
    (fresh : WritesFresh cj s (.step t))
    (next : s.tasks.prog t = .op (.ac call) k₀) (rest : s.rest t = .op (.ac call) k)
    (store : s'.tasks.store.cfg = call.store s.tasks.store.cfg)
    (past : s'.past t = s.past t) (cur : s'.cur t = s.cur t)
    (snap : s'.snap t = if call = .acReadCfg then s.tasks.store.cfg else s.snap t)
    (rest' : s'.rest t = k s.tasks.store.cfg) (others : ∀ u, u ≠ t → Same s s' u) :
    ∃ ord', Serialized cj s' ord' := by
  have finished : s'.past t = s.finished t := by rw [past, finished_of_op rest]
  obtain idle | ⟨i, now, stage⟩ := ser.stage t
  · rw [idle] at rest
    cases rest
  have own := ser.own t i now
  have cur' : s'.cur t = some i := cur.trans now
  simp only [WritesFresh, next, now] at fresh
  rcases stage with unread | read | ⟨timed, write⟩
  · have first := unread
    rw [rest] at first
    cases first
    exact ser.read now unread store past cur' snap rest' others
  · -- a switch, or the write of a toggle
    have behind := rest
    rw [read] at behind
    obtain ⟨kind, through⟩ := arm_call behind
    have ended : s'.rest t = .ret () := rest'.trans (through s.tasks.store.cfg)
    rcases kind with ⟨plan, rfl⟩ | effect
    · have write_fresh : Fresh (s.snap t) s.tasks.store.cfg (i.stim.plan cj) := fresh
      rw [plan] at write_fresh read
      exact ser.toggle now plan read write_fresh store past cur' ended others
    · refine ⟨ord ++ [i], ser.append ?_ own finished cur' ended others⟩
      rw [store, Item.cfg, effect]
  · -- the write of a timed plan, fresh by hypothesis
    rw [write] at rest
    cases rest
    refine ⟨ord ++ [i], ser.append ?_ own finished cur' rest' others⟩
    rw [store]
    exact timed_fresh timed fresh (timeInSleepAt i.clock)

theorem Serialized.clock (ser : Serialized cj s ord) {g : Int} {k : Int → Prog Unit}
    (rest : s.rest t = .op .gtick k) (store : s'.tasks.store.cfg = s.tasks.store.cfg)
    (past : s'.past t = s.past t)
    (cur : s'.cur t = (s.cur t).map fun i => { i with clock := g })
    (snap : s'.snap t = s.snap t) (rest' : s'.rest t = k g)
    (others : ∀ u, u ≠ t → Same s s' u) : ∃ ord', Serialized cj s' ord' := by
  have finished : s'.past t = s.finished t := by rw [past, finished_of_op rest]
  obtain idle | ⟨i, now, stage⟩ := ser.stage t
  · rw [idle] at rest
    cases rest
  have own := ser.own t i now
  have cur' : s'.cur t = some { i with clock := g } := by rw [cur, now]; rfl
  rcases stage with unread | read | ⟨timed, write⟩
  · rw [unread] at rest
    cases rest
  · have behind := rest
    rw [read] at behind
    rcases arm_gtick behind g with ⟨still, ended⟩ | ⟨timed, write⟩
    · -- a `get_time` ends here
      refine ⟨ord ++ [{ i with clock := g }], ser.append ?_ own finished cur' ?_ others⟩
      · rw [store, Item.cfg, still]
      · rw [rest', ended]
    · refine ⟨ord, ser.stay store ?_ ?_ ?_ ?_ others⟩
      · rw [← finished]
        exact finished_of_op (rest'.trans write)
      · intro j later
        rw [cur'] at later
        cases later
        exact own
      · refine Or.inr ⟨_, cur', Or.inr (Or.inr ⟨timed, ?_⟩)⟩
        rw [rest', write, snap]
        rfl
      · intro mine _
        subst mine
        exact Or.inr ⟨by rw [rest]; rfl, snap⟩
  · rw [write] at rest
    cases rest

theorem Serialized.step (ser : Serialized cj s ord) {a : Happening} (fresh : WritesFresh cj s a)
    (stepped : tracedStep cj s a = some s') : ∃ ord', Serialized cj s' ord' := by
  cases a with
  | take stim => exact ser.take stepped
  | clock gtick =>
    cases stepped
    exact ⟨ord, ser.result, ser.order, ser.own, ser.stage, ser.window⟩
  | step t =>
    cases tracedStep_step stepped with
    | silent store same =>
      refine ⟨ord, ser.stay (t := t) store (same t).finished ?_ ?_ ?_ fun u _ => same u⟩
      · rw [(same t).cur]
        exact ser.own t
      · rw [(same t).cur, (same t).snap, (same t).rest]
        exact ser.stage t
      · intro mine holds
        rw [(same .mqtt).rest] at holds
        exact Or.inr ⟨holds, (same .mqtt).snap⟩
    | call call k₀ k next rest store past cur snap rest' others =>
      exact ser.call fresh next rest store past cur snap rest' others
    | clock g k rest store past cur snap rest' others =>
      exact ser.clock rest store past cur snap rest' others

end Serialized

/-! ### What serial runs preserve -/

def slot (asleep : Bool) (cfg : AcCfg) : U8 := if asleep then cfg.tempSlp else cfg.tempAct

def Item.adjusts (cj : CJson) (by_ : U8) (asleep : Bool) (i : Item) : Bool :=
  i.stim.plan cj = .adjust by_ && decide (timeInSleepAt i.clock ≠ 0) == asleep

/-- How far a list of items moves a setpoint: its `tup`s less its `tdown`s. -/
def moves (cj : CJson) (asleep : Bool) (items : List Item) : Int :=
  (items.countP (Item.adjusts cj 1 asleep) : Int) - items.countP (Item.adjusts cj (-1) asleep)

def Item.decides (cj : CJson) (open_ : U8) (i : Item) : U8 :=
  match i.stim.plan cj with
  | .switch on => if on then 1 else 0
  | .toggle => if open_ ≠ 0 then 0 else 1
  | .schedule tm => scheduledOpen tm
  | .nothing | .look | .adjust _ => open_

theorem plan_adjust {cj : CJson} {stim : Stim} {by_ : U8} (plan : stim.plan cj = .adjust by_) :
    by_ = 1 ∨ by_ = -1 := by
  cases stim with
  | tick gtick =>
    simp only [Stim.plan] at plan
    split at plan <;> cases plan
  | event message requestId =>
    simp only [Stim.plan, cmdPlan] at plan
    split at plan <;> cases plan
    · exact Or.inl rfl
    · exact Or.inr rfl

theorem Item.cfg_open (cj : CJson) (cfg : AcCfg) (i : Item) :
    (i.cfg cj cfg).open_ = i.decides cj cfg.open_ := by
  unfold Item.cfg Item.decides
  cases i.stim.plan cj with
  | adjust by_ =>
    simp only [Plan.cfg, adjusted]
    split <;> rfl
  | _ => rfl

theorem items_open (cj : CJson) (items : List Item) (cfg : AcCfg) :
    (items.foldl (Item.cfg cj) cfg).open_ = items.foldl (Item.decides cj) cfg.open_ := by
  induction items generalizing cfg with
  | nil => rfl
  | cons i items ih => rw [List.foldl_cons, List.foldl_cons, ih, Item.cfg_open]

private theorem up_toNat (b : U8) : ((b + 1).toNat : Int) ≡ b.toNat + 1 [ZMOD 256] := by
  rw [BitVec.toNat_add, Int.ModEq]
  change (((b.toNat + 1) % 256 : Nat) : Int) % 256 = _
  omega

private theorem down_toNat (b : U8) : ((b + -1).toNat : Int) ≡ b.toNat - 1 [ZMOD 256] := by
  rw [BitVec.toNat_add, Int.ModEq]
  change (((b.toNat + 255) % 256 : Nat) : Int) % 256 = _
  omega

theorem slot_adjusted (by_ : U8) (hour : Int) (asleep : Bool) (cfg : AcCfg) :
    slot asleep (adjusted by_ hour cfg) =
      if decide (hour ≠ 0) = asleep then slot asleep cfg + by_ else slot asleep cfg := by
  unfold adjusted slot
  by_cases sleeping : hour ≠ 0 <;> cases asleep <;> simp [sleeping]

theorem Item.cfg_slot (cj : CJson) (asleep : Bool) (cfg : AcCfg) (i : Item) :
    ((slot asleep (i.cfg cj cfg)).toNat : Int) ≡
      (slot asleep cfg).toNat + moves cj asleep [i] [ZMOD 256] := by
  have still : (∀ by_, i.stim.plan cj ≠ .adjust by_) → moves cj asleep [i] = 0 := by
    intro other
    simp [moves, Item.adjusts, other]
  cases plan : i.stim.plan cj with
  | adjust by_ =>
    rw [Item.cfg, plan, Plan.cfg, slot_adjusted]
    by_cases mine : decide (timeInSleepAt i.clock ≠ 0) = asleep
    · rw [if_pos mine]
      rcases plan_adjust plan with rfl | rfl
      · have one : moves cj asleep [i] = 1 := by simp [moves, Item.adjusts, plan, mine]
        rw [one]
        exact up_toNat _
      · have one : moves cj asleep [i] = -1 := by simp [moves, Item.adjusts, plan, mine]
        rw [one]
        exact down_toNat _
    · have none : moves cj asleep [i] = 0 := by
        simp only [moves, List.countP_cons, List.countP_nil, Item.adjusts,
          beq_eq_false_iff_ne.mpr mine, Bool.and_false]
        rfl
      rw [if_neg mine, none, Int.add_zero]
  | _ =>
    rw [still fun by_ => by rw [plan]; simp, Int.add_zero, Item.cfg, plan]
    rfl

theorem moves_cons (cj : CJson) (asleep : Bool) (i : Item) (items : List Item) :
    moves cj asleep (i :: items) = moves cj asleep [i] + moves cj asleep items := by
  simp only [moves, List.countP_cons, List.countP_nil]
  omega

theorem items_slot (cj : CJson) (asleep : Bool) (items : List Item) (cfg : AcCfg) :
    ((slot asleep (items.foldl (Item.cfg cj) cfg)).toNat : Int) ≡
      (slot asleep cfg).toNat + moves cj asleep items [ZMOD 256] := by
  induction items generalizing cfg with
  | nil => simp [moves]
  | cons i items ih =>
    calc ((slot asleep ((i :: items).foldl (Item.cfg cj) cfg)).toNat : Int)
        ≡ (slot asleep (i.cfg cj cfg)).toNat + moves cj asleep items [ZMOD 256] := ih (i.cfg cj cfg)
      _ ≡ (slot asleep cfg).toNat + moves cj asleep [i] + moves cj asleep items [ZMOD 256] :=
        (i.cfg_slot cj asleep cfg).add_right _
      _ = (slot asleep cfg).toNat + moves cj asleep (i :: items) := by
        rw [moves_cons cj asleep i items, Int.add_assoc]

/-- Only the handler's items move a setpoint. -/
theorem moves_filter (cj : CJson) (asleep : Bool) (items : List Item) :
    moves cj asleep (items.filter fun i => i.stim.tid = .mqtt) = moves cj asleep items := by
  have only : ∀ by_ (i : Item), (i.adjusts cj by_ asleep && decide (i.stim.tid = .mqtt)) =
      i.adjusts cj by_ asleep := by
    intro by_ i
    by_cases handler : i.stim.tid = .mqtt
    · simp [handler]
    · have turn : i.stim.tid = .softTimer := by
        cases tid : i.stim.tid with
        | mqtt => exact absurd tid handler
        | softTimer => rfl
      rcases plan_of_softTimer cj turn with nothing | ⟨tm, schedule⟩
      · simp [Item.adjusts, nothing]
      · simp [Item.adjusts, schedule]
  simp only [moves, List.countP_filter, only]

/-! ### Serializability -/

def Traced.Idle (s : Traced) : Prop := ∀ t, s.tasks.prog t = .ret ()

/-- No update was lost: some serial run of the same items, each task's in its
own order, stores the same configuration, with the power state as last decided
and the setpoints moved by every `tup` and `tdown`. -/
structure Serializable (cj : CJson) (gtick : Int) (s : Traced) : Prop where
  serial : ∃ ord : List Item, (∀ t, ord.filter (fun i => i.stim.tid = t) = s.log t) ∧
    (ord.foldl (Item.run cj) (.boot gtick)).cfg = s.tasks.store.cfg ∧
    s.tasks.store.cfg.open_ = ord.foldl (Item.decides cj) gacCfg.open_
  act : (s.tasks.store.cfg.tempAct.toNat : Int) - 24 ≡ moves cj false (s.log .mqtt) [ZMOD 256]
  slp : (s.tasks.store.cfg.tempSlp.toNat : Int) - 26 ≡ moves cj true (s.log .mqtt) [ZMOD 256]

theorem Serialized.boot (cj : CJson) (gtick : Int) : Serialized cj (.boot gtick) [] where
  result := rfl
  order := fun _ => rfl
  own := fun _ _ now => by cases now
  stage := fun _ => Or.inl rfl
  window := fun holds => by cases holds

theorem Serialized.serializable {cj : CJson} {s : Traced} {ord : List Item}
    (ser : Serialized cj s ord) (idle : s.Idle) (gtick : Int) : Serializable cj gtick s := by
  have order : ∀ t, ord.filter (fun i => i.stim.tid = t) = s.log t := by
    intro t
    have through : s.rest t = .ret () := by
      rw [Traced.rest, idle t]
      rfl
    rw [ser.order t, finished_of_ret through]
  have moved : ∀ asleep, ((slot asleep s.tasks.store.cfg).toNat : Int) ≡
      (slot asleep gacCfg).toNat + moves cj asleep (s.log .mqtt) [ZMOD 256] := by
    intro asleep
    rw [← ser.result, ← order .mqtt, moves_filter]
    exact items_slot cj asleep ord gacCfg
  refine ⟨⟨ord, order, ?_, ?_⟩, ?_, ?_⟩
  · rw [run_items_cfg]
    exact ser.result
  · rw [← ser.result]
    exact items_open cj ord gacCfg
  · have act : (s.tasks.store.cfg.tempAct.toNat : Int) ≡ 24 + moves cj false (s.log .mqtt)
      [ZMOD 256] := moved false
    unfold Int.ModEq at act ⊢
    omega
  · have slp : (s.tasks.store.cfg.tempSlp.toNat : Int) ≡ 26 + moves cj true (s.log .mqtt)
      [ZMOD 256] := moved true
    unfold Int.ModEq at slp ⊢
    omega

/-- As long as every write falls on a configuration that still agrees with its
snapshot, no update is lost. -/
theorem tracedStep_serializable (cj : CJson) (gtick : Int) (as : List Happening)
    (fresh : Meets (tracedStep cj) (WritesFresh cj) (.boot gtick) as) :
    Visits (tracedStep cj) (fun s => s.Idle → Serializable cj gtick s) (.boot gtick) as := by
  apply visits_of_meets (I := fun s => ∃ ord, Serialized cj s ord) ?_ ?_ ?_ fresh
  · rintro s a s' ⟨ord, ser⟩ write stepped
    exact ser.step write stepped
  · rintro s ⟨ord, ser⟩ idle
    exact ser.serializable idle gtick
  · exact ⟨[], Serialized.boot cj gtick⟩

instance (snap stored : AcCfg) (plan : Plan) : Decidable (Fresh snap stored plan) := by
  cases plan <;> unfold Fresh <;> infer_instance

instance (cj : CJson) (s : Traced) (a : Happening) : Decidable (WritesFresh cj s a) := by
  unfold WritesFresh
  split
  · split <;> infer_instance
  all_goals infer_instance

def tupEvent : Stim := .event ⟨payload "tup", none, 0⟩ [0]

def toggleEvent : Stim := .event ⟨payload "tgl_status", none, 0⟩ [0]

/-- Behind a turn at noon, a `tgl_status` reads the configuration; before it writes,
the turn of 20:46 opens the device. -/
def crossed : List Happening :=
  .take (.tick noon) :: List.replicate 4 (.step .softTimer) ++
    .take toggleEvent :: List.replicate 3 (.step .mqtt) ++
    .take (.tick 74760) :: List.replicate 4 (.step .softTimer) ++ List.replicate 2 (.step .mqtt)

theorem tracedStep_serializable_crossed :
    Visits (tracedStep flatCJson) (fun s => s.Idle → Serializable flatCJson noon s) (.boot noon)
      crossed :=
  tracedStep_serializable flatCJson noon crossed (by decide)

/-- The `tup` falls between the turn's read and its write. -/
def overwritten : List Happening :=
  .take (.tick noon) :: List.replicate 2 (.step .softTimer) ++
    .take tupEvent :: List.replicate 6 (.step .mqtt) ++ List.replicate 2 (.step .softTimer)

theorem tracedStep_loses_tup :
    ¬ Visits (tracedStep flatCJson) (fun s => s.Idle → Serializable flatCJson noon s) (.boot noon)
      overwritten := by
  intro visits
  obtain ⟨s, reached, idle, stored, moved⟩ : ∃ s,
      run (tracedStep flatCJson) (.boot noon) overwritten = some s ∧ s.Idle ∧
      s.tasks.store.cfg.tempAct = 24 ∧ moves flatCJson false (s.log .mqtt) = 1 := by
    refine ⟨_, rfl, ?_, ?_, ?_⟩
    · intro t
      cases t <;> rfl
    · decide
    · decide
  have act := (visits_last visits reached idle).act
  rw [stored, moved] at act
  exact absurd act (by decide)

end IrCtl

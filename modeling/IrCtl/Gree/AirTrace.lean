import IrCtl.Gree.Device

/-!
# The air trace

The mutex holder, its point in the call, the semaphore, the timer and the state
of the callback hang together; from that, what has been on the air is what the
calls have announced, pair by pair in the order of the mutex.
-/

namespace IrCtl

open Transition

def storedBy (calls : List AcCall) : AcCfg := calls.foldl (fun cfg c => c.store cfg) gacCfg

/-- The frames that announce a list of calls, from a given configuration on: a
pair for each call that transmits. -/
def announced (cfg : AcCfg) : List AcCall → List Frame
  | [] => []
  | c :: calls =>
    (if c.transmits cfg then framePair (c.store cfg) else []) ++ announced (c.store cfg) calls

theorem storedBy_append (calls : List AcCall) (c : AcCall) :
    storedBy (calls ++ [c]) = c.store (storedBy calls) := by
  simp only [storedBy, List.foldl_append, List.foldl_cons, List.foldl_nil]

private theorem announced_append (cfg : AcCfg) (calls : List AcCall) (c : AcCall) :
    announced cfg (calls ++ [c]) = announced cfg calls ++
      if c.transmits (calls.foldl (fun cfg c => c.store cfg) cfg) then
        framePair (c.store (calls.foldl (fun cfg c => c.store cfg) cfg)) else [] := by
  induction calls generalizing cfg with
  | nil =>
    simp only [List.nil_append, announced, List.append_nil]
    rfl
  | cons d calls ih =>
    rw [List.cons_append, announced, announced, ih, List.append_assoc, List.foldl_cons]

theorem announced_snoc (calls : List AcCall) (c : AcCall) :
    announced gacCfg (calls ++ [c]) = announced gacCfg calls ++
      if c.transmits (storedBy calls) then framePair (storedBy (calls ++ [c])) else [] := by
  rw [announced_append, storedBy_append]
  rfl

section Invariant

variable {ι : Type}

/-- The transmitter is idle and the air agrees with the calls. -/
structure Quiet (s : Dev ι) (calls : List AcCall) : Prop where
  st : s.ir.tx.st = .reset
  bidx : s.ir.tx.bidx = 0
  done : s.ir.tx.done = false
  started : s.ir.started = false
  cfg : s.world.cfg = storedBy calls
  sent : s.sent = announced gacCfg calls
  loaded : s.world.loaded = s.sent
  air : s.ir.air = s.sent.flatMap pulseTrain

/-- Frame `f` is under way, or complete with its `done` not yet taken; the
frames `before` are complete. -/
structure Sends (s : Dev ι) (before : List Frame) (f : Frame) : Prop where
  loaded : s.world.loaded = before ++ [f]
  under : Sending f (before.flatMap pulseTrain) s.ir ∧ s.sent = before ∨
    Sent f (before.flatMap pulseTrain) s.ir ∧ s.sent = before ++ [f]

/-- What holds at each point of call `c`. -/
def AtPoint (s : Dev ι) (c : AcCall) : Point → Prop
  | .body => Quiet s s.calls
  | .wait0 seen => seen = storedBy s.calls ∧ c.transmits seen = true ∧
      s.world.cfg = c.store seen ∧
      Sends s (announced gacCfg s.calls) (loadFrame0 (c.store seen)).bits
  | .wait1 seen => seen = storedBy s.calls ∧ c.transmits seen = true ∧
      s.world.cfg = c.store seen ∧
      Sends s (announced gacCfg s.calls ++ [(loadFrame0 (c.store seen)).bits])
        (loadFrame1 (c.store seen)).bits
  | .give seen => seen = storedBy s.calls ∧ Quiet s (s.calls ++ [c])

/-- The holder of the mutex is inside a call, and nobody else is. -/
def DevInv (s : Dev ι) : Prop :=
  match s.mutex with
  | none => Quiet s s.calls ∧ ∀ t, ∃ p, s.task t = .run p
  | some t => (∃ c k point, s.task t = .call c k point ∧ AtPoint s c point) ∧
      ∀ u, u ≠ t → ∃ p, s.task u = .run p

variable {s s' : Dev ι} {t : ι}

theorem DevInv.free (inv : DevInv s) (free : s.mutex = none) :
    Quiet s s.calls ∧ ∀ t, ∃ p, s.task t = .run p := by
  rwa [DevInv, free] at inv

theorem DevInv.held (inv : DevInv s) (held : s.mutex = some t) :
    (∃ c k point, s.task t = .call c k point ∧ AtPoint s c point) ∧
      ∀ u, u ≠ t → ∃ p, s.task u = .run p := by
  rwa [DevInv, held] at inv

theorem DevInv.inCall (inv : DevInv s) {c : AcCall} {k : AcCfg → Prog Unit} {point : Point}
    (now : s.task t = .call c k point) :
    s.mutex = some t ∧ AtPoint s c point ∧ ∀ u, u ≠ t → ∃ p, s.task u = .run p := by
  cases holder : s.mutex with
  | none =>
    obtain ⟨p, running⟩ := (inv.free holder).2 t
    rw [now] at running
    cases running
  | some u =>
    obtain ⟨⟨c', k', point', there, here⟩, others⟩ := inv.held holder
    by_cases same : t = u
    · subst same
      rw [now] at there
      cases there
      exact ⟨rfl, here, others⟩
    · obtain ⟨p, running⟩ := others t same
      rw [now] at running
      cases running

/-- What does not touch the device keeps every point of a call. -/
theorem AtPoint.congr {c : AcCall} {point : Point} (here : AtPoint s c point)
    (ir : s'.ir = s.ir) (calls : s'.calls = s.calls) (sent : s'.sent = s.sent)
    (cfg : s'.world.cfg = s.world.cfg) (loaded : s'.world.loaded = s.world.loaded) :
    AtPoint s' c point := by
  have quiet : ∀ calls, Quiet s calls → Quiet s' calls := by
    intro calls q
    constructor <;> simp only [ir, sent, cfg, loaded]
    exacts [q.st, q.bidx, q.done, q.started, q.cfg, q.sent, q.loaded, q.air]
  have sends : ∀ before f, Sends s before f → Sends s' before f := by
    intro before f under
    constructor <;> simp only [ir, sent, loaded]
    exacts [under.loaded, under.under]
  cases point with
  | body =>
    simp only [AtPoint, calls] at here ⊢
    exact quiet _ here
  | wait0 seen =>
    simp only [AtPoint, calls, cfg] at here ⊢
    exact ⟨here.1, here.2.1, here.2.2.1, sends _ _ here.2.2.2⟩
  | wait1 seen =>
    simp only [AtPoint, calls, cfg] at here ⊢
    exact ⟨here.1, here.2.1, here.2.2.1, sends _ _ here.2.2.2⟩
  | give seen =>
    simp only [AtPoint, calls] at here ⊢
    exact ⟨here.1, quiet _ here.2⟩

/-- A step of no task: what holds at the points of a call carries over. -/
theorem DevInv.still (inv : DevInv s) (mutex : s'.mutex = s.mutex) (task : s'.task = s.task)
    (points : ∀ c point, AtPoint s c point → AtPoint s' c point) : DevInv s' := by
  unfold DevInv
  rw [mutex, task]
  cases holder : s.mutex with
  | none =>
    obtain ⟨quiet, all⟩ := inv.free holder
    -- a free device is as at the body of any call
    exact ⟨points .acReadCfg .body quiet, all⟩
  | some t =>
    obtain ⟨⟨c, k, point, there, here⟩, others⟩ := inv.held holder
    exact ⟨⟨c, k, point, there, points c point here⟩, others⟩

variable [DecidableEq ι]

theorem DevInv.within (held : s'.mutex = some t) {c : AcCall} {k : AcCfg → Prog Unit}
    {point : Point} (task : s'.task = Function.update s.task t (.call c k point))
    (others : ∀ u, u ≠ t → ∃ p, s.task u = .run p) (here : AtPoint s' c point) : DevInv s' := by
  rw [DevInv, held]
  refine ⟨⟨c, k, point, ?_, here⟩, ?_⟩
  · rw [task, Function.update_self]
  · intro u other
    rw [task, Function.update_of_ne other]
    exact others u other

/-- A task sent on outside its calls leaves all those outside theirs where they are. -/
theorem outside_update {task : ι → Task} {u : ι} {p : Prog Unit}
    (before : u ≠ t → ∃ q, task u = .run q) :
    ∃ q, Function.update task t (.run p) u = .run q := by
  by_cases same : u = t
  · subst same
    exact ⟨p, Function.update_self ..⟩
  · rw [Function.update_of_ne same]
    exact before same

theorem DevInv.outside (inv : DevInv s) {p q : Prog Unit} (now : s.task t = .run p)
    (mutex : s'.mutex = s.mutex) (task : s'.task = Function.update s.task t (.run q))
    (ir : s'.ir = s.ir) (calls : s'.calls = s.calls) (sent : s'.sent = s.sent)
    (cfg : s'.world.cfg = s.world.cfg) (loaded : s'.world.loaded = s.world.loaded) :
    DevInv s' := by
  have running : ∀ u, (∃ p, s.task u = .run p) → ∃ p, s'.task u = .run p := by
    intro u there
    rw [task]
    exact outside_update fun _ => there
  unfold DevInv
  rw [mutex]
  cases holder : s.mutex with
  | none =>
    obtain ⟨quiet, all⟩ := inv.free holder
    have here : AtPoint s' .acReadCfg .body := AtPoint.congr quiet ir calls sent cfg loaded
    exact ⟨here, fun u => running u (all u)⟩
  | some u =>
    obtain ⟨⟨c, k, point, there, here⟩, others⟩ := inv.held holder
    have other : u ≠ t := by
      rintro rfl
      rw [now] at there
      cases there
    refine ⟨⟨c, k, point, ?_, here.congr ir calls sent cfg loaded⟩, fun v ne => running v (others v ne)⟩
    rw [task, Function.update_of_ne other]
    exact there

/-! ### The steps of a call -/

theorem store_of_not_transmits {c : AcCall} {cfg : AcCfg} (silent : c.transmits cfg = false) :
    c.store cfg = cfg := by
  cases c with
  | acOpen => cases silent
  | acClose => cases silent
  | acReadCfg => rfl
  | acWriteCfg new =>
    simp only [AcCall.transmits, ne_eq, decide_not, Bool.not_eq_false', decide_eq_true_eq] at silent
    exact silent.symm

/-- From an idle transmitter the early return is not taken. -/
theorem greeAcOps_transmits {c : AcCall} {w : World} {ir : Ir} (idle : ir.tx.st = .reset)
    (transmits : c.transmits w.cfg = true) :
    greeAcOps c w ir =
      let next := transmitFrame (loadFrame0 (c.store w.cfg)) { w with cfg := c.store w.cfg }
        { ir with alarm := 1000, carrier := false }
      (next.1, next.2, true) := by
  have starts : ∀ w', transmitOrReturn w' ir =
      let next := transmitFrame (loadFrame0 w'.cfg) w' { ir with alarm := 1000, carrier := false }
      (next.1, next.2, true) := by
    intro w'
    rw [transmitOrReturn, greeAcIrTranx, if_neg (not_not.mpr idle)]
    rfl
  cases c with
  | acOpen => exact starts _
  | acClose => exact starts _
  | acReadCfg => cases transmits
  | acWriteCfg new =>
    have differs : w.cfg ≠ new := of_decide_eq_true transmits
    rw [greeAcOps, greeAcWriteCfg, if_pos differs]
    exact starts _

theorem greeAcOps_silent {c : AcCall} {w : World} {ir : Ir} (silent : c.transmits w.cfg = false) :
    greeAcOps c w ir = (w, ir, false) := by
  cases c with
  | acOpen => cases silent
  | acClose => cases silent
  | acReadCfg => rfl
  | acWriteCfg new =>
    have same : ¬ w.cfg ≠ new := of_decide_eq_false silent
    rw [greeAcOps, greeAcWriteCfg, if_neg same]

omit [DecidableEq ι] in
/-- Starting a frame from an idle timer with the semaphore empty. -/
theorem sends_transmitFrame {gif : GreeIrframe} {w : World} {ir : Ir} {before : List Frame}
    (world : s'.world = (transmitFrame gif w ir).1) (tx : s'.ir = (transmitFrame gif w ir).2)
    (loaded : w.loaded = before) (sent : s'.sent = before) (bidx : ir.tx.bidx = 0)
    (done : ir.tx.done = false) (air : ir.air = before.flatMap pulseTrain) :
    Sends s' before gif.bits := by
  constructor
  · rw [world, ← loaded]
    rfl
  · refine Or.inl ⟨?_, sent⟩
    rw [tx, ← air]
    exact Sending.start (transmitFrame gif w ir).2 rfl bidx rfl done

theorem DevInv.body (inv : DevInv s) {c : AcCall} {k : AcCfg → Prog Unit}
    (now : s.task t = .call c k .body)
    (after : s' = { s with
      world := (greeAcOps c s.world s.ir).1
      ir := (greeAcOps c s.world s.ir).2.1
      task := Function.update s.task t (.call c k
        (if (greeAcOps c s.world s.ir).2.2 then .wait0 s.world.cfg else .give s.world.cfg)) }) :
    DevInv s' := by
  obtain ⟨mine, quiet, others⟩ := inv.inCall now
  cases transmits : c.transmits s.world.cfg with
  | true =>
    -- the first frame of the pair is loaded and the timer started
    rw [greeAcOps_transmits quiet.st transmits] at after
    have held : s'.mutex = some t := by rw [after, mine]
    apply DevInv.within held (by rw [after]) others
    have calls : s'.calls = s.calls := by rw [after]
    simp only [AtPoint, calls]
    refine ⟨quiet.cfg, transmits, by rw [after]; rfl, ?_⟩
    apply sends_transmitFrame (by rw [after]) (by rw [after])
    · rw [← quiet.sent]
      exact quiet.loaded
    · rw [after]
      exact quiet.sent
    · exact quiet.bidx
    · exact quiet.done
    · rw [← quiet.sent]
      exact quiet.air
  | false =>
    -- the call goes straight to giving the mutex, and announces nothing
    rw [greeAcOps_silent transmits] at after
    have held : s'.mutex = some t := by rw [after, mine]
    apply DevInv.within held (by rw [after]) others
    have calls : s'.calls = s.calls := by rw [after]
    simp only [AtPoint, calls]
    refine ⟨quiet.cfg, ?_⟩
    have silent : c.transmits (storedBy s.calls) = false := by rw [← quiet.cfg, transmits]
    have same : announced gacCfg (s.calls ++ [c]) = announced gacCfg s.calls := by
      rw [announced_snoc, silent, if_neg Bool.false_ne_true, List.append_nil]
    subst after
    refine ⟨quiet.st, quiet.bidx, quiet.done, quiet.started, ?_, ?_, quiet.loaded, quiet.air⟩
    · rw [storedBy_append, store_of_not_transmits silent]
      exact quiet.cfg
    · rw [same]
      exact quiet.sent

omit [DecidableEq ι] in
/-- The semaphore is given only when the frame is complete. -/
theorem Sends.complete {before : List Frame} {f : Frame} (sends : Sends s before f)
    (given : s.ir.tx.done = true) :
    Sent f (before.flatMap pulseTrain) s.ir ∧ s.sent = before ++ [f] := by
  rcases sends.under with ⟨sending, -⟩ | ended
  · rw [sending.done] at given
    cases given
  · exact ended

theorem DevInv.wait0 (inv : DevInv s) {c : AcCall} {k : AcCfg → Prog Unit} {seen : AcCfg}
    (now : s.task t = .call c k (.wait0 seen)) (given : s.ir.tx.done = true)
    (after : s' = { s with
      world := (greeAcIrTranxNext s.world s.ir).1
      ir := (greeAcIrTranxNext s.world s.ir).2
      task := Function.update s.task t (.call c k (.wait1 seen)) }) : DevInv s' := by
  obtain ⟨mine, ⟨met, transmits, stored, sends⟩, others⟩ := inv.inCall now
  obtain ⟨ended, sent⟩ := sends.complete given
  have held : s'.mutex = some t := by rw [after, mine]
  apply DevInv.within held (by rw [after]) others
  have calls : s'.calls = s.calls := by rw [after]
  simp only [AtPoint, calls]
  refine ⟨met, transmits, by rw [after, ← stored]; rfl, ?_⟩
  -- `done` is taken before the second frame is loaded
  let taken : Ir := { s.ir with tx := { s.ir.tx with done := false } }
  have world : s'.world = (transmitFrame (loadFrame1 (c.store seen)) s.world taken).1 := by
    rw [after, greeAcIrTranxNext, stored]
  have ir : s'.ir = (transmitFrame (loadFrame1 (c.store seen)) s.world taken).2 := by
    rw [after, greeAcIrTranxNext, stored]
  apply sends_transmitFrame world ir
  · exact sends.loaded
  · rw [after]
    exact sent
  · exact ended.bidx
  · rfl
  · rw [List.flatMap_append, List.flatMap_singleton]
    exact ended.air

theorem DevInv.wait1 (inv : DevInv s) {c : AcCall} {k : AcCfg → Prog Unit} {seen : AcCfg}
    (now : s.task t = .call c k (.wait1 seen)) (given : s.ir.tx.done = true)
    (after : s' = { s with
      ir := { s.ir with tx := { s.ir.tx with done := false } }
      task := Function.update s.task t (.call c k (.give seen)) }) : DevInv s' := by
  obtain ⟨mine, ⟨met, transmits, stored, sends⟩, others⟩ := inv.inCall now
  obtain ⟨ended, sent⟩ := sends.complete given
  have held : s'.mutex = some t := by rw [after, mine]
  apply DevInv.within held (by rw [after]) others
  have calls : s'.calls = s.calls := by rw [after]
  simp only [AtPoint, calls]
  refine ⟨met, ?_⟩
  have pair : announced gacCfg (s.calls ++ [c]) = announced gacCfg s.calls ++
      [(loadFrame0 (c.store seen)).bits] ++ [(loadFrame1 (c.store seen)).bits] := by
    rw [met] at transmits
    rw [announced_snoc, if_pos transmits, storedBy_append, ← met, List.append_assoc]
    rfl
  subst after
  refine ⟨ended.st, ended.bidx, rfl, ended.started, ?_, ?_, ?_, ?_⟩
  · rw [storedBy_append, ← met]
    exact stored
  · rw [pair]
    exact sent
  · exact sends.loaded.trans sent.symm
  · rw [sent, List.flatMap_append, List.flatMap_singleton]
    exact ended.air

theorem DevInv.give (inv : DevInv s) {c : AcCall} {k : AcCfg → Prog Unit} {seen : AcCfg}
    (now : s.task t = .call c k (.give seen))
    (after : s' = { s with
      mutex := none
      task := Function.update s.task t (.run (k seen))
      calls := s.calls ++ [c] }) : DevInv s' := by
  obtain ⟨-, ⟨-, quiet⟩, others⟩ := inv.inCall now
  subst after
  refine ⟨⟨quiet.st, quiet.bidx, quiet.done, quiet.started, quiet.cfg, quiet.sent, quiet.loaded,
    quiet.air⟩, ?_⟩
  exact fun u => outside_update (others u)

omit [DecidableEq ι] in
theorem Quiet.not_started {calls : List AcCall} (quiet : Quiet s calls) :
    ¬ s.ir.started = true := by
  rw [quiet.started]
  exact Bool.false_ne_true

omit [DecidableEq ι] in
/-- While the timer runs the frame is still under way. -/
theorem Sends.sending {before : List Frame} {f : Frame} (sends : Sends s before f)
    (started : s.ir.started = true) :
    Sending f (before.flatMap pulseTrain) s.ir ∧ s.sent = before := by
  rcases sends.under with going | ⟨ended, -⟩
  · exact going
  · rw [ended.started] at started
    cases started

omit [DecidableEq ι] in
/-- The timer runs only while a frame is under way. -/
theorem DevInv.sending (inv : DevInv s) (started : s.ir.started = true) :
    ∃ f before, Sending f before s.ir := by
  cases holder : s.mutex with
  | none => exact absurd started (inv.free holder).1.not_started
  | some t =>
    obtain ⟨⟨c, k, point, -, here⟩, -⟩ := inv.held holder
    cases point with
    | body => exact absurd started (Quiet.not_started here)
    | wait0 seen => exact ⟨_, _, (here.2.2.2.sending started).1⟩
    | wait1 seen => exact ⟨_, _, (here.2.2.2.sending started).1⟩
    | give seen => exact absurd started here.2.not_started

omit [DecidableEq ι] in
theorem Sends.fires {before : List Frame} {f : Frame} (sends : Sends s before f)
    (started : s.ir.started = true) (world : s'.world = s.world) (ir : s'.ir = timCb s.ir)
    (sent' : s'.sent = if s.ir.tx.st = .reset then s.sent ++ [s.ir.tx.frame] else s.sent) :
    Sends s' before f := by
  refine ⟨by rw [world, sends.loaded], ?_⟩
  rw [ir, sent']
  obtain ⟨sending, sent⟩ := sends.sending started
  rcases sending.callback with ⟨busy, still⟩ | ⟨reset, ended⟩
  · exact Or.inl ⟨still, by rw [if_neg busy, sent]⟩
  · exact Or.inr ⟨ended, by rw [if_pos reset, sent, sending.frame]⟩

omit [DecidableEq ι] in
/-- The timer runs only for a frame of the holder's call. -/
theorem DevInv.alarm (inv : DevInv s) (started : s.ir.started = true)
    (after : s' = { s with
      ir := timCb s.ir
      sent := if s.ir.tx.st = .reset then s.sent ++ [s.ir.tx.frame] else s.sent }) :
    DevInv s' := by
  have world : s'.world = s.world := by rw [after]
  have ir : s'.ir = timCb s.ir := by rw [after]
  have calls : s'.calls = s.calls := by rw [after]
  have sent : s'.sent = if s.ir.tx.st = .reset then s.sent ++ [s.ir.tx.frame] else s.sent := by
    rw [after]
  apply inv.still (by rw [after]) (by rw [after])
  intro c point here
  -- before the first frame and behind the second the timer is stopped
  cases point with
  | body => exact absurd started (Quiet.not_started here)
  | give seen => exact absurd started here.2.not_started
  | wait0 seen =>
    simp only [AtPoint, calls, world] at here ⊢
    exact ⟨here.1, here.2.1, here.2.2.1, here.2.2.2.fires started world ir sent⟩
  | wait1 seen =>
    simp only [AtPoint, calls, world] at here ⊢
    exact ⟨here.1, here.2.1, here.2.2.1, here.2.2.2.fires started world ir sent⟩

/-- An operation outside the `ac_*` interface does not touch the device. -/
theorem perform_other {o : Op} (other : ∀ c, o ≠ .ac c) (w : World) :
    (World.perform o w).2.cfg = w.cfg ∧ (World.perform o w).2.loaded = w.loaded := by
  cases o with
  | ac c => exact absurd rfl (other c)
  | _ => exact ⟨rfl, rfl⟩

theorem DevInv.step (inv : DevInv s) (stepped : s.step t = some s') : DevInv s' := by
  cases Dev.step_cases stepped with
  | take c k now free after =>
    obtain ⟨quiet, all⟩ := inv.free free
    subst after
    refine DevInv.within rfl rfl (fun u _ => all u) ?_
    exact ⟨quiet.st, quiet.bidx, quiet.done, quiet.started, quiet.cfg, quiet.sent, quiet.loaded,
      quiet.air⟩
  | perform o k now other after =>
    obtain ⟨cfg, loaded⟩ := perform_other other s.world
    subst after
    exact inv.outside now rfl rfl rfl rfl rfl cfg loaded
  | body c k now after => exact inv.body now after
  | wait0 c k seen now given after => exact inv.wait0 now given after
  | wait1 c k seen now given after => exact inv.wait1 now given after
  | give c k seen now after => exact inv.give now after

theorem devStep_inv {hdl : ι} {a : DevAct ι} (inv : DevInv s)
    (stepped : devStep hdl s a = some s') : DevInv s' := by
  cases devStep_cases stepped with
  | start t p may now after =>
    subst after
    exact inv.outside now rfl rfl rfl rfl rfl rfl rfl
  | step t may moved => exact inv.step moved
  | clock gtick after =>
    subst after
    exact inv.still rfl rfl fun c point here => here.congr rfl rfl rfl rfl rfl
  | alarm started after => exact inv.alarm started after

omit [DecidableEq ι] in
theorem Dev.boot_inv (gtick : Int) : DevInv (Dev.boot gtick : Dev ι) :=
  ⟨⟨rfl, rfl, rfl, rfl, rfl, rfl, rfl, rfl⟩, fun _ => ⟨.ret (), rfl⟩⟩

/-! ### The air agrees with the store -/

/-- The idle states are idle, no transmission is dropped, no frame is disturbed,
and what has been on the air is the pairs of the calls in mutex order. -/
structure AirAgrees (hdl : ι) (s : Dev ι) : Prop where
  free : s.mutex = none → s.ir.tx.st = .reset ∧ s.ir.tx.bidx = 0 ∧
    s.ir.tx.done = false ∧ s.ir.started = false
  sends : ∀ t c k, s.task t = .call c k .body → ∀ w, (greeAcIrTranx w s.ir).isSome = true
  frame : ∀ a s', devStep hdl s a = some s' → s.ir.started = true →
    s'.ir.tx.frame = s.ir.tx.frame
  pairs : ∃ more, s.sent = announced gacCfg s.calls ++ more ∧
    more <+: framePair s.world.cfg ∧ (s.mutex = none → more = [])
  air : s.mutex = none → s.ir.air = s.sent.flatMap pulseTrain ∧ s.world.cfg = storedBy s.calls

/-- While the timer runs, the only step that moves the transmitter is the callback. -/
theorem DevInv.frame (inv : DevInv s) (started : s.ir.started = true) {hdl : ι} {a : DevAct ι}
    (stepped : devStep hdl s a = some s') : s'.ir.tx.frame = s.ir.tx.frame := by
  obtain ⟨f, before, sending⟩ := inv.sending started
  -- the waits end on a `done` that is not given before the frame is complete
  have waits : ¬ s.ir.tx.done = true := by
    rw [sending.done]
    exact Bool.false_ne_true
  cases devStep_cases stepped with
  | alarm _ after =>
    subst after
    rw [sending.frame]
    rcases sending.callback with ⟨-, still⟩ | ⟨-, ended⟩
    · exact still.frame
    · exact ended.frame
  | start t p may now after =>
    subst after
    rfl
  | clock gtick after =>
    subst after
    rfl
  | step t may moved =>
    cases Dev.step_cases moved with
    | take c k now free after =>
      subst after
      rfl
    | perform o k now other after =>
      subst after
      rfl
    | give c k seen now after =>
      subst after
      rfl
    | body c k now after =>
      have quiet : Quiet s s.calls := (inv.inCall now).2.1
      exact absurd started quiet.not_started
    | wait0 c k seen now given after => exact absurd given waits
    | wait1 c k seen now given after => exact absurd given waits

omit [DecidableEq ι] in
theorem DevInv.pairs (inv : DevInv s) : ∃ more, s.sent = announced gacCfg s.calls ++ more ∧
    more <+: framePair s.world.cfg ∧ (s.mutex = none → more = []) := by
  have complete : ∀ {calls}, Quiet s calls → s.sent = announced gacCfg calls ++ [] := by
    intro calls quiet
    rw [List.append_nil, quiet.sent]
  cases holder : s.mutex with
  | none => exact ⟨[], complete (inv.free holder).1, List.nil_prefix, fun _ => rfl⟩
  | some t =>
    obtain ⟨⟨c, k, point, there, here⟩, -⟩ := inv.held holder
    suffices part : ∃ more, s.sent = announced gacCfg s.calls ++ more ∧
        more <+: framePair s.world.cfg by
      obtain ⟨more, sent, within⟩ := part
      exact ⟨more, sent, within, fun free => by cases free⟩
    -- of the pair of the call under way: none, the first, or both
    cases point with
    | body => exact ⟨[], complete here, List.nil_prefix⟩
    | wait0 seen =>
      obtain ⟨-, -, stored, sends⟩ := here
      rw [stored]
      rcases sends.under with ⟨-, sent⟩ | ⟨-, sent⟩
      · exact ⟨[], by rw [sent, List.append_nil], List.nil_prefix⟩
      · exact ⟨_, sent, List.prefix_append _ [_]⟩
    | wait1 seen =>
      obtain ⟨-, -, stored, sends⟩ := here
      rw [stored]
      rcases sends.under with ⟨-, sent⟩ | ⟨-, sent⟩
      · exact ⟨_, sent, List.prefix_append _ [_]⟩
      · exact ⟨framePair (c.store seen), by rw [sent, List.append_assoc]; rfl, List.prefix_refl _⟩
    | give seen =>
      obtain ⟨-, quiet⟩ := here
      have sent := quiet.sent
      rw [announced_snoc, ← quiet.cfg] at sent
      split at sent
      · exact ⟨_, sent, List.prefix_refl _⟩
      · exact ⟨[], sent, List.nil_prefix⟩

/-- Whatever any number of tasks call in whatever order, the air trace agrees
with the store. -/
theorem devStep_airAgrees (hdl : ι) (gtick : Int) (as : List (DevAct ι)) :
    Visits (devStep hdl) (AirAgrees hdl) (.boot gtick) as := by
  apply visits_of_reached
  intro bs s reached
  have inv : DevInv s :=
    run_invariant (fun _ _ _ kept stepped => devStep_inv kept stepped) (Dev.boot_inv gtick) reached
  refine ⟨?_, ?_, ?_, inv.pairs, ?_⟩
  · intro free
    obtain ⟨quiet, -⟩ := inv.free free
    exact ⟨quiet.st, quiet.bidx, quiet.done, quiet.started⟩
  · intro t c k now w
    have quiet : Quiet s s.calls := (inv.inCall now).2.1
    rw [greeAcIrTranx, if_neg (not_not.mpr quiet.st)]
    rfl
  · intro a s' stepped started
    exact inv.frame started stepped
  · intro free
    obtain ⟨quiet, -⟩ := inv.free free
    exact ⟨quiet.air, quiet.cfg⟩

end Invariant

end IrCtl

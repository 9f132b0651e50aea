import IrCtl.Gree.Receiver
import IrCtl.Firmware

/-!
# The air conditioner

What obeys the frames it hears, those that satisfy the block checksum. In every
run of the firmware it follows what the frames carry of the stored configuration,
and the second frame of a pair makes up for damage to the first.
-/

namespace IrCtl

open Transition

/-- What an air conditioner is set to. -/
structure AirCon where
  power : U8
  sleep : U8
  temp : Nat
  deriving DecidableEq, Repr

/-- A frame whose checksum is right is obeyed, any other ignored. -/
def AirCon.obey (ac : AirCon) (f : Frame) : AirCon :=
  if BlockChecked f then
    ⟨(Frame.gif f).swi.setWidth 8, (Frame.gif f).sleepEn.setWidth 8, setpoint f⟩
  else ac

def AirCon.listen (ac : AirCon) (air : List Interval) : AirCon := (hear air).1.foldl obey ac

/-- What a configuration asks for. -/
def AcCfg.setting (cfg : AcCfg) : AirCon := ⟨cfg.open_, cfg.sleep, cfg.temp.toNat⟩

/-- What the frames of a configuration say: of the temperature they have the low
four bits. -/
def AcCfg.carried (cfg : AcCfg) : AirCon := ⟨cfg.open_, cfg.sleep, 16 + cfg.temp.toNat % 16⟩

/-- The frames say what is asked for just when the temperature is from 16 to 31. -/
theorem carried_eq_setting_iff (cfg : AcCfg) : cfg.carried = cfg.setting ↔ Fits cfg.temp := by
  simp only [AcCfg.carried, AcCfg.setting, AirCon.mk.injEq, true_and, Fits]
  omega

theorem obey_framePair {f : Frame} {cfg : AcCfg} (ok : CfgOk cfg) (member : f ∈ framePair cfg)
    (ac : AirCon) : ac.obey f = cfg.carried := by
  have whole : ∀ {b : U8}, b = 0 ∨ b = 1 → (b.setWidth 1).setWidth 8 = b := by
    rintro b (rfl | rfl) <;> rfl
  rw [AirCon.obey, if_pos (framePair_checked cfg ok.open_ member), setpoint_framePair member,
    AcCfg.carried]
  rcases mem_framePair.mp member with rfl | rfl
  · obtain ⟨-, swi, -, sleepEn⟩ := loadFrame0_setting cfg
    rw [gif_bits, swi, sleepEn, whole ok.open_, whole ok.sleep]
  · obtain ⟨-, swi, -, sleepEn⟩ := loadFrame1_setting cfg
    rw [gif_bits, swi, sleepEn, whole ok.open_, whole ok.sleep]

/-- Whatever came before, a frame of the pair settles it. -/
theorem obey_pair {before more : List Frame} {cfg : AcCfg} (ok : CfgOk cfg) (some_heard : more ≠ [])
    (pair : ∀ f ∈ more, f ∈ framePair cfg) (ac : AirCon) :
    (before ++ more).foldl AirCon.obey ac = cfg.carried := by
  -- the last frame decides
  obtain ⟨front, last, rfl⟩ := (List.eq_nil_or_concat more).resolve_left some_heard
  rw [List.concat_eq_append, ← List.append_assoc, List.foldl_append, List.foldl_cons, List.foldl_nil]
  exact obey_framePair ok (pair last (by simp)) _

/-! ### One byte damaged -/

/-- The nibble of a byte that the checksum covers; of byte 4 it covers none. -/
def coveredNibble (k : Fin 9) (b : U8) : Nat :=
  if k < 4 then loNibble b else if k = 4 then 0 else hiNibble b

/-- An error in one byte is found just when it is in the nibble covered. -/
theorem blockChecked_set_iff {f : Frame} (checked : BlockChecked f) (k : Fin 9) (b : U8) :
    BlockChecked (f.set k b) ↔ coveredNibble k b = coveredNibble k f[k] := by
  have low : ∀ c : U8, loNibble c < 16 := fun c => Nat.mod_lt _ (by decide)
  have high : ∀ c : U8, hiNibble c < 16 := fun c => Nat.div_lt_of_lt_mul c.isLt
  have lowb := low b
  have highb := high b
  have low0 := low f[0]
  have low1 := low f[1]
  have low2 := low f[2]
  have low3 := low f[3]
  -- of bytes 5 to 8 the high nibbles are summed
  have high5 := high f[5]
  have high6 := high f[6]
  have high7 := high f[7]
  have high8 := high f[8]
  obtain ⟨k, byte⟩ := k
  unfold BlockChecked at checked ⊢
  interval_cases k <;> simp [coveredNibble] <;> omega

/-- The flags and the temperature are in the low nibbles of bytes 0 and 1, but
for the sleep flag, which no nibble covers. -/
private theorem nibble_reads : ∀ b c : U8, loNibble b = loNibble c →
    b.extractLsb' 3 1 = c.extractLsb' 3 1 ∧ b.extractLsb' 0 4 = c.extractLsb' 0 4 := by
  intro b c same
  have bits : b.extractLsb' 0 4 = c.extractLsb' 0 4 := by
    apply BitVec.eq_of_toNat_eq
    simpa [loNibble, BitVec.extractLsb'_toNat] using same
  refine ⟨?_, bits⟩
  have third := congrArg (fun v => v.extractLsb' 3 1) bits
  simpa using third

/-- The damage that is obeyed as something else: the sleep flag, and no bit of
the nibble covered. -/
def FlipsSleep (f : Frame) (k : Fin 9) (b : U8) : Prop :=
  k.val = 0 ∧ loNibble b = loNibble f[k] ∧ b.extractLsb' 7 1 ≠ f[k].extractLsb' 7 1

theorem not_flipsSleep {f : Frame} {k : Fin 9} (other : k ≠ 0) (b : U8) : ¬ FlipsSleep f k b :=
  fun flips => other (Fin.ext flips.1)

/-- Of what the receiver reads, damage that the checksum passes changes the
sleep flag only. -/
theorem damaged_reads (f : Frame) (k : Fin 9) (b : U8)
    (passes : coveredNibble k b = coveredNibble k f[k]) :
    (Frame.gif (f.set k b)).swi = (Frame.gif f).swi ∧ setpoint (f.set k b) = setpoint f ∧
      ((Frame.gif (f.set k b)).sleepEn = (Frame.gif f).sleepEn ↔ ¬ FlipsSleep f k b) := by
  by_cases first : k = 0
  · subst first
    have same : loNibble b = loNibble f[0] := passes
    have swi := (nibble_reads b f[0] same).1
    simp [Frame.gif, setpoint, FlipsSleep, same, swi]
  · have byte0 : (f.set k b)[0] = f[0] := Vector.getElem_set_ne _ _ (Fin.val_ne_of_ne first)
    simp only [not_flipsSleep first b, not_false_eq_true, iff_true]
    by_cases second : k = 1
    · subst second
      have temper := (nibble_reads b f[1] passes).2
      simp [Frame.gif, setpoint, temper]
    · have byte1 : (f.set k b)[1] = f[1] := Vector.getElem_set_ne _ _ (Fin.val_ne_of_ne second)
      simp [Frame.gif, setpoint, byte0, byte1]

theorem obey_damaged {f : Frame} {cfg : AcCfg} (ok : CfgOk cfg) (member : f ∈ framePair cfg)
    (k : Fin 9) (b : U8) : cfg.carried.obey (f.set k b) = cfg.carried ↔ ¬ FlipsSleep f k b := by
  have checked := framePair_checked cfg ok.open_ member
  have obeyed := obey_framePair ok member cfg.carried
  rw [AirCon.obey, if_pos checked] at obeyed
  rw [AirCon.obey]
  by_cases passes : coveredNibble k b = coveredNibble k f[k]
  · obtain ⟨swi, temp, sleepEn⟩ := damaged_reads f k b passes
    have flag : ∀ x y : BitVec 1, x.setWidth 8 = y.setWidth 8 ↔ x = y := by decide
    rw [if_pos ((blockChecked_set_iff checked k b).mpr passes), swi, temp, ← obeyed, ← sleepEn,
      AirCon.mk.injEq]
    exact ⟨fun same => (flag _ _).mp same.2.1, fun same => ⟨rfl, (flag _ _).mpr same, rfl⟩⟩
  · -- an error found: the frame is ignored
    have kept : ¬ FlipsSleep f k b := by
      rintro ⟨zero, same, -⟩
      obtain rfl : k = 0 := Fin.ext zero
      exact passes same
    rw [if_neg (mt (blockChecked_set_iff checked k b).mp passes)]
    exact iff_of_true rfl kept

/-- A frame damaged in one byte arrives damaged in that byte at most. -/
theorem onAir_set {f : Frame} {cfg : AcCfg} (member : f ∈ framePair cfg) (k : Fin 9) (b : U8) :
    ∃ b', Frame.onAir (f.set k b) = f.set k b' ∧ (FlipsSleep f k b' ↔ FlipsSleep f k b) := by
  by_cases fourth : k = 4
  · -- of byte 4 three bits arrive
    subst fourth
    refine ⟨b &&& 7, ?_, ?_⟩
    · simp [Frame.onAir]
    · exact iff_of_false (not_flipsSleep (by decide) _) (not_flipsSleep (by decide) _)
  · refine ⟨b, ?_, Iff.rfl⟩
    have other : k.val ≠ 4 := Fin.val_ne_of_ne fourth
    have byte4 : (f.set k b)[4] = f[4] := Vector.getElem_set_ne _ _ other
    have whole := framePair_onAir member
    rw [Frame.onAir] at whole
    rw [Frame.onAir, byte4, Vector.set_comm _ _ other, whole]

/-- The two frames back each other up: whatever one byte of the first arrives
as, the pair is obeyed; of the second, it may be the sleep flag that is lost. -/
theorem listen_damaged {cfg : AcCfg} (ok : CfgOk cfg) (ac : AirCon) (k : Fin 9) (b : U8) :
    ac.listen (pulseTrain ((loadFrame0 cfg).bits.set k b) ++ pulseTrain (loadFrame1 cfg).bits) =
      cfg.carried ∧
    (ac.listen (pulseTrain (loadFrame0 cfg).bits ++ pulseTrain ((loadFrame1 cfg).bits.set k b)) =
      cfg.carried ↔ ¬ FlipsSleep (loadFrame1 cfg).bits k b) := by
  have first : (loadFrame0 cfg).bits ∈ framePair cfg := mem_framePair.mpr (Or.inl rfl)
  have second : (loadFrame1 cfg).bits ∈ framePair cfg := mem_framePair.mpr (Or.inr rfl)
  have two : ∀ f g : Frame, ac.listen (pulseTrain f ++ pulseTrain g) =
      (ac.obey f.onAir).obey g.onAir := by
    intro f g
    have short : ([] : List Interval).length < 140 := by decide
    have heard := hear_pulseTrains [f, g] short
    simp only [List.flatMap_cons, List.flatMap_nil, List.append_nil] at heard
    rw [AirCon.listen, heard]
    rfl
  constructor
  · -- the second frame settles it, whatever the first has done
    rw [two, framePair_onAir second]
    exact obey_framePair ok second _
  · -- the first frame has been obeyed, so ignoring the second does no harm
    obtain ⟨b', arrives, same⟩ := onAir_set second k b
    rw [two, framePair_onAir first, arrives, obey_framePair ok first, ← same]
    exact obey_damaged ok second k b'

/-- Another setting before it, the pair is obeyed without the fourth byte of its
first frame, and not with the sleep flag of its second flipped. -/
theorem listen_damaged_gacCfg :
    AirCon.listen ⟨1, 0, 30⟩ (pulseTrain ((loadFrame0 gacCfg).bits.set (3 : Fin 9) 0xff) ++
      pulseTrain (loadFrame1 gacCfg).bits) = gacCfg.carried ∧
    AirCon.listen ⟨1, 0, 30⟩ (pulseTrain (loadFrame0 gacCfg).bits ++
      pulseTrain ((loadFrame1 gacCfg).bits.set (0 : Fin 9) 0x41)) ≠ gacCfg.carried := by
  refine ⟨(listen_damaged gacCfg_ok _ 3 0xff).1, ?_⟩
  rw [Ne, (listen_damaged gacCfg_ok _ 0 0x41).2, not_not]
  exact ⟨rfl, by decide, by decide⟩

/-! ### Following the firmware -/

/-- The last pair announced is that of the stored configuration. -/
theorem announced_last (calls : List AcCall) :
    announced gacCfg calls = [] ∧ storedBy calls = gacCfg ∨
      ∃ before, announced gacCfg calls = before ++ framePair (storedBy calls) := by
  induction calls using List.reverseRecOn with
  | nil => exact Or.inl ⟨rfl, rfl⟩
  | append_singleton calls c ih =>
    rw [announced_snoc]
    cases transmits : c.transmits (storedBy calls) with
    | true => exact Or.inr ⟨announced gacCfg calls, rfl⟩
    | false =>
      rw [storedBy_append, store_of_not_transmits transmits]
      simpa using ih

section Obeyed

variable {ι : Type} {s : Dev ι}

theorem DevInv.loaded_pairs (inv : DevInv s) :
    ∃ more, s.world.loaded = announced gacCfg s.calls ++ more ∧ more <+: framePair s.world.cfg ∧
      (s.mutex = none → more = []) := by
  cases holder : s.mutex with
  | none =>
    obtain ⟨quiet, -⟩ := inv.free holder
    exact ⟨[], by rw [quiet.loaded, quiet.sent, List.append_nil], List.nil_prefix, fun _ => rfl⟩
  | some t =>
    obtain ⟨⟨c, k, point, -, here⟩, -⟩ := inv.held holder
    suffices part : ∃ more, s.world.loaded = announced gacCfg s.calls ++ more ∧
        more <+: framePair s.world.cfg by
      obtain ⟨more, loaded, within⟩ := part
      exact ⟨more, loaded, within, fun free => by cases free⟩
    cases point with
    | body =>
      have quiet : Quiet s s.calls := here
      exact ⟨[], by rw [quiet.loaded, quiet.sent, List.append_nil], List.nil_prefix⟩
    | wait0 seen =>
      obtain ⟨-, -, stored, sends⟩ := here
      rw [stored]
      exact ⟨_, sends.loaded, List.prefix_append _ [_]⟩
    | wait1 seen =>
      obtain ⟨-, -, stored, sends⟩ := here
      rw [stored]
      exact ⟨framePair (c.store seen), by rw [sends.loaded, List.append_assoc]; rfl,
        List.prefix_refl _⟩
    | give seen =>
      obtain ⟨-, quiet⟩ := here
      obtain ⟨more, sent, within, -⟩ := inv.pairs
      exact ⟨more, by rw [quiet.loaded, sent], within⟩

/-- What is heard beyond the completed calls is of the pair of the call under way. -/
theorem DevInv.heard_pairs (inv : DevInv s) :
    ∃ more, (hear s.ir.air).1 = announced gacCfg s.calls ++ more ∧
      (∀ f ∈ more, f ∈ framePair s.world.cfg) ∧ (s.mutex = none → more = []) := by
  obtain ⟨begun, sent, -, -⟩ := inv.pairs
  obtain ⟨all, loaded, pair, free⟩ := inv.loaded_pairs
  have heard := inv.heard
  -- the completed calls are heard: their frames have been sent
  obtain ⟨more, split⟩ : announced gacCfg s.calls <+: (hear s.ir.air).1 := by
    refine List.IsPrefix.trans ?_ heard.sent
    rw [sent]
    exact List.prefix_append _ _
  have within : more <+: all := by
    have upper := heard.heard
    rw [← split, loaded] at upper
    exact (List.prefix_append_right_inj _).mp upper
  refine ⟨more, split.symm, fun f member => pair.subset (within.subset member), ?_⟩
  intro idle
  rw [free idle] at within
  exact List.prefix_nil.mp within

/-- An air conditioner that listens is set to what the frames of the completed calls
say, or those of the one under way; with the mutex free, those of the stored
configuration, which is what that asks for if its temperature is in range. It
keeps the setting it had only before the first frame. -/
structure Obeyed (ac : AirCon) (s : Dev ι) : Prop where
  carried : (hear s.ir.air).1 ≠ [] →
    ac.listen s.ir.air = (storedBy s.calls).carried ∨ ac.listen s.ir.air = s.world.cfg.carried
  free : s.mutex = none → (hear s.ir.air).1 ≠ [] → ac.listen s.ir.air = s.world.cfg.carried ∧
    (ac.listen s.ir.air = s.world.cfg.setting ↔ Fits s.world.cfg.temp)
  silent : s.mutex = none → (hear s.ir.air).1 = [] → s.world.cfg = gacCfg

theorem DevInv.obeyed (inv : DevInv s) (ok : CfgOk s.world.cfg) (before : CfgOk (storedBy s.calls))
    (ac : AirCon) : Obeyed ac s := by
  obtain ⟨more, heard, pair, none_more⟩ := inv.heard_pairs
  -- nothing heard of the call under way
  have completed : more = [] → (hear s.ir.air).1 ≠ [] →
      ac.listen s.ir.air = (storedBy s.calls).carried := by
    intro none_more some_heard
    rw [none_more, List.append_nil] at heard
    obtain ⟨silent, -⟩ | ⟨front, last⟩ := announced_last s.calls
    · exact absurd (heard.trans silent) some_heard
    · rw [AirCon.listen, heard, last]
      exact obey_pair before (List.cons_ne_nil _ _) (fun f member => member) ac
  constructor
  · intro some_heard
    by_cases started : more = []
    · exact Or.inl (completed started some_heard)
    · rw [AirCon.listen, heard]
      exact Or.inr (obey_pair ok started pair ac)
  · intro free some_heard
    have said := completed (none_more free) some_heard
    rw [← (inv.free free).1.cfg] at said
    exact ⟨said, by rw [said, carried_eq_setting_iff]⟩
  · intro free silent
    rw [heard] at silent
    rw [(inv.free free).1.cfg]
    obtain ⟨-, boot⟩ | ⟨front, last⟩ := announced_last s.calls
    · exact boot
    · rw [last] at silent
      simp [framePair] at silent

end Obeyed

/-- What the calls completed so far have stored is in order. -/
theorem firmware_storedBy {cj : CJson} {gtick : Int} {as : List FirmwareAct} {s : Dev Tid}
    (reached : run (firmwareStep cj) (.boot gtick) as = some s) : CfgOk (storedBy s.calls) := by
  have boot : CfgOk (storedBy (Dev.boot gtick : Dev Tid).calls) := gacCfg_ok
  apply run_invariant_of_reached (I := fun s => CfgOk (storedBy s.calls)) ?_ boot reached
  intro as s a s' reached ok stepped
  cases firmwareStep_cases stepped with
  | still _ which suspended mutex task calls =>
    rw [calls]
    exact ok
  | take stim may now after =>
    subst after
    exact ok
  | step t may moved =>
    obtain ⟨inv, stored⟩ := firmware_reached reached
    cases Dev.step_cases moved with
    | give c k seen now after =>
      -- the call that completes has left its configuration in the store
      obtain ⟨-, ⟨-, quiet⟩, -⟩ := inv.inCall now
      subst after
      rw [← quiet.cfg]
      exact stored.cfg
    | take c k now free after => subst after; exact ok
    | perform o k now other after => subst after; exact ok
    | body c k now after => subst after; exact ok
    | wait0 c k seen now given after => subst after; exact ok
    | wait1 c k seen now given after => subst after; exact ok

theorem firmwareStep_obeyed (cj : CJson) (gtick : Int) (ac : AirCon) (as : List FirmwareAct) :
    Visits (firmwareStep cj) (Obeyed ac) (.boot gtick) as := by
  apply visits_of_reached
  intro bs s reached
  obtain ⟨inv, ok⟩ := firmware_reached reached
  exact inv.obeyed ok.cfg (firmware_storedBy reached) ac

end IrCtl

import Mathlib.Data.BitVec
import Mathlib.Tactic.IntervalCases

/-!
# The device configuration and the frames built from it

`struct ac_cfg`, `struct gree_irframe` with its byte layout, the two frame
literals of `gree_ac_ir_tranx`, and the block checksum they satisfy although the
code never computes it.
-/

namespace IrCtl

abbrev U8 := BitVec 8

/-- `struct ac_cfg`. -/
@[ext]
structure AcCfg where
  open_ : U8
  tempAct : U8
  tempSlp : U8
  temp : U8
  sleep : U8
  deriving DecidableEq, Repr

/-- `struct gree_irframe`; a field a literal does not name is zero. -/
structure GreeIrframe where
  -- byte 0
  mode : BitVec 3 := 0
  swi : BitVec 1 := 0
  speed : BitVec 2 := 0
  swingEn : BitVec 1 := 0
  sleepEn : BitVec 1 := 0
  -- byte 1
  temper : BitVec 4 := 0
  tmr1 : BitVec 4 := 0
  rev0 : U8 := 0
  rev1 : U8 := 0
  spec3 : U8 := 0
  -- byte 5
  swingLr : BitVec 4 := 0
  swingUd : BitVec 4 := 0
  tview : U8 := 0
  rev2 : U8 := 0
  -- byte 8
  rev3 : BitVec 4 := 0
  check : BitVec 4 := 0
  deriving DecidableEq, Repr

/-- The nine bytes of the union `tx.frame`. -/
abbrev Frame := Vector U8 9

/-- `frame.bits` after `frame.gif` is stored: the first declared bit-field of a
byte takes its low bits. -/
def GreeIrframe.bits (g : GreeIrframe) : Frame :=
  #v[g.sleepEn ++ g.swingEn ++ g.speed ++ g.swi ++ g.mode, g.tmr1 ++ g.temper,
    g.rev0, g.rev1, g.spec3, g.swingUd ++ g.swingLr, g.tview, g.rev2, g.check ++ g.rev3]

/-- `frame.gif` read back from the bytes. -/
def Frame.gif (f : Frame) : GreeIrframe where
  mode := f[0].extractLsb' 0 3
  swi := f[0].extractLsb' 3 1
  speed := f[0].extractLsb' 4 2
  swingEn := f[0].extractLsb' 6 1
  sleepEn := f[0].extractLsb' 7 1
  temper := f[1].extractLsb' 0 4
  tmr1 := f[1].extractLsb' 4 4
  rev0 := f[2]
  rev1 := f[3]
  spec3 := f[4]
  swingLr := f[5].extractLsb' 0 4
  swingUd := f[5].extractLsb' 4 4
  tview := f[6]
  rev2 := f[7]
  rev3 := f[8].extractLsb' 0 4
  check := f[8].extractLsb' 4 4

private theorem nibbles_split : ∀ hi lo : BitVec 4,
    (hi ++ lo : U8).extractLsb' 0 4 = lo ∧ (hi ++ lo : U8).extractLsb' 4 4 = hi := by
  decide

private theorem byte0_split : ∀ (sleepEn swingEn : BitVec 1) (speed : BitVec 2) (swi : BitVec 1)
    (mode : BitVec 3),
    let b : U8 := sleepEn ++ swingEn ++ speed ++ swi ++ mode
    b.extractLsb' 0 3 = mode ∧ b.extractLsb' 3 1 = swi ∧ b.extractLsb' 4 2 = speed ∧
      b.extractLsb' 6 1 = swingEn ∧ b.extractLsb' 7 1 = sleepEn := by
  decide

/-- The layout loses nothing: the union reads back the structure stored in it. -/
@[simp] theorem gif_bits (g : GreeIrframe) : Frame.gif g.bits = g := by
  obtain ⟨mode, swi, speed, swingEn, sleepEn⟩ :=
    byte0_split g.sleepEn g.swingEn g.speed g.swi g.mode
  -- the three bytes made of two nibbles
  obtain ⟨temper, tmr1⟩ := nibbles_split g.tmr1 g.temper
  obtain ⟨swingLr, swingUd⟩ := nibbles_split g.swingUd g.swingLr
  obtain ⟨rev3, check⟩ := nibbles_split g.check g.rev3
  cases g
  simp only [Frame.gif, GreeIrframe.bits, GreeIrframe.mk.injEq] at *
  exact ⟨mode, swi, speed, swingEn, sleepEn, temper, tmr1, rfl, rfl, rfl, swingLr, swingUd,
    rfl, rfl, rev3, check⟩

private theorem byte_join : ∀ b : U8,
    (b.extractLsb' 7 1 ++ b.extractLsb' 6 1 ++ b.extractLsb' 4 2 ++ b.extractLsb' 3 1 ++
      b.extractLsb' 0 3 : U8) = b ∧ (b.extractLsb' 4 4 ++ b.extractLsb' 0 4 : U8) = b := by
  decide +kernel

/-- Every nine bytes are the layout of some structure. -/
theorem bits_gif (f : Frame) : (Frame.gif f).bits = f := by
  apply Vector.ext
  intro i bound
  simp only [GreeIrframe.bits, Frame.gif, byte_join]
  interval_cases i <;> rfl

def greeFrame0 (swi temp : U8) : GreeIrframe where
  mode := 1
  sleepEn := 1
  swingEn := 1
  swi := swi.setWidth 1
  temper := temp.setWidth 4
  rev0 := 0x20
  rev1 := 0x50
  spec3 := 0x02
  swingLr := 1
  tview := 0x40
  swingUd := 0x0

def greeFrame1 (swi temp : U8) : GreeIrframe where
  mode := 1
  sleepEn := 1
  swingEn := 1
  swi := swi.setWidth 1
  temper := temp.setWidth 4
  rev0 := 0x20
  rev1 := 0x70
  spec3 := 0x02
  tview := 0x00
  swingUd := 0x8
  rev2 := 0x80

def nibble (n : Int) : BitVec 4 := BitVec.ofInt 4 n

def loadFrame0 (cfg : AcCfg) : GreeIrframe :=
  -- the literal enables sleep; the patch takes it from the configuration
  let gif := greeFrame0 cfg.open_ cfg.temp
  let gif := { gif with sleepEn := cfg.sleep.setWidth 1 }
  let gif := { gif with swi := cfg.open_.setWidth 1 }
  if cfg.open_ ≠ 0 then
    { gif with check := nibble (cfg.temp.toNat + 7) }
  else
    { gif with check := nibble (cfg.temp.toNat - 1) }

def loadFrame1 (cfg : AcCfg) : GreeIrframe :=
  let gif := greeFrame1 cfg.open_ cfg.temp
  let gif := { gif with sleepEn := cfg.sleep.setWidth 1 }
  let gif := { gif with swi := cfg.open_.setWidth 1 }
  if cfg.open_ ≠ 0 then
    { gif with check := nibble (cfg.temp.toNat + 3) }
  else
    { gif with swingUd := 0, check := nibble (cfg.temp.toNat + 3) }

/-- The bytes of the two frames that announce a configuration, in sending order. -/
def framePair (cfg : AcCfg) : List Frame := [(loadFrame0 cfg).bits, (loadFrame1 cfg).bits]

/-! ### What the receiver reads -/

def setpoint (f : Frame) : Nat := 16 + (Frame.gif f).temper.toNat

def loNibble (b : U8) : Nat := b.toNat % 16

def hiNibble (b : U8) : Nat := b.toNat / 16

/-- The block checksum: ten plus the low nibbles of bytes 0 to 3 and the high
nibbles of bytes 5 to 7, in the high nibble of byte 8. -/
def BlockChecked (f : Frame) : Prop :=
  hiNibble f[8] = (10 + loNibble f[0] + loNibble f[1] + loNibble f[2] + loNibble f[3] +
    hiNibble f[5] + hiNibble f[6] + hiNibble f[7]) % 16

instance (f : Frame) : Decidable (BlockChecked f) := inferInstanceAs (Decidable (_ = _))

def SameSetting (f g : Frame) : Prop :=
  (Frame.gif f).mode = (Frame.gif g).mode ∧ (Frame.gif f).swi = (Frame.gif g).swi ∧
    (Frame.gif f).temper = (Frame.gif g).temper ∧ (Frame.gif f).sleepEn = (Frame.gif g).sleepEn

@[simp] theorem loadFrame0_setting (cfg : AcCfg) :
    (loadFrame0 cfg).mode = 1 ∧ (loadFrame0 cfg).swi = cfg.open_.setWidth 1 ∧
    (loadFrame0 cfg).temper = cfg.temp.setWidth 4 ∧
    (loadFrame0 cfg).sleepEn = cfg.sleep.setWidth 1 := by
  unfold loadFrame0
  split <;> exact ⟨rfl, rfl, rfl, rfl⟩

@[simp] theorem loadFrame1_setting (cfg : AcCfg) :
    (loadFrame1 cfg).mode = 1 ∧ (loadFrame1 cfg).swi = cfg.open_.setWidth 1 ∧
    (loadFrame1 cfg).temper = cfg.temp.setWidth 4 ∧
    (loadFrame1 cfg).sleepEn = cfg.sleep.setWidth 1 := by
  unfold loadFrame1
  split <;> exact ⟨rfl, rfl, rfl, rfl⟩

theorem mem_framePair {f : Frame} {cfg : AcCfg} :
    f ∈ framePair cfg ↔ f = (loadFrame0 cfg).bits ∨ f = (loadFrame1 cfg).bits := by
  simp only [framePair, List.mem_cons, List.not_mem_nil, or_false]

theorem framePair_same (cfg : AcCfg) :
    SameSetting (loadFrame0 cfg).bits (loadFrame1 cfg).bits := by
  simp [SameSetting]

/-- The temperature on the air is the stored one modulo sixteen. -/
theorem setpoint_framePair {f : Frame} {cfg : AcCfg} (member : f ∈ framePair cfg) :
    setpoint f = 16 + cfg.temp.toNat % 16 := by
  rcases mem_framePair.mp member with rfl | rfl <;> simp [setpoint]

/-- The nibble sums to the stored temperature exactly in the range it can carry. -/
theorem setpoint_eq_iff {f : Frame} {cfg : AcCfg} (member : f ∈ framePair cfg) :
    setpoint f = cfg.temp.toNat ↔ 16 ≤ cfg.temp.toNat ∧ cfg.temp.toNat ≤ 31 := by
  rw [setpoint_framePair member]
  omega

/-- A frame as it goes on the air, without bits 35 to 39. -/
def Frame.onAir (f : Frame) : Frame := f.set 4 (f[4] &&& (7 : U8))

/-! ### The checksum -/

private theorem nibble_add (b : U8) (n : Int) :
    nibble (b.toNat + n) = b.setWidth 4 + BitVec.ofInt 4 n := by
  unfold nibble
  rw [BitVec.ofInt_add]
  congr 1

/-- The four frame shapes, with the nibbles that vary left open. -/
private theorem shapes_checked : ∀ (sleepEn : BitVec 1) (temper : BitVec 4),
    BlockChecked (GreeIrframe.bits { greeFrame0 1 0 with
      sleepEn := sleepEn, swi := 1, temper := temper, check := temper + 7 }) ∧
    BlockChecked (GreeIrframe.bits { greeFrame0 0 0 with
      sleepEn := sleepEn, swi := 0, temper := temper, check := temper + BitVec.ofInt 4 (-1) }) ∧
    BlockChecked (GreeIrframe.bits { greeFrame1 1 0 with
      sleepEn := sleepEn, swi := 1, temper := temper, check := temper + 3 }) ∧
    BlockChecked (GreeIrframe.bits { greeFrame1 0 0 with
      sleepEn := sleepEn, swi := 0, temper := temper, swingUd := 0, check := temper + 3 }) := by
  decide

/-- The hand-written offsets agree with the block checksum on every
configuration whose power byte is 0 or 1. -/
theorem framePair_checked (cfg : AcCfg) (switch : cfg.open_ = 0 ∨ cfg.open_ = 1) {f : Frame}
    (member : f ∈ framePair cfg) : BlockChecked f := by
  have shapes := shapes_checked (cfg.sleep.setWidth 1) (cfg.temp.setWidth 4)
  obtain ⟨on0, off0, on1, off1⟩ := shapes
  -- the check nibble is the temperature plus an offset, modulo sixteen
  have minus : nibble ((cfg.temp.toNat : Int) - 1) = cfg.temp.setWidth 4 + BitVec.ofInt 4 (-1) := by
    rw [Int.sub_eq_add_neg]
    exact nibble_add cfg.temp (-1)
  have three : nibble ((cfg.temp.toNat : Int) + 3) = cfg.temp.setWidth 4 + 3 :=
    nibble_add cfg.temp 3
  have seven : nibble ((cfg.temp.toNat : Int) + 7) = cfg.temp.setWidth 4 + 7 :=
    nibble_add cfg.temp 7
  rcases mem_framePair.mp member with rfl | rfl <;> rcases switch with off | on
  · simpa [loadFrame0, greeFrame0, off, minus] using off0
  · simpa [loadFrame0, greeFrame0, on, seven] using on0
  · simpa [loadFrame1, greeFrame1, off, three] using off1
  · simpa [loadFrame1, greeFrame1, on, three] using on1

/-- The one-bit switch fields hold the whole byte they are taken from. -/
theorem switch_setWidth {b : U8} (switch : b = 0 ∨ b = 1) : (b.setWidth 1).toNat = b.toNat := by
  rcases switch with rfl | rfl <;> rfl

end IrCtl

import IrCtl.Semantics.Code
import IrCtl.Gree.FrameReads

/-!
# The receiver

Frames taken off the wave, bit by bit. The wave of any number of frames has one
reading, and at every moment of every run what is heard is what was loaded.
-/

namespace IrCtl

open Code Transition

/-! ### Reading the wave -/

def readPulse (p : Interval) : Reader Interval Unit :=
  Reader.symbol fun q => if q = p then some () else none

/-- A bit is told by the space behind its mark. -/
def readBit : Reader Interval Bool :=
  (readPulse (mark 680)).bind fun _ => Reader.symbol fun q =>
    if q = space 1600 then some true else if q = space 560 then some false else none

def byteOf (bits : List Bool) : U8 := (BitVec.ofBoolListLE bits).setWidth 8

/-- The frame with the bits of the two halves; bits 35 to 39, which are not on
the air, read as zero. -/
def frameOf (lo hi : List Bool) : Frame :=
  Vector.ofFn fun i => byteOf ((lo ++ List.replicate 5 false ++ hi).drop (8 * i))

def readFrame : Reader Interval Frame :=
  (readPulse (mark 9000)).bind fun _ => (readPulse (space 4500)).bind fun _ =>
  (readBit.times 35).bind fun lo =>
  (readPulse (mark 600)).bind fun _ => (readPulse (space 20000)).bind fun _ =>
  (readBit.times 32).bind fun hi =>
  (readPulse (mark 600)).bind fun _ => (readPulse (space 40000)).map fun _ => frameOf lo hi

/-- The frames heard, and the intervals of one that is not complete. -/
def hear (air : List Interval) : List Frame × List Interval := readFrame.all air

/-! ### Bits and frames -/

theorem byteOf_getLsbD (bits : List Bool) {j : Nat} (bound : j < 8) :
    (byteOf bits).getLsbD j = bits.getD j false := by
  simp [byteOf, bound]

theorem frameOf_bit (lo hi : List Bool) {i : Nat} (bound : i < 72) :
    (frameOf lo hi).bit i = (lo ++ List.replicate 5 false ++ hi).getD i false := by
  have byte : i / 8 < 9 := by omega
  -- byte `i / 8` is made of the bits from `8 * (i / 8)` on
  rw [Frame.bit, dif_pos byte]
  simp only [frameOf, Vector.getElem_ofFn]
  rw [byteOf_getLsbD _ (Nat.mod_lt i (by decide))]
  simp only [List.getD_eq_getElem?_getD, List.getElem?_drop, Nat.div_add_mod]

theorem frame_eq_of_bit {f g : Frame} (same : ∀ i < 72, f.bit i = g.bit i) : f = g := by
  apply Vector.ext
  intro i byte
  apply BitVec.eq_of_getLsbD_eq
  intro j bound
  have here := same (8 * i + j) (by omega)
  have div : (8 * i + j) / 8 = i := by omega
  have mod : (8 * i + j) % 8 = j := by omega
  simpa only [Frame.bit, div, mod, byte, dif_pos] using here

theorem onAir_bit (f : Frame) {i : Nat} (bound : i < 72) :
    f.onAir.bit i = if 35 ≤ i ∧ i < 40 then false else f.bit i := by
  have byte : i / 8 < 9 := by omega
  simp only [Frame.bit, dif_pos byte, Frame.onAir, Vector.getElem_set]
  by_cases fourth : 4 = i / 8
  · -- of byte 4 the mask leaves the three low bits
    rw [if_pos fourth, BitVec.getLsbD_and]
    have low : (7 : U8).getLsbD (i % 8) = decide (i % 8 < 3) := by
      have : i % 8 < 8 := Nat.mod_lt i (by decide)
      generalize i % 8 = j at *
      interval_cases j <;> rfl
    by_cases high : 35 ≤ i
    · have masked : ¬ i % 8 < 3 := by omega
      have off : 35 ≤ i ∧ i < 40 := by omega
      rw [if_pos off, low, decide_eq_false masked, Bool.and_false]
    · have kept : i % 8 < 3 := by omega
      have on : ¬ (35 ≤ i ∧ i < 40) := by omega
      rw [if_neg on, low, decide_eq_true kept, Bool.and_true]
      congr 2
  · have on : ¬ (35 ≤ i ∧ i < 40) := by omega
    rw [if_neg fourth, if_neg on]

/-- The bits of a wave are those of the frame as it goes on the air. -/
theorem frameOf_onAir (f : Frame) :
    frameOf ((List.range' 0 35).map f.bit) ((List.range' 40 32).map f.bit) = f.onAir := by
  apply frame_eq_of_bit
  intro i bound
  rw [frameOf_bit _ _ bound, onAir_bit f bound]
  simp only [List.getD_eq_getElem?_getD, List.getElem?_append, List.length_append, List.length_map,
    List.length_range', List.length_replicate, List.getElem?_map, List.getElem?_replicate]
  -- the bits before the gap, the gap, the bits behind it
  by_cases first : i < 35
  · have before : ¬ (35 ≤ i ∧ i < 40) := by omega
    have inside : i < 35 + 5 := by omega
    rw [if_neg before, if_pos inside, if_pos first]
    simp [first]
  · by_cases gap : i < 35 + 5
    · have within : 35 ≤ i ∧ i < 40 := by omega
      have hole : i - 35 < 5 := by omega
      rw [if_pos within, if_pos gap, if_neg first, if_pos hole, Option.getD_some]
    · have behind : ¬ (35 ≤ i ∧ i < 40) := by omega
      have inside : i - 40 < 32 := by omega
      have back : 40 + (i - 40) = i := by omega
      rw [if_neg behind, if_neg gap]
      simp [inside, back]

/-! ### One frame -/

theorem reads_pulse (p : Interval) : Reads (readPulse p) [p] () := reads_symbol (if_pos rfl)

theorem reads_bit (b : Bool) : Reads readBit (bitPulses b) b := by
  have pulses : bitPulses b = [mark 680] ++ [space (if b then 1600 else 560)] := rfl
  rw [pulses]
  -- the mark is 680 for either bit
  apply (reads_pulse (mark 680)).bind
  cases b with
  | true => exact reads_symbol rfl
  | false => exact reads_symbol rfl

theorem reads_bits (f : Frame) (i n : Nat) :
    Reads (readBit.times n) (bitsPulses f i n) ((List.range' i n).map f.bit) := by
  have words := Reads.times (fun j => reads_bit (f.bit j)) (List.range' i n)
  rwa [List.length_range'] at words

/-- The wave of a frame is read as that frame, whatever comes behind it. -/
theorem reads_frame (f : Frame) : Reads readFrame (pulseTrain f) f.onAir := by
  have wave : pulseTrain f = [mark 9000] ++ ([space 4500] ++ (bitsPulses f 0 35 ++ ([mark 600] ++
      ([space 20000] ++ (bitsPulses f 40 32 ++ ([mark 600] ++ [space 40000])))))) := by
    simp only [pulseTrain, secondHalf, List.append_assoc, List.cons_append, List.nil_append]
  rw [wave, ← frameOf_onAir]
  refine (reads_pulse _).bind ((reads_pulse _).bind ((reads_bits f 0 35).bind ?_))
  refine (reads_pulse _).bind ((reads_pulse _).bind ((reads_bits f 40 32).bind ?_))
  exact (reads_pulse _).bind ((reads_pulse _).map _)

/-- A frame takes the whole of its wave. -/
theorem takes_frame : Takes readFrame 140 := by
  have pulse : ∀ p, Takes (readPulse p) 1 := fun p => takes_symbol _
  have bit : Takes readBit 2 := (pulse _).bind fun _ => takes_symbol _
  exact (pulse _).bind fun _ => (pulse _).bind fun _ => (bit.times 35).bind fun _ =>
    (pulse _).bind fun _ => (pulse _).bind fun _ => (bit.times 32).bind fun _ =>
    (pulse _).bind fun _ => (pulse _).map _

theorem pulseTrain_ne_nil (f : Frame) : pulseTrain f ≠ [] := by
  rw [pulseTrain_eq]
  exact List.cons_ne_nil _ _

/-- A wave that has been cut short is not read. -/
theorem hear_pulseTrains (fs : List Frame) {part : List Interval} (short : part.length < 140) :
    hear (fs.flatMap pulseTrain ++ part) = (fs.map Frame.onAir, part) :=
  all_words reads_frame pulseTrain_ne_nil fs (takes_frame.none_of_short short)

theorem bitsPulses_congr {f g : Frame} {i n : Nat}
    (same : ∀ j, i ≤ j → j < i + n → f.bit j = g.bit j) : bitsPulses f i n = bitsPulses g i n := by
  apply List.flatMap_congr
  intro j member
  obtain ⟨low, high⟩ := List.mem_range'_1.mp member
  rw [same j low high]

theorem pulseTrain_onAir (f : Frame) : pulseTrain f.onAir = pulseTrain f := by
  -- the bits masked are between the halves
  have first : bitsPulses f.onAir 0 35 = bitsPulses f 0 35 := bitsPulses_congr fun j _ high => by
    rw [onAir_bit f (by omega), if_neg (by omega)]
  have second : bitsPulses f.onAir 40 32 = bitsPulses f 40 32 := bitsPulses_congr fun j low high => by
    rw [onAir_bit f (by omega), if_neg (by omega)]
  rw [pulseTrain, secondHalf, first, second]
  rfl

/-- Two sequences of frames make the same wave just when they agree in all the
bits that go on the air. -/
theorem pulseTrains_eq_iff (fs gs : List Frame) :
    fs.flatMap pulseTrain = gs.flatMap pulseTrain ↔ fs.map Frame.onAir = gs.map Frame.onAir := by
  constructor
  · exact map_eq_of_flatMap_eq reads_frame pulseTrain_ne_nil (takes_frame.none_of_short (by decide))
  · intro same
    have wave : ∀ fs : List Frame, fs.flatMap pulseTrain = (fs.map Frame.onAir).flatMap pulseTrain := by
      intro fs
      rw [List.flatMap_map]
      exact List.flatMap_congr fun f _ => (pulseTrain_onAir f).symm
    rw [wave fs, wave gs, same]

/-! ### Runs -/

theorem pulsesLeft_length (tx : TxDescript) : (pulsesLeft tx).length ≤ 140 := by
  have bits : ∀ i, (bitsLeft tx.frame i).length ≤ 138 := by
    intro i
    rw [bitsLeft, secondHalf]
    split <;> simp only [List.length_append, bitsPulses_length, List.length_cons, List.length_nil] <;>
      omega
  have train := pulseTrain_length tx.frame
  have half := bits 40
  rw [← secondHalf_eq] at half
  have now := bits tx.bidx
  rw [pulsesLeft]
  cases tx.st <;> simp <;> omega

/-- What is on the air of a frame under way is the beginning of its wave. -/
theorem Sending.begun {f : Frame} {before : List Interval} {ir : Ir}
    (sending : Sending f before ir) :
    ∃ part, ir.air = before ++ part ∧ part ++ pulsesLeft ir.tx = pulseTrain f := by
  rcases List.append_eq_append_iff.mp sending.wave with ⟨beyond, split, left⟩ | ⟨part, air, train⟩
  · -- less than the frames before cannot be out: more than a wave would be left
    have most := pulsesLeft_length ir.tx
    rw [left, List.length_append, pulseTrain_length] at most
    have none_beyond : beyond = [] := List.length_eq_zero_iff.mp (by omega)
    subst none_beyond
    rw [List.append_nil] at split
    exact ⟨[], by rw [List.append_nil, split], by rw [left, List.nil_append, List.nil_append]⟩
  · exact ⟨part, air, train.symm⟩

section Runs

variable {ι : Type} {s : Dev ι}

/-- Waves of whole frames and the beginning of the wave of the frame behind them. -/
structure Carries (s : Dev ι) (whole : List Frame) (part : List Interval) : Prop where
  air : s.ir.air = whole.flatMap pulseTrain ++ part
  sent : s.sent <+: whole
  short : part.length < 140
  loaded : s.world.loaded = whole ∧ part = [] ∨
    ∃ f, s.world.loaded = whole ++ [f] ∧ part <+: pulseTrain f

theorem Quiet.carries {calls : List AcCall} (quiet : Quiet s calls) : Carries s s.sent [] where
  air := by rw [quiet.air, List.append_nil]
  sent := List.prefix_refl _
  short := by decide
  loaded := Or.inl ⟨quiet.loaded, rfl⟩

theorem Sends.carries {before : List Frame} {f : Frame} (sends : Sends s before f) :
    ∃ whole part, Carries s whole part := by
  have complete : ∀ fs : List Frame, (fs ++ [f]).flatMap pulseTrain =
      fs.flatMap pulseTrain ++ pulseTrain f := by
    intro fs
    rw [List.flatMap_append, List.flatMap_singleton]
  rcases sends.under with ⟨sending, sent⟩ | ⟨ended, sent⟩
  · obtain ⟨part, air, train⟩ := sending.begun
    by_cases out : pulsesLeft s.ir.tx = []
    · -- the whole wave is out, its reset callback is not
      rw [out, List.append_nil] at train
      refine ⟨before ++ [f], [], ?_, ?_, by decide, Or.inl ⟨sends.loaded, rfl⟩⟩
      · rw [air, complete, train, List.append_nil]
      · rw [sent]
        exact List.prefix_append _ _
    · -- too short to be read as a frame
      refine ⟨before, part, air, by rw [sent], ?_, Or.inr ⟨f, sends.loaded, _, train⟩⟩
      have length := congrArg List.length train
      rw [List.length_append, pulseTrain_length] at length
      have some_left := List.length_pos_iff.mpr out
      omega
  · refine ⟨before ++ [f], [], ?_, by rw [sent], by decide, Or.inl ⟨sends.loaded, rfl⟩⟩
    rw [ended.air, complete, List.append_nil]

theorem DevInv.carries (inv : DevInv s) : ∃ whole part, Carries s whole part := by
  cases holder : s.mutex with
  | none => exact ⟨_, _, (inv.free holder).1.carries⟩
  | some t =>
    obtain ⟨⟨c, k, point, -, here⟩, -⟩ := inv.held holder
    cases point with
    | body => exact ⟨_, _, Quiet.carries here⟩
    | wait0 seen => exact here.2.2.2.carries
    | wait1 seen => exact here.2.2.2.carries
    | give seen => exact ⟨_, _, here.2.carries⟩

/-! ### Nothing of a frame is lost on the air -/

theorem onAir_of_spec3 {f : Frame} (spec3 : (Frame.gif f).spec3 = 2) : f.onAir = f := by
  have byte : f[4] &&& (7 : U8) = f[4] := by
    have byte4 : f[4] = 2 := spec3
    rw [byte4]
    rfl
  rw [Frame.onAir, byte]
  exact Vector.set_getElem_self _

/-- Bits 35 to 39 of the frames are zero anyway. -/
theorem framePair_onAir {f : Frame} {cfg : AcCfg} (member : f ∈ framePair cfg) : f.onAir = f := by
  apply onAir_of_spec3
  rcases mem_framePair.mp member with rfl | rfl
  · rw [gif_bits, loadFrame0]
    split <;> rfl
  · rw [gif_bits, loadFrame1]
    split <;> rfl

theorem mem_announced {f : Frame} {calls : List AcCall} {cfg : AcCfg}
    (member : f ∈ announced cfg calls) : ∃ cfg', f ∈ framePair cfg' := by
  induction calls generalizing cfg with
  | nil => cases member
  | cons c calls ih =>
    rw [announced, List.mem_append] at member
    rcases member with here | later
    · split at here
      · exact ⟨_, here⟩
      · cases here
    · exact ih later

/-- Every frame ever loaded is one of a pair. -/
theorem DevInv.mem_loaded (inv : DevInv s) {f : Frame} (member : f ∈ s.world.loaded) :
    ∃ cfg, f ∈ framePair cfg := by
  have quiet : ∀ {calls}, Quiet s calls → ∃ cfg, f ∈ framePair cfg := by
    intro calls q
    rw [q.loaded, q.sent] at member
    exact mem_announced member
  cases holder : s.mutex with
  | none => exact quiet (inv.free holder).1
  | some t =>
    obtain ⟨⟨c, k, point, -, here⟩, -⟩ := inv.held holder
    cases point with
    | body => exact quiet here
    | give seen => exact quiet here.2
    | wait0 seen =>
      rw [here.2.2.2.loaded, List.mem_append, List.mem_singleton] at member
      rcases member with before | rfl
      · exact mem_announced before
      · exact ⟨c.store seen, mem_framePair.mpr (Or.inl rfl)⟩
    | wait1 seen =>
      rw [here.2.2.2.loaded, List.append_assoc, List.mem_append] at member
      rcases member with before | pair
      · exact mem_announced before
      · exact ⟨c.store seen, pair⟩

theorem Carries.hear {whole : List Frame} {part : List Interval} (carries : Carries s whole part)
    (inv : DevInv s) : hear s.ir.air = (whole, part) := by
  rw [carries.air, hear_pulseTrains whole carries.short]
  congr 1
  -- frames of a pair have zeros in the bits that are not on the air
  have whole_loaded : ∀ f ∈ whole, f ∈ s.world.loaded := by
    intro f member
    rcases carries.loaded with ⟨loaded, -⟩ | ⟨g, loaded, -⟩
    · rw [loaded]
      exact member
    · rw [loaded]
      exact List.mem_append_left _ member
  refine (List.map_congr_left fun f member => ?_).trans (List.map_id whole)
  obtain ⟨cfg, pair⟩ := inv.mem_loaded (whole_loaded f member)
  exact framePair_onAir pair

/-- The receiver has heard the frames loaded, in order and bit by bit: all of them,
or all but the last, of which it has the beginning of the wave. What has been sent
it has heard, and with the mutex free that is all. -/
structure HeardInOrder (s : Dev ι) : Prop where
  loaded : s.world.loaded = (hear s.ir.air).1 ∧ (hear s.ir.air).2 = [] ∨
    ∃ f, s.world.loaded = (hear s.ir.air).1 ++ [f] ∧ (hear s.ir.air).2 <+: pulseTrain f
  sent : s.sent <+: (hear s.ir.air).1
  free : s.mutex = none → hear s.ir.air = (s.world.loaded, [])

theorem HeardInOrder.heard (inOrder : HeardInOrder s) : (hear s.ir.air).1 <+: s.world.loaded := by
  rcases inOrder.loaded with ⟨all, -⟩ | ⟨f, but_one, -⟩
  · rw [all]
  · rw [but_one]
    exact List.prefix_append _ _

theorem DevInv.heard (inv : DevInv s) : HeardInOrder s := by
  obtain ⟨whole, part, carries⟩ := inv.carries
  have hears := carries.hear inv
  constructor
  · rw [hears]
    exact carries.loaded
  · rw [hears]
    exact carries.sent
  · intro free
    have quiet := (inv.free free).1
    rw [quiet.carries.hear inv, quiet.loaded]

variable [DecidableEq ι]

theorem devStep_heard (hdl : ι) (gtick : Int) (as : List (DevAct ι)) :
    Visits (devStep hdl) HeardInOrder (.boot gtick) as := by
  apply visits_of_reached
  intro bs s reached
  have inv : DevInv s :=
    run_invariant (fun _ _ _ kept stepped => devStep_inv kept stepped) (Dev.boot_inv gtick) reached
  exact inv.heard

end Runs

end IrCtl

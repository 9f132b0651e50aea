import Mathlib.Data.List.Basic
import Mathlib.Data.List.TakeWhile
import Mathlib.Algebra.Group.Nat.Defs

/-!
# C strings

Bytes in memory read as NUL-terminated strings, and the library functions on
them. A string is given by its content, without the terminator.
-/

namespace CString

/-- The content of a C string. -/
abbrev CStr := List UInt8

def lit (s : String) : CStr := s.toList.map fun c => UInt8.ofNat c.toNat

/-- The string that starts where the memory starts. -/
def ofMem (memory : List UInt8) : CStr := memory.takeWhile (· ≠ 0)

/-- A byte of memory; what lies behind the modelled part reads as NUL. -/
def byteAt (memory : List UInt8) (i : Nat) : UInt8 := memory.getD i 0

def strncmp : CStr → CStr → Nat → Int
  | _, _, 0 => 0
  | [], [], _ + 1 => 0
  | [], b :: _, _ + 1 => -(b.toNat : Int)
  | a :: _, [], _ + 1 => a.toNat
  | a :: as, b :: bs, n + 1 => if a = b then strncmp as bs n else (a.toNat : Int) - b.toNat

/-- `strstr`, as an offset. -/
def strstr (needle : CStr) : CStr → Option Nat
  | [] => if needle = [] then some 0 else none
  | c :: cs => if needle <+: c :: cs then some 0 else (strstr needle cs).map (· + 1)

-- `%d`
def decimal (n : Int) : CStr :=
  (if n < 0 then lit "-" else []) ++
    (Nat.toDigits 10 n.natAbs).map fun c => UInt8.ofNat c.toNat

-- `%.2d`
def decimal2 (n : Int) : CStr := if 0 ≤ n ∧ n < 10 then lit "0" ++ decimal n else decimal n

-- `%3d`
def decimal3 (n : Int) : CStr :=
  List.replicate (3 - (decimal n).length) 32 ++ decimal n

theorem not_nul_mem_ofMem (memory : List UInt8) : (0 : UInt8) ∉ ofMem memory := by
  intro nul
  simpa using List.mem_takeWhile_imp nul

/-- What follows in memory counts only when there is no NUL before it. -/
theorem ofMem_append (memory rest : List UInt8) :
    ofMem (memory ++ rest) = if 0 ∈ memory then ofMem memory else memory ++ ofMem rest := by
  induction memory with
  | nil => rfl
  | cons c cs ih =>
    by_cases nul : c = 0
    · simp [ofMem, nul]
    · have iff : (0 : UInt8) ∈ c :: cs ↔ 0 ∈ cs := by simp [Ne.symm nul]
      simp only [ofMem, List.cons_append, iff] at ih ⊢
      rw [List.takeWhile_cons_of_pos (by simpa using nul), ih,
        List.takeWhile_cons_of_pos (by simpa using nul)]
      split <;> rfl

theorem ofMem_prefix (memory rest : List UInt8) : ofMem memory <+: ofMem (memory ++ rest) := by
  rw [ofMem_append]
  split
  · exact List.prefix_refl _
  · exact (List.takeWhile_prefix _).trans (List.prefix_append _ _)

theorem ofMem_eq_self {memory : List UInt8} (plain : (0 : UInt8) ∉ memory) :
    ofMem memory = memory := by
  refine List.takeWhile_eq_self_iff.mpr fun c member => ?_
  have nonzero : c ≠ 0 := fun zero => plain (zero ▸ member)
  simpa using nonzero

/-- Bounded by its second argument, `strncmp` compares character by character. -/
theorem strncmp_cons_eq_zero_iff (a b : UInt8) (as bs : CStr) :
    strncmp (a :: as) (b :: bs) (b :: bs).length = 0 ↔ a = b ∧ strncmp as bs bs.length = 0 := by
  rw [List.length_cons, strncmp]
  by_cases same : a = b
  · rw [if_pos same]
    exact (and_iff_right same).symm
  · rw [if_neg same]
    constructor
    · intro equal
      exact absurd (UInt8.toNat_inj.mp (by omega)) same
    · rintro ⟨equal, -⟩
      exact absurd equal same

/-- `strstr` finds the first occurrence. -/
theorem strstr_eq_some_iff {needle hay : CStr} {i : Nat} (nonempty : needle ≠ []) :
    strstr needle hay = some i ↔
      needle <+: hay.drop i ∧ ∀ j < i, ¬ needle <+: hay.drop j := by
  induction hay generalizing i with
  | nil => simp [strstr, nonempty]
  | cons c cs ih =>
    by_cases here : needle <+: c :: cs
    · rw [strstr, if_pos here]
      constructor
      · intro found
        cases found
        exact ⟨here, fun j early => absurd early (Nat.not_lt_zero j)⟩
      · rintro ⟨-, first⟩
        cases i with
        | zero => rfl
        | succ i => exact absurd here (first 0 (Nat.succ_pos i))
    · rw [strstr, if_neg here]
      cases i with
      | zero => simp [here]
      | succ i =>
        have later : (strstr needle cs).map (· + 1) = some (i + 1) ↔ strstr needle cs = some i := by
          cases strstr needle cs <;> simp
        rw [later, ih]
        constructor
        · rintro ⟨occurs, first⟩
          refine ⟨occurs, fun j early => ?_⟩
          cases j with
          | zero => exact here
          | succ j => exact first j (by omega)
        · rintro ⟨occurs, first⟩
          exact ⟨occurs, fun j early => first (j + 1) (by omega)⟩

/-! ### Numbers -/

/-- The number a text of digits names, blanks before it skipped. -/
def number (text : CStr) : Nat :=
  (text.dropWhile (· = 32)).foldl (fun n c => 10 * n + (c.toNat - 48)) 0

theorem decimal_natCast (n : Nat) :
    decimal n = (Nat.toDigits 10 n).map fun c => UInt8.ofNat c.toNat := by
  rw [decimal, if_neg (Int.not_lt.mpr (Int.natCast_nonneg n)), List.nil_append, Int.natAbs_natCast]

theorem digit_toNat {c : Char} (digit : c.isDigit) : (UInt8.ofNat c.toNat).toNat = c.toNat := by
  have low : c.toNat < 256 := by
    simp only [Char.isDigit, Bool.and_eq_true, decide_eq_true_eq] at digit
    have high : c.val.toNat ≤ 57 := digit.2
    change c.val.toNat < 256
    omega
  rw [UInt8.toNat_ofNat', Nat.mod_eq_of_lt low]

/-- `%d` begins with a digit, not with a blank. -/
theorem decimal_head {n : Nat} {c : UInt8} (member : c ∈ decimal n) : c ≠ 32 := by
  rw [decimal_natCast, List.mem_map] at member
  obtain ⟨d, among, rfl⟩ := member
  have digit := Nat.isDigit_of_mem_toDigits (by decide) (by decide) among
  intro blank
  have code := digit_toNat digit
  rw [blank] at code
  simp only [Char.isDigit, Bool.and_eq_true, decide_eq_true_eq] at digit
  have low : 48 ≤ d.val.toNat := digit.1
  change 32 = d.val.toNat at code
  omega

theorem foldl_decimal (n : Nat) :
    (decimal n).foldl (fun n c => 10 * n + (c.toNat - 48)) 0 = n := by
  have read := Nat.ofDigitChars_ten_toDigits (n := n)
  rw [decimal_natCast, List.foldl_map]
  -- digit by digit: the byte of a digit less the byte of zero
  refine Eq.trans (List.foldl_ext _ _ _ ?_) read
  intro m c member
  rw [digit_toNat (Nat.isDigit_of_mem_toDigits (by decide) (by decide) member)]
  rfl

theorem number_of_nonblank {text : CStr} (nonblank : ∀ c ∈ text, c ≠ 32) :
    number text = text.foldl (fun n c => 10 * n + (c.toNat - 48)) 0 := by
  rw [number, List.dropWhile_eq_self_iff.mpr]
  intro some
  simpa using nonblank _ (List.getElem_mem some)

theorem number_blank (k : Nat) (text : CStr) : number (List.replicate k 32 ++ text) = number text := by
  induction k with
  | zero => rfl
  | succ k ih => exact ih

theorem number_decimal (n : Nat) : number (decimal n) = n := by
  -- there is nothing to skip
  rw [number_of_nonblank fun c => decimal_head]
  exact foldl_decimal n

theorem number_decimal2 (n : Nat) : number (decimal2 n) = n := by
  unfold decimal2
  split
  · rw [number_of_nonblank]
    · exact foldl_decimal n
    · intro c member
      rcases List.mem_append.mp member with zero | digit
      · rw [List.mem_singleton.mp zero]
        decide
      · exact decimal_head digit
  · exact number_decimal n

theorem number_decimal3 (n : Nat) : number (decimal3 n) = n := by
  rw [decimal3, number_blank, number_decimal]

theorem decimal_length_le_iff (n : Nat) {k : Nat} (some : 0 < k) :
    (decimal n).length ≤ k ↔ n < 10 ^ k := by
  rw [decimal_natCast, List.length_map]
  exact Nat.length_toDigits_le_iff (by decide) some

theorem decimal2_length {n : Nat} (small : n < 100) : (decimal2 n).length = 2 := by
  have two := (decimal_length_le_iff n (k := 2) (by decide)).mpr small
  have one := decimal_length_le_iff n (k := 1) (by decide)
  have some : 0 < (decimal n).length := by
    rw [decimal_natCast, List.length_map]
    exact Nat.length_toDigits_pos
  unfold decimal2
  split
  · simp [lit]
    omega
  · omega

theorem decimal3_length {n : Nat} (small : n < 1000) : (decimal3 n).length = 3 := by
  have three := (decimal_length_le_iff n (k := 3) (by decide)).mpr small
  rw [decimal3, List.length_append, List.length_replicate]
  omega

theorem number_int {print : Int → CStr} (read : ∀ n : Nat, number (print n) = n) {n : Int}
    (low : 0 ≤ n) : (number (print n) : Int) = n := by
  obtain ⟨m, rfl⟩ := Int.eq_ofNat_of_zero_le low
  rw [read]

/-- A text cut at the given widths, with the rest of it last. -/
def cut : List Nat → CStr → List CStr
  | [], text => [text]
  | width :: widths, text => text.take width :: cut widths (text.drop width)

theorem cut_flatten (pieces : List CStr) (rest : CStr) :
    cut (pieces.map List.length) (pieces.flatten ++ rest) = pieces ++ [rest] := by
  induction pieces with
  | nil => rfl
  | cons piece pieces ih =>
    rw [List.map_cons, cut, List.flatten_cons, List.append_assoc, List.take_left, List.drop_left, ih]
    rfl

end CString

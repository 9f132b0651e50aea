import IrCtl.Semantics.CString

/-!
# The calendar

`localtime` and `ctime` in a zone without offset: the firmware sets none, and
adds the offset of its own zone when it takes the time from a server.
-/

namespace IrCtl

open CString

structure Tm where
  -- the daylight saving flag and the day of the year are not used
  tmSec : Int
  tmMin : Int
  tmHour : Int
  tmMday : Int
  tmMon : Int
  tmYear : Int
  tmWday : Int
  deriving DecidableEq, Repr

/-- Year, month from January, and day of month of a day counted from 1970. -/
def civil (days : Int) : Int × Int × Int :=
  -- years start in March here, so that the leap day comes last
  let z := days + 719468
  let era := z / 146097
  let doe := z % 146097
  let yoe := (doe - doe / 1460 + doe / 36524 - doe / 146096) / 365
  let doy := doe - (365 * yoe + yoe / 4 - yoe / 100)
  let mp := (5 * doy + 2) / 153
  let mon := if mp < 10 then mp + 2 else mp - 10
  (yoe + era * 400 + (if mon ≤ 1 then 1 else 0), mon, doy - (153 * mp + 2) / 5 + 1)

/-- `localtime`. -/
def localtime (gtick : Int) : Tm :=
  let days := gtick / 86400
  let rem := gtick % 86400
  let (year, mon, mday) := civil days
  { tmSec := rem % 60
    tmMin := rem % 3600 / 60
    tmHour := rem / 3600
    tmMday := mday
    tmMon := mon
    tmYear := year - 1900
    -- the first day of 1970 was a Thursday
    tmWday := (days + 4) % 7 }

def dayNames : List CStr :=
  [lit "Sun", lit "Mon", lit "Tue", lit "Wed", lit "Thu", lit "Fri", lit "Sat"]

def monNames : List CStr :=
  [lit "Jan", lit "Feb", lit "Mar", lit "Apr", lit "May", lit "Jun", lit "Jul", lit "Aug",
    lit "Sep", lit "Oct", lit "Nov", lit "Dec"]

def ctime (gtick : Int) : CStr :=
  let tm := localtime gtick
  dayNames.getD tm.tmWday.toNat (lit "???") ++ lit " " ++
    monNames.getD tm.tmMon.toNat (lit "???") ++ decimal3 tm.tmMday ++ lit " " ++
    decimal2 tm.tmHour ++ lit ":" ++ decimal2 tm.tmMin ++ lit ":" ++ decimal2 tm.tmSec ++
    lit " " ++ decimal (1900 + tm.tmYear) ++ lit "\n"

theorem localtime_ranges (gtick : Int) :
    0 ≤ (localtime gtick).tmSec ∧ (localtime gtick).tmSec < 60 ∧
    0 ≤ (localtime gtick).tmMin ∧ (localtime gtick).tmMin < 60 ∧
    0 ≤ (localtime gtick).tmHour ∧ (localtime gtick).tmHour < 24 ∧
    0 ≤ (localtime gtick).tmWday ∧ (localtime gtick).tmWday < 7 := by
  simp only [localtime]
  omega

example : ctime 1716019199 = lit "Sat May 18 07:59:59 2024\n" := by decide

/-! ### Reading a date back -/

/-- The day of a date, counted from 1970. -/
def daysOf (year mon mday : Int) : Int :=
  -- January and February belong to the year before
  let mp := if mon ≤ 1 then mon + 10 else mon - 2
  let year := if mon ≤ 1 then year - 1 else year
  let yoe := year % 400
  year / 400 * 146097 + (365 * yoe + yoe / 4 - yoe / 100) + (153 * mp + 2) / 5 + mday - 719469

def mktime (tm : Tm) : Int :=
  daysOf (1900 + tm.tmYear) tm.tmMon tm.tmMday * 86400 + tm.tmHour * 3600 + tm.tmMin * 60 + tm.tmSec

/-- The year of a day in its four centuries, and the day of that year. -/
theorem yoe_doy_bounds {doe yoe : Int} (low : 0 ≤ doe) (high : doe < 146097)
    (here : yoe = (doe - doe / 1460 + doe / 36524 - doe / 146096) / 365) :
    0 ≤ yoe ∧ yoe < 400 ∧ 0 ≤ doe - (365 * yoe + yoe / 4 - yoe / 100) ∧
      doe - (365 * yoe + yoe / 4 - yoe / 100) < 366 := by
  -- the leap day at the end of the four centuries is outside the pattern
  by_cases last : doe = 146096
  · subst last here
    decide
  -- the century, its days in fours of years, and the year among the four
  obtain ⟨k, n, century, n0, n1, rfl⟩ : ∃ k n : Int, (k = 0 ∨ k = 1 ∨ k = 2 ∨ k = 3) ∧ 0 ≤ n ∧
      n < 36524 ∧ doe = 36524 * k + n :=
    ⟨doe / 36524, doe % 36524, by omega, by omega, by omega, by omega⟩
  obtain ⟨m, b, m0, m1, b0, b1, rfl⟩ : ∃ m b : Int, 0 ≤ m ∧ m < 25 ∧ 0 ≤ b ∧ b < 1461 ∧
      n = 1461 * m + b :=
    ⟨n / 1461, n % 1461, by omega, by omega, by omega, by omega, by omega⟩
  have days : (36524 * k + (1461 * m + b)) / 36524 = k := by omega
  have inside : (36524 * k + (1461 * m + b)) / 146096 = 0 := by omega
  have fours : (36524 * k + (1461 * m + b)) / 1460 = 25 * k + m ∨
      (36524 * k + (1461 * m + b)) / 1460 = 25 * k + m + 1 ∧ 1300 ≤ b := by omega
  obtain ⟨q, q0, q1, year, bound⟩ : ∃ q : Int, 0 ≤ q ∧ q ≤ 3 ∧ yoe = 100 * k + 4 * m + q ∧
      365 * q ≤ b ∧ b < 365 * q + 366 := by
    -- the estimate is late only within the last year of the four
    rcases fours with early | ⟨late, end_⟩
    · exact ⟨b / 365, by omega, by omega, by omega, by omega, by omega⟩
    · exact ⟨3, by omega, by omega, by omega, by omega, by omega⟩
  have leap_days : yoe / 4 = 25 * k + m := by omega
  have centuries : yoe / 100 = k := by omega
  omega

/-- Month and day of a day of the year, which begins in March, are read back. -/
theorem daysOf_march (era : Int) {yoe doy : Int} (year0 : 0 ≤ yoe) (year1 : yoe < 400)
    (day0 : 0 ≤ doy) (day1 : doy < 366) :
    let mp := (5 * doy + 2) / 153
    let mon := if mp < 10 then mp + 2 else mp - 10
    daysOf (yoe + era * 400 + if mon ≤ 1 then 1 else 0) mon (doy - (153 * mp + 2) / 5 + 1) =
      era * 146097 + (365 * yoe + yoe / 4 - yoe / 100) + doy - 719468 := by
  intro mp mon
  have months : 0 ≤ mp ∧ mp ≤ 11 := by omega
  have year : (yoe + era * 400) % 400 = yoe := by omega
  have centuries : (yoe + era * 400) / 400 = era := by omega
  by_cases early : mp < 10
  · have march : mon = mp + 2 := if_pos early
    have late : ¬ mp + 2 ≤ 1 := by omega
    have back : mp + 2 - 2 = mp := by omega
    simp only [daysOf, march, if_neg late, Int.add_zero, year, centuries, back]
    omega
  · have january : mon = mp - 10 := if_neg early
    have first : mp - 10 ≤ 1 := by omega
    have back : mp - 10 + 10 = mp := by omega
    have same : yoe + era * 400 + 1 - 1 = yoe + era * 400 := by omega
    simp only [daysOf, january, if_pos first, same, year, centuries, back]
    omega

/-- A day is the day of its date. -/
theorem daysOf_civil (days : Int) :
    daysOf (civil days).1 (civil days).2.1 (civil days).2.2 = days := by
  have doe0 : 0 ≤ (days + 719468) % 146097 := by omega
  have doe1 : (days + 719468) % 146097 < 146097 := by omega
  obtain ⟨year0, year1, day0, day1⟩ := yoe_doy_bounds doe0 doe1 rfl
  refine (daysOf_march ((days + 719468) / 146097) year0 year1 day0 day1).trans ?_
  omega

/-- A clock is read back from its broken-down time. -/
theorem mktime_localtime (gtick : Int) : mktime (localtime gtick) = gtick := by
  have day := daysOf_civil (gtick / 86400)
  simp only [mktime, localtime]
  have year : 1900 + ((civil (gtick / 86400)).1 - 1900) = (civil (gtick / 86400)).1 := by omega
  rw [year, day]
  omega

theorem localtime_date (gtick : Int) :
    0 ≤ (localtime gtick).tmMon ∧ (localtime gtick).tmMon < 12 ∧
    0 ≤ (localtime gtick).tmMday ∧ (localtime gtick).tmMday < 32 := by
  have doe0 : 0 ≤ (gtick / 86400 + 719468) % 146097 := by omega
  have doe1 : (gtick / 86400 + 719468) % 146097 < 146097 := by omega
  obtain ⟨-, -, day0, day1⟩ := yoe_doy_bounds doe0 doe1 rfl
  simp only [localtime, civil]
  split <;> omega

/-! ### Reading `ctime` -/

/-- The clock a text of `ctime` has been printed for. -/
def readCtime (text : CStr) : Int :=
  match cut [3, 1, 3, 3, 1, 2, 1, 2, 1, 2, 1] text with
  | [_, _, mon, mday, _, hour, _, min, _, sec, _, year] =>
    mktime
      { tmSec := number sec
        tmMin := number min
        tmHour := number hour
        tmMday := number mday
        tmMon := monNames.idxOf mon
        tmYear := number year.dropLast - 1900
        -- the day of the week says nothing new
        tmWday := 0 }
  | _ => 0

theorem name_length {names : List CStr} (short : ∀ name ∈ names, name.length = 3) (i : Nat) :
    (names.getD i (lit "???")).length = 3 := by
  rw [List.getD_eq_getElem?_getD]
  cases there : names[i]? with
  | none => rfl
  | some name => exact short name (List.mem_of_getElem? there)

theorem monNames_idxOf {i : Nat} (month : i < 12) :
    monNames.idxOf (monNames.getD i (lit "???")) = i := by
  have all : ∀ i : Fin 12, monNames.idxOf (monNames.getD i (lit "???")) = i := by decide
  exact all ⟨i, month⟩

/-- The text of `ctime` as far as its columns are fixed. -/
def ctimePieces (tm : Tm) : List CStr :=
  [dayNames.getD tm.tmWday.toNat (lit "???"), lit " ", monNames.getD tm.tmMon.toNat (lit "???"),
    decimal3 tm.tmMday, lit " ", decimal2 tm.tmHour, lit ":", decimal2 tm.tmMin, lit ":",
    decimal2 tm.tmSec, lit " "]

theorem ctime_eq (gtick : Int) :
    ctime gtick = (ctimePieces (localtime gtick)).flatten ++
      (decimal (1900 + (localtime gtick).tmYear) ++ lit "\n") := by
  simp [ctime, ctimePieces, List.append_assoc]

theorem ctimePieces_widths (gtick : Int) :
    (ctimePieces (localtime gtick)).map List.length = [3, 1, 3, 3, 1, 2, 1, 2, 1, 2, 1] := by
  obtain ⟨sec0, sec1, min0, min1, hour0, hour1, -, -⟩ := localtime_ranges gtick
  obtain ⟨-, -, mday0, mday1⟩ := localtime_date gtick
  have two : ∀ n : Int, 0 ≤ n → n < 60 → (decimal2 n).length = 2 := by
    intro n low high
    obtain ⟨m, rfl⟩ := Int.eq_ofNat_of_zero_le low
    exact decimal2_length (by omega)
  have three : (decimal3 (localtime gtick).tmMday).length = 3 := by
    obtain ⟨m, same⟩ := Int.eq_ofNat_of_zero_le mday0
    rw [same]
    exact decimal3_length (by omega)
  have days : ∀ name ∈ dayNames, name.length = 3 := by decide
  have mons : ∀ name ∈ monNames, name.length = 3 := by decide
  have space : (lit " ").length = 1 := rfl
  have colon : (lit ":").length = 1 := rfl
  simp only [ctimePieces, List.map_cons, List.map_nil, name_length days, name_length mons, three,
    two _ sec0 sec1, two _ min0 min1, two _ hour0 (by omega), space, colon]

/-- The text of a clock is read back as that clock, if its year is not before
the year zero. -/
theorem readCtime_ctime {gtick : Int} (year0 : 0 ≤ 1900 + (localtime gtick).tmYear) :
    readCtime (ctime gtick) = gtick := by
  obtain ⟨sec0, -, min0, -, hour0, -, -, -⟩ := localtime_ranges gtick
  obtain ⟨mon0, mon1, mday0, -⟩ := localtime_date gtick
  have mon : (monNames.idxOf (monNames.getD (localtime gtick).tmMon.toNat (lit "???")) : Int) =
      (localtime gtick).tmMon := by
    rw [monNames_idxOf (by omega)]
    omega
  have year : (decimal (1900 + (localtime gtick).tmYear) ++ lit "\n").dropLast =
      decimal (1900 + (localtime gtick).tmYear) := List.dropLast_concat
  have since : 1900 + (localtime gtick).tmYear - 1900 = (localtime gtick).tmYear := by omega
  -- cut at its columns the text falls into its pieces
  rw [readCtime, ctime_eq, ← ctimePieces_widths gtick, cut_flatten]
  refine Eq.trans ?_ (mktime_localtime gtick)
  simp only [ctimePieces, List.cons_append, List.nil_append, year, number_int number_decimal year0,
    number_int number_decimal2 sec0, number_int number_decimal2 min0,
    number_int number_decimal2 hour0, number_int number_decimal3 mday0, mon, since]
  rfl

end IrCtl

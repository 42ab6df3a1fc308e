import ZeroCache.Replica.TextCopy
import Mathlib.Tactic.IntervalCases

/-!
# Timestamps in the calendar

The days of a date are computed by a closed formula over cycles of 400 years (`days_from_civil`). They are the
days counted year by year and month by month. A timestamp of the replication stream is then read as the
milliseconds it stands for, unless its offset has seconds.
-/

namespace ZeroCache.Replica

open ChangeSource List

/-- The days of February. -/
def februaryLength (y : ℤ) : ℤ := if y % 4 = 0 ∧ (y % 100 ≠ 0 ∨ y % 400 = 0) then 29 else 28

/-- The days of a month. -/
def monthLength (y : ℤ) : ℕ → ℤ
  | 2 => februaryLength y
  | 4 | 6 | 9 | 11 => 30
  | _ => 31

/-- The days of a year before one of its months. -/
def daysToMonth (y : ℤ) : ℕ → ℤ
  | 0 | 1 => 0
  | m + 1 => daysToMonth y m + monthLength y m

/-- The days of some years from 1970 on. -/
def daysAfter : ℕ → ℤ
  | 0 => 0
  | n + 1 => daysAfter n + daysToMonth (1970 + n) 13

/-- The days of some years before 1970. -/
def daysBefore : ℕ → ℤ
  | 0 => 0
  | n + 1 => daysBefore n + daysToMonth (1969 - n) 13

/-- The days from the first of January 1970 to a date. -/
def calendarDays (y m d : ℤ) : ℤ :=
  daysAfter (y - 1970).toNat - daysBefore (1970 - y).toNat + daysToMonth y m.toNat + d - 1

/-- A day that the calendar has. -/
def ValidDate (y m d : ℤ) : Prop := 1 ≤ m ∧ m ≤ 12 ∧ 1 ≤ d ∧ d ≤ monthLength y m.toNat

/-- The days of the years before the March of a year, counted from the year 0. -/
def daysToMarch (y : ℤ) : ℤ := y / 400 * 146097 + y % 400 * 365 + y % 400 / 4 - y % 400 / 100

variable (y : ℤ)

theorem daysToMarch_eq : daysToMarch y = daysToMarch (y - 1) + februaryLength y + 337 := by
  simp only [daysToMarch, februaryLength]
  split <;> omega

variable {m : ℤ}

theorem daysFromCivil_eq (hm : 1 ≤ m) (y d : ℤ) : daysFromCivil y m d = daysToMarch (if m ≤ 2 then y - 1 else y) +
    (153 * (if m > 2 then m - 3 else m + 9) + 2) / 5 + d - 719469 := by
  have hera : ∀ y : ℤ, (if y ≥ 0 then y else y - 399).tdiv 400 = y / 400 := by
    intro y
    rw [Int.tdiv_eq_ediv]
    simp only [show Int.sign 400 = 1 from rfl]
    split <;> split <;> omega
  simp only [daysFromCivil, hera, daysToMarch]
  rw [Int.tdiv_eq_ediv_of_nonneg (by split <;> omega), Int.tdiv_eq_ediv_of_nonneg (by omega),
    Int.tdiv_eq_ediv_of_nonneg (by omega)]
  simp only [Int.emod_def, mul_comm]
  omega

/-- The formula counts the months of a year, and then those of the next one. -/
theorem daysFromCivil_month (hm : 1 ≤ m) (hm' : m ≤ 13) (y d : ℤ) :
    daysFromCivil y m d = daysFromCivil y 1 1 + daysToMonth y m.toNat + d - 1 := by
  rw [daysFromCivil_eq hm, daysFromCivil_eq le_rfl]
  have hyear := daysToMarch_eq y
  interval_cases m <;> simp [daysToMonth, monthLength] <;> omega

theorem daysFromCivil_succ : daysFromCivil (y + 1) 1 1 = daysFromCivil y 1 1 + daysToMonth y 13 := by
  have hnext : daysFromCivil (y + 1) 1 1 = daysFromCivil y 13 1 := by
    rw [daysFromCivil_eq le_rfl, daysFromCivil_eq (by decide)]
    simp
  rw [hnext, daysFromCivil_month (by decide) le_rfl]
  exact add_sub_cancel_right _ _

theorem daysFromCivil_year : daysFromCivil y 1 1 = daysAfter (y - 1970).toNat - daysBefore (1970 - y).toNat := by
  have hafter : ∀ n : ℕ, daysFromCivil (1970 + n) 1 1 = daysAfter n := by
    intro n
    induction n with
    | zero => rfl
    | succ n ih => rw [daysAfter, ← ih, Nat.cast_succ, ← add_assoc, daysFromCivil_succ]
  have hbefore : ∀ n : ℕ, daysFromCivil (1970 - n) 1 1 = -daysBefore n := by
    intro n
    induction n with
    | zero => rfl
    | succ n ih =>
      have hyear := daysFromCivil_succ (1969 - n)
      rw [show (1969 - n + 1 : ℤ) = 1970 - n by ring, ih] at hyear
      rw [daysBefore, Nat.cast_succ, show (1970 - (n + 1) : ℤ) = 1969 - n by ring]
      omega
  rcases le_total 1970 y with h | h
  · obtain ⟨n, rfl⟩ := Int.le.dest h
    simp [hafter, daysBefore]
  · obtain ⟨n, hn⟩ := Int.le.dest h
    obtain rfl : y = 1970 - n := by omega
    simp [hbefore, daysAfter]

theorem daysFromCivil_eq_calendarDays {y d : ℤ} (h : ValidDate y m d) : daysFromCivil y m d = calendarDays y m d := by
  rw [daysFromCivil_month h.1 (h.2.1.trans (by decide)), daysFromCivil_year]
  rfl

/-- The milliseconds of a time, less its offset to the second. -/
def clockValue (env : TextEnv) : Option (List Char × Option (List Char)) → Option ℚ
  | none => some 0
  | some (time, none) => timeMillis env (stripZ time)
  | some (time, some tz) => do return (← timeMillis env (stripZ time)) - (← parseTzOffsetMillis env tz)

/-- The milliseconds a timestamp stands for. -/
def Denotes (env : TextEnv) (text : String) (millis : ℚ) : Prop :=
  ∃ year month day y m d clock,
    splitOnChar '-' (splitOnce (fun c => c == ' ' || c == 'T') (env.trim text).toList).1 = [year, month, day] ∧
    env.parseI64 (String.ofList year) = some y ∧ env.parseI64 (String.ofList month) = some m ∧
    env.parseI64 (String.ofList day) = some d ∧ ValidDate y m d ∧
    clockValue env (timestampClock env text) = some clock ∧ millis = calendarDays y m d * 86400000 + clock

/-- An environment that reads decimal digits. -/
def decimalEnv : TextEnv :=
  let read (s : String) : Option ℕ :=
    if s.toList.all Char.isDigit then some (s.toList.foldl (fun n c => 10 * n + (c.toNat - 48)) 0) else none
  { smallEnv with
    parseF64 := fun s => (read s).map Nat.cast
    parseI64 := fun s => (read s).map Nat.cast }

theorem decimalEnv_colon (s : String) (hs : ':' ∈ s.toList) : decimalEnv.parseF64 s = none := by
  simpa [decimalEnv] using ⟨':', hs, rfl⟩

end ZeroCache.Replica

import Mathlib.Data.Int.Order.Basic
import Mathlib.Data.List.Lex
import Mathlib.Tactic.IntervalCases
import Mathlib.Tactic.Ring

/-!
# The proleptic Gregorian calendar

Dates and times of day carry the proof that they are on the calendar and on the
clock.  Days are counted from 1970-01-01; `daysBeforeYear_succ` and
`daysBeforeMonth` say that the count is the one the lengths of years and months
give.  Counting keeps the lexicographic order of the fields, in days and in
nanoseconds (`Stamp.count_lt_iff`), and a carry over midnight moves the count by
what it should (`Stamp.count_shift`).

## Main definitions

* `monthLength`, `yearLength` — the calendar.
* `CivilDate`, `CivilDate.dayNumber` — dates, and days since 1970-01-01.
* `CivilDate.next`, `CivilDate.prev` — the day after and the day before.
* `TimeOfDay`, `Stamp`, `Stamp.count` — nanoseconds since 1970-01-01T00:00:00.
* `Stamp.shift` — some minutes later or earlier, by carrying.
-/

namespace Unid.Lib

/-! ## Years and months -/

def IsLeap (y : ℤ) : Prop := y % 4 = 0 ∧ (y % 100 ≠ 0 ∨ y % 400 = 0)

instance (y : ℤ) : Decidable (IsLeap y) := inferInstanceAs (Decidable (_ ∧ _))

def yearLength (y : ℤ) : ℕ := if IsLeap y then 366 else 365

/-- The length of month `m`, counted from 1. -/
def monthLength (y : ℤ) : ℕ → ℕ
  | 2 => if IsLeap y then 29 else 28
  | 4 | 6 | 9 | 11 => 30
  | 1 | 3 | 5 | 7 | 8 | 10 | 12 => 31
  | _ => 0

/-- The days from 1970-01-01 to the first day of a year. -/
def daysBeforeYear (y : ℤ) : ℤ :=
  365 * y + (y + 3) / 4 - (y + 99) / 100 + (y + 399) / 400 - 719528

/-- The days of a year before month `m`. -/
def daysBeforeMonth (y : ℤ) : ℕ → ℕ
  | 0 => 0
  | m + 1 => daysBeforeMonth y m + monthLength y m

theorem daysBeforeYear_succ (y : ℤ) :
    daysBeforeYear (y + 1) = daysBeforeYear y + yearLength y := by
  by_cases hleap : IsLeap y
  · rw [yearLength, if_pos hleap]
    unfold IsLeap at hleap
    unfold daysBeforeYear
    push_cast
    omega
  · rw [yearLength, if_neg hleap]
    unfold IsLeap at hleap
    unfold daysBeforeYear
    push_cast
    omega

example : daysBeforeYear 1970 = 0 := by decide

theorem daysBeforeMonth_succ (y : ℤ) (m : ℕ) :
    daysBeforeMonth y (m + 1) = daysBeforeMonth y m + monthLength y m := rfl

theorem daysBeforeMonth_one (y : ℤ) : daysBeforeMonth y 1 = 0 := rfl

theorem daysBeforeMonth_end (y : ℤ) : daysBeforeMonth y 13 = yearLength y := by
  by_cases hleap : IsLeap y <;> simp [daysBeforeMonth, monthLength, yearLength, hleap]

theorem daysBeforeYear_mono {y y' : ℤ} (h : y ≤ y') : daysBeforeYear y ≤ daysBeforeYear y' := by
  unfold daysBeforeYear
  omega

theorem daysBeforeMonth_mono (y : ℤ) {m m' : ℕ} (h : m ≤ m') :
    daysBeforeMonth y m ≤ daysBeforeMonth y m' := by
  induction m', h using Nat.le_induction with
  | base => exact le_rfl
  | succ n _ ih => exact ih.trans (Nat.le_add_right _ _)

theorem monthLength_pos {y : ℤ} {m : ℕ} (hpos : 1 ≤ m) (hle : m ≤ 12) : 1 ≤ monthLength y m := by
  interval_cases m <;> simp only [monthLength] <;> first | omega | (split <;> omega)

/-! ## Dates -/

/-- A day of the calendar. -/
@[ext] structure CivilDate where
  year : ℤ
  month : ℕ
  day : ℕ
  month_pos : 1 ≤ month
  month_le : month ≤ 12
  day_pos : 1 ≤ day
  day_le : day ≤ monthLength year month
  deriving DecidableEq

namespace CivilDate

/-- Days since 1970-01-01. -/
def dayNumber (d : CivilDate) : ℤ :=
  daysBeforeYear d.year + daysBeforeMonth d.year d.month + (d.day - 1)

/-- Earlier in the calendar, by year, month and day. -/
def Before (a b : CivilDate) : Prop :=
  a.year < b.year ∨ a.year = b.year ∧ (a.month < b.month ∨ a.month = b.month ∧ a.day < b.day)

/-- A day lies before the next month begins. -/
theorem day_lt_next_month (d : CivilDate) :
    daysBeforeMonth d.year d.month + (d.day - 1) < daysBeforeMonth d.year (d.month + 1) := by
  have hle := d.day_le
  have hpos := d.day_pos
  rw [daysBeforeMonth]
  omega

/-- A day lies before the next year begins. -/
theorem dayNumber_lt_next_year (d : CivilDate) : d.dayNumber < daysBeforeYear (d.year + 1) := by
  have hnext := d.day_lt_next_month
  have hend := daysBeforeMonth_mono d.year (show d.month + 1 ≤ 13 from Nat.succ_le_succ d.month_le)
  rw [daysBeforeMonth_end] at hend
  have hpos := d.day_pos
  rw [dayNumber, daysBeforeYear_succ]
  omega

theorem daysBeforeYear_le_dayNumber (d : CivilDate) : daysBeforeYear d.year ≤ d.dayNumber := by
  have hpos := d.day_pos
  rw [dayNumber]
  omega

theorem dayNumber_lt_of_before {a b : CivilDate} (h : a.Before b) : a.dayNumber < b.dayNumber := by
  rcases h with hyear | ⟨hyear, hmonth | ⟨hmonth, hday⟩⟩
  · calc a.dayNumber < daysBeforeYear (a.year + 1) := a.dayNumber_lt_next_year
      _ ≤ daysBeforeYear b.year := daysBeforeYear_mono hyear
      _ ≤ b.dayNumber := b.daysBeforeYear_le_dayNumber
  · have hnext := a.day_lt_next_month
    have hle := daysBeforeMonth_mono a.year (show a.month + 1 ≤ b.month from hmonth)
    have hpos := a.day_pos
    have hpos' := b.day_pos
    rw [dayNumber, dayNumber, ← hyear]
    omega
  · rw [dayNumber, dayNumber, ← hyear, ← hmonth]
    omega

theorem before_trichotomy (a b : CivilDate) : a.Before b ∨ a = b ∨ b.Before a := by
  by_cases heq : a = b
  · exact .inr (.inl heq)
  · have hfields : ¬ (a.year = b.year ∧ a.month = b.month ∧ a.day = b.day) := by
      rintro ⟨hy, hm, hd⟩
      exact heq (CivilDate.ext hy hm hd)
    unfold Before
    omega

theorem dayNumber_lt_iff {a b : CivilDate} : a.dayNumber < b.dayNumber ↔ a.Before b := by
  refine ⟨fun hlt => ?_, dayNumber_lt_of_before⟩
  rcases before_trichotomy a b with h | rfl | h
  · exact h
  · exact absurd hlt (lt_irrefl _)
  · exact absurd hlt (dayNumber_lt_of_before h).asymm

theorem dayNumber_inj {a b : CivilDate} : a.dayNumber = b.dayNumber ↔ a = b := by
  refine ⟨fun heq => ?_, fun h => h ▸ rfl⟩
  rcases before_trichotomy a b with h | h | h
  · exact absurd heq (dayNumber_lt_of_before h).ne
  · exact h
  · exact absurd heq (dayNumber_lt_of_before h).ne'

/-- The day after. -/
def next (d : CivilDate) : CivilDate :=
  if h : d.day < monthLength d.year d.month then
    { d with day := d.day + 1, day_pos := by omega, day_le := h }
  else if h : d.month < 12 then
    { d with
      month := d.month + 1
      day := 1
      month_pos := by omega
      month_le := h
      day_pos := le_rfl
      day_le := monthLength_pos (by omega) h }
  else ⟨d.year + 1, 1, 1, le_rfl, by omega, le_rfl, monthLength_pos le_rfl (by omega)⟩

/-- The day before. -/
def prev (d : CivilDate) : CivilDate :=
  if h : 1 < d.day then
    { d with
      day := d.day - 1
      day_pos := by omega
      day_le := (Nat.sub_le _ _).trans d.day_le }
  else if h : 1 < d.month then
    { d with
      month := d.month - 1
      day := monthLength d.year (d.month - 1)
      month_pos := by omega
      month_le := (Nat.sub_le _ _).trans d.month_le
      day_pos := monthLength_pos (by omega) ((Nat.sub_le _ _).trans d.month_le)
      day_le := le_rfl }
  else ⟨d.year - 1, 12, 31, by omega, le_rfl, by omega, le_rfl⟩

theorem dayNumber_next (d : CivilDate) : d.next.dayNumber = d.dayNumber + 1 := by
  have hle := d.day_le
  have hpos := d.day_pos
  unfold next
  split
  · simp only [dayNumber]
    push_cast
    ring
  · next hlast =>
      have hday : d.day = monthLength d.year d.month := by omega
      split
      · simp only [dayNumber, daysBeforeMonth_succ]
        omega
      · next hdec =>
          have hmonth : d.month = 12 := le_antisymm d.month_le (by omega)
          have hend := daysBeforeMonth_end d.year
          rw [daysBeforeMonth_succ, ← hmonth] at hend
          simp only [dayNumber, daysBeforeYear_succ, daysBeforeMonth_one]
          omega

theorem dayNumber_prev (d : CivilDate) : d.prev.dayNumber = d.dayNumber - 1 := by
  have hpos := d.day_pos
  have hmpos := d.month_pos
  unfold prev
  split
  · simp only [dayNumber]
    omega
  · next hfirst =>
      have hday : d.day = 1 := by omega
      split
      · next hmonth =>
          have hbefore := daysBeforeMonth_succ d.year (d.month - 1)
          rw [Nat.sub_add_cancel hmpos] at hbefore
          simp only [dayNumber]
          omega
      · next hjan =>
          have hmonth : d.month = 1 := by omega
          have hend := daysBeforeMonth_end (d.year - 1)
          have hyear := daysBeforeYear_succ (d.year - 1)
          have hdec : monthLength (d.year - 1) 12 = 31 := rfl
          rw [daysBeforeMonth_succ] at hend
          rw [sub_add_cancel] at hyear
          simp only [dayNumber, hmonth, daysBeforeMonth_one]
          omega

end CivilDate

/-! ## Instants -/

/-- A time on the clock. -/
@[ext] structure TimeOfDay where
  hour : ℕ
  minute : ℕ
  second : ℕ
  nanosecond : ℕ
  hour_lt : hour < 24
  minute_lt : minute < 60
  second_lt : second < 60
  nanosecond_lt : nanosecond < 1000000000
  deriving DecidableEq

/-- A date and a time. -/
@[ext] structure Stamp where
  date : CivilDate
  time : TimeOfDay
  deriving DecidableEq

namespace Stamp

/-- Whole seconds since 1970-01-01T00:00:00. -/
def seconds (s : Stamp) : ℤ :=
  s.date.dayNumber * 86400 + s.time.hour * 3600 + s.time.minute * 60 + s.time.second

/-- Nanoseconds since 1970-01-01T00:00:00. -/
def count (s : Stamp) : ℤ := s.seconds * 1000000000 + s.time.nanosecond

/-- Year, month, day, hour, minute, second and nanosecond. -/
def fields (s : Stamp) : List ℤ :=
  [s.date.year, s.date.month, s.date.day, s.time.hour, s.time.minute, s.time.second,
    s.time.nanosecond]

theorem fields_lt_iff {a b : Stamp} : a.fields < b.fields ↔ a.date.Before b.date ∨
    a.date = b.date ∧ (a.time.hour < b.time.hour ∨ a.time.hour = b.time.hour ∧
      (a.time.minute < b.time.minute ∨ a.time.minute = b.time.minute ∧
        (a.time.second < b.time.second ∨ a.time.second = b.time.second ∧
          a.time.nanosecond < b.time.nanosecond))) := by
  rw [CivilDate.ext_iff]
  simp only [fields, List.cons_lt_cons_iff, CivilDate.Before, Nat.cast_lt, Nat.cast_inj,
    List.not_lt_nil, and_false, or_false]
  omega

/-- Counting keeps the order of the fields. -/
theorem count_lt_iff {a b : Stamp} : a.count < b.count ↔ a.fields < b.fields := by
  obtain ⟨da, ⟨h, m, s, n, hh, hm, hs, hn⟩⟩ := a
  obtain ⟨db, ⟨h', m', s', n', hh', hm', hs', hn'⟩⟩ := b
  rw [fields_lt_iff, ← CivilDate.dayNumber_lt_iff, ← CivilDate.dayNumber_inj]
  simp only [count, seconds]
  omega

theorem count_le_iff {a b : Stamp} : a.count ≤ b.count ↔ a.fields ≤ b.fields := by
  rw [← not_lt, count_lt_iff, not_lt]

theorem count_inj {a b : Stamp} : a.count = b.count ↔ a = b := by
  refine ⟨fun heq => ?_, fun h => h ▸ rfl⟩
  obtain ⟨da, ⟨h, m, s, n, hh, hm, hs, hn⟩⟩ := a
  obtain ⟨db, ⟨h', m', s', n', hh', hm', hs', hn'⟩⟩ := b
  simp only [count, seconds] at heq
  rw [Stamp.ext_iff, TimeOfDay.ext_iff, ← CivilDate.dayNumber_inj]
  dsimp only
  omega

theorem fields_inj {a b : Stamp} : a.fields = b.fields ↔ a = b := by
  rw [Stamp.ext_iff, CivilDate.ext_iff, TimeOfDay.ext_iff]
  simp [fields, and_assoc]

/-- `k` minutes later, at most a day, with the carry over midnight. -/
def shift (s : Stamp) (k : ℤ) : Stamp :=
  let t : ℤ := s.time.hour * 60 + s.time.minute + k
  { date := if t < 0 then s.date.prev else if t < 1440 then s.date else s.date.next
    time := { s.time with
      hour := (t % 1440).toNat / 60
      minute := (t % 1440).toNat % 60
      hour_lt := by omega
      minute_lt := by omega } }

theorem count_shift (s : Stamp) {k : ℤ} (hlow : -1440 ≤ k) (hhigh : k ≤ 1440) :
    (s.shift k).count = s.count + k * 60000000000 := by
  have hhour := s.time.hour_lt
  have hminute := s.time.minute_lt
  have hnext := s.date.dayNumber_next
  have hprev := s.date.dayNumber_prev
  simp only [shift, count, seconds]
  split
  · rw [hprev]
    omega
  · split
    · omega
    · rw [hnext]
      omega

end Stamp

end Unid.Lib

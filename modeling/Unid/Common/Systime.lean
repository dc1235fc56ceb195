import Unid.Common.Config

/-!
# Time points

The count `get_as_systime` returns is that of the date-time's instant as long as
an `int64_t` of nanoseconds can hold what the sum goes through
(`systime_exact_iff`).  The offset comes off last, so the local time has to fit as
well as the UTC time, and the local time has to fit without its sub-seconds.
Between 1678 and 2261 everything fits, and time points compare as calendar and
clock do (`systime_compares`).

## Main definitions

* `DateTime.stamp`, `DateTime.utc` — the local fields, and the fields in UTC.
* `DateTime.Representable` — the date-times that fit, by their fields.
-/

namespace Unid.Common
open Lib Toml

namespace Toml.DateTime

/-- The date and time as written. -/
def stamp (dt : DateTime) : Stamp := ⟨dt.date.toCivilDate, dt.time⟩

/-- The date and time in UTC, by carrying the offset over the calendar. -/
def utc (dt : DateTime) : Stamp := dt.stamp.shift (-dt.offsetMinutes)

/-- No later than 2262-04-11T23:47:16.854775807, no earlier than 1677-09-21T00:12:44 as written,
and no earlier than 1677-09-21T00:12:43.145224192 in UTC. -/
structure Representable (dt : DateTime) : Prop where
  local_ge : [1677, 9, 21, 0, 12, 44, 0] ≤ dt.stamp.fields
  local_le : dt.stamp.fields ≤ [2262, 4, 11, 23, 47, 16, 854775807]
  utc_ge : [1677, 9, 21, 0, 12, 43, 145224192] ≤ dt.utc.fields
  utc_le : dt.utc.fields ≤ [2262, 4, 11, 23, 47, 16, 854775807]

theorem instant_eq (dt : DateTime) :
    dt.instant = dt.stamp.count - dt.offsetMinutes * 60000000000 := by
  simp only [instant, Stamp.count, Stamp.seconds, stamp]
  ring

theorem offsetMinutes_bounds (dt : DateTime) :
    -1439 ≤ dt.offsetMinutes ∧ dt.offsetMinutes ≤ 1439 := by
  unfold offsetMinutes
  split
  · decide
  · next offset _ => exact ⟨offset.ge, offset.le⟩

theorem offsetMinutes_of_none {dt : DateTime} (h : dt.offset = none) : dt.offsetMinutes = 0 := by
  rw [offsetMinutes, h]

/-- Without an offset the instant is the count of the fields as written. -/
theorem instant_of_none {dt : DateTime} (h : dt.offset = none) : dt.instant = dt.stamp.count := by
  rw [instant_eq, offsetMinutes_of_none h, zero_mul, sub_zero]

/-- The instant is the count of the fields in UTC. -/
theorem count_utc (dt : DateTime) : dt.utc.count = dt.instant := by
  obtain ⟨hge, hle⟩ := dt.offsetMinutes_bounds
  rw [utc, Stamp.count_shift _ (by omega) (by omega), instant_eq]
  ring

end Toml.DateTime

theorem rep_eq_some_iff {n m : ℤ} : rep n = some m ↔ Fits n ∧ n = m := by
  unfold rep
  split <;> simp_all

theorem rep_of_fits {n : ℤ} (h : Fits n) : rep n = some n := if_pos h

/-- A TOML date lies within three million days of 1970. -/
theorem dayNumber_bounds (d : Date) : -719528 ≤ d.dayNumber ∧ d.dayNumber < 2932897 := by
  have hstart := daysBeforeYear_mono d.year_nonneg
  have hend := daysBeforeYear_mono (show d.year + 1 ≤ 10000 from Int.add_le_add_right d.year_le 1)
  have hzero : daysBeforeYear 0 = -719528 := by decide
  have hlast : daysBeforeYear 10000 = 2932897 := by decide
  have hge := d.daysBeforeYear_le_dayNumber
  have hlt := d.dayNumber_lt_next_year
  omega

/-- Up to the seconds nothing overflows. -/
theorem toTimePoint_eq (dt : DateTime) : toTimePoint dt =
    (rep (dt.stamp.seconds * 1000000000)).bind fun nanos =>
      (rep (nanos + dt.time.nanosecond)).bind fun tp => lessOffset tp dt.offset := by
  obtain ⟨hlow, hhigh⟩ := dayNumber_bounds dt.date
  have hhour := dt.time.hour_lt
  have hminute := dt.time.minute_lt
  have hsecond := dt.time.second_lt
  have hseconds : ((dt.date.dayNumber * 24 + dt.time.hour) * 60 + dt.time.minute) * 60 +
      dt.time.second = dt.stamp.seconds := by
    simp only [Stamp.seconds, DateTime.stamp]
    ring
  have hday := rep_of_fits (n := dt.date.dayNumber) ⟨by omega, by omega⟩
  have hday24 := rep_of_fits (n := dt.date.dayNumber * 24) ⟨by omega, by omega⟩
  have hhours := rep_of_fits (n := dt.date.dayNumber * 24 + dt.time.hour) ⟨by omega, by omega⟩
  have hhours60 := rep_of_fits (n := (dt.date.dayNumber * 24 + dt.time.hour) * 60)
    ⟨by omega, by omega⟩
  have hminutes := rep_of_fits
    (n := (dt.date.dayNumber * 24 + dt.time.hour) * 60 + dt.time.minute) ⟨by omega, by omega⟩
  have hminutes60 := rep_of_fits
    (n := ((dt.date.dayNumber * 24 + dt.time.hour) * 60 + dt.time.minute) * 60)
    ⟨by omega, by omega⟩
  have hsum := rep_of_fits
    (n := ((dt.date.dayNumber * 24 + dt.time.hour) * 60 + dt.time.minute) * 60 + dt.time.second)
    ⟨by omega, by omega⟩
  simp only [toTimePoint, hday, hday24, hhours, hhours60, hminutes, hminutes60, hsum,
    Option.bind_eq_bind, Option.bind_some]
  rw [hseconds]

theorem toTimePoint_eq_some_iff {dt : DateTime} {tp : TimePoint} : toTimePoint dt = some tp ↔
    Fits (dt.stamp.seconds * 1000000000) ∧ Fits dt.stamp.count ∧ Fits dt.instant ∧
      dt.instant = tp := by
  have hcount : dt.stamp.seconds * 1000000000 + dt.time.nanosecond = dt.stamp.count := rfl
  rw [toTimePoint_eq]
  cases hoffset : dt.offset with
  | none =>
      rw [DateTime.instant_of_none hoffset]
      simp [lessOffset, Option.bind_eq_some_iff, rep_eq_some_iff, hcount]
  | some offset =>
      have hminutes : dt.offsetMinutes = offset.minutes := by rw [DateTime.offsetMinutes, hoffset]
      obtain ⟨hge, hle⟩ := dt.offsetMinutes_bounds
      have hoff : rep (offset.minutes * 60000000000) = some (offset.minutes * 60000000000) :=
        rep_of_fits ⟨by omega, by omega⟩
      rw [dt.instant_eq, hminutes]
      simp [lessOffset, Option.bind_eq_some_iff, rep_eq_some_iff, hcount, hoff]

/-- 1677-09-21T00:12:44, the first second that fits in nanoseconds. -/
def earliestSecond : Stamp where
  date := ⟨1677, 9, 21, by decide, by decide, by decide, by decide⟩
  time := ⟨0, 12, 44, 0, by decide, by decide, by decide, by decide⟩

/-- 1677-09-21T00:12:43.145224192, the first nanosecond. -/
def earliest : Stamp where
  date := ⟨1677, 9, 21, by decide, by decide, by decide, by decide⟩
  time := ⟨0, 12, 43, 145224192, by decide, by decide, by decide, by decide⟩

/-- 2262-04-11T23:47:16.854775807, the last nanosecond. -/
def latest : Stamp where
  date := ⟨2262, 4, 11, by decide, by decide, by decide, by decide⟩
  time := ⟨23, 47, 16, 854775807, by decide, by decide, by decide, by decide⟩

theorem representable_iff (dt : DateTime) : dt.Representable ↔
    Fits (dt.stamp.seconds * 1000000000) ∧ Fits dt.stamp.count ∧ Fits dt.instant := by
  have hfirst : earliestSecond.count = -9223372036000000000 := by decide
  have hearly : earliest.count = -9223372036854775808 := by decide
  have hlate : latest.count = 9223372036854775807 := by decide
  have h₁ : earliestSecond.fields ≤ dt.stamp.fields ↔ _ := Stamp.count_le_iff.symm
  have h₂ : dt.stamp.fields ≤ latest.fields ↔ _ := Stamp.count_le_iff.symm
  have h₃ : earliest.fields ≤ dt.utc.fields ↔ _ := Stamp.count_le_iff.symm
  have h₄ : dt.utc.fields ≤ latest.fields ↔ _ := Stamp.count_le_iff.symm
  rw [hfirst] at h₁
  rw [hlate] at h₂ h₄
  rw [hearly] at h₃
  rw [DateTime.count_utc] at h₃ h₄
  have hnano := dt.time.nanosecond_lt
  have hcount : dt.stamp.count = dt.stamp.seconds * 1000000000 + dt.time.nanosecond := rfl
  constructor
  · rintro ⟨hl, hu, hl', hu'⟩
    have hl := h₁.mp hl
    have hu := h₂.mp hu
    have hl' := h₃.mp hl'
    have hu' := h₄.mp hu'
    unfold Fits
    omega
  · rintro ⟨hs, hc, hi⟩
    unfold Fits at hs hc hi
    exact ⟨h₁.mpr (by omega), h₂.mpr (by omega), h₃.mpr (by omega), h₄.mpr (by omega)⟩

theorem toSystime_eq_value_iff {dt : DateTime} {tp : TimePoint} :
    toSystime dt = .value tp ↔ toTimePoint dt = some tp := by
  unfold toSystime
  cases toTimePoint dt <;> simp

theorem toSystime_eq_value_instant_iff {dt : DateTime} :
    toSystime dt = .value dt.instant ↔ dt.Representable := by
  rw [toSystime_eq_value_iff, toTimePoint_eq_some_iff, representable_iff]
  simp only [and_true]

/-- A time point is the instant, or an overflow on the way to it. -/
theorem toSystime_cases (dt : DateTime) :
    dt.Representable ∧ toSystime dt = .value dt.instant ∨
      ¬ dt.Representable ∧ toSystime dt = .undefined (.overflow dt.instant) := by
  by_cases hfit : dt.Representable
  · exact .inl ⟨hfit, toSystime_eq_value_instant_iff.mpr hfit⟩
  · refine .inr ⟨hfit, ?_⟩
    rw [representable_iff] at hfit
    cases htp : toTimePoint dt with
    | none => rw [toSystime, htp]
    | some tp =>
        obtain ⟨hs, hc, hi, -⟩ := toTimePoint_eq_some_iff.mp htp
        exact absurd ⟨hs, hc, hi⟩ hfit

/-- Two date-times convert alike when they are the same instant and both fit, or neither. -/
theorem toSystime_inj {dt dt' : DateTime} : toSystime dt = toSystime dt' ↔
    dt.instant = dt'.instant ∧ (dt.Representable ↔ dt'.Representable) := by
  rcases toSystime_cases dt with ⟨hfit, h⟩ | ⟨hfit, h⟩ <;>
    rcases toSystime_cases dt' with ⟨hfit', h'⟩ | ⟨hfit', h'⟩ <;> simp [h, h', hfit, hfit']

/-- A date-time that the root holds by `key`, through either getter. -/
theorem getAsSystime_of_index {c : Config} {key : Key} {dt : DateTime}
    (hkey : c.index key = some (.dateTime dt)) :
    c.getAsSystime key = toSystime dt ∧
      ∀ table, (c.index table).index key ≠ none → c.getAsSystimeIn table key = toSystime dt := by
  constructor
  · rw [Config.getAsSystime, hkey]
    rfl
  · intro table hfound
    rw [Config.getAsSystimeIn, hkey]
    cases hnode : (c.index table).index key with
    | none => exact absurd hnode hfound
    | some node => rfl

/-- `get_as_systime` gives the exact instant, without overflow, when the local time and the time
in UTC lie in the range of an `int64_t` of nanoseconds. -/
theorem systime_exact_iff (c : Config) (key : Key) (dt : DateTime)
    (hkey : c.index key = some (.dateTime dt)) :
    (c.getAsSystime key = .value dt.instant ↔ dt.Representable) ∧
    ∀ table, (c.index table).index key ≠ none →
      (c.getAsSystimeIn table key = .value dt.instant ↔ dt.Representable) := by
  obtain ⟨hone, htwo⟩ := getAsSystime_of_index hkey
  refine ⟨by rw [hone, toSystime_eq_value_instant_iff], ?_⟩
  intro table hfound
  rw [htwo table hfound, toSystime_eq_value_instant_iff]

/-- 1979-05-27T07:32:00.5. -/
def may27 : DateTime where
  date := ⟨⟨1979, 5, 27, by decide, by decide, by decide, by decide⟩, by decide, by decide⟩
  time := ⟨7, 32, 0, 500000000, by decide, by decide, by decide, by decide⟩
  offset := none

theorem systime_exact_may27 :
    let c : Config := ⟨[("at".toList, .dateTime may27)]⟩
    c.getAsSystime "at".toList = .value may27.instant := by
  intro c
  refine (systime_exact_iff c "at".toList may27 rfl).1.mpr ?_
  exact ⟨by decide, by decide, by decide, by decide⟩

/-- The last second of the year 9999, a valid TOML date-time. -/
theorem systime_overflows :
    let dt : DateTime := {
      date := ⟨⟨9999, 12, 31, by decide, by decide, by decide, by decide⟩, by decide, by decide⟩
      time := ⟨23, 59, 59, 0, by decide, by decide, by decide, by decide⟩
      offset := none }
    let c : Config := ⟨[("at".toList, .dateTime dt)]⟩
    c.getAsSystime "at".toList = .undefined (.overflow 253402300799000000000) ∧
      c.getAsSystime "at".toList ≠ .value dt.instant := by
  intro dt c
  have hover : c.getAsSystime "at".toList = .undefined (.overflow 253402300799000000000) := by
    decide +kernel
  exact ⟨hover, by rw [hover]; nofun⟩

/-! ## Order -/

/-- From 1678 to 2261 every date-time fits, with any offset. -/
theorem toTimePoint_of_year {dt : DateTime} (hlow : 1678 ≤ dt.date.year)
    (hhigh : dt.date.year ≤ 2261) : toTimePoint dt = some dt.instant := by
  have hstart := daysBeforeYear_mono hlow
  have hend := daysBeforeYear_mono (show dt.date.year + 1 ≤ 2262 by omega)
  have hfirst : daysBeforeYear 1678 = -106650 := by decide
  have hlast : daysBeforeYear 2262 = 106651 := by decide
  have hge := dt.date.daysBeforeYear_le_dayNumber
  have hlt := dt.date.dayNumber_lt_next_year
  have hhour := dt.time.hour_lt
  have hminute := dt.time.minute_lt
  have hsecond := dt.time.second_lt
  have hnano := dt.time.nanosecond_lt
  have hoffset := dt.offsetMinutes_bounds
  rw [toTimePoint_eq_some_iff, dt.instant_eq]
  simp only [Fits, Stamp.count, Stamp.seconds, DateTime.stamp, and_true]
  omega

/-- From 1678 to 2261 time points compare as year, month, day, hour, minute, second and nanosecond
do when there is no offset, and are equal when the fields in UTC are. -/
theorem systime_compares (c c' : Config) (key key' : Key) (dt dt' : DateTime)
    (hkey : c.index key = some (.dateTime dt)) (hkey' : c'.index key' = some (.dateTime dt'))
    (hyear : 1678 ≤ dt.date.year ∧ dt.date.year ≤ 2261)
    (hyear' : 1678 ≤ dt'.date.year ∧ dt'.date.year ≤ 2261) :
    ∃ tp tp', c.getAsSystime key = .value tp ∧ c'.getAsSystime key' = .value tp' ∧
      (dt.offset = none → dt'.offset = none →
        (tp < tp' ↔ dt.stamp.fields < dt'.stamp.fields) ∧
        (tp = tp' ↔ dt.stamp.fields = dt'.stamp.fields)) ∧
      (tp = tp' ↔ dt.utc.fields = dt'.utc.fields) := by
  refine ⟨dt.instant, dt'.instant, ?_, ?_, ?_, ?_⟩
  · rw [(getAsSystime_of_index hkey).1, toSystime_eq_value_iff]
    exact toTimePoint_of_year hyear.1 hyear.2
  · rw [(getAsSystime_of_index hkey').1, toSystime_eq_value_iff]
    exact toTimePoint_of_year hyear'.1 hyear'.2
  · intro hlocal hlocal'
    rw [DateTime.instant_of_none hlocal, DateTime.instant_of_none hlocal']
    exact ⟨Stamp.count_lt_iff, by rw [Stamp.count_inj, Stamp.fields_inj]⟩
  · rw [← DateTime.count_utc, ← DateTime.count_utc, Stamp.count_inj, Stamp.fields_inj]

/-- An hour before midnight of a leap day, one hour west of Greenwich, is the first minute of
March. -/
theorem systime_compares_leap_day :
    let dt : DateTime := {
      date := ⟨⟨2024, 2, 29, by decide, by decide, by decide, by decide⟩, by decide, by decide⟩
      time := ⟨23, 0, 0, 0, by decide, by decide, by decide, by decide⟩
      offset := some ⟨-60, by decide, by decide⟩ }
    let dt' : DateTime := {
      date := ⟨⟨2024, 3, 1, by decide, by decide, by decide, by decide⟩, by decide, by decide⟩
      time := ⟨0, 0, 0, 0, by decide, by decide, by decide, by decide⟩
      offset := none }
    let c : Config := ⟨[("west".toList, .dateTime dt), ("utc".toList, .dateTime dt')]⟩
    ∃ tp tp', c.getAsSystime "west".toList = .value tp ∧
      c.getAsSystime "utc".toList = .value tp' ∧ tp = tp' := by
  intro dt dt' c
  obtain ⟨tp, tp', htp, htp', -, heq⟩ := systime_compares c c "west".toList "utc".toList dt dt'
    rfl rfl (by decide) (by decide)
  exact ⟨tp, tp', htp, htp', heq.mpr (by decide)⟩

end Unid.Common

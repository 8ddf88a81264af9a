import PgAutoIndex.Adt.Datetime

/-!
# Timestamps and their fields

Model of `timestamp2tm` (without a time zone) and `tm2timestamp` in
`src/backend/utils/adt/timestamp.c`. A timestamp counts microseconds from the start of the year
2000; the fields are a date and a time of day. The day is the floor of the quotient, computed from
the division that truncates (`splitDay_spec`), so that a timestamp is the microsecond `time` of the
Julian day `date`, and the fields of both are unique.
-/

namespace PgAutoIndex.Adt

open Gregorian Option

/-- `USECS_PER_DAY`. -/
def usecsPerDay : ℤ := 86400000000

/-- `USECS_PER_HOUR`. -/
def usecsPerHour : ℤ := 3600000000

/-- `USECS_PER_MINUTE`. -/
def usecsPerMinute : ℤ := 60000000

/-- `USECS_PER_SEC`. -/
def usecsPerSec : ℤ := 1000000

/-- `POSTGRES_EPOCH_JDATE`. -/
def postgresEpochJdate : ℤ := 2451545

/-- `IS_VALID_TIMESTAMP`: from `MIN_TIMESTAMP` up to `END_TIMESTAMP`. Neither infinity is in this
range. -/
def isValidTimestamp (t : ℤ) : Bool := -211813488000000000 ≤ t ∧ t < 9223371331200000000

/-- `IS_VALID_JULIAN`. -/
def isValidJulian (y m : ℤ) : Bool :=
  (y > -4713 ∨ (y = -4713 ∧ m ≥ 11)) ∧ (y < 5874898 ∨ (y = 5874898 ∧ m < 6))

/-- The fields of `struct pg_tm` that are set without a time zone, with the microseconds. -/
structure PgTm where
  date : Date
  tmHour : ℤ
  tmMin : ℤ
  tmSec : ℤ
  fsec : ℤ

/-- `TMODULO` by the microseconds of a day, and the correction of a negative rest in `timestamp2tm`.
-/
def splitDay (dt : ℤ) : ℤ × ℤ :=
  let date := dt.tdiv usecsPerDay
  let time := if date ≠ 0 then dt - date * usecsPerDay else dt
  if time < 0 then (date - 1, time + usecsPerDay) else (date, time)

/-- `dt2time`. -/
def dt2time (jd : ℤ) : ℤ × ℤ × ℤ × ℤ :=
  let hour := jd.tdiv usecsPerHour
  let time := jd - hour * usecsPerHour
  let min := time.tdiv usecsPerMinute
  let time := time - min * usecsPerMinute
  let sec := time.tdiv usecsPerSec
  (hour, min, sec, time - sec * usecsPerSec)

/-- `timestamp2tm` without a time zone; none where it returns -1. -/
def timestamp2tm (dt : ℤ) : Option PgTm :=
  let (date, time) := splitDay dt
  let date := date + postgresEpochJdate
  if date < 0 ∨ date > 2147483647 then none
  else
    let (hour, min, sec, fsec) := dt2time time
    some ⟨j2date date, hour, min, sec, fsec⟩

/-- `time2t`. -/
def time2t (hour min sec fsec : ℤ) : ℤ := ((hour * 60 + min) * 60 + sec) * usecsPerSec + fsec

/-- The result of a signed 64-bit computation, if it does not overflow. -/
def int64 (x : ℤ) : Option ℤ := if -2^63 ≤ x ∧ x < 2^63 then some x else none

/-- `tm2timestamp` without a time zone; none where it returns -1. -/
def tm2timestamp (tm : PgTm) : Option ℤ := do
  if ¬ isValidJulian tm.date.year tm.date.month then none
  else
    let date ← int32 ((← date2j tm.date.year tm.date.month tm.date.day) - postgresEpochJdate)
    let time := time2t tm.tmHour tm.tmMin tm.tmSec tm.fsec
    let result ← int64 (date * usecsPerDay)
    let result ← int64 (result + time)
    if ¬ isValidTimestamp result then none else some result

/-! ## The fields of a timestamp -/

/-- The fields are in range. -/
structure PgTm.InRange (tm : PgTm) : Prop where
  date : tm.date.Valid
  hour : 0 ≤ tm.tmHour ∧ tm.tmHour < 24
  min : 0 ≤ tm.tmMin ∧ tm.tmMin < 60
  sec : 0 ≤ tm.tmSec ∧ tm.tmSec < 60
  fsec : 0 ≤ tm.fsec ∧ tm.fsec < 1000000

/-- The order of the fields, from the year to the microsecond. -/
def PgTm.lt (a b : PgTm) : Prop :=
  a.date.lt b.date ∨ (a.date = b.date ∧ (a.tmHour < b.tmHour ∨ (a.tmHour = b.tmHour ∧
    (a.tmMin < b.tmMin ∨
      (a.tmMin = b.tmMin ∧ (a.tmSec < b.tmSec ∨ (a.tmSec = b.tmSec ∧ a.fsec < b.fsec)))))))

/-- The day is the floor of the quotient. -/
theorem splitDay_spec (dt : ℤ) :
    dt = (splitDay dt).1 * 86400000000 + (splitDay dt).2 ∧ 0 ≤ (splitDay dt).2 ∧
    (splitDay dt).2 < 86400000000 := by
  -- Truncation rounds a negative quotient up, unless there is no rest.
  have hdate : dt.tdiv 86400000000 = dt / 86400000000 ∨
      (dt.tdiv 86400000000 = dt / 86400000000 + 1 ∧ dt % 86400000000 ≠ 0) := by
    rw [Int.tdiv_eq_ediv]
    split
    · exact .inl (Int.add_zero _)
    · exact .inr ⟨rfl, by omega⟩
  unfold splitDay usecsPerDay
  simp only
  generalize dt.tdiv 86400000000 = date at hdate ⊢
  have htime : (if date ≠ 0 then dt - date * 86400000000 else dt) = dt - date * 86400000000 := by
    split
    · rfl
    · omega
  rw [htime]
  split
  · dsimp only
    omega
  · dsimp only
    omega

/-- The time of day. -/
theorem dt2time_spec {time : ℤ} (hlow : 0 ≤ time) (hhigh : time < 86400000000)
    {hour min sec fsec : ℤ}
    (h : dt2time time = (hour, min, sec, fsec)) :
    time = hour * 3600000000 + min * 60000000 + sec * 1000000 + fsec ∧ (0 ≤ hour ∧ hour < 24) ∧
    (0 ≤ min ∧ min < 60) ∧
      (0 ≤ sec ∧ sec < 60) ∧ (0 ≤ fsec ∧ fsec < 1000000) := by
  have hdiv : ∀ n : ℤ, 0 ≤ n → ∀ d : ℤ, n.tdiv d = n / d :=
    fun n hn d => Int.tdiv_eq_ediv_of_nonneg hn
  unfold dt2time usecsPerHour usecsPerMinute usecsPerSec at h
  simp only [hdiv time hlow] at h
  rw [hdiv _ (by omega), hdiv _ (by omega)] at h
  simp only [Prod.mk.injEq] at h
  obtain ⟨hhour, hmin, hsec, hfsec⟩ := h
  omega

/-- The fields of a valid timestamp: those of a Julian day and of a time of the day. -/
theorem timestamp2tm_spec {t : ℤ} (h : isValidTimestamp t = true) :
    ∃ (jd : ℕ) (tm : PgTm), jd ≤ 109203527 ∧ timestamp2tm t = some tm ∧ tm.date = j2date jd ∧
      tm.InRange ∧
      t = (jd - 2451545) * 86400000000 + time2t tm.tmHour tm.tmMin tm.tmSec tm.fsec ∧
      0 ≤ time2t tm.tmHour tm.tmMin tm.tmSec tm.fsec ∧
      time2t tm.tmHour tm.tmMin tm.tmSec tm.fsec < 86400000000 := by
  obtain ⟨hlow, hhigh⟩ := of_decide_eq_true h
  obtain ⟨hsplit, hpos, hday⟩ := splitDay_spec t
  unfold timestamp2tm postgresEpochJdate
  generalize splitDay t = parts at hsplit hpos hday
  obtain ⟨date, time⟩ := parts
  simp only at hsplit hpos hday ⊢
  rw [if_neg (by omega)]
  rcases htime : dt2time time with ⟨hour, min, sec, fsec⟩
  obtain ⟨hsum, hhour, hmin, hsec, hfsec⟩ := dt2time_spec hpos hday htime
  have hjd : ((date + 2451545).toNat : ℤ) = date + 2451545 := by omega
  have ht : time2t hour min sec fsec = time := by
    unfold time2t usecsPerSec
    omega
  refine ⟨(date + 2451545).toNat, _, by omega, rfl, by rw [hjd], ⟨?_, hhour, hmin, hsec, hfsec⟩, ?_⟩
  · show (j2date (date + 2451545)).Valid
    rw [← hjd]
    exact (j2date_spec (by omega)).1
  · simp only [ht]
    omega

/-- The dates of valid timestamps pass the check for the Julian day routines. -/
theorem isValidJulian_j2date {jd : ℕ} (hjd : jd ≤ 109203527) :
    isValidJulian (j2date jd).year (j2date jd).month = true := by
  obtain ⟨hvalid, hordinal, _⟩ := j2date_spec (show jd < 2147483648 by omega)
  generalize j2date jd = date at hvalid hordinal
  have hle := hvalid.ordinal_le
  have hday := hvalid.day_pos
  apply decide_eq_true
  constructor
  · have hyear : -4713 ≤ date.year := by
      unfold daysBeforeYear at hle
      omega
    rcases Int.lt_or_eq_of_le hyear with hlt | heq
    · exact .inl hlt
    · -- Day 0 is in November of the first year.
      refine .inr ⟨heq.symm, ?_⟩
      by_contra hmonth
      have hbefore :=
        daysBeforeMonth_add_le hvalid.month_pos (show date.month < 11 by omega) hvalid.day_le
      rw [← heq, show daysBeforeMonth (-4713) 11 = 304 by decide] at hbefore
      rw [Date.ordinal, ← heq, show daysBeforeYear (-4713) = -1721753 by decide] at hordinal
      omega
  · left
    rw [Date.ordinal] at hordinal
    unfold daysBeforeYear at hordinal
    omega

/-- The fields of a valid timestamp give the timestamp back. -/
theorem tm2timestamp_timestamp2tm {t : ℤ} (h : isValidTimestamp t = true) :
    ∃ tm, timestamp2tm t = some tm ∧ tm.InRange ∧ tm2timestamp tm = some t := by
  obtain ⟨jd, tm, hjd, htm, hdate, hrange, hsum, hpos, hlt⟩ := timestamp2tm_spec h
  refine ⟨tm, htm, hrange, ?_⟩
  obtain ⟨hlow, hhigh⟩ := of_decide_eq_true h
  generalize htime : time2t tm.tmHour tm.tmMin tm.tmSec tm.fsec = time at hsum hpos hlt
  unfold tm2timestamp postgresEpochJdate usecsPerDay
  rw [hdate, isValidJulian_j2date hjd, date2j_j2date (by omega), htime]
  simp only [not_true, if_false, bind_eq_bind, bind_some]
  rw [int32_of_bounds (by omega) (by omega), bind_some, int64, if_pos (by omega), bind_some, int64,
    if_pos (by omega), bind_some, ← hsum, h]
  rfl

/-- The order of the fields is that of the timestamps. -/
theorem timestamp2tm_lt {t t' : ℤ} (h : isValidTimestamp t = true) (h' : isValidTimestamp t' = true)
    {tm tm' : PgTm}
    (htm : timestamp2tm t = some tm) (htm' : timestamp2tm t' = some tm') : t < t' ↔ tm.lt tm' := by
  obtain ⟨jd, _, hjd, heq, hdate, hrange, hsum, hpos, hlt⟩ := timestamp2tm_spec h
  obtain rfl := some.inj (htm.symm.trans heq)
  obtain ⟨jd', _, hjd', heq', hdate', hrange', hsum', hpos', hlt'⟩ := timestamp2tm_spec h'
  obtain rfl := some.inj (htm'.symm.trans heq')
  obtain ⟨hvalid, hordinal, _⟩ := j2date_spec (show jd < 2147483648 by omega)
  obtain ⟨hvalid', hordinal', _⟩ := j2date_spec (show jd' < 2147483648 by omega)
  rw [← hdate] at hvalid hordinal
  rw [← hdate'] at hvalid' hordinal'
  have hbefore : tm.date.lt tm'.date ↔ jd < jd' := by
    rw [← Date.ordinal_lt_iff hvalid hvalid']
    omega
  have hsame : tm.date = tm'.date ↔ jd = jd' := by
    constructor
    · intro heq
      rw [heq] at hordinal
      omega
    · intro heq
      rw [hdate, hdate', heq]
  unfold PgTm.lt
  rw [hbefore, hsame]
  obtain ⟨_, hhour, hmin, hsec, hfsec⟩ := hrange
  obtain ⟨_, hhour', hmin', hsec', hfsec'⟩ := hrange'
  unfold time2t usecsPerSec at hsum hpos hlt hsum' hpos' hlt'
  omega

/-- Timestamps and calendar dates convert exactly. Every Julian day is a date of the Gregorian
calendar, the next Julian day is the day after, and `date2j` takes the date back without an
overflow; the fields of every valid timestamp are in range and give it back, and they are ordered as
the timestamps are. -/
theorem timestamps_convert :
    (∀ jd : ℕ, jd ≤ 2147483647 →
      (j2date jd).Valid ∧ (jd < 2147483647 → j2date (jd + 1) = (j2date jd).next) ∧
        date2j (j2date jd).year (j2date jd).month (j2date jd).day = some (jd : ℤ)) ∧
      (∀ t, isValidTimestamp t = true → ∃ tm, timestamp2tm t = some tm ∧ tm.InRange ∧
        tm2timestamp tm = some t) ∧
      ∀ t t' tm tm', isValidTimestamp t = true → isValidTimestamp t' = true →
        timestamp2tm t = some tm →
        timestamp2tm t' = some tm' → (t < t' ↔ tm.lt tm') := by
  refine ⟨fun jd hjd =>
    ⟨(j2date_spec (by omega)).1, fun hlt => j2date_succ (by omega), date2j_j2date (by omega)⟩, ?_,
      ?_⟩
  · exact fun t h => tm2timestamp_timestamp2tm h
  · exact fun t t' tm tm' h h' htm htm' => timestamp2tm_lt h h' htm htm'

/-- The first moment of the year 2000 and the last of the year before. -/
example : timestamp2tm 0 = some ⟨⟨2000, 1, 1⟩, 0, 0, 0, 0⟩ ∧
    timestamp2tm (-1) = some ⟨⟨1999, 12, 31⟩, 23, 59, 59, 999999⟩ := ⟨rfl, rfl⟩

end PgAutoIndex.Adt

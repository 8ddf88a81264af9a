import PgAutoIndex.Gregorian

/-!
# Julian days and calendar dates

Model of `date2j` and `j2date` in `src/backend/utils/adt/datetime.c`. `date2j` computes with signed
integers, where an overflow is undefined: the model gives no result then. `j2date` computes with
unsigned integers, which wrap around.

Both count years from March on, so that the leap day comes last. `j2date` first adds the leap days
that centuries leave out; after that, every four years have 1461 days. `j2date_eq` takes this apart:
the Julian day is day `n` of the March-based year `400 * quad + 100 * c + 4 * a + b`. The magic
numbers are used on the 366 days of a year only.
-/

namespace PgAutoIndex.Adt

open Gregorian Option

/-- The result of a signed 32-bit computation, if it does not overflow. -/
def int32 (x : ℤ) : Option ℤ := if -2^31 ≤ x ∧ x < 2^31 then some x else none

/-- An unsigned 32-bit integer. -/
def u32 (n : ℕ) : ℕ := n % 2^32

/-- Subtraction of unsigned 32-bit integers. -/
def sub32 (a b : ℕ) : ℕ := (a + 2^32 - b) % 2^32

/-- The conversion of an unsigned to a signed 32-bit integer. -/
def intOfU32 (n : ℕ) : ℤ := if n < 2^31 then n else n - 2^32

/-- The start of `date2j`: the year and the month, counted from March on. -/
def marchBased (year month : ℤ) : Option (ℤ × ℤ) :=
  if month > 2 then do
    let month ← int32 (month + 1)
    let year ← int32 (year + 4800)
    return (year, month)
  else do
    let month ← int32 (month + 13)
    let year ← int32 (year + 4799)
    return (year, month)

/-- `date2j`. -/
def date2j (year month day : ℤ) : Option ℤ := do
  let (year, month) ← marchBased year month
  let century := year.tdiv 100
  let julian ← int32 ((← int32 (year * 365)) - 32167)
  let julian ← int32 (julian + (← int32 ((← int32 (year.tdiv 4 - century)) + century.tdiv 4)))
  int32 (julian + (← int32 ((← int32 (7834 * month)).tdiv 256 + day)))

/-- The first half of `j2date`: the days in cycles of four years, with the leap days that centuries
leave out. -/
def julianCycles (jd : ℤ) : ℕ :=
  let julian := (jd % 2^32).toNat
  let julian := u32 (julian + 32044)
  let quad := julian / 146097
  let extra := u32 (u32 (sub32 julian (u32 (quad * 146097)) * 4) + 3)
  u32 (julian + u32 (u32 (60 + u32 (quad * 3)) + extra / 146097))

/-- The second half of `j2date`. -/
def dateOfCycles (julian : ℕ) : Date :=
  let quad := julian / 1461
  let julian := sub32 julian (u32 (quad * 1461))
  let y := u32 (julian * 4) / 1461
  let julian := u32 ((if y ≠ 0 then u32 (julian + 305) % 365 else u32 (julian + 306) % 366) + 123)
  let y := intOfU32 (u32 (y + u32 (quad * 4)))
  let quad := u32 (julian * 2141) / 65536
  ⟨y - 4800, u32 (quad + 10) % 12 + 1, sub32 julian (u32 (7834 * quad) / 256)⟩

/-- `j2date`. -/
def j2date (jd : ℤ) : Date := dateOfCycles (julianCycles jd)

/-! ## From dates to days -/

theorem int32_of_bounds {x : ℤ} (hlow : -2147483648 ≤ x) (hhigh : x < 2147483648) :
    int32 x = some x :=
  if_pos ⟨hlow, hhigh⟩

/-- `date2j` without the checks, for the March-based year and the number of the month in it. -/
def marchDays (year month day : ℤ) : ℤ :=
  year * 365 - 32167 + (year / 4 - year / 100 + year / 100 / 4) + (7834 * month / 256 + day)

variable {year : ℤ} {jd n : ℕ}

/-- `date2j` does not overflow for a date whose Julian day is a 32-bit integer. -/
theorem date2j_eq_marchDays {month day : ℤ} (hmonth : 1 ≤ month ∧ month ≤ 12)
    (hday : 1 ≤ day ∧ day ≤ 31) {year' month' : ℤ}
    (hshift : (month' = month + 1 ∧ year' = year + 4800 ∧ month > 2) ∨
      (month' = month + 13 ∧ year' = year + 4799 ∧ ¬ month > 2)) (hyear : 0 ≤ year')
    (hhigh : marchDays year' month' day < 2147483648) :
    date2j year month day = some (marchDays year' month' day) := by
  unfold marchDays at hhigh
  have hbranch : marchBased year month = some (year', month') := by
    unfold marchBased
    rcases hshift with ⟨rfl, rfl, hlate⟩ | ⟨rfl, rfl, hearly⟩
    · rw [if_pos hlate, int32_of_bounds (by omega) (by omega),
        int32_of_bounds (by omega) (by omega)]
      rfl
    · rw [if_neg hearly, int32_of_bounds (by omega) (by omega),
        int32_of_bounds (by omega) (by omega)]
      rfl
  unfold date2j
  rw [hbranch]
  simp (disch := omega) only [bind_eq_bind, bind_some, int32_of_bounds, Int.tdiv_eq_ediv_of_nonneg]
  rfl

/-- From March on, `7834 * month / 256` counts the days of the months. -/
theorem daysBeforeMonth_eq (year : ℤ) {month : ℕ} (hlow : 3 ≤ month) (hhigh : month ≤ 12) :
    daysBeforeMonth year month + 63 = 7834 * (month + 1) / 256 + if IsLeap year then 1 else 0 := by
  induction month, hlow using Nat.le_induction with
  | base =>
    show 0 + 0 + 31 + (if IsLeap year then 29 else 28) + 63 = 122 + _
    split_ifs <;> rfl
  | succ month hlow ih =>
    have hlength : ∀ m : Fin 12, 3 ≤ m.val → 7834 * (m.val + 1 + 1) / 256 =
        7834 * (m.val + 1) / 256 + if m.val = 4 ∨ m.val = 6 ∨ m.val = 9 ∨ m.val = 11 then 30
          else 31 := by decide
    have hstep : 7834 * (month + 1 + 1) / 256 =
        7834 * (month + 1) / 256 + daysInMonth year month := by
      rw [daysInMonth, if_neg (by omega)]
      exact hlength ⟨month, by omega⟩ hlow
    rw [daysBeforeMonth_succ year (by omega), hstep]
    omega

/-- The Julian day is the number of the day in the Gregorian calendar, counted from an earlier day.
-/
theorem marchDays_eq_ordinal {date : Date} (h : date.Valid) :
    (date.month > 2 → marchDays (date.year + 4800) (date.month + 1) date.day =
      date.ordinal + 1721425) ∧
      (¬ date.month > 2 → marchDays (date.year + 4799) (date.month + 13) date.day =
        date.ordinal + 1721425) := by
  obtain ⟨year, month, day⟩ := date
  have hpos : 1 ≤ month := h.month_pos
  have hle : month ≤ 12 := h.month_le
  unfold Date.ordinal daysBeforeYear marchDays
  dsimp only
  constructor
  · intro hlate
    have hdays := daysBeforeMonth_eq year (show 3 ≤ month from hlate) hle
    split_ifs at hdays with hleap
    · obtain ⟨hfour, hcentury⟩ := hleap
      omega
    · have hcases : year % 4 ≠ 0 ∨ (year % 100 = 0 ∧ year % 400 ≠ 0) := by
        unfold IsLeap at hleap
        omega
      omega
  · intro hearly
    have hdays : daysBeforeMonth year month = 31 * (month - 1) := by
      obtain rfl | rfl : month = 1 ∨ month = 2 := by omega
      · rfl
      · rfl
    omega

/-- `date2j` counts the days of the Gregorian calendar. -/
theorem date2j_eq {date : Date} (h : date.Valid) (hyear : -4799 ≤ date.year)
    (hhigh : date.ordinal + 1721425 < 2147483648) :
    date2j date.year date.month date.day = some (date.ordinal + 1721425) := by
  have hmonth : (1 : ℤ) ≤ date.month ∧ (date.month : ℤ) ≤ 12 := by
    have := h.month_pos
    have := h.month_le
    omega
  have hday : (1 : ℤ) ≤ date.day ∧ (date.day : ℤ) ≤ 31 := by
    have hle : daysInMonth date.year date.month ≤ 31 := by
      unfold daysInMonth
      split_ifs <;> omega
    have := h.day_pos
    have := h.day_le
    omega
  obtain ⟨hlate, hearly⟩ := marchDays_eq_ordinal h
  by_cases hmonth2 : date.month > 2
  · rw [← hlate hmonth2] at hhigh ⊢
    exact date2j_eq_marchDays hmonth hday (.inl ⟨rfl, rfl, by omega⟩) (by omega) hhigh
  · rw [← hearly hmonth2] at hhigh ⊢
    exact date2j_eq_marchDays hmonth hday (.inr ⟨rfl, rfl, by omega⟩) (by omega) hhigh

/-! ## From days to dates -/

/-- Day `n` of a March-based year, as `j2date` ends. -/
def marchDate (year : ℤ) (n : ℕ) : Date :=
  let quad := (n + 123) * 2141 / 65536
  ⟨if quad < 14 then year - 4800
    else year - 4799, (quad + 10) % 12 + 1, n + 123 - 7834 * quad / 256⟩

/-- The magic multiplications are right for the days of a year. -/
theorem marchDate_table (hn : n < 366) :
    4 ≤ (n + 123) * 2141 / 65536 ∧ (n + 123) * 2141 / 65536 ≤ 15 ∧
      7834 * ((n + 123) * 2141 / 65536) / 256 < n + 123 ∧
      n + 123 - 7834 * ((n + 123) * 2141 / 65536) / 256 ≤
        if (n + 123) * 2141 / 65536 = 15 then (if n = 365 then 29 else 28)
        else daysInMonth 0 (((n + 123) * 2141 / 65536 + 10) % 12 + 1) := by
  revert n
  decide +kernel

/-- January is month 14 and starts with day 306. -/
theorem marchDate_january (hn : n < 366) : (n + 123) * 2141 / 65536 < 14 ↔ n < 306 := by
  revert n
  decide +kernel

/-- A day of a March-based year is a date, the last one only before a leap year ends in February. -/
theorem marchDate_valid (hn : n < 366) (hleap : n = 365 → IsLeap (year - 4799)) :
    (marchDate year n).Valid := by
  obtain ⟨hlow, hhigh, hday, hlast⟩ := marchDate_table hn
  generalize hquad : (n + 123) * 2141 / 65536 = quad at hlow hhigh hday hlast
  unfold marchDate
  simp only [hquad]
  refine ⟨Nat.le_add_left _ _, Nat.succ_le_of_lt (Nat.mod_lt _ (by decide)), Nat.sub_pos_of_lt hday,
    hlast.trans ?_⟩
  by_cases hfeb : quad = 15
  · rw [if_pos hfeb, hfeb]
    show (if n = 365 then 29 else 28) ≤ if IsLeap (year - 4799) then 29 else 28
    by_cases hend : n = 365
    · rw [if_pos hend, if_pos (hleap hend)]
    · rw [if_neg hend]
      split_ifs
      · decide
      · exact le_rfl
  · rw [if_neg hfeb]
    -- The other months have the same length in every year.
    unfold daysInMonth
    rw [if_neg (by omega), if_neg (show (quad + 10) % 12 + 1 ≠ 2 by omega)]

/-- The days of the months before and the day of the month together are the day of the year. -/
theorem marchDays_add {ordinal : ℤ} {before : ℕ} (hbefore : before < n + 123)
    (h : year * 365 - 32167 + (year / 4 - year / 100 + year / 100 / 4) +
      (before + (n + 123 - before : ℕ)) = ordinal + 1721425) :
    ordinal + 1721425 = year * 365 + year / 4 - year / 100 + year / 400 + n - 32044 := by
  omega

/-- The number of a day of a March-based year. -/
theorem marchDate_ordinal (hn : n < 366) (hleap : n = 365 → IsLeap (year - 4799)) :
    (marchDate year n).ordinal + 1721425 =
      year * 365 + year / 4 - year / 100 + year / 400 + n - 32044 := by
  obtain ⟨hlow, hhigh, hday, _⟩ := marchDate_table hn
  obtain ⟨hlate, hearly⟩ := marchDays_eq_ordinal (marchDate_valid hn hleap)
  generalize hquad : (n + 123) * 2141 / 65536 = quad at hlow hhigh hday
  have hyear : (marchDate year n).year = if quad < 14 then year - 4800 else year - 4799 := by
    rw [← hquad]
    rfl
  have hmonth : (marchDate year n).month = (quad + 10) % 12 + 1 := by
    rw [← hquad]
    rfl
  have hdays : (marchDate year n).day = n + 123 - 7834 * quad / 256 := by
    rw [← hquad]
    rfl
  unfold marchDays at hlate hearly
  rw [hyear, hmonth, hdays] at hlate hearly
  have hcast : 7834 * (quad : ℤ) / 256 = (7834 * quad / 256 : ℕ) := rfl
  by_cases hsplit : quad < 14
  · have hlate := hlate (by omega)
    rw [if_pos hsplit, sub_add_cancel, show (((quad + 10) % 12 + 1 : ℕ) : ℤ) + 1 = quad by omega,
      hcast] at hlate
    exact marchDays_add hday hlate
  · have hearly := hearly (by omega)
    rw [if_neg hsplit, sub_add_cancel, show (((quad + 10) % 12 + 1 : ℕ) : ℤ) + 13 = quad by omega,
      hcast] at hearly
    exact marchDays_add hday hearly

theorem u32_of_lt (h : n < 4294967296) : u32 n = n := Nat.mod_eq_of_lt h

theorem sub32_of_le {a b : ℕ} (h : b ≤ a) (ha : a < 4294967296) : sub32 a b = a - b := by
  unfold sub32
  omega

/-- The second half of `j2date`, for day `r` of cycle `quad`, counted from January on. -/
theorem dateOfCycles_eq {quad r : ℕ} (hr : r < 1461) (hquad : 1 ≤ quad ∧ quad < 2000000) :
    ∃ b n : ℕ, b ≤ 3 ∧ n < 366 ∧ (n = 365 → b = 3) ∧
      ((r = 60 + 365 * b + n ∧ dateOfCycles (1461 * quad + r) = marchDate (4 * quad + b) n) ∨
        (r + 1401 = 365 * b + n ∧ dateOfCycles (1461 * quad + r) =
          marchDate (4 * quad - 4 + b) n)) := by
  have hdiv : (1461 * quad + r) / 1461 = quad := by omega
  have hsub : sub32 (1461 * quad + r) (u32 (quad * 1461)) = r := by
    rw [u32_of_lt (by omega), sub32_of_le (by omega) (by omega)]
    omega
  -- The day of the year, counted from March on.
  generalize hn : (if 4 * r / 1461 ≠ 0 then (r + 305) % 365 else (r + 306) % 366) = n
  have hn366 : n < 366 := by
    rw [← hn]
    split <;> omega
  have hcases : (4 * r / 1461 = 0 ∧ r < 60 ∧ n = r + 306) ∨
    (4 * r / 1461 = 0 ∧ n < 306 ∧ r = 60 + n) ∨
      (1 ≤ 4 * r / 1461 ∧ 4 * r / 1461 ≤ 3 ∧ n < 306 ∧ r = 60 + 365 * (4 * r / 1461) + n) ∨
      (1 ≤ 4 * r / 1461 ∧ 4 * r / 1461 ≤ 3 ∧ ¬ n < 306 ∧ n < 365 ∧
        r = 60 + 365 * (4 * r / 1461 - 1) + n) := by
    split_ifs at hn <;> omega
  obtain ⟨hlow, hhigh, hday, _⟩ := marchDate_table hn366
  have hdate : dateOfCycles (1461 * quad + r) = ⟨(4 * r / 1461 + 4 * quad : ℕ) - 4800,
      ((n + 123) * 2141 / 65536 + 10) % 12 + 1,
      n + 123 - 7834 * ((n + 123) * 2141 / 65536) / 256⟩ := by
    unfold dateOfCycles
    simp only [hdiv, hsub, mul_comm r 4, mul_comm quad 4]
    simp (disch := omega) only [u32_of_lt, sub32_of_le, hn]
    rw [intOfU32, if_pos (by omega)]
  have hjanuary := marchDate_january hn366
  have hmarch : ∀ year : ℤ, (4 * r / 1461 + 4 * quad : ℕ) = (if n < 306 then year else year + 1) →
      dateOfCycles (1461 * quad + r) = marchDate year n := by
    intro year hyear
    rw [hdate, hyear]
    unfold marchDate
    simp only [hjanuary]
    congr 1
    split <;> omega
  rcases hcases with ⟨hy, hr60, hn'⟩ | ⟨hy, hn306, hr'⟩ | ⟨hy1, hy3, hn306, hr'⟩ |
    ⟨hy1, hy3, hn306, hn365, hr'⟩
  · -- January and February of a leap year end the cycle that began in March four years before.
    refine ⟨3, n, le_rfl, hn366, fun _ => rfl, .inr ⟨by omega, hmarch _ ?_⟩⟩
    omega
  · refine ⟨0, n, by omega, hn366, by omega, .inl ⟨by omega, hmarch _ ?_⟩⟩
    omega
  · refine ⟨4 * r / 1461, n, hy3, hn366, by omega, .inl ⟨hr', hmarch _ ?_⟩⟩
    omega
  · refine ⟨4 * r / 1461 - 1, n, by omega, hn366, by omega, .inl ⟨hr', hmarch _ ?_⟩⟩
    omega

/-- The first half of `j2date`: `c` centuries and `t` days after `quad` cycles of four centuries. -/
theorem julianCycles_eq (hjd : jd < 2147483648) :
    ∃ quad c t : ℕ, jd + 32044 = 146097 * quad + 36524 * c + t ∧ c ≤ 3 ∧ t ≤ 36524 ∧
      (t = 36524 → c = 3) ∧
      julianCycles jd = 36525 * (4 * quad + c) + t + 60 := by
  have hjulian : ((jd : ℤ) % 2^32).toNat = jd := by omega
  unfold julianCycles
  simp only [hjulian]
  generalize hquad : (jd + 32044) / 146097 = quad
  generalize he : jd + 32044 - quad * 146097 = e
  simp (disch := omega) only [u32_of_lt, sub32_of_le, hquad, he]
  exact ⟨quad, (e * 4 + 3) / 146097, e - 36524 * ((e * 4 + 3) / 146097), by omega, by omega,
    by omega, by omega, by omega⟩

/-- `j2date`: the Julian day is day `n` of a March-based year, the last day of a leap year only if
it has one. -/
theorem j2date_eq (hjd : jd < 2147483648) :
    ∃ quad c a b n : ℕ, jd + 32044 = 146097 * quad + 36524 * c + 1461 * a + 365 * b + n ∧ c ≤ 3 ∧
      a ≤ 24 ∧ b ≤ 3 ∧
      n < 366 ∧ (n = 365 → b = 3 ∧ (a = 24 → c = 3)) ∧
      j2date jd = marchDate (400 * quad + 100 * c + 4 * a + b) n := by
  obtain ⟨quad, c, t, hsum, hc, ht, hlast, hcycles⟩ := julianCycles_eq hjd
  -- The cycle of four years that the day falls in, counted from January on.
  generalize hq : 25 * (4 * quad + c) + (t + 60) / 1461 = q
  generalize hr : (t + 60) % 1461 = r
  have hsplit : 36525 * (4 * quad + c) + t + 60 = 1461 * q + r := by omega
  have hq1 : 1 ≤ q := by omega
  have hq2 : q < 2000000 := by omega
  obtain ⟨b, n, hb, hn, hend, hdate⟩ := dateOfCycles_eq (show r < 1461 by omega) ⟨hq1, hq2⟩
  unfold j2date
  rw [hcycles, hsplit]
  rcases hdate with ⟨hr', hdate⟩ | ⟨hr', hdate⟩
  · refine ⟨quad, c, (t + 60) / 1461, b, n, by omega, hc, by omega, hb, hn, by omega, ?_⟩
    rw [hdate]
    congr 1
    omega
  · refine ⟨quad, c, (t + 60) / 1461 - 1, b, n, by omega, hc, by omega, hb, hn, by omega, ?_⟩
    rw [hdate]
    congr 1
    omega

/-- `j2date` gives a date, and the number of the date is the Julian day. -/
theorem j2date_spec (hjd : jd < 2147483648) :
    (j2date jd).Valid ∧ (j2date jd).ordinal + 1721425 = jd ∧ -4799 ≤ (j2date jd).year := by
  obtain ⟨quad, c, a, b, n, hsum, hc, ha, hb, hn, hlast, hdate⟩ := j2date_eq hjd
  generalize hyear : (400 * quad + 100 * c + 4 * a + b : ℤ) = year at hdate
  have hleap : n = 365 → IsLeap (year - 4799) := by
    intro hend
    obtain ⟨rfl, hcentury⟩ := hlast hend
    unfold IsLeap
    omega
  rw [hdate]
  refine ⟨marchDate_valid hn hleap, ?_, ?_⟩
  · have hfour : year / 4 = 100 * quad + 25 * c + a := by omega
    have hhundred : year / 100 = 4 * quad + c := by omega
    have hcycle : year / 400 = quad := by omega
    rw [marchDate_ordinal hn hleap, hfour, hhundred, hcycle]
    omega
  · show -4799 ≤ if (n + 123) * 2141 / 65536 < 14 then year - 4800 else year - 4799
    split <;> omega

/-- The next Julian day is the next day of the calendar. -/
theorem j2date_succ (hjd : jd + 1 < 2147483648) : j2date (jd + 1) = (j2date jd).next := by
  obtain ⟨hvalid, hordinal, _⟩ := j2date_spec (show jd < 2147483648 by omega)
  obtain ⟨hvalid', hordinal', _⟩ := j2date_spec hjd
  apply Date.ordinal_inj hvalid' hvalid.next
  rw [Date.ordinal_next hvalid]
  omega

/-- `date2j` takes the date back to the Julian day, without an overflow. -/
theorem date2j_j2date (hjd : jd < 2147483648) :
    date2j (j2date jd).year (j2date jd).month (j2date jd).day = some (jd : ℤ) := by
  obtain ⟨hvalid, hordinal, hyear⟩ := j2date_spec hjd
  rw [date2j_eq hvalid hyear (by omega), hordinal]

end PgAutoIndex.Adt

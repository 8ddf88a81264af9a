import Mathlib.Algebra.BigOperators.Group.Finset.Basic

/-!
# The proleptic Gregorian calendar

Dates with the month lengths and the leap rule (every fourth year, but of the centuries only every
fourth), extended to all years, the year 0 before the year 1. `Date.next` is the day after,
`Date.lt` the order by year, month and day, and `Date.ordinal` counts the days, with the first day
of the year 1 as day 1. Counting agrees with both: the day after has the next number
(`ordinal_next`), and a later date has a larger one (`ordinal_lt`), so that the number decides the
date (`ordinal_inj`).
-/

namespace Gregorian

/-- A leap year. -/
def IsLeap (year : ℤ) : Prop := year % 4 = 0 ∧ (year % 100 ≠ 0 ∨ year % 400 = 0)

/-- Whether a year is a leap year is decidable. -/
instance instDecidableIsLeap (year : ℤ) : Decidable (IsLeap year) :=
  inferInstanceAs (Decidable (_ ∧ _))

/-- The length of a month. -/
def daysInMonth (year : ℤ) (month : ℕ) : ℕ :=
  if month = 2 then (if IsLeap year then 29 else 28)
  else if month = 4 ∨ month = 6 ∨ month = 9 ∨ month = 11 then 30
  else 31

/-- A year, a month and a day. -/
@[ext]
structure Date where
  year : ℤ
  month : ℕ
  day : ℕ
deriving DecidableEq

/-- The date exists. -/
structure Date.Valid (date : Date) : Prop where
  month_pos : 1 ≤ date.month
  month_le : date.month ≤ 12
  day_pos : 1 ≤ date.day
  day_le : date.day ≤ daysInMonth date.year date.month

/-- The day after. -/
def Date.next (date : Date) : Date :=
  if date.day < daysInMonth date.year date.month then ⟨date.year, date.month, date.day + 1⟩
  else if date.month < 12 then ⟨date.year, date.month + 1, 1⟩
  else ⟨date.year + 1, 1, 1⟩

/-- The order by year, month and day. -/
def Date.lt (a b : Date) : Prop :=
  a.year < b.year ∨ (a.year = b.year ∧ (a.month < b.month ∨ (a.month = b.month ∧ a.day < b.day)))

/-- The days of a year before a month. -/
def daysBeforeMonth (year : ℤ) : ℕ → ℕ
  | 0 => 0
  | month + 1 => daysBeforeMonth year month + if month = 0 then 0 else daysInMonth year month

/-- The days before a year, counted from the year 1. -/
def daysBeforeYear (year : ℤ) : ℤ :=
  365 * (year - 1) + (year - 1) / 4 - (year - 1) / 100 + (year - 1) / 400

/-- The number of a day. -/
def Date.ordinal (date : Date) : ℤ :=
  daysBeforeYear date.year + daysBeforeMonth date.year date.month + date.day

/-- The length of a year. -/
def daysInYear (year : ℤ) : ℕ := if IsLeap year then 366 else 365

theorem daysInMonth_pos {year : ℤ} {month : ℕ} : 1 ≤ daysInMonth year month := by
  unfold daysInMonth
  split_ifs <;> omega

theorem daysBeforeYear_succ (year : ℤ) :
    daysBeforeYear (year + 1) = daysBeforeYear year + daysInYear year := by
  unfold daysBeforeYear daysInYear
  split_ifs with hleap
  · obtain ⟨hfour, hcentury⟩ := hleap
    omega
  · have hcases : year % 4 ≠ 0 ∨ (year % 100 = 0 ∧ year % 400 ≠ 0) := by
      unfold IsLeap at hleap
      omega
    omega

theorem daysBeforeYear_mono {a b : ℤ} (h : a ≤ b) : daysBeforeYear a ≤ daysBeforeYear b := by
  unfold daysBeforeYear
  omega

theorem daysBeforeMonth_succ (year : ℤ) {month : ℕ} (h : 1 ≤ month) :
    daysBeforeMonth year (month + 1) = daysBeforeMonth year month + daysInMonth year month := by
  rw [daysBeforeMonth, if_neg (by omega)]

/-- The months of a year make up the year. -/
theorem daysBeforeMonth_thirteen (year : ℤ) : daysBeforeMonth year 13 = daysInYear year := by
  show 0 + 0 + 31 + (if IsLeap year then 29
    else 28) + 31 + 30 + 31 + 30 + 31 + 31 + 30 + 31 + 30 + 31 =
    if IsLeap year then 366 else 365
  by_cases hleap : IsLeap year
  · rw [if_pos hleap, if_pos hleap]
  · rw [if_neg hleap, if_neg hleap]

/-- The days of a month are before those of a later month. -/
theorem daysBeforeMonth_add_le {year : ℤ} {a b day : ℕ} (ha : 1 ≤ a) (h : a < b)
    (hday : day ≤ daysInMonth year a) :
    daysBeforeMonth year a + day ≤ daysBeforeMonth year b := by
  calc daysBeforeMonth year a + day ≤ daysBeforeMonth year a + daysInMonth year a :=
    Nat.add_le_add_left hday _
    _ = daysBeforeMonth year (a + 1) := (daysBeforeMonth_succ year ha).symm
    _ ≤ daysBeforeMonth year b :=
      monotone_nat_of_le_succ (fun n => by rw [daysBeforeMonth]; omega) h

variable {a b date : Date}

namespace Date

/-- A date lies in its year. -/
theorem Valid.ordinal_le (h : date.Valid) : date.ordinal ≤ daysBeforeYear (date.year + 1) := by
  have hle := daysBeforeMonth_add_le h.month_pos (Nat.lt_succ_of_le h.month_le) h.day_le
  rw [daysBeforeMonth_thirteen] at hle
  rw [daysBeforeYear_succ, ordinal]
  omega

/-- A later date has a larger number. -/
theorem ordinal_lt (ha : a.Valid) (hb : b.Valid) (h : a.lt b) : a.ordinal < b.ordinal := by
  have hday := hb.day_pos
  rcases h with hyear | ⟨hyear, hmonth | ⟨hmonth, hlt⟩⟩
  · have hle := ha.ordinal_le
    have hmono := daysBeforeYear_mono (show a.year + 1 ≤ b.year by omega)
    rw [ordinal.eq_def b]
    omega
  · have hle := daysBeforeMonth_add_le ha.month_pos hmonth ha.day_le
    unfold ordinal
    rw [hyear] at hle ⊢
    omega
  · unfold ordinal
    rw [hyear, hmonth]
    omega

/-- Two dates are the same, or one is before the other. -/
theorem lt_trichotomy (a b : Date) : a.lt b ∨ a = b ∨ b.lt a := by
  unfold lt
  rw [Date.ext_iff]
  omega

/-- The number decides the date. -/
theorem ordinal_inj (ha : a.Valid) (hb : b.Valid) (h : a.ordinal = b.ordinal) : a = b := by
  rcases lt_trichotomy a b with hlt | heq | hlt
  · exact absurd (ordinal_lt ha hb hlt) (by omega)
  · exact heq
  · exact absurd (ordinal_lt hb ha hlt) (by omega)

/-- The order of dates is that of their numbers. -/
theorem ordinal_lt_iff (ha : a.Valid) (hb : b.Valid) : a.ordinal < b.ordinal ↔ a.lt b := by
  constructor
  · intro h
    rcases lt_trichotomy a b with hlt | heq | hlt
    · exact hlt
    · rw [heq] at h
      exact absurd h (lt_irrefl _)
    · exact absurd (ordinal_lt hb ha hlt) (by omega)
  · exact ordinal_lt ha hb

/-- The day after a date is a date. -/
theorem Valid.next (h : date.Valid) : date.next.Valid := by
  obtain ⟨hpos, hle, hday, hlast⟩ := h
  unfold Date.next
  split_ifs with hmore hmonth
  · exact ⟨hpos, hle, show 1 ≤ date.day + 1 by omega, hmore⟩
  · exact ⟨show 1 ≤ date.month + 1 by omega, hmonth, le_rfl, daysInMonth_pos⟩
  · exact ⟨le_rfl, show 1 ≤ 12 by decide, le_rfl, daysInMonth_pos⟩

/-- The day after has the next number. -/
theorem ordinal_next (h : date.Valid) : date.next.ordinal = date.ordinal + 1 := by
  obtain ⟨hpos, hle, hday, hlast⟩ := h
  unfold Date.next
  split_ifs with hmore hmonth
  · unfold ordinal
    push_cast
    omega
  · have hsucc := daysBeforeMonth_succ date.year hpos
    unfold ordinal
    simp only [hsucc]
    omega
  · have hyear := daysBeforeMonth_thirteen date.year
    have hsucc : daysBeforeMonth date.year 13 =
      daysBeforeMonth date.year 12 + daysInMonth date.year 12 :=
      daysBeforeMonth_succ date.year (by decide)
    have hdec : date.month = 12 := by omega
    have hfirst : (⟨date.year + 1, 1, 1⟩ : Date).ordinal =
        daysBeforeYear date.year + daysInYear date.year + 1 := by
      show daysBeforeYear (date.year + 1) + (0 : ℕ) + (1 : ℕ) = _
      rw [daysBeforeYear_succ]
      omega
    rw [hfirst, ordinal]
    rw [hdec] at hmore hlast ⊢
    omega

end Date

end Gregorian

import Mathlib.Data.Fin.Basic
import Mathlib.Data.Nat.Digits.Defs
import Mathlib.Data.String.Basic

/-! `TimeString.setDate()`: the formatter's `MMM d, y 'at' h:mm a` in `en_US`, on what the
calendar of the time zone shows when the clock is read. -/

namespace DevPost

def daysInMonth (year : ℕ) (month : Fin 12) : ℕ :=
  match month.val with
  | 1 => if year % 4 = 0 ∧ (year % 100 ≠ 0 ∨ year % 400 = 0) then 29 else 28
  | 3 | 5 | 8 | 10 => 30
  | _ => 31

/-- A minute on the calendar; the months count from 0. -/
structure Minute where
  year : ℕ
  month : Fin 12
  day : ℕ
  hour : Fin 24
  minute : Fin 60
  day_pos : 1 ≤ day
  day_le : day ≤ daysInMonth year month
deriving DecidableEq

namespace Minute

/-- A number that grows with time. -/
def time (t : Minute) : ℕ :=
  (((t.year * 12 + t.month) * 32 + t.day) * 24 + t.hour) * 60 + t.minute

end Minute

namespace TimeString

/-- `MMM` -/
def monthSymbol (month : Fin 12) : List Char :=
  ["Jan", "Feb", "Mar", "Apr", "May", "Jun", "Jul", "Aug", "Sep", "Oct", "Nov", "Dec"][month].toList

def numeral (n : ℕ) : List Char := Nat.toDigits 10 n

/-- `h`: 12, 1, .., 11 -/
def twelveHour (hour : Fin 24) : ℕ := if hour.val % 12 = 0 then 12 else hour.val % 12

/-- `mm` -/
def twoDigits (minute : Fin 60) : List Char :=
  [Nat.digitChar (minute / 10), Nat.digitChar (minute % 10)]

/-- `a` -/
def half (hour : Fin 24) : List Char := if hour.val < 12 then ['A', 'M'] else ['P', 'M']

/-- The parts of the date, in the order of the format, each with the characters after it. -/
def fields (t : Minute) : List (List Char) :=
  [monthSymbol t.month ++ [' '], numeral t.day ++ [','], ' ' :: numeral t.year ++ [' '],
    ['a', 't', ' '] ++ numeral (twelveHour t.hour) ++ [':'], twoDigits t.minute ++ [' '],
    half t.hour]

def setDate (t : Minute) : String := String.ofList (fields t).flatten

example : setDate ⟨2020, 5, 1, 9, 5, by decide, by decide⟩ = "Jun 1, 2020 at 9:05 AM" := by decide

end TimeString

end DevPost

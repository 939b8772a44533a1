import DevPost.Lib.Words
import DevPost.Spec.TimeString

/-! The alphabetical order of the dates. No part of the format is the start of another text
in the same place, so of two dates the first part that differs decides: the name of the
month, the numerals of the day and of the year, the hour on the 12-hour clock, where the
colon puts 10, 11 and 12 before 1, the minute, and the half of the day. -/

namespace DevPost

open Lib

namespace TimeString

variable {t u : Minute}

section Numerals

variable (m n : ℕ)

theorem isDigit_of_mem_numeral {n : ℕ} {c : Char} (h : c ∈ numeral n) : c.isDigit = true :=
  Nat.isDigit_of_mem_toDigits (b := 10) (n := n) (by decide) (by decide) h

theorem not_mem_numeral {c : Char} (h : c.isDigit = false) : c ∉ numeral n := fun hc =>
  absurd (isDigit_of_mem_numeral hc) (by simp [h])

theorem numeral_inj : numeral m = numeral n ↔ m = n := by
  refine ⟨fun h => ?_, congrArg numeral⟩
  rw [← Nat.ofDigitChars_ten_toDigits (n := m), ← Nat.ofDigitChars_ten_toDigits (n := n)]
  exact congrArg (Nat.ofDigitChars 10 · 0) h

theorem lt_of_mem_numeral {n : ℕ} {c d : Char} (hc : c < '0') (h : d ∈ numeral n) : c < d := by
  have hd := isDigit_of_mem_numeral h
  simp only [Char.isDigit, Bool.and_eq_true, decide_eq_true_eq] at hd
  exact lt_of_lt_of_le hc hd.1

theorem numeral_lt_iff {c : Char} (hc : c < '0') :
    numeral m ++ [c] < numeral n ++ [c] ↔ numeral m < numeral n :=
  append_end_lt_iff (fun _ => lt_of_mem_numeral hc) fun _ => lt_of_mem_numeral hc

end Numerals

/-- The place of a month in the alphabetical order of the names. -/
def monthRank (month : Fin 12) : ℕ := [4, 3, 7, 0, 8, 6, 5, 1, 11, 10, 9, 2][month]

/-- The place of an hour in the alphabetical order of 10, 11, 12, 1, .., 9. -/
def hourRank (hour : Fin 24) : ℕ := (twelveHour hour + 2) % 12

/-- The date written at `t` comes before the date written at `u` in alphabetical order. -/
def Precedes (t u : Minute) : Prop :=
  monthRank t.month < monthRank u.month ∨ t.month = u.month ∧
    (numeral t.day < numeral u.day ∨ t.day = u.day ∧
      (numeral t.year < numeral u.year ∨ t.year = u.year ∧
        (hourRank t.hour < hourRank u.hour ∨ hourRank t.hour = hourRank u.hour ∧
          (t.minute < u.minute ∨ t.minute = u.minute ∧ t.hour.val < 12 ∧ 12 ≤ u.hour.val))))

instance (t u : Minute) : Decidable (Precedes t u) := by
  unfold Precedes
  infer_instance

theorem month_lt_iff : ∀ m n : Fin 12,
    monthSymbol m ++ [' '] < monthSymbol n ++ [' '] ↔ monthRank m < monthRank n := by decide

theorem month_eq_iff : ∀ m n : Fin 12, monthSymbol m = monthSymbol n ↔ m = n := by decide

theorem hour_lt_iff : ∀ h k : Fin 24,
    ['a', 't', ' '] ++ numeral (twelveHour h) ++ [':'] <
      ['a', 't', ' '] ++ numeral (twelveHour k) ++ [':'] ↔ hourRank h < hourRank k := by
  decide +kernel

theorem hour_eq_iff : ∀ h k : Fin 24, twelveHour h = twelveHour k ↔ hourRank h = hourRank k := by
  decide

theorem digitChar_lt_iff : ∀ a b : Fin 10, Nat.digitChar a < Nat.digitChar b ↔ a < b := by decide

theorem digitChar_inj : ∀ a b : Fin 10, Nat.digitChar a = Nat.digitChar b ↔ a = b := by decide

theorem minute_eq_iff (m n : Fin 60) : twoDigits m = twoDigits n ↔ m = n := by
  have htens := digitChar_inj ⟨m / 10, by omega⟩ ⟨n / 10, by omega⟩
  have hunits := digitChar_inj ⟨m % 10, by omega⟩ ⟨n % 10, by omega⟩
  simp only [Fin.mk.injEq] at htens hunits
  simp only [twoDigits, List.cons.injEq, and_true, htens, hunits, Fin.ext_iff]
  omega

theorem minute_lt_iff (m n : Fin 60) : twoDigits m ++ [' '] < twoDigits n ++ [' '] ↔ m < n := by
  have htens := digitChar_lt_iff ⟨m / 10, by omega⟩ ⟨n / 10, by omega⟩
  have htens' := digitChar_inj ⟨m / 10, by omega⟩ ⟨n / 10, by omega⟩
  have hunits := digitChar_lt_iff ⟨m % 10, by omega⟩ ⟨n % 10, by omega⟩
  simp only [Fin.mk_lt_mk, Fin.mk.injEq] at htens htens' hunits
  -- the tens decide, and the units when they are the same
  simp only [twoDigits, List.cons_append, List.nil_append, List.cons_lt_cons_iff, htens, htens',
    hunits, lt_irrefl, and_false, or_false, Fin.lt_def]
  omega

theorem half_lt_iff : ∀ h k : Fin 24, half h < half k ↔ h.val < 12 ∧ 12 ≤ k.val := by
  decide +kernel

theorem hour_ext : ∀ h k : Fin 24, twelveHour h = twelveHour k → half h = half k → h = k := by
  decide +kernel

theorem fields_apart (t u : Minute) : List.Forall₂ Apart (fields t) (fields u) := by
  have hmonth : ∀ m : Fin 12, (monthSymbol m).length = 3 := by decide
  have hhalf : ∀ h : Fin 24, (half h).length = 2 := by decide
  refine .cons (apart_of_length (by simp [hmonth])) (.cons ?_ (.cons ?_ (.cons ?_ (.cons
    (apart_of_length (by simp [twoDigits])) (.cons (apart_of_length (by simp [hhalf])) .nil)))))
  · exact apart_of_end (not_mem_numeral _ (by decide)) (not_mem_numeral _ (by decide))
  · exact (apart_of_end (c := ' ') (not_mem_numeral _ (by decide))
      (not_mem_numeral _ (by decide))).append_left [' ']
  · rw [List.append_assoc, List.append_assoc]
    exact (apart_of_end (not_mem_numeral _ (by decide))
      (not_mem_numeral _ (by decide))).append_left _

theorem setDate_lt_iff_fields : setDate t < setDate u ↔ fields t < fields u := by
  rw [String.lt_iff_toList_lt, setDate, setDate, String.toList_ofList, String.toList_ofList,
    flatten_lt_flatten_iff (fields_apart t u)]

theorem setDate_lt_iff : setDate t < setDate u ↔ Precedes t u := by
  have hyear : ∀ m n : ℕ, ' ' :: numeral m ++ [' '] < ' ' :: numeral n ++ [' '] ↔
      numeral m < numeral n := fun m n => by
    rw [List.cons_append, List.cons_append, List.cons_lt_cons_self, numeral_lt_iff _ _ (by decide)]
  rw [setDate_lt_iff_fields, Precedes]
  simp only [fields, List.cons_lt_cons_iff, month_lt_iff, month_eq_iff, hyear, hour_lt_iff,
    hour_eq_iff, minute_lt_iff, minute_eq_iff, half_lt_iff, numeral_inj,
    numeral_lt_iff _ _ (by decide : ',' < '0'), List.append_cancel_right_eq,
    List.append_cancel_left_eq, List.cons.injEq, true_and, lt_irrefl, and_false, or_false]

/-- Two minutes have one date only when they are the same. -/
theorem time_eq_of_setDate_eq (h : setDate t = setDate u) : t.time = u.time := by
  have hfields : fields t = fields u := le_antisymm
    (not_lt.1 fun hlt => (setDate_lt_iff_fields.2 hlt).ne' h)
    (not_lt.1 fun hlt => (setDate_lt_iff_fields.2 hlt).ne h)
  simp only [fields, List.cons.injEq, List.append_cancel_right_eq, List.append_cancel_left_eq,
    List.cons_append, numeral_inj, month_eq_iff, minute_eq_iff, true_and] at hfields
  obtain ⟨hmonth, hday, hyear, hhour, hminute, hhalf, -⟩ := hfields
  rw [Minute.time, Minute.time, hmonth, hday, hyear, hminute, hour_ext _ _ hhour hhalf]

end TimeString

end DevPost

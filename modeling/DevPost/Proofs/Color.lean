import DevPost.Spec.Color
import Mathlib.Data.List.Basic

/-! Which texts are colors. The length of the text is checked, and a scan of it has to find a
number, but nothing checks that the scan reads the whole text: the two checks together are
right for a text of hexadecimal digits, and let through every other text of the two lengths
that starts with a number. -/

namespace DevPost

open Scanner

/-- The value of a digit. -/
def digit (c : Char) : ℕ := (hexValue c).getD 0

theorem hexValue_range {c : Char} {n : ℕ} (h : hexValue c = some n) :
    n < 16 ∧ (48 ≤ c.toNat ∧ c.toNat ≤ 57 ∨ 97 ≤ c.toNat ∧ c.toNat ≤ 102 ∨
      65 ≤ c.toNat ∧ c.toNat ≤ 70) := by
  have hle : ∀ a b : Char, a ≤ b ↔ a.toNat ≤ b.toNat := fun a b => Iff.rfl
  simp only [hexValue, hle, Char.reduceToNat] at h
  split_ifs at h with h₁ h₂ h₃ <;> cases h <;> omega

theorem digit_lt (c : Char) : digit c < 16 := by
  unfold digit
  cases h : hexValue c with
  | none => simp
  | some n => exact (hexValue_range h).1

theorem not_whitespace {c : Char} (h : isHexDigit c) : whitespacesAndNewlines c = false := by
  obtain ⟨n, hn⟩ := Option.isSome_iff_exists.1 h
  have hrange := (hexValue_range hn).2
  simp only [whitespacesAndNewlines, Bool.or_eq_false_iff, Bool.and_eq_false_iff,
    decide_eq_false_iff_not, beq_eq_false_iff_ne]
  omega

section Digits

variable {s : List Char} (hs : ∀ c ∈ s, isHexDigit c)
include hs

theorem dropWhile_of_hex : s.dropWhile whitespacesAndNewlines = s := by
  cases s with
  | nil => rfl
  | cons c s =>
    have hc := not_whitespace (hs c List.mem_cons_self)
    simp [hc]

theorem afterZeroX_of_hex : afterZeroX s = s := by
  apply if_neg
  have hmem : ∀ {c : Char}, s.take 2 = ['0', c] → isHexDigit c := fun {c} h =>
    hs c (List.mem_of_mem_take (h ▸ by simp : c ∈ s.take 2))
  rintro (h | h)
  · exact absurd (hmem h) (by decide)
  · exact absurd (hmem h) (by decide)

theorem takeWhile_digitsAt_of_hex : (digitsAt s).takeWhile isHexDigit = s := by
  rw [digitsAt, dropWhile_of_hex hs, afterZeroX_of_hex hs]
  exact List.takeWhile_eq_self_iff.2 hs

end Digits

/-- The two hexadecimal digits of each place, as numbers. -/
def digitPairs : List Char → List ℕ
  | [] | [_] => []
  | a :: b :: s => (16 * digit a + digit b) :: digitPairs s

theorem length_digitPairs (s : List Char) : (digitPairs s).length = s.length / 2 := by
  induction s using digitPairs.induct with
  | case1 | case2 => simp [digitPairs]
  | case3 a b s ih =>
    simp only [digitPairs, List.length_cons, ih]
    omega

theorem digitPairs_lt {s : List Char} : ∀ n ∈ digitPairs s, n < 256 := by
  induction s using digitPairs.induct with
  | case1 | case2 => simp [digitPairs]
  | case3 a b s ih =>
    have ha := digit_lt a
    have hb := digit_lt b
    refine List.forall_mem_cons.2 ⟨?_, ih⟩
    omega

/-- An even number of digits is read as bytes, whatever was read before. -/
theorem foldl_digit_eq_pairs {s : List Char} (heven : s.length % 2 = 0) (n : ℕ) :
    s.foldl (fun n c => 16 * n + digit c) n = (digitPairs s).foldl (fun n p => 256 * n + p) n := by
  induction s using digitPairs.induct generalizing n with
  | case1 => rfl
  | case2 c => simp at heven
  | case3 a b s ih =>
    have hbyte : 16 * (16 * n + digit a) + digit b = 256 * n + (16 * digit a + digit b) := by omega
    have hrest : s.length % 2 = 0 := by
      simp only [List.length_cons] at heven
      omega
    rw [digitPairs, List.foldl_cons, List.foldl_cons, List.foldl_cons, hbyte, ih hrest]

theorem number_eq_pairs {s : List Char} (heven : s.length % 2 = 0) :
    number s = (digitPairs s).foldl (fun n p => 256 * n + p) 0 := foldl_digit_eq_pairs heven 0

theorem and_shiftRight (n k : ℕ) : (n &&& 255 <<< k) >>> k = n / 2 ^ k % 256 := by
  rw [Nat.shiftRight_and_distrib, Nat.shiftLeft_shiftRight, Nat.shiftRight_eq_div_pow]
  exact Nat.and_two_pow_sub_one_eq_mod _ 8

section Bytes

variable {p q r t : ℕ} (hp : p < 256) (hq : q < 256) (hr : r < 256)
include hp hq hr

theorem bytes_three : let n := 256 * (256 * p + q) + r
    (n &&& 0xFF0000) >>> 16 = p ∧ (n &&& 0x00FF00) >>> 8 = q ∧ n &&& 0x0000FF = r := by
  intro n
  refine ⟨(and_shiftRight n 16).trans ?_, (and_shiftRight n 8).trans ?_,
    (and_shiftRight n 0).trans ?_⟩ <;> omega

theorem bytes_four (ht : t < 256) : let n := 256 * (256 * (256 * p + q) + r) + t
    (n &&& 0xFF000000) >>> 24 = p ∧ (n &&& 0x00FF0000) >>> 16 = q ∧
      (n &&& 0x0000FF00) >>> 8 = r ∧ n &&& 0x000000FF = t := by
  intro n
  refine ⟨(and_shiftRight n 24).trans ?_, (and_shiftRight n 16).trans ?_,
    (and_shiftRight n 8).trans ?_, (and_shiftRight n 0).trans ?_⟩ <;> omega

end Bytes

/-- The scan finds a digit. -/
def Starts (s : List Char) : Prop := ∃ c ∈ (digitsAt s).head?, isHexDigit c

theorem starts_iff {s : List Char} : Starts s ↔ (digitsAt s).takeWhile isHexDigit ≠ [] := by
  unfold Starts
  cases digitsAt s with
  | nil => simp
  | cons c s => by_cases hc : isHexDigit c <;> simp [hc]

theorem scanHexInt64_isSome {s : List Char} : (scanHexInt64 s).isSome ↔ Starts s := by
  rw [starts_iff, scanHexInt64]
  split_ifs with h <;> simp [h]

/-- The number of a text of at most eight digits is not too large. -/
theorem scanHexInt64_of_hex {s : List Char} (hs : ∀ c ∈ s, isHexDigit c) (hne : s ≠ [])
    (hnum : number s < 2 ^ 64) : scanHexInt64 s = some (number s) := by
  rw [scanHexInt64, takeWhile_digitsAt_of_hex hs, if_neg hne,
    min_eq_left (Nat.le_sub_one_of_lt hnum)]

namespace UIColor

variable {U : Characters} {hex : String}

def components (color : UIColor) : List ℚ := [color.red, color.green, color.blue, color.alpha]

/-- Just the texts of six or eight digits are colors, and the components are the pairs of
digits as parts of 255, the fourth being 1 when there is none. -/
structure Decodes (U : Characters) (hex : String) : Prop where
  accepts : (init? U hex).isSome ↔
    ((sanitized hex).length = 6 ∨ (sanitized hex).length = 8) ∧ ∀ c ∈ sanitized hex, isHexDigit c
  reads : ∀ color, init? U hex = some color →
    color.components = (digitPairs (sanitized hex)).map (fun n : ℕ => (n : ℚ) / 255) ++
      if (sanitized hex).length = 6 then [1] else []

theorem init?_isSome : (init? U hex).isSome ↔
    Starts (sanitized hex) ∧ (U.count (sanitized hex) = 6 ∨ U.count (sanitized hex) = 8) := by
  rw [← scanHexInt64_isSome, init?]
  cases scanHexInt64 (sanitized hex) with
  | none => simp
  | some rgb =>
    simp only [Option.isSome_some, true_and]
    split <;> simp_all

theorem reads_six (hs : ∀ c ∈ sanitized hex, isHexDigit c) (hlen : (sanitized hex).length = 6) :
    ∃ color, init? U hex = some color ∧
      color.components = (digitPairs (sanitized hex)).map (fun n : ℕ => (n : ℚ) / 255) ++ [1] := by
  have hcount : U.count (sanitized hex) = 6 := (U.count_hex _ hs).trans hlen
  have hne : sanitized hex ≠ [] := List.ne_nil_of_length_eq_add_one hlen
  obtain ⟨p, q, r, hpairs⟩ := List.length_eq_three.1
    ((length_digitPairs (sanitized hex)).trans (by rw [hlen]))
  have hlt : p < 256 ∧ q < 256 ∧ r < 256 := by
    simpa [hpairs] using digitPairs_lt (s := sanitized hex)
  have hnum : number (sanitized hex) = 256 * (256 * p + q) + r := by
    rw [number_eq_pairs (by rw [hlen]), hpairs]
    simp
  obtain ⟨hred, hgreen, hblue⟩ := bytes_three hlt.1 hlt.2.1 hlt.2.2
  have hscan := scanHexInt64_of_hex hs hne (by omega)
  rw [hnum] at hscan
  refine ⟨⟨p / 255, q / 255, r / 255, 1⟩, ?_, by simp [hpairs, components]⟩
  simp only [init?, hscan, hcount, hred, hgreen, hblue]

theorem reads_eight (hs : ∀ c ∈ sanitized hex, isHexDigit c) (hlen : (sanitized hex).length = 8) :
    ∃ color, init? U hex = some color ∧
      color.components = (digitPairs (sanitized hex)).map (fun n : ℕ => (n : ℚ) / 255) := by
  have hcount : U.count (sanitized hex) = 8 := (U.count_hex _ hs).trans hlen
  have hne : sanitized hex ≠ [] := List.ne_nil_of_length_eq_add_one hlen
  have hlength : (digitPairs (sanitized hex)).length = 3 + 1 := by rw [length_digitPairs, hlen]
  obtain ⟨p, l, hpairs⟩ := List.exists_cons_of_length_eq_add_one hlength
  obtain ⟨q, r, t, rfl⟩ := List.length_eq_three.1 (by simpa [hpairs] using hlength)
  have hlt : p < 256 ∧ q < 256 ∧ r < 256 ∧ t < 256 := by
    simpa [hpairs] using digitPairs_lt (s := sanitized hex)
  have hnum : number (sanitized hex) = 256 * (256 * (256 * p + q) + r) + t := by
    rw [number_eq_pairs (by rw [hlen]), hpairs]
    simp
  obtain ⟨hred, hgreen, hblue, halpha⟩ := bytes_four hlt.1 hlt.2.1 hlt.2.2.1 hlt.2.2.2
  have hscan := scanHexInt64_of_hex hs hne (by omega)
  rw [hnum] at hscan
  refine ⟨⟨p / 255, q / 255, r / 255, t / 255⟩, ?_, by simp [hpairs, components]⟩
  simp only [init?, hscan, hcount, hred, hgreen, hblue, halpha]

theorem decodes_of_hex (hs : ∀ c ∈ sanitized hex, isHexDigit c) : Decodes U hex := by
  by_cases hsix : (sanitized hex).length = 6
  · obtain ⟨color, hinit, hcomp⟩ := reads_six (U := U) hs hsix
    refine ⟨iff_of_true (by simp [hinit]) ⟨.inl hsix, hs⟩, fun color' h => ?_⟩
    obtain rfl : color = color' := Option.some.inj (hinit.symm.trans h)
    rw [hcomp, if_pos hsix]
  by_cases height : (sanitized hex).length = 8
  · obtain ⟨color, hinit, hcomp⟩ := reads_eight (U := U) hs height
    refine ⟨iff_of_true (by simp [hinit]) ⟨.inr height, hs⟩, fun color' h => ?_⟩
    obtain rfl : color = color' := Option.some.inj (hinit.symm.trans h)
    rw [hcomp, if_neg hsix, List.append_nil]
  · have hnone : ¬ (init? U hex).isSome := by
      rw [init?_isSome, U.count_hex _ hs]
      exact fun h => h.2.elim hsix height
    refine ⟨iff_of_false hnone fun h => h.1.elim hsix height, fun color h => ?_⟩
    exact absurd (by simp [h]) hnone

/-- For every text, the initializer is right exactly when the text, trimmed and without `#`, is
all hexadecimal digits, or has not six or eight characters, or does not start with a number. -/
theorem hex_decodes (U : Characters) (hex : String) :
    Decodes U hex ↔ (∀ c ∈ sanitized hex, isHexDigit c) ∨
      (U.count (sanitized hex) ≠ 6 ∧ U.count (sanitized hex) ≠ 8) ∨ ¬ Starts (sanitized hex) := by
  by_cases hs : ∀ c ∈ sanitized hex, isHexDigit c
  · exact iff_of_true (decodes_of_hex hs) (.inl hs)
  rw [or_iff_right hs]
  have haccept : Decodes U hex ↔ ¬ (init? U hex).isSome := by
    constructor
    · exact fun h hsome => hs (h.accepts.1 hsome).2
    · intro hnone
      exact ⟨iff_of_false hnone fun h => hs h.2, fun color h => absurd (by simp [h]) hnone⟩
  rw [haccept, init?_isSome, not_and_or, not_or, or_comm]

/-- `12345g` is accepted. -/
theorem hex_misread : ¬ ∀ (U : Characters) (hex : String), Decodes U hex := by
  intro hall
  have hread := (hall .ascii "12345g").accepts.1 (by decide)
  exact absurd (hread.2 'g' (by decide)) (by decide)

theorem isSome_of_six (hs : (sanitized hex).all isHexDigit) (hlen : (sanitized hex).length = 6) :
    (init? U hex).isSome :=
  have hdigits := List.all_eq_true.1 hs
  (decodes_of_hex hdigits).accepts.2 ⟨.inl hlen, hdigits⟩

/-- None of the colors of the app is missing. -/
theorem palette_isSome (U : Characters) : ∀ color ∈ palette U, color.isSome := by
  simp only [palette, List.forall_mem_cons, List.not_mem_nil, false_implies, implies_true, and_true]
  refine ⟨?_, ?_, ?_, ?_, ?_, ?_, ?_, ?_, ?_⟩ <;> exact isSome_of_six (by decide) (by decide)

end UIColor

end DevPost

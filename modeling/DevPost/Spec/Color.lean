import Mathlib.Algebra.Group.Nat.Defs
import Mathlib.Data.List.DropRight
import Mathlib.Data.Rat.Defs

/-! `UIColor(hex:)`. Texts are lists of Unicode scalars. How many characters Swift counts in
a text depends on the tables of the grapheme clusters; the code relies on no more than that
hexadecimal digits count one each. The components are exact rationals. -/

namespace DevPost

/-- `CharacterSet.whitespacesAndNewlines` -/
def whitespacesAndNewlines (c : Char) : Bool :=
  let n := c.toNat
  (9 ≤ n && n ≤ 13) || n == 0x20 || n == 0x85 || n == 0xA0 || n == 0x1680 ||
    (0x2000 ≤ n && n ≤ 0x200A) || n == 0x2028 || n == 0x2029 || n == 0x202F || n == 0x205F ||
    n == 0x3000

def trimmingCharacters (s : List Char) : List Char :=
  (s.dropWhile whitespacesAndNewlines).rdropWhile whitespacesAndNewlines

/-- `0`, .., `9`, `a`, .., `f`, `A`, .., `F` -/
def hexValue (c : Char) : Option ℕ :=
  if '0' ≤ c ∧ c ≤ '9' then some (c.toNat - 48)
  else if 'a' ≤ c ∧ c ≤ 'f' then some (c.toNat - 87)
  else if 'A' ≤ c ∧ c ≤ 'F' then some (c.toNat - 55)
  else none

def isHexDigit (c : Char) : Bool := (hexValue c).isSome

/-- What Swift's `count` is for a text. -/
structure Characters where
  count : List Char → ℕ
  count_hex : ∀ s, (∀ c ∈ s, isHexDigit c) → count s = s.length

/-- ASCII text without line ends. -/
def Characters.ascii : Characters := ⟨List.length, fun _ _ => rfl⟩

namespace Scanner

/-- `0x` or `0X` may stand in front of the digits. -/
def afterZeroX (s : List Char) : List Char :=
  if s.take 2 = ['0', 'x'] ∨ s.take 2 = ['0', 'X'] then s.drop 2 else s

/-- Where the digits are read, after the whitespace and `0x`. -/
def digitsAt (s : List Char) : List Char := afterZeroX (s.dropWhile whitespacesAndNewlines)

/-- The number that digits are, the highest first. -/
def number (digits : List Char) : ℕ := digits.foldl (fun n c => 16 * n + (hexValue c).getD 0) 0

/-- The text after the digits does not matter; a number too large is the largest `UInt64`. -/
def scanHexInt64 (s : List Char) : Option ℕ :=
  let digits := (digitsAt s).takeWhile isHexDigit
  if digits = [] then none else some (min (number digits) (2 ^ 64 - 1))

end Scanner

structure UIColor where
  red : ℚ
  green : ℚ
  blue : ℚ
  alpha : ℚ
deriving DecidableEq

namespace UIColor

/-- `hexSanitized` -/
def sanitized (hex : String) : List Char := (trimmingCharacters hex.toList).filter (· ≠ '#')

/-- `UIColor.init?(hex:)` -/
def init? (U : Characters) (hex : String) : Option UIColor :=
  let hexSanitized := sanitized hex
  match Scanner.scanHexInt64 hexSanitized with
  | none => none
  | some rgb =>
    match U.count hexSanitized with
    | 6 => some {
        red := ((rgb &&& 0xFF0000) >>> 16 : ℕ) / 255
        green := ((rgb &&& 0x00FF00) >>> 8 : ℕ) / 255
        blue := (rgb &&& 0x0000FF : ℕ) / 255
        alpha := 1 }
    | 8 => some {
        red := ((rgb &&& 0xFF000000) >>> 24 : ℕ) / 255
        green := ((rgb &&& 0x00FF0000) >>> 16 : ℕ) / 255
        blue := ((rgb &&& 0x0000FF00) >>> 8 : ℕ) / 255
        alpha := (rgb &&& 0x000000FF : ℕ) / 255 }
    | _ => none

example : Scanner.scanHexInt64 (sanitized " #fcf5d2\n") = some 0xfcf5d2 := by decide

section Palette

variable (U : Characters)

def mainColor : Option UIColor := init? U "fcfbf0"

def secondaryColor : Option UIColor := init? U "#fcf5d2"

def darkColor : Option UIColor := init? U "#484848"

def greenColor : Option UIColor := init? U "#4f8c50"

def redColor : Option UIColor := init? U "#d61122"

def blueColor : Option UIColor := init? U "#578dde"

def usernameColor : Option UIColor := init? U "#363535"

def dateColor : Option UIColor := init? U "#777777"

def inputBackgroundColor : Option UIColor := init? U "#f0f1f2"

/-- The colors of the app. -/
def palette : List (Option UIColor) :=
  [mainColor U, secondaryColor U, darkColor U, greenColor U, redColor U, blueColor U,
    usernameColor U, dateColor U, inputBackgroundColor U]

end Palette

end UIColor

end DevPost

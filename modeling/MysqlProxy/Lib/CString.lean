/-
  Strings of C: what `strtol` and `strtoul` read, and what `sprintf` prints for `%02X`.

  A C string is the list of its bytes, without the zero that ends it.  A number is read in four
  steps: blanks, a sign, a `0x` where the base allows for it, digits.  What does not fit is
  answered with the nearest bound.  Nothing in this module names the proxy.
-/
import Mathlib.Data.Nat.Digits.Defs

namespace MysqlProxy

/-- The bytes before the terminating NUL. -/
def cString (buf : List UInt8) : List UInt8 := buf.takeWhile (· ≠ 0)

/-- `isspace`. -/
def isSpace (c : UInt8) : Bool := c = 32 || (9 ≤ c && c ≤ 13)

/-! ## Reading a number -/

/-- The value of a digit or a letter. -/
def digitValue (c : UInt8) : Option Nat :=
  if 48 ≤ c ∧ c ≤ 57 then some (c.toNat - 48)
  else if 65 ≤ c ∧ c ≤ 90 then some (c.toNat - 55)
  else if 97 ≤ c ∧ c ≤ 122 then some (c.toNat - 87)
  else none

/-- The number that the digits at the front make, read onto `v`. -/
def digitsValue (base : Nat) : Nat → List UInt8 → Nat
  | v, [] => v
  | v, c :: rest =>
    match digitValue c with
    | some d => if d < base then digitsValue base (v * base + d) rest else v
    | none => v

/-- The sign, and what is behind it. -/
def readSign : List UInt8 → Bool × List UInt8
  | 43 :: rest => (false, rest)
  | 45 :: rest => (true, rest)
  | s => (false, s)

/-- There is a `0x` with a digit behind it. -/
def hexPrefixed : List UInt8 → Bool
  | 48 :: x :: d :: _ => (x = 88 ∨ x = 120) ∧ (digitValue d).any (· < 16)
  | _ => false

/-- The base that the text is read in, and the text without its prefix.  Base zero is taken from
    the text. -/
def readBase (base : Nat) (s : List UInt8) : Nat × List UInt8 :=
  if (base = 0 ∨ base = 16) ∧ hexPrefixed s then (16, s.drop 2)
  else if base = 0 then (if s.head? = some 48 then 8 else 10, s)
  else (base, s)

/-- What both functions read: whether there is a minus, and the number. -/
def readNumber (s : List UInt8) (base : Nat) : Bool × Nat :=
  let (minus, s) := readSign (s.dropWhile isSpace)
  let (base, s) := readBase base s
  (minus, digitsValue base 0 s)

/-- `strtol`, for a `long` of 64 bits. -/
def strtol (s : List UInt8) (base : Nat) : Int :=
  match readNumber s base with
  | (true, v) => if 2 ^ 63 < v then -2 ^ 63 else -v
  | (false, v) => if 2 ^ 63 ≤ v then 2 ^ 63 - 1 else v

/-- `strtoul`: a number with a minus is negated in 64 bits. -/
def strtoul (s : List UInt8) (base : Nat) : Nat :=
  match readNumber s base with
  | (minus, v) => if 2 ^ 64 ≤ v then 2 ^ 64 - 1 else if minus then (2 ^ 64 - v) % 2 ^ 64 else v

example : strtol [32, 45, 48, 120, 49, 70] 0 = -31 := by decide
example : strtoul [48, 49, 55, 57] 0 = 15 := by decide

/-! ## Printing a number -/

/-- An upper-case digit. -/
def digit16 (d : Nat) : UInt8 := UInt8.ofNat (if d < 10 then 48 + d else 55 + d)

/-- The digits of a number to base 16, the highest first. -/
def digits16 (v : Nat) : List UInt8 := ((Nat.digits 16 v).map digit16).reverse

/-- What `sprintf` prints for `%02X` and an `unsigned int`. -/
def print02X (v : Nat) : List UInt8 := List.replicate (2 - (digits16 v).length) 48 ++ digits16 v

/-- A `char` is signed: as an argument it is an `int`, and `%X` takes that for an `unsigned int`. -/
def promoteChar (c : UInt8) : Nat := if c.toNat < 128 then c.toNat else 2 ^ 32 - 256 + c.toNat

example : print02X (promoteChar 10) = [48, 65] := by decide +kernel

end MysqlProxy

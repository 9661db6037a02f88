/-!
# Plain TOML values

Truth values, numbers, dates and times: the values of TOML that are written without delimiters. What
is examined is how they are spelled and, for numbers and dates, that there is such a value.
-/

namespace GuardedC.Toml.Scalar

/-! ## Numbers -/

/-- Digits, where a single underscore may stand between two of them. -/
def isDigits (isDigit : Char → Bool) : List Char → Bool
  | [] => false
  | [c] => isDigit c
  | c :: '_' :: cs => isDigit c && isDigits isDigit cs
  | c :: cs => isDigit c && isDigits isDigit cs

def isHex (c : Char) : Bool := c.isDigit || ('a' ≤ c && c ≤ 'f') || ('A' ≤ c && c ≤ 'F')

def digitValue (c : Char) : Nat :=
  if c.isDigit then c.toNat - '0'.toNat
  else if 'a' ≤ c then c.toNat - 'a'.toNat + 10
  else c.toNat - 'A'.toNat + 10

/-- The number that digits of a base stand for. -/
def number (base : Nat) (cs : List Char) : Nat :=
  (cs.filter (· != '_')).foldl (fun n c => n * base + digitValue c) 0

/-- The text after a sign, with whether the sign was a minus. -/
def splitSign : List Char → Bool × List Char
  | '-' :: cs => (true, cs)
  | '+' :: cs => (false, cs)
  | cs => (false, cs)

/-- Decimal digits without a leading zero. -/
def isDecimal (cs : List Char) : Bool :=
  isDigits Char.isDigit cs && (cs.length == 1 || cs.head? != some '0')

/-- No integer is greater than this, `2 ^ 63 - 1`. -/
def maxInteger : Nat := 9223372036854775807

/-- Integers are decimal with a sign, or of base 16, 8 or 2 without one, and have 64 bits. -/
def isInteger : List Char → Bool
  | '0' :: 'x' :: cs => isDigits isHex cs && number 16 cs ≤ maxInteger
  | '0' :: 'o' :: cs => isDigits (fun c => '0' ≤ c && c ≤ '7') cs && number 8 cs ≤ maxInteger
  | '0' :: 'b' :: cs => isDigits (fun c => c == '0' || c == '1') cs && number 2 cs ≤ maxInteger
  | cs =>
    let (minus, digits) := splitSign cs
    isDecimal digits && number 10 digits ≤ maxInteger + (if minus then 1 else 0)

def isExponent (cs : List Char) : Bool := isDigits Char.isDigit (splitSign cs).2

def exponentValue (cs : List Char) : Int :=
  let (minus, digits) := splitSign cs
  if minus then -(number 10 digits) else number 10 digits

/-- The least number that a float of 64 bits takes for infinite, `(2 ^ 54 - 1) * 2 ^ 970`: half a
step above the greatest finite float. It has 309 digits. -/
def overflowBound : Nat := ((1 <<< 54) - 1) <<< 970

/-- Whether a number is too great for a float. It is given by its digits and the place of the point,
counted from the first digit; the point may also lie before or after all of them. -/
def overflows (digits : List Char) (point : Int) : Bool :=
  match digits with
  | [] => false
  | '0' :: digits => overflows digits (point - 1)
  | digits =>
    if 309 < point then true
    else
      -- what stands after the point cannot matter, since the bound is a whole number
      let whole := (digits ++ List.replicate point.toNat '0').take point.toNat
      overflowBound ≤ number 10 whole

/-- An integer part with a fraction, an exponent, or both; or one of the special values. Too great a
number is refused, while one that is too far below zero passes for infinite. -/
def isFloat (cs : List Char) : Bool :=
  let (minus, digits) := splitSign cs
  if digits == "inf".toList || digits == "nan".toList then true
  else
    let isE (c : Char) := c == 'e' || c == 'E'
    let mantissa := digits.takeWhile (! isE ·)
    let exponent := digits.dropWhile (! isE ·)
    let whole := mantissa.takeWhile (· != '.')
    let fraction := mantissa.dropWhile (· != '.')
    let isWritten := isDecimal whole
      && (fraction.isEmpty || isDigits Char.isDigit (fraction.drop 1))
      && (exponent.isEmpty || isExponent (exponent.drop 1))
      && !(fraction.isEmpty && exponent.isEmpty)
    let point := (whole.filter Char.isDigit).length + exponentValue (exponent.drop 1)
    isWritten && (minus || !overflows (mantissa.filter Char.isDigit) point)

/-! ## Dates and times -/

/-- Two decimal digits as a number. -/
def twoDigits? : List Char → Option (Nat × List Char)
  | a :: b :: cs => if a.isDigit && b.isDigit then some (number 10 [a, b], cs) else none
  | _ => none

def daysInMonth (year month : Nat) : Nat :=
  if month == 2 then
    if year % 4 == 0 && (year % 100 != 0 || year % 400 == 0) then 29 else 28
  else if month == 4 || month == 6 || month == 9 || month == 11 then 30
  else 31

/-- The text after a date. -/
def afterDate? (cs : List Char) : Option (List Char) := do
  let (century, cs) ← twoDigits? cs
  let (rest, cs) ← twoDigits? cs
  let '-' :: cs := cs | none
  let (month, cs) ← twoDigits? cs
  let '-' :: cs := cs | none
  let (day, cs) ← twoDigits? cs
  guard (1 ≤ month && month ≤ 12)
  guard (1 ≤ day && day ≤ daysInMonth (century * 100 + rest) month)
  return cs

/-- The text after hours and minutes. -/
def afterMinutes? (cs : List Char) : Option (List Char) := do
  let (hour, cs) ← twoDigits? cs
  let ':' :: cs := cs | none
  let (minute, cs) ← twoDigits? cs
  guard (hour ≤ 23 && minute ≤ 59)
  return cs

/-- The text after a time of day, with a fraction of a second or without. -/
def afterTime? (cs : List Char) : Option (List Char) := do
  let ':' :: cs ← afterMinutes? cs | none
  let (second, cs) ← twoDigits? cs
  guard (second ≤ 60)
  match cs with
  | '.' :: cs =>
    guard ((cs.takeWhile Char.isDigit).length ≠ 0)
    return cs.dropWhile Char.isDigit
  | cs => return cs

/-- Nothing, or the offset of a time zone. -/
def isOffset : List Char → Bool
  | [] => true
  | ['Z'] | ['z'] => true
  | '+' :: cs | '-' :: cs => afterMinutes? cs == some []
  | _ => false

/-- A date, a time of day, or both, and then perhaps the offset of a time zone. -/
def isDateTime (cs : List Char) : Bool :=
  match afterDate? cs with
  | some [] => true
  | some (c :: cs) =>
    (c == 'T' || c == 't' || c == ' ') &&
      match afterTime? cs with
      | some rest => isOffset rest
      | none => false
  | none => afterTime? cs == some []

/-! ## All of them -/

def isScalar (cs : List Char) : Bool :=
  cs == "true".toList || cs == "false".toList || isInteger cs || isFloat cs || isDateTime cs

end GuardedC.Toml.Scalar

/-
  Binary floating point numbers of 64 bits.

  A finite number is `mantissa · 2 ^ exponent`, the mantissa having at most 53
  bits and the exponent being at least -1074, with as many bits in the mantissa
  as the exponent leaves room for.  Decimals are read exactly: `ofRatio` rounds
  a quotient of natural numbers to the nearest number, a tie to the even
  mantissa.  `shortest` finds the fewest decimal digits that read back, and of
  those the nearest.
-/
import Bindery.Number.Integer

namespace Bindery.Number

inductive Binary64 where
  | nan
  | infinite (negative : Bool)
  | finite (negative : Bool) (mantissa : Nat) (exponent : Int)
deriving DecidableEq, Repr

namespace Binary64

instance : Inhabited Binary64 := ⟨finite false 0 (-1074)⟩

/-- Whether two numbers are equal.  No number equals one that is not a number,
    and the two zeros are equal. -/
def same : Binary64 → Binary64 → Bool
  | finite n m e, finite n' m' e' => (m == 0 && m' == 0) || (n == n' && m == m' && e == e')
  | infinite n, infinite n' => n == n'
  | _, _ => false

/-! ## Rounding -/

/-- The quotient rounded to the nearest natural number, a tie to the even
    one. -/
def roundDiv (num den : Nat) : Nat :=
  let q := num / den
  let r := num % den
  if 2 * r < den then q else if 2 * r > den then q + 1 else if q % 2 = 0 then q else q + 1

/-- `num / den · 2 ^ (-e)` as a quotient. -/
def scaled (num den : Nat) (e : Int) : Nat × Nat :=
  if 0 ≤ e then (num, den * Nat.pow 2 e.toNat) else (num * Nat.pow 2 (-e).toNat, den)

/-- The number nearest to `num / den`, where `den` is positive. -/
def ofRatio (negative : Bool) (num den : Nat) : Binary64 :=
  if num = 0 then finite negative 0 (-1074)
  else
    let guess : Int := (Nat.log2 num : Int) - Nat.log2 den
    let (a, b) := scaled num den guess
    let log : Int := if b ≤ a then guess else guess - 1
    let e : Int := max (log - 52) (-1074)
    let (a, b) := scaled num den e
    let m := roundDiv a b
    let (m, e) := if m = Nat.pow 2 53 then (Nat.pow 2 52, e + 1) else (m, e)
    if e > 971 then infinite negative else finite negative m e

/-- The number nearest to `digits · 10 ^ e`.  Numbers beyond the range of the
    format are not computed. -/
def ofDecimal (negative : Bool) (digits : Nat) (e : Int) : Binary64 :=
  let size : Int := (Nat.toDigits 10 digits).length + e
  if digits = 0 || size < -330 then finite negative 0 (-1074)
  else if size > 310 then infinite negative
  else if 0 ≤ e then ofRatio negative (digits * Nat.pow 10 e.toNat) 1
  else ofRatio negative digits (Nat.pow 10 (-e).toNat)

/-! ## Reading -/

/-- The digits of a number with a point, and how many of them are behind it. -/
def readDigits? (cs : List Char) : Option (Nat × Nat × List Char) :=
  let whole := cs.takeWhile Char.isDigit
  let rest := cs.drop whole.length
  let (fraction, rest) := match rest with
    | '.' :: r => (r.takeWhile Char.isDigit, r.dropWhile Char.isDigit)
    | _ => ([], rest)
  if whole.isEmpty && fraction.isEmpty then none
  else some (digitsValue (whole ++ fraction), fraction.length, rest)

/-- The exponent that a text is, which is zero for none. -/
def readExponent? : List Char → Option Int
  | [] => some 0
  | c :: cs =>
    if c = 'e' || c = 'E' then
      let (negative, digits) := splitSign cs
      if isDigits digits then
        some (if negative then -(digitsValue digits : Int) else digitsValue digits)
      else none
    else none

/-- The number that a text denotes: a decimal, with or without an exponent, or
    one of the special values in letters of either case. -/
def read? (cs : List Char) : Option Binary64 :=
  let (negative, body) := splitSign cs
  match String.ofList (body.map Char.toLower) with
  | "inf" | "infinity" => some (infinite negative)
  | "nan" => some nan
  | _ => do
    let (digits, places, rest) ← readDigits? body
    let e ← readExponent? rest
    return ofDecimal negative digits (e - places)

/-! ## The fewest digits that read back -/

/-- `x · 2 ^ e` as a quotient. -/
def quotient (x : Nat) (e : Int) : Nat × Nat :=
  if 0 ≤ e then (x * Nat.pow 2 e.toNat, 1) else (x, Nat.pow 2 (-e).toNat)

/-- Compares `digits · 10 ^ p` with the quotient `num / den`. -/
def compareDecimal (digits : Nat) (p : Int) (num den : Nat) : Ordering :=
  if 0 ≤ p then compare (digits * Nat.pow 10 p.toNat * den) num
  else compare (digits * den) (num * Nat.pow 10 (-p).toNat)

/-- Whether `digits · 10 ^ p` rounds to `m · 2 ^ e`: whether it lies between
    the middles to the neighbours, which belong to an even mantissa. -/
def readsBack (m : Nat) (e : Int) (digits : Nat) (p : Int) : Bool :=
  let lowest := if m = Nat.pow 2 52 && e > -1074 then 4 * m - 1 else 4 * m - 2
  let (low, den) := quotient lowest (e - 2)
  let (high, den') := quotient (4 * m + 2) (e - 2)
  let above := compareDecimal digits p low den
  let below := compareDecimal digits p high den'
  if m % 2 = 0 then above != .lt && below != .gt else above == .gt && below == .lt

/-- The exponent of the first decimal digit of `m · 2 ^ e`, `m` being
    positive. -/
def decimalExponent (m : Nat) (e : Int) : Int :=
  let guess : Int := ((Nat.log2 m : Int) + e) * 30103 / 100000
  let (num, den) := quotient m e
  if compareDecimal 1 (guess + 1) num den != .gt then guess + 1
  else if compareDecimal 1 guess num den != .gt then guess
  else guess - 1

/-- The multiples of `10 ^ p` next to `m · 2 ^ e`, the nearer one first, and
    of two at the same distance the greater. -/
def neighbours (m : Nat) (e p : Int) : List Nat :=
  let (num, den) := quotient m e
  let (num, den) :=
    if 0 ≤ p then (num, den * Nat.pow 10 p.toNat) else (num * Nat.pow 10 (-p).toNat, den)
  let low := num / den
  if 2 * (num % den) < den then [low, low + 1] else [low + 1, low]

/-- The first multiple of `10 ^ p` that reads back as `m · 2 ^ e`, for `p` and
    downward, within `count` steps; then the number itself. -/
def search (m : Nat) (e : Int) (p : Int) : Nat → Nat × Int
  | 0 => if 0 ≤ e then (m * Nat.pow 2 e.toNat, 0) else (m * Nat.pow 5 (-e).toNat, e)
  | count + 1 =>
    match (neighbours m e p).find? (readsBack m e · p) with
    | some digits => (digits, p)
    | none => search m e (p - 1) count

/-- The decimal `digits · 10 ^ p` with the fewest digits that reads back as
    `m · 2 ^ e`, `m` being positive.  Seventeen digits always do. -/
def shortest (m : Nat) (e : Int) : Nat × Int := search m e (decimalExponent m e) 17

/-- The digits without the zeros at their end, which count in the exponent. -/
def strip : Nat → Nat × Int → Nat × Int
  | 0, d => d
  | fuel + 1, (digits, p) =>
    if digits % 10 = 0 && digits != 0 then strip fuel (digits / 10, p + 1) else (digits, p)

/-! ## Writing -/

/-- The decimal `digits · 10 ^ p` without an exponent. -/
def positional (digits : List Char) (p : Int) : List Char :=
  if 0 ≤ p then digits ++ List.replicate p.toNat '0'
  else
    let places := (-p).toNat
    if places < digits.length then
      digits.take (digits.length - places) ++ '.' :: digits.drop (digits.length - places)
    else "0.".toList ++ List.replicate (places - digits.length) '0' ++ digits

/-- The decimal digits of a positive number and the exponent of the last. -/
def decimal (m : Nat) (e : Int) : List Char × Int :=
  let (digits, p) := strip 20 (shortest m e)
  (Nat.toDigits 10 digits, p)

def sign (negative : Bool) : String := if negative then "-" else ""

/-- The number with the fewest digits that read back, and no exponent. -/
def write : Binary64 → String
  | nan => "NaN"
  | infinite negative => sign negative ++ "inf"
  | finite negative 0 _ => sign negative ++ "0"
  | finite negative m e =>
    let (digits, p) := decimal m e
    sign negative ++ String.ofList (positional digits p)

def scientific (digits : List Char) (p : Int) : String :=
  let mantissa := match digits with
    | first :: rest@(_ :: _) => first :: '.' :: rest
    | ds => ds
  String.ofList mantissa ++ "e" ++ writeInteger (p + digits.length - 1)

/-- The number as it is shown: whole numbers have one place, and those below
    `10 ^ (-4)` or from `10 ^ 16` an exponent. -/
def shown : Binary64 → String
  | nan => "NaN"
  | infinite negative => sign negative ++ "inf"
  | finite negative 0 _ => sign negative ++ "0.0"
  | finite negative m e =>
    let (digits, p) := decimal m e
    let first := p + digits.length - 1
    sign negative ++
      if first < -4 || first ≥ 16 then scientific digits p
      else String.ofList (positional digits p) ++ if 0 ≤ p then ".0" else ""

end Binary64

end Bindery.Number

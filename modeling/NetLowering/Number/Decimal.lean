import NetLowering.Number.Binary

/-! # Decimal text of binary numbers

Writing: `Decimal.shortest` finds the fewest decimal digits that read back as a given datum, and
among those the nearest to it; `Decimal.Style` says how the digits are set. Reading:
`Decimal.encode?` rounds a decimal numeral once to the nearest datum.
-/

namespace NetLowering

/-- The number `digits * 10 ^ exponent`. -/
structure Decimal where
  digits : Nat
  exponent : Int
deriving DecidableEq

namespace Decimal

/-- The number of decimal digits of a natural number, one for zero. -/
def digitCount (n : Nat) : Nat := (Nat.toDigits 10 n).length

/-- The same number without trailing zeros, up to `fuel` of them. -/
def trimUpTo : Nat → Decimal → Decimal
  | 0, d => d
  | fuel + 1, d =>
      if d.digits ≠ 0 ∧ d.digits % 10 = 0 then trimUpTo fuel ⟨d.digits / 10, d.exponent + 1⟩ else d

/-- The same number without trailing zeros. -/
def trim (d : Decimal) : Decimal := trimUpTo (digitCount d.digits) d

/-! ### The fewest digits -/

/-- The numbers that round to one datum, in quarters of a unit: its value, the two ends of the
interval around it, and whether the ends belong to it. -/
structure Cell where
  value : Nat
  low : Nat
  high : Nat
  closed : Bool

/-- The cell of a finite positive magnitude. The neighbour below a power of two is half as far away,
and the ends round to an even significand. -/
def cell (f : BinaryFormat) (units : Nat) : Cell :=
  let step := Nat.log2 units + 1 - f.precision
  let significand := units / twoTo step
  let below := if significand = f.exponentPlace ∧ step ≠ 0 then twoTo step else 2 * twoTo step
  { value := 4 * units
    low := 4 * units - below
    high := 4 * units + 2 * twoTo step
    closed := significand % 2 == 0 }

/-- `10 ^ exponent` as a quotient. -/
def tenPower (exponent : Int) : Nat × Nat :=
  if 0 ≤ exponent then (tenTo exponent.toNat, 1) else (1, tenTo (-exponent).toNat)

/-- Whether a decimal lies in a cell of the format. -/
def Cell.contains (c : Cell) (f : BinaryFormat) (d : Decimal) : Bool :=
  let (num, den) := tenPower d.exponent
  let point := d.digits * num * twoTo (f.unitPlaces + 2)
  if c.closed then c.low * den ≤ point && point ≤ c.high * den
  else c.low * den < point && point < c.high * den

/-- The value of a cell on the grid of multiples of `10 ^ exponent`: the multiple at or below it,
and how the remainder compares with half a step. -/
def Cell.grid (c : Cell) (f : BinaryFormat) (exponent : Int) : Nat × Ordering :=
  let (num, den) := tenPower exponent
  let dividend := c.value * den
  let divisor := num * twoTo (f.unitPlaces + 2)
  (dividend / divisor, compare (2 * (dividend % divisor)) divisor)

/-- The nearer of the two grid points around the value that lie in the cell; on a tie the even one.
-/
def Cell.hit? (c : Cell) (f : BinaryFormat) (exponent : Int) : Option Decimal :=
  let (below, half) := c.grid f exponent
  let down : Decimal := ⟨below, exponent⟩
  let up : Decimal := ⟨below + 1, exponent⟩
  match c.contains f down, c.contains f up with
  | true, true =>
      match half with
      | .lt => some down
      | .gt => some up
      | .eq => some (if below % 2 = 0 then down else up)
  | true, false => some down
  | false, true => some up
  | false, false => none

/-- The first grid with a hit, from the coarse one at `exponent` down through `fuel` finer ones. -/
def Cell.search (c : Cell) (f : BinaryFormat) : Nat → Int → Decimal
  | 0, exponent => ⟨(c.grid f exponent).1, exponent⟩
  | fuel + 1, exponent =>
      match c.hit? f exponent with
      | some d => d
      | none => c.search f fuel (exponent - 1)

/-- The exponent of the leading decimal digit of a magnitude, or one less at a negative power of
ten. -/
def leadingExponent (f : BinaryFormat) (units : Nat) : Int :=
  let whole := units / twoTo f.unitPlaces
  if whole = 0 then -Int.ofNat (digitCount (twoTo f.unitPlaces / units))
  else Int.ofNat (digitCount whole) - 1

/-- The shortest decimal that rounds to a positive magnitude, nearest to it among the shortest.
Seventeen digits tell any two data of 64 bits apart. -/
def shortest (f : BinaryFormat) (units : Nat) : Decimal :=
  ((cell f units).search f 17 (leadingExponent f units)).trim

/-! ### Setting the digits -/

/-- How a number is set: the exponents written positionally, and the texts of the special data. -/
structure Style where
  positionalFrom : Int
  positionalBelow : Int
  exponentDigits : Nat
  positiveInfinity : String
  negativeInfinity : String
  notANumber : String

/-- Numbers in messages are positional from `0.0001` up to six whole digits, and otherwise
scientific with a signed exponent of at least two digits. -/
def Style.message : Style :=
  { positionalFrom := -4
    positionalBelow := 6
    exponentDigits := 2
    positiveInfinity := "+Inf"
    negativeInfinity := "-Inf"
    notANumber := "NaN" }

def zeros (n : Nat) : String := String.ofList (List.replicate n '0')

/-- The text of a positive decimal without trailing zeros. -/
def Style.set (s : Style) (d : Decimal) : String :=
  let digits := Nat.toDigits 10 d.digits
  let lead : Int := d.exponent + Int.ofNat digits.length - 1
  if lead < s.positionalFrom ∨ s.positionalBelow ≤ lead then
    let size := toString lead.natAbs
    let mantissa :=
      match digits with
      | [] => ""
      | [c] => String.ofList [c]
      | c :: rest => String.ofList (c :: '.' :: rest)
    mantissa ++ (if lead < 0 then "e-" else "e+") ++ zeros (s.exponentDigits - size.length) ++ size
  else if lead < 0 then
    "0." ++ zeros (lead.natAbs - 1) ++ String.ofList digits
  else
    let whole := lead.toNat + 1
    if digits.length ≤ whole then String.ofList digits ++ zeros (whole - digits.length)
    else String.ofList (digits.take whole) ++ "." ++ String.ofList (digits.drop whole)

/-- The text of a datum. -/
def Style.text (s : Style) (f : BinaryFormat) (bits : Nat) : String :=
  match f.decode bits with
  | .nan _ _ => s.notANumber
  | .infinite false => s.positiveInfinity
  | .infinite true => s.negativeInfinity
  | .finite negative units =>
      (if negative then "-" else "") ++ (if units = 0 then "0" else s.set (shortest f units))

/-! ### Reading -/

/-- The pattern nearest to a signed decimal. Past ten to the four hundredth a decimal is infinite in
every format here, and below its inverse it is zero. -/
def encode (f : BinaryFormat) (negative : Bool) (d : Decimal) : Nat :=
  if d.digits = 0 ∨ d.exponent < -400 - Int.ofNat (Nat.log2 d.digits) then f.withSign negative 0
  else if 400 < d.exponent then f.withSign negative f.infinityBits
  else
    let (num, den) := tenPower d.exponent
    f.encodeRatio negative (d.digits * num * twoTo f.unitPlaces) den

/-- The pattern nearest to a signed decimal, or `none` if that is infinite. -/
def encode? (f : BinaryFormat) (negative : Bool) (d : Decimal) : Option Nat :=
  let bits := d.encode f negative
  if bits % f.signPlace = f.infinityBits then none else some bits

end Decimal

end NetLowering

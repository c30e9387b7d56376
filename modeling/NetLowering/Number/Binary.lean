import NetLowering.Number.Power

/-! # Binary interchange formats

A binary floating point datum is kept as the bits of its format (`Half`, `Single`, `Double`), and
every operation on it goes through an exact value: `BinaryFormat.decode` reads a finite pattern as a
whole number of the format's smallest positive value (its *unit*), and `BinaryFormat.encodeRatio`
rounds a quotient of such units to the nearest pattern, halves to the even one. Conversion between
two formats is therefore one exact change of unit followed by one rounding.
-/

namespace NetLowering

/-- The quotient `num / den` rounded to the nearest natural number, a half to the even one. -/
def roundDivEven (num den : Nat) : Nat :=
  let q := num / den
  let r := num % den
  if 2 * r < den then q
  else if den < 2 * r then q + 1
  else q + q % 2

/-- A binary format: the bits of its significand, the leading one included, and of its exponent. -/
structure BinaryFormat where
  precision : Nat
  exponentBits : Nat
deriving DecidableEq

/-- What a bit pattern stands for; a finite magnitude is counted in units of the format, and the
payload of what is not a number is the part of the pattern below its exponent. -/
inductive Datum where
  | finite (negative : Bool) (units : Nat)
  | infinite (negative : Bool)
  | nan (negative : Bool) (payload : Nat)
deriving DecidableEq

def Datum.isNaN : Datum → Bool
  | .nan _ _ => true
  | _ => false

namespace BinaryFormat

def half : BinaryFormat := ⟨11, 5⟩

def single : BinaryFormat := ⟨24, 8⟩

def double : BinaryFormat := ⟨53, 11⟩

/-- The unit of a format is `2 ^ (-unitPlaces)`. -/
def unitPlaces (f : BinaryFormat) : Nat := twoTo (f.exponentBits - 1) + f.precision - 3

/-- The place of the lowest exponent bit. -/
def exponentPlace (f : BinaryFormat) : Nat := twoTo (f.precision - 1)

def infinityBits (f : BinaryFormat) : Nat := (twoTo f.exponentBits - 1) * f.exponentPlace

def signPlace (f : BinaryFormat) : Nat := twoTo f.exponentBits * f.exponentPlace

/-- The pattern written for a value that is not a number. -/
def nanBits (f : BinaryFormat) : Nat := f.infinityBits + f.exponentPlace / 2

/-- A magnitude with its sign bit. -/
def withSign (f : BinaryFormat) (negative : Bool) (magnitude : Nat) : Nat :=
  if negative then f.signPlace + magnitude else magnitude

/-- The value of a bit pattern. -/
def decode (f : BinaryFormat) (bits : Nat) : Datum :=
  let negative := bits / f.signPlace % 2 == 1
  let magnitude := bits % f.signPlace
  let field := magnitude / f.exponentPlace
  if f.infinityBits < magnitude then .nan negative (magnitude - f.infinityBits)
  else if magnitude = f.infinityBits then .infinite negative
  else if field = 0 then .finite negative magnitude
  else .finite negative ((f.exponentPlace + magnitude % f.exponentPlace) * twoTo (field - 1))

/-- The pattern nearest to `num / den` units, a tie going to the even pattern and a value past the
largest finite one to infinity. The spacing of patterns at a value is `2 ^ step` units, and the
patterns are numbered in the order of their values, so a carry out of the significand needs no
second case. -/
def encodeRatio (f : BinaryFormat) (negative : Bool) (num den : Nat) : Nat :=
  let step := Nat.log2 (num / den) + 1 - f.precision
  let magnitude := step * f.exponentPlace + roundDivEven num (den * twoTo step)
  f.withSign negative (min magnitude f.infinityBits)

/-- A payload in another format: its leading places, the first of them set. -/
def quietPayload (source target : BinaryFormat) (payload : Nat) : Nat :=
  let first := target.exponentPlace / 2
  first + payload * target.exponentPlace / source.exponentPlace % first

/-- A datum of one format rounded into another. -/
def convert (source target : BinaryFormat) (bits : Nat) : Nat :=
  match source.decode bits with
  | .nan negative payload =>
      target.withSign negative (target.infinityBits + source.quietPayload target payload)
  | .infinite negative => target.withSign negative target.infinityBits
  | .finite negative units =>
      target.encodeRatio negative (units * twoTo target.unitPlaces) (twoTo source.unitPlaces)

/-- A whole number rounded into the format. -/
def ofInt (f : BinaryFormat) (n : Int) : Nat :=
  f.encodeRatio (n < 0) (n.natAbs * twoTo f.unitPlaces) 1

/-- The whole number closest to zero from a datum, or `none` where there is none. -/
def truncate? (f : BinaryFormat) (bits : Nat) : Option Int :=
  match f.decode bits with
  | .finite negative units =>
      let magnitude : Int := Int.ofNat (units / twoTo f.unitPlaces)
      some (if negative then -magnitude else magnitude)
  | _ => none

/-- The whole number a datum is equal to, or `none` if it is not one. -/
def toInt? (f : BinaryFormat) (bits : Nat) : Option Int :=
  match f.decode bits with
  | .finite _ units => if units % twoTo f.unitPlaces = 0 then f.truncate? bits else none
  | _ => none

end BinaryFormat

end NetLowering

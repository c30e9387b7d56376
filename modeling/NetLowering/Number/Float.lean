import NetLowering.Number.Decimal

/-! # Half, single and double

The three widths of number that occur in models: `Half` and `Double` are read, and every stored
constant is a `Single`. Each is its bit pattern, so that equality of constants is equality of bits.
-/

namespace NetLowering

structure Half where
  bits : UInt16
deriving DecidableEq, Inhabited

structure Single where
  bits : UInt32
deriving DecidableEq, Inhabited

structure Double where
  bits : UInt64
deriving DecidableEq, Inhabited

/-- The conversions between 16 and 32 bits, which the program takes from elsewhere. -/
class HalfConversion where
  narrow : Single → Half
  widen : Half → Single

namespace Single

/-- The nearest 32-bit number to an integer, rounded once. -/
def ofInt (n : Int) : Single := ⟨.ofNat (BinaryFormat.single.ofInt n)⟩

/-- The nearest 32-bit number to a positive decimal. -/
def ofDecimal (d : Decimal) : Single := ⟨.ofNat (d.encode .single false)⟩

/-- The same magnitude with the other sign. -/
def neg (x : Single) : Single := ⟨x.bits ^^^ 0x80000000⟩

instance : Neg Single := ⟨neg⟩

/-- Whether the number is zero, of either sign. -/
def isZero (x : Single) : Bool := x.bits <<< 1 == 0

def isNaN (x : Single) : Bool := (BinaryFormat.single.decode x.bits.toNat).isNaN

def toInt? (x : Single) : Option Int := BinaryFormat.single.toInt? x.bits.toNat

def text (x : Single) : String := Decimal.Style.message.text .single x.bits.toNat

end Single

namespace Double

/-- The nearest 32-bit number. -/
def toSingle (x : Double) : Single :=
  ⟨.ofNat (BinaryFormat.double.convert .single x.bits.toNat)⟩

/-- The nearest 64-bit number to an integer. -/
def ofInt (n : Int) : Double := ⟨.ofNat (BinaryFormat.double.ofInt n)⟩

/-- The nearest 64-bit number to a decimal. -/
def ofDecimal (negative : Bool) (d : Decimal) : Double := ⟨.ofNat (d.encode .double negative)⟩

/-- The nearest 64-bit number to a decimal, or `none` if it is past the largest finite one. -/
def ofDecimal? (negative : Bool) (d : Decimal) : Option Double :=
  (d.encode? .double negative).map fun bits => ⟨.ofNat bits⟩

/-- Positive or negative infinity. -/
def infinity (negative : Bool) : Double :=
  ⟨.ofNat (BinaryFormat.double.withSign negative BinaryFormat.double.infinityBits)⟩

/-- A pattern that is not a number. -/
def nan : Double := ⟨.ofNat BinaryFormat.double.nanBits⟩

def isNaN (x : Double) : Bool := (BinaryFormat.double.decode x.bits.toNat).isNaN

/-- Whether one number sorts before or with another: what is not a number first, then by value. -/
def before (a b : Double) : Bool :=
  match BinaryFormat.double.decode a.bits.toNat, BinaryFormat.double.decode b.bits.toNat with
  | .nan _ _, _ => true
  | _, .nan _ _ => false
  | .infinite n, .infinite m => n || !m
  | .infinite n, _ => n
  | _, .infinite m => !m
  | .finite n x, .finite m y =>
      match n, m with
      | true, true => y ≤ x
      | true, false => true
      | false, true => x = 0 && y = 0
      | false, false => x ≤ y

def toInt? (x : Double) : Option Int := BinaryFormat.double.toInt? x.bits.toNat

def text (x : Double) : String := Decimal.Style.message.text .double x.bits.toNat

end Double

end NetLowering

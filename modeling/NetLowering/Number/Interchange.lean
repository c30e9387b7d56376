import NetLowering.Number.Float

/-! # Half numbers by their format

The conversions between 16 and 32 bits that the program runs with: both are `BinaryFormat.convert`,
one change of unit and one rounding.
-/

namespace NetLowering

instance HalfConversion.interchange : HalfConversion where
  narrow x := ⟨.ofNat (BinaryFormat.single.convert .half x.bits.toNat)⟩
  widen x := ⟨.ofNat (BinaryFormat.half.convert .single x.bits.toNat)⟩

end NetLowering

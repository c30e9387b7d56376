import NetLowering.Error
import NetLowering.Tensor.Axes

/-! # Constants

A `Tensor` is a constant of a model in the order it was given, tagged with its layout; a `Constant`
is one in canonical order, ready for the target. Stored values are 32-bit numbers, whatever they
were given as.
-/

namespace NetLowering

/-- Flat values as they are given; `other` is anything that is not a list of numbers, by its type.
-/
inductive FlatData where
  | halves (values : Array Half)
  | singles (values : Array Single)
  | doubles (values : Array Double)
  | single (value : Single)
  | double (value : Double)
  | other (typeName : String)

/-- The stored form of flat values. -/
def FlatData.stored [HalfConversion] : FlatData → Except Error (Array Single)
  | .halves values => .ok (values.map HalfConversion.widen)
  | .singles values => .ok values
  | .doubles values => .ok (values.map Double.toSingle)
  | .single value => .ok #[value]
  | .double value => .ok #[value.toSingle]
  | .other typeName => fail (.unsupportedData typeName)

/-- The number of bytes that can be addressed, two to the power of 48. -/
def addressable : Nat := 0x1000000000000

/-- `length` copies of a value of `width` bytes each. A negative length, or one that cannot be
addressed, leaves no result. -/
def fillBuffer {α : Type} (width : Nat) (length : Int64) (value : α) : Except Error (Array α) :=
  if length < 0 ∨ addressable < length.toNatClampNeg * width then fail (.impossibleLength length)
  else .ok (Array.replicate length.toNatClampNeg value)

/-- Values with their extents, in canonical order. -/
structure Constant where
  dims : List Int64
  data : Array Single
deriving DecidableEq

/-- The number of elements the extents describe. -/
def Constant.size (c : Constant) : Int64 := extentProduct c.dims

/-- A stored constant: its values in row-major order of its extents. -/
structure Tensor where
  id : String
  dims : List Int64
  layout : Layout
  data : Array Single
deriving DecidableEq

namespace Tensor

/-- A tensor of the given values: the layout has to have as many axes as there are extents, the
extents have to be positive, and their product has to be the number of values. -/
def make [HalfConversion] (id : String) (flat : FlatData) (layout : Layout) (dims : List Int64) :
    Except Error Tensor :=
  inScope (.tensor id) do
    let data ← flat.stored
    if layout.rank? ≠ some dims.length then fail (.tensorRank layout dims)
    else if dims.any (· ≤ 0) then fail (.tensorNotPositive dims)
    else if extentProduct dims ≠ Int64.ofNat data.size then fail (.tensorSize dims data.size)
    else .ok { id, dims, layout, data }

/-- The tensor in canonical order, its axes being those of `layout`. -/
def canonicalAs (t : Tensor) (layout : Layout) : Except Error Constant :=
  if layout.rank? ≠ some t.dims.length then fail (.tensorReadAs t.id t.dims layout)
  else
    match layout.permutation with
    | none => .ok ⟨t.dims, t.data⟩
    | some perm =>
        match transpose? t.data t.dims perm with
        | none => fail .outsideData
        | some data => .ok ⟨permuteDims t.dims perm, data⟩

def canonical (t : Tensor) : Except Error Constant := t.canonicalAs t.layout

/-- The tensor as a vector: a scalar is repeated `size` times, and anything else is taken as it
lies. -/
def vector (t : Tensor) (size : Int64) : Except Error (Array Single) :=
  if t.dims.isEmpty then fillBuffer 4 size (t.data.getD 0 default) else .ok t.data

end Tensor

end NetLowering

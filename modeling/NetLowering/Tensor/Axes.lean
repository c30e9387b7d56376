import NetLowering.Shape

/-! # Moving axes

Data of any rank is stored in row-major order: the last axis varies fastest. `transpose?` lists the
axes in another order, and moves the elements with them: it walks through the result as an odometer
counts, and reads each element where it lies in the data.
-/

namespace NetLowering

/-- The distance in row-major order between neighbours along each axis. -/
def strides : List Int64 → List Int64
  | [] => []
  | _ :: rest => extentProduct rest :: strides rest

/-- The extents after the axes are listed in the order `perm`. -/
def permuteDims (dims : List Int64) (perm : List Nat) : List Int64 := perm.map (dims.getD · 0)

/-- The multi-index after `index` in row-major order, and whether it starts over: the last axis moves
on, and an axis that comes to its end starts over and moves on the axis before it. -/
def advance : List Int64 → List Int64 → List Int64 × Bool
  | extent :: extents, i :: index =>
      match advance extents index with
      | (index, false) => (i :: index, false)
      | (index, true) => if i + 1 < extent then ((i + 1) :: index, false) else (0 :: index, true)
  | _, _ => ([], true)

/-- The multi-index after `index` in row-major order. -/
def nextIndex (extents index : List Int64) : List Int64 := (advance extents index).1

/-- The position of a multi-index in data with the given distances between neighbours. -/
def offset (steps index : List Int64) : Int64 := (List.zipWith (· * ·) index steps).foldl (· + ·) 0

/-- The element at a position, if there is one. -/
def elementAt? {α : Type} (data : Array α) (position : Int64) : Option α :=
  if position < 0 then none else data[position.toNatClampNeg]?

/-- Reads the elements at `count` multi-indices, from `index` on, and adds them to those in `out`;
`none` if one of them is outside the data. -/
def readFrom? {α : Type} (data : Array α) (extents steps : List Int64) :
    Nat → List Int64 → Array α → Option (Array α)
  | 0, _, out => some out
  | count + 1, index, out =>
      match elementAt? data (offset steps index) with
      | none => none
      | some x => readFrom? data extents steps count (nextIndex extents index) (out.push x)

/-- The data with its axes in the order `perm`, or `none` if the extents lead outside the data. Axis
`perm[i]` of the data is axis `i` of the result. -/
def transpose? {α : Type} (data : Array α) (dims : List Int64) (perm : List Nat) : Option (Array α) :=
  readFrom? data (permuteDims dims perm) (permuteDims (strides dims) perm) data.size
    (List.replicate dims.length 0) #[]

end NetLowering

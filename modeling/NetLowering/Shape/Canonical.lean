import NetLowering.Error

/-! # Declared shapes in canonical order

`ShapeDecl.canonical` reads a declared shape as rows, columns and channels. Only layouts of
activations can be read so: a channel vector, and the two orders of a row, column and channel axis.
-/

namespace NetLowering.ShapeDecl

/-- The extents of a declared shape in canonical order, whatever their values. -/
def arrange (d : ShapeDecl) : Except Error Shape :=
  match d.layout, d.dims with
  | .channelRowColumn, [channels, rows, columns] => .ok ⟨rows, columns, channels⟩
  | .channelRowColumn, dims => fail (.shapeRank dims 3 .channelRowColumn)
  | .rowColumnChannel, [rows, columns, channels] => .ok ⟨rows, columns, channels⟩
  | .rowColumnChannel, dims => fail (.shapeRank dims 3 .rowColumnChannel)
  | .channel, [channels] => .ok ⟨1, 1, channels⟩
  | .channel, dims => fail (.shapeRank dims 1 .channel)
  | layout, _ => fail (.shapeLayout layout)

/-- The canonical shape inside a border of the given width. All extents have to be positive. -/
def canonical (d : ShapeDecl) (padding : Int64) : Except Error Shape := do
  let s ← d.arrange
  if s.rows ≤ 0 ∨ s.columns ≤ 0 ∨ s.channels ≤ 0 then fail (.shapeNotPositive d.dims)
  else if padding < 0 then fail (.negativePadding padding)
  else .ok (s.pad padding)

end NetLowering.ShapeDecl

import NetLowering.Layout
import NetLowering.Padding

/-! # Shapes

`Shape` is the extent of a value in the canonical order, and `ShapeDecl` what a model declares:
extents in a layout of its own. Extents are 64-bit integers, and sizes wrap around.
-/

namespace NetLowering

/-- Rows, columns and channels of a value. -/
structure Shape where
  rows : Int64
  columns : Int64
  channels : Int64
deriving DecidableEq

namespace Shape

def size (s : Shape) : Int64 := s.rows * s.columns * s.channels

/-- The shape with a border of the given width around each channel. -/
def pad (s : Shape) (width : Int64) : Shape :=
  ⟨s.rows + 2 * width, s.columns + 2 * width, s.channels⟩

def text (s : Shape) : String :=
  "(" ++ toString s.rows ++ ", " ++ toString s.columns ++ ", " ++ toString s.channels ++ ")"

end Shape

/-- Extents in the order of a layout. -/
structure ShapeDecl where
  dims : List Int64
  layout : Layout
deriving DecidableEq

namespace ShapeDecl

def text (d : ShapeDecl) : String := Text.integers d.dims ++ " " ++ d.layout.text

end ShapeDecl

/-- The product of extents, wrapping around. -/
def extentProduct (dims : List Int64) : Int64 := dims.foldl (· * ·) 1

/-- The place a buffer has in memory: the shape of its contents and the border around them. -/
structure Buffer where
  shape : Shape
  padding : Padding
deriving DecidableEq

namespace Buffer

/-- The shape with its border. -/
def allocated (b : Buffer) : Shape := b.shape.pad b.padding.size

/-- The text of a buffer; a border of width zero is left out. -/
def text (b : Buffer) : String :=
  if b.padding.size = 0 then b.shape.text else b.shape.text ++ " padded " ++ b.padding.text

end Buffer

end NetLowering

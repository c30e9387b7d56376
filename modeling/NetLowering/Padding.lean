import NetLowering.Text.Quoted

/-! # Padding

A buffer may be surrounded by a border of some size on each side, filled by some scheme.
-/

namespace NetLowering

/-- How the border of a padded buffer is filled; `unlisted` keeps a number that names no scheme. -/
inductive PaddingScheme where
  | zeros
  | minusOnes
  | alternatingZeroAndOnes
  | randomZeroAndOnes
  | min
  | max
  | unlisted (code : Int64) (outside : code < 0 ∨ 5 < code)
deriving DecidableEq

namespace PaddingScheme

/-- The schemes with a name. -/
def listed : List PaddingScheme :=
  [.zeros, .minusOnes, .alternatingZeroAndOnes, .randomZeroAndOnes, .min, .max]

def code : PaddingScheme → Int64
  | .zeros => 0
  | .minusOnes => 1
  | .alternatingZeroAndOnes => 2
  | .randomZeroAndOnes => 3
  | .min => 4
  | .max => 5
  | .unlisted code _ => code

def ofCode (code : Int64) : PaddingScheme :=
  if outside : code < 0 ∨ 5 < code then .unlisted code outside
  else listed.getD code.toNatClampNeg .zeros

def text : PaddingScheme → String
  | .zeros => "zeros"
  | .minusOnes => "minus_ones"
  | .alternatingZeroAndOnes => "alternating_zero_and_ones"
  | .randomZeroAndOnes => "random_zero_and_ones"
  | .min => "min"
  | .max => "max"
  | .unlisted code _ => s!"PaddingScheme({code})"

def ofText? (name : String) : Option PaddingScheme := listed.find? fun scheme => scheme.text = name

end PaddingScheme

/-- A border: its width on each side, and its filling. -/
structure Padding where
  size : Int64
  scheme : PaddingScheme
deriving DecidableEq

namespace Padding

/-- No border. -/
def absent : Padding := ⟨0, .zeros⟩

def text (p : Padding) : String := "(" ++ toString p.size ++ ", " ++ p.scheme.text ++ ")"

end Padding

end NetLowering

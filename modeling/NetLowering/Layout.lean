import NetLowering.Text.Quoted

/-! # Layouts

A layout names the axes of a stored tensor or of a declared shape, outermost first. The canonical
order of the target is rows, columns, channels, behind the filters where there are any;
`Layout.permutation` says which axes have to move to get there.
-/

namespace NetLowering

/-- The order of axes a tensor is stored in. `unset` leaves the choice to someone else, and
`unlisted` keeps a number that names no layout. -/
inductive Layout where
  | unset
  | scalar
  | channel
  | rowColumn
  | channelRowColumn
  | rowColumnChannel
  | filterChannelRowColumn
  | channelRowColumnFilter
  | unlisted (code : Int64) (outside : code < 0 ∨ 7 < code)
deriving DecidableEq

namespace Layout

/-- The layouts with a number of their own. -/
def listed : List Layout :=
  [.unset, .scalar, .channel, .rowColumn, .channelRowColumn, .rowColumnChannel,
   .filterChannelRowColumn, .channelRowColumnFilter]

def code : Layout → Int64
  | .unset => 0
  | .scalar => 1
  | .channel => 2
  | .rowColumn => 3
  | .channelRowColumn => 4
  | .rowColumnChannel => 5
  | .filterChannelRowColumn => 6
  | .channelRowColumnFilter => 7
  | .unlisted code _ => code

def ofCode (code : Int64) : Layout :=
  if outside : code < 0 ∨ 7 < code then .unlisted code outside
  else listed.getD code.toNatClampNeg .unset

def text : Layout → String
  | .unset => "Layout(0)"
  | .scalar => "scalar"
  | .channel => "channel"
  | .rowColumn => "row_column"
  | .channelRowColumn => "channel_row_column"
  | .rowColumnChannel => "row_column_channel"
  | .filterChannelRowColumn => "filter_channel_row_column"
  | .channelRowColumnFilter => "channel_row_column_filter"
  | .unlisted code _ => s!"Layout({code})"

/-- The layouts that have a tag. -/
def tagged : List Layout := listed.drop 1

/-- Reads a tag. -/
def ofText? (tag : String) : Option Layout := tagged.find? fun layout => layout.text = tag

def rank? : Layout → Option Nat
  | .scalar => some 0
  | .channel => some 1
  | .rowColumn => some 2
  | .channelRowColumn | .rowColumnChannel => some 3
  | .filterChannelRowColumn | .channelRowColumnFilter => some 4
  | .unset | .unlisted _ _ => none

/-- For each axis of the canonical order, the stored axis it is; `none` if none has to move. -/
def permutation : Layout → Option (List Nat)
  | .filterChannelRowColumn => some [0, 2, 3, 1]
  | .channelRowColumnFilter => some [3, 1, 2, 0]
  | .rowColumn => some [1, 0]
  | .channelRowColumn => some [1, 2, 0]
  | .unset | .scalar | .channel | .rowColumnChannel | .unlisted _ _ => none

end Layout

end NetLowering

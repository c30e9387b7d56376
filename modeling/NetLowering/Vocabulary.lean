import NetLowering.Error

/-! # Reading names

Layouts, operation kinds and padding schemes are written by name in a model; a name outside the
vocabulary is a failure.
-/

namespace NetLowering

def Layout.ofText (tag : String) : Except Error Layout :=
  match Layout.ofText? tag with
  | some layout => .ok layout
  | none => fail (.unknownLayout tag)

def OpKind.ofText (name : String) : Except Error OpKind :=
  match OpKind.ofText? name with
  | some kind => .ok kind
  | none => fail (.unknownKind name)

def PaddingScheme.ofText (name : String) : Except Error PaddingScheme :=
  match PaddingScheme.ofText? name with
  | some scheme => .ok scheme
  | none => fail (.unknownScheme name)

end NetLowering

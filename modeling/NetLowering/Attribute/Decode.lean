import NetLowering.Attribute
import NetLowering.Yaml.Decode

/-! # Attribute values from a file

Attributes have no type of their own in a file: each is read as its form says.
-/

namespace NetLowering.AttrValue

open Yaml Decode

/-- The attribute a scalar stands for. -/
def ofScalar : Value → AttrValue
  | .null => .null
  | .flag b => .flag b
  | .integer n => .integer n
  | .natural n => .uint64 n
  | .number x => .double x
  | .moment t => .moment t
  | .text s => .word s

/-- The scalar an attribute is read from. -/
def scalar? : AttrValue → Option Value
  | .null => some .null
  | .flag b => some (.flag b)
  | .integer n => some (.integer n)
  | .uint64 n => some (.natural n)
  | .double x => some (.number x)
  | .moment t => some (.moment t)
  | .word s => some (.text s)
  | _ => none

/-- What tells apart two keys of a table. A key that is no scalar is told apart from scalars only. -/
def identity (k : AttrValue) : String × String := (k.scalar?.map valueIdentity).getD ("", "")

def sameKey (a b : AttrValue) : Bool := a.identity == b.identity

def isKey (k : AttrValue) : Bool := k.scalar?.isSome

/-- An attribute of any kind. A mapping with text for all its keys is a record, and any other a
table. -/
def decode : Nat → Yaml.Node → Decode (Option AttrValue)
  | 0, _ => stop
  | fuel + 1, n =>
      match n.target with
      | .scalar _ tag text => do pure (some (ofScalar (← scalarValue tag text)))
      | .sequence _ _ items => do pure (some (.list (← items.filterMapM (decode fuel))))
      | .mapping line tag own => do
          if own.all fun e => e.1.tag == "!!str" || e.1.tag == "!!merge" then
            let fields ← entries Decode.text textIdentity (putField fuel) [] (.mapping line tag own) own
            pure (fields.map .record)
          else
            let cells ← entries (decode fuel) identity (putCell fuel) [] (.mapping line tag own) own
            pure (cells.map .table)
      | _ => stop
where
  /-- Reads a field of a record. -/
  putField (fuel : Nat) (fields : List (String × AttrValue)) (_ : Yaml.Node) (name : String)
      (value : Yaml.Node) : Decode (List (String × AttrValue)) := do
    match ← decode fuel value with
    | some a => pure (putEntry (· == name) name a fields)
    | none => pure fields
  /-- Reads a cell of a table. -/
  putCell (fuel : Nat) (cells : List (AttrValue × AttrValue)) (_ : Yaml.Node) (key : AttrValue)
      (value : Yaml.Node) : Decode (List (AttrValue × AttrValue)) := do
    if !isKey key then stop
    else
      match ← decode fuel value with
      | some a => pure (putEntry (sameKey key) key a cells)
      | none => pure cells

end NetLowering.AttrValue

import NetLowering.Number.Float
import NetLowering.OpKind
import NetLowering.Layout
import NetLowering.Padding
import NetLowering.Timestamp

/-! # Attribute values

Attributes are the operation-specific parameters of a node, as loose as the files they come from:
numbers of several widths, text, lists, maps and members of the graph vocabulary. An accessor
accepts the values it can read without loss and reports any other by its type and text.
-/

namespace NetLowering

/-- The value of an attribute. A `record` has names as keys, and a `table` any values. -/
inductive AttrValue where
  | integer (n : Int64)
  | int32 (n : Int32)
  | int64 (n : Int64)
  | uint64 (n : UInt64)
  | single (x : Single)
  | double (x : Double)
  | word (s : String)
  | flag (b : Bool)
  | null
  | list (items : List AttrValue)
  | record (fields : List (String × AttrValue))
  | table (entries : List (AttrValue × AttrValue))
  | layout (l : Layout)
  | kind (k : OpKind)
  | scheme (s : PaddingScheme)
  | moment (t : Timestamp)

namespace AttrValue

def typeName : AttrValue → String
  | .integer _ => "int"
  | .int32 _ => "int32"
  | .int64 _ => "int64"
  | .uint64 _ => "uint64"
  | .single _ => "float32"
  | .double _ => "float64"
  | .word _ => "string"
  | .flag _ => "bool"
  | .null => "<nil>"
  | .list _ => "[]interface \x7b\x7d"
  | .record _ => "map[string]interface \x7b\x7d"
  | .table _ => "map[interface \x7b\x7d]interface \x7b\x7d"
  | .layout _ => "graph.Layout"
  | .kind _ => "graph.OpKind"
  | .scheme _ => "graph.PaddingScheme"
  | .moment _ => "time.Time"

/-- Whether one key of a table is listed before another: an absent key first, then by type, then by
value. -/
def keyBefore : AttrValue → AttrValue → Bool
  | .null, _ => true
  | _, .null => false
  | .integer a, .integer b => a ≤ b
  | .uint64 a, .uint64 b => a ≤ b
  | .word a, .word b => a ≤ b
  | .flag a, .flag b => !a || b
  | .double a, .double b => Double.before a b
  | a, b => a.typeName ≤ b.typeName

/-- The entries of a map, each a key and a value. -/
def mapText (entries : List (String × String)) : String :=
  "map" ++ Text.bracketed (entries.map fun e => e.1 ++ ":" ++ e.2)

mutual

/-- The text of a value. Maps list their keys in order. -/
def text : AttrValue → String
  | .integer n => toString n
  | .int32 n => toString n
  | .int64 n => toString n
  | .uint64 n => toString n
  | .single x => x.text
  | .double x => x.text
  | .word s => s
  | .flag b => if b then "true" else "false"
  | .null => "<nil>"
  | .list items => Text.bracketed (texts items)
  | .record fields => mapText ((fieldTexts fields).mergeSort fun a b => a.1 ≤ b.1)
  | .table entries =>
      mapText (((entryTexts entries).mergeSort fun a b => keyBefore a.1 b.1).map fun e => e.2)
  | .layout l => l.text
  | .kind k => k.text
  | .scheme s => s.text
  | .moment t => t.text

def texts : List AttrValue → List String
  | [] => []
  | v :: rest => v.text :: texts rest

/-- The names of the fields of a record, with the texts of their values. -/
def fieldTexts : List (String × AttrValue) → List (String × String)
  | [] => []
  | (name, v) :: rest => (name, v.text) :: fieldTexts rest

/-- The keys of a table, each with its text and that of its value. -/
def entryTexts : List (AttrValue × AttrValue) → List (AttrValue × String × String)
  | [] => []
  | (k, v) :: rest => (k, k.text, v.text) :: entryTexts rest

end

/-- The integer a value stands for: an integer of either signed width, or a float equal to one of 64
bits. -/
def asInt? : AttrValue → Option Int64
  | .integer n => some n
  | .int32 n => some n.toInt64
  | .int64 n => some n
  | .double x => x.toInt? >>= word?
  | .single x => x.toInt? >>= word?
  | _ => none
where
  /-- An integer that fits in 64 bits. -/
  word? (n : Int) : Option Int64 :=
    if Int64.minValue.toInt ≤ n ∧ n ≤ Int64.maxValue.toInt then some (.ofInt n) else none

/-- The number a value stands for, an integer being rounded once. -/
def asSingle? : AttrValue → Option Single
  | .single x => some x
  | .double x => some x.toSingle
  | .integer n => some (.ofInt n.toInt)
  | .int64 n => some (.ofInt n.toInt)
  | _ => none

/-- The tag a value stands for: text, or a member of a vocabulary by its name. -/
def asWord? : AttrValue → Option String
  | .word s => some s
  | .layout l => some l.text
  | .kind k => some k.text
  | .scheme s => some s.text
  | .moment t => some t.text
  | _ => none

end AttrValue

end NetLowering

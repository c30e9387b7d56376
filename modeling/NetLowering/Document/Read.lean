import NetLowering.Attribute.Decode
import NetLowering.Document
import NetLowering.Number.Interchange

/-! # Documents from text

A document is written in YAML. `Document.parse` reads one from a text and builds its model, and
`Document.load` does so with a file. All misfits of a document are reported together, and only a
document without any is built.
-/

namespace NetLowering

namespace Document

open Yaml Decode

/-! ### The parts of a document -/

def integers : Yaml.Node → Decode (Option (List Int64)) := list "[]int" integer

def names : Yaml.Node → Decode (Option (List String)) := list "[]string" text

def tensorField : String → Option (FieldReader TensorEntry)
  | "id" => some (field text fun t x => { t with id := x })
  | "layout" => some (field text fun t x => { t with layout := x })
  | "dims" => some (field integers fun t x => { t with dims := x })
  | "values" => some (field (list "[]float64" number) fun t x => { t with values := x })
  | "fill" => some (field number fun t x => { t with fill := some x })
  | "dtype" => some (field text fun t x => { t with dtype := x })
  | _ => none

def weightField : String → Option (FieldReader WeightEntry)
  | "tensor" => some (field text fun w x => { w with tensor := x })
  | "layout" => some (field text fun w x => { w with layout := x })
  | _ => none

def paddingField : String → Option (FieldReader PaddingEntry)
  | "size" => some (field integer fun p x => { p with size := x })
  | "scheme" => some (field text fun p x => { p with scheme := x })
  | _ => none

def shapeField : String → Option (FieldReader ShapeEntry)
  | "dims" => some (field integers fun s x => { s with dims := x })
  | "layout" => some (field text fun s x => { s with layout := x })
  | _ => none

def shapes : Yaml.Node → Decode (Option (List ShapeEntry)) :=
  list "[]irfile.Shape" (record "irfile.Shape" shapeField {})

def weights : Yaml.Node → Decode (Option (List (String × WeightEntry))) :=
  named "map[string]irfile.WeightRef" (record "irfile.WeightRef" weightField {}) {}

def attributes (n : Yaml.Node) : Decode (Option (List (String × AttrValue))) :=
  named "map[string]interface \x7b\x7d" (AttrValue.decode n.depth) .null n

def nodeField : String → Option (FieldReader NodeEntry)
  | "id" => some (field text fun n x => { n with id := x })
  | "kind" => some (field text fun n x => { n with kind := x })
  | "inputs" => some (field names fun n x => { n with inputs := x })
  | "outputs" => some (field names fun n x => { n with outputs := x })
  | "weights" => some (field weights fun n x => { n with weights := x })
  | "attributes" => some (field attributes fun n x => { n with attributes := x })
  | "input_padding" =>
      some (field (record "irfile.Padding" paddingField {}) fun n x =>
        { n with inputPadding := some x })
  | "input_shapes" => some (field shapes fun n x => { n with inputShapes := x })
  | "output_shapes" => some (field shapes fun n x => { n with outputShapes := x })
  | _ => none

def documentField : String → Option (FieldReader Document)
  | "name" => some (field text fun d x => { d with name := x })
  | "tensors" =>
      some (field (list "[]irfile.Tensor" (record "irfile.Tensor" tensorField {})) fun d x =>
        { d with tensors := x })
  | "nodes" =>
      some (field (list "[]irfile.Node" (record "irfile.Node" nodeField {})) fun d x =>
        { d with nodes := x })
  | _ => none

/-! ### Reading -/

/-- Why a text gives no model. -/
inductive ReadError where
  | malformed
  | empty
  | misfits (ms : List Misfit)
  | invalid (e : Error)

/-- What is reported to people. -/
def ReadError.message : ReadError → String
  | .malformed => "decoding YAML model: malformed document"
  | .empty => "decoding YAML model: EOF"
  | .misfits ms =>
      "decoding YAML model: yaml: unmarshal errors:" ++ String.join (ms.map fun m => "\n  " ++ m.message)
  | .invalid e => e.message

/-- The document a text holds; one that stands for nothing is empty. -/
def ofText (s : String) : Except ReadError Document :=
  match Content.ofText s with
  | .malformed => .error .malformed
  | .empty => .error .empty
  | .root n =>
      match (record "irfile.File" documentField {} n).run [] with
      | none => .error .malformed
      | some (d, []) => .ok (d.getD {})
      | some (_, ms) => .error (.misfits ms)

/-- The model a text describes. -/
def parse [HalfConversion] (s : String) : Except ReadError Model := do
  let d ← ofText s
  match d.toModel with
  | .ok m => .ok m
  | .error e => .error (.invalid e)

/-! ### Files -/

/-- Why a file cannot be read. -/
inductive FileFault where
  | missing
  | notDirectory
  | isDirectory
deriving DecidableEq

/-- What is reported of a file that cannot be read. -/
def FileFault.message (path : String) : FileFault → String
  | .missing => "open " ++ path ++ ": no such file or directory"
  | .notDirectory => "open " ++ path ++ ": not a directory"
  | .isDirectory => "read " ++ path ++ ": is a directory"

/-- Why a file gives no model. -/
inductive LoadError where
  | unreadable (path : String) (fault : FileFault)
  | unusable (path : String) (e : ReadError)

/-- What is reported to people. -/
def LoadError.message : LoadError → String
  | .unreadable path fault => "reading model file " ++ Text.quote path ++ ": " ++ fault.message path
  | .unusable path e => "model file " ++ Text.quote path ++ ": " ++ e.message

/-- The model of the file at a path, among files that `read` gives. -/
def load [HalfConversion] (read : String → Except FileFault String) (path : String) : Except LoadError Model :=
  match read path with
  | .error fault => .error (.unreadable path fault)
  | .ok s =>
      match parse s with
      | .error e => .error (.unusable path e)
      | .ok m => .ok m

end Document

end NetLowering

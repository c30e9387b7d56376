import NetLowering.Text.Quoted
import NetLowering.Yaml.Node

/-! # Decoding nodes

A node is decoded into a value of a known type. What does not fit the type is noted with its line,
and decoding goes on, so that all misfits of a document are reported together. Only what makes the
document meaningless stops it: a node inside itself, a value that is not of its own tag, a merge
with something that is not a mapping.

`Decode.entries` reads the entries of a mapping. The key `<<` adds the entries of other mappings,
after the mapping's own and without those whose key has been seen.
-/

namespace NetLowering.Yaml

/-- Something in a document that does not fit where it stands. -/
inductive Misfit where
  | kind (line : Nat) (tag : String) (text : Option String) (typeName : String)
  | repeatedKey (line : Nat) (key : String) (first : Nat)
  | repeatedField (line : Nat) (field typeName : String)
  | unknownField (line : Nat) (field typeName : String)
deriving DecidableEq

namespace Misfit

/-- The text of a scalar, of which more than ten bytes are cut to seven. -/
def excerpt (text : String) : String :=
  if text.utf8ByteSize ≤ 10 then text else String.ofList (Text.takeBytes 7 text.toList) ++ "..."

/-- What is reported. -/
def message : Misfit → String
  | .kind line tag none typeName => s!"line {line}: cannot unmarshal {tag} into {typeName}"
  | .kind line tag (some text) typeName =>
      s!"line {line}: cannot unmarshal {tag} `" ++ excerpt text ++ s!"` into {typeName}"
  | .repeatedKey line key first =>
      s!"line {line}: mapping key " ++ Text.quote key ++ s!" already defined at line {first}"
  | .repeatedField line field typeName => s!"line {line}: field {field} already set in type {typeName}"
  | .unknownField line field typeName => s!"line {line}: field {field} not found in type {typeName}"

end Misfit

/-- Decoding, which collects misfits and may stop. -/
abbrev Decode := StateT (List Misfit) Option

namespace Decode

def note (ms : List Misfit) : Decode Unit := modify (· ++ ms)

def stop {α : Type} : Decode α := fun _ => none

/-! ### Keys -/

/-- What tells apart two keys of a mapping as they are written: the form and the text. -/
def writtenKey : Node → Nat × String
  | .scalar _ _ text => (0, text)
  | .sequence .. => (1, "")
  | .mapping .. => (2, "")
  | .alias _ name _ => (3, name)
  | .enclosing _ name => (3, name)

/-- The keys that are written more than once, each against all before it that are the same. -/
def repeatedKeys : List (Node × Node) → List Misfit
  | [] => []
  | (key, _) :: rest =>
      ((rest.filter fun e => writtenKey e.1 == writtenKey key).map fun e =>
        .repeatedKey e.1.line (writtenKey e.1).2 key.line) ++ repeatedKeys rest

/-- The value of a scalar, which must be of its own tag. -/
def scalarValue (tag text : String) : Decode Value :=
  match Value.ofTagged? tag text with
  | some v => pure v
  | none => stop

/-- What tells apart two keys of a mapping by their value: the tag and the text. -/
def valueIdentity (v : Value) : String × String :=
  (v.tag, match v with
    | .null => ""
    | .flag b => toString b
    | .integer n => toString n
    | .natural n => toString n
    | .number x => x.text
    | .moment t => t.text
    | .text s => s)

/-- What tells a name from other keys. -/
def textIdentity (s : String) : String × String := valueIdentity (.text s)

/-- What tells a key as it is written from other keys. -/
def keyIdentity (n : Node) : Decode (String × String) :=
  match n.target with
  | .scalar _ tag text => do pure (valueIdentity (← scalarValue tag text))
  | .sequence .. => pure ("!!seq", "")
  | .mapping .. => pure ("!!map", "")
  | _ => stop

/-! ### Mappings -/

/-- A step in reading the entries of a mapping. -/
inductive Step where
  | entry (merged : Bool) (key value : Node)
  | repeated (ms : List Misfit)
  | notMapping

mutual

/-- The steps of a mapping: its own entries, then those it merges. -/
def steps (merged : Bool) : Node → List Step
  | .mapping _ _ entries =>
      match repeatedKeys entries with
      | [] =>
          ((entries.filter fun e => !e.1.isMerge).map fun e => .entry merged e.1 e.2) ++
            mergedSteps entries
      | ms => [.repeated ms]
  | .alias _ _ n => steps merged n
  | .scalar .. | .sequence .. | .enclosing .. => [.notMapping]

/-- The steps of the mappings that entries merge. -/
def mergedSteps : List (Node × Node) → List Step
  | [] => []
  | (key, value) :: rest => (if key.isMerge then sourceSteps value else []) ++ mergedSteps rest

/-- The steps of what is merged: a mapping, or several in a sequence. -/
def sourceSteps : Node → List Step
  | .sequence _ _ items => listSteps items
  | .mapping line tag entries => steps true (.mapping line tag entries)
  | .alias _ _ n => steps true n
  | .scalar .. | .enclosing .. => [.notMapping]

def listSteps : List Node → List Step
  | [] => []
  | n :: rest => steps true n ++ listSteps rest

end

/-- Reads the entries of a mapping in order. A key that cannot be read is passed over; `none` if the
mapping repeats a key. -/
def entries {κ σ : Type} (readKey : Node → Decode (Option κ)) (identity : κ → String × String)
    (put : σ → Node → κ → Node → Decode σ) (start : σ) (n : Node) (own : List (Node × Node)) :
    Decode (Option σ) :=
  match repeatedKeys own with
  | [] => do
      let seen ← if own.any fun e => e.1.isMerge then own.mapM fun e => keyIdentity e.1 else pure []
      let (result, _) ← (steps false n).foldlM take (start, seen)
      pure (some result)
  | ms => do
      note ms
      pure none
where
  /-- Takes one step. -/
  take : σ × List (String × String) → Step → Decode (σ × List (String × String))
    | _, .notMapping => stop
    | s, .repeated ms => do
        note ms
        pure s
    | (a, seen), .entry merged key value => do
        match ← readKey key with
        | none => pure (a, seen)
        | some k =>
            if merged then
              if seen.contains (identity k) then pure (a, seen)
              else pure (← put a key k value, identity k :: seen)
            else pure (← put a key k value, seen)

/-! ### Values of a known type -/

/-- Notes that a node does not fit a type. -/
def misfit (typeName : String) : Node → Decode Unit
  | .scalar line tag text => note [.kind line tag (some text) typeName]
  | .sequence line tag _ => note [.kind line tag (if tag = "!!seq" then none else some "") typeName]
  | .mapping line tag own =>
      match repeatedKeys own with
      | [] => note [.kind line tag (if tag = "!!map" then none else some "") typeName]
      | ms => note ms
  | .alias .. | .enclosing .. => stop

/-- Reads a scalar; one that stands for nothing has no value. -/
def scalar {α : Type} (typeName : String) (read : Value → String → Option α) (n : Node) :
    Decode (Option α) :=
  match n.target with
  | .scalar line tag text => do
      match ← scalarValue tag text with
      | .null => pure none
      | v =>
          match read v text with
          | some a => pure (some a)
          | none => do
              misfit typeName (.scalar line tag text)
              pure none
  | other => do
      misfit typeName other
      pure none

/-- Text: any scalar as it is written. -/
def text : Node → Decode (Option String) := scalar "string" fun _ s => some s

/-- A number without its fraction, if it is not past 64 bits; one below all of those is the least.
-/
def truncated? (x : Double) : Option Int64 := do
  if x.isNaN then none
  else if Double.before x (.ofInt 9223372036854775808) then
    match BinaryFormat.double.truncate? x.bits.toNat with
    | some n =>
        if Int64.minValue.toInt ≤ n ∧ n ≤ Int64.maxValue.toInt then some (.ofInt n) else some .minValue
    | none => some .minValue
  else none

/-- An integer, or a number without its fraction. -/
def integer : Node → Decode (Option Int64) :=
  scalar "int" fun v _ =>
    match v with
    | .integer n => some n
    | .number x => truncated? x
    | _ => none

/-- A number. -/
def number : Node → Decode (Option Double) :=
  scalar "float64" fun v _ =>
    match v with
    | .integer n => some (.ofInt n.toInt)
    | .natural n => some (.ofInt n.toNat)
    | .number x => some x
    | _ => none

/-- A collection, where a scalar that stands for nothing is the empty one. -/
def orEmpty {α : Type} (typeName : String) (empty : α) (n : Node) : Decode (Option α) :=
  match n with
  | .scalar line tag text => do
      match ← scalarValue tag text with
      | .null => pure (some empty)
      | _ => do
          misfit typeName (.scalar line tag text)
          pure none
  | other => do
      misfit typeName other
      pure none

/-- A list of values; items that have none are left out. -/
def list {α : Type} (typeName : String) (item : Node → Decode (Option α)) (n : Node) :
    Decode (Option (List α)) :=
  match n.target with
  | .sequence _ _ items => do pure (some (← items.filterMapM item))
  | other => orEmpty typeName [] other

/-- Sets the value of a key. -/
def putEntry {κ α : Type} (same : κ → Bool) (key : κ) (value : α) : List (κ × α) → List (κ × α)
  | [] => [(key, value)]
  | e :: rest => if same e.1 then (key, value) :: rest else e :: putEntry same key value rest

/-- Values by name. A name without a value has the one of `blank`, if it is nothing that it stands
before. -/
def named {α : Type} (typeName : String) (item : Node → Decode (Option α)) (blank : α) (n : Node) :
    Decode (Option (List (String × α))) :=
  match n.target with
  | .mapping line tag own =>
      entries text textIdentity put [] (.mapping line tag own) own
  | other => orEmpty typeName [] other
where
  /-- Reads the value of a name. -/
  put (fields : List (String × α)) (_ : Node) (name : String) (value : Node) :
      Decode (List (String × α)) := do
    match ← item value with
    | some a => pure (putEntry (· == name) name a fields)
    | none => pure (if value.isNull then putEntry (· == name) name blank fields else fields)

/-- How a field of a record is read into it. -/
abbrev FieldReader (α : Type) := α → Node → Decode α

/-- A field that is set to the value that is read, if there is one. -/
def field {α β : Type} (read : Node → Decode (Option β)) (set : α → β → α) : FieldReader α :=
  fun a n => do
    match ← read n with
    | some b => pure (set a b)
    | none => pure a

/-- A record, of which each field is known by name. -/
def record {α : Type} (typeName : String) (fields : String → Option (FieldReader α)) (blank : α)
    (n : Node) : Decode (Option α) :=
  match n.target with
  | .mapping line tag own => do
      let read ← entries text textIdentity put (blank, []) (.mapping line tag own) own
      pure (read.map Prod.fst)
  | .scalar line tag text => do
      match ← scalarValue tag text with
      | .null => pure none
      | _ => do
          misfit typeName (.scalar line tag text)
          pure none
  | other => do
      misfit typeName other
      pure none
where
  /-- Reads one field. -/
  put (s : α × List String) (key : Node) (name : String) (value : Node) : Decode (α × List String) := do
    match fields name with
    | none =>
        note [.unknownField key.line name typeName]
        pure s
    | some read =>
        if s.2.contains name then
          note [.repeatedField key.line name typeName]
          pure s
        else pure (← read s.1 value, name :: s.2)

end Decode

end NetLowering.Yaml

import NetLowering.Yaml.Token.Scan
import NetLowering.Yaml.Value

/-! # Nodes of a file

A file holds documents, and a document a tree of scalars, sequences and mappings. A node may be
named by an anchor and stand elsewhere by an alias. `Content.ofText` reads the first document of a
text.
-/

namespace NetLowering.Yaml

/-- A node, with its line and tag. An alias holds the node it stands for. Inside that node itself it
holds it once more, and inside that copy it is only known to stand for something around it. -/
inductive Node where
  | scalar (line : Nat) (tag : String) (text : String)
  | sequence (line : Nat) (tag : String) (items : List Node)
  | mapping (line : Nat) (tag : String) (entries : List (Node × Node))
  | alias (line : Nat) (name : String) (target : Node)
  | enclosing (line : Nat) (name : String)

namespace Node

def line : Node → Nat
  | .scalar line .. | .sequence line .. | .mapping line .. | .alias line .. | .enclosing line .. => line

/-- The node itself, or the one an alias stands for. -/
def target : Node → Node
  | .alias _ _ n => n
  | n => n

def tag : Node → String
  | .scalar _ tag _ | .sequence _ tag _ | .mapping _ tag _ => tag
  | .alias _ _ n => n.tag
  | .enclosing .. => ""

def isNull (n : Node) : Bool := n.tag == "!!null"

/-- Whether a key asks for the entries of other mappings. -/
def isMerge : Node → Bool
  | .scalar _ tag text => tag == "!!merge" && text == "<<"
  | _ => false

def empty (line : Nat) : Node := .scalar line "!!null" ""

/-- A scalar with the tag it was given, or the one its form gives it. -/
def ofScalar (line : Nat) (given : Option String) (text : String) (plain : Bool) : Node :=
  let tag :=
    match given with
    | some tag => tag
    | none => if !plain then "!!str" else if text = "<<" then "!!merge" else (Value.ofPlain text).tag
  .scalar line tag text

mutual

def depth : Node → Nat
  | .scalar .. | .enclosing .. => 1
  | .sequence _ _ items => itemsDepth items + 1
  | .mapping _ _ entries => entriesDepth entries + 1
  | .alias _ _ n => n.depth + 1

/-- How deep the deepest of some nodes is nested. -/
def itemsDepth : List Node → Nat
  | [] => 0
  | n :: rest => max n.depth (itemsDepth rest)

/-- How deep the deepest of the keys and values of entries is nested. -/
def entriesDepth : List (Node × Node) → Nat
  | [] => 0
  | (key, value) :: rest => max (max key.depth value.depth) (entriesDepth rest)

end

mutual

/-- The node with each alias of `name` that stands for something around it standing for `whole`. -/
def unfold (name : String) (whole : Node) : Node → Node
  | .scalar line tag text => .scalar line tag text
  | .sequence line tag items => .sequence line tag (unfoldItems name whole items)
  | .mapping line tag entries => .mapping line tag (unfoldEntries name whole entries)
  | .alias line other n => .alias line other n
  | .enclosing line other => if other = name then .alias line other whole else .enclosing line other

def unfoldItems (name : String) (whole : Node) : List Node → List Node
  | [] => []
  | n :: rest => unfold name whole n :: unfoldItems name whole rest

def unfoldEntries (name : String) (whole : Node) : List (Node × Node) → List (Node × Node)
  | [] => []
  | (key, value) :: rest =>
      (unfold name whole key, unfold name whole value) :: unfoldEntries name whole rest

end

end Node

/-! ### Reading nodes from tokens -/

/-- Tokens not yet read, and the anchors seen, each with its node once that is complete. -/
structure Feed where
  stream : TokenStream
  anchors : List (String × Option Node) := []

/-- Reading from a feed, which fails where a text is malformed. -/
abbrev Reader := StateT Feed Option

namespace Reader

/-- The next token. Two more must be readable after it, unless the text ends first. -/
def peek : Reader Token := do
  let s := (← get).stream
  if s.complete then
    match s.tokens with
    | t :: _ => pure t
    | [] => pure ⟨.streamEnd, 0, 0⟩
  else
    match s.tokens with
    | t :: _ :: _ :: _ => pure t
    | _ => failure

def skip : Reader Unit :=
  modify fun f => { f with stream := { f.stream with tokens := f.stream.tokens.tail } }

/-- Passes the next token and returns the one after it. -/
def next : Reader Token := do
  skip
  peek

/-- Keeps a node, or the fact that it is being read, under the name of its anchor. -/
def keep (anchor : Option String) (n : Option Node) : Reader Unit :=
  match anchor with
  | none => pure ()
  | some name => modify fun f => { f with anchors := (name, n) :: f.anchors }

/-- The node an alias stands for. -/
def aliased (line : Nat) (name : String) : Reader Node := do
  match (← get).anchors.lookup name with
  | none => failure
  | some none => pure (.enclosing line name)
  | some (some n) => pure (.alias line name n)

/-- What stands before a node: its anchor and its tag, in either order. -/
structure Properties where
  anchor : Option String := none
  tag : Option String := none

/-- The tag that asks for a kind, if there is one. -/
def Properties.given (p : Properties) : Option String := p.tag.filter (· ≠ "!")

/-- The tag of a node that is given none has the tag of its form. -/
def Properties.tagOr (p : Properties) (form : String) : String := p.given.getD form

/-- Whether something stands before a node. -/
def Properties.isSome (p : Properties) : Bool := p.anchor.isSome || p.tag.isSome

/-- Reads an anchor and a tag, and returns the token after them. -/
def properties : Reader (Properties × Token) := do
  let t ← peek
  match t.kind with
  | .anchor name =>
      let t ← next
      match t.kind with
      | .tag tag => pure (⟨some name, some tag⟩, ← next)
      | _ => pure (⟨some name, none⟩, t)
  | .tag tag =>
      let t ← next
      match t.kind with
      | .anchor name => pure (⟨some name, some tag⟩, ← next)
      | _ => pure (⟨none, some tag⟩, t)
  | _ => pure ({}, t)

/-- Where a node stands: it may be a block only outside brackets, and a block of items may be at the
column of the mapping around it as a key or a value of that. -/
inductive Place where
  | flow
  | block
  | entry
deriving DecidableEq

mutual

def node : Nat → Place → Reader Node
  | 0, _ => failure
  | fuel + 1, place => do
      let first ← peek
      match first.kind with
      | .alias name =>
          skip
          aliased first.line name
      | _ =>
          let (p, t) ← properties
          keep p.anchor none
          let n ← content fuel place first.line p t
          match p.anchor with
          | none => pure n
          | some name =>
              let unfolded := n.unfold name n
              keep p.anchor (some unfolded)
              pure unfolded

/-- Reads what a node holds, after its properties. -/
def content : Nat → Place → Nat → Properties → Token → Reader Node
  | 0, _, _, _, _ => failure
  | fuel + 1, place, line, p, t =>
      match t.kind with
      | .scalar text plain => do
          skip
          pure (.ofScalar line p.given text plain)
      | .flowSequence => do
          skip
          pure (.sequence line (p.tagOr "!!seq") (← flowItems fuel true))
      | .flowMapping => do
          skip
          pure (.mapping line (p.tagOr "!!map") (← flowEntries fuel true))
      | .item =>
          if place = .entry then do pure (.sequence line (p.tagOr "!!seq") (← looseItems fuel))
          else if p.isSome then pure (.ofScalar line p.given "" true)
          else failure
      | .blockSequence => do
          guard (place ≠ .flow)
          skip
          pure (.sequence line (p.tagOr "!!seq") (← blockItems fuel))
      | .blockMapping => do
          guard (place ≠ .flow)
          skip
          pure (.mapping line (p.tagOr "!!map") (← blockEntries fuel))
      | _ =>
          if p.isSome then pure (.ofScalar line p.given "" true)
          else failure

/-- Reads a node, or an empty one if the next token is one of `ends`. -/
def nodeUnless : Nat → Place → Nat → List TokenKind → Reader Node
  | 0, _, _, _ => failure
  | fuel + 1, place, line, ends => do
      let t ← peek
      if ends.contains t.kind then pure (.empty line) else node fuel place

def blockItems : Nat → Reader (List Node)
  | 0 => failure
  | fuel + 1 => do
      let t ← peek
      match t.kind with
      | .item =>
          skip
          let n ← nodeUnless fuel .block t.endLine [.item, .blockEnd]
          pure (n :: (← blockItems fuel))
      | .blockEnd =>
          skip
          pure []
      | _ => failure

/-- Reads items at the column of the mapping around them. -/
def looseItems : Nat → Reader (List Node)
  | 0 => failure
  | fuel + 1 => do
      let t ← peek
      match t.kind with
      | .item =>
          skip
          let n ← nodeUnless fuel .block t.endLine [.item, .key, .value, .blockEnd]
          pure (n :: (← looseItems fuel))
      | _ => pure []

def blockEntries : Nat → Reader (List (Node × Node))
  | 0 => failure
  | fuel + 1 => do
      let t ← peek
      match t.kind with
      | .key =>
          skip
          let key ← nodeUnless fuel .entry t.endLine [.key, .value, .blockEnd]
          let value ← blockValue fuel
          pure ((key, value) :: (← blockEntries fuel))
      | .blockEnd =>
          skip
          pure []
      | _ => failure

/-- Reads the value of an entry of a block. -/
def blockValue : Nat → Reader Node
  | 0 => failure
  | fuel + 1 => do
      let t ← peek
      match t.kind with
      | .value =>
          skip
          nodeUnless fuel .entry t.endLine [.key, .value, .blockEnd]
      | _ => pure (.empty t.line)

def flowItems : Nat → Bool → Reader (List Node)
  | 0, _ => failure
  | fuel + 1, first => do
      let t ← peek
      let t ←
        if first || t.kind = .flowSequenceEnd then pure t
        else if t.kind = .comma then next
        else failure
      match t.kind with
      | .flowSequenceEnd =>
          skip
          pure []
      | .key =>
          let pair ← flowPair fuel
          pure (pair :: (← flowItems fuel false))
      | _ =>
          let n ← node fuel .flow
          pure (n :: (← flowItems fuel false))

/-- Reads an item that is a mapping of one entry. -/
def flowPair : Nat → Reader Node
  | 0 => failure
  | fuel + 1 => do
      let mark ← peek
      let t ← next
      let key ←
        if [TokenKind.value, .comma, .flowSequenceEnd].contains t.kind then do
          skip
          pure (Node.empty t.endLine)
        else node fuel .flow
      let value ← flowValue fuel .flowSequenceEnd
      pure (.mapping mark.line "!!map" [(key, value)])

/-- Reads the value of an entry between brackets that end with `close`. -/
def flowValue : Nat → TokenKind → Reader Node
  | 0, _ => failure
  | fuel + 1, close => do
      let t ← peek
      match t.kind with
      | .value =>
          let t ← next
          nodeUnless fuel .flow t.line [.comma, close]
      | _ => pure (.empty t.line)

def flowEntries : Nat → Bool → Reader (List (Node × Node))
  | 0, _ => failure
  | fuel + 1, first => do
      let t ← peek
      let t ←
        if first || t.kind = .flowMappingEnd then pure t
        else if t.kind = .comma then next
        else failure
      match t.kind with
      | .flowMappingEnd =>
          skip
          pure []
      | .key =>
          let t ← next
          let key ← nodeUnless fuel .flow t.line [.value, .comma, .flowMappingEnd]
          let value ← flowValue fuel .flowMappingEnd
          pure ((key, value) :: (← flowEntries fuel false))
      | _ =>
          let key ← node fuel .flow
          let after ← peek
          pure ((key, .empty after.line) :: (← flowEntries fuel false))

end

/-- Reads the root of the first document, or `none` if the text holds none. -/
def root (fuel : Nat) : Reader (Option Node) := do
  let t ← peek
  let marked := t.kind = .versionDirective
  let t ← if marked then next else pure t
  match t.kind with
  | .streamEnd => if marked then failure else pure none
  | .documentStart =>
      let t ← next
      let n ← nodeUnless fuel .block t.line [.versionDirective, .documentStart, .documentEnd, .streamEnd]
      let _ ← peek
      pure (some n)
  | _ =>
      if marked then failure
      else
        let n ← node fuel .block
        let _ ← peek
        pure (some n)

end Reader

/-- What a text holds. -/
inductive Content where
  | malformed
  | empty
  | root (n : Node)

/-- The first document of a text. Reading a node calls no more than three functions for each of its
tokens. -/
def Content.ofText (text : String) : Content :=
  let stream := TokenStream.ofText text
  match (Reader.root (4 * stream.tokens.length + 8)).run { stream } with
  | none => .malformed
  | some (none, _) => .empty
  | some (some n, _) => .root n

end NetLowering.Yaml

import NetLowering.Yaml.Token
import NetLowering.Yaml.Token.Text

/-! # The tokens of a text

`TokenStream.ofText` reads a whole text. Two things are not decided by the characters next to them.
The start and end of a block follow from the columns of its lines, so the columns of the open blocks
are kept. And what stands before a colon turns out to be a key only there, so for each level of
brackets the place of a possible key is kept, and the token that marks it is put there once the
colon is seen.
-/

namespace NetLowering.Yaml

/-- A place where a key may start. It must turn out to be one if it is `required`, as it is on a
line at the column of a block. -/
structure KeyPlace where
  required : Bool
  position : Nat
  index : Nat
  line : Nat
  column : Nat

/-- A text read in part. -/
structure Scan where
  cursor : Cursor
  tokens : Array Token := #[]
  /-- The column of the innermost block, -1 outside all. -/
  indent : Int := -1
  /-- The columns of the blocks around it, innermost first. -/
  outer : List Int := []
  /-- The last possible key of each level of brackets, innermost first; the last level is outside
  all. -/
  keys : List (Option KeyPlace) := [none]
  keyAllowed : Bool := true

namespace Scan

def inFlow (s : Scan) : Bool := s.keys.length > 1

/-- Adds a token of no length. -/
def mark (s : Scan) (kind : TokenKind) : Scan :=
  { s with tokens := s.tokens.push ⟨kind, s.cursor.line, s.cursor.line⟩ }

/-- Adds a token that ends at a later place. -/
def push (s : Scan) (kind : TokenKind) (after : Cursor) : Scan :=
  { s with tokens := s.tokens.push ⟨kind, s.cursor.line, after.line⟩, cursor := after }

/-! ### Blocks -/

/-- Opens a block at a column that is right of the innermost one, at a position among the tokens. -/
def openBlock (s : Scan) (kind : TokenKind) (column line position : Nat) : Scan :=
  if s.inFlow || s.indent ≥ column then s
  else
    { s with
      tokens := s.tokens.insertIdxIfInBounds position ⟨kind, line, line⟩
      indent := column
      outer := s.indent :: s.outer }

def openBlockHere (s : Scan) (kind : TokenKind) : Scan :=
  s.openBlock kind s.cursor.column s.cursor.line s.tokens.size

/-- Closes blocks right of a column: the column left, those around it, and the tokens. -/
def closed (column : Int) (line : Nat) : Int → List Int → Array Token → Int × List Int × Array Token
  | indent, [], tokens => (indent, [], tokens)
  | indent, next :: outer, tokens =>
      if indent > column then closed column line next outer (tokens.push ⟨.blockEnd, line, line⟩)
      else (indent, next :: outer, tokens)

def closeBlocks (s : Scan) (column : Int) : Scan :=
  if s.inFlow then s
  else
    let (indent, outer, tokens) := closed column s.cursor.line s.indent s.outer s.tokens
    { s with indent, outer, tokens }

/-! ### Possible keys -/

/-- Forgets the possible key of this level, unless it is required. -/
def dropKey (s : Scan) : Option Scan :=
  match s.keys with
  | some k :: keys => if k.required then none else some { s with keys := none :: keys }
  | _ => some s

/-- Notes that a key may start here. -/
def noteKey (s : Scan) : Option Scan :=
  if !s.keyAllowed then some s
  else do
    let s ← s.dropKey
    let place : KeyPlace :=
      { required := !s.inFlow && s.indent == s.cursor.column
        position := s.tokens.size
        index := s.cursor.index
        line := s.cursor.line
        column := s.cursor.column }
    some { s with keys := some place :: s.keys.tail }

/-- Whether a key must have ended before a place: it is on one line and not longer than 1024
characters. -/
def KeyPlace.isPast (k : KeyPlace) (c : Cursor) : Bool :=
  k.line < c.line || k.index + 1024 < c.index

/-- The possible key of this level that can still be one; it is an error if a required one cannot.
-/
def openKey (s : Scan) : Option (Option KeyPlace) :=
  match s.keys with
  | some k :: _ =>
      if !KeyPlace.isPast k s.cursor then some (some k)
      else if k.required then none
      else some none
  | _ => some none

/-! ### Single tokens -/

/-- A mark between documents. -/
def documentMark (s : Scan) (kind : TokenKind) : Option Scan := do
  let s ← (s.closeBlocks (-1)).dropKey
  some { s.push kind (s.cursor.advance 3) with keyAllowed := false }

/-- A directive; the only one known is the version, and the only version 1.1. -/
def directive (s : Scan) : Option Scan := do
  let s ← (s.closeBlocks (-1)).dropKey
  guard (s.cursor.rest.take 5 == "%YAML".toList)
  let c := s.cursor.advance 5
  guard ((c.rest.head?.map isBlank).getD false)
  let c := c.pass isBlank
  guard (c.rest.take 3 == "1.1".toList)
  let c := (c.advance 3).pass isBlank
  let c := if c.sees '#' then c.pass fun x => !isBreak x else c
  guard (atLineEnd c.rest)
  some { s.push .versionDirective c with keyAllowed := false }

/-- An opening bracket, which may start a key and be followed by one. -/
def openFlow (s : Scan) (kind : TokenKind) : Option Scan := do
  let s ← s.noteKey
  some { s.push kind s.cursor.step with keys := none :: s.keys, keyAllowed := true }

def closeFlow (s : Scan) (kind : TokenKind) : Option Scan := do
  let s ← s.dropKey
  let keys := if s.inFlow then s.keys.tail else s.keys
  some { s.push kind s.cursor.step with keys, keyAllowed := false }

def comma (s : Scan) : Option Scan := do
  let s ← s.dropKey
  some { s.push .comma s.cursor.step with keyAllowed := true }

def item (s : Scan) : Option Scan := do
  guard (s.inFlow || s.keyAllowed)
  let s ← (s.openBlockHere .blockSequence).dropKey
  some { s.push .item s.cursor.step with keyAllowed := true }

def explicitKey (s : Scan) : Option Scan := do
  guard (s.inFlow || s.keyAllowed)
  let s ← (s.openBlockHere .blockMapping).dropKey
  some { s.push .key s.cursor.step with keyAllowed := !s.inFlow }

/-- A colon before a value: of the key before it, if one can have ended here. -/
def value (s : Scan) : Option Scan := do
  match ← s.openKey with
  | some k =>
      let keyed := { s with tokens := s.tokens.insertIdxIfInBounds k.position ⟨.key, k.line, k.line⟩ }
      let opened := keyed.openBlock .blockMapping k.column k.line k.position
      some { opened.push .value s.cursor.step with keys := none :: s.keys.tail, keyAllowed := false }
  | none =>
      guard (s.inFlow || s.keyAllowed)
      let opened := s.openBlockHere .blockMapping
      some { opened.push .value s.cursor.step with keys := none :: s.keys.tail, keyAllowed := !s.inFlow }

/-- Whether a character may be part of a name of an anchor or tag handle. -/
def isNameChar (c : Char) : Bool := c.isAlphanum || c == '_' || c == '-'

/-- An anchor or alias. -/
def named (s : Scan) (kind : String → TokenKind) : Option Scan := do
  let s ← s.noteKey
  let c := s.cursor.step
  let name := c.span isNameChar
  let c := c.advance name.length
  guard (!name.isEmpty && (atGap c.rest || c.rest.head?.any ("?:,]\x7d%@\x60".toList.contains ·)))
  some { s.push (kind (String.ofList name)) c with keyAllowed := false }

def isTagChar (c : Char) : Bool := isNameChar c || ";/?:@&=+$.!~*'()%".toList.contains c

/-- The short form of a tag: those of the core are written with two marks. -/
def shortTag (tag : String) : String :=
  if tag.startsWith "tag:yaml.org,2002:" then "!!" ++ (tag.drop 18).toString else tag

/-- The tag that is written with the given characters after its mark. -/
def tagOf (cs : List Char) : Option String :=
  match cs with
  | '!' :: suffix => if suffix.isEmpty then none else some ("!!" ++ String.ofList suffix)
  | _ =>
      if (cs.dropWhile isNameChar).head? == some '!' then none
      else some ("!" ++ String.ofList cs)

def tag (s : Scan) : Option Scan := do
  let s ← s.noteKey
  let c := s.cursor.step
  if c.sees '<' then
    let name := c.step.span fun x => isTagChar x || ",[]".toList.contains x
    let c := c.step.advance name.length
    guard (!name.isEmpty && c.sees '>' && atGap c.step.rest)
    some { s.push (.tag (shortTag (String.ofList name))) c.step with keyAllowed := false }
  else
    let name := c.span isTagChar
    let c := c.advance name.length
    guard (atGap c.rest)
    let name ← tagOf name
    some { s.push (.tag name) c with keyAllowed := false }

def quoted (s : Scan) (single : Bool) : Option Scan := do
  let s ← s.noteKey
  let (text, c) ← quotedText single s.cursor
  some { s.push (.scalar (String.ofList text) false) c with keyAllowed := false }

/-- A plain scalar. A key may follow if it ends with its line. -/
def plain (s : Scan) : Option Scan := do
  let s ← s.noteKey
  let p ← plainText s.inFlow (s.indent + 1).toNat s.cursor
  some { s.push (.scalar (String.ofList p.text) true) p.cursor with keyAllowed := p.endsLine }

/-- A scalar as an indented block. -/
def block (s : Scan) (literal : Bool) : Option Scan := do
  let s ← s.dropKey
  let (text, c) ← blockText literal s.indent s.cursor
  some { s.push (.scalar (String.ofList text) false) c with keyAllowed := true }

/-- Whether a plain scalar may start with a character, before the given rest. -/
def startsPlain (inFlow : Bool) (c : Char) (rest : List Char) : Bool :=
  match c with
  | '-' => !atGap rest
  | '?' | ':' => !inFlow && !atGap rest
  | _ => !(isGap c || ",[]\x7b\x7d#&*!|>'\"%@\x60".toList.contains c)

/-- The token that starts here. -/
def token (s : Scan) : Option Scan :=
  match s.cursor.rest with
  | [] => none
  | c :: rest =>
      if c == '%' && s.cursor.column == 0 then s.directive
      else if s.cursor.atMark '-' then s.documentMark .documentStart
      else if s.cursor.atMark '.' then s.documentMark .documentEnd
      else if c == '[' then s.openFlow .flowSequence
      else if c == '\x7b' then s.openFlow .flowMapping
      else if c == ']' then s.closeFlow .flowSequenceEnd
      else if c == '\x7d' then s.closeFlow .flowMappingEnd
      else if c == ',' then s.comma
      else if c == '-' && atGap rest then s.item
      else if c == '?' && (s.inFlow || atGap rest) then s.explicitKey
      else if c == ':' && (s.inFlow || atGap rest) then s.value
      else if c == '*' then s.named .alias
      else if c == '&' then s.named .anchor
      else if c == '!' then s.tag
      else if c == '|' && !s.inFlow then s.block true
      else if c == '>' && !s.inFlow then s.block false
      else if c == '\x27' then s.quoted true
      else if c == '"' then s.quoted false
      else if startsPlain s.inFlow c rest then s.plain
      else none

/-! ### The whole text -/

/-- Passes blanks, comments and line ends. Outside brackets a key may start on a new line, and where
one may, a tab is not passed. -/
def passGaps : Nat → Scan → Scan
  | 0, s => s
  | fuel + 1, s =>
      let c := if s.cursor.column == 0 && s.cursor.sees '\ufeff' then s.cursor.step else s.cursor
      let c := c.pass fun x => x == ' ' || (x == '\t' && (s.inFlow || !s.keyAllowed))
      let c := if c.sees '#' then c.pass fun x => !isBreak x else c
      if c.breakHere.isEmpty then { s with cursor := c }
      else passGaps fuel { s with cursor := c.passBreak, keyAllowed := s.keyAllowed || !s.inFlow }

/-- The end of the text. -/
def finish (s : Scan) : Option Scan := do
  let s ← (s.closeBlocks (-1)).dropKey
  some (s.mark .streamEnd)

/-- Reads tokens up to the end of the text, or to what starts none; each takes one character or
more. -/
def run : Nat → Scan → TokenStream
  | 0, s => ⟨s.tokens.toList, false⟩
  | fuel + 1, s =>
      let next := passGaps (s.cursor.rest.length + 1) s
      let next := next.closeBlocks next.cursor.column
      let read := if next.cursor.rest.isEmpty then next.finish else next.token
      match read with
      | none => ⟨s.tokens.toList, false⟩
      | some t => if next.cursor.rest.isEmpty then ⟨t.tokens.toList, true⟩ else run fuel t

end Scan

/-- The tokens of a text. A byte order mark before it is passed. -/
def TokenStream.ofText (text : String) : TokenStream :=
  let cs := match text.toList with
    | '\ufeff' :: rest => rest
    | cs => cs
  if cs.all isAllowed then Scan.run (cs.length + 1) { cursor := { rest := cs } } else ⟨[], false⟩

end NetLowering.Yaml

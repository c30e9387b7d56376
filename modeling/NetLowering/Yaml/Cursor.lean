/-! # Places in a text

A `Cursor` is the unread part of a text with the line and column it starts at. Lines end at a line
feed, a carriage return, both together, a next line, a line separator or a paragraph separator.
-/

namespace NetLowering.Yaml

def isBlank (c : Char) : Bool := c == ' ' || c == '\t'

def isBreak (c : Char) : Bool :=
  c == '\n' || c == '\r' || c == '\u0085' || c == '\u2028' || c == '\u2029'

/-- Whether a character is blank or ends a line. -/
def isGap (c : Char) : Bool := isBlank c || isBreak c

/-- Whether a text starts with a gap or is empty. -/
def atGap : List Char → Bool
  | [] => true
  | c :: _ => isGap c

/-- Whether a text starts with the end of a line or is empty. -/
def atLineEnd : List Char → Bool
  | [] => true
  | c :: _ => isBreak c

/-- Whether a character may occur in a text at all. -/
def isAllowed (c : Char) : Bool :=
  c == '\t' || c == '\n' || c == '\r' || (' ' ≤ c && c ≤ '~') || c == '\u0085' ||
    ('\u00a0' ≤ c && c ≤ '\ufffd') || 0x10000 ≤ c.toNat

/-- The line ends of a text in order. All but the two separators count as a line feed. -/
def lineBreaks : List Char → List Char
  | [] => []
  | '\r' :: '\n' :: rest => '\n' :: lineBreaks rest
  | c :: rest =>
      if c == '\u2028' || c == '\u2029' then c :: lineBreaks rest
      else if isBreak c then '\n' :: lineBreaks rest
      else lineBreaks rest

/-- The text a gap inside a scalar stands for: blanks within a line for themselves, one end of a
line for a space, and several for all but the first. -/
def foldGap (gap : List Char) : List Char :=
  match lineBreaks gap with
  | [] => gap
  | first :: others =>
      if first == '\n' then (if others.isEmpty then [' '] else others)
      else first :: others

/-- A place in a text: what is unread, and where that starts. -/
structure Cursor where
  rest : List Char
  index : Nat := 0
  line : Nat := 1
  column : Nat := 0

namespace Cursor

/-- The place after the next character. -/
def step (c : Cursor) : Cursor :=
  match c.rest with
  | [] => c
  | x :: rest =>
      if isBreak x && !(x == '\r' && rest.head? == some '\n') then ⟨rest, c.index + 1, c.line + 1, 0⟩
      else ⟨rest, c.index + 1, c.line, c.column + 1⟩

/-- The place after `n` characters. -/
def advance (c : Cursor) : Nat → Cursor
  | 0 => c
  | n + 1 => c.step.advance n

/-- The place after the end of the line that is next, if one is. -/
def passBreak (c : Cursor) : Cursor :=
  match c.rest with
  | '\r' :: '\n' :: _ => c.advance 2
  | x :: _ => if isBreak x then c.step else c
  | [] => c

/-- The end of the line that is next, as `lineBreaks` gives it. -/
def breakHere (c : Cursor) : List Char := lineBreaks (c.rest.take 1)

/-- The characters next that satisfy `p`. -/
def span (c : Cursor) (p : Char → Bool) : List Char := c.rest.takeWhile p

/-- The place after the characters next that satisfy `p`. -/
def pass (c : Cursor) (p : Char → Bool) : Cursor := c.advance (c.span p).length

def sees (c : Cursor) (x : Char) : Bool := c.rest.head? == some x

/-- Whether a line starts here with three of `x` alone. -/
def atMark (c : Cursor) (x : Char) : Bool :=
  c.column == 0 && c.rest.take 3 == [x, x, x] && atGap (c.rest.drop 3)

/-- Whether a line starts here that ends a document or begins one. -/
def atDocumentMark (c : Cursor) : Bool := c.atMark '-' || c.atMark '.'

end Cursor

end NetLowering.Yaml

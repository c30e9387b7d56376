import NetLowering.Yaml.Cursor

/-! # The texts of scalars

A scalar is written plain, in single or double quotes, or as an indented block. Each form has its
own rule for the end of the scalar and for what its characters stand for. The readers below return
the text a scalar stands for with the place after it, and `none` for a scalar that is not well
formed.
-/

namespace NetLowering.Yaml

/-! ### Plain scalars -/

/-- Whether a character has a meaning of its own inside brackets. -/
def isFlowMark (c : Char) : Bool :=
  c == ',' || c == '?' || c == '[' || c == ']' || c == '\x7b' || c == '\x7d'

/-- The characters of a plain scalar up to a gap or to what ends it. -/
def plainRun (inFlow : Bool) : List Char → List Char
  | [] => []
  | c :: rest =>
      if isGap c || (c == ':' && atGap rest) || (inFlow && isFlowMark c) then []
      else c :: plainRun inFlow rest

/-- Whether a tab stands before column `indent` on a line that starts inside a gap. -/
def tabIndents (indent : Nat) : Bool → Nat → List Char → Bool
  | _, _, [] => false
  | fresh, column, c :: rest =>
      if isBreak c then tabIndents indent true 0 rest
      else (fresh && c == '\t' && column < indent) || tabIndents indent fresh (column + 1) rest

/-- A plain scalar that was read. -/
structure PlainText where
  text : List Char
  cursor : Cursor
  /-- Whether the gap after the scalar ends a line. -/
  endsLine : Bool

/-- The rest of a plain scalar, after `text` and a gap. On later lines it stands at column `indent`
or past it, unless it is inside brackets. -/
def plainRest (inFlow : Bool) (indent : Nat) : Nat → Cursor → List Char → List Char → Option PlainText
  | 0, c, text, gap => some ⟨text, c, gap.any isBreak⟩
  | fuel + 1, c, text, gap =>
      if c.atDocumentMark || c.sees '#' then some ⟨text, c, gap.any isBreak⟩
      else
        match plainRun inFlow c.rest with
        | [] => some ⟨text, c, gap.any isBreak⟩
        | x :: run =>
            let text := text ++ foldGap gap ++ x :: run
            let c := c.advance (run.length + 1)
            let gap := c.span isGap
            if tabIndents indent false c.column gap then none
            else
              let next := c.advance gap.length
              if gap.isEmpty || (!inFlow && next.column < indent) then
                some ⟨text, next, gap.any isBreak⟩
              else plainRest inFlow indent fuel next text gap

/-- The plain scalar that starts here. -/
def plainText (inFlow : Bool) (indent : Nat) (c : Cursor) : Option PlainText :=
  plainRest inFlow indent c.rest.length c [] []

/-! ### Quoted scalars -/

def hexDigit? (c : Char) : Option Nat :=
  if c.isDigit then some (c.toNat - 48)
  else if 'a' ≤ c ∧ c ≤ 'f' then some (c.toNat - 87)
  else if 'A' ≤ c ∧ c ≤ 'F' then some (c.toNat - 55)
  else none

def hexNumber? (cs : List Char) : Option Nat :=
  cs.foldlM (fun n c => (hexDigit? c).map (16 * n + ·)) 0

/-- The character of an escape of `width` hexadecimal digits. -/
def escapedCode? (width : Nat) (cs : List Char) : Option Char := do
  let digits := cs.take width
  guard (digits.length = width)
  let n ← hexNumber? digits
  if n.isValidChar then some (.ofNat n) else none

/-- The character an escape stands for, and how many characters follow the backslash. -/
def escaped? : List Char → Option (Char × Nat)
  | [] => none
  | c :: rest =>
      match c with
      | '0' => some ('\x00', 1)
      | 'a' => some ('\x07', 1)
      | 'b' => some ('\x08', 1)
      | 't' | '\t' => some ('\t', 1)
      | 'n' => some ('\n', 1)
      | 'v' => some ('\x0b', 1)
      | 'f' => some ('\x0c', 1)
      | 'r' => some ('\r', 1)
      | 'e' => some ('\x1b', 1)
      | ' ' => some (' ', 1)
      | '"' => some ('"', 1)
      | '\x27' => some ('\x27', 1)
      | '\\' => some ('\\', 1)
      | 'N' => some ('\u0085', 1)
      | '_' => some ('\u00a0', 1)
      | 'L' => some ('\u2028', 1)
      | 'P' => some ('\u2029', 1)
      | 'x' => (escapedCode? 2 rest).map (·, 3)
      | 'u' => (escapedCode? 4 rest).map (·, 5)
      | 'U' => (escapedCode? 8 rest).map (·, 9)
      | _ => none

/-- The rest of a quoted scalar after `text`, which is kept last character first. -/
def quotedRest (single : Bool) : Nat → Cursor → List Char → Option (List Char × Cursor)
  | 0, _, _ => none
  | fuel + 1, c, text =>
      if c.atDocumentMark then none
      else
        match c.rest with
        | [] => none
        | '\x27' :: rest =>
            if !single then quotedRest single fuel c.step ('\x27' :: text)
            else if rest.head? == some '\x27' then quotedRest single fuel (c.advance 2) ('\x27' :: text)
            else some (text.reverse, c.step)
        | '"' :: _ =>
            if single then quotedRest single fuel c.step ('"' :: text)
            else some (text.reverse, c.step)
        | '\\' :: rest =>
            if single then quotedRest single fuel c.step ('\\' :: text)
            else if (rest.head?.map isBreak).getD false then
              let c := c.step.passBreak
              let gap := c.span isGap
              quotedRest single fuel (c.advance gap.length) ((lineBreaks gap).reverse ++ text)
            else do
              let (x, width) ← escaped? rest
              quotedRest single fuel (c.advance (width + 1)) (x :: text)
        | x :: _ =>
            if isGap x then
              let gap := c.span isGap
              quotedRest single fuel (c.advance gap.length) ((foldGap gap).reverse ++ text)
            else quotedRest single fuel c.step (x :: text)

def quotedText (single : Bool) (c : Cursor) : Option (List Char × Cursor) :=
  quotedRest single (c.rest.length + 1) c.step []

/-! ### Block scalars -/

/-- What becomes of the line ends after a block. -/
inductive Chomping where
  | strip
  | clip
  | keep

/-- The chomping a sign asks for. -/
def Chomping.ofSign? : Char → Option Chomping
  | '+' => some .keep
  | '-' => some .strip
  | _ => none

/-- The marks after the sign of a block: chomping, indentation, and how many characters they take.
-/
def blockMarks (cs : List Char) : Option (Chomping × Option Nat × Nat) :=
  match cs with
  | [] => some (.clip, none, 0)
  | a :: rest =>
      match Chomping.ofSign? a, rest with
      | some chomping, b :: _ =>
          if b == '0' then none
          else if b.isDigit then some (chomping, some (b.toNat - 48), 2)
          else some (chomping, none, 1)
      | some chomping, [] => some (chomping, none, 1)
      | none, _ =>
          if a == '0' then none
          else if a.isDigit then
            match rest.head? >>= Chomping.ofSign? with
            | some chomping => some (chomping, some (a.toNat - 48), 2)
            | none => some (.clip, some (a.toNat - 48), 1)
          else some (.clip, none, 0)

/-- The lines at the start of a block, or after one of its lines, that hold no more than its
indentation. -/
structure EmptyLines where
  breaks : List Char := []
  widest : Nat := 0
  cursor : Cursor

/-- Reads lines that hold no more than the indentation, which is still open if `indent` is `none`.
-/
def emptyLines (indent : Option Nat) : Nat → EmptyLines → Option EmptyLines
  | 0, e => some e
  | fuel + 1, e =>
      let spaces := (e.cursor.span (· == ' ')).length
      let limit := match indent with
        | none => spaces
        | some n => min spaces (n - e.cursor.column)
      let c := e.cursor.advance limit
      let e := { e with cursor := c, widest := max e.widest c.column }
      if c.sees '\t' && indent.all (c.column < ·) then none
      else
        match c.breakHere with
        | [] => some e
        | ended => emptyLines indent fuel { e with breaks := e.breaks ++ ended, cursor := c.passBreak }

/-- Reads the empty lines that start here. -/
def passEmptyLines (indent : Option Nat) (c : Cursor) : Option EmptyLines :=
  emptyLines indent (c.rest.length + 1) { cursor := c }

/-- What has been read of a block: its text, and the line ends after it. -/
structure BlockText where
  text : List Char := []
  lastBreak : List Char := []
  emptyBreaks : List Char := []
  /-- Whether the last line starts with a blank. -/
  indented : Bool := false

/-- The rest of a block whose lines stand at column `indent`. In a folded block a single line end
between lines that do not start with a blank is a space. -/
def blockRest (literal : Bool) (indent : Nat) : Nat → Cursor → BlockText → Option (BlockText × Cursor)
  | 0, c, b => some (b, c)
  | fuel + 1, c, b =>
      if c.column != indent || c.rest.isEmpty then some (b, c)
      else do
        let blank := (c.rest.head?.map isBlank).getD false
        let joins := !literal && !b.indented && !blank && b.lastBreak.head? == some '\n'
        let joint :=
          if joins then (if b.emptyBreaks.isEmpty then [' '] else []) else b.lastBreak
        let line := c.span fun x => !isBreak x
        let lineEnd := c.advance line.length
        let e ← passEmptyLines (some indent) lineEnd.passBreak
        blockRest literal indent fuel e.cursor
          { text := b.text ++ joint ++ b.emptyBreaks ++ line
            lastBreak := lineEnd.breakHere
            emptyBreaks := e.breaks
            indented := blank }

/-- The text of a block with the line ends after it as its chomping asks. -/
def BlockText.chomped (b : BlockText) : Chomping → List Char
  | .strip => b.text
  | .clip => b.text ++ b.lastBreak
  | .keep => b.text ++ b.lastBreak ++ b.emptyBreaks

/-- The block scalar that starts here, inside a block at column `outer` (before the first one it is
-1). -/
def blockText (literal : Bool) (outer : Int) (c : Cursor) : Option (List Char × Cursor) := do
  let (chomping, increment, width) ← blockMarks (c.rest.drop 1)
  let c := (c.advance (width + 1)).pass isBlank
  let c := if c.sees '#' then c.pass fun x => !isBreak x else c
  guard (atLineEnd c.rest)
  let given := increment.map fun n => (max outer 0).toNat + n
  let e ← passEmptyLines given c.passBreak
  let indent := given.getD (max e.widest (max (outer + 1).toNat 1))
  let (b, c) ← blockRest literal indent (e.cursor.rest.length + 1) e.cursor { emptyBreaks := e.breaks }
  some (b.chomped chomping, c)

end NetLowering.Yaml

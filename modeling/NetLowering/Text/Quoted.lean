import NetLowering.Text.Printable

/-! # Quoted and aligned text

Names in messages are quoted: `quote` writes a printable character as itself and any other as an
escape, so that a message stays on one line and shows what the name holds.
-/

namespace NetLowering.Text

/-- A number in lower-case hexadecimal, with at least `width` digits. -/
def hex (width n : Nat) : String :=
  let digits := Nat.toDigits 16 n
  String.ofList (List.replicate (width - digits.length) '0' ++ digits)

/-- One character of quoted text. -/
def quoteChar (c : Char) : String :=
  match c.toNat with
  | 0x07 => "\\a"
  | 0x08 => "\\b"
  | 0x09 => "\\t"
  | 0x0a => "\\n"
  | 0x0b => "\\v"
  | 0x0c => "\\f"
  | 0x0d => "\\r"
  | 0x22 => "\\\""
  | 0x5c => "\\\\"
  | code =>
      if isPrintable c then String.singleton c
      else if code < 0x80 then "\\x" ++ hex 2 code
      else if code < 0x10000 then "\\u" ++ hex 4 code
      else "\\U" ++ hex 8 code

/-- A name in double quotes. -/
def quote (s : String) : String :=
  "\"" ++ String.join (s.toList.map quoteChar) ++ "\""

/-- Items between square brackets, set apart by blanks. -/
def bracketed (items : List String) : String := "[" ++ " ".intercalate items ++ "]"

def quoteAll (names : List String) : String := bracketed (names.map quote)

def integers (ns : List Int64) : String := bracketed (ns.map toString)

/-- The widest column that text is set in. -/
def widestColumn : Nat := 1000000

/-- Text set flush right in `width` characters; longer text stays as it is. In a column that is too wide all text
stays as it is, behind a mark. -/
def alignRight (width : Nat) (s : String) : String :=
  if widestColumn < width then "%!(BADWIDTH)" ++ s
  else String.ofList (List.replicate (width - s.length) ' ') ++ s

/-- The lower case of a character as far as a tag made of basic letters can tell. Two characters
outside the basic 128 have a basic letter as their lower case: the Kelvin sign and the capital I
with a dot. -/
def lowerChar (c : Char) : Char :=
  if c = '\u212a' then 'k' else if c = '\u0130' then 'i' else c.toLower

/-- A tag with its case put aside. -/
def lowerTag (s : String) : String := String.ofList (s.toList.map lowerChar)

/-- The first `n` bytes of the UTF-8 form of a text, each byte of a character that is cut in two
shown as the replacement character. -/
def takeBytes : Nat → List Char → List Char
  | _, [] => []
  | n, c :: rest =>
      if c.utf8Size ≤ n then c :: takeBytes (n - c.utf8Size) rest
      else List.replicate n '\ufffd'

end NetLowering.Text

import NetLowering.Number.Float
import NetLowering.Timestamp

/-! # What a scalar stands for

A scalar in quotes is text. A plain one may stand for nothing, a truth value, a number or a point in
time, as its spelling says (`Value.ofPlain`); an explicit tag asks for one kind (`Value.ofTagged?`).
-/

namespace NetLowering.Yaml

/-- The value of a scalar. An integer past 64 bits with a sign is a `natural`, and past 64 bits
without one a `number`. -/
inductive Value where
  | null
  | flag (b : Bool)
  | integer (n : Int64)
  | natural (n : UInt64)
  | number (x : Double)
  | moment (t : Timestamp)
  | text (s : String)

namespace Value

def tag : Value → String
  | .null => "!!null"
  | .flag _ => "!!bool"
  | .integer _ | .natural _ => "!!int"
  | .number _ => "!!float"
  | .moment _ => "!!timestamp"
  | .text _ => "!!str"

/-! ### Words -/

/-- The words that are not text. -/
def ofWord? (s : String) : Option Value :=
  match s with
  | "" | "~" | "null" | "Null" | "NULL" => some .null
  | "true" | "True" | "TRUE" => some (.flag true)
  | "false" | "False" | "FALSE" => some (.flag false)
  | ".nan" | ".NaN" | ".NAN" => some (.number .nan)
  | ".inf" | ".Inf" | ".INF" | "+.inf" | "+.Inf" | "+.INF" => some (.number (.infinity false))
  | "-.inf" | "-.Inf" | "-.INF" => some (.number (.infinity true))
  | _ => none

/-! ### Integers -/

def digit? (base : Nat) (c : Char) : Option Nat :=
  let n :=
    if c.isDigit then c.toNat - 48
    else if 'a' ≤ c ∧ c ≤ 'f' then c.toNat - 87
    else if 'A' ≤ c ∧ c ≤ 'F' then c.toNat - 55
    else base
  if n < base then some n else none

/-- The number that digits stand for in a base. -/
def digits? (base : Nat) (cs : List Char) : Option Nat :=
  cs.foldlM (fun n c => (digit? base c).map (base * n + ·)) 0

/-- As `digits?`, with one digit or more. -/
def digitsOne? (base : Nat) (cs : List Char) : Option Nat :=
  if cs.isEmpty then none else digits? base cs

/-- A number without a sign: after `0x`, `0o` and `0b` in that base, after another zero in base 8.
-/
def unsigned? : List Char → Option Nat
  | '0' :: mark :: d :: rest =>
      match mark with
      | 'x' | 'X' => digits? 16 (d :: rest)
      | 'o' | 'O' => digits? 8 (d :: rest)
      | 'b' | 'B' => digits? 2 (d :: rest)
      | _ => digits? 8 (mark :: d :: rest)
  | '0' :: rest => digits? 8 rest
  | cs => digitsOne? 10 cs

/-- Takes a sign off a text: whether it is a minus, and the rest. -/
def splitSign : List Char → Bool × List Char
  | '-' :: rest => (true, rest)
  | '+' :: rest => (false, rest)
  | cs => (false, cs)

/-- An integer that fits in 64 bits with a sign. -/
def ofInt? (n : Int) : Option Value :=
  if Int64.minValue.toInt ≤ n ∧ n ≤ Int64.maxValue.toInt then some (.integer (.ofInt n)) else none

/-- An integer that fits in 64 bits without a sign. -/
def ofNat? (n : Nat) : Option Value := if n < UInt64.size then some (.natural (.ofNat n)) else none

/-- A magnitude with a sign. -/
def withSign (negative : Bool) (n : Nat) : Int := if negative then -(n : Int) else n

/-- An integer with or without a sign. -/
def integer? (cs : List Char) : Option Value :=
  let (negative, body) := splitSign cs
  (unsigned? body >>= fun n => ofInt? (withSign negative n)) <|> (unsigned? cs >>= ofNat?)

/-- An integer in a base, with its sign after the mark of the base or, if it is a minus, before. -/
def markedInteger? (mark : Char) (base : Nat) (cs : List Char) : Option Value :=
  match cs with
  | '0' :: c :: rest => do
      guard (c = mark)
      let (negative, body) := splitSign rest
      let n ← digitsOne? base body
      ofInt? (withSign negative n)
  | '-' :: '0' :: c :: rest => do
      guard (c = mark)
      let n ← digitsOne? base rest
      ofInt? (withSign true n)
  | _ => none

/-! ### Fractions -/

/-- The number that decimal digits stand for. -/
def decimalDigits (cs : List Char) : Nat := cs.foldl (fun n c => 10 * n + (c.toNat - 48)) 0

/-- The exponent that ends a decimal, zero if there is none. -/
def exponent? : List Char → Option Int
  | [] => some 0
  | e :: rest => do
      guard (e = 'e' ∨ e = 'E')
      let (negative, digits) := splitSign rest
      guard (!digits.isEmpty && digits.all Char.isDigit)
      some (withSign negative (decimalDigits digits))

/-- A decimal: digits with or without a point among them, and an exponent. -/
def decimal? (cs : List Char) : Option Decimal := do
  let whole := cs.takeWhile Char.isDigit
  let rest := cs.dropWhile Char.isDigit
  let (places, rest) :=
    match rest with
    | '.' :: tail => (tail.takeWhile Char.isDigit, tail.dropWhile Char.isDigit)
    | _ => ([], rest)
  guard (!(whole.isEmpty && places.isEmpty))
  let exponent ← exponent? rest
  some ⟨decimalDigits (whole ++ places), exponent - places.length⟩

/-- The nearest number to a decimal with or without a sign, if it is finite. -/
def fraction? (cs : List Char) : Option Value := do
  let (negative, body) := splitSign cs
  let d ← decimal? body
  let x ← Double.ofDecimal? negative d
  some (.number x)

/-- Whether the separators in a number each stand between two digits. -/
def separatorsFit : Bool → List Char → Bool
  | _, [] => true
  | afterDigit, '_' :: rest =>
      afterDigit && (rest.head?.map Char.isDigit).getD false && separatorsFit false rest
  | _, c :: rest => separatorsFit c.isDigit rest

/-! ### Scalars -/

/-- The value of a number: an integer, a fraction, or an integer with a mark for its base. -/
def number? (s : String) : Option Value :=
  let cs := s.toList.filter (· ≠ '_')
  integer? cs <|> fraction? cs <|> markedInteger? 'b' 2 cs <|> markedInteger? 'o' 8 cs

/-- The value of a plain scalar that is no word. Only a digit, a sign or a point starts a number;
where `dated`, a digit may also start a point in time. -/
def ofNumeral (dated : Bool) (s : String) : Value :=
  match s.toList with
  | '.' :: rest =>
      if separatorsFit false rest then (fraction? (s.toList.filter (· ≠ '_'))).getD (.text s)
      else .text s
  | c :: _ =>
      if c.isDigit || c = '+' || c = '-' then
        let date := if dated then (Timestamp.parse? s).map .moment else none
        (date <|> number? s).getD (.text s)
      else .text s
  | [] => .text s

def ofPlain (s : String) : Value := (ofWord? s).getD (ofNumeral true s)

/-- The integer a value is. -/
def integral? : Value → Option Int
  | .integer n => some n.toInt
  | .natural n => some n.toNat
  | _ => none

/-- The value of a scalar with a tag, or `none` if it is not of the kind the tag asks for. A tag of
no kind known here leaves the text. -/
def ofTagged? (tag s : String) : Option Value :=
  match tag with
  | "!!null" | "!!bool" | "!!int" | "!!float" | "!!timestamp" =>
      let v := (ofWord? s).getD (ofNumeral (tag = "!!timestamp") s)
      if tag = v.tag then some v
      else if tag = "!!float" then (v.integral?).map fun n => .number (.ofInt n)
      else none
  | _ => some (.text s)

end Value

end NetLowering.Yaml

import NetLowering.Number.Power
import NetLowering.Text.Quoted

/-! # Points in time

A scalar of a model file may be a point in time: a date, or a date and a time of day with or without
an offset. `Timestamp.parse?` reads the accepted forms and `Timestamp.text` writes the one form used
in messages.
-/

namespace NetLowering

/-- A date and time of day, at an offset east of the prime meridian in minutes. -/
structure Timestamp where
  year : Nat
  month : Nat
  day : Nat
  hour : Nat := 0
  minute : Nat := 0
  second : Nat := 0
  nanosecond : Nat := 0
  offset : Int := 0
deriving DecidableEq

namespace Timestamp

/-- A natural number in decimal with at least `width` digits. -/
def padded (width n : Nat) : String :=
  let digits := Nat.toDigits 10 n
  String.ofList (List.replicate (width - digits.length) '0' ++ digits)

/-- Nanoseconds as a decimal fraction, without trailing zeros and empty for none. -/
def fraction (nanosecond : Nat) : String :=
  if nanosecond = 0 then ""
  else
    let digits := (padded 9 nanosecond).toList
    "." ++ String.ofList (digits.reverse.dropWhile (· == '0')).reverse

/-- An offset as sign, hours and minutes. -/
def zone (offset : Int) : String :=
  (if offset < 0 then "-" else "+") ++ padded 2 (offset.natAbs / 60) ++ padded 2 (offset.natAbs % 60)

/-- The text of a point in time. At no offset the zone is named, and elsewhere it is its offset
again. -/
def text (t : Timestamp) : String :=
  padded 4 t.year ++ "-" ++ padded 2 t.month ++ "-" ++ padded 2 t.day ++ " " ++
    padded 2 t.hour ++ ":" ++ padded 2 t.minute ++ ":" ++ padded 2 t.second ++ fraction t.nanosecond ++
    " " ++ zone t.offset ++ " " ++ (if t.offset = 0 then "UTC" else zone t.offset)

/-! ### Reading -/

def digit? (c : Char) : Option Nat := if c.isDigit then some (c.toNat - 48) else none

/-- A number of one or two digits, as many as there are. -/
def shortNumber : List Char → Option (Nat × List Char)
  | [] => none
  | c :: rest => do
      let a ← digit? c
      match rest with
      | d :: rest' =>
          match digit? d with
          | some b => some (10 * a + b, rest')
          | none => some (a, rest)
      | [] => some (a, rest)

def twoDigits : List Char → Option (Nat × List Char)
  | c :: d :: rest => do
      let a ← digit? c
      let b ← digit? d
      some (10 * a + b, rest)
  | _ => none

/-- A given character. -/
def expect (c : Char) : List Char → Option (List Char)
  | d :: rest => if c = d then some rest else none
  | [] => none

/-- A fraction of a second after a point or a comma, cut after nine digits; none if no digit
follows. -/
def secondFraction (cs : List Char) : Nat × List Char :=
  match cs with
  | mark :: d :: _ =>
      if (mark = '.' ∨ mark = ',') ∧ d.isDigit then
        let digits := cs.tail.takeWhile Char.isDigit
        let kept := digits.take 9
        let value := kept.foldl (fun n c => 10 * n + (c.toNat - 48)) 0
        (value * tenTo (9 - kept.length), cs.tail.dropWhile Char.isDigit)
      else (0, cs)
  | _ => (0, cs)

/-- Whether a year has a 29th of February. -/
def isLeap (year : Nat) : Bool := year % 4 = 0 && (year % 100 ≠ 0 || year % 400 = 0)

def daysIn (year month : Nat) : Nat :=
  if month = 2 then (if isLeap year then 29 else 28)
  else if month = 4 ∨ month = 6 ∨ month = 9 ∨ month = 11 then 30
  else 31

/-- A date: a year of four digits, a month and a day. -/
def date (cs : List Char) : Option (Timestamp × List Char) := do
  let year := cs.take 4
  guard (year.length = 4 ∧ year.all Char.isDigit)
  let cs ← expect '-' (cs.drop 4)
  let (month, cs) ← shortNumber cs
  guard (1 ≤ month ∧ month ≤ 12)
  let cs ← expect '-' cs
  let (day, cs) ← shortNumber cs
  let year := year.foldl (fun n c => 10 * n + (c.toNat - 48)) 0
  some ({ year, month, day }, cs)

/-- A time of day. -/
def clock (t : Timestamp) (cs : List Char) : Option (Timestamp × List Char) := do
  let (hour, cs) ← shortNumber cs
  guard (hour < 24)
  let cs ← expect ':' cs
  let (minute, cs) ← shortNumber cs
  guard (minute < 60)
  let cs ← expect ':' cs
  let (second, cs) ← shortNumber cs
  guard (second < 60)
  let (nanosecond, cs) := secondFraction cs
  some ({ t with hour, minute, second, nanosecond }, cs)

/-- An offset: `Z` for none, or a sign, hours and minutes. -/
def offsetOf : List Char → Option (Int × List Char)
  | 'Z' :: rest => some (0, rest)
  | sign :: rest => do
      guard (sign = '+' ∨ sign = '-')
      let (hours, rest) ← twoDigits rest
      let rest ← expect ':' rest
      let (minutes, rest) ← twoDigits rest
      guard (hours ≤ 24 ∧ minutes ≤ 60)
      let size := Int.ofNat (60 * hours + minutes)
      some (if sign = '-' then -size else size, rest)
  | [] => none

/-- A timestamp with nothing after it, on a day its month has. -/
def finish (t : Timestamp) (rest : List Char) : Option Timestamp := do
  guard (rest = [] ∧ 1 ≤ t.day ∧ t.day ≤ daysIn t.year t.month)
  some t

/-- Reads a date, a date and time of day after blanks, or a date, `T` or `t`, a time and an offset.
-/
def parse? (s : String) : Option Timestamp := do
  let (t, cs) ← date s.toList
  match cs with
  | [] => finish t []
  | ' ' :: rest =>
      let (t, cs) ← clock t (rest.dropWhile (· = ' '))
      finish t cs
  | mark :: rest => do
      guard (mark = 'T' ∨ mark = 't')
      let (t, cs) ← clock t rest
      let (offset, cs) ← offsetOf cs
      finish { t with offset } cs

end Timestamp

end NetLowering

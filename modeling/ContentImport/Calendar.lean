import ContentImport.Text.Blank
import ContentImport.Text.Digit

/-!
Calendar dates. A date is read from a time stamp with an offset, from a local date and time, or
from a date alone, and is written with a year of at least four digits.
-/

set_option autoImplicit false
set_option relaxedAutoImplicit false

namespace ContentImport

/-- A day of the calendar. -/
structure Date where
  year : Int
  month : Nat
  day : Nat
  deriving DecidableEq, Repr

namespace Date

/-- Every fourth year has a leap day, of the hundreds only every fourth. -/
def isLeapYear (year : Int) : Bool :=
  year % 4 = 0 && (year % 100 ≠ 0 || year % 400 = 0)

def daysOf (year : Int) (month : Nat) : Nat :=
  if month = 2 then (if isLeapYear year then 29 else 28)
  else if month ∈ [4, 6, 9, 11] then 30
  else 31

/-- The day with the given numbers, where there is one in the range of years that is kept. -/
def ofNumbers? (year : Int) (month day : Nat) : Option Date :=
  if -262143 ≤ year ∧ year ≤ 262142 ∧ 1 ≤ month ∧ month ≤ 12 ∧ 1 ≤ day ∧ day ≤ daysOf year month then
    some ⟨year, month, day⟩
  else none

def readNumber? (least most : Nat) (s : List Char) : Option (Nat × List Char) :=
  let ds := (s.takeWhile Char.isDigit).take most
  if least ≤ ds.length then some (Text.digitsValue 10 ds, s.drop ds.length) else none

def readOneOf? (choices : List Char) : List Char → Option (List Char)
  | c :: rest => if c ∈ choices then some rest else none
  | [] => none

/-- Read the digits of a fraction, where a point begins one. -/
def readFraction? : List Char → Option (List Char)
  | '.' :: rest =>
    let after := rest.dropWhile Char.isDigit
    if after.length < rest.length then some after else none
  | s => some s

/-- Read a time of day; a minute may have a leap second. Each number has at least so many digits,
with white space before it where that is allowed. -/
def readTime? (least : Nat) (skip : List Char → List Char) (s : List Char) : Option (List Char) := do
  let (hour, s) ← readNumber? least 2 (skip s)
  let s ← readOneOf? [':'] s
  let (minute, s) ← readNumber? least 2 (skip s)
  let s ← readOneOf? [':'] s
  let (second, s) ← readNumber? least 2 (skip s)
  if hour ≤ 23 ∧ minute ≤ 59 ∧ second ≤ 60 then readFraction? s else none

/-- Read the offset of a time stamp, less than a day in either direction. -/
def readOffset? (s : List Char) : Option (List Char) :=
  (readOneOf? ['Z', 'z'] s).or do
    let s ← readOneOf? ['+', '-', '−'] s
    let (hours, s) ← readNumber? 2 2 s
    let s ← readOneOf? [':'] s
    let (minutes, s) ← readNumber? 2 2 s
    if hours ≤ 23 ∧ minutes ≤ 59 then some s else none

/-- The day of a time stamp with an offset, at that offset. -/
def ofTimeStamp? (s : List Char) : Option Date := do
  let (year, s) ← readNumber? 4 4 s
  let s ← readOneOf? ['-'] s
  let (month, s) ← readNumber? 2 2 s
  let s ← readOneOf? ['-'] s
  let (day, s) ← readNumber? 2 2 s
  let s ← readOneOf? ['T', 't', ' '] s
  let s ← readTime? 2 id s
  let s ← readOffset? s
  if s.isEmpty then ofNumbers? year month day else none

def skipSpace (s : List Char) : List Char :=
  Text.trimStartBy Text.isSpace s

/-- Read a year: at most four digits, or any number of them after a sign. -/
def readYear? (s : List Char) : Option (Int × List Char) :=
  match skipSpace s with
  | '-' :: rest => (readNumber? 1 rest.length rest).map fun (n, rest) => (-n, rest)
  | '+' :: rest => (readNumber? 1 rest.length rest).map fun (n, rest) => (n, rest)
  | rest => (readNumber? 1 4 rest).map fun (n, rest) => (n, rest)

/-- Read a day, each number with any white space before it. -/
def readDay? (s : List Char) : Option (Date × List Char) := do
  let (year, s) ← readYear? s
  let s ← readOneOf? ['-'] s
  let (month, s) ← readNumber? 1 2 (skipSpace s)
  let s ← readOneOf? ['-'] s
  let (day, s) ← readNumber? 1 2 (skipSpace s)
  let date ← ofNumbers? year month day
  pure (date, s)

def ofLocalTime? (s : List Char) : Option Date := do
  let (date, s) ← readDay? s
  let s ← readOneOf? ['T'] s
  let s ← readTime? 1 skipSpace s
  if s.isEmpty then some date else none

def ofDay? (s : List Char) : Option Date := do
  let (date, s) ← readDay? s
  if s.isEmpty then some date else none

/-- The day of a time stamp, of a local date and time, or of a date alone. -/
def ofText? (s : List Char) : Option Date :=
  (ofTimeStamp? s).or <| (ofLocalTime? s).or <| ofDay? s

/-- A number in decimal digits with zeros in front up to a width. -/
def padded (width n : Nat) : List Char :=
  let ds := Nat.toDigits 10 n
  List.replicate (width - ds.length) '0' ++ ds

/-- Year, month and day with hyphens between; a year beyond four digits has a sign. -/
def toText (d : Date) : List Char :=
  let sign := if d.year < 0 then ['-'] else if d.year ≤ 9999 then [] else ['+']
  sign ++ padded 4 d.year.natAbs ++ '-' :: padded 2 d.month ++ '-' :: padded 2 d.day

example : (ofText? "2017-03-04 23:59:60.5-00:00".toList).map toText = some "2017-03-04".toList := by
  decide +kernel
example : (ofText? "7-1- 2T3:4:5".toList).map toText = some "0007-01-02".toList := by decide +kernel
example : ofText? "2017-02-29".toList = none := by decide +kernel
example : ofText? "12345-01-02".toList = none := by decide +kernel

end Date

end ContentImport

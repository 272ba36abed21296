import ContentImport.Text.Digit

/-!
The tokens of JSON text. A token ends at the first character that cannot belong to it; a number or
a word is then held against the grammar as a whole. Strings are kept as 16-bit units, since an
escape may give half of a surrogate pair.
-/

set_option autoImplicit false
set_option relaxedAutoImplicit false

namespace ContentImport.Json

open ContentImport.Text (isHexDigit digitsValue cutDigits)

/-- A number as written: its sign, the digits before and after the point, and the exponent with its
sign. -/
structure NumberText where
  negative : Bool
  whole : List Char
  fraction : Option (List Char)
  exponent : Option (Bool × List Char)
  deriving DecidableEq, Repr

/-- A piece of a string: a character, or a 16-bit unit given by an escape. -/
inductive StringUnit where
  | plain (c : Char)
  | escaped (n : Nat)
  deriving DecidableEq, Repr

/-- A token. -/
inductive Token where
  | openList
  | closeList
  | openObject
  | closeObject
  | comma
  | colon
  | null
  | bool (b : Bool)
  | number (n : NumberText)
  | string (units : List StringUnit)
  deriving DecidableEq, Repr

/-- What is being read; the characters of a token stand in reverse. -/
inductive Token.Mode where
  | between
  | word (read : List Char)
  | number (read : List Char)
  | string (read : List StringUnit)
  | escape (read : List StringUnit)
  | hex (read : List StringUnit) (digits : List Char)
  deriving Repr

namespace Token

def ofWord? (word : List Char) : Option Token :=
  match String.ofList word with
  | "null" => some .null
  | "true" => some (.bool true)
  | "false" => some (.bool false)
  | _ => none

/-- Read the part of a number after its digits before the point. -/
def fraction? : List Char → Option (Option (List Char) × List Char)
  | '.' :: rest =>
    match cutDigits rest with
    | ([], _) => none
    | (ds, rest) => some (some ds, rest)
  | rest => some (none, rest)

def exponent? : List Char → Option (Option (Bool × List Char))
  | [] => some none
  | e :: rest =>
    if e = 'e' ∨ e = 'E' then
      let (negative, rest) := match rest with
        | '-' :: rest => (true, rest)
        | '+' :: rest => (false, rest)
        | rest => (false, rest)
      match cutDigits rest with
      | (d :: ds, []) => some (some (negative, d :: ds))
      | _ => none
    else none

/-- The number that a text is. The digits before the point are one zero, or begin with none. -/
def numberText? (s : List Char) : Option NumberText :=
  let (negative, rest) := match s with
    | '-' :: rest => (true, rest)
    | rest => (false, rest)
  match cutDigits rest with
  | ([], _) => none
  | ('0' :: _ :: _, _) => none
  | (whole, rest) => do
    let (fraction, rest) ← fraction? rest
    let exponent ← exponent? rest
    pure ⟨negative, whole, fraction, exponent⟩

def simpleEscape? : Char → Option Char
  | '"' => some '"'
  | '\\' => some '\\'
  | '/' => some '/'
  | 'b' => some '\x08'
  | 'f' => some '\x0c'
  | 'n' => some '\n'
  | 'r' => some '\r'
  | 't' => some '\t'
  | _ => none

/-- Read a character that does not belong to a token begun before. -/
def begin? (c : Char) : Option (List Token × Mode) :=
  match c with
  | ' ' | '\t' | '\n' | '\r' => some ([], .between)
  | '[' => some ([.openList], .between)
  | ']' => some ([.closeList], .between)
  | '\x7b' => some ([.openObject], .between)
  | '\x7d' => some ([.closeObject], .between)
  | ',' => some ([.comma], .between)
  | ':' => some ([.colon], .between)
  | '"' => some ([], .string [])
  | c =>
    if c.isAlpha then some ([], .word [c])
    else if c.isDigit ∨ c = '-' then some ([], .number [c])
    else none

def isNumberChar (c : Char) : Bool :=
  c.isDigit || c ∈ ['+', '-', '.', 'e', 'E']

def step? (mode : Mode) (c : Char) : Option (List Token × Mode) :=
  let after := fun (token : Option Token) => do
    let token ← token
    let (tokens, mode) ← begin? c
    pure (token :: tokens, mode)
  match mode with
  | .between => begin? c
  | .word read => if c.isAlpha then some ([], .word (c :: read)) else after (ofWord? read.reverse)
  | .number read =>
    if isNumberChar c then some ([], .number (c :: read))
    else after ((numberText? read.reverse).map .number)
  | .string read =>
    if c = '"' then some ([.string read.reverse], .between)
    else if c = '\\' then some ([], .escape read)
    else if c.toNat < 0x20 then none
    else some ([], .string (.plain c :: read))
  | .escape read =>
    if c = 'u' then some ([], .hex read [])
    else (simpleEscape? c).map fun c => ([], .string (.plain c :: read))
  | .hex read ds =>
    if isHexDigit c then
      if ds.length < 3 then some ([], .hex read (c :: ds))
      else some ([], .string (.escaped (digitsValue 16 (c :: ds).reverse) :: read))
    else none

def finish? : Mode → Option (List Token)
  | .between => some []
  | .word read => (ofWord? read.reverse).map ([·])
  | .number read => (numberText? read.reverse).map fun n => [.number n]
  | _ => none

def scanFrom? : Mode → List Char → Option (List Token)
  | mode, [] => finish? mode
  | mode, c :: rest =>
    match step? mode c with
    | none => none
    | some (tokens, mode) => (scanFrom? mode rest).map (tokens ++ ·)

def scan? (s : List Char) : Option (List Token) :=
  scanFrom? .between s

example : scan? "[-0,1.5e+3]".toList =
    some [.openList, .number ⟨true, ['0'], none, none⟩, .comma,
      .number ⟨false, ['1'], some ['5'], some (false, ['3'])⟩, .closeList] := by decide +kernel
example : scan? "01".toList = none := by decide +kernel
example : scan? "\"\\ud800\"".toList = some [.string [.escaped 0xD800]] := by decide +kernel

end Token

/-- The text of string units; `none` when half of a surrogate pair stands alone. -/
def StringUnit.joined? : List StringUnit → Option (List Char)
  | [] => some []
  | .plain c :: rest => (joined? rest).map (c :: ·)
  | .escaped high :: .escaped low :: rest =>
    if 0xD800 ≤ high ∧ high ≤ 0xDBFF then
      if 0xDC00 ≤ low ∧ low ≤ 0xDFFF then
        (joined? rest).map
          (Char.ofNat (0x10000 + (high - 0xD800) * 0x400 + (low - 0xDC00)) :: ·)
      else none
    else if 0xDC00 ≤ high ∧ high ≤ 0xDFFF then none
    else (joined? (.escaped low :: rest)).map (Char.ofNat high :: ·)
  | .escaped n :: rest =>
    if 0xD800 ≤ n ∧ n ≤ 0xDFFF then none else (joined? rest).map (Char.ofNat n :: ·)

example : StringUnit.joined? [.escaped 0xD83D, .escaped 0xDE00] = some ['😀'] := by decide
example : StringUnit.joined? [.escaped 0xD83D, .plain 'a'] = none := by decide

end ContentImport.Json

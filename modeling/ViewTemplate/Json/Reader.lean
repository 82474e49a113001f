import ViewTemplate.Json
import ViewTemplate.Text.Cut
import ViewTemplate.Text.Word

/-! # Reading JSON

The reader accepts exactly the JSON grammar: no trailing comma, no control character in a text, no
leading zero. A text with half a surrogate pair is read as malformed, so that only a reader that needs
the text refuses it.
-/

namespace ViewTemplate.Json

def isSpace (c : Char) : Bool := c == ' ' || c == '\n' || c == '\t' || c == '\r'

def skipSpace (s : List Char) : List Char := s.dropWhile isSpace

def hexValue? (c : Char) : Option Nat :=
  if Text.isAsciiDigit c then some (c.toNat - 48)
  else if 'a' ≤ c && c ≤ 'f' then some (c.toNat - 87)
  else if 'A' ≤ c && c ≤ 'F' then some (c.toNat - 55)
  else none

/-- The number that four hexadecimal digits write. -/
def hexUnit? (a b c d : Char) : Option Nat := do
  let a ← hexValue? a
  let b ← hexValue? b
  let c ← hexValue? c
  let d ← hexValue? d
  pure (((a * 16 + b) * 16 + c) * 16 + d)

/-- The code of the character that an escape of two characters stands for. -/
def escape? (c : Char) : Option Nat :=
  if c = '"' || c = '\\' || c = '/' then some c.toNat
  else if c = 'b' then some 8
  else if c = 'f' then some 12
  else if c = 'n' then some 10
  else if c = 'r' then some 13
  else if c = 't' then some 9
  else none

/-- The code points and surrogates of a text up to its closing quote, and what follows it. -/
def units? : List Char → Option (List Nat × List Char)
  | [] => none
  | '"' :: rest => some ([], rest)
  | '\\' :: 'u' :: a :: b :: c :: d :: rest => do
    let unit ← hexUnit? a b c d
    let (units, rest) ← units? rest
    pure (unit :: units, rest)
  | '\\' :: e :: rest => do
    let unit ← escape? e
    let (units, rest) ← units? rest
    pure (unit :: units, rest)
  | c :: rest =>
    if c.toNat < 0x20 || c = '\\' then none
    else do
      let (units, rest) ← units? rest
      pure (c.toNat :: units, rest)

def isHighSurrogate (n : Nat) : Bool := 0xD800 ≤ n && n ≤ 0xDBFF

def isLowSurrogate (n : Nat) : Bool := 0xDC00 ≤ n && n ≤ 0xDFFF

/-- The characters of code points and surrogate pairs. -/
def chars? : List Nat → Option (List Char)
  | [] => some []
  | [n] => if isHighSurrogate n || isLowSurrogate n then none else some [Char.ofNat n]
  | n :: m :: units =>
    if isHighSurrogate n then
      if isLowSurrogate m then
        (chars? units).map (Char.ofNat (0x10000 + (n - 0xD800) * 0x400 + (m - 0xDC00)) :: ·)
      else none
    else if isLowSurrogate n then none
    else (chars? (m :: units)).map (Char.ofNat n :: ·)

/-- The text after an opening quote, where it is one, and what follows it. -/
def text? (s : List Char) : Option (Option String × List Char) :=
  (units? s).map fun (units, rest) => ((chars? units).map String.ofList, rest)

def digits1? (s : List Char) : Option (List Char) :=
  if (s.takeWhile Text.isAsciiDigit).isEmpty then none else some (s.dropWhile Text.isAsciiDigit)

/-- What follows the integer part of a number. -/
def integer? (s : List Char) : Option (List Char) :=
  match (match s with
    | '-' :: r => r
    | r => r) with
  | '0' :: r => some r
  | r => digits1? r

def fraction? : List Char → Option (List Char)
  | '.' :: s => digits1? s
  | s => some s

def exponent? : List Char → Option (List Char)
  | c :: s =>
    if c = 'e' || c = 'E' then
      match s with
      | '+' :: r => digits1? r
      | '-' :: r => digits1? r
      | r => digits1? r
    else some (c :: s)
  | [] => some []

def isNumber (s : List Char) : Bool :=
  (((integer? s).bind fraction?).bind exponent?) == some []

def isNumberChar (c : Char) : Bool :=
  Text.isAsciiDigit c || ['-', '+', '.', 'e', 'E'].contains c

/-- A literal name or a number. -/
def scalar? (s : List Char) : Option (Json × List Char) :=
  ((Text.after? "null".toList s).map fun rest => (.null, rest)).or <|
  ((Text.after? "true".toList s).map fun rest => (.bool true, rest)).or <|
  ((Text.after? "false".toList s).map fun rest => (.bool false, rest)).or <|
    let digits := s.takeWhile isNumberChar
    if isNumber digits then some (.number (String.ofList digits), s.dropWhile isNumberChar) else none

/-- Members with their keys, where all keys are texts. -/
def ofMembers (members : List (Option String × Json)) : Json :=
  match members.mapM fun (key, value) => key.map fun key => (key, value) with
  | some members => .object members
  | none => .malformed

/-- Elements up to a closing bracket, with commas between them; the number bounds how many. -/
def sequence? {α : Type} (element? : List Char → Option (α × List Char)) (closing : Char) :
    Nat → List Char → Option (List α × List Char)
  | 0, _ => none
  | n + 1, s => do
    let (a, rest) ← element? s
    match skipSpace rest with
    | [] => none
    | c :: rest =>
      if c = ',' then (sequence? element? closing n rest).map fun (as, rest) => (a :: as, rest)
      else if c = closing then pure ([a], rest)
      else none

/-- A key and the value behind its colon. -/
def keyed? (value? : List Char → Option (Json × List Char)) (s : List Char) :
    Option ((Option String × Json) × List Char) :=
  match skipSpace s with
  | '"' :: rest => do
    let (key, rest) ← text? rest
    match skipSpace rest with
    | ':' :: rest => (value? rest).map fun (value, rest) => ((key, value), rest)
    | _ => none
  | _ => none

/-- A value at the front, and what follows it; the number bounds the nesting and the items of each
level. -/
def value? : Nat → List Char → Option (Json × List Char)
  | 0, _ => none
  | n + 1, s =>
    match skipSpace s with
    | '"' :: rest =>
      (text? rest).map fun (content, rest) => ((content.map Json.text).getD .malformed, rest)
    | '[' :: rest =>
      match skipSpace rest with
      | ']' :: rest => some (.array [], rest)
      | rest => (sequence? (value? n) ']' n rest).map fun (items, rest) => (.array items, rest)
    | '\x7b' :: rest =>
      match skipSpace rest with
      | '\x7d' :: rest => some (.object [], rest)
      | rest =>
        (sequence? (keyed? (value? n)) '\x7d' n rest).map fun (members, rest) =>
          (ofMembers members, rest)
    | rest => scalar? rest

/-- Reads a text that holds one value and nothing else. -/
def read? (s : String) : Option Json := do
  let (value, rest) ← value? (s.length + 1) s.toList
  if (skipSpace rest).isEmpty then some value else none

end ViewTemplate.Json

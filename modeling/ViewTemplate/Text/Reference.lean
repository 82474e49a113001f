import ViewTemplate.Text.Blank
import ViewTemplate.Text.Cut
import ViewTemplate.Text.Reference.Table
import ViewTemplate.Text.Word

/-! # Character references

A reference starts with an ampersand and stands for one or two characters. Attribute values know a
handful of references; text knows all names of the HTML standard and numbers in base ten and sixteen.
What a reference stands for is not examined again.
-/

namespace ViewTemplate.Text.Reference

/-- Reads what follows an ampersand: the characters it stands for and how many characters it takes. -/
abbrev Rule := List Char → Option (List Char × Nat)

/-- Replaces references from the left; the first argument counts characters still to be passed over
because they belong to a reference already replaced. -/
def expand (rule : Rule) : Nat → List Char → List Char
  | _, [] => []
  | k + 1, _ :: s => expand rule k s
  | 0, c :: s =>
    if c = '&' then
      match rule s with
      | some (out, n) => out ++ expand rule n s
      | none => c :: expand rule 0 s
    else c :: expand rule 0 s

/-- References in attribute values. -/
def attributeNames (newlines : Bool) : List (List Char × Char) :=
  [(['l', 't'], '<'), (['g', 't'], '>'), (['q', 'u', 'o', 't'], '"'), (['a', 'm', 'p'], '&'),
    (['#', '3', '9'], '\x27')] ++
  if newlines then [(['#', '1', '0'], '\n'), (['#', '9'], '\t')] else []

def attributeRule (newlines : Bool) : Rule := fun s =>
  (attributeNames newlines).findSome? fun (name, c) =>
    if startsWith (name ++ [';']) s then some ([c], name.length + 1) else none

/-- Decodes an attribute value; line feeds and tabs are decoded on request only. -/
def decodeAttribute (newlines : Bool) : String → String :=
  onChars (expand (attributeRule newlines) 0)

/-- Value of a hexadecimal digit. -/
def digitValue? (base : Nat) (c : Char) : Option Nat :=
  let v? :=
    if isAsciiDigit c then some (c.toNat - 48)
    else if 'a' ≤ c && c ≤ 'f' then some (c.toNat - 87)
    else if 'A' ≤ c && c ≤ 'F' then some (c.toNat - 55)
    else none
  v?.filter (· < base)

/-- The number that a run of digits writes. -/
def number (base : Nat) (digits : List Char) : Nat :=
  digits.foldl (fun n c => n * base + (digitValue? base c).getD 0) 0

/-- Code points that numbers from 0x80 to 0x9F stand for, where they differ from the number. -/
def legacyCodes : List (Nat × Nat) := [
  (0x80, 0x20AC), (0x82, 0x201A), (0x83, 0x192), (0x84, 0x201E), (0x85, 0x2026), (0x86, 0x2020),
  (0x87, 0x2021), (0x88, 0x2C6), (0x89, 0x2030), (0x8A, 0x160), (0x8B, 0x2039), (0x8C, 0x152),
  (0x8E, 0x17D), (0x91, 0x2018), (0x92, 0x2019), (0x93, 0x201C), (0x94, 0x201D), (0x95, 0x2022),
  (0x96, 0x2013), (0x97, 0x2014), (0x98, 0x2DC), (0x99, 0x2122), (0x9A, 0x161), (0x9B, 0x203A),
  (0x9C, 0x153), (0x9E, 0x17E), (0x9F, 0x178)]

/-- The character with a number; numbers of no character give the replacement character. -/
def charOfCode (n : Nat) : Char :=
  if n = 0 || (0xD800 ≤ n && n ≤ 0xDFFF) || 0x10FFFF < n then Char.ofNat 0xFFFD
  else Char.ofNat ((legacyCodes.lookup n).getD n)

/-- A number in the given base; `skipped` characters stand before its digits. -/
def numericRule (base skipped : Nat) : Rule := fun s =>
  let digits := s.takeWhile fun c => (digitValue? base c).isSome
  if digits.isEmpty then none
  else
    let closed := (s.drop digits.length).head? == some ';'
    some ([charOfCode (number base digits)],
      skipped + digits.length + if closed then 1 else 0)

/-- The entries between spaces and line feeds. -/
def entriesOf (text : String) : List (List Char) := (splitOn '\n' text.toList).flatMap (splitOn ' ')

/-- The names of entries with the characters they stand for, where `next` is the next code point. -/
def namesFrom : Nat → List (List Char) → List (List Char × List Char)
  | _, [] => []
  | next, entry :: entries =>
    let (codes, names) := match cut? ['='] entry with
      | some (codes, names) => ((splitOn '.' codes).map (number 16), names)
      | none => ([next], entry)
    (splitOn ',' names).map (fun name => (name, codes.map Char.ofNat)) ++
      namesFrom (codes.headD 0 + 1) entries

/-- All names with the characters they stand for. -/
def table : List (List Char × List Char) := namesFrom 0 (entriesOf entries)

/-- Names that need no closing semicolon. -/
def openNames : List (List Char) := entriesOf openEntries

def isNameChar (c : Char) : Bool :=
  isAsciiLetter c || isAsciiDigit c

/-- A name closed by a semicolon, or else the shortest name that needs none. -/
def namedRule : Rule := fun s =>
  let name := (s.takeWhile isNameChar).take 32
  let closed? :=
    if (s.drop name.length).head? == some ';' then
      (table.lookup name).map fun out => (out, name.length + 1)
    else none
  closed?.or <|
    (((List.range (name.length + 1)).map name.take).find? openNames.contains).bind fun start =>
      (table.lookup start).map fun out => (out, start.length)

/-- References in text. -/
def textRule : Rule
  | '#' :: 'x' :: s => numericRule 16 2 s
  | '#' :: 'X' :: s => numericRule 16 2 s
  | '#' :: s => numericRule 10 1 s
  | s => namedRule s

/-- Decodes the references of a text. -/
def decodeText : String → String :=
  onChars (expand textRule 0)

end ViewTemplate.Text.Reference

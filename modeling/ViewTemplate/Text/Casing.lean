import ViewTemplate.Text.CasingTable
import ViewTemplate.Text.Word

/-! # Upper and lower case

Casing may change the number of characters. Upper-casing looks at one character alone. Lower-casing
looks at its surroundings for one letter only: a sigma that ends a word has a form of its own.
-/

namespace ViewTemplate.Text

/-- The image of a code point under the first run that covers it. -/
def caseImage? (runs : List CaseRun) (n : Nat) : Option Nat :=
  (runs.find? fun r => r.lo ≤ n && n ≤ r.hi && (n - r.lo) % r.step == 0).map fun r =>
    (Int.ofNat n + r.delta).toNat

/-- Upper-case form of a character. -/
def upper (c : Char) : List Char :=
  if c.toNat < 128 then
    [if 'a' ≤ c && c ≤ 'z' then Char.ofNat (c.toNat - 32) else c]
  else
    match upperExpansions.lookup c.toNat with
    | some image => image.map Char.ofNat
    | none => [((caseImage? upperRuns c.toNat).map Char.ofNat).getD c]

/-- Lower-case form of a letter that stands alone. -/
def lowerAlone (c : Char) : List Char :=
  if c.toNat < 128 then
    [if isAsciiUpper c then Char.ofNat (c.toNat + 32) else c]
  else if c.toNat = 0x130 then ['i', Char.ofNat 0x307]
  else [((caseImage? lowerRuns c.toNat).map Char.ofNat).getD c]

/-- Whether the nearest character that is not passed over has a case. -/
def meetsCased (s : List Char) : Bool :=
  match s.find? fun c => !inRuns caseIgnorableRuns c.toNat with
  | some c => inRuns casedRuns c.toNat
  | none => false

/-- Lower-casing from the left; `before` holds the characters already passed, nearest first. -/
def lowerAfter (before : List Char) : List Char → List Char
  | [] => []
  | c :: s =>
    (if c.toNat = 0x3A3 then
      if meetsCased before && !meetsCased s then [Char.ofNat 0x3C2] else [Char.ofNat 0x3C3]
    else lowerAlone c) ++ lowerAfter (c :: before) s

/-- Lower-case form of a text. -/
def lower (s : List Char) : List Char :=
  lowerAfter [] s

/-- Lower-cases the ASCII letters and leaves all else. -/
def asciiLower (c : Char) : Char :=
  if isAsciiUpper c then Char.ofNat (c.toNat + 32) else c

end ViewTemplate.Text

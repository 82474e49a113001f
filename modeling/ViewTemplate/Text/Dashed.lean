import ViewTemplate.Text.Blank
import ViewTemplate.Text.Casing

/-! # Dashed and camel-case names

`camelize` joins the words of a dashed name, `hyphenate` separates the words of a camel-case one.
-/

namespace ViewTemplate.Text

/-- Replaces a dash and the word character after it by the upper-case form of that character. -/
def camelizeChars : List Char → List Char
  | [] => []
  | [c] => [c]
  | c :: d :: s =>
    if c = '-' && isWord d then upper d ++ camelizeChars s
    else c :: camelizeChars (d :: s)

/-- Sets a dash before each ASCII capital that follows a word character. -/
def dashCapitals : Bool → List Char → List Char
  | _, [] => []
  | inWord, c :: s =>
    if inWord && isAsciiUpper c then '-' :: c :: dashCapitals (isWord c) s
    else c :: dashCapitals (isWord c) s

def hyphenateChars (s : List Char) : List Char :=
  lower (dashCapitals false s)

/-- Upper-cases the first character. -/
def capitalizeChars : List Char → List Char
  | [] => []
  | c :: s => upper c ++ s

def camelize : String → String := onChars camelizeChars

def hyphenate : String → String := onChars hyphenateChars

def capitalize : String → String := onChars capitalizeChars

end ViewTemplate.Text

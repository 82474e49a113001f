import ViewTemplate.Text.Word

/-! # Qualified names

A tag is named by one name, or by two with a colon between them. A name starts with an ASCII letter
or an underscore and goes on as far as name characters follow.
-/

namespace ViewTemplate.Markup

/-- Letters that may follow the first character of a name. -/
def nameLetterRuns : List Nat := [
  183, 1, 8, 23, 1, 31, 1, 646, 1, 7297, 12, 2, 49, 2, 47, 288, 2672, 1008, 17, 43007, 8448, 1232,
  32, 526]

def isNameStart (c : Char) : Bool := Text.isAsciiLetter c || c == '_'

def isNameChar (c : Char) : Bool :=
  isNameStart c || Text.isAsciiDigit c || c == '-' || c == '.' ||
    Text.inRuns nameLetterRuns c.toNat

/-- A name at the front, and the text after it. -/
def localName? : List Char → Option (List Char × List Char)
  | [] => none
  | c :: s => if isNameStart c then some (c :: s.takeWhile isNameChar, s.dropWhile isNameChar) else none

/-- A qualified name at the front, and the text after it. -/
def qualifiedName? (s : List Char) : Option (List Char × List Char) := do
  let (first, rest) ← localName? s
  match rest with
  | ':' :: after =>
    match localName? after with
    | some (second, rest) => some (first ++ ':' :: second, rest)
    | none => some (first, ':' :: after)
  | rest => some (first, rest)

theorem eq_of_localName? {s name rest : List Char} (h : localName? s = some (name, rest)) :
    s = name ++ rest := by
  cases s with
  | nil => simp [localName?] at h
  | cons c s =>
      simp only [localName?] at h
      split at h
      · cases h
        simp [List.takeWhile_append_dropWhile]
      · cases h

theorem ne_nil_of_localName? {s name rest : List Char} (h : localName? s = some (name, rest)) :
    name ≠ [] := by
  cases s with
  | nil => simp [localName?] at h
  | cons c s =>
      simp only [localName?] at h
      split at h
      · cases h
        simp
      · cases h

/-- A name is cut off the front of the text. -/
theorem eq_of_qualifiedName? {s name rest : List Char}
    (h : qualifiedName? s = some (name, rest)) : s = name ++ rest := by
  simp only [qualifiedName?, Option.bind_eq_bind, Option.bind_eq_some_iff, Prod.exists] at h
  obtain ⟨first, r, hf, h⟩ := h
  have hs := eq_of_localName? hf
  split at h
  · rename_i after
    split at h
    · rename_i second r2 hn
      cases h
      rw [hs, eq_of_localName? hn]
      simp
    · cases h
      exact hs
  · cases h
    exact hs

end ViewTemplate.Markup

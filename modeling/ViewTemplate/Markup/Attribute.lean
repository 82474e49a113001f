import ViewTemplate.Diagnostic
import ViewTemplate.Text.Blank
import ViewTemplate.Text.Cut
import ViewTemplate.Text.Word

/-! # Attributes

An attribute is a name, possibly with a value in quotes or without. The name of an attribute whose
argument is an expression in brackets may hold characters that other names may not.
-/

namespace ViewTemplate

/-- A name and a value; a dynamic name is an expression. -/
structure Attribute where
  name : String
  value : String
  dynamic : Bool := false
  range : Option Range := none
  deriving DecidableEq, Repr, Inhabited

namespace Markup

def isAttributeChar (c : Char) : Bool :=
  !Text.isBlank c && !(['"', '\x27', '<', '>', '/', '='].contains c)

/-- Characters of a value without quotes. -/
def isUnquotedChar (c : Char) : Bool :=
  !Text.isBlank c && !(['"', '\x27', '=', '<', '>', '\x60'].contains c)

/-- An attribute as it stands in a tag: the blanks before it, its name, the text of its value part
and the value itself. -/
structure AttributeText where
  blanks : List Char
  name : List Char
  part : List Char
  value : List Char

/-- A value at the front: its text with quotes, the value and the rest. Quotes that follow the
closing quote directly belong to it. -/
def quotedValue? (quote : Char) (s : List Char) : Option (List Char × List Char × List Char) := do
  let (value, rest) ← Text.cut? [quote] s
  let more := rest.takeWhile (· == quote)
  pure (quote :: value ++ quote :: more, value, rest.dropWhile (· == quote))

def value? (s : List Char) : Option (List Char × List Char × List Char) :=
  match s with
  | [] => none
  | c :: r =>
    if c = '"' || c = '\x27' then quotedValue? c r
    else
      let value := s.takeWhile isUnquotedChar
      if value.isEmpty then none else some (value, value, s.dropWhile isUnquotedChar)

/-- The equals sign with a value: the text, the value and the rest. -/
def valuePart? (s : List Char) : Option (List Char × List Char × List Char) :=
  match Text.trimStart s with
  | '=' :: r =>
    (value? (Text.trimStart r)).map fun (text, value, rest) =>
      (s.takeWhile Text.isBlank ++ '=' :: r.takeWhile Text.isBlank ++ text, value, rest)
  | _ => none

/-- Characters of the directive name before an argument. -/
def isLeadChar (c : Char) : Bool := Text.isWord c || c == '-'

/-- The part of a dynamic name before its bracket. -/
def dynamicLead? (s : List Char) : Option (List Char × List Char) :=
  match s with
  | 'v' :: '-' :: r =>
    let word := r.takeWhile isLeadChar
    match r.dropWhile isLeadChar with
    | ':' :: rest => if word.isEmpty then none else some ('v' :: '-' :: word ++ [':'], rest)
    | _ => none
  | c :: rest => if c = '@' || c = ':' || c = '#' then some ([c], rest) else none
  | [] => none

/-- Characters of an argument after its first one. -/
def isArgumentChar (c : Char) : Bool := c != ']' && c != '='

/-- An expression in brackets, of at least one character and without an equals sign. -/
def bracketed? : List Char → Option (List Char × List Char)
  | '[' :: c :: s =>
    let inside := s.takeWhile isArgumentChar
    match s.dropWhile isArgumentChar with
    | ']' :: rest => if c = '=' then none else some ('[' :: c :: inside ++ [']'], rest)
    | _ => none
  | _ => none

def dynamicName? (s : List Char) : Option (List Char × List Char) := do
  let (lead, rest) ← dynamicLead? s
  let (argument, rest) ← bracketed? rest
  pure (lead ++ argument ++ rest.takeWhile isAttributeChar, rest.dropWhile isAttributeChar)

def plainName? (s : List Char) : Option (List Char × List Char) :=
  let name := s.takeWhile isAttributeChar
  if name.isEmpty then none else some (name, s.dropWhile isAttributeChar)

/-- An attribute at the front, and the text after it. -/
def attribute? (s : List Char) : Option (AttributeText × List Char) := do
  let blanks := s.takeWhile Text.isBlank
  let (name, rest) ← (dynamicName? (Text.trimStart s)).or (plainName? (Text.trimStart s))
  match valuePart? rest with
  | some (part, value, rest) => pure (⟨blanks, name, part, value⟩, rest)
  | none => pure (⟨blanks, name, [], []⟩, rest)

/-- The end of a start tag: whether it is self-closing, its text and the rest. -/
def tagEnd? (s : List Char) : Option (Bool × List Char × List Char) :=
  let blanks := s.takeWhile Text.isBlank
  match Text.trimStart s with
  | '>' :: rest => some (false, blanks ++ ['>'], rest)
  | '/' :: '>' :: rest => some (true, blanks ++ ['/', '>'], rest)
  | _ => none

namespace AttributeText

/-- The text that the attribute takes up, blanks included. -/
def text (a : AttributeText) : List Char := a.blanks ++ a.name ++ a.part

end AttributeText

theorem eq_of_value? {s text value rest : List Char} (h : value? s = some (text, value, rest)) :
    s = text ++ rest := by
  cases s with
  | nil => simp [value?] at h
  | cons c r =>
      simp only [value?] at h
      split at h
      · simp only [quotedValue?, Option.bind_eq_bind, Option.pure_def, Option.bind_eq_some_iff,
          Prod.exists, Option.some.injEq, Prod.mk.injEq] at h
        obtain ⟨v, t, hc, rfl, rfl, rfl⟩ := h
        rw [Text.eq_of_cut? hc]
        simp [List.takeWhile_append_dropWhile]
      · split at h
        · cases h
        · cases h
          exact List.takeWhile_append_dropWhile.symm

theorem eq_of_valuePart? {s text value rest : List Char}
    (h : valuePart? s = some (text, value, rest)) : s = text ++ rest := by
  simp only [valuePart?] at h
  split at h
  · rename_i r hr
    simp only [Option.map_eq_some_iff, Prod.exists, Prod.mk.injEq] at h
    obtain ⟨t, v, u, hv, rfl, rfl, rfl⟩ := h
    have h1 := Text.takeWhile_append_trimStart s
    have h2 := Text.takeWhile_append_trimStart r
    rw [eq_of_value? hv] at h2
    rw [hr, ← h2] at h1
    simpa using h1.symm
  · cases h

theorem eq_of_dynamicLead? {s lead rest : List Char} (h : dynamicLead? s = some (lead, rest)) :
    s = lead ++ rest := by
  simp only [dynamicLead?] at h
  split at h
  · rename_i r
    split at h
    · rename_i t ht
      split at h
      · cases h
      · cases h
        have hd := @List.takeWhile_append_dropWhile _ isLeadChar r
        rw [ht] at hd
        simpa using hd.symm
    · cases h
  · split at h
    · cases h
      simp
    · cases h
  · cases h

theorem eq_of_bracketed? {s text rest : List Char} (h : bracketed? s = some (text, rest)) :
    s = text ++ rest := by
  simp only [bracketed?] at h
  split at h
  · rename_i c t
    split at h
    · rename_i r hr
      split at h
      · cases h
      · cases h
        have hd := @List.takeWhile_append_dropWhile _ isArgumentChar t
        rw [hr] at hd
        simpa using hd.symm
    · cases h
  · cases h

theorem exists_of_dynamicName? {s name rest : List Char} (h : dynamicName? s = some (name, rest)) :
    ∃ lead r, dynamicLead? s = some (lead, r) ∧ ∃ argument t, bracketed? r = some (argument, t) ∧
      lead ++ argument ++ t.takeWhile isAttributeChar = name ∧ t.dropWhile isAttributeChar = rest := by
  simpa only [dynamicName?, Option.bind_eq_bind, Option.pure_def, Option.bind_eq_some_iff,
    Prod.exists, Option.some.injEq, Prod.mk.injEq] using h

theorem eq_of_dynamicName? {s name rest : List Char} (h : dynamicName? s = some (name, rest)) :
    s = name ++ rest := by
  obtain ⟨lead, r, hl, argument, t, hb, rfl, rfl⟩ := exists_of_dynamicName? h
  rw [eq_of_dynamicLead? hl, eq_of_bracketed? hb]
  simp [List.takeWhile_append_dropWhile]

theorem eq_of_plainName? {s name rest : List Char} (h : plainName? s = some (name, rest)) :
    s = name ++ rest := by
  simp only [plainName?] at h
  split at h
  · cases h
  · cases h
    exact List.takeWhile_append_dropWhile.symm

theorem ne_nil_of_dynamicName? {s name rest : List Char} (h : dynamicName? s = some (name, rest)) :
    name ≠ [] := by
  obtain ⟨lead, r, hl, argument, t, hb, rfl, rfl⟩ := exists_of_dynamicName? h
  intro hn
  simp only [List.append_eq_nil_iff] at hn
  have : argument ≠ [] := by
    simp only [bracketed?] at hb
    split at hb
    · split at hb
      · split at hb
        · cases hb
        · cases hb
          simp
      · cases hb
    · cases hb
  exact this hn.1.2

theorem ne_nil_of_plainName? {s name rest : List Char} (h : plainName? s = some (name, rest)) :
    name ≠ [] := by
  simp only [plainName?] at h
  split at h
  · cases h
  · rename_i hn
    cases h
    simpa using hn

/-- An attribute is cut off the front of the text, and it is not empty. -/
theorem eq_of_attribute? {s rest : List Char} {a : AttributeText}
    (h : attribute? s = some (a, rest)) : s = a.text ++ rest ∧ a.name ≠ [] := by
  simp only [attribute?, Option.bind_eq_bind, Option.pure_def, Option.bind_eq_some_iff,
    Prod.exists] at h
  obtain ⟨name, r, hn, h⟩ := h
  have hs := Text.takeWhile_append_trimStart s
  have hname : Text.trimStart s = name ++ r ∧ name ≠ [] := by
    cases hd : dynamicName? (Text.trimStart s) with
    | some nr =>
        rw [hd] at hn
        cases hn
        exact ⟨eq_of_dynamicName? hd, ne_nil_of_dynamicName? hd⟩
    | none =>
        rw [hd] at hn
        exact ⟨eq_of_plainName? hn, ne_nil_of_plainName? hn⟩
  rw [hname.1] at hs
  split at h
  · rename_i part value t hv
    cases h
    refine ⟨?_, hname.2⟩
    rw [eq_of_valuePart? hv] at hs
    simpa [AttributeText.text] using hs.symm
  · cases h
    exact ⟨by simpa [AttributeText.text] using hs.symm, hname.2⟩

theorem length_of_attribute? {s rest : List Char} {a : AttributeText}
    (h : attribute? s = some (a, rest)) : rest.length < s.length := by
  obtain ⟨hs, hn⟩ := eq_of_attribute? h
  have hpos := List.length_pos_iff.2 hn
  rw [hs]
  simp only [AttributeText.text, List.length_append]
  omega

/-- The end of a tag is cut off the front of the text. -/
theorem eq_of_tagEnd? {s text rest : List Char} {closing : Bool}
    (h : tagEnd? s = some (closing, text, rest)) : s = text ++ rest := by
  have hs := Text.takeWhile_append_trimStart s
  simp only [tagEnd?] at h
  split at h
  · rename_i r hr
    cases h
    rw [hr] at hs
    simpa using hs.symm
  · rename_i r hr
    cases h
    rw [hr] at hs
    simpa using hs.symm
  · cases h

end Markup

end ViewTemplate

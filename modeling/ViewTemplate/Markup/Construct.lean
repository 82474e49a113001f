import ViewTemplate.Markup.Attribute
import ViewTemplate.Markup.Name
import ViewTemplate.Text.Casing

/-! # Markup constructs

What may start at an opening angle bracket: comments, conditional comments, document types, end tags
and start tags, tried in this order. Each recogniser cuts the text of the construct off the front.
-/

namespace ViewTemplate.Markup

def commentOpen : List Char := ['<', '!', '-', '-']

def conditionalOpen : List Char := ['<', '!', '[']

/-- An attribute with its place in the source. -/
structure PlacedAttribute where
  name : List Char
  value : List Char
  range : Range

/-- A construct of markup. -/
inductive Construct
  /-- The text is missing where the closing mark shares characters with the opening one. -/
  | comment (text : Option (List Char))
  | conditional
  | doctype
  | endTag (name : List Char)
  | startTag (name : List Char) (attributes : List PlacedAttribute) (selfClosing : Bool)

/-- A construct with its text, and what follows it. -/
structure Found where
  construct : Construct
  text : List Char
  rest : List Char

/-- A construct from an opening mark up to a closing one, made of what stands before the latter. -/
def enclosed? (opening closing : List Char) (construct : List Char → Construct) (s : List Char) :
    Option Found := do
  let _ ← Text.after? opening s
  let (before, rest) ← Text.cut? closing s
  pure ⟨construct before, before ++ closing, rest⟩

def comment? : List Char → Option Found :=
  enclosed? commentOpen ['-', '-', '>'] fun before => .comment (Text.after? commentOpen before)

def conditional? : List Char → Option Found :=
  enclosed? conditionalOpen [']', '>'] fun _ => .conditional

/-- The keyword in any case, a space, and at least one character before the closing bracket. -/
def doctype? (s : List Char) : Option Found := do
  let _ ← Text.after? "<!doctype ".toList ((s.take 10).map Text.asciiLower)
  let (inside, rest) ← Text.cut? ['>'] (s.drop 10)
  if inside.isEmpty then none else pure ⟨.doctype, s.take 10 ++ inside ++ ['>'], rest⟩

def endTag? (s : List Char) : Option Found := do
  let inside ← Text.after? ['<', '/'] s
  let (name, rest) ← qualifiedName? inside
  let (more, rest) ← Text.cut? ['>'] rest
  pure ⟨.endTag name, ['<', '/'] ++ name ++ more ++ ['>'], rest⟩

/-- The name of a start tag, and the text after it. -/
def startTagName? (s : List Char) : Option (List Char × List Char) := do
  let inside ← Text.after? ['<'] s
  qualifiedName? inside

/-- The attributes up to the end of a tag that starts at `offset`: the attributes, whether the tag is
self-closing, the text read and the rest. -/
def attributes? (offset : Nat) (s : List Char) :
    Option (List PlacedAttribute × Bool × List Char × List Char) :=
  match tagEnd? s with
  | some (selfClosing, text, rest) => some ([], selfClosing, text, rest)
  | none =>
    match _h : attribute? s with
    | none => none
    | some (a, rest) =>
      let stop := offset + Text.byteLength a.text
      (attributes? stop rest).map fun (others, selfClosing, text, rest) =>
        (⟨a.name, a.value, ⟨offset + Text.byteLength a.blanks, stop⟩⟩ :: others, selfClosing,
          a.text ++ text, rest)
termination_by s.length
decreasing_by exact length_of_attribute? _h

def startTag? (offset : Nat) (s : List Char) : Option Found := do
  let (name, rest) ← startTagName? s
  let (attributes, selfClosing, text, rest) ←
    attributes? (offset + 1 + Text.byteLength name) rest
  pure ⟨.startTag name attributes selfClosing, '<' :: name ++ text, rest⟩

/-- The construct at the front of a text that starts at `offset`. -/
def construct? (offset : Nat) (s : List Char) : Option Found :=
  (comment? s).or <| (conditional? s).or <| (doctype? s).or <| (endTag? s).or (startTag? offset s)

/-- Whether a construct is begun here, complete or not. -/
def beginsConstruct (s : List Char) : Bool :=
  (endTag? s).isSome || (startTagName? s).isSome || Text.startsWith commentOpen s ||
    Text.startsWith conditionalOpen s

/-- Text up to the next bracket that begins a construct, or else up to the last bracket. -/
def textRun : List Char → List Char × List Char
  | [] => ([], [])
  | c :: s =>
    if c = '<' && (beginsConstruct (c :: s) || !s.contains '<') then ([], c :: s)
    else
      let (run, rest) := textRun s
      (c :: run, rest)

/-- The content of a raw text element up to its end tag, the text of the end tag and the rest. -/
def rawText? (lowerTag : List Char) (s : List Char) :
    Option (List Char × List Char × List Char) := do
  let mark := '<' :: '/' :: lowerTag
  let (before, _) ← Text.cut? mark (s.map Text.asciiLower)
  let tag := s.drop before.length
  let (more, rest) ← Text.cut? ['>'] (tag.drop mark.length)
  pure (s.take before.length, tag.take mark.length ++ more ++ ['>'], rest)

/-- Removes pairs of marks and keeps what stands between them. The opening mark is given by its first
character and the others. -/
def unwrap (first : Char) (others closing : List Char) (s : List Char) : List Char :=
  match _ho : Text.cut? (first :: others) s with
  | none => s
  | some (before, inside) =>
    match _hc : Text.cut? closing inside with
    | none => s
    | some (kept, rest) => before ++ kept ++ unwrap first others closing rest
termination_by s.length
decreasing_by
  have h1 := Text.length_of_cut? _ho
  have h2 := Text.length_of_cut? _hc
  simp only [List.length_cons] at h1
  omega

theorem exists_of_enclosed? {opening closing s : List Char} {construct : List Char → Construct}
    {found : Found} (h : enclosed? opening closing construct s = some found) :
    ∃ inside, Text.after? opening s = some inside ∧ ∃ before rest,
      Text.cut? closing s = some (before, rest) ∧ ⟨construct before, before ++ closing, rest⟩ = found := by
  simpa only [enclosed?, Option.bind_eq_bind, Option.pure_def, Option.bind_eq_some_iff,
    Prod.exists, Option.some.injEq] using h

theorem eq_of_enclosed? {opening closing s : List Char} {construct : List Char → Construct}
    {found : Found} (h : enclosed? opening closing construct s = some found) :
    s = found.text ++ found.rest := by
  obtain ⟨-, -, before, rest, hc, rfl⟩ := exists_of_enclosed? h
  exact Text.eq_of_cut? hc

theorem eq_of_doctype? {s : List Char} {found : Found} (h : doctype? s = some found) :
    s = found.text ++ found.rest := by
  simp only [doctype?, Option.bind_eq_bind, Option.pure_def, Option.bind_eq_some_iff,
    Prod.exists] at h
  obtain ⟨-, -, inside, rest, hc, h⟩ := h
  split at h
  · cases h
  · cases h
    have hs := List.take_append_drop 10 s
    rw [Text.eq_of_cut? hc] at hs
    simpa using hs.symm

theorem exists_of_endTag? {s : List Char} {found : Found} (h : endTag? s = some found) :
    ∃ inside, Text.after? ['<', '/'] s = some inside ∧ ∃ name r,
      qualifiedName? inside = some (name, r) ∧ ∃ more rest, Text.cut? ['>'] r = some (more, rest) ∧
      ⟨.endTag name, ['<', '/'] ++ name ++ more ++ ['>'], rest⟩ = found := by
  simpa only [endTag?, Option.bind_eq_bind, Option.pure_def, Option.bind_eq_some_iff,
    Prod.exists, Option.some.injEq] using h

theorem eq_of_endTag? {s : List Char} {found : Found} (h : endTag? s = some found) :
    s = found.text ++ found.rest := by
  obtain ⟨inside, ha, name, r, hn, more, rest, hc, rfl⟩ := exists_of_endTag? h
  rw [Text.after?_eq_some_iff.1 ha, eq_of_qualifiedName? hn, Text.eq_of_cut? hc]
  simp

theorem eq_of_attributes? {offset : Nat} {s text rest : List Char} {as : List PlacedAttribute}
    {selfClosing : Bool} (h : attributes? offset s = some (as, selfClosing, text, rest)) :
    s = text ++ rest := by
  fun_induction attributes? offset s generalizing as selfClosing text rest with
  | case1 offset s _ _ _ he =>
      cases h
      exact eq_of_tagEnd? he
  | case2 => cases h
  | case3 =>
      rename_i ha _ ih
      simp only [Option.map_eq_some_iff, Prod.exists, Prod.mk.injEq] at h
      obtain ⟨_, _, t, _, hr, rfl, rfl, rfl, rfl⟩ := h
      rw [(eq_of_attribute? ha).1, ih hr]
      simp

theorem exists_of_startTag? {offset : Nat} {s : List Char} {found : Found}
    (h : startTag? offset s = some found) :
    ∃ name r, (∃ inside, Text.after? ['<'] s = some inside ∧
        qualifiedName? inside = some (name, r)) ∧
      ∃ as selfClosing text rest,
        attributes? (offset + 1 + Text.byteLength name) r = some (as, selfClosing, text, rest) ∧
        ⟨.startTag name as selfClosing, '<' :: name ++ text, rest⟩ = found := by
  simpa only [startTag?, startTagName?, Option.bind_eq_bind, Option.pure_def,
    Option.bind_eq_some_iff, Prod.exists, Option.some.injEq] using h

theorem eq_of_startTag? {offset : Nat} {s : List Char} {found : Found}
    (h : startTag? offset s = some found) : s = found.text ++ found.rest := by
  obtain ⟨name, r, ⟨inside, ha, hn⟩, as, selfClosing, text, rest, hr, rfl⟩ := exists_of_startTag? h
  rw [Text.after?_eq_some_iff.1 ha, eq_of_qualifiedName? hn, eq_of_attributes? hr]
  simp

/-- A construct is cut off the front of the text. -/
theorem eq_of_construct? {offset : Nat} {s : List Char} {found : Found}
    (h : construct? offset s = some found) : s = found.text ++ found.rest := by
  simp only [construct?, Option.or_eq_some_iff] at h
  rcases h with h | ⟨-, h | ⟨-, h | ⟨-, h | ⟨-, h⟩⟩⟩⟩
  · exact eq_of_enclosed? h
  · exact eq_of_enclosed? h
  · exact eq_of_doctype? h
  · exact eq_of_endTag? h
  · exact eq_of_startTag? h

/-- A run of text and its rest make up the text. -/
theorem textRun_append (s : List Char) : (textRun s).1 ++ (textRun s).2 = s := by
  induction s with
  | nil => rfl
  | cons c s ih =>
      simp only [textRun]
      split
      · simp
      · simp [ih]

end ViewTemplate.Markup

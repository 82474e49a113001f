import Mathlib.Data.List.Infix
import ViewTemplate.Proofs.SourcePieces

/-! # Reading printed markup

A forest of elements, texts and comments is printed with quoted attribute values, in which the
characters that mean something to the reader are written as references. Reading the print gives back
the forest: its events, without their places in the source, are the traversal of the forest.

The reader works from the left, so each item is treated with whatever follows it. A text ends only
where a construct begins, which is what the next item or the end tag around it has to show.
-/

open List Option

namespace ViewTemplate

open Text

/-- An event without its place in the source. -/
inductive Signal
  | start (tag : String) (attributes : List (String × String)) (unary : Bool)
  | finish (tag : String)
  | text (content : String)
  | comment (content : String)
  deriving DecidableEq, Repr

/-- What an event says, wherever it stands. -/
def Event.signal : Event → Signal
  | .start tag attributes unary _ => .start tag (attributes.map fun a => (a.name, a.value)) unary
  | .finish tag _ => .finish tag
  | .text content _ => .text content
  | .comment content _ => .comment content

namespace Markup

variable {a : String × String} {attributes : List (String × String)} {c : Char}
  {name rest s text : List Char} {settings : Settings} {stack : List String} {tag : String}

/-- A piece of a document. An element is self-closing or has children and an end tag. -/
inductive Item
  | text (content : String)
  | comment (content : String)
  | selfClosing (tag : String) (attributes : List (String × String))
  | element (tag : String) (attributes : List (String × String)) (children : List Item)

/-- How a character is written in a quoted value. -/
def escapeChar (c : Char) : List Char :=
  if c = '&' then ['&', 'a', 'm', 'p', ';']
  else if c = '<' then ['&', 'l', 't', ';']
  else if c = '>' then ['&', 'g', 't', ';']
  else if c = '"' then ['&', 'q', 'u', 'o', 't', ';']
  else if c = '\x27' then ['&', '#', '3', '9', ';']
  else [c]

def escape (value : String) : List Char := value.toList.flatMap escapeChar

def printAttribute (a : String × String) : List Char :=
  ' ' :: (a.1.toList ++ '=' :: '"' :: (escape a.2 ++ ['"']))

def commentClose : List Char := ['-', '-', '>']

def printEndTag (tag : String) : List Char := '<' :: '/' :: (tag.toList ++ ['>'])

def printTagEnd (selfClosing : Bool) : List Char := if selfClosing then [' ', '/', '>'] else ['>']

def printStartTag (tag : String) (attributes : List (String × String)) (selfClosing : Bool) :
    List Char :=
  '<' :: (tag.toList ++ (attributes.flatMap printAttribute ++ printTagEnd selfClosing))

mutual
def Item.print : Item → List Char
  | .text content => content.toList
  | .comment content => commentOpen ++ (content.toList ++ commentClose)
  | .selfClosing tag attributes => printStartTag tag attributes true
  | .element tag attributes children =>
    printStartTag tag attributes false ++ (print children ++ printEndTag tag)

/-- The text of a forest. -/
def print : List Item → List Char
  | [] => []
  | item :: items => item.print ++ print items
end

mutual
def Item.signals : Item → List Signal
  | .text content => [.text content]
  | .comment content => [.comment content]
  | .selfClosing tag attributes => [.start tag attributes true]
  | .element tag attributes children =>
    .start tag attributes false :: (signals children ++ [.finish tag])

/-- The traversal of a forest. -/
def signals : List Item → List Signal
  | [] => []
  | item :: items => item.signals ++ signals items
end

/-- A name without a colon. -/
def IsLocalName (s : List Char) : Prop :=
  ∃ c cs, s = c :: cs ∧ isNameStart c = true ∧ ∀ d ∈ cs, isNameChar d = true

/-- One name, or two with a colon between them. -/
def IsQualifiedName (s : List Char) : Prop :=
  IsLocalName s ∨ ∃ first second, IsLocalName first ∧ IsLocalName second ∧
    s = first ++ ':' :: second

/-- A tag that can be printed: a name of no element whose content is read in a way of its own. -/
structure PrintableTag (tag : String) : Prop where
  name : IsQualifiedName tag.toList
  ordinary : Tag.lower tag ∉ ["script", "style", "textarea", "pre"]

/-- An attribute that can be printed. Its value may be any text. -/
structure PrintableAttribute (a : String × String) : Prop where
  ne_nil : a.1.toList ≠ []
  name : ∀ c ∈ a.1.toList, isAttributeChar c = true
  bracket : '[' ∉ a.1.toList

/-- A comment that can be printed: it does not hold its own end, also not together with its
beginning. -/
structure PrintableComment (text : List Char) : Prop where
  close : ¬ commentClose <:+: text
  short : ¬ ['>'] <+: text
  dash : ¬ ['-', '>'] <+: text

/-- A text in front of which no other text stands. -/
def StartsText : List Item → Prop
  | .text _ :: _ => True
  | _ => False

/-- A forest that can be printed for a platform. Elements with children are not unary there, and no
two texts stand side by side. -/
inductive Printable (platform : Platform) : List Item → Prop
  | nil : Printable platform []
  | text {content : String} {items : List Item} (hne : content.toList ≠ [])
      (hopen : '<' ∉ content.toList) (hnext : ¬ StartsText items)
      (rest : Printable platform items) : Printable platform (.text content :: items)
  | comment {content : String} {items : List Item} (hcontent : PrintableComment content.toList)
      (rest : Printable platform items) : Printable platform (.comment content :: items)
  | selfClosing {tag : String} {attributes : List (String × String)} {items : List Item}
      (htag : PrintableTag tag) (hattributes : ∀ a ∈ attributes, PrintableAttribute a)
      (rest : Printable platform items) :
      Printable platform (.selfClosing tag attributes :: items)
  | element {tag : String} {attributes : List (String × String)} {children items : List Item}
      (htag : PrintableTag tag) (hattributes : ∀ a ∈ attributes, PrintableAttribute a)
      (hunary : platform.isUnary tag = false) (inside : Printable platform children)
      (rest : Printable platform items) :
      Printable platform (.element tag attributes children :: items)

/-! ### Names -/

theorem localName?_append (h : IsLocalName name) (hrest : ∀ c ∈ rest.head?, isNameChar c = false) :
    localName? (name ++ rest) = some (name, rest) := by
  obtain ⟨c, cs, rfl, hc, hcs⟩ := h
  have htake : rest.takeWhile isNameChar = [] ∧ rest.dropWhile isNameChar = rest := by
    cases rest with
    | nil => simp
    | cons d r => simp [hrest d rfl]
  rw [cons_append, localName?, if_pos hc, takeWhile_append_of_pos hcs,
    dropWhile_append_of_pos hcs, htake.1, htake.2, append_nil]

/-- A qualified name is read up to a character that no name holds. -/
theorem qualifiedName?_append (h : IsQualifiedName name)
    (hrest : ∀ c ∈ rest.head?, isNameChar c = false ∧ c ≠ ':') :
    qualifiedName? (name ++ rest) = some (name, rest) := by
  have hend : ∀ c ∈ rest.head?, isNameChar c = false := fun c hc => (hrest c hc).1
  rcases h with h | ⟨first, second, hfirst, hsecond, rfl⟩
  · rw [qualifiedName?, localName?_append h hend]
    cases rest with
    | nil => rfl
    | cons d r =>
      have hd : d ≠ ':' := (hrest d rfl).2
      simp [hd]
  · have hcolon : ∀ c ∈ (':' :: (second ++ rest)).head?, isNameChar c = false := by
      intro c hc
      cases hc
      decide
    rw [append_assoc, cons_append, qualifiedName?, localName?_append hfirst hcolon]
    simp [localName?_append hsecond hend]

theorem IsQualifiedName.exists_cons (h : IsQualifiedName name) :
    ∃ c cs, name = c :: cs ∧ isNameStart c = true := by
  rcases h with ⟨c, cs, rfl, hc, -⟩ | ⟨-, second, ⟨c, cs, rfl, hc, -⟩, -, rfl⟩
  · exact ⟨c, cs, rfl, hc⟩
  · exact ⟨c, cs ++ ':' :: second, rfl, hc⟩

/-! ### Attributes -/

theorem quote_not_mem_escape (value : String) : '"' ∉ escape value := by
  simp only [escape, mem_flatMap, not_exists, not_and]
  intro c _
  rw [escapeChar]
  split_ifs with h1 h2 h3 h4 h5
  all_goals simp_all [eq_comm]

/-- The reader of references gives back a written character, whatever follows it. -/
theorem expand_escapeChar (newlines : Bool) (c : Char) (s : List Char) :
    Text.Reference.expand (Text.Reference.attributeRule newlines) 0 (escapeChar c ++ s) =
      c :: Text.Reference.expand (Text.Reference.attributeRule newlines) 0 s := by
  rw [escapeChar]
  split_ifs with h1 h2 h3 h4 h5
  all_goals
    simp_all [Text.Reference.expand, Text.Reference.attributeRule, Text.Reference.attributeNames,
      startsWith, after?]

theorem decodeAttribute_escape (newlines : Bool) (value : String) :
    Text.Reference.decodeAttribute newlines (String.ofList (escape value)) = value := by
  have hexpand : ∀ s : List Char,
      Text.Reference.expand (Text.Reference.attributeRule newlines) 0 (s.flatMap escapeChar) = s := by
    intro s
    induction s with
    | nil => rfl
    | cons c s ih => rw [flatMap_cons, expand_escapeChar, ih]
  rw [Text.Reference.decodeAttribute, onChars, String.toList_ofList, escape, hexpand,
    String.ofList_toList]

theorem equals_not_mem_of_dynamicLead? {lead : List Char} (h : dynamicLead? s = some (lead, rest)) :
    '=' ∉ lead := by
  simp only [dynamicLead?] at h
  split at h
  · rename_i r
    split at h
    · split at h
      · cases h
      · cases h
        have hword : '=' ∉ r.takeWhile isLeadChar := fun hmem =>
          absurd (List.all_eq_true.mp all_takeWhile '=' hmem) (by decide)
        simpa using hword
    · cases h
  · rename_i c _
    split at h
    · rename_i hc
      cases h
      intro hmem
      cases mem_singleton.mp hmem
      exact absurd hc (by decide)
    · cases h
  · cases h

/-- A name without a bracket is not read as a dynamic one: what stands before a bracket holds no equals
sign, so that the bracket would have to be in the name. -/
theorem dynamicName?_append_equals (h : '[' ∉ name) (rest : List Char) :
    dynamicName? (name ++ '=' :: rest) = none := by
  cases hlead : dynamicLead? (name ++ '=' :: rest) with
  | none => rw [dynamicName?, hlead, bind_eq_bind, bind_none]
  | some found =>
    obtain ⟨lead, after⟩ := found
    have hequals := equals_not_mem_of_dynamicLead? hlead
    have hbracket : ∀ after', after ≠ '[' :: after' := by
      rintro after' rfl
      rcases append_eq_append_iff.mp (eq_of_dynamicLead? hlead) with
        ⟨more, hl, hm⟩ | ⟨more, hn, hm⟩
      · cases more with
        | nil => cases hm
        | cons d more =>
          cases hm
          exact hequals (hl ▸ by simp)
      · cases more with
        | nil => cases hm
        | cons d more =>
          cases hm
          exact h (hn ▸ by simp)
    have hnone : bracketed? after = none := by
      rw [bracketed?.eq_def]
      split
      · rename_i c s
        exact absurd rfl (hbracket (c :: s))
      · rfl
    simp [dynamicName?, hlead, hnone]

theorem takeWhile_append_equals (h : ∀ c ∈ name, isAttributeChar c = true) (rest : List Char) :
    (name ++ '=' :: rest).takeWhile isAttributeChar = name ∧
      (name ++ '=' :: rest).dropWhile isAttributeChar = '=' :: rest := by
  have hend : isAttributeChar '=' = false := by decide
  rw [takeWhile_append_of_pos h, dropWhile_append_of_pos h]
  simp [hend]

theorem cut?_quote {value : List Char} (h : '"' ∉ value) :
    cut? ['"'] (value ++ '"' :: rest) = some (value, rest) := by
  induction value with
  | nil => simp [cut?, after?]
  | cons c value ih =>
    simp only [mem_cons, not_or] at h
    simp [cut?, after?, h.1, ih h.2]

theorem PrintableAttribute.exists_cons (h : PrintableAttribute a) :
    ∃ c cs, a.1.toList = c :: cs ∧ isAttributeChar c = true := by
  cases hname : a.1.toList with
  | nil => exact absurd hname h.ne_nil
  | cons c cs => exact ⟨c, cs, rfl, h.name c (hname ▸ mem_cons_self)⟩

theorem trimStart_printAttribute (h : PrintableAttribute a) (rest : List Char) :
    trimStart (printAttribute a ++ rest) =
      a.1.toList ++ '=' :: '"' :: (escape a.2 ++ '"' :: rest) := by
  obtain ⟨c, cs, hname, hc⟩ := h.exists_cons
  have hblank : isBlank c = false := by
    simp only [isAttributeChar, Bool.and_eq_true, Bool.not_eq_true'] at hc
    exact hc.1
  have hspace : isBlank ' ' = true := by decide
  simp [printAttribute, trimStart, hspace, hname, hblank]

/-- A printed attribute is read whole, if no further quote follows it. -/
theorem attribute?_printAttribute (h : PrintableAttribute a) (hrest : '"' ∉ rest.head?) :
    ∃ found, attribute? (printAttribute a ++ rest) = some (found, rest) ∧
      found.name = a.1.toList ∧ found.value = escape a.2 := by
  have hname := takeWhile_append_equals h.name ('"' :: (escape a.2 ++ '"' :: rest))
  have hplain : plainName? (a.1.toList ++ '=' :: '"' :: (escape a.2 ++ '"' :: rest)) =
      some (a.1.toList, '=' :: '"' :: (escape a.2 ++ '"' :: rest)) := by
    rw [plainName?, hname.1, hname.2]
    simp [h.ne_nil]
  have hmore : rest.takeWhile (· == '"') = [] ∧ rest.dropWhile (· == '"') = rest := by
    cases rest with
    | nil => simp
    | cons d r =>
      have hd : ¬ d = '"' := fun hd => hrest (by simp [hd])
      simp [hd]
  have hquote : value? ('"' :: (escape a.2 ++ '"' :: rest)) =
      some ('"' :: escape a.2 ++ ['"'], escape a.2, rest) := by
    rw [value?]
    simp [quotedValue?, cut?_quote (quote_not_mem_escape a.2), hmore.1, hmore.2]
  have hpart : ∃ part, valuePart? ('=' :: '"' :: (escape a.2 ++ '"' :: rest)) =
      some (part, escape a.2, rest) := by
    have hequals : isBlank '=' = false := by decide
    have hmark : isBlank '"' = false := by decide
    simp [valuePart?, trimStart, hequals, hmark, hquote]
  obtain ⟨part, hpart⟩ := hpart
  refine ⟨⟨(printAttribute a ++ rest).takeWhile isBlank, a.1.toList, part, escape a.2⟩, ?_,
    rfl, rfl⟩
  rw [attribute?, trimStart_printAttribute h, dynamicName?_append_equals h.bracket, hplain]
  simp [hpart]

theorem tagEnd?_printTagEnd (selfClosing : Bool) (rest : List Char) :
    ∃ text, tagEnd? (printTagEnd selfClosing ++ rest) = some (selfClosing, text, rest) := by
  have hspace : isBlank ' ' = true := by decide
  have hslash : isBlank '/' = false := by decide
  have hclose : isBlank '>' = false := by decide
  cases selfClosing with
  | false => simp [printTagEnd, tagEnd?, trimStart, hclose]
  | true => simp [printTagEnd, tagEnd?, trimStart, hspace, hslash]

theorem tagEnd?_printAttribute (h : PrintableAttribute a) (rest : List Char) :
    tagEnd? (printAttribute a ++ rest) = none := by
  obtain ⟨c, cs, hname, hc⟩ := h.exists_cons
  have hclose : c ≠ '>' := by
    rintro rfl
    exact absurd hc (by decide)
  have hslash : c ≠ '/' := by
    rintro rfl
    exact absurd hc (by decide)
  rw [tagEnd?, trimStart_printAttribute h, hname]
  simp [hclose, hslash]

/-- What follows a name or a value in a start tag. -/
theorem head?_printed_attributes (attributes : List (String × String)) (selfClosing : Bool)
    (rest : List Char) :
    ∀ c ∈ (attributes.flatMap printAttribute ++ (printTagEnd selfClosing ++ rest)).head?,
      c = ' ' ∨ c = '>' := by
  intro c hc
  cases attributes with
  | cons a attributes =>
    cases hc
    exact Or.inl rfl
  | nil =>
    cases selfClosing with
    | false =>
      cases hc
      exact Or.inr rfl
    | true =>
      cases hc
      exact Or.inl rfl

theorem attributes?_of_attribute? {a : AttributeText} (hend : tagEnd? s = none)
    (h : attribute? s = some (a, rest)) (offset : Nat) :
    attributes? offset s =
      (attributes? (offset + byteLength a.text) rest).map fun found =>
        (⟨a.name, a.value,
          ⟨offset + byteLength a.blanks, offset + byteLength a.text⟩⟩ :: found.1,
          found.2.1, a.text ++ found.2.2.1, found.2.2.2) := by
  rw [attributes?, hend]
  dsimp only
  split
  · rename_i hnone
    rw [h] at hnone
    cases hnone
  · rename_i hsome
    rw [h] at hsome
    cases hsome
    rfl

theorem attributes?_printed (h : ∀ a ∈ attributes, PrintableAttribute a) (selfClosing : Bool)
    (rest : List Char) (offset : Nat) :
    ∃ placed text,
      attributes? offset (attributes.flatMap printAttribute ++ (printTagEnd selfClosing ++ rest)) =
        some (placed, selfClosing, text, rest) ∧
      placed.map (fun p => (p.name, p.value)) =
        attributes.map fun a => (a.1.toList, escape a.2) := by
  induction attributes generalizing offset with
  | nil =>
    obtain ⟨text, hend⟩ := tagEnd?_printTagEnd selfClosing rest
    refine ⟨[], text, ?_, rfl⟩
    rw [attributes?, flatMap_nil, nil_append, hend]
  | cons a attributes ih =>
    have ha := h a mem_cons_self
    have hquote :
        '"' ∉ (attributes.flatMap printAttribute ++ (printTagEnd selfClosing ++ rest)).head? :=
      fun hmem => absurd (head?_printed_attributes attributes selfClosing rest '"' hmem)
        (by decide)
    obtain ⟨found, hfound, hname, hvalue⟩ := attribute?_printAttribute ha hquote
    obtain ⟨placed, text, hplaced, heq⟩ :=
      ih (fun b hb => h b (mem_cons_of_mem a hb)) (offset + byteLength found.text)
    rw [flatMap_cons, append_assoc,
      attributes?_of_attribute? (tagEnd?_printAttribute ha _) hfound, hplaced, map_some]
    refine ⟨⟨found.name, found.value, ⟨offset + byteLength found.blanks,
      offset + byteLength found.text⟩⟩ :: placed, found.text ++ text, rfl, ?_⟩
    simp only [map_cons, hname, hvalue, heq]

/-! ### Constructs -/

/-- Where no exclamation mark follows a bracket, there is neither a comment nor a declaration. -/
theorem construct?_of_ne_mark (hc : c ≠ '!') (offset : Nat) (s : List Char) :
    construct? offset ('<' :: c :: s) =
      (endTag? ('<' :: c :: s)).or (startTag? offset ('<' :: c :: s)) := by
  have hcomment : comment? ('<' :: c :: s) = none := by
    simp [comment?, enclosed?, commentOpen, after?, hc.symm]
  have hconditional : conditional? ('<' :: c :: s) = none := by
    simp [conditional?, enclosed?, conditionalOpen, after?, hc.symm]
  have hdoctype : doctype? ('<' :: c :: s) = none := by
    have hlower : ¬ '!' = asciiLower c := fun h =>
      hc (eq_of_asciiLower h.symm (by decide))
    have hmark : "<!doctype ".toList = '<' :: '!' :: "doctype ".toList := by decide
    have hbracket : asciiLower '<' = '<' := by decide
    simp [doctype?, hmark, after?, hbracket, hlower]
  rw [construct?, hcomment, hconditional, hdoctype, none_or, none_or, none_or]

/-- A construct begins with a bracket. -/
theorem construct?_of_ne_bracket (hc : c ≠ '<') (offset : Nat) (s : List Char) :
    construct? offset (c :: s) = none := by
  have hlower : ¬ '<' = asciiLower c := fun h =>
    hc (eq_of_asciiLower h.symm (by decide))
  have hmark : "<!doctype ".toList = '<' :: "!doctype ".toList := by decide
  simp [construct?, comment?, enclosed?, commentOpen, conditional?, conditionalOpen, doctype?, hmark, hlower,
    endTag?, startTag?, startTagName?, after?, hc.symm]

theorem isNameStart_ne {d : Char} (hc : isNameStart c = true) (hd : isNameStart d = false) :
    c ≠ d := by
  rintro rfl
  rw [hc] at hd
  cases hd

section

variable (h : IsQualifiedName tag.toList)
include h

theorem startTagName?_printStartTag (attributes : List (String × String)) (selfClosing : Bool)
    (rest : List Char) :
    startTagName? (printStartTag tag attributes selfClosing ++ rest) =
      some (tag.toList,
        attributes.flatMap printAttribute ++ (printTagEnd selfClosing ++ rest)) := by
  have hnext := head?_printed_attributes attributes selfClosing rest
  have hname : ∀ c ∈ (attributes.flatMap printAttribute ++ (printTagEnd selfClosing ++ rest)).head?,
      isNameChar c = false ∧ c ≠ ':' := by
    intro c hc
    rcases hnext c hc with rfl | rfl
    · decide
    · decide
  simp only [startTagName?, printStartTag, cons_append, append_assoc, after?,
    if_true, bind_eq_bind, bind_some]
  exact qualifiedName?_append h hname

/-- A printed start tag is read whole, whatever follows it. -/
theorem construct?_printStartTag (hattributes : ∀ a ∈ attributes, PrintableAttribute a)
    (selfClosing : Bool) (rest : List Char) (offset : Nat) :
    ∃ placed text,
      construct? offset (printStartTag tag attributes selfClosing ++ rest) =
        some ⟨.startTag tag.toList placed selfClosing, text, rest⟩ ∧
      placed.map (fun p => (p.name, p.value)) =
        attributes.map fun a => (a.1.toList, escape a.2) := by
  obtain ⟨c, cs, hname, hc⟩ := h.exists_cons
  have hend : endTag? (printStartTag tag attributes selfClosing ++ rest) = none := by
    have hslash := isNameStart_ne hc (d := '/') (by decide)
    simp [endTag?, printStartTag, hname, after?, hslash.symm]
  have hconstruct : construct? offset (printStartTag tag attributes selfClosing ++ rest) =
      startTag? offset (printStartTag tag attributes selfClosing ++ rest) := by
    have hmark := isNameStart_ne hc (d := '!') (by decide)
    rw [← none_or (o := startTag? _ _), ← hend, printStartTag, hname]
    exact construct?_of_ne_mark hmark offset _
  obtain ⟨placed, text, hplaced, heq⟩ :=
    attributes?_printed hattributes selfClosing rest (offset + 1 + byteLength tag.toList)
  refine ⟨placed, '<' :: tag.toList ++ text, ?_, heq⟩
  rw [hconstruct, startTag?, startTagName?_printStartTag h]
  simp only [bind_eq_bind, bind_some, hplaced, Option.pure_def]

theorem endTag?_printEndTag (rest : List Char) :
    endTag? (printEndTag tag ++ rest) = some ⟨.endTag tag.toList, printEndTag tag, rest⟩ := by
  have hname : ∀ c ∈ ('>' :: rest).head?, isNameChar c = false ∧ c ≠ ':' := by
    intro c hc
    cases hc
    decide
  have hqualified := qualifiedName?_append h hname
  simp [endTag?, printEndTag, after?, hqualified, cut?]

theorem construct?_printEndTag (rest : List Char) (offset : Nat) :
    construct? offset (printEndTag tag ++ rest) =
      some ⟨.endTag tag.toList, printEndTag tag, rest⟩ := by
  have hconstruct := construct?_of_ne_mark (c := '/') (by decide) offset (tag.toList ++ '>' :: rest)
  have hend := endTag?_printEndTag h rest
  simp only [printEndTag, cons_append, append_assoc, nil_append] at hend ⊢
  rw [hconstruct, hend, some_or]

end

/-- The first occurrence of a pattern that ends with a character it holds nowhere else. -/
theorem cut?_append_of_not_infix {p : List Char} {x : Char} (hx : x ∉ p) {before : List Char}
    (h : ¬ p ++ [x] <:+: before) (rest : List Char) :
    cut? (p ++ [x]) (before ++ (p ++ [x] ++ rest)) = some (before, rest) := by
  induction before with
  | nil =>
    have hfound := after?_append (p ++ [x]) rest
    rw [nil_append]
    cases hs : p ++ [x] ++ rest with
    | nil => simp at hs
    | cons c s =>
      rw [hs] at hfound
      rw [cut?, hfound]
  | cons c before ih =>
    have hnone : after? (p ++ [x]) (c :: (before ++ (p ++ [x] ++ rest))) = none := by
      rw [eq_none_iff_forall_ne_some]
      intro after hafter
      have heq : (c :: before ++ p) ++ (x :: rest) = p ++ (x :: after) := by
        simpa using after?_eq_some_iff.mp hafter
      -- The last character of the pattern would lie in what is before, or in the pattern itself.
      rcases append_eq_append_iff.mp heq with ⟨more, hp, -⟩ | ⟨more, hp, hmore⟩
      · have hlength := congrArg length hp
        simp only [length_append, length_cons] at hlength
        omega
      · cases more with
        | nil =>
          have hlength := congrArg length hp
          simp only [length_append, length_cons, length_nil] at hlength
          omega
        | cons d more =>
          cases hmore
          rcases append_eq_append_iff.mp hp with ⟨tail, hq, hr⟩ | ⟨tail, hq, hr⟩
          · exact hx (hr ▸ by simp)
          · cases tail with
            | nil =>
              have hp' : p = x :: more := hr.symm
              exact hx (hp' ▸ mem_cons_self)
            | cons e tail =>
              cases hr
              exact h ⟨[], tail, by simp [hq]⟩
    have hinside : ¬ p ++ [x] <:+: before := fun hin => h (hin.trans (suffix_cons c before).isInfix)
    rw [cons_append, cut?, hnone, ih hinside]
    rfl

/-- The end of a comment does not occur in a printed comment before its place. -/
theorem PrintableComment.not_infix (h : PrintableComment text) :
    ¬ commentClose <:+: commentOpen ++ text := by
  simp only [commentOpen, commentClose, cons_append, nil_append, infix_cons_iff,
    not_or]
  refine ⟨by simp, by simp, ?_, ?_, h.close⟩
  · simpa using h.short
  · simpa using h.dash

theorem construct?_comment (h : PrintableComment text) (rest : List Char) (offset : Nat) :
    construct? offset (commentOpen ++ (text ++ commentClose) ++ rest) =
      some ⟨.comment (some text), commentOpen ++ (text ++ commentClose), rest⟩ := by
  have hcut : cut? ['-', '-', '>'] (commentOpen ++ text ++ (commentClose ++ rest)) =
      some (commentOpen ++ text, rest) :=
    cut?_append_of_not_infix (p := ['-', '-']) (x := '>') (by decide) h.not_infix rest
  have hopen : after? commentOpen (commentOpen ++ text ++ (commentClose ++ rest)) =
      some (text ++ (commentClose ++ rest)) := by
    rw [append_assoc, after?_append]
  have hcomment : comment? (commentOpen ++ text ++ (commentClose ++ rest)) =
      some ⟨.comment (some text), commentOpen ++ text ++ commentClose, rest⟩ := by
    rw [comment?, enclosed?, hopen, hcut]
    simp [commentClose]
  rw [construct?, ← append_assoc, append_assoc _ commentClose, hcomment, some_or]

/-! ### Texts -/

theorem textRun_append_of_not_mem {content : List Char} (h : '<' ∉ content) (rest : List Char) :
    textRun (content ++ rest) = (content ++ (textRun rest).1, (textRun rest).2) := by
  induction content with
  | nil => rfl
  | cons c content ih =>
    simp only [mem_cons, not_or] at h
    have hc : ¬ c = '<' := fun hc => h.1 hc.symm
    simp [textRun, hc, ih h.2]

theorem textRun_of_begins (h : beginsConstruct ('<' :: s) = true) :
    textRun ('<' :: s) = ([], '<' :: s) := by
  simp [textRun, h]

theorem textRun_printStartTag (h : IsQualifiedName tag.toList)
    (attributes : List (String × String)) (selfClosing : Bool) (rest : List Char) :
    textRun (printStartTag tag attributes selfClosing ++ rest) =
      ([], printStartTag tag attributes selfClosing ++ rest) := by
  have hname := startTagName?_printStartTag h attributes selfClosing rest
  have hbegins : beginsConstruct (printStartTag tag attributes selfClosing ++ rest) = true := by
    simp [beginsConstruct, hname]
  exact textRun_of_begins hbegins

theorem textRun_printEndTag (h : IsQualifiedName tag.toList) (rest : List Char) :
    textRun (printEndTag tag ++ rest) = ([], printEndTag tag ++ rest) := by
  have hend := endTag?_printEndTag h rest
  have hbegins : beginsConstruct (printEndTag tag ++ rest) = true := by
    simp [beginsConstruct, hend]
  exact textRun_of_begins hbegins

/-- No text goes on into a forest that does not start with one. -/
theorem textRun_print {platform : Platform} {items : List Item} (h : Printable platform items)
    (hstart : ¬ StartsText items) (hrest : textRun rest = ([], rest)) :
    textRun (print items ++ rest) = ([], print items ++ rest) := by
  cases h with
  | nil => exact hrest
  | text => exact absurd trivial hstart
  | comment => exact textRun_of_begins (by simp [beginsConstruct, startsWith, after?, commentOpen])
  | selfClosing htag =>
    rw [print, Item.print, append_assoc]
    exact textRun_printStartTag htag.name _ true _
  | element htag =>
    rw [print, Item.print, append_assoc, append_assoc]
    exact textRun_printStartTag htag.name _ false _

/-! ### Reading -/

/-- From any offset, the reader takes the text in front of the rest for the given signals and goes on
with the rest. The stacks are the open tags before and after. -/
def ReadsAs (settings : Settings) (stack : List String) (text : List Char) (signals : List Signal)
    (after : List String) (rest : List Char) : Prop :=
  ∀ offset, ∃ stop, (eventsFrom settings ⟨offset, text ++ rest, stack⟩).map Event.signal =
    signals ++ (eventsFrom settings ⟨stop, rest, after⟩).map Event.signal

theorem ReadsAs.trans {middle after : List String} {first second : List Char} {ss ts : List Signal}
    (h1 : ReadsAs settings stack first ss middle (second ++ rest))
    (h2 : ReadsAs settings middle second ts after rest) :
    ReadsAs settings stack (first ++ second) (ss ++ ts) after rest := by
  intro offset
  obtain ⟨between, h1⟩ := h1 offset
  obtain ⟨stop, h2⟩ := h2 between
  exact ⟨stop, by rw [append_assoc, h1, h2, append_assoc]⟩

theorem ReadsAs.nil (settings : Settings) (stack : List String) (rest : List Char) :
    ReadsAs settings stack [] [] stack rest :=
  fun offset => ⟨offset, rfl⟩

/-- A step that takes up the whole text in front of the rest. -/
theorem ReadsAs.of_step {after : List String} {signals : List Signal} (hne : text ≠ [])
    (h : ∀ offset, ∃ events stop,
      step settings ⟨offset, text ++ rest, stack⟩ = (events, ⟨stop, rest, after⟩) ∧
        events.map Event.signal = signals) : ReadsAs settings stack text signals after rest := by
  intro offset
  obtain ⟨events, stop, hstep, hevents⟩ := h offset
  have hempty : (text ++ rest).isEmpty = false := by simp [hne]
  have hshorter : rest.length < (text ++ rest).length := by
    have hpos := length_pos_iff.mpr hne
    rw [length_append]
    omega
  refine ⟨stop, ?_⟩
  rw [eventsFrom, hempty, if_neg Bool.false_ne_true, hstep]
  simp only [if_pos hshorter, map_append, hevents]

/-- Outside raw text a construct at the front is read as its events. -/
theorem step_of_construct? {offset : Nat} {found : Found}
    (hstack : stack.head?.filter Tag.isRawText = none) (h : construct? offset text = some found) :
    step settings ⟨offset, text, stack⟩ =
      constructEvents settings found ⟨offset, text, stack⟩ := by
  simp only [step, Cursor.innermost?, hstack, h]

theorem PrintableTag.not_rawText (h : PrintableTag tag) : Tag.isRawText tag = false := by
  have := h.ordinary
  simp only [mem_cons, not_or] at this
  simp [Tag.isRawText, this]

theorem PrintableTag.keeps_newline (h : PrintableTag tag) :
    Tag.ignoresFirstNewline tag = false := by
  have := h.ordinary
  simp only [mem_cons, not_or] at this
  simp [Tag.ignoresFirstNewline, this]

theorem map_decodeAttribute {placed : List PlacedAttribute}
    (h : placed.map (fun p => (p.name, p.value)) =
      attributes.map fun a => (a.1.toList, escape a.2)) :
    (placed.map (decodeAttribute settings tag)).map (fun a => (a.name, a.value)) = attributes := by
  induction placed generalizing attributes with
  | nil => simpa using h
  | cons p placed ih =>
    cases attributes with
    | nil => simp at h
    | cons a attributes =>
      simp only [map_cons, List.cons.injEq, Prod.mk.injEq] at h
      obtain ⟨⟨hname, hvalue⟩, hothers⟩ := h
      simp only [map_cons, decodeAttribute, hname, hvalue, decodeAttribute_escape,
        String.ofList_toList, ih hothers]

theorem readsAs_startTag (hhtml : settings.expectHtml = false) (htag : PrintableTag tag)
    (hattributes : ∀ a ∈ attributes, PrintableAttribute a) (selfClosing : Bool)
    (hstack : stack.head?.filter Tag.isRawText = none) (rest : List Char) :
    ReadsAs settings stack (printStartTag tag attributes selfClosing)
      [.start tag attributes (settings.platform.isUnary tag || selfClosing)]
      (if settings.platform.isUnary tag || selfClosing then stack else tag :: stack) rest := by
  refine ReadsAs.of_step (by simp [printStartTag]) fun offset => ?_
  obtain ⟨placed, text, hconstruct, hplaced⟩ :=
    construct?_printStartTag htag.name hattributes selfClosing rest offset
  refine ⟨[.start tag (placed.map (decodeAttribute settings tag))
    (settings.platform.isUnary tag || selfClosing) ⟨offset, offset + byteLength text⟩],
    offset + byteLength text, ?_, ?_⟩
  · rw [step_of_construct? hstack hconstruct]
    have hline := htag.keeps_newline
    simp only [constructEvents, startEvents, impliedEnds, hhtml, Bool.false_eq_true, if_false,
      String.ofList_toList, nil_append, Cursor.pass, hline]
    split <;> rfl
  · rw [map_singleton, Event.signal, map_decodeAttribute hplaced]

theorem readsAs_endTag (settings : Settings) (hname : IsQualifiedName tag.toList)
    (hraw : Tag.isRawText tag = false) (stack : List String) (rest : List Char) :
    ReadsAs settings (tag :: stack) (printEndTag tag) [.finish tag] stack rest := by
  refine ReadsAs.of_step (by simp [printEndTag]) fun offset => ?_
  have hplain : (tag :: stack).head?.filter Tag.isRawText = none := by
    simp [hraw]
  refine ⟨[.finish tag ⟨offset, offset + byteLength (printEndTag tag)⟩],
    offset + byteLength (printEndTag tag), ?_, rfl⟩
  rw [step_of_construct? hplain (construct?_printEndTag hname rest offset)]
  simp [constructEvents, endEvents, unwind?, Cursor.pass]

theorem readsAs_comment (hkeep : settings.keepComments = true) {content : String}
    (hcontent : PrintableComment content.toList) (hstack : stack.head?.filter Tag.isRawText = none)
    (rest : List Char) :
    ReadsAs settings stack (commentOpen ++ (content.toList ++ commentClose)) [.comment content] stack
      rest := by
  refine ReadsAs.of_step (by simp [commentOpen]) fun offset => ?_
  have hconstruct := construct?_comment hcontent rest offset
  refine ⟨_, _, step_of_construct? hstack hconstruct, ?_⟩
  simp [hkeep, Event.signal]

/-- A text is read as one, if it is not continued by what follows. -/
theorem readsAs_text (settings : Settings) {content : String} (hne : content.toList ≠ [])
    (hopen : '<' ∉ content.toList) (hstack : stack.head?.filter Tag.isRawText = none)
    (hrest : textRun rest = ([], rest)) :
    ReadsAs settings stack content.toList [.text content] stack rest := by
  refine ReadsAs.of_step hne fun offset => ?_
  have hconstruct : construct? offset (content.toList ++ rest) = none := by
    cases htext : content.toList with
    | nil => exact absurd htext hne
    | cons c s =>
      have hc : c ≠ '<' := fun hc => hopen (by simp [htext, hc])
      exact construct?_of_ne_bracket hc offset (s ++ rest)
  refine ⟨[.text content ⟨offset, offset + byteLength content.toList⟩],
    offset + byteLength content.toList, ?_, rfl⟩
  have hrun := textRun_append_of_not_mem hopen rest
  rw [hrest, append_nil] at hrun
  simp only [step, Cursor.innermost?, hstack, hconstruct, textEvents, hrun, Cursor.pass]
  simp [hne]

/-- A printed forest is read as its traversal, in any surroundings that do not continue its last
text. -/
theorem readsAs_print (hhtml : settings.expectHtml = false) (hkeep : settings.keepComments = true)
    {items : List Item} (h : Printable settings.platform items)
    (hstack : stack.head?.filter Tag.isRawText = none) (hrest : textRun rest = ([], rest)) :
    ReadsAs settings stack (print items) (signals items) stack rest := by
  induction h generalizing stack rest with
  | nil => exact ReadsAs.nil settings stack rest
  | text hne hopen hnext hitems ih =>
    rw [print, signals, Item.print, Item.signals]
    exact (readsAs_text settings hne hopen hstack (textRun_print hitems hnext hrest)).trans
      (ih hstack hrest)
  | comment hcontent hitems ih =>
    rw [print, signals, Item.print, Item.signals]
    exact (readsAs_comment hkeep hcontent hstack _).trans (ih hstack hrest)
  | @selfClosing tag attributes items htag hattributes hitems ih =>
    have hstart := readsAs_startTag hhtml htag hattributes true hstack (print items ++ rest)
    rw [Bool.or_true, if_pos rfl] at hstart
    rw [print, signals, Item.print, Item.signals]
    exact hstart.trans (ih hstack hrest)
  | @element tag attributes children items htag hattributes hunary hchildren hitems ihc ih =>
    have hinside : (tag :: stack).head?.filter Tag.isRawText = none := by
      simp [htag.not_rawText]
    have hstart := readsAs_startTag hhtml htag hattributes false hstack
      (print children ++ printEndTag tag ++ (print items ++ rest))
    rw [hunary, Bool.or_false, if_neg Bool.false_ne_true] at hstart
    have hchildren' := ihc hinside (textRun_printEndTag htag.name (print items ++ rest))
    have hend := readsAs_endTag settings htag.name htag.not_rawText stack (print items ++ rest)
    rw [print, signals, Item.print, Item.signals]
    exact (hstart.trans (hchildren'.trans hend)).trans (ih hstack hrest)

/-- Reading a printed forest gives its traversal: the tags, attributes, texts and comments in order,
and nothing else. -/
theorem signals_events_print {settings : Settings} (hhtml : settings.expectHtml = false)
    (hkeep : settings.keepComments = true) {forest : List Item}
    (h : Printable settings.platform forest) :
    (events settings (String.ofList (print forest))).map Event.signal = signals forest := by
  have hall : ReadsAs settings [] (print forest) (signals forest) [] [] :=
    readsAs_print hhtml hkeep h rfl rfl
  obtain ⟨stop, hreads⟩ := hall 0
  have hend : eventsFrom settings ⟨stop, [], []⟩ = [] := by
    rw [eventsFrom]
    rfl
  rw [events, String.toList_ofList]
  rw [append_nil, hend, map_nil, append_nil] at hreads
  exact hreads

/-- A forest with quotes in a value, a unary element and a comment that starts with a dash. -/
theorem signals_events_print_of_nested_elements :
    let settings : Settings := { platform := .web, keepComments := true }
    let forest : List Item := [.element "x:a" [("b", "<\"&'>"), (":c", "")]
      [.comment "- c", .selfClosing "br" [], .text "1 > 0"], .text " &lt;"]
    settings.expectHtml = false ∧ settings.keepComments = true ∧ Printable .web forest ∧
      (events settings (String.ofList (print forest))).map Event.signal =
        [.start "x:a" [("b", "<\"&'>"), (":c", "")] false, .comment "- c", .start "br" [] true,
          .text "1 > 0", .finish "x:a", .text " &lt;"] := by
  intro settings forest
  have houter : PrintableTag "x:a" :=
    ⟨Or.inr ⟨['x'], ['a'], ⟨'x', [], rfl, by decide, by simp⟩, ⟨'a', [], rfl, by decide, by simp⟩,
      by decide⟩, by decide⟩
  have hinner : PrintableTag "br" :=
    ⟨Or.inl ⟨'b', ['r'], by decide, by decide, List.all_eq_true.mp (by decide)⟩, by decide⟩
  have hattributes : ∀ a ∈ [("b", "<\"&'>"), (":c", "")], PrintableAttribute a := by
    intro a ha
    simp only [mem_cons, not_mem_nil, or_false] at ha
    rcases ha with rfl | rfl
    · exact ⟨by decide, List.all_eq_true.mp (by decide), by decide⟩
    · exact ⟨by decide, List.all_eq_true.mp (by decide), by decide⟩
  have hcomment : PrintableComment "- c".toList := ⟨by decide, by decide, by decide⟩
  have hempty : Printable .web [] := .nil
  have hafter : Printable .web [.text " &lt;"] := .text (by decide) (by decide) id hempty
  have htext : Printable .web [.text "1 > 0"] := .text (by decide) (by decide) id hempty
  have hinside : Printable .web [.comment "- c", .selfClosing "br" [], .text "1 > 0"] :=
    .comment hcomment (.selfClosing hinner (by simp) htext)
  have hforest : Printable .web forest := .element houter hattributes (by decide) hinside hafter
  exact ⟨rfl, rfl, hforest, signals_events_print rfl rfl hforest⟩

end Markup

end ViewTemplate

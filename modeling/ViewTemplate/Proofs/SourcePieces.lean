import ViewTemplate.Proofs.EventBalance

/-! # Pieces of the source

The reader of markup divides its source into pieces: texts, start tags, comments, conditional
comments, document types, end tags, and the line feeds that it drops. The pieces follow each other
without a gap from the first byte to the last, and all events but the last end tags come from them,
so that every place that an event carries is an end of a piece.
-/

open List Option

namespace ViewTemplate

open Text

namespace Text

/-- What is cut off before the first occurrence of a character does not hold it. -/
theorem not_mem_of_cut? {x : Char} {s a b : List Char} (h : cut? [x] s = some (a, b)) : x ∉ a := by
  induction s generalizing a with
  | nil => simp [cut?, after?] at h
  | cons c s ih =>
    rw [cut?] at h
    split at h
    · cases h
      simp
    · rename_i hn
      simp only [map_eq_some_iff, Prod.mk.injEq] at h
      obtain ⟨⟨a', b'⟩, hc, rfl, rfl⟩ := h
      have hne : ¬ x = c := by
        intro hx
        simp [after?, hx] at hn
      simp [hne, ih hc]

/-- Only capital letters change when ASCII is put in lower case. -/
theorem eq_of_asciiLower {c x : Char} (h : asciiLower c = x) (hx : x.toNat < 97) : c = x := by
  rw [asciiLower] at h
  split at h
  · rename_i hc
    simp only [isAsciiUpper, Bool.and_eq_true, decide_eq_true_eq] at hc
    have hlo : 65 ≤ c.toNat := hc.1
    have hhi : c.toNat ≤ 90 := hc.2
    have hsmall : ∀ n < 91, (Char.ofNat (n + 32)).toNat = n + 32 := by decide
    have hn := hsmall c.toNat (by omega)
    rw [h] at hn
    omega
  · exact h

end Text

namespace Range

/-- The text of a range between two texts of the source. -/
theorem slice_ofList (before inside after : List Char) :
    slice ⟨byteLength before, byteLength before + byteLength inside⟩
        (String.ofList (before ++ inside ++ after)) = some (String.ofList inside) := by
  have h1 : splitAtByte? (before ++ inside ++ after) (byteLength before) =
      some (before, inside ++ after) :=
    splitAtByte?_eq_some_iff.2 ⟨by simp, rfl⟩
  have h2 : splitAtByte? (inside ++ after) (byteLength inside) = some (inside, after) :=
    splitAtByte?_eq_some_iff.2 ⟨rfl, rfl⟩
  have hle : ¬ byteLength before + byteLength inside < byteLength before := by omega
  simp only [slice, String.toList_ofList, h1, bind_eq_bind, bind_some, hle, if_false,
    Nat.add_sub_cancel_left, h2, Option.pure_def]

end Range

namespace Event

/-- The place that an event carries. -/
def range : Event → Range
  | .start _ _ _ range => range
  | .finish _ range => range
  | .text _ range => range
  | .comment _ range => range

/-- Whether an event can bring a node, which all but end tags can. -/
def bringsNode : Event → Bool
  | .finish .. => false
  | _ => true

/-- The attributes of a start tag. -/
def attributes : Event → List Attribute
  | .start _ attributes _ _ => attributes
  | _ => []

end Event

namespace Markup

/-- What stands in a piece of the source. -/
inductive PieceKind
  | text
  | startTag (tag : String)
  | comment
  | conditional
  | doctype
  | endTag
  | lineFeed
  deriving DecidableEq

/-- A piece of the source with the events that come from it. -/
structure Piece where
  kind : PieceKind
  text : List Char
  events : List Event

namespace Piece

/-- The place of a piece that starts at an offset. -/
def range (p : Piece) (start : Nat) : Range := ⟨start, start + byteLength p.text⟩

/-- What makes a piece one of its kind. -/
def Fits (p : Piece) (start : Nat) : Prop :=
  match p.kind with
  | .text => ∃ content, Event.text content (p.range start) ∈ p.events
  | .startTag tag =>
    (∃ more, p.text = '<' :: tag.toList ++ more) ∧
      ∃ attributes unary, Event.start tag attributes unary (p.range start) ∈ p.events
  | .comment => commentOpen <+: p.text ∧ ['-', '-', '>'] <:+ p.text
  | .conditional => conditionalOpen <+: p.text ∧ [']', '>'] <:+ p.text
  | .doctype =>
    ((p.text.take 10).map Text.asciiLower = "<!doctype ".toList) ∧
      ∃ inside, p.text = p.text.take 10 ++ inside ++ ['>'] ∧ inside ≠ [] ∧ '>' ∉ inside
  | .endTag => ∃ name more, p.text = '<' :: '/' :: name ++ more ++ ['>'] ∧ name ≠ [] ∧
      '>' ∉ name ∧ '>' ∉ more
  | .lineFeed => p.text = ['\n'] ∧ p.events = []

/-- The range of an attribute starts with its name. -/
def Names (p : Piece) (start : Nat) (a : Attribute) : Prop :=
  ∃ before part after, p.text = before ++ (a.name.toList ++ part) ++ after ∧
    a.range = some ⟨start + byteLength before,
      start + byteLength before + byteLength (a.name.toList ++ part)⟩

/-- A piece that starts at an offset. Its events carry no place but its ends, their own ends come in
order, and at most one of them can bring a node, which then carries the place of the piece. Only the
text of an element of raw text may be an empty one before the end tag of the element. -/
structure Placed (p : Piece) (start : Nat) : Prop where
  nonempty : p.text ≠ []
  fits : p.Fits start
  ends : ∀ e ∈ p.events, e.range = ⟨start, start⟩ ∨ e.range = p.range start ∨
    e.range = ⟨start + byteLength p.text, start + byteLength p.text⟩
  ordered : p.events.Pairwise fun e f => e.range.stop ≤ f.range.stop
  single : (p.events.filter Event.bringsNode).length ≤ 1
  spans : ∀ e ∈ p.events, e.bringsNode = true →
    e.range = p.range start ∨ e = .text "" ⟨start, start⟩
  names : ∀ e ∈ p.events, ∀ a ∈ e.attributes, p.Names start a

end Piece

/-- Pieces that follow each other from an offset. A line feed is dropped only after a start tag
whose element ignores it; `previous` is what stands before the first piece. -/
def Consecutive : Nat → Option PieceKind → List Piece → Prop
  | _, _, [] => True
  | start, previous, p :: ps =>
    p.Placed start ∧
      (p.kind = .lineFeed →
        ∃ tag, previous = some (.startTag tag) ∧ Tag.ignoresFirstNewline tag = true) ∧
      Consecutive (start + byteLength p.text) (some p.kind) ps

/-- The text of several pieces. -/
def sourceOf (ps : List Piece) : List Char := ps.flatMap Piece.text

/-- The events of several pieces. -/
def eventsOf (ps : List Piece) : List Event := ps.flatMap Piece.events

@[simp] theorem sourceOf_nil : sourceOf [] = [] := rfl

@[simp] theorem sourceOf_cons (p : Piece) (ps : List Piece) :
    sourceOf (p :: ps) = p.text ++ sourceOf ps := rfl

@[simp] theorem sourceOf_append (ps qs : List Piece) :
    sourceOf (ps ++ qs) = sourceOf ps ++ sourceOf qs :=
  flatMap_append

@[simp] theorem eventsOf_nil : eventsOf [] = [] := rfl

@[simp] theorem eventsOf_cons (p : Piece) (ps : List Piece) :
    eventsOf (p :: ps) = p.events ++ eventsOf ps := rfl

@[simp] theorem eventsOf_append (ps qs : List Piece) :
    eventsOf (ps ++ qs) = eventsOf ps ++ eventsOf qs :=
  flatMap_append

variable {cursor : Cursor} {e : Event} {found : Found} {name rest s text : List Char}
  {range : Range} {settings : Settings} {stack : List String} {start : Nat} {tag : String}

/-- Pieces that need nothing before them may follow anything. -/
theorem Consecutive.after {ps : List Piece} (h : Consecutive start none ps)
    (previous : Option PieceKind) : Consecutive start previous ps := by
  cases ps with
  | nil => trivial
  | cons p ps =>
    refine ⟨h.1, ?_, h.2.2⟩
    intro hk
    obtain ⟨tag, hp, -⟩ := h.2.1 hk
    cases hp

theorem Consecutive.append {previous : Option PieceKind} {ps qs : List Piece}
    (hp : Consecutive start previous ps)
    (hq : Consecutive (start + byteLength (sourceOf ps)) none qs) :
    Consecutive start previous (ps ++ qs) := by
  induction ps generalizing start previous with
  | nil => exact Consecutive.after (by simpa using hq) previous
  | cons p ps ih =>
    refine ⟨hp.1, hp.2.1, ih hp.2.2 ?_⟩
    simpa [Nat.add_assoc] using hq

/-! ## Constructs -/

theorem isNameChar_or_colon_of_mem {c : Char} (h : qualifiedName? s = some (name, rest))
    (hc : c ∈ name) : isNameChar c = true ∨ c = ':' := by
  have hlocal {s name rest : List Char} (h : localName? s = some (name, rest)) (hc : c ∈ name) :
      isNameChar c = true := by
    cases s with
    | nil => simp [localName?] at h
    | cons d s =>
      rw [localName?] at h
      split at h
      · rename_i hd
        cases h
        rcases mem_cons.1 hc with rfl | hm
        · simp [isNameChar, hd]
        · exact List.all_eq_true.1 (all_takeWhile) c hm
      · cases h
  simp only [qualifiedName?, bind_eq_bind, bind_eq_some_iff, Prod.exists] at h
  obtain ⟨first, r, hf, h⟩ := h
  split at h
  · split at h
    · rename_i second r2 hn
      cases h
      rcases mem_append.1 hc with hm | hm
      · exact Or.inl (hlocal hf hm)
      · rcases mem_cons.1 hm with rfl | hm
        · exact Or.inr rfl
        · exact Or.inl (hlocal hn hm)
    · cases h
      exact Or.inl (hlocal hf hc)
  · cases h
    exact Or.inl (hlocal hf hc)

theorem ne_nil_of_qualifiedName? (h : qualifiedName? s = some (name, rest)) : name ≠ [] := by
  simp only [qualifiedName?, bind_eq_bind, bind_eq_some_iff, Prod.exists] at h
  obtain ⟨first, r, hf, h⟩ := h
  have hne := ne_nil_of_localName? hf
  split at h
  · split at h
    · cases h
      simp
    · cases h
      exact hne
  · cases h
    exact hne

/-- A text up to a mark starts with the opening of the text, unless the two overlap too far. -/
theorem prefix_of_cut? {opening mark before : List Char} (ho : opening <+: s)
    (hc : Text.cut? mark s = some (before, rest))
    (hl : opening.length ≤ before.length + mark.length) : opening <+: before ++ mark := by
  apply prefix_of_prefix_length_le ho
  · exact ⟨rest, (eq_of_cut? hc).symm⟩
  · simpa using hl

/-- A mark that does not start like the text leaves something before it. -/
theorem length_pos_of_cut? {x y : Char} {mark before : List Char} (hxy : x ≠ y)
    (hc : Text.cut? (y :: mark) (x :: s) = some (before, rest)) : 1 ≤ before.length := by
  have h := eq_of_cut? hc
  cases before with
  | nil =>
    simp only [nil_append, cons_append, List.cons.injEq] at h
    exact absurd h.1 hxy
  | cons c before => simp

theorem enclosed?_fits {x y : Char} {opening closing : List Char} {construct : List Char → Construct}
    (h : enclosed? (x :: opening) (y :: closing) construct s = some found) (hxy : x ≠ y)
    (hl : opening.length ≤ closing.length + 1) :
    (∃ before, found.construct = construct before) ∧ x :: opening <+: found.text ∧
      y :: closing <:+ found.text := by
  obtain ⟨r, ha, before, rest, hc, rfl⟩ := exists_of_enclosed? h
  have hs := after?_eq_some_iff.1 ha
  refine ⟨⟨_, rfl⟩, prefix_of_cut? ⟨r, hs.symm⟩ hc ?_, suffix_append _ _⟩
  rw [hs] at hc
  have hpos := length_pos_of_cut? hxy hc
  simp only [length_cons]
  omega

theorem comment?_fits (h : comment? s = some found) :
    (∃ text, found.construct = .comment text) ∧ commentOpen <+: found.text ∧
      ['-', '-', '>'] <:+ found.text := by
  obtain ⟨⟨before, hc⟩, hopen, hclose⟩ := enclosed?_fits h (by decide) (by decide)
  exact ⟨⟨_, hc⟩, hopen, hclose⟩

theorem conditional?_fits (h : conditional? s = some found) :
    found.construct = .conditional ∧ conditionalOpen <+: found.text ∧
      [']', '>'] <:+ found.text := by
  obtain ⟨⟨before, hc⟩, hopen, hclose⟩ := enclosed?_fits h (by decide) (by decide)
  exact ⟨hc, hopen, hclose⟩

theorem doctype?_fits (h : doctype? s = some found) :
    found.construct = .doctype ∧
      (found.text.take 10).map Text.asciiLower = "<!doctype ".toList ∧
      ∃ inside, found.text = found.text.take 10 ++ inside ++ ['>'] ∧ inside ≠ [] ∧
        '>' ∉ inside := by
  simp only [doctype?, bind_eq_bind, Option.pure_def, bind_eq_some_iff,
    Prod.exists] at h
  obtain ⟨r, ha, inside, rest, hc, h⟩ := h
  split at h
  · cases h
  · rename_i hne
    cases h
    have hm := after?_eq_some_iff.1 ha
    have hlen : (s.take 10).length = 10 := by
      have hle := length_take_le 10 s
      have := congrArg length hm
      simp only [length_map, length_append] at this
      have h10 : "<!doctype ".toList.length = 10 := by decide
      omega
    have hr : r = [] := by
      have := congrArg length hm
      simp only [length_map, length_append, hlen] at this
      have h10 : "<!doctype ".toList.length = 10 := by decide
      exact length_eq_zero_iff.1 (by omega)
    have htake : (s.take 10 ++ inside ++ ['>']).take 10 = s.take 10 := by
      rw [append_assoc, take_append_of_le_length (by omega),
        take_of_length_le (by omega)]
    refine ⟨rfl, ?_, inside, ?_, ?_, Text.not_mem_of_cut? hc⟩
    · rw [htake, hm, hr, append_nil]
    · rw [htake]
    · simpa using hne

theorem endTag?_fits (h : endTag? s = some found) :
    (∃ name, found.construct = .endTag name) ∧
      ∃ name more, found.text = '<' :: '/' :: name ++ more ++ ['>'] ∧ name ≠ [] ∧ '>' ∉ name ∧
        '>' ∉ more := by
  obtain ⟨inside, ha, name, r, hn, more, rest, hc, rfl⟩ := exists_of_endTag? h
  refine ⟨⟨name, rfl⟩, name, more, by simp, ne_nil_of_qualifiedName? hn, ?_,
    Text.not_mem_of_cut? hc⟩
  intro hm
  rcases isNameChar_or_colon_of_mem hn hm with hc | hc
  · exact absurd hc (by decide)
  · exact absurd hc (by decide)

/-- Each attribute stands in the text that was read for them, where its range says. -/
theorem attributes?_names {offset : Nat} {as : List PlacedAttribute} {selfClosing : Bool}
    (h : attributes? offset s = some (as, selfClosing, text, rest)) :
    ∀ a ∈ as, ∃ before part after, text = before ++ (a.name ++ part) ++ after ∧
      a.range = ⟨offset + byteLength before,
        offset + byteLength before + byteLength (a.name ++ part)⟩ := by
  fun_induction attributes? offset s generalizing as selfClosing text rest with
  | case1 =>
    cases h
    simp
  | case2 => cases h
  | case3 offset s =>
    rename_i b _ _ stop ih
    simp only [map_eq_some_iff, Prod.exists, Prod.mk.injEq] at h
    obtain ⟨others, _, t, _, hr, rfl, rfl, rfl, rfl⟩ := h
    intro a hm
    rcases mem_cons.1 hm with rfl | hm
    · refine ⟨b.blanks, b.part, t, by simp [AttributeText.text], ?_⟩
      simp only [AttributeText.text, byteLength_append, stop]
      congr 1
      omega
    · obtain ⟨before, part, after, ht, hrange⟩ := ih hr a hm
      refine ⟨b.text ++ before, part, after, by simp [ht], ?_⟩
      simp only [hrange, byteLength_append, stop]
      congr 1 <;> omega

theorem startTag?_fits {offset : Nat} (h : startTag? offset s = some found) :
    ∃ name attributes selfClosing more,
      found.construct = .startTag name attributes selfClosing ∧ found.text = '<' :: name ++ more ∧
      ∀ a ∈ attributes, ∃ before part after, found.text = before ++ (a.name ++ part) ++ after ∧
        a.range = ⟨offset + byteLength before,
          offset + byteLength before + byteLength (a.name ++ part)⟩ := by
  obtain ⟨name, r, -, as, selfClosing, text, rest, hr, rfl⟩ := exists_of_startTag? h
  refine ⟨name, as, selfClosing, text, rfl, rfl, ?_⟩
  intro a hm
  obtain ⟨before, part, after, rfl, hrange⟩ := attributes?_names hr a hm
  refine ⟨'<' :: name ++ before, part, after, by simp, ?_⟩
  have hone : '<'.utf8Size = 1 := by decide
  simp only [hrange, cons_append, byteLength_cons, byteLength_append, hone]
  congr 1 <;> omega

/-! ## Steps of the reader -/

/-- What an end tag gives: end tags of what it closes, or an empty line break or paragraph. -/
theorem endEvents_cases (tag : String) (range : Range) (stack : List String) :
    (∃ closed : List String, (endEvents tag range stack).1 = closed.map fun t => .finish t range) ∨
      (Tag.lower tag = "br" ∧ (endEvents tag range stack).1 = [.start tag [] true range]) ∨
      (Tag.lower tag = "p" ∧
        (endEvents tag range stack).1 = [.start tag [] false range, .finish tag range]) := by
  rw [endEvents]
  split
  · rename_i closed rest _
    exact Or.inl ⟨closed, rfl⟩
  · simp only
    split
    · rename_i hbr
      exact Or.inr (Or.inl ⟨hbr, rfl⟩)
    · split
      · rename_i hp
        exact Or.inr (Or.inr ⟨hp, rfl⟩)
      · exact Or.inl ⟨[], rfl⟩

theorem mem_endEvents (h : e ∈ (endEvents tag range stack).1) :
    (∃ t, e = .finish t range) ∨
      (Tag.lower tag = "br" ∨ Tag.lower tag = "p") ∧ ∃ unary, e = .start tag [] unary range := by
  rcases endEvents_cases tag range stack with ⟨closed, hc⟩ | ⟨hbr, hc⟩ | ⟨hp, hc⟩ <;> rw [hc] at h
  · obtain ⟨t, -, rfl⟩ := List.mem_map.1 h
    exact .inl ⟨t, rfl⟩
  · exact .inr ⟨.inl hbr, true, mem_singleton.1 h⟩
  · rcases mem_cons.1 h with rfl | h
    · exact .inr ⟨.inr hp, false, rfl⟩
    · exact .inl ⟨tag, mem_singleton.1 h⟩

theorem endEvents_range (h : e ∈ (endEvents tag range stack).1) :
    e.range = range ∧ e.attributes = [] := by
  rcases mem_endEvents h with ⟨t, rfl⟩ | ⟨-, unary, rfl⟩ <;> exact ⟨rfl, rfl⟩

theorem endEvents_single (tag : String) (range : Range) (stack : List String) :
    ((endEvents tag range stack).1.filter Event.bringsNode).length ≤ 1 := by
  rcases endEvents_cases tag range stack with ⟨closed, hc⟩ | ⟨-, hc⟩ | ⟨-, hc⟩
  · rw [hc, filter_eq_nil_iff.2]
    · exact Nat.zero_le 1
    · intro e he
      obtain ⟨t, -, rfl⟩ := List.mem_map.1 he
      simp [Event.bringsNode]
  · rw [hc]
    exact Nat.le_refl 1
  · rw [hc]
    exact Nat.le_refl 1

/-- A start tag closes elements by nothing but end tags. -/
theorem impliedEnds_finish (h : e ∈ (impliedEnds settings tag range stack).1) :
    ∃ t, e = .finish t range := by
  -- The innermost tag is the one that is closed, so that it is found at once.
  have closing (c : Bool) (t : String) (stack : List String) (hc : c = true → stack.head? = some t)
      (he : e ∈ (if c then endEvents t range stack else ([], stack)).1) :
      ∃ t, e = .finish t range := by
    cases c with
    | false => simp at he
    | true =>
      cases stack with
      | nil => simp at hc
      | cons u stack =>
        have hu : u = t := by simpa using hc rfl
        subst hu
        simp only [if_true, endEvents, unwind?, map_cons, map_nil,
          mem_singleton] at he
        exact ⟨u, he⟩
  rw [impliedEnds] at h
  split at h
  · rcases mem_append.1 h with hm | hm
    · refine closing _ _ _ ?_ hm
      simp only [Bool.and_eq_true, decide_eq_true_eq]
      exact fun hc => hc.1
    · refine closing _ _ _ ?_ hm
      simp only [Bool.and_eq_true, decide_eq_true_eq]
      exact fun hc => hc.2
  · simp at h

/-- A piece whose events are silent ones at its start, and then events that stop where it does. -/
theorem Piece.placed_of {p : Piece} (idle main : List Event) (he : p.events = idle ++ main)
    (hne : p.text ≠ []) (hfits : p.Fits start)
    (hidle : ∀ e ∈ idle, e.range = ⟨start, start⟩ ∧ e.attributes = [] ∧
      (e.bringsNode = true → e = .text "" ⟨start, start⟩))
    (hmain : ∀ e ∈ main, e.range = p.range start ∨
      (e.range = ⟨start + byteLength p.text, start + byteLength p.text⟩ ∧
        e.bringsNode = false)) (hsingle : ((idle ++ main).filter Event.bringsNode).length ≤ 1)
    (hnames : ∀ e ∈ main, ∀ a ∈ e.attributes, p.Names start a) : p.Placed start := by
  have hstop : ∀ e ∈ main, e.range.stop = start + byteLength p.text := by
    intro e hm
    rcases hmain e hm with h | ⟨h, -⟩
    · rw [h, Piece.range]
    · rw [h]
  refine ⟨hne, hfits, ?_, ?_, ?_, ?_, ?_⟩
  · intro e hm
    rw [he] at hm
    rcases mem_append.1 hm with hm | hm
    · exact Or.inl (hidle e hm).1
    · rcases hmain e hm with h | ⟨h, -⟩
      · exact Or.inr (Or.inl h)
      · exact Or.inr (Or.inr h)
  · rw [he, pairwise_append]
    refine ⟨?_, ?_, ?_⟩
    · apply pairwise_of_forall_mem_list
      intro e hm f hf
      exact Nat.le_of_eq (by rw [(hidle e hm).1, (hidle f hf).1])
    · apply pairwise_of_forall_mem_list
      intro e hm f hf
      exact Nat.le_of_eq (by rw [hstop e hm, hstop f hf])
    · intro e hm f hf
      rw [(hidle e hm).1, hstop f hf]
      exact Nat.le_add_right _ _
  · rw [he]
    exact hsingle
  · intro e hm hb
    rw [he] at hm
    rcases mem_append.1 hm with hm | hm
    · exact Or.inr ((hidle e hm).2.2 hb)
    · rcases hmain e hm with h | ⟨-, h⟩
      · exact Or.inl h
      · simp [h] at hb
  · intro e hm a ha
    rw [he] at hm
    rcases mem_append.1 hm with hm | hm
    · simp [(hidle e hm).2.1] at ha
    · exact hnames e hm a ha

/-- A piece of which nothing is reported. -/
theorem Piece.placed_silent {kind : PieceKind} (hne : text ≠ [])
    (hfits : Piece.Fits ⟨kind, text, []⟩ start) : Piece.Placed ⟨kind, text, []⟩ start :=
  placed_of [] [] rfl hne hfits (by simp) (by simp) (by simp) (by simp)

theorem filter_bringsNode_finish {es : List Event} (h : ∀ e ∈ es, ∃ t range, e = .finish t range) :
    es.filter Event.bringsNode = [] := by
  rw [filter_eq_nil_iff]
  intro e he
  obtain ⟨t, range, rfl⟩ := h e he
  simp [Event.bringsNode]

/-- A text, before which elements may be closed. -/
theorem Piece.placed_text {idle : List Event}
    (hidle : ∀ e ∈ idle, ∃ t, e = .finish t ⟨start, start⟩) (hne : text ≠ []) (content : String) :
    Piece.Placed
      ⟨.text, text, idle ++ [.text content ⟨start, start + byteLength text⟩]⟩ start := by
  apply placed_of idle [.text content ⟨start, start + byteLength text⟩] rfl hne
  · exact ⟨content, mem_append_right idle (mem_singleton_self _)⟩
  · intro e he
    obtain ⟨t, rfl⟩ := hidle e he
    exact ⟨rfl, rfl, fun h => by cases h⟩
  · exact forall_mem_singleton.mpr (.inl rfl)
  · have hnil := filter_bringsNode_finish fun e he => (hidle e he).imp fun _ h => ⟨_, h⟩
    rw [filter_append, hnil]
    exact length_filter_le _ _
  · exact forall_mem_singleton.mpr (forall_mem_nil _)

/-- What a step reads: pieces that start at the cursor, and their events are its events. A step that
reads no piece may still close elements. -/
def Reads (cursor : Cursor) (out : List Event × Cursor) : Prop :=
  ∃ ps idle, Consecutive cursor.offset none ps ∧ cursor.rest = sourceOf ps ++ out.2.rest ∧
    out.2.offset = cursor.offset + byteLength (sourceOf ps) ∧ out.1 = eventsOf ps ++ idle ∧
    (ps ≠ [] → idle = []) ∧ ∀ e ∈ idle, ∃ t, e = .finish t ⟨cursor.offset, cursor.offset⟩

theorem reads_piece {out : List Event × Cursor} (p : Piece) (hp : p.Placed cursor.offset)
    (hk : p.kind ≠ .lineFeed) (hr : cursor.rest = p.text ++ out.2.rest)
    (ho : out.2.offset = cursor.offset + byteLength p.text) (he : out.1 = p.events) :
    Reads cursor out := by
  refine ⟨[p], [], ⟨hp, fun h => absurd h hk, trivial⟩, ?_, ?_, ?_, fun _ => rfl, by simp⟩
  · simpa using hr
  · simpa using ho
  · simpa using he

theorem reads_pair {out : List Event × Cursor} (p q : Piece) (hp : p.Placed cursor.offset)
    (hk : p.kind ≠ .lineFeed) (hq : q.Placed (cursor.offset + byteLength p.text))
    (hfeed : q.kind = .lineFeed →
      ∃ tag, some p.kind = some (.startTag tag) ∧ Tag.ignoresFirstNewline tag = true)
    (hr : cursor.rest = p.text ++ (q.text ++ out.2.rest))
    (ho : out.2.offset = cursor.offset + byteLength p.text + byteLength q.text)
    (he : out.1 = p.events ++ q.events) : Reads cursor out := by
  refine ⟨[p, q], [], ⟨hp, fun h => absurd h hk, hq, hfeed, trivial⟩, ?_, ?_, ?_, fun _ => rfl,
    by simp⟩
  · simpa using hr
  · simpa [Nat.add_assoc] using ho
  · simpa using he

section

variable (settings : Settings) (start : Nat) (tag : String) (attributes : List PlacedAttribute)
  (selfClosing : Bool) (cursor : Cursor)

theorem fst_startEvents :
    (startEvents settings start tag attributes selfClosing cursor).1 =
      (impliedEnds settings tag ⟨cursor.offset, cursor.offset⟩ cursor.stack).1 ++
        [.start tag (attributes.map (decodeAttribute settings tag))
          (settings.platform.isUnary tag || selfClosing) ⟨start, cursor.offset⟩] := by
  simp only [startEvents]
  split
  · split <;> rfl
  · rfl

/-- After a start tag the reader stands behind it, or behind a line feed that it drops. -/
theorem snd_startEvents :
    ((startEvents settings start tag attributes selfClosing cursor).2.rest = cursor.rest ∧
      (startEvents settings start tag attributes selfClosing cursor).2.offset = cursor.offset) ∨
    (cursor.rest =
        '\n' :: (startEvents settings start tag attributes selfClosing cursor).2.rest ∧
      (startEvents settings start tag attributes selfClosing cursor).2.offset =
        cursor.offset + byteLength ['\n'] ∧ Tag.ignoresFirstNewline tag = true) := by
  simp only [startEvents]
  split
  · rename_i rest hr
    split
    · rename_i hi
      exact Or.inr ⟨hr, rfl, hi⟩
    · exact Or.inl ⟨rfl, rfl⟩
  · exact Or.inl ⟨rfl, rfl⟩

end

/-- The events of a start tag: ends that it implies, and its own. -/
theorem placed_startTag (settings : Settings) {more : List Char} {attributes : List PlacedAttribute}
    {ends : List Event} (unary : Bool) (ht : text = '<' :: name ++ more)
    (hends : ∀ e ∈ ends, ∃ t, e =
      .finish t ⟨start + byteLength text, start + byteLength text⟩)
    (hnames : ∀ a ∈ attributes, ∃ before part after, text = before ++ (a.name ++ part) ++ after ∧
      a.range = ⟨start + byteLength before,
        start + byteLength before + byteLength (a.name ++ part)⟩) :
    Piece.Placed ⟨.startTag (String.ofList name), text, ends ++
      [.start (String.ofList name)
        (attributes.map (decodeAttribute settings (String.ofList name))) unary
        ⟨start, start + byteLength text⟩]⟩ start := by
  apply Piece.placed_of [] _ rfl
  · simp [ht]
  · exact ⟨⟨more, by simp [ht]⟩, _, _, mem_append_right ends (mem_singleton_self _)⟩
  · simp
  · refine forall_mem_append.mpr ⟨?_, forall_mem_singleton.mpr (.inl rfl)⟩
    intro e he
    obtain ⟨t, rfl⟩ := hends e he
    exact .inr ⟨rfl, rfl⟩
  · have hnil := filter_bringsNode_finish fun e he => (hends e he).imp fun _ h => ⟨_, h⟩
    rw [nil_append, filter_append, hnil]
    exact length_filter_le _ _
  · refine forall_mem_append.mpr ⟨?_, forall_mem_singleton.mpr ?_⟩
    · intro e he a ha
      obtain ⟨t, rfl⟩ := hends e he
      cases ha
    · intro a ha
      obtain ⟨b, hb, rfl⟩ := List.mem_map.1 ha
      obtain ⟨before, part, after, htext, hrange⟩ := hnames b hb
      refine ⟨before, part, after, ?_, ?_⟩
      · simpa [decodeAttribute] using htext
      · simp [decodeAttribute, hrange]

theorem reads_startEvents (h : startTag? cursor.offset cursor.rest = some found) :
    Reads cursor (constructEvents settings found cursor) := by
  obtain ⟨name, attributes, selfClosing, more, hc, ht, hnames⟩ := startTag?_fits h
  have hrest : cursor.rest = found.text ++ (cursor.pass found.text found.rest).rest :=
    eq_of_startTag? h
  have hout : constructEvents settings found cursor =
      startEvents settings cursor.offset (String.ofList name) attributes selfClosing
        (cursor.pass found.text found.rest) := by
    rw [constructEvents, hc]
  rw [hout]
  generalize hnext : cursor.pass found.text found.rest = next at hrest ⊢
  have hp : Piece.Placed ⟨.startTag (String.ofList name), found.text,
      (startEvents settings cursor.offset (String.ofList name) attributes selfClosing next).1⟩
      cursor.offset := by
    rw [fst_startEvents, ← hnext]
    exact placed_startTag settings _ ht (fun e he => impliedEnds_finish he) hnames
  have hoffset : next.offset = cursor.offset + byteLength found.text := by
    rw [← hnext]
    rfl
  rcases snd_startEvents settings cursor.offset (String.ofList name) attributes selfClosing
    next with ⟨hr, ho⟩ | ⟨hr, ho, hi⟩
  · exact reads_piece _ hp PieceKind.noConfusion (hr ▸ hrest) (ho.trans hoffset) rfl
  · refine reads_pair _ ⟨.lineFeed, ['\n'], []⟩ hp PieceKind.noConfusion
      (Piece.placed_silent (cons_ne_nil _ _) ⟨rfl, rfl⟩) (fun _ => ⟨_, rfl, hi⟩) ?_ ?_ ?_
    · rw [hrest, hr]
      rfl
    · rw [ho, hoffset]
    · exact (append_nil _).symm

/-- A construct that is no start tag is one piece. -/
theorem reads_found (p : Piece) (hrest : cursor.rest = found.text ++ found.rest)
    (hstart : ∀ name attributes selfClosing,
      found.construct ≠ .startTag name attributes selfClosing) (hp : p.Placed cursor.offset)
    (hk : p.kind ≠ .lineFeed) (ht : p.text = found.text)
    (he : (constructEvents settings found cursor).1 = p.events) :
    Reads cursor (constructEvents settings found cursor) := by
  have hnext : (constructEvents settings found cursor).2.rest = found.rest ∧
      (constructEvents settings found cursor).2.offset =
        cursor.offset + byteLength found.text := by
    simp only [constructEvents]
    split
    · exact ⟨rfl, rfl⟩
    · exact ⟨rfl, rfl⟩
    · exact ⟨rfl, rfl⟩
    · exact ⟨rfl, rfl⟩
    · rename_i name attributes selfClosing hc
      exact absurd hc (hstart name attributes selfClosing)
  apply reads_piece p hp hk
  · rw [hnext.1, ht]
    exact hrest
  · rw [hnext.2, ht]
  · exact he

theorem reads_comment (h : comment? cursor.rest = some found) :
    Reads cursor (constructEvents settings found cursor) := by
  obtain ⟨⟨text, hc⟩, hopen, hclose⟩ := comment?_fits h
  let p : Piece := ⟨.comment, found.text, (constructEvents settings found cursor).1⟩
  have hes : p.events = [] ∨ ∃ t, p.events = [.comment t (p.range cursor.offset)] := by
    simp only [p, constructEvents, hc]
    split
    · split
      · exact Or.inr ⟨_, rfl⟩
      · exact Or.inl rfl
    · exact Or.inl rfl
  have hp : p.Placed cursor.offset := by
    apply Piece.placed_of [] p.events rfl
    · intro hn
      rw [show found.text = [] from hn] at hopen
      exact absurd (prefix_nil.1 hopen) (by decide)
    · exact ⟨hopen, hclose⟩
    · simp
    · rcases hes with hes | ⟨t, hes⟩
      · simp [hes]
      · intro e he
        rw [hes, mem_singleton] at he
        subst he
        exact Or.inl rfl
    · rcases hes with hes | ⟨t, hes⟩
      · simp [hes]
      · rw [hes]
        exact Nat.le_refl 1
    · rcases hes with hes | ⟨t, hes⟩
      · simp [hes]
      · simp [hes, Event.attributes]
  exact reads_found p (eq_of_enclosed? h) (by simp [hc]) hp (by simp [p]) rfl rfl

theorem reads_conditional (h : conditional? cursor.rest = some found) :
    Reads cursor (constructEvents settings found cursor) := by
  obtain ⟨hc, hopen, hclose⟩ := conditional?_fits h
  have hp : Piece.Placed ⟨.conditional, found.text, []⟩ cursor.offset := by
    refine Piece.placed_silent ?_ ⟨hopen, hclose⟩
    intro hn
    rw [hn] at hopen
    exact absurd (prefix_nil.1 hopen) (by decide)
  exact reads_found _ (eq_of_enclosed? h) (by simp [hc]) hp PieceKind.noConfusion rfl
    (by simp [constructEvents, hc])

theorem reads_doctype (h : doctype? cursor.rest = some found) :
    Reads cursor (constructEvents settings found cursor) := by
  obtain ⟨hc, hopen, inside, htext, hinside, hmem⟩ := doctype?_fits h
  have hp : Piece.Placed ⟨.doctype, found.text, []⟩ cursor.offset := by
    refine Piece.placed_silent ?_ ⟨hopen, inside, htext, hinside, hmem⟩
    intro hn
    rw [hn] at htext
    simp at htext
  exact reads_found _ (eq_of_doctype? h) (by simp [hc]) hp PieceKind.noConfusion rfl
    (by simp [constructEvents, hc])

theorem reads_endTag (h : endTag? cursor.rest = some found) :
    Reads cursor (constructEvents settings found cursor) := by
  obtain ⟨⟨tag, hc⟩, hfits⟩ := endTag?_fits h
  let range : Range := ⟨cursor.offset, cursor.offset + byteLength found.text⟩
  let p : Piece := ⟨.endTag, found.text, (endEvents (String.ofList tag) range cursor.stack).1⟩
  have hp : p.Placed cursor.offset := by
    apply Piece.placed_of [] p.events rfl
    · obtain ⟨name, more, htext, -⟩ := hfits
      simp [p, htext]
    · exact hfits
    · simp
    · exact fun e he => Or.inl (endEvents_range he).1
    · exact endEvents_single _ _ _
    · intro e he a ha
      rw [(endEvents_range he).2] at ha
      cases ha
  exact reads_found p (eq_of_endTag? h) (by simp [hc]) hp (by simp [p]) rfl
    (by simp [constructEvents, hc, p, range, Cursor.pass])

theorem reads_constructEvents (h : construct? cursor.offset cursor.rest = some found) :
    Reads cursor (constructEvents settings found cursor) := by
  simp only [construct?, or_eq_some_iff] at h
  rcases h with h | ⟨-, h | ⟨-, h | ⟨-, h | ⟨-, h⟩⟩⟩⟩
  · exact reads_comment h
  · exact reads_conditional h
  · exact reads_doctype h
  · exact reads_endTag h
  · exact reads_startEvents h

/-- The end of a raw text element: its content, and an end tag with its name in any case. -/
theorem rawText?_fits {lowerTag endTag : List Char}
    (h : rawText? lowerTag s = some (text, endTag, rest)) :
    s = text ++ (endTag ++ rest) ∧ ∃ name more, endTag = '<' :: '/' :: name ++ more ++ ['>'] ∧
      name.map Text.asciiLower = lowerTag ∧ '>' ∉ more := by
  simp only [rawText?, bind_eq_bind, Option.pure_def, bind_eq_some_iff, Prod.exists,
    Option.some.injEq, Prod.mk.injEq] at h
  obtain ⟨before, after, hm, more, r, hc, rfl, rfl, rfl⟩ := h
  have hmark := eq_of_cut? hm
  -- The content has as many characters as its lower-case form, so the end tag starts where that of
  -- the lower-case form does.
  have htag : (s.drop before.length).map Text.asciiLower = '<' :: '/' :: lowerTag ++ after := by
    rw [map_drop, hmark, append_assoc, drop_left]
  have htake : ((s.drop before.length).take (lowerTag.length + 2)).map Text.asciiLower =
      '<' :: '/' :: lowerTag := by
    rw [map_take, htag]
    exact take_left' (by simp)
  refine ⟨?_, ?_⟩
  · have hdrop := eq_of_cut? hc
    have h1 := take_append_drop before.length s
    have h2 := take_append_drop ('<' :: '/' :: lowerTag).length (s.drop before.length)
    rw [hdrop] at h2
    rw [← h2] at h1
    simpa using h1.symm
  · cases ht : (s.drop before.length).take (lowerTag.length + 2) with
    | nil => simp [ht] at htake
    | cons c t =>
      cases t with
      | nil => simp [ht] at htake
      | cons d name =>
        rw [ht] at htake
        simp only [map_cons, List.cons.injEq] at htake
        obtain ⟨hlt, hslash, hname⟩ := htake
        have hcc := Text.eq_of_asciiLower hlt (by decide)
        have hdd := Text.eq_of_asciiLower hslash (by decide)
        subst hcc hdd
        exact ⟨name, more, by simp, hname, Text.not_mem_of_cut? hc⟩

theorem lower_of_isRawText (h : Tag.isRawText tag = true) :
    Tag.lower tag = "script" ∨ Tag.lower tag = "style" ∨ Tag.lower tag = "textarea" := by
  simpa [Tag.isRawText] using h

/-- The end of an element of raw text closes elements and nothing else. -/
theorem finish_of_rawText (h : Tag.isRawText tag = true)
    (he : e ∈ (endEvents (Tag.lower tag) range stack).1) : ∃ t, e = .finish t range := by
  refine (mem_endEvents he).resolve_right fun hstray => ?_
  rcases lower_of_isRawText h with hl | hl | hl <;> rw [hl] at hstray <;>
    exact absurd hstray.1 (by decide)

theorem unwrap_nil (first : Char) (others closing : List Char) :
    unwrap first others closing [] = [] := by
  rw [unwrap]
  split
  · rfl
  · rename_i before inside h
    simp [Text.cut?, Text.after?] at h

theorem rawTextContent_nil (tag : String) : rawTextContent tag [] = [] := by
  simp only [rawTextContent, unwrap_nil, ite_self]

/-- The end tag of an element of raw text. Before it an empty text may be reported. -/
theorem placed_rawTextEnd {endTag : List Char} {idle : List Event} (h : Tag.isRawText tag = true)
    (hr : rawText? (Tag.lower tag).toList s = some (text, endTag, rest)) (stack : List String)
    (hlength : idle.length ≤ 1) (hidle : ∀ e ∈ idle, e = .text "" ⟨start, start⟩) :
    Piece.Placed ⟨.endTag, endTag, idle ++
      (endEvents (Tag.lower tag) ⟨start, start + byteLength endTag⟩ stack).1⟩ start := by
  have hlower := lower_of_isRawText h
  obtain ⟨-, name, more, hend, hname, hmore⟩ := rawText?_fits hr
  have hne : name ≠ [] := by
    rintro rfl
    rcases hlower with hl | hl | hl <;> simp [hl] at hname
  have hgt : '>' ∉ name := by
    intro hm
    have hm' : '>' ∈ (Tag.lower tag).toList := by
      rw [← hname]
      exact List.mem_map.2 ⟨'>', hm, by decide⟩
    rcases hlower with hl | hl | hl <;> rw [hl] at hm' <;> exact absurd hm' (by decide)
  apply Piece.placed_of idle _ rfl
  · simp [hend]
  · exact ⟨name, more, hend, hne, hgt, hmore⟩
  · intro e he
    rw [hidle e he]
    exact ⟨rfl, rfl, fun _ => rfl⟩
  · exact fun e he => .inl (endEvents_range he).1
  · rw [filter_append,
      filter_bringsNode_finish fun e he => (finish_of_rawText h he).imp fun _ he => ⟨_, he⟩,
      append_nil]
    exact Nat.le_trans (length_filter_le _ _) hlength
  · intro e he a ha
    rw [(endEvents_range he).2] at ha
    cases ha

theorem reads_rawTextEvents (h : Tag.isRawText tag = true) :
    Reads cursor (rawTextEvents tag cursor) := by
  cases hr : rawText? (Tag.lower tag).toList cursor.rest with
  | none =>
    -- Nothing is read: the element is closed where the reader stands.
    refine ⟨[], (endEvents (Tag.lower tag) ⟨cursor.offset, cursor.offset⟩ cursor.stack).1,
      trivial, ?_, ?_, ?_, by simp, ?_⟩
    · simp [rawTextEvents, hr]
    · simp [rawTextEvents, hr]
    · simp [rawTextEvents, hr]
    · intro e he
      exact finish_of_rawText h he
  | some found =>
    obtain ⟨text, endTag, rest⟩ := found
    have hs := (rawText?_fits hr).1
    let stop := cursor.offset + byteLength text
    let ends := (endEvents (Tag.lower tag) ⟨stop, stop + byteLength endTag⟩ cursor.stack).1
    let content := String.ofList (rawTextContent (Tag.lower tag) text)
    have hout : rawTextEvents tag cursor =
        (.text content ⟨cursor.offset, stop⟩ :: ends, ⟨stop + byteLength endTag, rest,
          (endEvents (Tag.lower tag) ⟨stop, stop + byteLength endTag⟩ cursor.stack).2⟩) := by
      simp only [rawTextEvents, hr, Cursor.pass]
      rfl
    rw [hout]
    by_cases ht : text = []
    · -- An empty content is reported, but the end tag is the only piece.
      subst ht
      have hcontent : content = "" := by simp [content, rawTextContent_nil]
      exact reads_piece ⟨.endTag, endTag, [.text content ⟨stop, stop⟩] ++ ends⟩
        (placed_rawTextEnd h hr cursor.stack (Nat.le_refl 1)
          (forall_mem_singleton.mpr (congrArg (Event.text · ⟨stop, stop⟩) hcontent)))
        PieceKind.noConfusion hs rfl rfl
    · exact reads_pair ⟨.text, text, [] ++ [.text content ⟨cursor.offset, stop⟩]⟩
        ⟨.endTag, endTag, [] ++ ends⟩ (Piece.placed_text (forall_mem_nil _) ht content)
        PieceKind.noConfusion
        (placed_rawTextEnd h hr cursor.stack (Nat.zero_le 1) (forall_mem_nil _))
        (fun hk => by cases hk) hs rfl rfl

theorem reads_textEvents (cursor : Cursor) : Reads cursor (textEvents cursor) := by
  have hrun := textRun_append cursor.rest
  by_cases hn : (textRun cursor.rest).1 = []
  · refine ⟨[], [], trivial, ?_, ?_, ?_, by simp, by simp⟩
    · rw [hn] at hrun
      simpa [textEvents, Cursor.pass] using hrun.symm
    · simp [textEvents, Cursor.pass, hn]
    · simp [textEvents, hn]
  · let run := (textRun cursor.rest).1
    let range : Range := ⟨cursor.offset, cursor.offset + byteLength run⟩
    apply reads_piece ⟨.text, run, [.text (String.ofList run) range]⟩ _ (by simp)
    · simpa [textEvents, Cursor.pass] using hrun.symm
    · simp [textEvents, Cursor.pass, run]
    · simp [textEvents, Cursor.pass, run, range, hn]
    · exact Piece.placed_text (forall_mem_nil _) hn (String.ofList run)

/-- Every step of the reader reads pieces. -/
theorem reads_step (settings : Settings) (cursor : Cursor) :
    Reads cursor (step settings cursor) := by
  rw [step]
  split
  · rename_i tag ht
    exact reads_rawTextEvents (filter_eq_some_iff.1 ht).2
  · split
    · rename_i found hf
      exact reads_constructEvents hf
    · exact reads_textEvents cursor

end Markup

end ViewTemplate

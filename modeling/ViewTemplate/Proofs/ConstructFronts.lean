import ViewTemplate.Proofs.PrintedMarkup

/-! # What is recognised at the front of a text

A construct of markup that is no start tag, and the content of a raw text element, are recognised by
their own characters: what follows them makes no difference. A name or a value ends at the character
after it, and a run of text at the bracket after it.
-/

open List
open Option hiding or_assoc

namespace ViewTemplate

open Text

namespace Text

variable {p s : List Char}

/-! ## What is found at the front of a text -/

theorem cut?_of_after? {r : List Char} (h : after? p s = some r) : cut? p s = some ([], r) := by
  cases s with
  | nil => rw [cut?, h]; rfl
  | cons c s => rw [cut?, h]

/-- Where a pattern is found first does not depend on what follows it. -/
theorem cut?_append {a b : List Char} (h : cut? p s = some (a, b)) (rest : List Char) :
    cut? p (a ++ (p ++ rest)) = some (a, rest) := by
  induction s generalizing a with
  | nil =>
    simp only [cut?, map_eq_some_iff, Prod.mk.injEq] at h
    obtain ⟨r, hr, rfl, rfl⟩ := h
    exact cut?_of_after? (after?_append p rest)
  | cons c s ih =>
    rw [cut?] at h
    split at h
    · cases h
      exact cut?_of_after? (after?_append p rest)
    · rename_i hnone
      simp only [map_eq_some_iff, Prod.mk.injEq] at h
      obtain ⟨⟨a, b⟩, hcut, rfl, rfl⟩ := h
      -- An earlier occurrence would end before the first one does, and so be there already.
      have hlater : after? p (c :: (a ++ (p ++ rest))) = none := by
        rw [eq_none_iff_forall_ne_some]
        intro r hr
        have hfront : p <+: c :: a ++ p := by
          have hwhole : p <+: c :: (a ++ (p ++ rest)) := ⟨r, (after?_eq_some_iff.mp hr).symm⟩
          refine prefix_of_prefix_length_le hwhole ⟨rest, by simp⟩ ?_
          rw [length_append]
          omega
        obtain ⟨more, hmore⟩ := hfront
        have hsome : after? p (c :: s) = some (more ++ b) := by
          rw [after?_eq_some_iff, eq_of_cut? hcut, ← append_assoc, hmore]
          simp
        rw [hnone] at hsome
        cases hsome
      rw [cons_append, cut?, hlater, ih hcut]
      rfl

theorem after?_append_of_isPrefix (h : p <+: s) (rest : List Char) :
    ∃ r, after? p (s ++ rest) = some r := by
  obtain ⟨t, rfl⟩ := h
  exact ⟨t ++ rest, by rw [append_assoc, after?_append]⟩

end Text

namespace Markup

variable {found : Found} {name rest rest' s text value : List Char}

/-! ## Constructs without their surroundings -/

theorem enclosed?_append {opening closing : List Char} {construct : List Char → Construct}
    (h : enclosed? opening closing construct s = some found) (hopen : opening <+: found.text)
    (rest : List Char) :
    enclosed? opening closing construct (found.text ++ rest) = some { found with rest } := by
  obtain ⟨r, hr⟩ := Text.after?_append_of_isPrefix hopen rest
  obtain ⟨_, _, before, _, hcut, rfl⟩ := exists_of_enclosed? h
  rw [enclosed?, hr, append_assoc, Text.cut?_append hcut rest]
  rfl

theorem doctype?_append (h : doctype? s = some found) (rest : List Char) :
    doctype? (found.text ++ rest) = some { found with rest } := by
  simp only [doctype?, bind_eq_bind, Option.pure_def, bind_eq_some_iff,
    Prod.exists] at h
  obtain ⟨more, hopen, inside, _, hcut, h⟩ := h
  split at h
  · cases h
  · rename_i hinside
    cases h
    have hlength : (s.take 10).length = 10 := by
      have hle := length_take_le 10 s
      have hmap := congrArg length (Text.after?_eq_some_iff.mp hopen)
      have hmark : "<!doctype ".toList.length = 10 := by decide
      rw [length_map, length_append, hmark] at hmap
      omega
    have hsplit : s.take 10 ++ inside ++ ['>'] ++ rest = s.take 10 ++ (inside ++ (['>'] ++ rest)) := by
      simp only [append_assoc]
    have hpair := Text.cut?_append hcut rest
    rw [doctype?, hsplit, take_left' hlength, drop_left' hlength, hopen, hpair]
    simp only [bind_eq_bind, bind_some, hinside, Bool.false_eq_true, if_false,
      Option.pure_def]

theorem localName?_eq_none_iff : localName? s = none ↔ StopsAt isNameStart s := by
  cases s with
  | nil => simp [localName?, StopsAt]
  | cons c s => simp [localName?, StopsAt]

/-- A name is read as far as it goes. -/
theorem isLocalName_of_localName? (h : localName? s = some (name, rest)) :
    IsLocalName name ∧ StopsAt isNameChar rest := by
  cases s with
  | nil => cases h
  | cons c s =>
    rw [localName?] at h
    split at h
    · rename_i hc
      cases h
      exact ⟨⟨c, _, rfl, hc, List.all_eq_true.mp all_takeWhile⟩, stopsAt_dropWhile _ _⟩
    · cases h

/-- Two texts that go on alike after a name. -/
structure FollowAlike (rest rest' : List Char) : Prop where
  head : rest'.head? = rest.head?
  second : rest.head? = some ':' → rest'.tail.head? = rest.tail.head?

theorem qualifiedName?_of_followAlike (h : qualifiedName? s = some (name, rest))
    (halike : FollowAlike rest rest') : qualifiedName? (name ++ rest') = some (name, rest') := by
  simp only [qualifiedName?, bind_eq_bind, bind_eq_some_iff, Prod.exists] at h
  obtain ⟨first, middle, hfirst, h⟩ := h
  obtain ⟨hlocal, hmiddle⟩ := isLocalName_of_localName? hfirst
  split at h
  · rename_i after
    split at h
    · rename_i second last hsecond
      cases h
      obtain ⟨hlocal', hlast⟩ := isLocalName_of_localName? hsecond
      have hstops : StopsAt isNameChar rest' := hlast.of_head? halike.head
      have hcolon : StopsAt isNameChar (':' :: (second ++ rest')) := hmiddle
      rw [append_assoc, cons_append, qualifiedName?, localName?_append hlocal hcolon]
      simp only [bind_eq_bind, bind_some, localName?_append hlocal' hstops]
    · rename_i hsecond
      cases h
      cases rest' with
      | nil => cases halike.head
      | cons c after' =>
        cases halike.head
        have hnone : localName? after' = none :=
          localName?_eq_none_iff.mpr ((localName?_eq_none_iff.mp hsecond).of_head? (halike.second rfl))
        have hcolon : StopsAt isNameChar (':' :: after') := hmiddle
        rw [qualifiedName?, localName?_append hlocal hcolon]
        simp only [bind_eq_bind, bind_some, hnone]
  · rename_i hcolon
    cases h
    have hstops : StopsAt isNameChar rest' := hmiddle.of_head? halike.head
    rw [qualifiedName?, localName?_append hlocal hstops]
    simp only [bind_eq_bind, bind_some]
    split
    · rename_i after'
      cases rest with
      | nil => cases halike.head
      | cons c after =>
        cases halike.head
        exact absurd rfl (hcolon after)
    · rfl

theorem endTag?_append (h : endTag? s = some found) (rest : List Char) :
    endTag? (found.text ++ rest) = some { found with rest } := by
  obtain ⟨inside, hopen, name, after, hname, more, last, hcut, rfl⟩ := exists_of_endTag? h
  have halike : FollowAlike after (more ++ (['>'] ++ rest)) := by
    rw [Text.eq_of_cut? hcut]
    constructor
    · cases more <;> rfl
    · intro hcolon
      cases more with
      | nil => cases hcolon
      | cons c more => cases more <;> rfl
  have hsplit : ['<', '/'] ++ name ++ more ++ ['>'] ++ rest =
      ['<', '/'] ++ (name ++ (more ++ (['>'] ++ rest))) := by
    simp only [append_assoc]
  rw [endTag?, hsplit, Text.after?_append]
  simp only [bind_eq_bind, bind_some, qualifiedName?_of_followAlike hname halike,
    Text.cut?_append hcut rest, Option.pure_def]

/-- The third character tells declarations apart. -/
theorem third_of_doctype? (h : doctype? s = some found) :
    ∃ c t, found.text = '<' :: '!' :: c :: t ∧ c ≠ '-' ∧ c ≠ '[' := by
  obtain ⟨-, hopen, -⟩ := doctype?_fits h
  have hmark : "<!doctype ".toList = '<' :: '!' :: 'd' :: "octype ".toList := by decide
  rw [hmark] at hopen
  obtain ⟨a, l, hl, ha, hopen⟩ := map_eq_cons_iff.mp hopen
  obtain ⟨b, l, rfl, hb, hopen⟩ := map_eq_cons_iff.mp hopen
  obtain ⟨c, l, rfl, hc, -⟩ := map_eq_cons_iff.mp hopen
  have hbracket := eq_of_asciiLower ha (by decide)
  have hbang := eq_of_asciiLower hb (by decide)
  refine ⟨c, l ++ found.text.drop 10, ?_, ?_, ?_⟩
  · calc found.text = found.text.take 10 ++ found.text.drop 10 := (take_append_drop 10 _).symm
      _ = '<' :: '!' :: c :: (l ++ found.text.drop 10) := by rw [hl, hbracket, hbang]; rfl
  · rintro rfl
    exact absurd hc (by decide)
  · rintro rfl
    exact absurd hc (by decide)

/-- A construct that is no start tag is recognised whatever follows it. -/
theorem construct?_append {offset : Nat} (h : construct? offset s = some found)
    (hstart : ∀ name attributes selfClosing,
      found.construct ≠ .startTag name attributes selfClosing) (offset' : Nat) (rest : List Char) :
    construct? offset' (found.text ++ rest) = some { found with rest } := by
  simp only [construct?, or_eq_some_iff] at h
  rcases h with h | ⟨-, h | ⟨-, h | ⟨-, h | ⟨-, h⟩⟩⟩⟩
  · have hcomment : comment? (found.text ++ rest) = some { found with rest } :=
      enclosed?_append h (comment?_fits h).2.1 rest
    rw [construct?, hcomment, some_or]
  · have hcomment : comment? (found.text ++ rest) = none := by
      obtain ⟨t, ht⟩ := (conditional?_fits h).2.1
      simp [← ht, comment?, enclosed?, commentOpen, conditionalOpen, Text.after?]
    have hconditional : conditional? (found.text ++ rest) = some { found with rest } :=
      enclosed?_append h (conditional?_fits h).2.1 rest
    rw [construct?, hcomment, hconditional, none_or, some_or]
  · obtain ⟨c, t, ht, hdash, hsquare⟩ := third_of_doctype? h
    have hcomment : comment? (found.text ++ rest) = none := by
      simp [ht, comment?, enclosed?, commentOpen, Text.after?, hdash.symm]
    have hconditional : conditional? (found.text ++ rest) = none := by
      simp [ht, conditional?, enclosed?, conditionalOpen, Text.after?, hsquare.symm]
    rw [construct?, hcomment, hconditional, doctype?_append h rest, none_or, none_or,
      some_or]
  · obtain ⟨name, more, ht, -⟩ := (endTag?_fits h).2
    have hmark := construct?_of_ne_mark (c := '/') (by decide) offset' (name ++ more ++ ['>'] ++ rest)
    have hsplit : found.text ++ rest = '<' :: '/' :: (name ++ more ++ ['>'] ++ rest) := by
      simp [ht]
    rw [hsplit, hmark, ← hsplit, endTag?_append h rest, some_or]
  · obtain ⟨name, attributes, selfClosing, -, hfound, -⟩ := startTag?_fits h
    exact absurd hfound (hstart name attributes selfClosing)

theorem rawText?_append {lowerTag endTag : List Char}
    (h : rawText? lowerTag s = some (text, endTag, rest)) (rest' : List Char) :
    rawText? lowerTag (text ++ (endTag ++ rest')) = some (text, endTag, rest') := by
  simp only [rawText?, bind_eq_bind, Option.pure_def, bind_eq_some_iff, Prod.exists,
    Option.some.injEq, Prod.mk.injEq] at h
  obtain ⟨before, after, hmark, more, last, hcut, rfl, rfl, rfl⟩ := h
  have hlower := Text.eq_of_cut? hmark
  have hbefore : (s.take before.length).map asciiLower = before := by
    rw [map_take, hlower, append_assoc, take_left]
  have hname : ((s.drop before.length).take ('<' :: '/' :: lowerTag).length).map asciiLower =
      '<' :: '/' :: lowerTag := by
    rw [map_take, map_drop, hlower, append_assoc, drop_left, take_left]
  generalize (s.drop before.length).take ('<' :: '/' :: lowerTag).length = name at hname
  generalize s.take before.length = text at hbefore
  subst hbefore
  have hlength : name.length = ('<' :: '/' :: lowerTag).length := by
    rw [← hname, length_map]
  have hfound : Text.cut? ('<' :: '/' :: lowerTag)
      ((text ++ (name ++ more ++ ['>'] ++ rest')).map asciiLower) =
      some (text.map asciiLower, (more ++ (['>'] ++ rest')).map asciiLower) := by
    have hpair := Text.cut?_append hmark ((more ++ (['>'] ++ rest')).map asciiLower)
    rw [← hname, ← map_append, ← map_append] at hpair
    simpa [hname] using hpair
  have hsplit : name ++ more ++ ['>'] ++ rest' = name ++ (more ++ (['>'] ++ rest')) := by
    simp only [append_assoc]
  have hcount : text.length = (text.map asciiLower).length := (length_map _).symm
  simp only [rawText?, hfound, bind_eq_bind, bind_some, Option.pure_def]
  rw [drop_left' hcount, take_left' hcount, hsplit, drop_left' hlength,
    take_left' hlength, Text.cut?_append hcut rest']
  rfl

/-! ## Parts of a start tag -/

theorem dynamicLead?_append {lead : List Char} (h : dynamicLead? s = some (lead, rest))
    (rest' : List Char) : dynamicLead? (lead ++ rest') = some (lead, rest') := by
  have hcolon (rest : List Char) : StopsAt isLeadChar (':' :: rest) := by
    rintro c ⟨⟩
    decide
  simp only [dynamicLead?] at h
  split at h
  · rename_i r
    split at h
    · split at h
      · cases h
      · rename_i hword
        cases h
        simp only [cons_append, append_assoc, nil_append, dynamicLead?,
          (hcolon rest').takeWhile_takeWhile, (hcolon rest').dropWhile_takeWhile, hword,
          Bool.false_eq_true, if_false]
    · cases h
  · rename_i c r hne
    split at h
    · rename_i hc
      cases h
      have hv : c ≠ 'v' := by
        rintro rfl
        simp at hc
      simp only [singleton_append, dynamicLead?]
      split
      · rename_i heq
        cases heq
        exact absurd rfl hv
      · rename_i heq
        cases heq
        rw [if_pos hc]
      · rename_i heq
        cases heq
    · cases h
  · cases h

theorem bracketed?_append (h : bracketed? s = some (text, rest)) (rest' : List Char) :
    bracketed? (text ++ rest') = some (text, rest') := by
  have hclose : StopsAt isArgumentChar (']' :: rest') := by
    rintro c ⟨⟩
    decide
  simp only [bracketed?] at h
  split at h
  · split at h
    · split at h
      · cases h
      · rename_i hc
        cases h
        simp only [cons_append, append_assoc, nil_append, bracketed?,
          hclose.takeWhile_takeWhile, hclose.dropWhile_takeWhile, hc, if_false]
    · cases h
  · cases h

theorem value?_append (h : value? s = some (text, value, rest))
    (hquoted : ∀ quote, quote = '"' ∨ quote = '\x27' → StopsAt (· == quote) rest →
      StopsAt (· == quote) rest')
    (hplain : StopsAt isUnquotedChar rest → StopsAt isUnquotedChar rest') :
    value? (text ++ rest') = some (text, value, rest') := by
  cases s with
  | nil => simp [value?] at h
  | cons c r =>
    simp only [value?] at h
    split at h
    · rename_i hc
      simp only [quotedValue?, bind_eq_bind, Option.pure_def, bind_eq_some_iff,
        Prod.exists, Option.some.injEq, Prod.mk.injEq] at h
      obtain ⟨v, t, hcut, rfl, rfl, rfl⟩ := h
      have hstops := hquoted c (by simpa using hc) (stopsAt_dropWhile _ t)
      have hagain := Text.cut?_append hcut (t.takeWhile (· == c) ++ rest')
      simp only [singleton_append] at hagain
      simp only [cons_append, append_assoc, value?, hc, if_true, quotedValue?, hagain,
        bind_eq_bind, bind_some, hstops.takeWhile_takeWhile,
        hstops.dropWhile_takeWhile, Option.pure_def]
    · rename_i hc
      split at h
      · cases h
      · rename_i hvalue
        cases h
        have hstops := hplain (stopsAt_dropWhile _ _)
        have htake := hstops.takeWhile_takeWhile (c :: r)
        have hdrop := hstops.dropWhile_takeWhile (c :: r)
        generalize hword : (c :: r).takeWhile isUnquotedChar = word at hvalue htake hdrop
        cases word with
        | nil => simp at hvalue
        | cons d word =>
          have hd : d = c := by
            rw [takeWhile_cons] at hword
            split at hword
            · cases hword; rfl
            · cases hword
          subst hd
          rw [cons_append] at htake hdrop ⊢
          simp only [value?, hc, htake, hdrop, hvalue]
          rfl

theorem head_of_value? (h : value? s = some (text, value, rest)) :
    ∃ c t, text = c :: t ∧ (c = '"' ∨ c = '\x27' ∨ isUnquotedChar c = true) := by
  cases s with
  | nil => simp [value?] at h
  | cons c r =>
    simp only [value?] at h
    split at h
    · rename_i hc
      simp only [quotedValue?, bind_eq_bind, Option.pure_def, bind_eq_some_iff,
        Prod.exists, Option.some.injEq, Prod.mk.injEq] at h
      obtain ⟨v, t, -, rfl, -, -⟩ := h
      exact ⟨c, _, rfl, by simpa [or_assoc] using Or.inl (b := isUnquotedChar c = true) hc⟩
    · split at h
      · cases h
      · rename_i hvalue
        cases h
        rw [takeWhile_cons] at hvalue ⊢
        split
        · rename_i hc
          exact ⟨c, _, rfl, .inr (.inr hc)⟩
        · rename_i hc
          rw [if_neg hc] at hvalue
          exact absurd rfl hvalue

theorem not_isBlank_of_value? (h : value? s = some (text, value, rest)) (rest' : List Char) :
    StopsAt isBlank (text ++ rest') := by
  obtain ⟨c, t, rfl, hc⟩ := head_of_value? h
  rintro d ⟨⟩
  rcases hc with rfl | rfl | hc
  · decide
  · decide
  · simp only [isUnquotedChar, Bool.and_eq_true, Bool.not_eq_true'] at hc
    exact hc.1

theorem valuePart?_append {part : List Char} (h : valuePart? s = some (part, value, rest))
    (hquoted : ∀ quote, quote = '"' ∨ quote = '\x27' → StopsAt (· == quote) rest →
      StopsAt (· == quote) rest')
    (hplain : StopsAt isUnquotedChar rest → StopsAt isUnquotedChar rest') :
    valuePart? (part ++ rest') = some (part, value, rest') := by
  have hequals (r : List Char) : StopsAt isBlank ('=' :: r) := by
    rintro c ⟨⟩
    decide
  simp only [valuePart?] at h
  split at h
  · rename_i r hr
    simp only [map_eq_some_iff, Prod.exists, Prod.mk.injEq] at h
    obtain ⟨text, v, u, hvalue, rfl, rfl, rfl⟩ := h
    have hstops := not_isBlank_of_value? hvalue rest'
    have hafter := hequals (r.takeWhile isBlank ++ (text ++ rest'))
    simp only [valuePart?, trimStart, append_assoc, cons_append,
      hafter.dropWhile_takeWhile, hafter.takeWhile_takeWhile, hstops.dropWhile_takeWhile,
      hstops.takeWhile_takeWhile, value?_append hvalue hquoted hplain, map_some]
  · cases h

theorem tagEnd?_append {closing : Bool} (h : tagEnd? s = some (closing, text, rest))
    (rest' : List Char) : tagEnd? (text ++ rest') = some (closing, text, rest') := by
  have hstops (c : Char) (hc : isBlank c = false) (r : List Char) :
      StopsAt isBlank (c :: r) := by
    rintro d ⟨⟩
    exact hc
  simp only [tagEnd?] at h
  split at h
  · cases h
    have hclose := hstops '>' (by decide) rest'
    simp only [tagEnd?, trimStart, append_assoc, cons_append, nil_append,
      hclose.dropWhile_takeWhile, hclose.takeWhile_takeWhile]
  · cases h
    have hclose := hstops '/' (by decide) ('>' :: rest')
    simp only [tagEnd?, trimStart, append_assoc, cons_append, nil_append,
      hclose.dropWhile_takeWhile, hclose.takeWhile_takeWhile]
  · cases h

/-! ## Runs of text -/

theorem isSome_qualifiedName? (s : List Char) :
    (qualifiedName? s).isSome = s.head?.any isNameStart := by
  cases s with
  | nil => rfl
  | cons c s =>
    rw [qualifiedName?, localName?, head?_cons, any_some]
    cases isNameStart c with
    | false => rfl
    | true =>
      simp only [if_true, bind_eq_bind, bind_some]
      split
      · split <;> rfl
      · rfl

theorem isSome_cut?_singleton (x : Char) (s : List Char) :
    (Text.cut? [x] s).isSome = true ↔ x ∈ s := by
  constructor
  · intro h
    obtain ⟨⟨before, after⟩, hcut⟩ := isSome_iff_exists.mp h
    rw [Text.eq_of_cut? hcut]
    simp
  · intro h
    induction s with
    | nil => cases h
    | cons c s ih =>
      rw [Text.cut?]
      split
      · rfl
      · rename_i hnone
        rcases mem_cons.mp h with rfl | h
        · simp [Text.after?] at hnone
        · rw [isSome_map]
          exact ih h

theorem isSome_endTag? (s : List Char) : (endTag? ('<' :: s)).isSome = true ↔
    ∃ t, s = '/' :: t ∧ t.head?.any isNameStart = true ∧ '>' ∈ t := by
  constructor
  · intro h
    obtain ⟨found, hfound⟩ := isSome_iff_exists.mp h
    obtain ⟨inside, hopen, name, after, hname, more, last, hcut, -⟩ := exists_of_endTag? hfound
    have hinside := Text.after?_eq_some_iff.mp hopen
    refine ⟨inside, cons_inj_right '<' |>.mp hinside, ?_, ?_⟩
    · rw [← isSome_qualifiedName?, hname]
      rfl
    · rw [eq_of_qualifiedName? hname, Text.eq_of_cut? hcut]
      simp
  · rintro ⟨t, rfl, hname, hclose⟩
    rw [← isSome_qualifiedName?] at hname
    obtain ⟨⟨name, after⟩, hfound⟩ := isSome_iff_exists.mp hname
    have hafter : '>' ∈ after := by
      rw [eq_of_qualifiedName? hfound, mem_append] at hclose
      rcases hclose with hmem | hmem
      · rcases isNameChar_or_colon_of_mem hfound hmem with hc | hc
        · exact absurd hc (by decide)
        · exact absurd hc (by decide)
      · exact hmem
    obtain ⟨cut, hcut⟩ := isSome_iff_exists.mp ((isSome_cut?_singleton '>' after).mpr hafter)
    have hopen : Text.after? ['<', '/'] ('<' :: '/' :: t) = some t := rfl
    rw [endTag?, hopen]
    simp only [bind_eq_bind, bind_some, hfound, hcut, Option.pure_def,
      isSome_some]

/-- What a construct begins with: an end tag, a start tag, a comment or a conditional comment. -/
theorem beginsConstruct_iff :
    beginsConstruct ('<' :: s) = true ↔
      (∃ t, s = '/' :: t ∧ t.head?.any isNameStart = true ∧ '>' ∈ t) ∨
        s.head?.any isNameStart = true ∨ ['!', '-', '-'] <+: s ∨ ['!', '['] <+: s := by
  have hstart : startTagName? ('<' :: s) = qualifiedName? s := rfl
  have hopen (p : List Char) : startsWith ('<' :: p) ('<' :: s) = true ↔ p <+: s := by
    rw [startsWith_iff]
    constructor
    · rintro ⟨r, hr⟩
      exact ⟨r, (cons_inj_right '<').mp hr.symm⟩
    · rintro ⟨r, hr⟩
      exact ⟨r, by rw [← hr]; rfl⟩
  rw [beginsConstruct, Bool.or_eq_true, Bool.or_eq_true, Bool.or_eq_true, isSome_endTag?, hstart,
    isSome_qualifiedName?, commentOpen, conditionalOpen, hopen, hopen, or_assoc, or_assoc]

/-! ## Start tags, document types and texts -/

theorem head_of_qualifiedName? (h : qualifiedName? s = some (name, rest)) :
    name.head?.any isNameStart = true := by
  have hsome := isSome_qualifiedName? s
  rw [h, eq_of_qualifiedName? h] at hsome
  obtain ⟨c, name, rfl⟩ := exists_cons_of_ne_nil (ne_nil_of_qualifiedName? h)
  exact hsome.symm

theorem construct?_of_startTag? {offset : Nat} (h : startTag? offset s = some found) :
    construct? offset s = some found := by
  have hopen := h
  simp only [startTag?, startTagName?, bind_eq_bind, bind_eq_some_iff, Prod.exists,
    Text.after?_eq_some_iff] at hopen
  obtain ⟨tag, r, ⟨inside, hs, hname⟩, -⟩ := hopen
  have hhead := head_of_qualifiedName? hname
  obtain ⟨c, x, rfl⟩ := exists_cons_of_ne_nil (ne_nil_of_qualifiedName? hname)
  rw [eq_of_qualifiedName? hname, singleton_append, cons_append] at hs
  subst hs
  have hslash : c ≠ '/' := isNameStart_ne hhead (by decide)
  have hend : endTag? ('<' :: c :: (x ++ r)) = none := by
    simp [endTag?, Text.after?, hslash.symm]
  rw [construct?_of_ne_mark (isNameStart_ne hhead (by decide)), hend, none_or, h]

theorem isSome_doctype? (s : List Char) : (doctype? s).isSome = true ↔
    "<!doctype ".toList <+: s.map asciiLower ∧ '>' ∈ s.drop 10 ∧
      (s.drop 10).head? ≠ some '>' := by
  have hfront : (∃ r, (s.take 10).map asciiLower = "<!doctype ".toList ++ r) ↔
      "<!doctype ".toList <+: s.map asciiLower := by
    have htake : "<!doctype ".toList <+: (s.map asciiLower).take 10 ↔
        "<!doctype ".toList <+: s.map asciiLower :=
      prefix_take_iff.trans (and_iff_left (by decide))
    rw [← htake, map_take]
    exact exists_congr fun r => eq_comm
  rw [← isSome_cut?_singleton, ← hfront, isSome_iff_exists, isSome_iff_exists]
  simp only [doctype?, bind_eq_bind, Option.pure_def, bind_eq_some_iff, Prod.exists,
    Text.after?_eq_some_iff]
  constructor
  · rintro ⟨found, r, hr, inside, rest, hcut, hfound⟩
    refine ⟨⟨r, hr⟩, ⟨inside, rest, hcut⟩, fun hhead => ?_⟩
    cases inside with
    | nil => cases hfound
    | cons c inside =>
      rw [Text.eq_of_cut? hcut] at hhead
      cases hhead
      exact not_mem_of_cut? hcut mem_cons_self
  · rintro ⟨⟨r, hr⟩, ⟨inside, rest, hcut⟩, hhead⟩
    cases inside with
    | nil => exact absurd (by rw [Text.eq_of_cut? hcut]; rfl) hhead
    | cons c inside => exact ⟨_, r, hr, c :: inside, rest, hcut, rfl⟩

theorem construct?_of_not_begins (h : beginsConstruct s = false) (offset : Nat) :
    construct? offset s = doctype? s := by
  simp only [beginsConstruct, Bool.or_eq_false_iff, isSome_eq_false_iff,
    isNone_iff_eq_none, startsWith] at h
  obtain ⟨⟨⟨hend, hname⟩, hcomment⟩, hconditional⟩ := h
  simp [construct?, comment?, conditional?, enclosed?, startTag?, hend, hname, hcomment, hconditional]

theorem head_of_textRun (s : List Char) : ∀ c ∈ (textRun s).2.head?, c = '<' := by
  induction s with
  | nil => simp [textRun]
  | cons c s ih =>
    simp only [textRun]
    split
    · rename_i hc
      simp only [Bool.and_eq_true, decide_eq_true_eq] at hc
      simp [hc.1]
    · exact ih

theorem not_begins_of_textRun (h : (textRun s).1 ≠ []) : beginsConstruct s = false := by
  cases s with
  | nil => exact absurd rfl h
  | cons c s =>
    by_cases hc : c = '<'
    · subst hc
      rw [Bool.eq_false_iff]
      intro hbegins
      rw [textRun_of_begins hbegins] at h
      exact h rfl
    · have hc' : ¬ '<' = c := fun heq => hc heq.symm
      simp [beginsConstruct, endTag?, startTagName?, startsWith, Text.after?, commentOpen,
        conditionalOpen, hc']

end Markup

end ViewTemplate

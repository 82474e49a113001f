import ViewTemplate.Proofs.ConstructFronts
import ViewTemplate.Proofs.LongSpelling

/-! # Source texts in two spellings

Marks at some places of a text are put into their long spelling. No character with a meaning for
markup comes or goes by this, so an attribute at such a place is read with its long name, and
everything else as before. Only next to the name of a tag a word would become part of that name.
-/

open List Option

namespace ViewTemplate

open Text

namespace Spelling

/-- A text with the marks at some places in their long spelling. The text starts at an offset. -/
def respell (places : Nat → Bool) : Nat → List Char → List Char
  | _, [] => []
  | offset, c :: s =>
    (if places offset then ((longMark? c).map String.toList).getD [c] else [c]) ++
      respell places (offset + c.utf8Size) s

/-- The second text is the first with some marks in their long spelling. -/
inductive Lengthened : List Char → List Char → Prop
  | nil : Lengthened [] []
  | kept (c : Char) {s s' : List Char} : Lengthened s s' → Lengthened (c :: s) (c :: s')
  | mark {c : Char} {word : String} {s s' : List Char} (hmark : longMark? c = some word) :
      Lengthened s s' → Lengthened (c :: s) (word.toList ++ s')

/-- A name in its long spelling, or as it is. -/
inductive Renamed (name : List Char) : List Char → Prop
  | same : Renamed name name
  | long {mark : Char} {word : String} {x : List Char} (hmark : longMark? mark = some word)
      (hx : x ≠ []) (hname : name = mark :: x) : Renamed name (word.toList ++ x)

theorem longMark?_cases {c : Char} {word : String} (h : longMark? c = some word) :
    c = ':' ∧ word = "v-bind:" ∨ c = '@' ∧ word = "v-on:" ∨ c = '#' ∧ word = "v-slot:" := by
  unfold longMark? at h
  split at h
  · cases h; exact .inl ⟨rfl, rfl⟩
  · cases h; exact .inr (.inl ⟨rfl, rfl⟩)
  · cases h; exact .inr (.inr ⟨rfl, rfl⟩)
  · cases h

/-- Marks and the characters of the words for them. -/
def spellingChars : List Char := ":@#v-bindoslt".toList

theorem spellingChars_of_longMark? {c : Char} {word : String} (h : longMark? c = some word) :
    c ∈ spellingChars ∧ word.toList ⊆ spellingChars := by
  rcases longMark?_cases h with ⟨rfl, rfl⟩ | ⟨rfl, rfl⟩ | ⟨rfl, rfl⟩ <;> decide

variable {places : Nat → Bool} {s s' t t' : List Char}

theorem respell_append (places : Nat → Bool) (offset : Nat) (s t : List Char) :
    respell places offset (s ++ t) =
      respell places offset s ++ respell places (offset + byteLength s) t := by
  induction s generalizing offset with
  | nil => rfl
  | cons c s ih =>
    rw [cons_append, respell, respell, ih, byteLength_cons, append_assoc,
      Nat.add_assoc]

/-- A text without a place stays as it is. -/
theorem respell_of_none {offset : Nat}
    (h : ∀ p, offset ≤ p → p < offset + byteLength s → places p = false) :
    respell places offset s = s := by
  induction s generalizing offset with
  | nil => rfl
  | cons c s ih =>
    have hpos := c.utf8Size_pos
    have hc := h offset (Nat.le_refl _) (by rw [byteLength_cons]; omega)
    have hs : respell places (offset + c.utf8Size) s = s := ih fun p hle hlt =>
      h p (by omega) (by rw [byteLength_cons]; omega)
    rw [respell, hc, hs]
    rfl

theorem lengthened_respell (places : Nat → Bool) (offset : Nat) (s : List Char) :
    Lengthened s (respell places offset s) := by
  induction s generalizing offset with
  | nil => exact .nil
  | cons c s ih =>
    rw [respell]
    split
    · cases hmark : longMark? c with
      | none => exact .kept c (ih _)
      | some word => exact .mark hmark (ih _)
    · exact .kept c (ih _)

namespace Lengthened

variable {p : Char → Bool}

theorem refl (s : List Char) : Lengthened s s := by
  induction s with
  | nil => exact .nil
  | cons c s ih => exact .kept c ih

section

variable (h : Lengthened s s')
include h

theorem append (h' : Lengthened t t') : Lengthened (s ++ t) (s' ++ t') := by
  induction h with
  | nil => exact h'
  | kept c _ ih => exact .kept c ih
  | mark hmark _ ih =>
    rw [append_assoc]
    exact .mark hmark ih

/-- A character that neither is a mark nor stands in a word for one is added and removed nowhere. -/
theorem mem_iff {c : Char} (hc : c ∉ spellingChars) : c ∈ s' ↔ c ∈ s := by
  induction h with
  | nil => exact Iff.rfl
  | kept d _ ih => simp only [mem_cons, ih]
  | @mark d word s s' hmark _ ih =>
    obtain ⟨hd, hword⟩ := spellingChars_of_longMark? hmark
    have hin : c ∉ word.toList := fun hin => hc (hword hin)
    have hne : c ≠ d := by
      rintro rfl
      exact hc hd
    simp only [mem_append, mem_cons, hin, hne, false_or, ih]

/-- Only a mark at the front is changed, into the first letter of its word. -/
theorem head_cases :
    s'.head? = s.head? ∨
      ∃ c word, s.head? = some c ∧ longMark? c = some word ∧ s'.head? = some 'v' := by
  cases h with
  | nil => exact .inl rfl
  | kept c _ => exact .inl rfl
  | mark hmark _ =>
    refine .inr ⟨_, _, rfl, hmark, ?_⟩
    rcases longMark?_cases hmark with ⟨-, rfl⟩ | ⟨-, rfl⟩ | ⟨-, rfl⟩ <;> rfl

theorem stopsAt (hs : StopsAt p s) (hv : p 'v' = false) :
    StopsAt p s' := by
  rcases h.head_cases with heq | ⟨c, word, -, -, heq⟩
  · rwa [StopsAt, heq]
  · rintro d hd
    rw [heq] at hd
    cases hd
    exact hv

/-- A text that does not go on with a class of which all marks are goes on as before. -/
theorem head_eq (hs : StopsAt p s) (hp : ∀ c word, longMark? c = some word → p c = true) :
    s'.head? = s.head? := by
  rcases h.head_cases with heq | ⟨c, word, hc, hmark, -⟩
  · exact heq
  · have hfalse := hs c hc
    rw [hp c word hmark] at hfalse
    cases hfalse

/-- Where a class ends of which marks and words are, the text goes on as before. -/
theorem dropWhile (hp : ∀ c ∈ spellingChars, p c = true) :
    Lengthened (s.dropWhile p) (s'.dropWhile p) := by
  induction h with
  | nil => exact .nil
  | @kept c s s' hs ih =>
    rw [dropWhile_cons, dropWhile_cons]
    split
    · exact ih
    · exact .kept c hs
  | @mark c word s s' hmark _ ih =>
    obtain ⟨hc, hword⟩ := spellingChars_of_longMark? hmark
    rw [dropWhile_append_of_pos fun d hd => hp d (hword hd), dropWhile_cons_of_pos (hp c hc)]
    exact ih

theorem trimStart : Lengthened (Text.trimStart s) (Text.trimStart s') := by
  induction h with
  | nil => exact .nil
  | @kept c s s' hs ih =>
    rw [Text.trimStart, Text.trimStart, dropWhile_cons, dropWhile_cons]
    split
    · exact ih
    · exact .kept c hs
  | @mark c word s s' hmark hs ih =>
    have hsame : Text.trimStart (c :: s) = c :: s ∧
        Text.trimStart (word.toList ++ s') = word.toList ++ s' := by
      rcases longMark?_cases hmark with ⟨rfl, rfl⟩ | ⟨rfl, rfl⟩ | ⟨rfl, rfl⟩ <;> exact ⟨rfl, rfl⟩
    rw [hsame.1, hsame.2]
    exact .mark hmark hs

end

end Lengthened

end Spelling

namespace Text

theorem isWord_of_isBlank {c : Char} (h : isBlank c = true) : isWord c = false := by
  have hnone : ∀ n ∈ [9, 10, 11, 12, 13, 0x20, 0x85, 0xA0, 0x1680, 0x2000, 0x2001, 0x2002, 0x2003,
      0x2004, 0x2005, 0x2006, 0x2007, 0x2008, 0x2009, 0x200A, 0x2028, 0x2029, 0x202F, 0x205F,
      0x3000], isWord (Char.ofNat n) = false := by
    decide +kernel
  have hcode := hnone c.toNat
  rw [Char.ofNat_toNat] at hcode
  apply hcode
  simp only [isBlank, Bool.or_eq_true, Bool.and_eq_true, decide_eq_true_eq, beq_iff_eq] at h
  simp only [mem_cons, not_mem_nil, or_false]
  omega

end Text

namespace Markup

open Spelling

variable {as : List PlacedAttribute} {c : Char} {lead name name' rest rest' s text : List Char}
  {offset : Nat} {places : Nat → Bool} {selfClosing : Bool}

/-- The characters before an argument are those of names. -/
theorem isAttributeChar_of_isLeadChar (h : isLeadChar c = true) : isAttributeChar c = true := by
  have hblank : Text.isBlank c = false := by
    by_contra hc
    rw [Bool.not_eq_false] at hc
    rw [isLeadChar, Text.isWord_of_isBlank hc, Bool.false_or, beq_iff_eq] at h
    subst h
    exact absurd hc (by decide)
  have hstray : ['"', '\x27', '<', '>', '/', '='].contains c = false := by
    by_contra hc
    rw [Bool.not_eq_false, contains_iff_mem] at hc
    have hall : (['"', '\x27', '<', '>', '/', '='].all fun d => !isLeadChar d) = true := by decide
    have hlead := List.all_eq_true.mp hall c hc
    rw [h] at hlead
    cases hlead
  rw [isAttributeChar, hblank, hstray]
  rfl

theorem isAttributeChar_of_longMark? {word : String} (h : longMark? c = some word) :
    isAttributeChar c = true ∧ ∀ d ∈ word.toList, isAttributeChar d = true := by
  rcases longMark?_cases h with ⟨rfl, rfl⟩ | ⟨rfl, rfl⟩ | ⟨rfl, rfl⟩ <;>
    exact ⟨by decide, List.all_eq_true.mp (by decide)⟩

/-- The word for a mark leads to the same argument. -/
theorem dynamicLead?_of_longMark? {word : String} (h : longMark? c = some word) (s : List Char) :
    dynamicLead? (c :: s) = some ([c], s) ∧
      dynamicLead? (word.toList ++ s) = some (word.toList, s) := by
  have hlong {word : String} (h : dynamicLead? word.toList = some (word.toList, [])) :=
    dynamicLead?_append h s
  rcases longMark?_cases h with ⟨rfl, rfl⟩ | ⟨rfl, rfl⟩ | ⟨rfl, rfl⟩
  · exact ⟨rfl, hlong (by decide)⟩
  · exact ⟨rfl, hlong (by decide)⟩
  · exact ⟨rfl, hlong (by decide)⟩

/-- A name with an argument in brackets is read in both spellings. -/
theorem dynamicName?_renamed (h : dynamicName? s = some (name, rest)) (hname : Renamed name name')
    (hrest : StopsAt isAttributeChar rest') :
    dynamicName? (name' ++ rest') = some (name', rest') := by
  obtain ⟨lead, r, hlead, argument, t, hargument, rfl, rfl⟩ := exists_of_dynamicName? h
  have hread {lead' : List Char} (hlead' : ∀ r', dynamicLead? (lead' ++ r') = some (lead', r')) :
      dynamicName? (lead' ++ argument ++ t.takeWhile isAttributeChar ++ rest') =
        some (lead' ++ argument ++ t.takeWhile isAttributeChar, rest') := by
    simp only [dynamicName?, append_assoc, hlead', bind_eq_bind, bind_some,
      bracketed?_append hargument, hrest.takeWhile_takeWhile, hrest.dropWhile_takeWhile,
      Option.pure_def]
  cases hname with
  | same => exact hread (dynamicLead?_append hlead)
  | @long mark word x hmark hx hname =>
    have hsame := dynamicLead?_append hlead (argument ++ t.takeWhile isAttributeChar)
    rw [← append_assoc, hname, (dynamicLead?_of_longMark? hmark x).1] at hsame
    obtain ⟨rfl, rfl⟩ := Prod.mk.inj (Option.some.inj hsame)
    rw [← append_assoc]
    exact hread fun r' => (dynamicLead?_of_longMark? hmark r').2

theorem isSome_bracketed? (s : List Char) : (bracketed? s).isSome = true ↔
    ∃ c t, s = '[' :: c :: t ∧ c ≠ '=' ∧ (t.dropWhile isArgumentChar).head? = some ']' := by
  constructor
  · intro h
    rw [bracketed?.eq_def] at h
    split at h
    · rename_i c t
      dsimp only at h
      split at h
      · rename_i rest hrest
        split at h
        · cases h
        · rename_i hc
          exact ⟨c, t, rfl, hc, by rw [hrest]; rfl⟩
      · cases h
    · cases h
  · rintro ⟨c, t, rfl, hc, hhead⟩
    obtain ⟨rest, hrest⟩ := head?_eq_some_iff.mp hhead
    simp only [bracketed?, hrest, hc, if_false, isSome_some]

theorem isArgumentChar_of_mem : ∀ c ∈ spellingChars, isArgumentChar c = true :=
  List.all_eq_true.mp (by decide)

/-- An argument in brackets does not come about by a long spelling. -/
theorem bracketed?_lengthened {s' : List Char} (h : Lengthened s s') (hnone : bracketed? s = none) :
    bracketed? s' = none := by
  rw [← not_isSome_iff_eq_none, isSome_bracketed?] at hnone ⊢
  rintro ⟨c', t', rfl, hc', hclose⟩
  apply hnone
  have hsame {t t' : List Char} (ht : Lengthened t t')
      (hclose : (t'.dropWhile isArgumentChar).head? = some ']') :
      (t.dropWhile isArgumentChar).head? = some ']' := by
    rcases (ht.dropWhile isArgumentChar_of_mem).head_cases with heq | ⟨c, word, -, -, heq⟩
    · rwa [← heq]
    · rw [hclose] at heq
      cases heq
  generalize hs' : '[' :: c' :: t' = s' at h
  cases h with
  | nil => cases hs'
  | @kept c s s' hs =>
    cases hs'
    generalize hs' : c' :: t' = s' at hs
    cases hs with
    | nil => cases hs'
    | @kept c s s' hs =>
      cases hs'
      exact ⟨c', s, rfl, hc', hsame hs hclose⟩
    | @mark c word s s' hmark hs =>
      have hc : c ≠ '=' := by
        rintro rfl
        cases hmark
      have htail : t' = word.toList.tail ++ s' := by
        rcases longMark?_cases hmark with ⟨-, rfl⟩ | ⟨-, rfl⟩ | ⟨-, rfl⟩ <;>
          exact (List.cons.inj hs').2
      have hword : ∀ d ∈ word.toList.tail, isArgumentChar d = true := fun d hd =>
        isArgumentChar_of_mem d ((spellingChars_of_longMark? hmark).2 (mem_of_mem_tail hd))
      rw [htail, dropWhile_append_of_pos hword] at hclose
      exact ⟨c, s, rfl, hc, hsame hs hclose⟩
  | @mark c word s s' hmark hs =>
    rcases longMark?_cases hmark with ⟨-, rfl⟩ | ⟨-, rfl⟩ | ⟨-, rfl⟩ <;> cases hs'

theorem isAttributeChar_of_dynamicLead? (h : dynamicLead? s = some (lead, rest)) :
    ∀ c ∈ lead, isAttributeChar c = true := by
  simp only [dynamicLead?] at h
  split at h
  · split at h
    · split at h
      · cases h
      · cases h
        simp only [cons_append, forall_mem_cons, forall_mem_append]
        refine ⟨by decide, by decide, fun c hc => ?_, by decide, forall_mem_nil _⟩
        exact isAttributeChar_of_isLeadChar (List.all_eq_true.mp all_takeWhile c hc)
    · cases h
  · split at h
    · rename_i hc
      cases h
      simp only [Bool.or_eq_true, decide_eq_true_eq] at hc
      rw [forall_mem_singleton]
      rcases hc with (rfl | rfl) | rfl <;> decide
    · cases h
  · cases h

theorem ne_nil_of_dynamicLead? (h : dynamicLead? s = some (lead, rest)) : lead ≠ [] := by
  simp only [dynamicLead?] at h
  split at h
  · split at h
    · split at h
      · cases h
      · cases h
        exact cons_ne_nil _ _
    · cases h
  · split at h
    · cases h
      exact cons_ne_nil _ _
    · cases h
  · cases h

/-- What leads to an argument stands in the name. -/
theorem lead_of_dynamicLead? {after : List Char}
    (h : dynamicLead? (name ++ rest) = some (lead, after))
    (hrest : StopsAt isAttributeChar rest) :
    ∃ more, name = lead ++ more ∧ after = more ++ rest := by
  rcases append_eq_append_iff.mp (eq_of_dynamicLead? h) with ⟨extra, hlead, hextra⟩ | hmore
  · cases extra with
    | nil => exact ⟨[], by simpa using hlead.symm, by simpa using hextra.symm⟩
    | cons c extra =>
      have hc := isAttributeChar_of_dynamicLead? h c (by rw [hlead]; simp)
      rw [hrest c (by rw [hextra]; rfl)] at hc
      cases hc
  · obtain ⟨more, hname, hafter⟩ := hmore
    exact ⟨more, hname, hafter⟩

/-- A name without an argument in brackets is read in both spellings. -/
theorem plainName?_renamed (hnone : dynamicName? s = none) (h : plainName? s = some (name, rest))
    (hname : Renamed name name') (hrest : Lengthened rest rest') :
    dynamicName? (name' ++ rest') = none ∧ plainName? (name' ++ rest') = some (name', rest') := by
  have hs := eq_of_plainName? h
  have hne := ne_nil_of_plainName? h
  have hchars : (∀ c ∈ name, isAttributeChar c = true) ∧ StopsAt isAttributeChar rest := by
    simp only [plainName?] at h
    split at h
    · cases h
    · cases h
      exact ⟨List.all_eq_true.mp all_takeWhile, stopsAt_dropWhile _ _⟩
  have hstops : StopsAt isAttributeChar rest' :=
    hchars.2.of_head? (hrest.head_eq hchars.2 fun c word hmark => (isAttributeChar_of_longMark? hmark).1)
  have hplain {name' : List Char} (hname' : ∀ c ∈ name', isAttributeChar c = true) (hne' : name' ≠ []) :
      plainName? (name' ++ rest') = some (name', rest') := by
    simp only [plainName?, hstops.takeWhile_of_all hname', hstops.dropWhile_of_all hname',
      List.isEmpty_iff, hne', if_false]
  -- An argument in the second text would be one in the first.
  have hargument {more : List Char} (hmore : bracketed? (more ++ rest) = none) :
      bracketed? (more ++ rest') = none :=
    bracketed?_lengthened ((Lengthened.refl more).append hrest) hmore
  cases hname with
  | same =>
    refine ⟨?_, hplain hchars.1 hne⟩
    rw [eq_none_iff_forall_ne_some]
    intro found hfound
    obtain ⟨lead, after, hlead, argument, t, hbracketed, -⟩ := exists_of_dynamicName? hfound
    obtain ⟨more, rfl, rfl⟩ := lead_of_dynamicLead? hlead hstops
    have hfirst := dynamicLead?_append hlead (more ++ rest)
    rw [hs, append_assoc, dynamicName?, hfirst] at hnone
    have hmore : bracketed? (more ++ rest) = none := by
      cases hcase : bracketed? (more ++ rest) with
      | none => rfl
      | some found => simp [hcase] at hnone
    rw [hargument hmore] at hbracketed
    cases hbracketed
  | @long mark word x hmark hx hname =>
    subst hname
    obtain ⟨-, hword⟩ := isAttributeChar_of_longMark? hmark
    constructor
    · rw [hs, cons_append, dynamicName?, (dynamicLead?_of_longMark? hmark _).1] at hnone
      rw [append_assoc, dynamicName?, (dynamicLead?_of_longMark? hmark _).2]
      have hmore : bracketed? (x ++ rest) = none := by
        cases hcase : bracketed? (x ++ rest) with
        | none => rfl
        | some found => simp [hcase] at hnone
      simp only [bind_eq_bind, bind_some, hargument hmore, bind_none]
    · refine hplain (forall_mem_append.mpr ⟨hword, fun c hc => ?_⟩) (append_ne_nil_of_right_ne_nil _ hx)
      exact hchars.1 c (mem_cons_of_mem mark hc)

/-- The value of an attribute is read in both spellings of what comes later. -/
theorem valuePart?_lengthened {part value : List Char} (h : valuePart? s = some (part, value, rest))
    (hrest : Lengthened rest rest') : valuePart? (part ++ rest') = some (part, value, rest') := by
  apply valuePart?_append h
  · intro quote hquote hstops
    apply hrest.stopsAt hstops
    rcases hquote with rfl | rfl <;> decide
  · intro hstops
    refine hstops.of_head? (hrest.head_eq hstops fun c word hmark => ?_)
    rcases longMark?_cases hmark with ⟨rfl, -⟩ | ⟨rfl, -⟩ | ⟨rfl, -⟩ <;> decide

theorem valuePart?_eq_none (h : (Text.trimStart s).head? ≠ some '=') : valuePart? s = none := by
  rw [valuePart?]
  split
  · rename_i hs
    rw [hs] at h
    exact absurd rfl h
  · rfl

section

variable (h : (dynamicName? s).or (plainName? s) = some (name, rest))
include h

/-- A name starts with a character of names. -/
theorem head_of_name :
    ∃ c x, name = c :: x ∧ isAttributeChar c = true := by
  rcases or_eq_some_iff.mp h with hdynamic | ⟨-, hplain⟩
  · obtain ⟨lead, r, hlead, argument, t, -, rfl, -⟩ := exists_of_dynamicName? hdynamic
    have hchars := isAttributeChar_of_dynamicLead? hlead
    cases lead with
    | nil => exact absurd rfl (ne_nil_of_dynamicLead? hlead)
    | cons c lead => exact ⟨c, _, rfl, hchars c mem_cons_self⟩
  · simp only [plainName?] at hplain
    split at hplain
    · cases hplain
    · rename_i hne
      cases hplain
      have hall : ∀ c ∈ s.takeWhile isAttributeChar, isAttributeChar c = true :=
        List.all_eq_true.mp all_takeWhile
      cases hname : s.takeWhile isAttributeChar with
      | nil =>
        rw [hname] at hne
        exact absurd rfl hne
      | cons c x => exact ⟨c, x, rfl, hall c (by rw [hname]; exact mem_cons_self)⟩

/-- The name of an attribute is read in both spellings of it and of what comes later. -/
theorem name_renamed (hname : Renamed name name') (hrest : Lengthened rest rest') :
    (dynamicName? (name' ++ rest')).or (plainName? (name' ++ rest')) = some (name', rest') := by
  rcases or_eq_some_iff.mp h with hdynamic | ⟨hnone, hplain⟩
  · have hstops : StopsAt isAttributeChar rest := by
      obtain ⟨_, _, _, _, t, -, -, rfl⟩ := exists_of_dynamicName? hdynamic
      exact stopsAt_dropWhile _ t
    have hhead := hrest.head_eq hstops fun c word hmark => (isAttributeChar_of_longMark? hmark).1
    rw [dynamicName?_renamed hdynamic hname (hstops.of_head? hhead), some_or]
  · obtain ⟨hnone', hplain'⟩ := plainName?_renamed hnone hplain hname hrest
    rw [hnone', hplain', none_or]

theorem stopsAt_renamed (hname : Renamed name name') (y : List Char) :
    StopsAt Text.isBlank (name' ++ y) := by
  cases hname with
  | same =>
    obtain ⟨c, x, rfl, hc⟩ := head_of_name h
    rintro d ⟨⟩
    simp only [isAttributeChar, Bool.and_eq_true, Bool.not_eq_true'] at hc
    exact hc.1
  | @long mark word x hmark hx hname =>
    rcases longMark?_cases hmark with ⟨-, rfl⟩ | ⟨-, rfl⟩ | ⟨-, rfl⟩ <;>
      · rintro d ⟨⟩
        decide

end

/-- An attribute is read in both spellings of its name and of what comes later, unless an equals sign
follows it that no value belongs to. -/
theorem attribute?_renamed {a : AttributeText} (h : attribute? s = some (a, rest))
    (hname : Renamed a.name name') (hrest : Lengthened rest rest')
    (hequals : (Text.trimStart rest).head? ≠ some '=') :
    attribute? (a.blanks ++ (name' ++ (a.part ++ rest'))) = some ({ a with name := name' }, rest') := by
  simp only [attribute?, bind_eq_bind, Option.pure_def, bind_eq_some_iff,
    Prod.exists] at h
  obtain ⟨name, r, hread, h⟩ := h
  have hequals' : (Text.trimStart rest').head? ≠ some '=' := by
    rcases hrest.trimStart.head_cases with heq | ⟨c, word, -, -, heq⟩
    · rwa [heq]
    · rw [heq]
      decide
  split at h
  · rename_i part value last hvalue
    cases h
    have hafter : Lengthened r (part ++ rest') := by
      rw [eq_of_valuePart? hvalue]
      exact (Lengthened.refl part).append hrest
    have hstops := stopsAt_renamed hread hname (part ++ rest')
    simp only [attribute?, Text.trimStart, hstops.takeWhile_takeWhile, hstops.dropWhile_takeWhile,
      name_renamed hread hname hafter, bind_eq_bind, bind_some,
      valuePart?_lengthened hvalue hrest, Option.pure_def]
  · cases h
    have hstops := stopsAt_renamed hread hname rest'
    simp only [attribute?, Text.trimStart, nil_append, hstops.takeWhile_takeWhile,
      hstops.dropWhile_takeWhile, name_renamed hread hname hrest, bind_eq_bind,
      bind_some, valuePart?_eq_none hequals', Option.pure_def]

/-! ## Start tags -/

/-- Attributes of a start tag that correspond: those at the places have their long spellings. -/
def PlacedAttribute.Respelled (places : Nat → Bool) (a a' : PlacedAttribute) : Prop :=
  a'.value = a.value ∧
    if places a.range.start then
      long? (String.ofList a.name) = some (String.ofList a'.name)
    else a'.name = a.name

theorem head_of_attributes? (h : attributes? offset s = some (as, selfClosing, text, rest)) :
    (Text.trimStart s).head? ≠ some '=' := by
  intro hequals
  obtain ⟨t, ht⟩ := head?_eq_some_iff.mp hequals
  have hend : tagEnd? s = none := by simp [tagEnd?, ht]
  have hname : (dynamicName? ('=' :: t)).or (plainName? ('=' :: t)) = none := by
    rw [eq_none_iff_forall_ne_some]
    rintro ⟨name, r⟩ hname
    obtain ⟨c, x, rfl, hc⟩ := head_of_name hname
    have heq : '=' :: t = c :: x ++ r := by
      rcases or_eq_some_iff.mp hname with hdynamic | ⟨-, hplain⟩
      · exact eq_of_dynamicName? hdynamic
      · exact eq_of_plainName? hplain
    cases heq
    exact absurd hc (by decide)
  have hnone : attribute? s = none := by
    simp only [attribute?, ht, hname, bind_eq_bind, bind_none]
  rw [attributes?, hend] at h
  dsimp only at h
  split at h
  · cases h
  · rename_i hsome
    rw [hnone] at hsome
    cases hsome

theorem tagEnd?_of_attribute? {a : AttributeText} (h : attribute? s = some (a, rest)) :
    tagEnd? s = none := by
  simp only [attribute?, bind_eq_bind, bind_eq_some_iff, Prod.exists] at h
  obtain ⟨name, r, hname, -⟩ := h
  obtain ⟨c, x, rfl, hc⟩ := head_of_name hname
  have htrim : Text.trimStart s = c :: (x ++ r) := by
    rcases or_eq_some_iff.mp hname with hdynamic | ⟨-, hplain⟩
    · exact eq_of_dynamicName? hdynamic
    · exact eq_of_plainName? hplain
  rw [tagEnd?, htrim]
  split
  · rename_i heq
    rw [(List.cons.inj heq).1] at hc
    exact absurd hc (by decide)
  · rename_i heq
    rw [(List.cons.inj heq).1] at hc
    exact absurd hc (by decide)
  · rfl

/-- The name at a place is put into its long spelling. -/
theorem renamed_respell (hne : name ≠ [])
    (hplaces : ∀ p, offset < p → p < offset + byteLength name → places p = false)
    (hlong : places offset = true → (long? (String.ofList name)).isSome = true) :
    Renamed name (respell places offset name) ∧
      if places offset then
        long? (String.ofList name) = some (String.ofList (respell places offset name))
      else respell places offset name = name := by
  cases name with
  | nil => exact absurd rfl hne
  | cons c x =>
    have hpos := c.utf8Size_pos
    have hx : respell places (offset + c.utf8Size) x = x := respell_of_none fun p hle hlt =>
      hplaces p (by omega) (by rw [byteLength_cons]; omega)
    cases hplace : places offset with
    | false =>
      have hsame : respell places offset (c :: x) = c :: x := by
        rw [respell, hplace, hx]
        rfl
      rw [hsame]
      exact ⟨.same, rfl⟩
    | true =>
      obtain ⟨long, hsome⟩ := isSome_iff_exists.mp (hlong hplace)
      have hspelled := hsome
      rw [long?, String.toList_ofList] at hspelled
      split at hspelled
      · rename_i mark first more heq
        cases heq
        obtain ⟨word, hmark, rfl⟩ := map_eq_some_iff.mp hspelled
        have hrespelled : respell places offset (c :: first :: more) =
            word.toList ++ first :: more := by
          rw [respell, hplace, hx, hmark]
          rfl
        rw [hrespelled, if_pos rfl, hsome, String.ofList_append, String.ofList_toList]
        exact ⟨.long hmark (cons_ne_nil _ _) rfl, rfl⟩
      · cases hspelled

theorem attributes?_respell (h : attributes? offset s = some (as, selfClosing, text, rest))
    (hplaces : ∀ p, offset ≤ p → p < offset + byteLength text → places p = true →
      ∃ a ∈ as, a.range.start = p ∧ (long? (String.ofList a.name)).isSome = true) (offset' : Nat) :
    ∃ as' text',
      attributes? offset' (respell places offset s) =
        some (as', selfClosing, text', respell places (offset + byteLength text) rest) ∧
      Forall₂ (PlacedAttribute.Respelled places) as as' := by
  fun_induction attributes? offset s generalizing as selfClosing text rest offset' with
  | case1 offset s closing text' rest' hend =>
    cases h
    have hnone : ∀ p, offset ≤ p → p < offset + byteLength text' → places p = false := by
      intro p hle hlt
      by_contra hp
      obtain ⟨a, ha, -⟩ := hplaces p hle hlt (Bool.not_eq_false _ ▸ hp)
      cases ha
    refine ⟨[], text', ?_, .nil⟩
    rw [eq_of_tagEnd? hend, respell_append, respell_of_none hnone, attributes?,
      tagEnd?_append hend]
  | case2 => cases h
  | case3 offset s =>
    rename_i hend a r hattribute stop ih
    simp only [map_eq_some_iff, Prod.exists, Prod.mk.injEq] at h
    obtain ⟨others, _, t, _, hr, rfl, rfl, rfl, rfl⟩ := h
    obtain ⟨hs, hne⟩ := eq_of_attribute? hattribute
    have hpos := byteLength_pos hne
    have hstop : stop = offset + byteLength a.blanks + byteLength a.name +
        byteLength a.part := by
      simp only [stop, AttributeText.text, byteLength_append]
      omega
    have hlater : ∀ b ∈ others, stop ≤ b.range.start := by
      intro b hb
      obtain ⟨before, part, after, -, hrange⟩ := attributes?_names hr b hb
      rw [hrange]
      exact Nat.le_add_right _ _
    have hlength : offset + byteLength (a.text ++ t) = stop + byteLength t := by
      rw [byteLength_append, ← Nat.add_assoc]
    rw [hlength] at hplaces
    -- Of the places up to the next attribute only the start of this one is left.
    have hown : ∀ p, offset ≤ p → p < stop → places p = true →
        p = offset + byteLength a.blanks ∧ (long? (String.ofList a.name)).isSome = true := by
      intro p hle hlt hp
      obtain ⟨b, hb, hstart, hlong⟩ := hplaces p hle (by omega) hp
      rcases mem_cons.mp hb with rfl | hb
      · exact ⟨hstart.symm, hlong⟩
      · have := hlater b hb
        omega
    have hfree : ∀ p, offset ≤ p → p < stop → p ≠ offset + byteLength a.blanks →
        places p = false := by
      intro p hle hlt hne
      by_contra hp
      exact hne (hown p hle hlt (Bool.not_eq_false _ ▸ hp)).1
    have hrenamed := @renamed_respell a.name (offset + byteLength a.blanks) places hne
      (fun p hlt hlt' => hfree p (by omega) (by omega) (by omega))
      fun hp => (hown _ (by omega) (by omega) hp).2
    generalize hname : respell places (offset + byteLength a.blanks) a.name = name' at hrenamed
    have hspelled : respell places offset s =
        a.blanks ++ (name' ++ (a.part ++ respell places stop r)) := by
      have hblanks : respell places offset a.blanks = a.blanks :=
        respell_of_none fun p hle hlt => hfree p hle (by omega) (by omega)
      have hpart : respell places (offset + byteLength a.blanks + byteLength a.name) a.part =
          a.part := respell_of_none fun p hle hlt => hfree p (by omega) (by omega) (by omega)
      rw [hs, AttributeText.text, append_assoc, append_assoc, respell_append,
        respell_append, respell_append, hblanks, hname, hpart, ← hstop]
    obtain ⟨others', t', hothers, hrelated⟩ := ih hr
      (fun p hle hlt hp => by
        obtain ⟨b, hb, hstart, hlong⟩ := hplaces p (by omega) hlt hp
        rcases mem_cons.mp hb with rfl | hb
        · dsimp only at hstart
          omega
        · exact ⟨b, hb, hstart, hlong⟩)
      (offset' + byteLength ({ a with name := name' } : AttributeText).text)
    have hread := attribute?_renamed hattribute hrenamed.1 (lengthened_respell places stop r)
      (head_of_attributes? hr)
    rw [hlength, hspelled, attributes?_of_attribute? (tagEnd?_of_attribute? hread) hread, hothers]
    exact ⟨_, _, rfl, .cons ⟨rfl, hrenamed.2⟩ hrelated⟩

theorem ne_nil_of_bracketed? (h : bracketed? s = some (text, rest)) : text ≠ [] := by
  simp only [bracketed?] at h
  split at h
  · split at h
    · split at h
      · cases h
      · cases h
        exact cons_ne_nil _ _
    · cases h
  · cases h

theorem mem_of_attributes? (h : attributes? offset s = some (as, selfClosing, text, rest)) :
    '>' ∈ text := by
  fun_induction attributes? offset s generalizing as selfClosing text rest with
  | case1 offset s _ _ _ hend =>
    cases h
    simp only [tagEnd?] at hend
    split at hend
    · cases hend
      simp
    · cases hend
      simp
    · cases hend
  | case2 => cases h
  | case3 =>
    rename_i ih
    simp only [map_eq_some_iff, Prod.exists, Prod.mk.injEq] at h
    obtain ⟨_, _, t, _, hr, -, -, rfl, -⟩ := h
    exact mem_append_right _ (ih hr)

/-- What stands second in a name starts no attribute. -/
theorem start_of_attributes? {d : Char} {t : List Char}
    (h : attributes? offset (c :: d :: t) = some (as, selfClosing, text, rest))
    (hc : isAttributeChar c = true) (hd : isAttributeChar d = true) :
    ∀ a ∈ as, a.range.start ≠ offset + c.utf8Size := by
  have hblank : Text.isBlank c = false := by
    simp only [isAttributeChar, Bool.and_eq_true, Bool.not_eq_true'] at hc
    exact hc.1
  have htrim : Text.trimStart (c :: d :: t) = c :: d :: t := dropWhile_cons_of_neg (by simp [hblank])
  rw [attributes?.eq_def] at h
  split at h
  · rename_i hend
    cases h
    simp
  · dsimp only at h
    split at h
    · cases h
    · rename_i a r hattribute
      simp only [map_eq_some_iff, Prod.exists, Prod.mk.injEq] at h
      obtain ⟨others, _, u, _, hr, rfl, -, -, -⟩ := h
      obtain ⟨hs, -⟩ := eq_of_attribute? hattribute
      have hname : ∃ x, a.blanks = [] ∧ a.name = c :: d :: x := by
        simp only [attribute?, htrim, bind_eq_bind, Option.pure_def, bind_eq_some_iff,
          Prod.exists] at hattribute
        obtain ⟨name, r, hname, hattribute⟩ := hattribute
        have hlong : ∃ x, name = c :: d :: x := by
          rcases or_eq_some_iff.mp hname with hdynamic | ⟨-, hplain⟩
          · have hsplit := eq_of_dynamicName? hdynamic
            obtain ⟨lead, _, hlead, argument, _, hargument, rfl, -⟩ := exists_of_dynamicName? hdynamic
            obtain ⟨b, lead, rfl⟩ := exists_cons_of_ne_nil (ne_nil_of_dynamicLead? hlead)
            cases lead with
            | nil =>
              obtain ⟨e, argument, rfl⟩ := exists_cons_of_ne_nil (ne_nil_of_bracketed? hargument)
              cases hsplit
              exact ⟨_, rfl⟩
            | cons e lead =>
              cases hsplit
              exact ⟨_, rfl⟩
          · simp only [plainName?, takeWhile_cons_of_pos hc, takeWhile_cons_of_pos hd] at hplain
            split at hplain
            · cases hplain
            · cases hplain
              exact ⟨_, rfl⟩
        obtain ⟨x, rfl⟩ := hlong
        have hblanks : (c :: d :: t).takeWhile Text.isBlank = [] := takeWhile_cons_of_neg (by simp [hblank])
        split at hattribute
        · cases hattribute
          exact ⟨x, hblanks, rfl⟩
        · cases hattribute
          exact ⟨x, hblanks, rfl⟩
      obtain ⟨x, hblanks, hname⟩ := hname
      have hpos := c.utf8Size_pos
      have hpos' := d.utf8Size_pos
      rintro b hb
      rcases mem_cons.mp hb with rfl | hb
      · simp only [hblanks, byteLength_nil]
        omega
      · obtain ⟨before, part, after, -, hrange⟩ := attributes?_names hr b hb
        rw [hrange]
        simp only [AttributeText.text, hblanks, hname, byteLength_append, byteLength_cons,
          byteLength_nil]
        omega

/-- A start tag is recognised in both spellings of its attributes, if the first of them stands apart
from the name of the tag or keeps its spelling. -/
theorem startTag?_respell {found : Found} (h : startTag? offset s = some found)
    (hfound : found.construct = .startTag name as selfClosing)
    (hplaces : ∀ p, offset ≤ p → p < offset + byteLength found.text → places p = true →
      ∃ a ∈ as, a.range.start = p ∧ (long? (String.ofList a.name)).isSome = true ∧
        p ≠ offset + 1 + byteLength name) (offset' : Nat) :
    ∃ as' text',
      startTag? offset' (respell places offset s) =
        some ⟨.startTag name as' selfClosing, '<' :: name ++ text',
          respell places (offset + byteLength found.text) found.rest⟩ ∧
      Forall₂ (PlacedAttribute.Respelled places) as as' := by
  obtain ⟨tag, r, ⟨inside, hopen, hname⟩, as, closing, text, rest, hr, rfl⟩ := exists_of_startTag? h
  cases hfound
  have hs : s = '<' :: (name ++ r) := by
    rw [after?_eq_some_iff.1 hopen, eq_of_qualifiedName? hname]
    rfl
  have hone : '<'.utf8Size = 1 := by decide
  have hlength : offset + byteLength ('<' :: name ++ text) =
      offset + 1 + byteLength name + byteLength text := by
    simp only [cons_append, byteLength_cons, byteLength_append, hone]
    omega
  rw [hlength] at hplaces ⊢
  have hlater : ∀ a ∈ as, offset + 1 + byteLength name ≤ a.range.start := by
    intro a ha
    obtain ⟨before, part, after, -, hrange⟩ := attributes?_names hr a ha
    rw [hrange]
    exact Nat.le_add_right _ _
  have hfree : ∀ p, offset ≤ p → p ≤ offset + 1 + byteLength name → places p = false := by
    intro p hle hle'
    have hpos := byteLength_pos (ne_nil_of_mem (mem_of_attributes? hr))
    by_contra hp
    obtain ⟨a, ha, hstart, -, hne⟩ := hplaces p hle (by omega) (Bool.not_eq_false _ ▸ hp)
    have hle := hlater a ha
    omega
  obtain ⟨as', text', hattributes, hrelated⟩ := @attributes?_respell _ _ _ _ _ places _ hr
    (fun p hle hlt hp => by
      obtain ⟨a, ha, hstart, hlong, -⟩ := hplaces p (by omega) hlt hp
      exact ⟨a, ha, hstart, hlong⟩) (offset' + 1 + byteLength name)
  have hspelled : respell places offset s =
      '<' :: (name ++ respell places (offset + 1 + byteLength name) r) := by
    have hbracket : respell places offset ('<' :: (name ++ r)) =
        '<' :: respell places (offset + 1) (name ++ r) := by
      rw [respell, hfree offset (Nat.le_refl _) (by omega), hone]
      rfl
    rw [hs, hbracket, respell_append, respell_of_none fun p hle hlt => hfree p (by omega) (by omega)]
  have halike : FollowAlike r (respell places (offset + 1 + byteLength name) r) := by
    have hstart := hfree (offset + 1 + byteLength name) (by omega) (Nat.le_refl _)
    cases r with
    | nil => exact ⟨rfl, fun _ => rfl⟩
    | cons c u =>
      have hfirst : respell places (offset + 1 + byteLength name) (c :: u) =
          c :: respell places (offset + 1 + byteLength name + c.utf8Size) u := by
        rw [respell, hstart]
        rfl
      rw [hfirst]
      refine ⟨rfl, fun hcolon => ?_⟩
      cases hcolon
      have hbound : offset + 1 + byteLength name + ':'.utf8Size <
          offset + 1 + byteLength name + byteLength text := by
        have hsplit := eq_of_attributes? hr
        have hclose := mem_of_attributes? hr
        cases text with
        | nil => cases hclose
        | cons d v =>
          cases hsplit
          have hv : v ≠ [] := ne_nil_of_mem ((mem_cons.mp hclose).resolve_left (by decide))
          have hpos := byteLength_pos hv
          rw [byteLength_cons]
          omega
      cases u with
      | nil => rfl
      | cons d t =>
        rw [tail_cons, respell]
        cases hmark : longMark? d with
        | none => split <;> rfl
        | some word =>
          -- A mark after a colon belongs to the name that the colon starts.
          have hplace : places (offset + 1 + byteLength name + ':'.utf8Size) = false := by
            by_contra hp
            obtain ⟨a, ha, hstart, -⟩ := hplaces _ (by omega) hbound (Bool.not_eq_false _ ▸ hp)
            exact start_of_attributes? hr (by decide) (isAttributeChar_of_longMark? hmark).1 a ha hstart
          rw [hplace]
          rfl
  refine ⟨as', text', ?_, hrelated⟩
  have hopen' : after? ['<'] ('<' :: (name ++ respell places (offset + 1 + byteLength name) r)) =
      some (name ++ respell places (offset + 1 + byteLength name) r) := rfl
  rw [startTag?, startTagName?, hspelled, hopen']
  simp only [bind_eq_bind, bind_some, qualifiedName?_of_followAlike hname halike,
    hattributes, Option.pure_def]

end Markup

end ViewTemplate

import Mathlib
import ViewTemplate.Proofs.StartTags

/-! # Recovery of nesting

HTML does not nest all elements: a paragraph ends at what it cannot hold, and an element that may be
left open ends at one of its own tag. A start tag closes at most two elements for this, the innermost
ones. That is enough, since of the open tags no two neighbours are ever of those that do not nest: what
is left open by the ends of elements is a part of what was open before, and a start tag adds its tag
only where it fits.
-/

open List

namespace ViewTemplate

/-- An element may stand directly inside of another: it is none that ends a paragraph, and none that
ends an element of its own tag. -/
structure Tag.MayStandIn (tag outer : String) : Prop where
  paragraph : outer = "p" → Tag.isNonPhrasing tag = false
  leftOpen : Tag.isLeftOpen tag = true → outer ≠ tag

namespace Markup

open Event

/-- Of the open tags each may stand in the next one. -/
abbrev Nested (stack : List String) : Prop := stack.IsChain Tag.MayStandIn

/-! ## What a stray end tag stands for -/

/-- No paragraph ends at the start of a line break or of a paragraph. -/
theorem isNonPhrasing_of_stray {tag : String} (h : Tag.lower tag = "br" ∨ Tag.lower tag = "p") :
    Tag.isNonPhrasing tag = false := by
  have hall : (Tag.nonPhrasing.all fun t => Tag.lower t != "br" && Tag.lower t != "p") = true := by
    decide
  by_contra hblock
  rw [Bool.not_eq_false, Tag.isNonPhrasing, contains_iff_mem] at hblock
  have hne := List.all_eq_true.mp hall tag hblock
  rw [Bool.and_eq_true, bne_iff_ne, bne_iff_ne] at hne
  exact h.elim hne.1 hne.2

/-- What a stray end tag stands for fits where it stands. -/
theorem StrayStart.mayStandIn {stack : List String} {tag : String} {before : List Event}
    (h : StrayStart stack tag before) : ∀ outer ∈ stack.head?, Tag.MayStandIn tag outer := by
  intro outer houter
  refine ⟨fun _ => isNonPhrasing_of_stray h.tag, fun hopen heq => ?_⟩
  -- a paragraph that is open would have been closed
  have hnone := h.unmatched
  rw [heq] at houter
  rw [← cons_head?_tail houter] at hnone
  simp [unwind?] at hnone

/-! ## What ends elements -/

/-- An end tag leaves open what stood around what it closes. -/
theorem suffix_endEvents (tag : String) (range : Range) (stack : List String) :
    (endEvents tag range stack).2 <:+ stack := by
  rw [endEvents]
  split
  · rename_i closed rest hu
    rw [eq_of_unwind? hu]
    exact suffix_append closed rest
  · simp only
    split
    · exact suffix_refl stack
    · split <;> exact suffix_refl stack

/-- An end tag of the innermost element closes that element alone. -/
theorem endEvents_cons_self (tag : String) (range : Range) (stack : List String) :
    endEvents tag range (tag :: stack) = ([.finish tag range], stack) := by
  simp [endEvents, unwind?]

/-- What is left open if an element of a given tag is closed where it is the innermost one. -/
def closeInnermost (tag : String) (stack : List String) : List String :=
  if stack.head? = some tag then stack.tail else stack

theorem snd_endEvents_of_head? {tag : String} {stack : List String} (range : Range)
    (h : stack.head? = some tag) : (endEvents tag range stack).2 = closeInnermost tag stack := by
  obtain ⟨rest, rfl⟩ : ∃ rest, stack = tag :: rest :=
    ⟨stack.tail, (cons_head?_tail h).symm⟩
  simp [endEvents_cons_self, closeInnermost]

/-- What a start tag leaves open: it closes an innermost paragraph that cannot hold it, and then an
innermost element of its own tag that may be left open. -/
theorem snd_impliedEnds {settings : Settings} (hhtml : settings.expectHtml = true)
    (hweb : settings.platform = .web) (tag : String) (range : Range) (stack : List String) :
    (impliedEnds settings tag range stack).2 =
      (if Tag.isLeftOpen tag then closeInnermost tag else id)
        ((if Tag.isNonPhrasing tag then closeInnermost "p" else id) stack) := by
  have optional (c : Bool) (name : String) (stack : List String) :
      (if stack.head? = some name && c then endEvents name range stack else ([], stack)).2 =
        (if c then closeInnermost name else id) stack := by
    cases c with
    | false => simp
    | true =>
      by_cases hhead : stack.head? = some name
      · simp [hhead, snd_endEvents_of_head? range hhead]
      · simp [hhead, closeInnermost]
  have hopen : settings.platform.canBeLeftOpen tag = Tag.isLeftOpen tag := by rw [hweb]; rfl
  simp only [impliedEnds, hhtml, if_true, hopen, Bool.and_comm (Tag.isLeftOpen tag), optional]

/-! ## Neighbours on the stack -/

theorem nested_closeInnermost {stack : List String} (h : Nested stack) (tag : String) :
    Nested (closeInnermost tag stack) := by
  rw [closeInnermost]
  split
  · exact h.tail
  · exact h

/-- Around a paragraph there is no paragraph. -/
theorem head?_closeInnermost_paragraph {stack : List String} (h : Nested stack) :
    (closeInnermost "p" stack).head? ≠ some "p" := by
  rw [closeInnermost]
  split
  · rename_i hhead
    intro htail
    obtain ⟨rest, rfl⟩ : ∃ rest, stack = "p" :: "p" :: rest := by
      refine ⟨stack.tail.tail, ?_⟩
      rw [cons_head?_tail htail, cons_head?_tail hhead]
    exact (isChain_cons_cons.mp h).1.leftOpen (by decide) rfl
  · assumption

/-- A tag fits on a stack that is not topped by a paragraph it ends, once it has closed an element of
its own tag. -/
theorem nested_cons {tag : String} {stack : List String} (h : Nested stack)
    (hp : stack.head? = some "p" → Tag.isNonPhrasing tag = false) :
    Nested (tag :: (if Tag.isLeftOpen tag then closeInnermost tag else id) stack) := by
  by_cases hown : Tag.isLeftOpen tag = true ∧ stack.head? = some tag
  · -- the tag takes the place of the one it closes
    have hsame : tag :: stack.tail = stack := cons_head?_tail hown.2
    simpa [hown, closeInnermost, hsame] using h
  · have hstack : (if Tag.isLeftOpen tag then closeInnermost tag else id) stack = stack := by
      cases hopen : Tag.isLeftOpen tag with
      | false => rfl
      | true => exact if_neg fun hhead => hown ⟨hopen, hhead⟩
    rw [hstack, Nested, isChain_cons]
    refine ⟨fun outer houter => ⟨?_, ?_⟩, h⟩
    · rintro rfl
      exact hp houter
    · rintro hopen rfl
      exact hown ⟨hopen, houter⟩

section Html

variable {settings : Settings} (hhtml : settings.expectHtml = true)
  (hweb : settings.platform = .web)
include hhtml hweb

/-- A start tag fits on what it leaves open. -/
theorem nested_cons_impliedEnds {stack : List String} (h : Nested stack) (tag : String)
    (range : Range) : Nested (tag :: (impliedEnds settings tag range stack).2) := by
  rw [snd_impliedEnds hhtml hweb]
  cases hblock : Tag.isNonPhrasing tag with
  | false => exact nested_cons h fun _ => hblock
  | true =>
    exact nested_cons (nested_closeInnermost h "p") fun hhead =>
      absurd hhead (head?_closeInnermost_paragraph h)

/-- One step keeps the neighbours apart. -/
theorem nested_step {cursor : Cursor} (h : Nested cursor.stack) :
    Nested (step settings cursor).2.stack := by
  have hend (tag : String) (range : Range) : Nested (endEvents tag range cursor.stack).2 :=
    h.suffix (suffix_endEvents tag range cursor.stack)
  rw [step]
  split
  · simp only [rawTextEvents]
    split
    · exact hend _ _
    · exact hend _ _
  · split
    · rename_i found hfound
      simp only [constructEvents]
      split
      · exact h
      · exact h
      · exact h
      · exact hend _ _
      · rename_i name attributes selfClosing hstart
        have hcons := nested_cons_impliedEnds hhtml hweb h (String.ofList name)
        rw [stack_startEvents]
        split
        · exact (hcons _).tail
        · exact hcons _
    · exact h

/-- Where a start is reported, its tag may stand in the innermost open element. -/
theorem mayStandIn_of_step {cursor : Cursor} (h : Nested cursor.stack) {ends others : List Event}
    {tag : String} {attributes : List Attribute} {unary : Bool} {range : Range}
    (hstart : (step settings cursor).1 = ends ++ .start tag attributes unary range :: others)
    {tags : List String} (htags : readAll? cursor.stack ends = some tags) :
    ∀ outer ∈ tags.head?, Tag.MayStandIn tag outer := by
  rcases start_of_step hstart with hread | hstray
  · have himplied := readAll?_impliedEnds settings tag ⟨range.stop, range.stop⟩ cursor.stack
    rw [← hread.ends, htags] at himplied
    cases himplied
    exact (isChain_cons.mp (nested_cons_impliedEnds hhtml hweb h tag _)).1
  · rw [hstray.first] at htags
    cases htags
    exact hstray.mayStandIn

end Html

/-- HTML on the platform of browsers: wherever a start is reported, the innermost open element is no
paragraph if the element is one that a paragraph cannot hold, and it has another tag if the element is
one that ends at the next of its tag. -/
theorem start_fits_innermost {settings : Settings} (hhtml : settings.expectHtml = true)
    (hweb : settings.platform = .web) {source : String} {before after : List Event} {tag : String}
    {attributes : List Attribute} {unary : Bool} {range : Range}
    (h : events settings source = before ++ .start tag attributes unary range :: after) :
    ∃ tags, readAll? [] before = some tags ∧
      (Tag.isNonPhrasing tag = true → tags.head? ≠ some "p") ∧
      (Tag.isLeftOpen tag = true → tags.head? ≠ some tag) := by
  obtain ⟨c, earlier, ends, others, hc, rfl, hread, hstart, -⟩ :=
    exists_step_of_start (I := fun c => Nested c.stack) (fun _ => nested_step hhtml hweb)
      isChain_nil h
  have hall := readAll?_events settings source
  rw [h, readAll?_append, Option.bind_eq_some_iff] at hall
  obtain ⟨tags, htags, -⟩ := hall
  rw [readAll?_append_of_eq hread] at htags
  have hfits := mayStandIn_of_step hhtml hweb hc hstart htags
  refine ⟨tags, readAll?_append_of_eq hread ends ▸ htags, ?_, ?_⟩
  · intro hblock hhead
    rw [(hfits _ hhead).paragraph rfl] at hblock
    cases hblock
  · intro hopen hhead
    exact (hfits _ hhead).leftOpen hopen rfl

/-- An item ends the paragraph that is open, and then the item around it. -/
theorem start_fits_innermost_of_item_after_paragraph :
    ∃ before after tags,
      events { platform := .web, expectHtml := true } "<ul><li><p>a<li>b" =
        before ++ .start "li" [] false ⟨12, 16⟩ :: after ∧
      readAll? [] before = some tags ∧ tags.head? ≠ some "p" ∧ tags.head? ≠ some "li" := by
  have hevents : events { platform := .web, expectHtml := true } "<ul><li><p>a<li>b" =
      [.start "ul" [] false ⟨0, 4⟩, .start "li" [] false ⟨4, 8⟩, .start "p" [] false ⟨8, 11⟩,
        .text "a" ⟨11, 12⟩, .finish "p" ⟨16, 16⟩, .finish "li" ⟨16, 16⟩] ++
      .start "li" [] false ⟨12, 16⟩ ::
        [.text "b" ⟨16, 17⟩, .finish "li" ⟨17, 17⟩, .finish "ul" ⟨17, 17⟩] := by cbv
  obtain ⟨tags, htags, hblock, hopen⟩ := start_fits_innermost rfl rfl hevents
  exact ⟨_, _, tags, hevents, htags, hblock (by decide), hopen (by decide)⟩

end Markup

end ViewTemplate

import ViewTemplate.Proofs.ConstructFronts
import ViewTemplate.Proofs.LongSpelling

/-! # Where attributes stand

Only a start tag brings attributes. Each of them starts behind the name of its tag, in the text that
the step of the reader has read; so the places where a name can get its long spelling are known from
the events.
-/

open List Option

namespace ViewTemplate

open Text

namespace Event

/-- The places of a start tag where a name can get its long spelling. Next to the name of the tag the
word would become part of that name. -/
def markPlaces : Event → List Nat
  | .start tag attributes _ range =>
    (attributes.filter fun a => (Spelling.long? a.name).isSome).filterMap fun a =>
      (a.range.map Range.start).filter fun p => p ≠ range.start + 1 + byteLength tag.toList
  | _ => []

theorem exists_of_mem_markPlaces {e : Event} {p : Nat} (h : p ∈ e.markPlaces) :
    ∃ tag l unary range, e = .start tag l unary range ∧
      p ≠ range.start + 1 + byteLength tag.toList ∧
      ∃ a ∈ l, a.range.map Range.start = some p ∧ (Spelling.long? a.name).isSome = true := by
  cases e with
  | start tag l unary range =>
    simp only [markPlaces, mem_filterMap, mem_filter, filter_eq_some_iff,
      decide_eq_true_eq] at h
    obtain ⟨a, ⟨ha, hlong⟩, hstart, hne⟩ := h
    exact ⟨tag, l, unary, range, rfl, hne, a, ha, hstart, hlong⟩
  | finish tag range => cases h
  | text content range => cases h
  | comment content range => cases h

end Event

namespace Markup

variable {cursor : Cursor} {e : Event} {offset p : Nat} {s : List Char} {places : Nat → Bool}
  {settings : Settings}

/-! ## Places behind the name of a tag -/

/-- A place behind the name of a tag, in a text that starts at an offset. -/
def IsBehindTag (offset : Nat) (s : List Char) (p : Nat) : Prop :=
  ∃ before tag more after, s = before ++ '<' :: (tag ++ (more ++ after)) ∧
    tag.head?.any isNameStart = true ∧
    p = offset + byteLength before + 1 + byteLength (tag ++ more)

theorem IsBehindTag.append {text : List Char}
    (h : IsBehindTag (offset + byteLength text) s p) : IsBehindTag offset (text ++ s) p := by
  obtain ⟨before, tag, more, after, rfl, htag, rfl⟩ := h
  refine ⟨text ++ before, tag, more, after, by simp, htag, ?_⟩
  rw [byteLength_append text before]
  omega

theorem IsBehindTag.le (h : IsBehindTag offset s p) : offset + 2 ≤ p := by
  obtain ⟨before, tag, more, after, -, htag, rfl⟩ := h
  cases tag with
  | nil => cases htag
  | cons c tag =>
    have hpos := c.utf8Size_pos
    rw [cons_append, byteLength_cons]
    omega

/-- Behind the mark of an end tag no attribute can start. -/
theorem IsBehindTag.ne_of_slash (h : IsBehindTag offset ('<' :: '/' :: s) p) : p ≠ offset + 2 := by
  obtain ⟨before, tag, more, after, hs, htag, rfl⟩ := h
  cases tag with
  | nil => cases htag
  | cons c tag =>
    have hpos := c.utf8Size_pos
    rw [cons_append, byteLength_cons]
    cases before with
    | nil =>
      cases hs
      have hslash : isNameStart '/' = true := htag
      exact absurd hslash (by decide)
    | cons d before =>
      have hpos' := d.utf8Size_pos
      rw [byteLength_cons]
      omega

/-! ## What a step reads -/

/-- What a step can read. Only a start tag brings attributes. -/
inductive StepCase (settings : Settings) (cursor : Cursor) : Prop
  | rawText (tag : String) (hraw : cursor.innermost?.filter Tag.isRawText = some tag)
      (hstep : step settings cursor = rawTextEvents tag cursor)
      (hplain : ∀ e ∈ (step settings cursor).1, e.attributes = [])
  | construct (found : Found) (hraw : cursor.innermost?.filter Tag.isRawText = none)
      (hfound : construct? cursor.offset cursor.rest = some found)
      (hkind : ∀ name attributes selfClosing,
        found.construct ≠ .startTag name attributes selfClosing)
      (hstep : step settings cursor = constructEvents settings found cursor)
      (hplain : ∀ e ∈ (step settings cursor).1, e.attributes = [])
  | startTag (found : Found) (name : List Char) (as : List PlacedAttribute) (selfClosing : Bool)
      (hraw : cursor.innermost?.filter Tag.isRawText = none)
      (hfound : startTag? cursor.offset cursor.rest = some found)
      (hconstruct : found.construct = .startTag name as selfClosing)
      (hstep : step settings cursor = startEvents settings cursor.offset (String.ofList name) as
        selfClosing (cursor.pass found.text found.rest))
  | text (hraw : cursor.innermost?.filter Tag.isRawText = none)
      (hfound : construct? cursor.offset cursor.rest = none)
      (hstep : step settings cursor = textEvents cursor)
      (hplain : ∀ e ∈ (step settings cursor).1, e.attributes = [])

theorem plain_rawTextEvents {tag : String} (h : Tag.isRawText tag = true) (cursor : Cursor) :
    ∀ e ∈ (rawTextEvents tag cursor).1, e.attributes = [] := by
  intro e he
  simp only [rawTextEvents] at he
  split at he
  · rcases mem_cons.mp he with rfl | he
    · rfl
    · obtain ⟨t, rfl⟩ := finish_of_rawText h he
      rfl
  · obtain ⟨t, rfl⟩ := finish_of_rawText h he
    rfl

theorem plain_constructEvents {found : Found} (hkind : ∀ name attributes selfClosing,
    found.construct ≠ .startTag name attributes selfClosing) (cursor : Cursor) :
    ∀ e ∈ (constructEvents settings found cursor).1, e.attributes = [] := by
  intro e he
  simp only [constructEvents] at he
  split at he
  · split at he
    · split at he
      · rw [mem_singleton.mp he]
        rfl
      · cases he
    · cases he
  · cases he
  · cases he
  · exact (endEvents_range he).2
  · rename_i hconstruct
    exact absurd hconstruct (hkind _ _ _)

theorem plain_textEvents (cursor : Cursor) : ∀ e ∈ (textEvents cursor).1, e.attributes = [] := by
  intro e he
  simp only [textEvents] at he
  split at he
  · cases he
  · rw [mem_singleton.mp he]
    rfl

theorem step_case (settings : Settings) (cursor : Cursor) : StepCase settings cursor := by
  cases hraw : cursor.innermost?.filter Tag.isRawText with
  | some tag =>
    have hstep : step settings cursor = rawTextEvents tag cursor := by simp only [step, hraw]
    refine .rawText tag hraw hstep ?_
    rw [hstep]
    exact plain_rawTextEvents (filter_eq_some_iff.mp hraw).2 cursor
  | none =>
    cases hfound : construct? cursor.offset cursor.rest with
    | none =>
      have hstep : step settings cursor = textEvents cursor := by simp only [step, hraw, hfound]
      refine .text hraw hfound hstep ?_
      rw [hstep]
      exact plain_textEvents cursor
    | some found =>
      have hstep : step settings cursor = constructEvents settings found cursor := by
        simp only [step, hraw, hfound]
      by_cases hkind : ∀ name attributes selfClosing,
          found.construct ≠ .startTag name attributes selfClosing
      · refine .construct found hraw hfound hkind hstep ?_
        rw [hstep]
        exact plain_constructEvents hkind cursor
      · simp only [not_forall, not_not] at hkind
        obtain ⟨name, as, selfClosing, hconstruct⟩ := hkind
        refine .startTag found name as selfClosing hraw ?_ hconstruct ?_
        · have hcases := hfound
          simp only [construct?, or_eq_some_iff] at hcases
          rcases hcases with h | ⟨-, h | ⟨-, h | ⟨-, h | ⟨-, h⟩⟩⟩⟩
          · obtain ⟨⟨text, hc⟩, -⟩ := comment?_fits h
            rw [hc] at hconstruct
            cases hconstruct
          · rw [(conditional?_fits h).1] at hconstruct
            cases hconstruct
          · rw [(doctype?_fits h).1] at hconstruct
            cases hconstruct
          · obtain ⟨⟨name, hc⟩, -⟩ := endTag?_fits h
            rw [hc] at hconstruct
            cases hconstruct
          · exact h
        · rw [hstep, constructEvents, hconstruct]

/-- A step reads on if it reads any text. -/
theorem reads_on_iff (settings : Settings) (cursor : Cursor) :
    ∃ text, cursor.rest = text ++ (step settings cursor).2.rest ∧
      (step settings cursor).2.offset = cursor.offset + byteLength text ∧
      ((step settings cursor).2.rest.length < cursor.rest.length ↔ text ≠ []) := by
  obtain ⟨ps, -, -, hrest, hoffset, -⟩ := reads_step settings cursor
  refine ⟨sourceOf ps, hrest, hoffset, ?_⟩
  rw [hrest, length_append, ← length_pos_iff]
  omega

theorem offset_constructEvents {found : Found} (hkind : ∀ name attributes selfClosing,
    found.construct ≠ .startTag name attributes selfClosing) (cursor : Cursor) :
    (constructEvents settings found cursor).2.offset =
      cursor.offset + byteLength found.text := by
  obtain ⟨construct, text, rest⟩ := found
  cases construct with
  | comment content => rfl
  | conditional => rfl
  | doctype => rfl
  | endTag name => rfl
  | startTag name attributes selfClosing => exact absurd rfl (hkind name attributes selfClosing)

/-- The cursor after a start tag. -/
theorem snd_startEvents_eq (settings : Settings) (start : Nat) (tag : String)
    (as : List PlacedAttribute) (selfClosing : Bool) (cursor : Cursor) :
    (startEvents settings start tag as selfClosing cursor).2 =
      { (if cursor.rest.head? = some '\n' ∧ Tag.ignoresFirstNewline tag = true then
          cursor.pass ['\n'] cursor.rest.tail else cursor) with
        stack :=
          if settings.platform.isUnary tag || selfClosing then
            (impliedEnds settings tag ⟨cursor.offset, cursor.offset⟩ cursor.stack).2
          else tag :: (impliedEnds settings tag ⟨cursor.offset, cursor.offset⟩ cursor.stack).2 } := by
  simp only [startEvents]
  split
  · rename_i rest hrest
    simp only [hrest, head?_cons, true_and, tail_cons]
    split
    · rfl
    · rw [hrest]
  · rename_i hrest
    have hhead : cursor.rest.head? ≠ some '\n' := by
      intro hhead
      obtain ⟨t, ht⟩ := head?_eq_some_iff.mp hhead
      exact hrest t ht
    simp only [hhead, false_and, if_false]

/-! ## Attributes of a step -/

/-- The attributes of a step come from a start tag. -/
theorem startTag_of_attribute {a : Attribute} (he : e ∈ (step settings cursor).1)
    (ha : a ∈ e.attributes) :
    ∃ found name as selfClosing, startTag? cursor.offset cursor.rest = some found ∧
      found.construct = .startTag name as selfClosing ∧
      step settings cursor =
        startEvents settings cursor.offset (String.ofList name) as selfClosing
          (cursor.pass found.text found.rest) ∧
      e = .start (String.ofList name) (as.map (decodeAttribute settings (String.ofList name)))
        (settings.platform.isUnary (String.ofList name) || selfClosing)
        ⟨cursor.offset, (cursor.pass found.text found.rest).offset⟩ := by
  have hplain (h : ∀ e ∈ (step settings cursor).1, e.attributes = []) : False := by
    rw [h e he] at ha
    cases ha
  cases step_case settings cursor with
  | rawText _ _ _ h => exact (hplain h).elim
  | construct _ _ _ _ _ h => exact (hplain h).elim
  | text _ _ _ h => exact (hplain h).elim
  | startTag found name as selfClosing _ hfound hconstruct hstep =>
    refine ⟨found, name, as, selfClosing, hfound, hconstruct, hstep, ?_⟩
    rw [hstep, fst_startEvents] at he
    rcases mem_append.mp he with he | he
    · obtain ⟨t, rfl⟩ := impliedEnds_finish he
      cases ha
    · exact mem_singleton.mp he

theorem ne_nil_of_mem_attributes? {text rest : List Char} {as : List PlacedAttribute}
    {selfClosing : Bool} (h : attributes? offset s = some (as, selfClosing, text, rest)) :
    ∀ a ∈ as, a.name ≠ [] := by
  fun_induction attributes? offset s generalizing as selfClosing text rest with
  | case1 =>
    cases h
    simp
  | case2 => cases h
  | case3 =>
    rename_i hattribute _ ih
    simp only [map_eq_some_iff, Prod.exists, Prod.mk.injEq] at h
    obtain ⟨others, _, _, _, hr, rfl, -, -, -⟩ := h
    exact forall_mem_cons.mpr ⟨(eq_of_attribute? hattribute).2, ih hr⟩

/-- An attribute of a step starts behind the name of its tag, in what the step has read. -/
theorem place_of_attribute {a : Attribute} (he : e ∈ (step settings cursor).1)
    (ha : a ∈ e.attributes) :
    ∃ p, a.range.map Range.start = some p ∧ IsBehindTag cursor.offset cursor.rest p ∧
      p < (step settings cursor).2.offset := by
  obtain ⟨found, name, as, selfClosing, hstart, hconstruct, hstep, rfl⟩ := startTag_of_attribute he ha
  obtain ⟨b, hb, rfl⟩ := List.mem_map.mp ha
  have hrest := eq_of_startTag? hstart
  obtain ⟨tag, r, ⟨inside, -, hname⟩, as, closing, text, rest, hr, rfl⟩ := exists_of_startTag? hstart
  cases hconstruct
  obtain ⟨before, part, after, htext, hrange⟩ := attributes?_names hr b hb
  have hone : '<'.utf8Size = 1 := by decide
  refine ⟨_, rfl, ⟨[], name, before, b.name ++ part ++ after ++ rest, ?_, head_of_qualifiedName? hname, ?_⟩, ?_⟩
  · rw [hrest, htext]
    simp
  · simp only [hrange, byteLength_append, byteLength_nil]
    omega
  · have hpos := byteLength_pos (ne_nil_of_mem_attributes? hr b hb)
    have hpass : cursor.offset + byteLength ('<' :: name ++ text) ≤
        (step settings cursor).2.offset := by
      rw [hstep]
      rcases snd_startEvents settings cursor.offset (String.ofList name) as selfClosing
        (cursor.pass ('<' :: name ++ text) rest) with ⟨-, hoffset⟩ | ⟨-, hoffset, -⟩
      · exact Nat.le_of_eq hoffset.symm
      · rw [hoffset]
        exact Nat.le_add_right _ _
    refine Nat.lt_of_lt_of_le ?_ hpass
    simp only [hrange, htext, cons_append, byteLength_cons,
      byteLength_append, hone]
    omega

/-- The places of a step lie behind the names of tags, in what the step has read. -/
theorem place_of_step (he : e ∈ (step settings cursor).1) (hp : p ∈ e.markPlaces) :
    IsBehindTag cursor.offset cursor.rest p ∧ p < (step settings cursor).2.offset := by
  obtain ⟨tag, l, unary, range, rfl, -, a, ha, hstart, -⟩ := Event.exists_of_mem_markPlaces hp
  obtain ⟨q, hq, hbehind⟩ := place_of_attribute he ha
  rw [hstart] at hq
  cases hq
  exact hbehind

theorem place_of_event (he : e ∈ eventsFrom settings cursor) (hp : p ∈ e.markPlaces) :
    IsBehindTag cursor.offset cursor.rest p := by
  have hclose {offset : Nat} {stack : List String} : e ∉ closeAll offset stack := by
    intro he
    obtain ⟨t, rfl⟩ := mem_closeAll he
    cases hp
  fun_induction eventsFrom settings cursor with
  | case1 => exact absurd he hclose
  | case2 cursor _ events next hstep _ ih =>
    obtain ⟨ps, _, _, hrest, hoffset, -⟩ := reads_step settings cursor
    rcases mem_append.mp he with he | he
    · exact (place_of_step (by rw [hstep]; exact he) hp).1
    · rw [hrest]
      apply IsBehindTag.append
      rw [← hoffset, hstep]
      exact ih he
  | case3 cursor _ events next hstep _ stop =>
    rcases mem_append.mp he with he | he
    · exact (place_of_step (by rw [hstep]; exact he) hp).1
    · rcases mem_cons.mp he with rfl | he
      · cases hp
      · exact absurd he hclose

/-- All places from an offset on are places of the events. -/
def Covered (places : Nat → Bool) (offset : Nat) (events : List Event) : Prop :=
  ∀ p, offset ≤ p → places p = true → ∃ e ∈ events, p ∈ e.markPlaces

/-- The places in what a step reads are those of its events, and those after it are later ones. -/
theorem Covered.step (h : Covered places cursor.offset
      ((Markup.step settings cursor).1 ++ eventsFrom settings (Markup.step settings cursor).2)) :
    (∀ p, cursor.offset ≤ p → p < (Markup.step settings cursor).2.offset → places p = true →
      ∃ e ∈ (Markup.step settings cursor).1, p ∈ e.markPlaces) ∧
    Covered places (Markup.step settings cursor).2.offset
      (eventsFrom settings (Markup.step settings cursor).2) := by
  constructor
  · intro p hle hlt hp
    obtain ⟨e, he, hmem⟩ := h p hle hp
    rcases mem_append.mp he with he | he
    · exact ⟨e, he, hmem⟩
    · have hbehind := (place_of_event he hmem).le
      omega
  · intro p hle hp
    have hoffset : cursor.offset ≤ (Markup.step settings cursor).2.offset := by
      obtain ⟨ps, _, _, -, hoffset, -⟩ := reads_step settings cursor
      rw [hoffset]
      exact Nat.le_add_right _ _
    obtain ⟨e, he, hmem⟩ := h p (Nat.le_trans hoffset hle) hp
    rcases mem_append.mp he with he | he
    · have hlt := (place_of_step he hmem).2
      omega
    · exact ⟨e, he, hmem⟩

end Markup

end ViewTemplate

import ViewTemplate.Proofs.ConstructFronts
import ViewTemplate.Proofs.StartTags

/-! # Elements of raw text

After the start tag of an element of raw text nothing is read as markup until the element ends. It
ends at the first end tag of its name, in any case, that is closed by a bracket somewhere; all before
that is one text. Without such an end tag the element is empty, and everything ahead is one text that
follows it.
-/

open List Option

namespace ViewTemplate

namespace Text

/-- A search finds an occurrence of the pattern, or one before it. -/
theorem exists_cut?_append (p a b : List Char) :
    ∃ before after, cut? p (a ++ (p ++ b)) = some (before, after) ∧ before.length ≤ a.length := by
  induction a with
  | nil =>
    refine ⟨[], b, ?_, Nat.le_refl _⟩
    cases p with
    | nil => cases b <;> rfl
    | cons x p =>
      rw [nil_append, cons_append, cut?, ← cons_append, after?_append]
  | cons c a ih =>
    obtain ⟨before, after, hcut, hle⟩ := ih
    rw [cons_append, cut?]
    split
    · rename_i r _
      exact ⟨[], r, rfl, Nat.zero_le _⟩
    · exact ⟨c :: before, after, by rw [hcut]; rfl, Nat.succ_le_succ hle⟩

end Text

namespace Markup

open Event

/-- A text goes on after `content` with the front of an end tag of the given name, in lower case, and
then somewhere with a closing bracket. -/
def EndsAfter (lowerTag s content : List Char) : Prop :=
  ∃ mark more, s = content ++ (mark ++ more) ∧
    mark.map Text.asciiLower = '<' :: '/' :: lowerTag ∧ '>' ∈ more

/-- The text before the first end tag of a name, if there is an end tag. -/
def FirstEnd (lowerTag s : List Char) : Option (List Char) → Prop
  | some content => EndsAfter lowerTag s content ∧
      ∀ other, EndsAfter lowerTag s other → content.length ≤ other.length
  | none => ∀ content, ¬ EndsAfter lowerTag s content

/-- An end tag is found, and none after it. -/
theorem exists_rawText?_of_endsAfter {lowerTag s content : List Char}
    (h : EndsAfter lowerTag s content) :
    ∃ found, rawText? lowerTag s = some found ∧ found.1.length ≤ content.length := by
  obtain ⟨mark, more, hs, hmark, hgt⟩ := h
  have hmap : s.map Text.asciiLower =
      content.map Text.asciiLower ++ ('<' :: '/' :: lowerTag ++ more.map Text.asciiLower) := by
    rw [hs, map_append, map_append, hmark]
  obtain ⟨before, after, hcut, hle⟩ := Text.exists_cut?_append ('<' :: '/' :: lowerTag)
    (content.map Text.asciiLower) (more.map Text.asciiLower)
  rw [← hmap] at hcut
  rw [length_map] at hle
  -- the bracket after the given end tag also comes after the one that is found
  have hmem : '>' ∈ (s.drop before.length).drop ('<' :: '/' :: lowerTag).length := by
    rw [drop_drop]
    have hlength : mark.length = ('<' :: '/' :: lowerTag).length := by
      rw [← hmark, length_map]
    have hmore : more = s.drop (content.length + ('<' :: '/' :: lowerTag).length) := by
      rw [hs, ← hlength, ← append_assoc, ← length_append, drop_left]
    rw [hmore] at hgt
    exact (drop_sublist_drop_left s (Nat.add_le_add_right hle _)).subset hgt
  obtain ⟨⟨inside, rest⟩, hclose⟩ :=
    isSome_iff_exists.mp ((isSome_cut?_singleton _ _).mpr hmem)
  have hfound : rawText? lowerTag s = some (s.take before.length,
      (s.drop before.length).take ('<' :: '/' :: lowerTag).length ++ inside ++ ['>'], rest) := by
    simp only [rawText?, hcut, hclose, bind_eq_bind, bind_some, Option.pure_def]
  exact ⟨_, hfound, Nat.le_trans (length_take_le _ _) hle⟩

theorem firstEnd_rawText? (lowerTag s : List Char) :
    FirstEnd lowerTag s ((rawText? lowerTag s).map Prod.fst) := by
  cases hfound : rawText? lowerTag s with
  | none =>
    intro content hends
    obtain ⟨found, hsome, -⟩ := exists_rawText?_of_endsAfter hends
    rw [hfound] at hsome
    cases hsome
  | some found =>
    obtain ⟨content, endTag, rest⟩ := found
    obtain ⟨hs, name, more, hend, hname, -⟩ := rawText?_fits hfound
    refine ⟨⟨'<' :: '/' :: name, more ++ '>' :: rest, ?_, ?_, by simp⟩, fun other hother => ?_⟩
    · rw [hs, hend]
      simp
    · rw [map_cons, map_cons, hname]
      rfl
    · obtain ⟨found, hsome, hle⟩ := exists_rawText?_of_endsAfter hother
      rw [hfound] at hsome
      cases hsome
      exact hle

/-- The content of an element that is kept verbatim is not changed. -/
theorem rawTextContent_of_isVerbatim {tag : String} (hverbatim : Tag.isVerbatim tag = true)
    (hfeed : Tag.ignoresFirstNewline tag = false) (text : List Char) :
    rawTextContent tag text = text := by
  simp only [rawTextContent, hverbatim, if_true, hfeed]
  split <;> rfl

/-- An end tag in lower case closes an innermost element of raw text and nothing else. -/
theorem endEvents_of_rawText {tag : String} (h : Tag.isRawText tag = true) (range : Range)
    (outer : List String) :
    endEvents (Tag.lower tag) range (tag :: outer) = ([.finish tag range], outer) := by
  have hlower : Tag.lower (Tag.lower tag) = Tag.lower tag := by
    rcases lower_of_isRawText h with hl | hl | hl <;> rw [hl] <;> decide
  simp [endEvents, unwind?, hlower]

/-- The reader inside of an element of raw text. -/
theorem eventsFrom_of_rawText {settings : Settings} {cursor : Cursor} {tag : String}
    {outer : List String} (hraw : Tag.isRawText tag = true) (hstack : cursor.stack = tag :: outer) :
    eventsFrom settings cursor =
      match rawText? (Tag.lower tag).toList cursor.rest with
      | some (content, endTag, rest) =>
        let inside := cursor.offset + Text.byteLength content
        .text (String.ofList (rawTextContent (Tag.lower tag) content)) ⟨cursor.offset, inside⟩ ::
          .finish tag ⟨inside, inside + Text.byteLength endTag⟩ ::
          eventsFrom settings ⟨inside + Text.byteLength endTag, rest, outer⟩
      | none =>
        let stop := cursor.offset + Text.byteLength cursor.rest
        .finish tag ⟨cursor.offset, cursor.offset⟩ ::
          (if cursor.rest = [] then []
          else [.text (String.ofList cursor.rest) ⟨cursor.offset, stop⟩]) ++
          closeAll stop outer := by
  rw [eventsFrom]
  by_cases hrest : cursor.rest = []
  · have hnone : rawText? (Tag.lower tag).toList [] = none := rfl
    simp [hrest, hnone, hstack, closeAll]
  · have hstep : step settings cursor = rawTextEvents tag cursor := by
      rw [step, Cursor.innermost?, hstack, head?_cons, filter_some, if_pos hraw]
    simp only [List.isEmpty_iff, hrest, if_false, hstep, rawTextEvents, hstack,
      endEvents_of_rawText hraw]
    cases hfound : rawText? (Tag.lower tag).toList cursor.rest with
    | none => simp
    | some found =>
      obtain ⟨content, endTag, rest⟩ := found
      have hlength : rest.length < cursor.rest.length := by
        obtain ⟨hs, name, more, hend, -⟩ := rawText?_fits hfound
        rw [hs, hend]
        simp only [length_append, length_cons]
        omega
      simp [Cursor.pass, hlength]

/-- After the start of an element of raw text the reader stands inside of the element, at the end of
its start tag unless it drops a line feed. -/
theorem exists_inside_of_start {settings : Settings} {source : String} {before after : List Event}
    {tag : String} {attributes : List Attribute} {range : Range}
    (h : events settings source = before ++ .start tag attributes false range :: after)
    (hraw : Tag.isRawText tag = true) :
    ∃ cursor outer, At source cursor ∧ cursor.stack = tag :: outer ∧
      (Tag.ignoresFirstNewline tag = false → cursor.offset = range.stop) ∧
      after = eventsFrom settings cursor := by
  have hstart : At source ⟨0, source.toList, []⟩ := ⟨[], by simp, rfl⟩
  obtain ⟨c, earlier, ends, others, hc, -, -, hsplit, rfl⟩ :=
    exists_step_of_start (fun _ hc => hc.step settings) hstart h
  rcases start_of_step hsplit with hread | hstray
  · refine ⟨(step settings c).2, _, hc.step settings, hread.stack, hread.offset, ?_⟩
    rw [hread.last, nil_append]
  · -- a stray end tag stands for no element of raw text
    rcases lower_of_isRawText hraw with hl | hl | hl <;>
      exact absurd hstray.tag (by rw [hl]; decide)

/-- Elements of raw text are opaque. Between their start and their end there is at most one event, a
text. Of a script or style it is the source from the end of the start tag to the first end tag of the
name; if there is none, the element is empty, and the source that is left, if any, is one text after
it, which only ends of other elements follow. -/
theorem rawText_between_tags {settings : Settings} {source : String} {before after : List Event}
    {tag : String} {attributes : List Attribute} {range : Range}
    (h : events settings source = before ++ .start tag attributes false range :: after)
    (hraw : Tag.isRawText tag = true) :
    (∃ inside place later, after = inside ++ .finish tag place :: later ∧ inside.length ≤ 1 ∧
      ∀ e ∈ inside, ∃ content place, e = .text content place) ∧
    (Tag.lower tag = "script" ∨ Tag.lower tag = "style" →
      ∃ passed rest, source.toList = passed ++ rest ∧ Text.byteLength passed = range.stop ∧
        ∃ first, FirstEnd (Tag.lower tag).toList rest first ∧
          match first with
          | some content =>
            let stop := range.stop + Text.byteLength content
            ∃ place later, after = .text (String.ofList content) ⟨range.stop, stop⟩ ::
              .finish tag place :: later
          | none =>
            let stop := range.stop + Text.byteLength rest
            ∃ outer : List String, after = .finish tag ⟨range.stop, range.stop⟩ ::
              (if rest = [] then [] else [.text (String.ofList rest) ⟨range.stop, stop⟩]) ++
              outer.map fun t => .finish t ⟨stop, stop⟩) := by
  obtain ⟨cursor, outer, ⟨passed, hsource, hpassed⟩, hstack, hoffset, rfl⟩ :=
    exists_inside_of_start h hraw
  rw [eventsFrom_of_rawText hraw hstack]
  constructor
  · split
    · exact ⟨[_], _, _, rfl, Nat.le_refl _, by simp⟩
    · exact ⟨[], _, _, rfl, Nat.zero_le _, by simp⟩
  · intro hverbatim
    have hcontent (content : List Char) : rawTextContent (Tag.lower tag) content = content := by
      rcases hverbatim with hl | hl <;> rw [hl] <;>
        exact rawTextContent_of_isVerbatim (by decide) (by decide) content
    have hstop : cursor.offset = range.stop := by
      apply hoffset
      rcases hverbatim with hl | hl <;> rw [Tag.ignoresFirstNewline, hl] <;> decide
    refine ⟨passed, cursor.rest, by rw [hsource, String.toList_ofList], hpassed.trans hstop, _,
      firstEnd_rawText? _ _, ?_⟩
    cases hfound : rawText? (Tag.lower tag).toList cursor.rest with
    | none =>
      rw [hstop]
      exact ⟨outer, rfl⟩
    | some found =>
      simp only [map_some, hcontent, hstop]
      exact ⟨_, _, rfl⟩

/-- The end tag of an element of raw text may be written in another case than its start tag. -/
theorem rawText_between_tags_of_mixed_case :
    Tag.isRawText "Script" = true ∧
      ∃ passed rest, "<Script>é</b></SCRIPT>x".toList = passed ++ rest ∧
        Text.byteLength passed = 8 ∧ FirstEnd "script".toList rest (some "é</b>".toList) := by
  have hevents : events { platform := .web, expectHtml := true } "<Script>é</b></SCRIPT>x" =
      [] ++ .start "Script" [] false ⟨0, 8⟩ ::
        [.text "é</b>" ⟨8, 14⟩, .finish "Script" ⟨14, 23⟩, .text "x" ⟨23, 24⟩] := by decide +kernel
  have hraw : Tag.isRawText "Script" = true := by decide
  have hlower : Tag.lower "Script" = "script" := by decide
  obtain ⟨passed, rest, hsource, hpassed, first, hfirst, hafter⟩ :=
    (rawText_between_tags hevents hraw).2 (.inl hlower)
  refine ⟨hraw, passed, rest, hsource, hpassed, ?_⟩
  rw [hlower] at hfirst
  cases first with
  | none =>
    obtain ⟨_, hafter⟩ := hafter
    cases hafter
  | some content =>
    obtain ⟨_, _, hafter⟩ := hafter
    have htext : "é</b>" = String.ofList content := (Event.text.inj (List.cons.inj hafter).1).1
    have hcontent : content = "é</b>".toList := by rw [htext, String.toList_ofList]
    exact hcontent ▸ hfirst

end Markup

end ViewTemplate

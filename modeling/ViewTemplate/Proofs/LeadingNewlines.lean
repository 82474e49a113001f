import ViewTemplate.Proofs.PrintedMarkup
import ViewTemplate.Proofs.RawTextElements

/-! # Line feeds at the start of content

The start tag of `pre` or `textarea` takes a line feed that follows it. The content of `textarea` is
raw text, and of that a line feed at the start is dropped once more, so that two are lost where the
content starts with two.
-/

open List

namespace ViewTemplate

open Text

namespace Markup

open Event

variable {settings : Settings} {tag : String} {content rest : List Char}

theorem unwrap_of_not_mem {x : Char} {s : List Char} (h : x ∉ s) (others closing : List Char) :
    unwrap x others closing s = s := by
  rw [unwrap]
  split
  · rfl
  · rename_i hsome
    rw [cut?_of_not_mem h] at hsome
    cases hsome

/-- Content without brackets is raw text up to the end tag. -/
theorem rawText?_printEndTag (hopen : '<' ∉ content)
    (hlower : tag.toList.map asciiLower = tag.toList) (rest : List Char) :
    rawText? tag.toList (content ++ (printEndTag tag ++ rest)) =
      some (content, printEndTag tag, rest) := by
  have hcontent : '<' ∉ content.map asciiLower := by
    rw [List.mem_map]
    rintro ⟨c, hc, heq⟩
    exact hopen (eq_of_asciiLower heq (by decide) ▸ hc)
  have hmap : (content ++ (printEndTag tag ++ rest)).map asciiLower =
      content.map asciiLower ++
        ('<' :: '/' :: tag.toList ++ ('>' :: rest).map asciiLower) := by
    have hbracket : asciiLower '<' = '<' := by decide
    have hslash : asciiLower '/' = '/' := by decide
    simp [printEndTag, hlower, hbracket, hslash]
  rw [rawText?, hmap, cut?_append_of_not_mem hcontent]
  simp [printEndTag, cut?, after?]

/-- A start tag takes the line feed behind it. -/
theorem readsAs_startTag_newline (hname : IsQualifiedName tag.toList)
    (hfeed : Tag.ignoresFirstNewline tag = true) (hvoid : settings.platform.isUnary tag = false)
    (rest : List Char) :
    ReadsAs settings [] (printStartTag tag [] false ++ ['\n']) [.start tag [] false] [tag] rest := by
  refine ReadsAs.of_step (by simp [printStartTag]) fun offset => ?_
  obtain ⟨placed, text, hconstruct, hplaced⟩ := construct?_printStartTag hname
    (forall_mem_nil PrintableAttribute) false ('\n' :: rest) offset
  have hends (range : Range) : impliedEnds settings tag range [] = ([], []) := by
    simp [impliedEnds]
  refine ⟨[.start tag [] false ⟨offset, offset + byteLength text⟩],
    offset + byteLength text + byteLength ['\n'], ?_, rfl⟩
  rw [append_assoc, singleton_append, step_of_construct? rfl hconstruct,
    map_eq_nil_iff.mp hplaced]
  simp only [constructEvents, startEvents, Cursor.pass, String.ofList_toList, hends, hvoid, hfeed,
    Bool.or_false, if_true, map_nil, nil_append, Bool.false_eq_true, if_false]

/-- Inside of `textarea` another line feed is dropped. -/
theorem readsAs_textarea (hopen : '<' ∉ content) (rest : List Char) :
    ReadsAs settings ["textarea"] (content ++ printEndTag "textarea")
      [.text (String.ofList (content.drop (if content.head? = some '\n' then 1 else 0))),
        .finish "textarea"] [] rest := by
  intro offset
  have hlower : Tag.lower "textarea" = "textarea" := by decide
  have hcontent : rawTextContent "textarea" content =
      content.drop (if content.head? = some '\n' then 1 else 0) := by
    have hverbatim : Tag.isVerbatim "textarea" = false := by decide
    have hfeed : Tag.ignoresFirstNewline "textarea" = true := by decide
    simp only [rawTextContent, hverbatim, hfeed, Bool.false_eq_true, if_false, if_true,
      unwrap_of_not_mem hopen]
    cases content with
    | nil => rfl
    | cons c s =>
      by_cases hc : c = '\n'
      · subst hc
        rfl
      · simp [hc]
  refine ⟨offset + byteLength content + byteLength (printEndTag "textarea"), ?_⟩
  rw [append_assoc, eventsFrom_of_rawText (by decide) rfl, hlower,
    rawText?_printEndTag hopen (by decide), ← hcontent]
  rfl

theorem ReadsAs.signals_events {source : String} {signals : List Signal}
    (h : ReadsAs settings [] source.toList signals [] []) :
    (events settings source).map Event.signal = signals := by
  obtain ⟨stop, h⟩ := h 0
  rw [append_nil] at h
  rw [events, h, eventsFrom]
  exact append_nil signals

/-- Exactly one line feed is dropped in front of the content of `pre`, and of `textarea` unless the
content starts with another: then that is dropped as well. -/
theorem signals_after_newline {content : String} (hopen : '<' ∉ content.toList)
    (hpre : settings.platform.isUnary "pre" = false)
    (htextarea : settings.platform.isUnary "textarea" = false) :
    (content ≠ "" → (events settings ("<pre>\n" ++ content ++ "</pre>")).map Event.signal =
      [.start "pre" [] false, .text content, .finish "pre"]) ∧
    (∀ more, content = "\n" ++ more →
      (events settings ("<textarea>\n" ++ content ++ "</textarea>")).map Event.signal =
        [.start "textarea" [] false, .text more, .finish "textarea"]) ∧
    ((events settings ("<textarea>\n" ++ content ++ "</textarea>")).map Event.signal =
        [.start "textarea" [] false, .text content, .finish "textarea"] ↔
      content.toList.head? ≠ some '\n') := by
  have hlocal {s : String} (h : s.toList.all isNameStart = true) (hne : s.toList ≠ []) :
      IsQualifiedName s.toList := by
    obtain ⟨c, cs, hs⟩ := exists_cons_of_ne_nil hne
    rw [hs, all_cons, Bool.and_eq_true] at h
    refine .inl ⟨c, cs, hs, h.1, fun d hd => ?_⟩
    rw [isNameChar, List.all_eq_true.mp h.2 d hd]
    rfl
  have hinside : (events settings ("<textarea>\n" ++ content ++ "</textarea>")).map Event.signal =
      [.start "textarea" [] false, .text (String.ofList (content.toList.drop
        (if content.toList.head? = some '\n' then 1 else 0))), .finish "textarea"] := by
    apply ReadsAs.signals_events
    have hstart := readsAs_startTag_newline (hlocal (by decide) (by decide)) (by decide) htextarea
      (content.toList ++ printEndTag "textarea" ++ [])
    rw [String.toList_append, String.toList_append, append_assoc]
    exact hstart.trans (readsAs_textarea hopen [])
  refine ⟨fun hne => ?_, ?_, ?_⟩
  · have hname : IsQualifiedName "pre".toList := hlocal (by decide) (by decide)
    have hraw : Tag.isRawText "pre" = false := by decide
    have hstart := readsAs_startTag_newline hname (by decide) hpre
      (content.toList ++ printEndTag "pre" ++ [])
    have htext : ReadsAs settings ["pre"] content.toList [.text content] ["pre"]
        (printEndTag "pre" ++ []) :=
      readsAs_text settings (by simpa using hne) hopen (by decide) (textRun_printEndTag hname [])
    apply ReadsAs.signals_events
    rw [String.toList_append, String.toList_append, append_assoc]
    exact hstart.trans (htext.trans (readsAs_endTag settings hname hraw [] []))
  · rintro more rfl
    simpa using hinside
  · rw [hinside]
    split_ifs with hfeed
    · obtain ⟨more, hmore⟩ := head?_eq_some_iff.mp hfeed
      simp [hmore, ← String.toList_inj]
    · simp [hfeed]

theorem signals_after_newline_of_indented_content :
    '<' ∉ " x\n".toList ∧
      (events { platform := .web, expectHtml := true } ("<pre>\n" ++ " x\n" ++ "</pre>")).map
        Event.signal = [.start "pre" [] false, .text " x\n", .finish "pre"] := by
  have hopen : '<' ∉ " x\n".toList := by decide
  exact ⟨hopen, (signals_after_newline hopen (by decide) (by decide)).1 (by decide)⟩

/-- Of two line feeds in front of the content of `textarea` both are lost. -/
theorem second_newline_lost_in_textarea :
    (events { platform := .web, expectHtml := true } "<textarea>\n\nfoo</textarea>").map
      Event.signal = [.start "textarea" [] false, .text "foo", .finish "textarea"] := by
  decide +kernel

end Markup

end ViewTemplate

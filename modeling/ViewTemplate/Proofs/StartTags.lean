import ViewTemplate.Proofs.SourceCoverage

/-! # Start tags among the events

A start tag is reported by the step that reads it: after the end tags that it implies, and as the last
event of the step. The only other starts are those of the empty line breaks and paragraphs that stray
end tags stand for. So whatever each step keeps holds where a start tag of a run is read, and what
follows the start tag is read from there.
-/

open List

namespace ViewTemplate.Markup

open Event

variable {settings : Settings} {cursor : Cursor} {before after : List Event} {tag : String}
  {attributes : List Attribute} {unary : Bool} {range : Range}

/-- An event among the events of two runs stands in the first or in the second. -/
theorem split_of_append_eq {es fs : List Event} {e : Event}
    (h : es ++ fs = before ++ e :: after) :
    (∃ later, es = before ++ e :: later ∧ after = later ++ fs) ∨
      ∃ earlier, before = es ++ earlier ∧ fs = earlier ++ e :: after := by
  rcases append_eq_append_iff.mp h with ⟨earlier, hb, hf⟩ | ⟨later, he, hf⟩
  · exact .inr ⟨earlier, hb, hf⟩
  · rcases cons_eq_append_iff.mp hf with ⟨rfl, rfl⟩ | ⟨later', rfl, hafter⟩
    · exact .inr ⟨[], by simpa using he.symm, rfl⟩
    · exact .inl ⟨later', he, hafter⟩

/-! ## One step -/

theorem stack_startEvents (settings : Settings) (start : Nat) (tag : String)
    (attributes : List PlacedAttribute) (selfClosing : Bool) (cursor : Cursor) :
    (startEvents settings start tag attributes selfClosing cursor).2.stack =
      if settings.platform.isUnary tag || selfClosing then
        (impliedEnds settings tag ⟨cursor.offset, cursor.offset⟩ cursor.stack).2
      else tag :: (impliedEnds settings tag ⟨cursor.offset, cursor.offset⟩ cursor.stack).2 := by
  simp only [startEvents]
  split
  · split <;> rfl
  · rfl

/-- The start of a tag that was read with the given tags open: only end tags that it implies are
reported before it in its step, nothing after it, and the reader then stands at `next`. -/
structure ReadStart (settings : Settings) (stack : List String) (tag : String) (unary : Bool)
    (range : Range) (before after : List Event) (next : Cursor) : Prop where
  last : after = []
  ends : before = (impliedEnds settings tag ⟨range.stop, range.stop⟩ stack).1
  stack : next.stack =
    if unary then (impliedEnds settings tag ⟨range.stop, range.stop⟩ stack).2
    else tag :: (impliedEnds settings tag ⟨range.stop, range.stop⟩ stack).2
  offset : Tag.ignoresFirstNewline tag = false → next.offset = range.stop

/-- The start of an empty line break or paragraph, for which an end tag stands that closes nothing. -/
structure StrayStart (stack : List String) (tag : String) (before : List Event) : Prop where
  first : before = []
  unmatched : unwind? tag stack = none
  tag : Tag.lower tag = "br" ∨ Tag.lower tag = "p"

theorem start_of_endEvents {name : String} {place : Range} {stack : List String}
    (h : (endEvents name place stack).1 = before ++ .start tag attributes unary range :: after) :
    StrayStart stack tag before := by
  rw [endEvents] at h
  split at h
  · have hmem : Event.start tag attributes unary range ∈
        before ++ Event.start tag attributes unary range :: after := by simp
    rw [← h] at hmem
    obtain ⟨t, -, ht⟩ := List.mem_map.mp hmem
    cases ht
  · rename_i hnone
    simp only at h
    split at h
    · rename_i hbr
      obtain ⟨rfl, h⟩ | ⟨_, _, h⟩ := cons_eq_append_iff.mp h
      · cases h
        exact ⟨rfl, hnone, .inl hbr⟩
      · simp at h
    · split at h
      · rename_i hp
        obtain ⟨rfl, h⟩ | ⟨_, _, h⟩ := cons_eq_append_iff.mp h
        · cases h
          exact ⟨rfl, hnone, .inr hp⟩
        · simp [cons_eq_append_iff] at h
      · simp at h

theorem start_of_startEvents {start : Nat} {name : String} {placed : List PlacedAttribute}
    {selfClosing : Bool}
    (h : (startEvents settings start name placed selfClosing cursor).1 =
      before ++ .start tag attributes unary range :: after) :
    ReadStart settings cursor.stack tag unary range before after
      (startEvents settings start name placed selfClosing cursor).2 := by
  have hevents := fst_startEvents settings start name placed selfClosing cursor
  rw [h] at hevents
  rcases split_of_append_eq hevents.symm with ⟨later, hends, -⟩ | ⟨earlier, rfl, hstart⟩
  · -- the implied ends hold no start
    have hmem : Event.start tag attributes unary range ∈
        (impliedEnds settings name ⟨cursor.offset, cursor.offset⟩ cursor.stack).1 := by simp [hends]
    obtain ⟨_, ht⟩ := impliedEnds_finish hmem
    cases ht
  · obtain ⟨rfl, hstart⟩ | ⟨_, _, hnil⟩ := cons_eq_append_iff.mp hstart
    · cases hstart
      refine ⟨rfl, append_nil _, stack_startEvents .., fun hfeed => ?_⟩
      rcases snd_startEvents settings start tag placed selfClosing cursor with
        ⟨-, hoffset⟩ | ⟨-, -, hignores⟩
      · exact hoffset
      · rw [hfeed] at hignores
        cases hignores
    · simp at hnil

theorem start_of_constructEvents {found : Found}
    (h : (constructEvents settings found cursor).1 =
      before ++ .start tag attributes unary range :: after) :
    ReadStart settings cursor.stack tag unary range before after
        (constructEvents settings found cursor).2 ∨
      StrayStart cursor.stack tag before := by
  have hmem : Event.start tag attributes unary range ∈
      (constructEvents settings found cursor).1 := by simp [h]
  simp only [constructEvents] at h hmem ⊢
  cases hfound : found.construct with
  | comment text =>
    simp only [hfound] at hmem
    split at hmem
    · split at hmem <;> simp at hmem
    · cases hmem
  | conditional =>
    simp only [hfound] at hmem
    cases hmem
  | doctype =>
    simp only [hfound] at hmem
    cases hmem
  | endTag name =>
    simp only [hfound] at h
    exact .inr (start_of_endEvents h)
  | startTag name placed selfClosing =>
    simp only [hfound] at h
    exact .inl (start_of_startEvents h)

/-- A start in a step is that of a tag that the step reads, or one that a stray end tag stands for. -/
theorem start_of_step
    (h : (step settings cursor).1 = before ++ .start tag attributes unary range :: after) :
    ReadStart settings cursor.stack tag unary range before after (step settings cursor).2 ∨
      StrayStart cursor.stack tag before := by
  have hmem : Event.start tag attributes unary range ∈ (step settings cursor).1 := by simp [h]
  rw [step] at h hmem ⊢
  split at h
  · rename_i name hname
    obtain ⟨-, hraw⟩ := Option.filter_eq_some_iff.mp hname
    simp only [hname, rawTextEvents] at hmem
    split at hmem
    · rcases mem_cons.mp hmem with hmem | hmem
      · cases hmem
      · obtain ⟨_, ht⟩ := finish_of_rawText hraw hmem
        cases ht
    · obtain ⟨_, ht⟩ := finish_of_rawText hraw hmem
      cases ht
  · rename_i hnone
    simp only [hnone] at hmem ⊢
    split at h
    · exact start_of_constructEvents h
    · rename_i hfound
      simp only [hfound, textEvents] at hmem
      split at hmem
      · cases hmem
      · simp at hmem

/-- A step that reports a start reads something. -/
theorem length_lt_of_start
    (h : Event.start tag attributes unary range ∈ (step settings cursor).1) :
    (step settings cursor).2.rest.length < cursor.rest.length := by
  obtain ⟨ps, idle, hps, hrest, -, hevents, -, hidle⟩ := reads_step settings cursor
  have hne : ps ≠ [] := by
    rintro rfl
    rw [hevents] at h
    obtain ⟨_, ht⟩ := hidle _ h
    cases ht
  have hpos := length_pos_iff.mpr (hps.sourceOf_ne_nil hne)
  rw [hrest, length_append]
  omega

/-! ## The whole run -/

/-- A start in a run is reported by a step from a cursor of the run, at which all holds that steps
keep. What comes after the step is the run from where it ends. -/
theorem exists_step_of_start {I : Cursor → Prop}
    (hstep : ∀ c, I c → I (step settings c).2) (hkept : I cursor)
    (h : eventsFrom settings cursor = before ++ .start tag attributes unary range :: after) :
    ∃ c earlier ends others, I c ∧ before = earlier ++ ends ∧
      readAll? cursor.stack earlier = some c.stack ∧
      (step settings c).1 = ends ++ .start tag attributes unary range :: others ∧
      after = others ++ eventsFrom settings (step settings c).2 := by
  fun_induction eventsFrom settings cursor generalizing before with
  | case1 cursor hrest =>
    have hmem : Event.start tag attributes unary range ∈
        closeAll cursor.offset cursor.stack := by simp [h]
    obtain ⟨_, ht⟩ := mem_closeAll hmem
    cases ht
  | case2 cursor hrest events next hs hlt ih =>
    have hfst : (step settings cursor).1 = events := by rw [hs]
    have hsnd : (step settings cursor).2 = next := by rw [hs]
    rcases split_of_append_eq h with ⟨later, hevents, hafter⟩ | ⟨earlier, rfl, hlater⟩
    · exact ⟨cursor, [], before, later, hkept, rfl, rfl, hfst.trans hevents, hsnd ▸ hafter⟩
    · obtain ⟨c, earlier', ends, others, hc, rfl, hread, hsplit, hafter⟩ :=
        ih (hsnd ▸ hstep cursor hkept) hlater
      refine ⟨c, events ++ earlier', ends, others, hc, (append_assoc ..).symm, ?_, hsplit,
        hafter⟩
      have hstack := readAll?_step settings cursor
      rw [hs] at hstack
      rw [readAll?_append_of_eq hstack, hread]
  | case3 cursor hrest events next hs hlt =>
    rcases split_of_append_eq h with ⟨later, hevents, -⟩ | ⟨earlier, -, hlater⟩
    · -- a step that reads nothing reports no start
      have hmem : Event.start tag attributes unary range ∈ (step settings cursor).1 := by
        simp [hs, hevents]
      have hless := length_lt_of_start hmem
      rw [hs] at hless
      exact absurd hless hlt
    · rcases cons_eq_append_iff.mp hlater with ⟨-, hfirst⟩ | ⟨earlier, -, hclosing⟩
      · cases hfirst
      · have hmem : Event.start tag attributes unary range ∈
            earlier ++ .start tag attributes unary range :: after := by simp
        rw [← hclosing] at hmem
        obtain ⟨_, ht⟩ := mem_closeAll hmem
        cases ht

end ViewTemplate.Markup

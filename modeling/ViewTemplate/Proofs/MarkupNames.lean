import ViewTemplate.Proofs.SourceCoverage
import ViewTemplate.Spelling

/-! # Names in markup

A tag is named by name characters and at most a colon. The name of an attribute has no quotes, blanks
or brackets of tags in it, unless it is a directive with an expression for its argument.
-/

open List Option

namespace ViewTemplate

/-- Names of a start tag that markup can have. -/
structure IsNamed (tag : String) (attributes : List Attribute) : Prop where
  tag : ∀ c ∈ tag.toList, Markup.isNameChar c = true ∨ c = ':'
  attributes : ∀ a ∈ attributes, Spelling.isDirective a.name = true ∨
    ∀ c ∈ a.name.toList, Markup.isAttributeChar c = true

/-- An event with names that markup can have. -/
def Event.IsNamed : Event → Prop
  | .start tag attributes _ _ => ViewTemplate.IsNamed tag attributes
  | _ => True

namespace Spelling

theorem isDirective_of_isPrefix (mark : String) {name : String}
    (hmark : mark ∈ ["v-", "@", ":", "#"]) (h : mark.toList <+: name.toList) :
    isDirective name = true := by
  obtain ⟨rest, hrest⟩ := h
  rw [isDirective, afterDirective?, afterOneOf?, isSome_map, findSome?_isSome_iff]
  refine ⟨mark, hmark, ?_⟩
  rw [← hrest, Text.after?_append, isSome_some]

@[simp] theorem isDirective_short (name : String) : isDirective (":" ++ name) = true :=
  isDirective_of_isPrefix ":" (by simp) (by simp)

@[simp] theorem isDirective_long (name : String) : isDirective ("v-bind:" ++ name) = true :=
  isDirective_of_isPrefix "v-" (by simp) (by simp)

theorem isDirective_of_isSlot {name : String} (h : isSlot name = true) : isDirective name = true := by
  rw [isSlot, afterSlot?] at h
  split at h
  · rename_i hname
    rw [hname]
    decide
  · rw [afterOneOf?, isSome_map, findSome?_isSome_iff] at h
    obtain ⟨mark, hmark, hafter⟩ := h
    obtain ⟨rest, hrest⟩ := isSome_iff_exists.mp hafter
    have hprefix : mark.toList <+: name.toList := ⟨rest, (Text.after?_eq_some_iff.mp hrest).symm⟩
    simp only [mem_cons, not_mem_nil, or_false] at hmark
    rcases hmark with rfl | rfl
    · refine isDirective_of_isPrefix "v-" (by simp) (IsPrefix.trans ?_ hprefix)
      decide
    · exact isDirective_of_isPrefix "#" (by simp) hprefix

end Spelling

namespace Markup

/-- A name with an expression in brackets is a directive. -/
theorem isDirective_of_dynamicName? {s name rest : List Char}
    (h : dynamicName? s = some (name, rest)) : Spelling.isDirective (String.ofList name) = true := by
  obtain ⟨lead, r, hlead, argument, t, -, rfl, -⟩ := exists_of_dynamicName? h
  have hstart (mark : String) (hmark : mark ∈ ["v-", "@", ":", "#"]) (h : mark.toList <+: lead) :
      Spelling.isDirective (String.ofList (lead ++ argument ++ t.takeWhile isAttributeChar)) =
        true := by
    apply Spelling.isDirective_of_isPrefix mark hmark
    rw [String.toList_ofList, append_assoc]
    exact h.trans (prefix_append lead _)
  simp only [dynamicLead?] at hlead
  split at hlead
  · split at hlead
    · split at hlead
      · cases hlead
      · cases hlead
        exact hstart "v-" (by simp) (by simp)
    · cases hlead
  · split at hlead
    · rename_i c _ _ hc
      cases hlead
      simp only [Bool.or_eq_true, decide_eq_true_eq] at hc
      rcases hc with (rfl | rfl) | rfl
      · exact hstart "@" (by simp) (by simp)
      · exact hstart ":" (by simp) (by simp)
      · exact hstart "#" (by simp) (by simp)
    · cases hlead
  · cases hlead

/-- The name of an attribute is a directive or made of the characters that names are made of. -/
theorem name_of_attribute? {s rest : List Char} {a : AttributeText}
    (h : attribute? s = some (a, rest)) : Spelling.isDirective (String.ofList a.name) = true ∨
      ∀ c ∈ a.name, isAttributeChar c = true := by
  simp only [attribute?, bind_eq_bind, Option.pure_def, bind_eq_some_iff,
    Prod.exists] at h
  obtain ⟨name, r, hname, h⟩ := h
  have ha : a.name = name := by
    split at h <;> cases h <;> rfl
  rw [ha]
  rcases or_eq_some_iff.mp hname with hdynamic | ⟨-, hplain⟩
  · exact .inl (isDirective_of_dynamicName? hdynamic)
  · right
    simp only [plainName?] at hplain
    split at hplain
    · cases hplain
    · cases hplain
      exact List.all_eq_true.mp all_takeWhile

theorem names_of_attributes? {offset : Nat} {s text rest : List Char} {as : List PlacedAttribute}
    {selfClosing : Bool} (h : attributes? offset s = some (as, selfClosing, text, rest)) :
    ∀ a ∈ as, Spelling.isDirective (String.ofList a.name) = true ∨
      ∀ c ∈ a.name, isAttributeChar c = true := by
  fun_induction attributes? offset s generalizing as selfClosing text rest with
  | case1 =>
    cases h
    simp
  | case2 => cases h
  | case3 =>
    rename_i ha _ ih
    simp only [map_eq_some_iff, Prod.exists, Prod.mk.injEq] at h
    obtain ⟨others, _, _, _, hr, rfl, -, -, -⟩ := h
    exact forall_mem_cons.mpr ⟨name_of_attribute? ha, ih hr⟩

theorem isNamed_of_startTag? (settings : Settings) {offset : Nat} {s : List Char} {found : Found}
    {name : List Char} {attributes : List PlacedAttribute} {selfClosing : Bool}
    (h : startTag? offset s = some found)
    (hc : found.construct = .startTag name attributes selfClosing) :
    IsNamed (String.ofList name)
      (attributes.map (decodeAttribute settings (String.ofList name))) := by
  obtain ⟨tag, r, ⟨inside, -, hn⟩, as, closing, text, rest, hr, rfl⟩ := exists_of_startTag? h
  cases hc
  constructor
  · rw [String.toList_ofList]
    exact fun c hc => isNameChar_or_colon_of_mem hn hc
  · rw [List.forall_mem_map]
    intro a ha
    rcases names_of_attributes? hr a ha with hdirective | hchars
    · exact .inl hdirective
    · right
      show ∀ c ∈ (String.ofList a.name).toList, isAttributeChar c = true
      rw [String.toList_ofList]
      exact hchars

/-- The events of an end tag have the names of the tag. -/
theorem isNamed_endEvents {tag : String} (h : IsNamed tag []) (range : Range)
    (stack : List String) : ∀ e ∈ (endEvents tag range stack).1, e.IsNamed := by
  intro e he
  rcases mem_endEvents he with ⟨t, rfl⟩ | ⟨-, unary, rfl⟩
  · trivial
  · exact h

theorem isNamed_constructEvents {settings : Settings} {found : Found} {cursor : Cursor}
    (h : construct? cursor.offset cursor.rest = some found) :
    ∀ e ∈ (constructEvents settings found cursor).1, e.IsNamed := by
  simp only [construct?, or_eq_some_iff] at h
  rcases h with h | ⟨-, h | ⟨-, h | ⟨-, h | ⟨-, h⟩⟩⟩⟩
  · obtain ⟨⟨text, hc⟩, -⟩ := comment?_fits h
    simp only [constructEvents, hc]
    intro e he
    split at he
    · split at he
      · rw [mem_singleton] at he
        rw [he]
        trivial
      · cases he
    · cases he
  · obtain ⟨hc, -⟩ := conditional?_fits h
    simp [constructEvents, hc]
  · obtain ⟨hc, -⟩ := doctype?_fits h
    simp [constructEvents, hc]
  · obtain ⟨inside, -, name, r, hn, more, rest, -, rfl⟩ := exists_of_endTag? h
    apply isNamed_endEvents
    refine ⟨?_, forall_mem_nil _⟩
    rw [String.toList_ofList]
    exact fun c hc => isNameChar_or_colon_of_mem hn hc
  · obtain ⟨name, attributes, selfClosing, more, hc, -⟩ := startTag?_fits h
    have hnamed := isNamed_of_startTag? settings h hc
    simp only [constructEvents, hc, fst_startEvents]
    intro e he
    rcases mem_append.mp he with he | he
    · obtain ⟨t, rfl⟩ := impliedEnds_finish he
      trivial
    · rw [mem_singleton] at he
      rw [he]
      exact hnamed

theorem isNamed_step (settings : Settings) (cursor : Cursor) :
    ∀ e ∈ (step settings cursor).1, e.IsNamed := by
  rw [step]
  split
  · rename_i tag htag
    have hraw := (filter_eq_some_iff.mp htag).2
    intro e he
    simp only [rawTextEvents] at he
    split at he
    · rcases mem_cons.mp he with rfl | he
      · trivial
      · obtain ⟨t, rfl⟩ := finish_of_rawText hraw he
        trivial
    · obtain ⟨t, rfl⟩ := finish_of_rawText hraw he
      trivial
  · split
    · rename_i found hfound
      exact isNamed_constructEvents hfound
    · intro e he
      simp only [textEvents] at he
      split at he
      · cases he
      · rw [mem_singleton] at he
        rw [he]
        trivial

/-- What holds of texts, of ends and of all that a step gives, holds of all events. -/
theorem forall_events {P : Event → Prop} {settings : Settings} (source : String)
    (hstep : ∀ cursor, ∀ e ∈ (step settings cursor).1, P e)
    (htext : ∀ content range, P (.text content range))
    (hfinish : ∀ tag range, P (.finish tag range)) : ∀ e ∈ events settings source, P e := by
  have hclose (offset : Nat) (stack : List String) : ∀ e ∈ closeAll offset stack, P e := by
    intro e he
    obtain ⟨t, rfl⟩ := mem_closeAll he
    exact hfinish t _
  rw [events]
  generalize (⟨0, source.toList, []⟩ : Cursor) = cursor
  fun_induction eventsFrom settings cursor with
  | case1 => exact hclose _ _
  | case2 cursor _ events next hstep' _ ih =>
    have hevents := hstep cursor
    rw [hstep'] at hevents
    exact forall_mem_append.mpr ⟨hevents, ih⟩
  | case3 cursor _ events next hstep' _ stop =>
    have hevents := hstep cursor
    rw [hstep'] at hevents
    rw [forall_mem_append, forall_mem_cons]
    exact ⟨hevents, htext _ _, hclose _ _⟩

/-- Tags and attributes are named as markup allows. -/
theorem isNamed_events (settings : Settings) (source : String) :
    ∀ e ∈ events settings source, e.IsNamed :=
  forall_events source (isNamed_step settings) (fun _ _ => trivial) fun _ _ => trivial

end Markup

end ViewTemplate

import ViewTemplate.Compile
import ViewTemplate.Proofs.RespelledCode
import ViewTemplate.Proofs.RespelledMarkup
import ViewTemplate.Proofs.SurroundingBlanks

/-! # Templates in two spellings

A template and the same template with the names of chosen attributes in their long spellings have the
same code, unless the spelling of an empty binding or of a second slot matters.
-/

open List

namespace ViewTemplate

open Text

/-- The events of a template for documents. -/
def webEvents (template : String) : List Event :=
  Markup.events (Tree.markupSettings .web) (onChars trim template)

/-- Those of the chosen places where an attribute starts that can get its long spelling. -/
def longPlaces (chosen : Nat → Bool) (template : String) (p : Nat) : Bool :=
  chosen p && ((webEvents template).flatMap Event.markPlaces).contains p

/-- The template with the attributes at the chosen places in their long spellings. Places are counted
in bytes from the first character that is not blank. -/
def respelled (chosen : Nat → Bool) (template : String) : String :=
  let chars := template.toList
  String.ofList (chars.takeWhile isBlank ++
    Spelling.respell (longPlaces chosen template) 0 (trim chars) ++ trailing chars)

namespace Event

/-- Whether no start tag has a name in both its spellings. -/
def isUnmixed : Event → Bool
  | .start tag l _ _ => (Opening.ofTag tag l).isUnmixed
  | _ => true

/-- Whether the spelling of the attributes at the places makes no difference: none of them is an empty
binding that minds its spelling or a slot after the first. -/
def leavesSpelling (places : Nat → Bool) : Event → Bool
  | .start tag l _ _ =>
    (l.filter (·.isAt places)).all (fun a =>
      (Opening.ofTag tag l).value? a.name ≠ some "" || !(Opening.ofTag tag l).mindsSpelling a.name) &&
    ((l.filter fun a => Spelling.isSlot a.name).drop 1).all fun a => !a.isAt places
  | _ => true

end Event

namespace Spelling

/-- A respelled text has its marks or the words for them at its ends, which are no blanks. -/
theorem isTrimmed_respell (places : Nat → Bool) {s : List Char} (h : IsTrimmed s) :
    IsTrimmed (respell places 0 s) := by
  refine ⟨(lengthened_respell places 0 s).stopsAt h.1 (by decide), ?_⟩
  rcases eq_nil_or_concat' s with rfl | ⟨front, c, rfl⟩
  · exact fun _ hc => nomatch hc
  · have hlast : isBlank c = false := h.2 c (by rw [reverse_append]; rfl)
    -- The last character is followed by nothing, so it is kept or it ends with a colon.
    obtain ⟨d, hd, hblank⟩ : ∃ d, (respell places (0 + byteLength front) [c]).reverse.head? =
        some d ∧ isBlank d = false := by
      rw [respell, respell, append_nil]
      split
      · cases hmark : longMark? c with
        | none => exact ⟨c, rfl, hlast⟩
        | some word =>
          refine ⟨':', ?_, by decide⟩
          rcases longMark?_cases hmark with ⟨-, rfl⟩ | ⟨-, rfl⟩ | ⟨-, rfl⟩ <;> rfl
      · exact ⟨c, rfl, hlast⟩
    intro x hx
    rw [respell_append, reverse_append, head?_append, hd] at hx
    cases hx
    exact hblank

end Spelling

theorem trim_respelled (chosen : Nat → Bool) (template : String) :
    onChars trim (respelled chosen template) =
      String.ofList (Spelling.respell (longPlaces chosen template) 0
        (onChars trim template).toList) := by
  rw [respelled, onChars, String.toList_ofList, toList_onChars]
  congr 1
  exact trim_append (allBlank_takeWhile _)
    (Spelling.isTrimmed_respell _ (isTrimmed_trim _)) (allBlank_trailing _)

theorem webEvents_respelled (chosen : Nat → Bool) (template : String) :
    Forall₂ (Event.Respelled (longPlaces chosen template)) (webEvents template)
      (webEvents (respelled chosen template)) := by
  rw [webEvents, webEvents, trim_respelled]
  refine Markup.respelled_eventsFrom ⟨?_, rfl⟩ ?_
  · rw [String.toList_ofList]
  · intro p _ hp
    rw [longPlaces, Bool.and_eq_true, contains_iff_mem, mem_flatMap] at hp
    exact hp.2

namespace Markup

theorem no_comment_endEvents {tag : String} {range : Range} {stack : List String} {e : Event}
    (h : e ∈ (endEvents tag range stack).1) (content : String) (r : Range) :
    e ≠ .comment content r := by
  rcases mem_endEvents h with ⟨t, rfl⟩ | ⟨-, unary, rfl⟩ <;> exact Event.noConfusion

/-- Comments are events where they are kept only. -/
theorem no_comment_step {settings : Settings} (hkeep : settings.keepComments = false)
    (cursor : Cursor) :
    ∀ e ∈ (step settings cursor).1, ∀ content range, e ≠ .comment content range := by
  intro e he content range
  cases step_case settings cursor with
  | rawText tag _ hstep _ =>
    rw [hstep, rawTextEvents] at he
    split at he
    · rcases mem_cons.mp he with rfl | he
      · exact Event.noConfusion
      · exact no_comment_endEvents he content range
    · exact no_comment_endEvents he content range
  | construct found _ _ hkind hstep _ =>
    rw [hstep, constructEvents] at he
    split at he
    · split at he
      · rw [hkeep, if_neg Bool.false_ne_true] at he
        cases he
      · cases he
    · cases he
    · cases he
    · exact no_comment_endEvents he content range
    · rename_i hconstruct
      exact absurd hconstruct (hkind _ _ _)
  | startTag found name as selfClosing _ _ _ hstep =>
    rw [hstep, fst_startEvents] at he
    rcases mem_append.mp he with he | he
    · obtain ⟨t, rfl⟩ := impliedEnds_finish he
      exact Event.noConfusion
    · rw [mem_singleton.mp he]
      exact Event.noConfusion
  | text _ _ hstep _ =>
    simp only [hstep, textEvents] at he
    split at he
    · cases he
    · rw [mem_singleton.mp he]
      exact Event.noConfusion

end Markup

/-- Events that correspond up to the spelling of names, where the spelling makes no difference. -/
theorem Event.Respelled.alike {places : Nat → Bool} {e e' : Event} (h : e.Respelled places e')
    (hpre : ∀ a ∈ e.attributes, a.name ≠ "v-pre") (hunmixed : e.isUnmixed = true)
    (hunmixed' : e'.isUnmixed = true) (hleaves : e.leavesSpelling places = true)
    (hcomment : ∀ content range, e ≠ .comment content range) : e.Alike (·.isAt places) e' := by
  cases h with
  | finish => exact .finish
  | text => exact .text
  | comment => exact absurd rfl (hcomment _ _)
  | start each =>
    rw [leavesSpelling, Bool.and_eq_true, List.all_eq_true, List.all_eq_true] at hleaves
    refine .start ⟨each, hunmixed, hunmixed', ?_, ?_⟩ hpre
    · intro a ha hat hempty
      have hor := hleaves.1 a (mem_filter.mpr ⟨ha, hat⟩)
      simpa [hempty] using hor
    · intro a ha
      simpa using hleaves.2 a ha

theorem alike_webEvents {chosen : Nat → Bool} {template : String}
    (hpre : ∀ e ∈ webEvents template, ∀ a ∈ e.attributes, a.name ≠ "v-pre")
    (hunmixed : ∀ e ∈ webEvents template, e.isUnmixed = true)
    (hunmixed' : ∀ e ∈ webEvents (respelled chosen template), e.isUnmixed = true)
    (hleaves : ∀ e ∈ webEvents template,
      e.leavesSpelling (longPlaces chosen template) = true) :
    Forall₂ (Event.Alike (·.isAt (longPlaces chosen template))) (webEvents template)
      (webEvents (respelled chosen template)) := by
  have hcomment : ∀ e ∈ webEvents template, ∀ content range, e ≠ .comment content range :=
    Markup.forall_events _ (Markup.no_comment_step rfl) (fun _ _ _ _ => Event.noConfusion)
      (fun _ _ _ _ => Event.noConfusion)
  have hevents := webEvents_respelled chosen template
  rw [forall₂_iff_get] at hevents ⊢
  obtain ⟨hlength, hget⟩ := hevents
  refine ⟨hlength, fun i h h' => ?_⟩
  have hmem := List.get_mem (webEvents template) ⟨i, h⟩
  exact (hget i h h').alike (hpre _ hmem) (hunmixed _ hmem)
    (hunmixed' _ (List.get_mem _ ⟨i, h'⟩)) (hleaves _ hmem) (hcomment _ hmem)

/-- Marks and words mean the same. -/
theorem compile_respelled (chosen : Nat → Bool) (template : String)
    (hpre : ∀ e ∈ webEvents template, ∀ a ∈ e.attributes, a.name ≠ "v-pre")
    (hunmixed : ∀ e ∈ webEvents template, e.isUnmixed = true)
    (hunmixed' : ∀ e ∈ webEvents (respelled chosen template), e.isUnmixed = true)
    (hleaves : ∀ e ∈ webEvents template,
      e.leavesSpelling (longPlaces chosen template) = true) :
    (compile .web (respelled chosen template)).render = (compile .web template).render ∧
      (compile .web (respelled chosen template)).functions = (compile .web template).functions := by
  have htree := Tree.alike_ofTemplate (alike_webEvents hpre hunmixed hunmixed' hleaves)
  have hprogram : (compile .web (respelled chosen template)).program =
      (compile .web template).program := htree.marked.program
  exact ⟨congrArg Render.Program.renderBody hprogram,
    congrArg Render.Program.functionBodies hprogram⟩

/-- A component with a binding, a listener and a slot, and in it a binding with a dynamic name. -/
theorem compile_respelled_of_component :
    let short := " <c :id=\"a\" @click.stop=\"f\" #x=\"y\"><b :[k]=\"v\">t</b></c>"
    let long :=
      " <c v-bind:id=\"a\" v-on:click.stop=\"f\" v-slot:x=\"y\"><b v-bind:[k]=\"v\">t</b></c>"
    respelled (fun _ => true) short = long ∧
      (compile .web long).render = (compile .web short).render ∧
      (compile .web long).functions = (compile .web short).functions := by
  intro short long
  have hlong : respelled (fun _ => true) short = long := by decide +kernel
  have hsame := compile_respelled (fun _ => true) short (by decide +kernel) (by decide +kernel)
    (by decide +kernel) (by decide +kernel)
  rw [hlong] at hsame
  exact ⟨hlong, hsame⟩

/-- An empty binding of the class is passed over in the short spelling and taken in the long one. -/
theorem empty_class_minds_spelling :
    let short := "<p :class=\"\"></p>"
    let long := "<p v-bind:class=\"\"></p>"
    respelled (fun _ => true) short = long ∧
      (∀ e ∈ webEvents short, ∀ a ∈ e.attributes, a.name ≠ "v-pre") ∧
      (∀ e ∈ webEvents short ++ webEvents long, e.isUnmixed = true) ∧
      (compile .web short).render = "with(this)\x7breturn _c('p',\x7b\x7d)\x7d" ∧
      (compile .web long).render = "with(this)\x7breturn _c('p',\x7bclass:\x7d)\x7d" := by
  decide +kernel

end ViewTemplate

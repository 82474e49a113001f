import ViewTemplate.Compile
import ViewTemplate.Proofs.GeneratedRanges
import ViewTemplate.Proofs.SurroundingBlanks

/-! # Places of diagnostics

Whatever a compilation reports at a place, the place is a stretch of the template as it was given. The
blanks around a template are read over: they move the places of what is reported and change nothing
else.
-/

open List Option

namespace ViewTemplate

open Text

namespace Range

/-- A stretch of a part of a source is, further on, one of the source. -/
theorem LiesIn.shift {before inside after : List Char} {r : Range}
    (h : r.LiesIn (String.ofList inside)) :
    (r.shift (byteLength before)).LiesIn (String.ofList (before ++ inside ++ after)) := by
  have hsplit {n : Nat}
      (hn : (splitAtByte? (String.ofList inside).toList n).isSome = true) :
      (splitAtByte? (String.ofList (before ++ inside ++ after)).toList
        (n + byteLength before)).isSome = true := by
    rw [String.toList_ofList] at hn ⊢
    obtain ⟨front, back, rfl, hlength⟩ := isSome_splitAtByte?_iff.mp hn
    refine isSome_splitAtByte?_iff.mpr ⟨before ++ front, back ++ after, ?_, ?_⟩
    · simp only [append_assoc]
    · rw [byteLength_append, hlength, Nat.add_comm]
  exact ⟨Nat.add_le_add_right h.ordered _, hsplit h.start, hsplit h.stop⟩

end Range

theorem Diagnostic.isSome_context {d : Diagnostic} {r : Range} {source : String}
    (hr : d.range = some r) (h : r.LiesIn source) (width : Nat) :
    (d.context source width).isSome = true := by
  obtain ⟨split, hsplit⟩ := isSome_iff_exists.mp h.start
  rw [Diagnostic.context, hr, bind_eq_bind, bind_some, hsplit]
  rfl

/-- What is reported about a trimmed template lies in it. -/
theorem liesIn_compileTrimmed {options : Options}
    (hextensions : ∀ x ∈ options.extensions, x.BringsNoRanges)
    (hrules : ∀ rule ∈ options.rules.values, rule.BringsNoRanges) (template : String) :
    Reported.Ensures (Range.LiesIn template) (fun _ => True) (compileTrimmed options template) := by
  refine (Tree.within_ofTemplate hextensions template).bind fun tree htree => ?_
  have hmarked : (if options.optimize then tree.marked options else tree).Within
      (Range.LiesIn template) := by
    split
    · exact htree.marked options
    · exact htree
  exact (hmarked.program hrules).bind fun _ _ => .pure trivial

/-- Nothing is reported about an empty template. -/
theorem notes_compileTrimmed_empty (options : Options) : (compileTrimmed options "").notes = [] := by
  have hevents : Markup.events (Tree.markupSettings options) "" = [] := by
    rw [Markup.events, Markup.eventsFrom]
    rfl
  have htree : Tree.ofTemplate options "" = pure {} := by
    rw [Tree.ofTemplate, hevents]
    rfl
  rw [compileTrimmed, htree]
  cases hoptimize : options.optimize with
  | false => rfl
  | true => rfl

section Blanks

variable {options : Options} {before inside after : List Char}

/-- Blanks around a text are all that compilation takes off it. -/
theorem trim_surrounded (hbefore : allBlank before = true) (hinside : IsTrimmed inside)
    (hafter : allBlank after = true) :
    onChars trim (String.ofList (before ++ inside ++ after)) = String.ofList inside := by
  rw [onChars, String.toList_ofList, trim_append hbefore hinside hafter]

theorem Diagnostic.split_shift (offset : Nat) (notes : List Diagnostic) :
    Diagnostic.split (notes.map (Diagnostic.shift offset)) =
      ((Diagnostic.split notes).1.map (Diagnostic.shift offset),
        (Diagnostic.split notes).2.map (Diagnostic.shift offset)) := by
  rw [Diagnostic.split, Diagnostic.split, List.filter_map, List.filter_map]
  rfl

/-- A template without blanks around it is compiled as it is. -/
theorem compile_of_isTrimmed (hinside : IsTrimmed inside) :
    let result := compileTrimmed options (String.ofList inside)
    compile options (String.ofList inside) =
      { tree := result.value.1, program := result.value.2
        errors := (Diagnostic.split result.notes).1
        tips := (Diagnostic.split result.notes).2 } := by
  have hzero (notes : List Diagnostic) : notes.map (Diagnostic.shift 0) = notes := by
    refine map_id'' (fun d => ?_) notes
    obtain ⟨cause, range, level⟩ := d
    cases range <;> rfl
  have htrim : onChars trim (String.ofList inside) = String.ofList inside := by
    rw [onChars, String.toList_ofList, trim_of_isTrimmed hinside]
  have hleading : (String.ofList inside).toList.takeWhile isBlank = [] := by
    rw [String.toList_ofList]
    exact hinside.1.takeWhile_of_all (forall_mem_nil _)
  simp only [compile]
  rw [htrim, hleading]
  exact congrArg (fun notes => Compiled.mk _ _ (Diagnostic.split notes).1
    (Diagnostic.split notes).2) (hzero _)

/-- Blanks around a template move what is reported, by the bytes before it, and nothing else. About
an empty template nothing is reported, so it does not matter on which side of it blanks stand. -/
theorem compile_surrounded (hbefore : allBlank before = true)
    (hinside : IsTrimmed inside) (hafter : allBlank after = true) :
    let alone := compile options (String.ofList inside)
    compile options (String.ofList (before ++ inside ++ after)) =
      { alone with
        errors := alone.errors.map (Diagnostic.shift (byteLength before))
        tips := alone.tips.map (Diagnostic.shift (byteLength before)) } := by
  have hmoved : (compileTrimmed options (String.ofList inside)).notes.map
      (Diagnostic.shift (byteLength ((before ++ inside ++ after).takeWhile isBlank))) =
      (compileTrimmed options (String.ofList inside)).notes.map
        (Diagnostic.shift (byteLength before)) := by
    by_cases hne : inside = []
    · have hnotes : (compileTrimmed options (String.ofList inside)).notes = [] := by
        rw [hne]
        exact notes_compileTrimmed_empty options
      rw [hnotes, map_nil, map_nil]
    · rw [takeWhile_append_of_isTrimmed hbefore hinside hne]
  simp only [compile_of_isTrimmed hinside]
  simp only [compile]
  rw [trim_surrounded hbefore hinside hafter, String.toList_ofList, hmoved, Diagnostic.split_shift]

end Blanks

theorem Compiled.mem_diagnostics_compile {options : Options} {template : String} {d : Diagnostic}
    (h : d ∈ (compile options template).diagnostics) :
    ∃ note ∈ (compileTrimmed options (onChars trim template)).notes,
      d = note.shift (byteLength (template.toList.takeWhile isBlank)) := by
  have hmem : d ∈ (compileTrimmed options (onChars trim template)).notes.map
      (Diagnostic.shift (byteLength (template.toList.takeWhile isBlank))) := by
    rcases mem_append.mp h with h | h
    · exact mem_of_mem_filter h
    · exact mem_of_mem_filter h
  obtain ⟨note, hnote, rfl⟩ := List.mem_map.mp hmem
  exact ⟨note, hnote, rfl⟩

/-- What is reported about a template lies in the template as it was given. -/
theorem liesIn_of_mem_diagnostics {options : Options}
    (hextensions : ∀ x ∈ options.extensions, x.BringsNoRanges)
    (hrules : ∀ rule ∈ options.rules.values, rule.BringsNoRanges) {template : String}
    {d : Diagnostic} (h : d ∈ (compile options template).diagnostics) {r : Range}
    (hr : d.range = some r) : r.LiesIn template := by
  obtain ⟨note, hnote, rfl⟩ := Compiled.mem_diagnostics_compile h
  obtain ⟨inner, hinner, rfl⟩ := map_eq_some_iff.mp hr
  have hlies : inner.LiesIn (String.ofList (trim template.toList)) :=
    (liesIn_compileTrimmed hextensions hrules _).2 note hnote inner hinner
  have hshift : Range.LiesIn
      (String.ofList (template.toList.takeWhile isBlank ++ trim template.toList ++
        trailing template.toList))
      (inner.shift (byteLength (template.toList.takeWhile isBlank))) :=
    hlies.shift
  rw [append_trim_append, String.ofList_toList] at hshift
  exact hshift

/-- Diagnostics point into the template, and blanks around it move them by as many bytes as stand
before it. -/
theorem compile_places (options : Options) :
    ((∀ x ∈ options.extensions, x.BringsNoRanges) →
      (∀ rule ∈ options.rules.values, rule.BringsNoRanges) →
      ∀ (template : String), ∀ d ∈ (compile options template).diagnostics,
        ∀ r, d.range = some r →
          r.start ≤ r.stop ∧ r.stop ≤ byteLength template.toList ∧
          (splitAtByte? template.toList r.start).isSome = true ∧
          (splitAtByte? template.toList r.stop).isSome = true ∧
          (d.context template 40).isSome = true) ∧
    ∀ before inside after : List Char,
      allBlank before = true → IsTrimmed inside → allBlank after = true →
      let alone := compile options (String.ofList inside)
      let surrounded := compile options (String.ofList (before ++ inside ++ after))
      surrounded.render = alone.render ∧ surrounded.functions = alone.functions ∧
        surrounded.errors = alone.errors.map (Diagnostic.shift (byteLength before)) ∧
        surrounded.tips = alone.tips.map (Diagnostic.shift (byteLength before)) := by
  constructor
  · intro hextensions hrules template d hd r hr
    have hlies := liesIn_of_mem_diagnostics hextensions hrules hd hr
    exact ⟨hlies.ordered, hlies.stop_le, hlies.start, hlies.stop, d.isSome_context hr hlies 40⟩
  · intro before inside after hbefore hinside hafter
    rw [compile_surrounded hbefore hinside hafter]
    exact ⟨rfl, rfl, rfl, rfl⟩

/-- Errors after a wide blank and a line feed, about a letter of two bytes and behind it. -/
theorem compile_places_of_orphan :
    (compile .web "\u3000\n<p>é<b v-else></b></p> ").errors =
        [⟨.ignoredText "é", some ⟨7, 9⟩, .error⟩, ⟨.orphanElse "b" none, some ⟨12, 18⟩, .error⟩] ∧
      18 ≤ byteLength "\u3000\n<p>é<b v-else></b></p> ".toList ∧
      (compile .web "\u3000\n<p>é<b v-else></b></p> ").render =
        (compile .web "<p>é<b v-else></b></p>").render ∧
      (compile .web "\u3000\n<p>é<b v-else></b></p> ").errors =
        (compile .web "<p>é<b v-else></b></p>").errors.map (Diagnostic.shift 4) := by
  have herrors : (compile .web "\u3000\n<p>é<b v-else></b></p> ").errors =
      [⟨.ignoredText "é", some ⟨7, 9⟩, .error⟩,
        ⟨.orphanElse "b" none, some ⟨12, 18⟩, .error⟩] := by
    decide +kernel
  have htrimmed : IsTrimmed "<p>é<b v-else></b></p>".toList := by
    have htrim : trim "<p>é<b v-else></b></p>".toList = "<p>é<b v-else></b></p>".toList := by
      decide +kernel
    rw [← htrim]
    exact isTrimmed_trim _
  have hplace := (compile_places .web).1 Extension.bringsNoRanges_web Rule.bringsNoRanges_web
    "\u3000\n<p>é<b v-else></b></p> " ⟨.orphanElse "b" none, some ⟨12, 18⟩, .error⟩
    (mem_append_left _ (herrors ▸ mem_cons_of_mem _ mem_cons_self)) ⟨12, 18⟩ rfl
  have hmoved := (compile_places .web).2 "\u3000\n".toList "<p>é<b v-else></b></p>".toList
    " ".toList (by decide +kernel) htrimmed (by decide +kernel)
  exact ⟨herrors, hplace.2.1, hmoved.1, hmoved.2.2.1⟩

end ViewTemplate

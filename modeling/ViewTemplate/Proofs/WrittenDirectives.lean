import ViewTemplate.Element.Classification
import ViewTemplate.Proofs.LongSpelling

/-! # Written directives

A directive is written as a name after `v-`, an argument after a colon and modifiers after dots. The
modifiers are cut off behind the last bracket, the argument behind the first colon, so that an
argument in brackets may hold dots, colons and brackets of its own. Classification finds the parts
again, and adds nothing to the element but the directive.
-/

open List Option

namespace ViewTemplate.Spelling

/-! ## Modifiers -/

/-- Modifiers as they are written, each after a dot. -/
def dotted (modifiers : List String) : List Char := modifiers.flatMap fun m => '.' :: m.toList

/-- Modifiers as they are read: without any, there is not even an empty set. -/
def modifierSet (modifiers : List String) : Option Modifiers :=
  if modifiers.isEmpty then none else some (Modifiers.ofNames modifiers)

/-- A text that stands for itself between dots. -/
structure IsPlainPart (x : String) : Prop where
  ne_empty : x ≠ ""
  no_dot : '.' ∉ x.toList
  no_bracket : ']' ∉ x.toList

variable {modifiers : List String}

theorem splitOn_dotted (h : ∀ m ∈ modifiers, IsPlainPart m) :
    Text.splitOn '.' (dotted modifiers) = [] :: modifiers.map String.toList := by
  induction modifiers with
  | nil => rfl
  | cons m modifiers ih =>
    rw [forall_mem_cons] at h
    have hpieces := splitOn_append '.' h.1.no_dot (ih h.2)
    rw [append_nil] at hpieces
    rw [dotted, flatMap_cons, cons_append, Text.splitOn, ← dotted, hpieces]
    rfl

theorem cutModifiers_dotted (h : ∀ m ∈ modifiers, IsPlainPart m) :
    cutModifiers (dotted modifiers) = ([], modifiers.map String.toList) := by
  have hne (p : List Char) (hp : p ∈ modifiers.map String.toList) : p.isEmpty = false := by
    obtain ⟨m, hm, rfl⟩ := mem_map.mp hp
    simpa using (h m hm).ne_empty
  have hcount : (modifiers.map String.toList).countP isEmpty = 0 :=
    countP_eq_zero.mpr fun p hp => by rw [hne p hp]; decide
  rw [cutModifiers, splitOn_dotted h]
  simp only [hcount, replicate_zero, append_nil]
  rw [filter_eq_self.mpr fun p hp => by rw [hne p hp]; rfl]

theorem not_mem_dotted (h : ∀ m ∈ modifiers, IsPlainPart m) : ']' ∉ dotted modifiers := by
  intro hmem
  obtain ⟨m, hm, hin⟩ := mem_flatMap.mp hmem
  rcases mem_cons.mp hin with hdot | hin
  · exact absurd hdot (by decide)
  · exact (h m hm).no_bracket hin

theorem splitModifiers_of_cutBrackets {front : List Char} (h : ∀ m ∈ modifiers, IsPlainPart m)
    (hcut : cutBrackets (front ++ dotted modifiers) = (front, dotted modifiers)) :
    splitModifiers (String.ofList (front ++ dotted modifiers)) =
      (String.ofList front, modifierSet modifiers) := by
  rw [splitModifiers, String.toList_ofList, hcut]
  simp only [cutModifiers_dotted h]
  cases modifiers with
  | nil => simp [dotted, modifierSet]
  | cons m modifiers =>
    simp [modifierSet, Function.comp_def]

/-- Without brackets, the modifiers start at the first dot. -/
theorem splitModifiers_dotted {name : String} (hdot : '.' ∉ name.toList)
    (hbracket : ']' ∉ name.toList) (h : ∀ m ∈ modifiers, IsPlainPart m) :
    splitModifiers (name ++ String.ofList (dotted modifiers)) = (name, modifierSet modifiers) := by
  have hcut : cutBrackets ([] ++ dotted modifiers) = ([], dotted modifiers) := by
    rw [nil_append, cutBrackets, Text.cutLast?_of_not_mem (not_mem_dotted h)]
  have hsplit := splitModifiers_of_cutBrackets h hcut
  rw [nil_append] at hsplit
  rw [splitModifiers_append hdot hbracket, hsplit]
  simp

/-- Nothing before the last bracket is a modifier. -/
theorem splitModifiers_bracket_dotted (x : String) (h : ∀ m ∈ modifiers, IsPlainPart m) :
    splitModifiers (x ++ "]" ++ String.ofList (dotted modifiers)) =
      (x ++ "]", modifierSet modifiers) := by
  have hcut : cutBrackets (x.toList ++ [']'] ++ dotted modifiers) =
      (x.toList ++ [']'], dotted modifiers) := by
    rw [cutBrackets, append_assoc, singleton_append, Text.cutLast?_append_cons _ (not_mem_dotted h)]
  have hsplit := splitModifiers_of_cutBrackets h hcut
  rwa [String.ofList_append, String.ofList_append, String.ofList_toList] at hsplit

/-! ## Arguments -/

/-- The argument of a directive: left out, a text, or an expression. -/
inductive WrittenArgument
  | absent
  | text (x : String)
  | expression (x : String)

namespace WrittenArgument

/-- What stands after the colon. -/
def body? : WrittenArgument → Option String
  | absent => none
  | text x => some x
  | expression x => some ("[" ++ x ++ "]")

/-- What the argument is read as: its text, and whether it is an expression. -/
def reading : WrittenArgument → Option (String × Bool)
  | absent => none
  | text x => some (x, false)
  | expression x => some (x, true)

/-- The argument with its colon. -/
def written (a : WrittenArgument) : String := (a.body?.map (":" ++ ·)).getD ""

end WrittenArgument

theorem argument_of_not_mem {x : String} (h : ']' ∉ x.toList) : argument x = (x, false) := by
  rw [argument]
  split
  · rename_i rest hx
    rw [hx, mem_cons, not_or] at h
    exact if_neg fun hlast => h.2 (mem_of_getLast? hlast)
  · rfl

theorem argument_brackets (x : String) : argument ("[" ++ x ++ "]") = (x, true) := by
  simp [argument]

/-- A directive as its author means it. -/
structure WrittenDirective where
  name : String
  argument : WrittenArgument
  modifiers : List String
  name_ne_empty : name ≠ ""
  name_plain : ∀ c ∈ ['.', ':', ']'], c ∉ name.toList
  /-- With an argument, these are no directives but bindings and listeners. -/
  name_general : argument ≠ .absent → name ∉ ["bind", "on"]
  argument_plain : ∀ x, argument = .text x → IsPlainPart x
  modifiers_plain : ∀ m ∈ modifiers, IsPlainPart m
  modifiers_distinct : modifiers.Nodup

namespace WrittenDirective

open WrittenArgument (body?)

variable (w : WrittenDirective) (a : Attribute)

/-- The directive without its modifiers. -/
def base : String := w.name ++ w.argument.written

/-- The name of the attribute. -/
def text : String := "v-" ++ w.base ++ String.ofList (dotted w.modifiers)

theorem splitModifiers_text : splitModifiers w.text = ("v-" ++ w.base, modifierSet w.modifiers) := by
  have hdot := w.name_plain '.' (by simp)
  have hbracket := w.name_plain ']' (by simp)
  rw [text]
  cases hargument : w.argument with
  | absent =>
    have hbase : w.base = w.name := by simp [base, hargument, WrittenArgument.written, body?]
    rw [hbase]
    exact splitModifiers_dotted (by simpa using hdot) (by simpa using hbracket) w.modifiers_plain
  | text x =>
    have hx := w.argument_plain x hargument
    have hbase : w.base = w.name ++ (":" ++ x) := by
      simp [base, hargument, WrittenArgument.written, body?]
    rw [hbase]
    exact splitModifiers_dotted (by simpa using ⟨hdot, hx.no_dot⟩)
      (by simpa using ⟨hbracket, hx.no_bracket⟩) w.modifiers_plain
  | expression x =>
    have hbase : "v-" ++ w.base = "v-" ++ w.name ++ ":[" ++ (x ++ "]") := by
      simp [base, hargument, WrittenArgument.written, body?, ← String.toList_inj]
    rw [hbase, String.append_assoc, splitModifiers_append (by simpa using hdot)
      (by simpa using hbracket), splitModifiers_bracket_dotted x w.modifiers_plain]

/-- The colon before the argument is the first one of all. -/
theorem cut?_base :
    Text.cut? [':'] w.base.toList = w.argument.body?.map fun b => (w.name.toList, b.toList) := by
  have hcolon := w.name_plain ':' (by simp)
  rw [base, WrittenArgument.written]
  cases w.argument.body? with
  | none => simpa using Text.cut?_of_not_mem hcolon []
  | some b => simpa using Text.cut?_append_of_not_mem hcolon [] b.toList

theorem splitArgument_base : splitArgument w.base = (w.name, w.argument.body?) := by
  rw [splitArgument, cut?_base]
  cases hargument : w.argument with
  | absent => simp [base, hargument, WrittenArgument.written, body?]
  | text x => simpa [body?] using (w.argument_plain x hargument).ne_empty
  | expression x => simp [body?, String.append_assoc]

/-- Only a binding or a listener starts as these do. -/
theorem not_start_of_mem (word : String) {mark : String} (h : word ∈ ["bind", "on"])
    (hmark : mark = "v-" ++ word ++ ":") : ¬ mark.toList <+: ("v-" ++ w.base).toList := by
  rintro ⟨rest, hrest⟩
  have hcolon : ':' ∉ word.toList := by
    rcases mem_cons.mp h with rfl | hon
    · decide
    · rw [mem_singleton.mp hon]
      decide
  have hbase : w.base.toList = word.toList ++ ([':'] ++ rest) := by
    simpa [hmark] using hrest.symm
  have hcut := w.cut?_base
  rw [hbase, Text.cut?_append_of_not_mem hcolon] at hcut
  obtain ⟨b, hb, hparts⟩ := map_eq_some_iff.mp hcut.symm
  have hname : w.name = word := String.toList_inj.mp (Prod.mk.inj hparts).1
  refine w.name_general ?_ (hname ▸ h)
  intro habsent
  rw [habsent] at hb
  cases hb

theorem map_argument_body? : w.argument.body?.map Spelling.argument = w.argument.reading := by
  cases hargument : w.argument with
  | absent => rfl
  | text x =>
    exact congrArg some (argument_of_not_mem (w.argument_plain x hargument).no_bracket)
  | expression x => exact congrArg some (argument_brackets x)

/-- The name of the attribute gives all parts back. -/
theorem role_text :
    role w.text = .directive w.name w.argument.reading (modifierSet w.modifiers) := by
  have hdirective : isDirective w.text = true := by
    rw [text, String.append_assoc]
    exact isDirective_of_isPrefix "v-" (by simp) (by simp)
  have hbinding : afterBinding? ("v-" ++ w.base) = none := by
    have hstart : ¬ "v-bind:".toList <+: ("v-" ++ w.base).toList :=
      w.not_start_of_mem "bind" (by simp) rfl
    rw [afterBinding?, afterOneOf?_cons_of_not_start _ (by simp), afterOneOf?_cons_of_not_start _ hstart]
    rfl
  have hlistener : afterListener? ("v-" ++ w.base) = none := by
    have hstart : ¬ "v-on:".toList <+: ("v-" ++ w.base).toList :=
      w.not_start_of_mem "on" (by simp) rfl
    rw [afterListener?, afterOneOf?_cons_of_not_start _ (by simp), afterOneOf?_cons_of_not_start _ hstart]
    rfl
  have hafter : afterDirective? ("v-" ++ w.base) = some w.base := afterOneOf?_append _ _ _
  simp only [role, hdirective, if_true, splitModifiers_text, hbinding, hlistener, hafter, getD_some,
    splitArgument_base, map_argument_body?]

/-- The directive that is meant, with a value and a place. -/
def directive (a : Attribute) : Directive where
  name := w.name
  rawName := w.text
  value := a.value
  argument := w.argument.reading.map Prod.fst
  dynamicArgument := w.argument.reading.any Prod.snd
  modifiers :=
    if w.modifiers.isEmpty then none
    else some ⟨w.modifiers.map (·, ()), by simpa [Function.comp_def] using w.modifiers_distinct⟩
  range := a.range

theorem modifierSet_eq : modifierSet w.modifiers = (w.directive a).modifiers := by
  rw [modifierSet, directive]
  split
  · rfl
  · refine congrArg some (Keyed.ext ?_)
    exact Keyed.entries_foldl_insert _ {} (by simpa [Function.comp_def] using w.modifiers_distinct)

end WrittenDirective

end ViewTemplate.Spelling

namespace ViewTemplate.Element

open Spelling

/-- An element with one more directive. -/
def withDirective (el : Element) (d : Directive) : Element :=
  { el with hasBindings := true, plain := false, directives := el.directives ++ [d] }

theorem value_classify_text (w : WrittenDirective) (surroundings : Surroundings)
    (loopItems : List String) (el : Element) (a : Attribute) :
    (el.classify surroundings loopItems { a with name := w.text }).value =
      el.withDirective (w.directive a) := by
  rw [classify, w.role_text, w.modifierSet_eq a]
  rfl

/-- A written directive adds itself to the element, and nothing else, after what the attributes before
it do and before what those behind it do. -/
theorem value_classifyAll_written (w : WrittenDirective) (surroundings : Surroundings)
    (loopItems : List String) {el : Element} (before after : List Attribute) (a : Attribute)
    (h : el.pending = before ++ { a with name := w.text } :: after) :
    (el.classifyAll surroundings loopItems).value =
      (after.foldlM (classify surroundings loopItems)
        ((before.foldlM (classify surroundings loopItems) el).value.withDirective
          (w.directive a))).value := by
  rw [classifyAll, h, foldlM_append, Reported.value_bind, foldlM_cons, Reported.value_bind,
    value_classify_text]

/-- An argument with dots, colons and brackets in it, and two modifiers. -/
def nestedArgument : WrittenDirective where
  name := "my-dir"
  argument := .expression "a[b.c]:d"
  modifiers := ["x", "y:z"]
  name_ne_empty := by decide
  name_plain := by simp
  name_general := fun _ => by decide
  argument_plain := fun x hx => by cases hx
  modifiers_plain := by
    rw [forall_mem_cons, forall_mem_singleton]
    exact ⟨⟨by decide, by decide, by decide⟩, by decide, by decide, by decide⟩
  modifiers_distinct := by decide

theorem value_classifyAll_nestedArgument :
    nestedArgument.text = "v-my-dir:[a[b.c]:d].x.y:z" ∧
      (Element.classifyAll {} []
          { tag := "p", pending := [{ name := nestedArgument.text, value := "v" }] }).value.directives =
        [{ name := "my-dir", rawName := "v-my-dir:[a[b.c]:d].x.y:z", value := "v"
           argument := some "a[b.c]:d", dynamicArgument := true
           modifiers := some (Modifiers.ofNames ["x", "y:z"]) }] := by
  refine ⟨by decide, ?_⟩
  rw [value_classifyAll_written nestedArgument {} [] [] [] ⟨"", "v", false, none⟩ rfl]
  decide

end ViewTemplate.Element

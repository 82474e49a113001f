import Mathlib.Data.List.Basic
import ViewTemplate.Expression.Path
import ViewTemplate.Proofs.SurroundingBlanks

/-! # Segments of model paths

A model path is a name with segments behind it: names after dots, and texts in brackets. It is cut before
the last segment, however many there are and whatever brackets, quotes and dots the texts hold. The scan
for brackets is followed over one segment and then over all of them.
-/

open List

namespace ViewTemplate.Path

variable {i depth : Nat} {found : Brackets} {s rest : List Char}

/-- Names have no dots, square brackets, quotes or blanks. -/
structure IsName (s : List Char) : Prop where
  ne_nil : s ≠ []
  plain : ∀ c ∈ s, c ≠ '.' ∧ c ≠ '[' ∧ c ≠ ']' ∧ isQuote c = false ∧ Text.isBlank c = false

/-- In the text of an index brackets are paired, except for those in quotes. -/
inductive IsIndex : List Char → Prop
  | nil : IsIndex []
  | plain {c : Char} {s : List Char} (hopen : c ≠ '[') (hclose : c ≠ ']') (hquote : isQuote c = false)
      (h : IsIndex s) : IsIndex (c :: s)
  | quoted {q : Char} {inside s : List Char} (hq : isQuote q = true) (hinside : q ∉ inside)
      (h : IsIndex s) : IsIndex (q :: inside ++ q :: s)
  | nested {inside s : List Char} (hinside : IsIndex inside) (h : IsIndex s) :
      IsIndex ('[' :: inside ++ ']' :: s)

inductive Segment
  | name (text : List Char) (h : IsName text)
  | index (text : List Char) (h : IsIndex text)

namespace Segment

def text : Segment → List Char
  | name text _ => '.' :: text
  | index text _ => '[' :: text ++ [']']

/-- The code of the key that a segment stands for. -/
def key : Segment → List Char
  | name text _ => '"' :: text ++ ['"']
  | index text _ => text

end Segment

/-- A path in its parts. -/
structure Written where
  base : List Char
  isName : IsName base
  segments : List Segment

def Written.text (p : Written) : List Char := p.base ++ p.segments.flatMap Segment.text

/-! ## The scan for brackets -/

theorem brackets_quoted {q : Char} (h : q ∉ s) :
    brackets i found (.quotedInside q depth) (s ++ q :: rest) =
      brackets (i + s.length + 1) found (.inside depth) rest := by
  induction s generalizing i with
  | nil => simp [brackets]
  | cons c s ih =>
    rw [mem_cons, not_or] at h
    rw [cons_append, brackets, if_neg (Ne.symm h.1), ih h.2, length_cons, Nat.add_right_comm i 1,
      Nat.add_assoc i]

theorem brackets_opening : brackets i found (.inside depth) ('[' :: rest) =
    brackets (i + 1) found (.inside (depth + 1)) rest := rfl

theorem brackets_closing : brackets i found (.inside (depth + 2)) (']' :: rest) =
    brackets (i + 1) found (.inside (depth + 1)) rest := rfl

/-- The text of an index leaves the scan where it was. -/
theorem brackets_index (h : IsIndex s) :
    brackets i found (.inside (depth + 1)) (s ++ rest) =
      brackets (i + s.length) found (.inside (depth + 1)) rest := by
  induction h generalizing i depth rest with
  | nil => rfl
  | plain hopen hclose hquote _ ih =>
    simp only [cons_append, brackets, hquote, hopen, hclose, if_false, Bool.false_eq_true, ih,
      length_cons]
    congr 1
    omega
  | quoted hq hinside _ ih =>
    simp only [cons_append, append_assoc, brackets, hq, if_true, brackets_quoted hinside, ih,
      length_cons, length_append]
    congr 1
    omega
  | nested _ _ ihinside ih =>
    simp only [cons_append, append_assoc, brackets_opening, ihinside, brackets_closing, ih,
      length_cons, length_append]
    congr 1
    omega

theorem brackets_outside (h : ∀ c ∈ s, isQuote c = false ∧ c ≠ '[') :
    brackets i found .outside (s ++ rest) = brackets (i + s.length) found .outside rest := by
  induction s generalizing i with
  | nil => rfl
  | cons c s ih =>
    rw [forall_mem_cons] at h
    simp only [cons_append, brackets, h.1, if_false, Bool.false_eq_true, ih h.2, length_cons]
    congr 1
    omega

/-- What is found after a segment that starts at a position. -/
def Segment.foundAt (i : Nat) (found : Brackets) : Segment → Brackets
  | name _ _ => found
  | index text _ => ⟨i, i + 1 + text.length⟩

theorem IsName.outside (h : IsName s) : ∀ c ∈ s, isQuote c = false ∧ c ≠ '[' := fun c hc =>
  ⟨(h.plain c hc).2.2.2.1, (h.plain c hc).2.1⟩

theorem brackets_segment (segment : Segment) :
    brackets i found .outside (segment.text ++ rest) =
      brackets (i + segment.text.length) (segment.foundAt i found) .outside rest := by
  cases segment with
  | name text h => exact brackets_outside (forall_mem_cons.mpr ⟨by decide, h.outside⟩)
  | index text h =>
    have hindex : brackets (i + 1) { found with opened := i } (.inside 1) (text ++ ']' :: rest) = _ :=
      brackets_index h
    have hlength : i + ('[' :: text ++ [']']).length = i + 1 + text.length + 1 := by
      simp only [cons_append, length_cons, length_append, length_nil]
      omega
    rw [Segment.text, hlength, append_assoc]
    exact hindex

/-- After any segments the scan finds the brackets of the last one. -/
theorem brackets_segments (segments : List Segment) (h : IsIndex s) :
    brackets i found .outside (segments.flatMap Segment.text ++ ('[' :: s ++ [']'])) =
      (Segment.index s h).foundAt (i + (segments.flatMap Segment.text).length) found := by
  induction segments generalizing i found with
  | nil =>
    have hlast := @brackets_segment i found [] (.index s h)
    rw [append_nil] at hlast
    exact hlast
  | cons segment segments ih =>
    rw [flatMap_cons, append_assoc, brackets_segment, ih, length_append, Nat.add_assoc]
    rfl

/-! ## Paths -/

theorem IsName.not_mem (h : IsName s) : '.' ∉ s ∧ '[' ∉ s ∧ ']' ∉ s :=
  ⟨fun hmem => (h.plain _ hmem).1 rfl, fun hmem => (h.plain _ hmem).2.1 rfl,
    fun hmem => (h.plain _ hmem).2.2.1 rfl⟩

theorem trim_append_eq {base : List Char} (hbase : IsName base)
    (h : ∀ c ∈ (base ++ s).getLast?, Text.isBlank c = false) : Text.trim (base ++ s) = base ++ s := by
  refine Text.trim_of_isTrimmed ⟨?_, ?_⟩
  · obtain ⟨c, r, rfl⟩ := exists_cons_of_ne_nil hbase.ne_nil
    rintro d ⟨⟩
    exact (hbase.plain c mem_cons_self).2.2.2.2
  · rw [Text.StopsAt, head?_reverse]
    exact h

theorem brackets_text (p : Written) (h : IsIndex s) :
    brackets 1 {} .outside ((p.text ++ ('[' :: s ++ [']'])).drop 1) =
      ⟨p.text.length, p.text.length + 1 + s.length⟩ := by
  obtain ⟨base, hbase, segments⟩ := p
  obtain ⟨c, r, rfl⟩ := exists_cons_of_ne_nil hbase.ne_nil
  have houtside := (forall_mem_cons.mp hbase.outside).2
  rw [Written.text, append_assoc, cons_append, drop_succ_cons, drop_zero, brackets_outside houtside,
    brackets_segments segments h, cons_append, length_cons, length_append, Nat.add_comm 1,
    Nat.add_right_comm]
  rfl

theorem splitChars_index (p : Written) {text : List Char} (h : IsIndex text) :
    splitChars (p.text ++ ('[' :: text ++ [']'])) = (p.text, some text) := by
  have htrim : Text.trim (p.text ++ ('[' :: text ++ [']'])) = p.text ++ ('[' :: text ++ [']']) := by
    rw [Written.text, append_assoc]
    apply trim_append_eq p.isName
    rw [← append_assoc, ← append_assoc, getLast?_concat]
    rintro c ⟨⟩
    decide
  have hcondition : ((p.text ++ ('[' :: text ++ [']'])).contains '[' &&
      (p.text ++ ('[' :: text ++ [']'])).getLast? == some ']') = true := by
    rw [← append_assoc, getLast?_concat]
    simp
  rw [splitChars]
  simp only [htrim, hcondition, if_true, brackets_text p h]
  have hparts : p.text ++ ('[' :: text ++ [']']) = p.text ++ ['['] ++ text ++ [']'] := by simp
  have hlength : (p.text ++ ['['] ++ text).length = p.text.length + 1 + text.length := by
    rw [length_append, length_append, length_singleton]
  rw [take_left, hparts, take_left' hlength, drop_left' (by rw [length_append, length_singleton])]

theorem splitChars_name (p : Written) {text : List Char} (h : IsName text) :
    splitChars (p.text ++ '.' :: text) = (p.text, some ('"' :: text ++ ['"'])) := by
  have hlast : (p.text ++ '.' :: text).getLast? = text.getLast? := by
    rw [append_cons, getLast?_append_of_ne_nil _ h.ne_nil]
  have htrim : Text.trim (p.text ++ '.' :: text) = p.text ++ '.' :: text := by
    rw [Written.text, append_assoc]
    apply trim_append_eq p.isName
    rw [← append_assoc, ← Written.text, hlast]
    intro c hc
    exact (h.plain c (mem_of_getLast? hc)).2.2.2.2
  have hcondition : (p.text ++ '.' :: text).getLast? ≠ some ']' := by
    rw [hlast]
    exact fun hclose => h.not_mem.2.2 (mem_of_getLast? hclose)
  rw [splitChars]
  simp only [htrim, beq_eq_false_iff_ne.mpr hcondition, Bool.and_false, Bool.false_eq_true, if_false,
    Text.cutLast?_append_cons p.text h.not_mem.1]

theorem splitChars_base (h : IsName s) : splitChars s = (s, none) := by
  have htrim := trim_append_eq (s := []) h fun c hc => by
    rw [append_nil] at hc
    exact (h.plain c (mem_of_getLast? hc)).2.2.2.2
  rw [append_nil] at htrim
  rw [splitChars]
  simp only [htrim]
  rw [if_neg (by simp [h.not_mem]), Text.cutLast?_of_not_mem h.not_mem.1]

/-- A path is cut before its last segment, and a value is set through the object there; a path without
segments is assigned to. -/
theorem split_before_last (p : Written) (last : Segment) (value : String) :
    split (String.ofList (p.text ++ last.text)) =
        (String.ofList p.text, some (String.ofList last.key)) ∧
      assign (String.ofList (p.text ++ last.text)) value =
        "$set(" ++ String.ofList p.text ++ ", " ++ String.ofList last.key ++ ", " ++ value ++ ")" ∧
      split (String.ofList p.base) = (String.ofList p.base, none) ∧
      assign (String.ofList p.base) value = String.ofList p.base ++ "=" ++ value := by
  have hlast : splitChars (p.text ++ last.text) = (p.text, some last.key) := by
    cases last with
    | name text h => exact splitChars_name p h
    | index text h => exact splitChars_index p h
  have hbase := splitChars_base p.isName
  simp only [split, assign, String.toList_ofList, hlast, hbase, Option.map_some, Option.map_none,
    and_self]

end ViewTemplate.Path

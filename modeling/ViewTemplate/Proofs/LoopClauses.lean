import Mathlib.Data.List.Basic
import Mathlib.Data.List.DropRight
import Mathlib.Data.List.TakeWhile
import ViewTemplate.Expression.Loop
import ViewTemplate.Proofs.SurroundingBlanks

/-! # Loop clauses in their parts

A loop clause names an item, by a variable or a pattern, and up to two iterators, and gives the source
of the items behind a keyword. It is cut at the first keyword between blanks, which is the one it was
written with, because the parts before it have none. The commas of a pattern are not taken for those
before iterators, because a bracket closes behind them.
-/

open List

namespace ViewTemplate.Loop

open Text

variable {s t : List Char}

def keywords : List (List Char) := [['i', 'n'], ['o', 'f']]

/-- A keyword stands between two blanks. -/
def HasKeyword (s : List Char) : Prop :=
  ∃ left keyword right, isBlank left = true ∧ keyword ∈ keywords ∧ isBlank right = true ∧
    left :: keyword ++ [right] <:+: s

/-- Names of items and iterators have no blanks, commas, parentheses, braces or brackets. -/
structure IsVariable (s : List Char) : Prop where
  ne_nil : s ≠ []
  plain : ∀ c ∈ s, isBlank c = false ∧ c ∉ [',', '(', ')', '\x7b', '\x7d', '[', ']']

/-- Patterns are enclosed in braces or brackets. -/
structure IsPattern (s : List Char) : Prop where
  opens : ∃ c ∈ ['\x7b', '['], s.head? = some c
  closes : ∃ c ∈ ['\x7d', ']'], s.getLast? = some c
  free : ¬ HasKeyword s

/-- What an element of the source is bound to. -/
structure Item where
  text : List Char
  isItem : IsVariable text ∨ IsPattern text

/-- What stands before the keyword: an item alone, or in parentheses with its iterators. -/
inductive Binder
  | bare (item : Item)
  | enclosed (item : Item) (iterators : List { s // IsVariable s }) (h : iterators.length ≤ 2)

namespace Binder

def item : Binder → Item
  | bare item => item
  | enclosed item _ _ => item

def iterators : Binder → List { s // IsVariable s }
  | bare _ => []
  | enclosed _ iterators _ => iterators

/-- Items and iterators with a comma between two of them. -/
def parts (b : Binder) : List Char := b.item.text ++ b.iterators.flatMap fun i => ',' :: ' ' :: i.1

def text (b : Binder) : List Char :=
  match b with
  | bare _ => b.parts
  | enclosed _ _ _ => '(' :: b.parts ++ [')']

/-- The loop over a source. -/
def loop (b : Binder) (source : List Char) : Loop where
  source := String.ofList source
  item := String.ofList b.item.text
  iterator1 := b.iterators[0]?.map fun i => String.ofList i.1
  iterator2 := b.iterators[1]?.map fun i => String.ofList i.1

end Binder

/-! ## Keywords -/

/-- A text without a character does not reach over it. -/
theorem infix_or_infix {l : List Char} {c : Char} (hc : c ∉ l) (h : l <:+: s ++ c :: t) :
    l <:+: s ∨ l <:+: t := by
  obtain ⟨before, after, heq⟩ := h
  rw [append_assoc] at heq
  rcases append_eq_append_iff.mp heq with ⟨m, rfl, hrest⟩ | ⟨m, rfl, hrest⟩
  · rcases append_eq_append_iff.mp hrest with ⟨r, rfl, -⟩ | ⟨r, rfl, hr⟩
    · exact .inl ⟨before, r, append_assoc _ _ _⟩
    · cases r with
      | nil => exact .inl ⟨before, [], by rw [append_nil, append_nil]⟩
      | cons d r =>
        obtain ⟨rfl, -⟩ := cons.inj hr
        exact absurd (mem_append_right m mem_cons_self) hc
  · cases m with
    | nil =>
      cases l with
      | nil => exact .inl nil_infix
      | cons d l =>
        obtain ⟨rfl, -⟩ := cons.inj hrest
        exact absurd mem_cons_self hc
    | cons d m =>
      obtain ⟨-, rfl⟩ := cons.inj hrest
      exact .inr ⟨m, after, append_assoc _ _ _⟩

/-- A character that is neither blank nor in a keyword separates the keywords of a text. -/
theorem not_hasKeyword_append {c : Char} (hblank : isBlank c = false)
    (hletter : ∀ keyword ∈ keywords, c ∉ keyword) (hs : ¬ HasKeyword s) (ht : ¬ HasKeyword t) :
    ¬ HasKeyword (s ++ c :: t) := by
  rintro ⟨left, keyword, right, hleft, hkeyword, hright, hinfix⟩
  have hc : c ∉ left :: keyword ++ [right] := by
    simp only [cons_append, mem_cons, mem_append, not_mem_nil, or_false, not_or]
    refine ⟨?_, hletter keyword hkeyword, ?_⟩ <;> rintro rfl <;> simp_all
  rcases infix_or_infix hc hinfix with h | h
  · exact hs ⟨left, keyword, right, hleft, hkeyword, hright, h⟩
  · exact ht ⟨left, keyword, right, hleft, hkeyword, hright, h⟩

theorem HasKeyword.of_infix (h : HasKeyword s) (hst : s <:+: t) : HasKeyword t := by
  obtain ⟨left, keyword, right, hleft, hkeyword, hright, hinfix⟩ := h
  exact ⟨left, keyword, right, hleft, hkeyword, hright, hinfix.trans hst⟩

theorem not_hasKeyword_of_countP (h : s.countP isBlank ≤ 1) : ¬ HasKeyword s := by
  rintro ⟨left, keyword, right, hleft, -, hright, before, after, rfl⟩
  simp only [cons_append, countP_append, countP_cons, hleft, hright, countP_nil, if_true] at h
  omega

theorem afterKeyword?_eq_some {r : List Char} (h : afterKeyword? s = some r) :
    ∃ keyword ∈ keywords, ∃ right after, isBlank right = true ∧ s = keyword ++ right :: after := by
  rw [afterKeyword?] at h
  obtain ⟨rest, hrest, hnext⟩ := Option.bind_eq_some_iff.mp h
  have hkeyword : ∃ keyword ∈ keywords, s = keyword ++ rest := by
    rw [Option.or_eq_some_iff] at hrest
    rcases hrest with hin | ⟨-, hof⟩
    · exact ⟨_, mem_cons_self, after?_eq_some_iff.mp hin⟩
    · exact ⟨_, mem_cons_of_mem _ mem_cons_self, after?_eq_some_iff.mp hof⟩
  obtain ⟨keyword, hmem, hs⟩ := hkeyword
  cases rest with
  | nil => cases hnext
  | cons right after =>
    dsimp only at hnext
    split at hnext
    · rename_i hright
      exact ⟨keyword, hmem, right, after, hright, hs⟩
    · cases hnext

/-- A blank in front of the last one is not followed by a keyword. -/
theorem afterKeyword?_eq_none {c : Char} {more : List Char} (hc : isBlank c = true)
    (hs : allBlank s = false) (hfree : ¬ HasKeyword (c :: s ++ [' '])) :
    afterKeyword? (trimStart (s ++ ' ' :: more)) = none := by
  rw [Option.eq_none_iff_forall_ne_some]
  intro r hsome
  obtain ⟨keyword, hkeyword, right, after, hright, heq⟩ := afterKeyword?_eq_some hsome
  have hne : trimStart s ≠ [] := fun hnil => by
    rw [trimStart_eq_nil_iff, hs] at hnil
    cases hnil
  rw [trimStart, dropWhile_append, ← trimStart, if_neg (by simpa using hne)] at heq
  -- the keyword and the blank behind it end before what follows the last blank
  have hnear : ∃ far, trimStart s ++ [' '] = keyword ++ right :: far := by
    have hspace : ∀ keyword ∈ keywords, ' ' ∉ keyword := by decide
    rcases append_eq_append_iff.mp heq with ⟨m, hk, hm⟩ | ⟨m, hk, hm⟩
    · cases m with
      | nil =>
        obtain ⟨rfl, -⟩ := cons.inj hm
        exact ⟨[], by rw [hk, append_nil]⟩
      | cons d m =>
        obtain ⟨rfl, -⟩ := cons.inj hm
        exact absurd (hk ▸ mem_append_right _ mem_cons_self) (hspace keyword hkeyword)
    · cases m with
      | nil =>
        obtain ⟨rfl, -⟩ := cons.inj hm
        exact ⟨[], by rw [hk, append_nil]⟩
      | cons d m =>
        obtain ⟨rfl, -⟩ := cons.inj hm
        exact ⟨m ++ [' '], by rw [hk, append_assoc, cons_append]⟩
  obtain ⟨far, hfar⟩ := hnear
  obtain ⟨before, left, hleft⟩ := (eq_nil_or_concat (c :: s.takeWhile isBlank)).resolve_left (by simp)
  have hblank : isBlank left = true := by
    have hall : ∀ d ∈ c :: s.takeWhile isBlank, isBlank d = true :=
      forall_mem_cons.mpr ⟨hc, all_eq_true.mp all_takeWhile⟩
    exact hall left (by rw [hleft]; simp)
  refine hfree ⟨left, keyword, right, hblank, hkeyword, hright, before, far, ?_⟩
  calc before ++ (left :: keyword ++ [right]) ++ far
      = before ++ [left] ++ (keyword ++ right :: far) := by simp
    _ = c :: s.takeWhile isBlank ++ (trimStart s ++ [' ']) := by rw [hleft, concat_eq_append, hfar]
    _ = c :: s ++ [' '] := by
      rw [← append_assoc, cons_append, takeWhile_append_trimStart]

theorem cutKeyword?_cons (c : Char) (s : List Char) :
    cutKeyword? (c :: s) = (if isBlank c then afterKeyword? (trimStart s) else none).elim
      ((cutKeyword? s).map fun cut => (c :: cut.1, cut.2)) fun rest => some ([], rest) := by
  conv_lhs => unfold cutKeyword?
  cases (if isBlank c then afterKeyword? (trimStart s) else none) <;> rfl

/-- The clause is cut at the keyword behind a text that has none and does not end with a blank. -/
theorem cutKeyword?_append {keyword : List Char} (hkeyword : keyword ∈ keywords) (source : List Char)
    (hlast : ∀ c ∈ s.getLast?, isBlank c = false) (hfree : ¬ HasKeyword (s ++ [' '])) :
    cutKeyword? (s ++ ' ' :: (keyword ++ ' ' :: source)) = some (s, trimStart source) := by
  induction s with
  | nil =>
    simp only [keywords, mem_cons, not_mem_nil, or_false] at hkeyword
    rcases hkeyword with rfl | rfl <;> rfl
  | cons c s ih =>
    have hrest : ∀ d ∈ s.getLast?, isBlank d = false := fun d hd =>
      hlast d (by rw [Option.mem_def, getLast?_cons, Option.mem_def.mp hd, Option.getD_some])
    have hnone : (if isBlank c then afterKeyword? (trimStart (s ++ ' ' :: (keyword ++ ' ' :: source)))
        else none) = none := by
      cases hc : isBlank c with
      | false => rfl
      | true =>
        refine afterKeyword?_eq_none hc ?_ hfree
        cases hs : s.getLast? with
        | none =>
          rw [getLast?_eq_none_iff.mp hs, getLast?_singleton] at hlast
          exact absurd hc (by simp [hlast c])
        | some d => exact all_eq_false.mpr ⟨d, mem_of_getLast? hs, by simp [hrest d hs]⟩
    have hfree' : ¬ HasKeyword (s ++ [' ']) := fun h => hfree (h.of_infix (suffix_cons c _).isInfix)
    rw [cons_append, cutKeyword?_cons, hnone, Option.elim_none, ih hrest hfree', Option.map_some]

/-! ## Binders -/

theorem stripParens_of_ends (hopen : s.head? ≠ some '(') (hclose : s.getLast? ≠ some ')') :
    stripParens s = s := by
  unfold stripParens
  split
  · exact absurd rfl hopen
  · dsimp only
    split
    · rename_i heq
      rw [← head?_reverse, heq] at hclose
      exact absurd rfl hclose
    · rfl

namespace Item

variable (item : Item)

theorem not_hasKeyword : ¬ HasKeyword (item.text ++ [' ']) := by
  rcases item.isItem with h | h
  · refine not_hasKeyword_of_countP ?_
    rw [countP_append, countP_eq_zero.mpr fun c hc => by simp [(h.plain c hc).1]]
    decide
  · obtain ⟨c, hc, hlast⟩ := h.closes
    obtain ⟨r, hr⟩ := getLast?_eq_some_iff.mp hlast
    have hplain : ∀ c ∈ ['\x7d', ']'], isBlank c = false ∧ ∀ keyword ∈ keywords, c ∉ keyword := by
      simp only [keywords, mem_cons, not_mem_nil, or_false, forall_eq_or_imp, forall_eq]
      decide
    rw [hr, append_assoc, singleton_append]
    refine not_hasKeyword_append (hplain c hc).1 (hplain c hc).2 ?_ (not_hasKeyword_of_countP (by decide))
    exact fun hkeyword => h.free (hkeyword.of_infix (hr ▸ (prefix_append r [c]).isInfix))

/-- An item has neither parentheses nor blanks at its ends. -/
theorem ends (c : Char) (hc : item.text.head? = some c ∨ item.text.getLast? = some c) :
    isBlank c = false ∧ c ≠ '(' ∧ c ≠ ')' := by
  rcases item.isItem with h | h
  · obtain ⟨hblank, hplain⟩ := h.plain c (hc.elim mem_of_head? mem_of_getLast?)
    simp only [mem_cons, not_or] at hplain
    exact ⟨hblank, hplain.2.1, hplain.2.2.1⟩
  · have hends : ∀ c ∈ ['\x7b', '[', '\x7d', ']'], isBlank c = false ∧ c ≠ '(' ∧ c ≠ ')' := by
      simp only [mem_cons, not_mem_nil, or_false, forall_eq_or_imp, forall_eq]
      decide
    refine hends c ?_
    obtain ⟨first, hfirst, hhead⟩ := h.opens
    obtain ⟨last, hlast, hend⟩ := h.closes
    rcases hc with hc | hc
    · rw [Option.some.inj (hc.symm.trans hhead)]
      exact mem_append_left ['\x7d', ']'] hfirst
    · rw [Option.some.inj (hc.symm.trans hend)]
      exact mem_append_right ['\x7b', '['] hlast

theorem trim_text : trim item.text = item.text := by
  refine trim_of_isTrimmed ⟨fun c hc => (item.ends c (.inl hc)).1, fun c hc => (item.ends c (.inr ?_)).1⟩
  rwa [head?_reverse] at hc

/-- A bracket closes behind each comma of an item. -/
theorem closes_behind {before after : List Char} (h : item.text = before ++ ',' :: after) :
    ∃ c ∈ after, isIteratorChar c = false ∧ c ≠ ',' := by
  have hcloses : ∀ c ∈ ['\x7d', ']'], isIteratorChar c = false ∧ c ≠ ',' := by
    simp only [mem_cons, not_mem_nil, or_false, forall_eq_or_imp, forall_eq]
    decide
  rcases item.isItem with hvariable | hpattern
  · refine absurd (hvariable.plain ',' ?_).2 (by decide)
    exact h ▸ mem_append_right before mem_cons_self
  · obtain ⟨c, hc, hlast⟩ := hpattern.closes
    refine ⟨c, ?_, hcloses c hc⟩
    rw [h, getLast?_append_of_ne_nil _ (cons_ne_nil _ _)] at hlast
    exact (mem_cons.mp (mem_of_getLast? hlast)).resolve_left (hcloses c hc).2

end Item

namespace Binder

variable (b : Binder)

theorem ends (c : Char) (hc : b.text.head? = some c ∨ b.text.getLast? = some c) : isBlank c = false := by
  cases b with
  | bare item =>
    rw [text, parts, iterators, flatMap_nil, append_nil] at hc
    exact (item.ends c hc).1
  | enclosed item iterators h =>
    rw [text, getLast?_concat, cons_append, head?_cons] at hc
    rcases hc with hc | hc <;> cases hc <;> decide

theorem trim_text : trim b.text = b.text := by
  refine trim_of_isTrimmed ⟨fun c hc => b.ends c (.inl hc), fun c hc => b.ends c (.inr ?_)⟩
  rwa [head?_reverse] at hc

theorem not_hasKeyword_parts (iterators : List { s // IsVariable s }) (h : ¬ HasKeyword s) :
    ¬ HasKeyword (s ++ iterators.flatMap fun i => ',' :: ' ' :: i.1) := by
  induction iterators generalizing s with
  | nil => rwa [flatMap_nil, append_nil]
  | cons i iterators ih =>
    rw [flatMap_cons, ← append_assoc]
    refine ih (not_hasKeyword_append (by decide) (by decide) h (not_hasKeyword_of_countP ?_))
    rw [countP_cons, countP_eq_zero.mpr fun c hc => by simp [(i.2.plain c hc).1]]
    decide

theorem not_hasKeyword : ¬ HasKeyword (b.text ++ [' ']) := by
  cases b with
  | bare item =>
    rw [text, parts, iterators, flatMap_nil, append_nil]
    exact item.not_hasKeyword
  | enclosed item iterators h =>
    have hitem : ¬ HasKeyword item.text := fun hkeyword =>
      item.not_hasKeyword (hkeyword.of_infix (prefix_append _ _).isInfix)
    have hspace : ¬ HasKeyword [' '] := not_hasKeyword_of_countP (by decide)
    rw [text, append_assoc, singleton_append]
    exact not_hasKeyword_append (s := []) (by decide) (by decide)
      (not_hasKeyword_of_countP (Nat.zero_le 1)) (not_hasKeyword_append (by decide) (by decide)
        (not_hasKeyword_parts iterators hitem) hspace)

theorem stripParens_text : stripParens b.text = b.parts := by
  cases b with
  | bare item =>
    rw [text, parts, iterators, flatMap_nil, append_nil]
    exact stripParens_of_ends (fun hc => (item.ends _ (.inl hc)).2.1 rfl)
      (fun hc => (item.ends _ (.inr hc)).2.2 rfl)
  | enclosed item iterators h => simp [text, stripParens]

end Binder

/-! ## Iterators -/

theorem iterators?_eq_none (h : ∃ c ∈ s, isIteratorChar c = false ∧ c ≠ ',') :
    iterators? s = none := by
  obtain ⟨c, hc, hclosing, hcomma⟩ := h
  have hdrop : c ∈ s.dropWhile isIteratorChar := by
    rw [← takeWhile_append_dropWhile (p := isIteratorChar) (l := s), mem_append] at hc
    refine hc.resolve_left fun htake => ?_
    rw [mem_takeWhile_imp htake] at hclosing
    cases hclosing
  rw [iterators?]
  split
  · rename_i heq
    rw [heq] at hdrop
    cases hdrop
  · rename_i r heq
    rw [heq] at hdrop
    have hr : r.all isIteratorChar = false :=
      all_eq_false.mpr ⟨c, (mem_cons.mp hdrop).resolve_left hcomma, by rw [hclosing]; decide⟩
    rw [hr]
    rfl
  · rfl

theorem cutIterators?_cons (c : Char) (s : List Char) :
    cutIterators? (c :: s) = (if c = ',' then iterators? s else none).elim
      ((cutIterators? s).map fun cut => (c :: cut.1, cut.2)) fun found => some ([], found) := by
  rw [cutIterators?]
  cases (if c = ',' then iterators? s else none) <;> rfl

/-- Nothing is cut at a comma before a closing bracket. -/
theorem cutIterators?_append
    (h : ∀ before after, s = before ++ ',' :: after → ∃ c ∈ after, isIteratorChar c = false ∧ c ≠ ',') :
    cutIterators? (s ++ t) = (cutIterators? t).map fun cut => (s ++ cut.1, cut.2) := by
  induction s with
  | nil => exact Option.map_id.symm ▸ rfl
  | cons c s ih =>
    have hnone : (if c = ',' then iterators? (s ++ t) else none) = none := by
      split
      · rename_i hc
        obtain ⟨d, hd, hcloses⟩ := h [] s (by rw [hc, nil_append])
        exact iterators?_eq_none ⟨d, mem_append_left t hd, hcloses⟩
      · rfl
    rw [cons_append, cutIterators?_cons, hnone, Option.elim_none,
      ih fun before after heq => h (c :: before) after (by rw [heq, cons_append]), Option.map_map]
    rfl

theorem iterators?_of_all (hs : s.all isIteratorChar = true) : iterators? s = some (s, none) := by
  rw [all_eq_true] at hs
  rw [iterators?, dropWhile_eq_nil_iff.mpr hs, takeWhile_eq_self_iff.mpr hs]

theorem iterators?_comma (hs : s.all isIteratorChar = true) (ht : t.all isIteratorChar = true) :
    iterators? (s ++ ',' :: t) = some (s, some t) := by
  rw [all_eq_true] at hs
  have hcomma : ¬ isIteratorChar ',' = true := by decide
  rw [iterators?, dropWhile_append_of_pos hs, takeWhile_append_of_pos hs, dropWhile_cons_of_neg hcomma,
    takeWhile_cons_of_neg hcomma, append_nil]
  exact if_pos ht

namespace IsVariable

theorem isIteratorChar (h : IsVariable s) : (' ' :: s).all isIteratorChar = true := by
  rw [all_cons, Bool.and_eq_true, all_eq_true]
  refine ⟨by decide, fun c hc => ?_⟩
  have hplain := (h.plain c hc).2
  simp only [mem_cons, not_or] at hplain
  simp [Loop.isIteratorChar, hplain]

theorem trim_space (h : IsVariable s) : trim (' ' :: s) = s := by
  have hs : IsTrimmed s := ⟨fun c hc => (h.plain c (mem_of_head? hc)).1,
    fun c hc => (h.plain c (mem_reverse.mp (mem_of_head? hc))).1⟩
  have hblank : allBlank [' '] = true := by decide
  have htrim : trim ([' '] ++ s ++ []) = s := trim_append hblank hs rfl
  rwa [append_nil] at htrim

end IsVariable

theorem Binder.cutIterators?_parts (b : Binder) : cutIterators? b.parts = b.iterators[0]?.map fun i =>
    (b.item.text, ' ' :: i.1, b.iterators[1]?.map fun j => ' ' :: j.1) := by
  rw [parts, cutIterators?_append fun _ _ => b.item.closes_behind]
  have hlength : b.iterators.length ≤ 2 := by
    cases b with
    | bare item => exact Nat.zero_le 2
    | enclosed item iterators h => exact h
  generalize b.iterators = iterators at hlength ⊢
  rcases iterators with _ | ⟨i, _ | ⟨j, _ | ⟨k, l⟩⟩⟩
  · rfl
  · rw [flatMap_singleton, cutIterators?_cons, if_pos rfl, iterators?_of_all i.2.isIteratorChar]
    simp
  · have hfound := iterators?_comma i.2.isIteratorChar j.2.isIteratorChar
    rw [flatMap_cons, flatMap_singleton, cons_append, cutIterators?_cons, if_pos rfl, hfound]
    simp
  · simp at hlength

/-- A clause is read in its parts. -/
theorem read?_written (b : Binder) (keyword source : List Char) (hkeyword : keyword ∈ keywords)
    (hsource : trim source = source) :
    read? (String.ofList (b.text ++ ' ' :: (keyword ++ ' ' :: source))) = some (b.loop source) := by
  have hcut := cutKeyword?_append hkeyword source (fun c hc => b.ends c (.inr hc)) b.not_hasKeyword
  have htrim : trim (trimStart source) = source := by
    rw [trim, trimStart, trimStart, dropWhile_idempotent]
    exact hsource
  simp only [read?, String.toList_ofList, hcut, htrim, b.trim_text,
    b.stripParens_text, b.cutIterators?_parts, Option.bind_eq_bind, Option.bind_some, Binder.loop]
  cases hl : b.iterators with
  | nil => simp [Binder.parts, hl]
  | cons i l =>
    cases l with
    | nil => simp [b.item.trim_text, i.2.trim_space]
    | cons j l => simp [b.item.trim_text, i.2.trim_space, j.2.trim_space, j.2.ne_nil]

/-- A pattern with two iterators, and a source with a keyword and a comma. -/
theorem read?_written_pattern :
    read? "(\x7ba, b\x7d, i, j) of x in (y, z)" = some
      { source := "x in (y, z)", item := "\x7ba, b\x7d", iterator1 := "i", iterator2 := "j" } := by
  have hfree : ¬ HasKeyword "\x7ba, b\x7d".toList := not_hasKeyword_of_countP (by decide)
  have hpattern : IsPattern "\x7ba, b\x7d".toList := ⟨by simp, by simp, hfree⟩
  have hi : IsVariable ['i'] := ⟨cons_ne_nil _ _, by simp; decide⟩
  have hj : IsVariable ['j'] := ⟨cons_ne_nil _ _, by simp; decide⟩
  exact read?_written (.enclosed ⟨_, .inr hpattern⟩ [⟨['i'], hi⟩, ⟨['j'], hj⟩] (Nat.le_refl 2))
    ['o', 'f'] "x in (y, z)".toList (by decide) (by decide)

end ViewTemplate.Loop

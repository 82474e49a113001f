import Mathlib.Data.List.Basic
import ViewTemplate.Proofs.BalancedCode

/-! # Literals in generated source

A text that goes into generated source is quoted, and then its line and paragraph separators are
escaped. Both layers together write each character so that it is read back as it was. The literal ends
at its last quote, so the check of the code around it goes on as after an empty literal.
-/

open List

namespace ViewTemplate.Json

open Text ViewTemplate.Balanced

variable {c : Char}

/-- A quote in a written character is escaped, and nothing after it is. -/
theorem Written.escapes {text : List Char} (h : Written c text) :
    endsEscaped text = false ∧ ∀ a b, text = a ++ '"' :: b → endsEscaped a = true := by
  cases h with
  | plain hquote hslash _ =>
    refine ⟨by simp [endsEscaped, hslash], fun a b heq => ?_⟩
    have hmem : '"' ∈ [c] := heq ▸ mem_append_right a mem_cons_self
    exact absurd (mem_singleton.mp hmem).symm hquote
  | escape _ =>
    refine ⟨rfl, fun a b heq => ?_⟩
    match a with
    | [] => cases heq
    | [d] => cases heq; rfl
    | _ :: _ :: _ => simp at heq
  | @unicode x y z w h =>
    have hne := ne_of_hexUnit? h
    simp only [forall_mem_cons] at hne
    refine ⟨by simp [endsEscaped, hne], fun a b heq => ?_⟩
    have hmem : '"' ∈ ['\\', 'u', x, y, z, w] := heq ▸ mem_append_right a mem_cons_self
    simp [hne, Ne.symm] at hmem

/-- All quotes in a written text are escaped. -/
theorem escapes_flatMap {write : Char → List Char} (h : ∀ c, Written c (write c))
    (s : List Char) : endsEscaped (s.flatMap write) = false ∧
      ∀ a b, s.flatMap write = a ++ '"' :: b → endsEscaped a = true := by
  induction s with
  | nil => exact ⟨rfl, fun a b heq => by simp at heq⟩
  | cons c s ih =>
    obtain ⟨hend, hquotes⟩ := (h c).escapes
    rw [flatMap_cons, endsEscaped, escapedAfter_append]
    rw [endsEscaped] at hend
    refine ⟨by rw [hend]; exact ih.1, fun a b heq => ?_⟩
    rcases append_eq_append_iff.mp heq with ⟨more, rfl, hrest⟩ | ⟨more, hfirst, hrest⟩
    · rw [endsEscaped, escapedAfter_append, hend]
      exact ih.2 more b hrest
    · cases more with
      | nil => cases ih.2 [] b hrest.symm
      | cons d more =>
        cases hrest
        exact hquotes a more hfirst

end ViewTemplate.Json

namespace ViewTemplate.Text

open Json

/-- How a character is written in a literal of generated source. -/
def sourceChar (c : Char) : List Char := escapeSeparatorsChars (escapeChar c)

theorem toList_sourceLiteral (s : String) :
    (sourceLiteral s).toList = '"' :: s.toList.flatMap sourceChar ++ ['"'] := by
  rw [sourceLiteral, escapeSeparators, quote, toList_onChars, toList_onChars, quoteChars,
    escapeSeparatorsChars, flatMap_append, flatMap_cons, flatMap_assoc]
  rfl

/-- An escape is made of visible ASCII characters. -/
theorem visible_escapeChar (c : Char) :
    ∀ d ∈ escapeChar c, 0x20 ≤ d.toNat ∧ (d = c ∨ d.toNat < 0x80) := by
  have hhex : ∀ n < 16, 0x20 ≤ (hexDigit n).toNat ∧ (hexDigit n).toNat < 0x80 := by decide
  rw [escapeChar]
  split_ifs with _ _ _ _ _ _ _ hcontrol
  iterate 7 · simp
  · have hhigh := hhex (c.toNat / 16) (by omega)
    have hlow := hhex (c.toNat % 16) (by omega)
    simp [escapeControl, hhigh, hlow]
  · simpa using hcontrol

/-- A separator is written by its number, and all else as in any quoted text. -/
theorem sourceChar_eq (c : Char) :
    sourceChar c = if c.toNat = 0x2028 then "\\u2028".toList
      else if c.toNat = 0x2029 then "\\u2029".toList else escapeChar c := by
  split_ifs with hline hparagraph
  · have hc : c = Char.ofNat 0x2028 := by rw [← hline, Char.ofNat_toNat]
    rw [hc]
    decide
  · have hc : c = Char.ofNat 0x2029 := by rw [← hparagraph, Char.ofNat_toNat]
    rw [hc]
    decide
  · have hkept : ∀ d ∈ escapeChar c, d.toNat ≠ 0x2028 ∧ d.toNat ≠ 0x2029 := by
      intro d hd
      rcases (visible_escapeChar c d hd).2 with rfl | hlt
      · exact ⟨hline, hparagraph⟩
      · omega
    calc sourceChar c
        = (escapeChar c).flatMap List.singleton := by
          apply flatMap_congr
          intro d hd
          rw [if_neg (hkept d hd).1, if_neg (hkept d hd).2]
          rfl
      _ = escapeChar c := flatMap_singleton' _

theorem written_sourceChar (c : Char) : Written c (sourceChar c) := by
  rw [sourceChar_eq]
  split_ifs with hline hparagraph
  · exact .unicode (hline ▸ rfl)
  · exact .unicode (hparagraph ▸ rfl)
  · exact written_escapeChar c

theorem visible_sourceChar (c : Char) :
    ∀ d ∈ sourceChar c, 0x20 ≤ d.toNat ∧ d.toNat ≠ 0x2028 ∧ d.toNat ≠ 0x2029 := by
  rw [sourceChar_eq]
  split_ifs with hline hparagraph
  · simp
  · simp
  · intro d hd
    obtain ⟨hlow, rfl | hhigh⟩ := visible_escapeChar c d hd
    · exact ⟨hlow, hline, hparagraph⟩
    · omega

end ViewTemplate.Text

namespace ViewTemplate.Balanced

open Text

variable {mode : Mode} {s : State} {stack text : List Char}

/-- Code that ends outside of string literals, whatever its brackets. -/
def EndsOutside (code : String) : Prop := code.toList.foldl Mode.next .code = .code

instance (code : String) : Decidable (EndsOutside code) := inferInstanceAs (Decidable (_ = _))

theorem mode_run {t : State} (h : run s text = some t) : t.mode = text.foldl Mode.next s.mode := by
  induction text generalizing s with
  | nil =>
    cases h
    rfl
  | cons c text ih =>
    rw [run_cons, Option.bind_eq_some_iff] at h
    obtain ⟨u, hstep, hrun⟩ := h
    rw [foldl_cons, ← mode_step hstep]
    exact ih hrun

/-- The check goes on after a text from where its run ends. -/
theorem check_append {t : State} (h : run ⟨mode, stack⟩ text = some t) (offset : Nat) (rest : List Char) :
    check offset stack mode (text ++ rest) =
      check (offset + byteLength text) t.stack t.mode rest := by
  induction text generalizing offset mode stack with
  | nil =>
    cases h
    rfl
  | cons c text ih =>
    rw [run_cons, Option.bind_eq_some_iff] at h
    obtain ⟨u, hstep, hrun⟩ := h
    rw [cons_append, check_cons, hstep, byteLength_cons, ← Nat.add_assoc]
    exact ih hrun _

/-- A text whose run fails has a fault, whatever follows it. -/
theorem exists_fault_of_run (h : run ⟨mode, stack⟩ text = none) (offset : Nat) :
    ∃ bracket place, place < offset + byteLength text ∧
      ∀ rest, check offset stack mode (text ++ rest) = .error (.unexpected bracket place) := by
  induction text generalizing offset mode stack with
  | nil => cases h
  | cons c text ih =>
    have hpos := c.utf8Size_pos
    rw [run_cons, Option.bind_eq_none_iff] at h
    rw [byteLength_cons, ← Nat.add_assoc]
    cases hstep : step ⟨mode, stack⟩ c with
    | none =>
      refine ⟨c, offset, by omega, fun rest => ?_⟩
      rw [cons_append, check_cons, hstep]
    | some u =>
      obtain ⟨bracket, place, hlt, hfault⟩ := ih (h u hstep) (offset + c.utf8Size)
      refine ⟨bracket, place, hlt, fun rest => ?_⟩
      rw [cons_append, check_cons, hstep]
      exact hfault rest

/-- A fault of code in which `more` bytes have been put in at an offset. -/
def Fault.moved (place more : Nat) : Fault → Fault
  | .unexpected bracket offset =>
    .unexpected bracket (if offset < place then offset else offset + more)
  | fault => fault

/-- Code further to the right has its faults further to the right. -/
theorem check_add {place offset : Nat} (hle : place ≤ offset) (more : Nat) :
    check (offset + more) stack mode text =
      (check offset stack mode text).mapError (Fault.moved place more) := by
  induction text generalizing offset mode stack with
  | nil =>
    cases mode with
    | code => cases stack <;> rfl
    | literal quote escaped => rfl
  | cons c text ih =>
    rw [check_cons, check_cons]
    cases step ⟨mode, stack⟩ c with
    | none => simp [Except.mapError, Fault.moved, Nat.not_lt.mpr hle]
    | some s =>
      rw [Nat.add_right_comm]
      exact ih (by omega)

/-- A fault of code in which a piece of code is put that fits anywhere. -/
theorem fault?_append (before : String) {inside : List Char} (h : EndsOutside before)
    (hinside : Fits .code inside) (after : String) :
    fault? (before ++ String.ofList inside ++ after) = (fault? (before ++ after)).map
      (Fault.moved (byteLength before.toList) (byteLength inside)) := by
  simp only [fault?, String.toList_append, String.toList_ofList, append_assoc]
  cases hrun : run {} before.toList with
  | none =>
    obtain ⟨bracket, place, hlt, hfault⟩ := exists_fault_of_run hrun 0
    rw [Nat.zero_add] at hlt
    simp [hfault, Fault.moved, hlt]
  | some t =>
    obtain ⟨mode, stack⟩ := t
    have hmode : mode = .code := (mode_run hrun).trans h
    subst hmode
    rw [check_append hrun, check_append hrun, check_append (hinside.run_eq stack),
      check_add (Nat.le_of_eq (Nat.zero_add _).symm)]
    cases check (0 + byteLength before.toList) stack .code after.toList <;> rfl

/-- Literals of generated source are closed and faithful: they have a quote at both ends and no other
that is not escaped, no control character and no separator, they are read back as the text, and they
make no difference to the check of the code around them but for the offset of a fault. -/
theorem sourceLiteral_closed (s : String) :
    (∃ body, (sourceLiteral s).toList = '"' :: body ++ ['"'] ∧ endsEscaped body = false ∧
      ∀ a b, body = a ++ '"' :: b → endsEscaped a = true) ∧
    (∀ c ∈ (sourceLiteral s).toList, 0x20 ≤ c.toNat ∧ c.toNat ≠ 0x2028 ∧ c.toNat ≠ 0x2029) ∧
    Json.read? (sourceLiteral s) = some (.text s) ∧
    ∀ before after, EndsOutside before →
      fault? (before ++ sourceLiteral s ++ after) = (fault? (before ++ "\"\"" ++ after)).map
        (Fault.moved (byteLength before.toList + 2) (byteLength (sourceLiteral s).toList - 2)) := by
  have htext := toList_sourceLiteral s
  refine ⟨⟨_, htext, Json.escapes_flatMap written_sourceChar s.toList⟩, ?_, ?_, ?_⟩
  · intro c hc
    simp only [htext, cons_append, mem_cons, mem_append, mem_flatMap,
      not_mem_nil, or_false] at hc
    rcases hc with rfl | ⟨d, -, hd⟩ | rfl
    · decide
    · exact visible_sourceChar d c hd
    · decide
  · have hvalue (n : Nat) : Json.value? (n + 1) (sourceLiteral s).toList = some (.text s, []) := by
      rw [htext, Json.value?, cons_append, Json.skipSpace_cons rfl]
      simp only [Json.text?_flatMap written_sourceChar]
      rfl
    rw [Json.read?, hvalue]
    rfl
  · intro before after houtside
    have hliteral : Fits .code (sourceLiteral s).toList :=
      (isBalanced_quote s).escapeSeparators.fits
    have hempty : Fits .code ['"', '"'] := ⟨fun _ => rfl⟩
    have hlong := fault?_append before houtside hliteral after
    have hshort := fault?_append before houtside hempty after
    rw [String.ofList_toList] at hlong
    have hbytes : 2 ≤ byteLength (sourceLiteral s).toList := by
      have hquote : '"'.utf8Size = 1 := rfl
      rw [htext, cons_append, byteLength_cons, byteLength_append, byteLength_cons]
      omega
    have hmoved : Fault.moved (byteLength before.toList) (byteLength (sourceLiteral s).toList) =
        Fault.moved (byteLength before.toList + 2) (byteLength (sourceLiteral s).toList - 2) ∘
          Fault.moved (byteLength before.toList) 2 := by
      funext fault
      cases fault with
      | unexpected bracket offset =>
        simp only [Function.comp_apply, Fault.moved, Fault.unexpected.injEq, true_and]
        split_ifs <;> omega
      | unterminated quote => rfl
      | unclosed bracket => rfl
    rw [hlong, hmoved, ← Option.map_map]
    exact congrArg _ hshort.symm

/-- A bracket behind a literal that holds a quote. -/
theorem sourceLiteral_closed_before_bracket :
    EndsOutside "f(" ∧
      fault? ("f(" ++ sourceLiteral "\"" ++ "]") = some (.unexpected ']' 6) := by
  have houtside : EndsOutside "f(" := by decide
  have hshort : fault? ("f(" ++ "\"\"" ++ "]") = some (.unexpected ']' 4) := by decide
  have hbytes : byteLength (sourceLiteral "\"").toList = 4 := by decide
  obtain ⟨-, -, -, hfault⟩ := sourceLiteral_closed "\""
  refine ⟨houtside, ?_⟩
  rw [hfault "f(" "]" houtside, hshort, hbytes]
  rfl

end ViewTemplate.Balanced

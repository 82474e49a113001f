import ViewTemplate.Proofs.SourceLiterals

/-! # The language of balanced code

Balanced code is what a grammar derives: characters that mean nothing, closed literals, and balanced
code between two brackets of a kind. The check accepts this language and nothing else, because what
completes a run of the check is derived code for each bracket that is open. An unexpected bracket is the
first character that no derivation goes past.
-/

open List

namespace ViewTemplate.Balanced

open Text

variable {c : Char} {s stack : List Char} {t : State}

def quotes : List Char := ['"', '\x27', '\x60']

/-- The brackets that belong together. -/
def bracketPairs : List (Char × Char) := [('(', ')'), ('[', ']'), ('\x7b', '\x7d')]

/-- What may stand between the quotes of a closed literal. -/
inductive LiteralBody (quote : Char) : List Char → Prop
  | nil : LiteralBody quote []
  | plain {c : Char} {s : List Char} (hquote : c ≠ quote) (hslash : c ≠ '\\')
      (h : LiteralBody quote s) : LiteralBody quote (c :: s)
  | escape (c : Char) {s : List Char} (h : LiteralBody quote s) : LiteralBody quote ('\\' :: c :: s)

/-- A character that is neither a quote nor a bracket. -/
def IsPlain (c : Char) : Prop := c ∉ quotes ∧ ∀ pair ∈ bracketPairs, c ≠ pair.1 ∧ c ≠ pair.2

/-- Derivations of balanced code. -/
inductive Derives : List Char → Prop
  | nil : Derives []
  | plain {c : Char} {s : List Char} (hc : IsPlain c) (h : Derives s) : Derives (c :: s)
  | literal {quote : Char} {body s : List Char} (hquote : quote ∈ quotes)
      (hbody : LiteralBody quote body) (h : Derives s) : Derives (quote :: body ++ quote :: s)
  | bracket {opening closing : Char} {inside s : List Char}
      (hpair : (opening, closing) ∈ bracketPairs) (hinside : Derives inside) (h : Derives s) :
      Derives (opening :: inside ++ closing :: s)

/-! ## Derived code passes the check -/

theorem step_of_isPlain (h : IsPlain c) : step ⟨.code, stack⟩ c = some ⟨.code, stack⟩ := by
  obtain ⟨hquote, hbracket⟩ := h
  simp only [quotes, mem_cons, not_or] at hquote
  simp only [bracketPairs, forall_mem_cons] at hbracket
  simp [step, isQuote, isOpening, partner?, hquote, hbracket]

theorem step_opening {closing : Char} (h : (c, closing) ∈ bracketPairs) :
    step ⟨.code, stack⟩ c = some ⟨.code, c :: stack⟩ := by
  simp only [bracketPairs, mem_cons, Prod.mk.injEq, not_mem_nil, or_false] at h
  rcases h with ⟨rfl, rfl⟩ | ⟨rfl, rfl⟩ | ⟨rfl, rfl⟩ <;> rfl

/-- A closing bracket needs its opening one. -/
theorem step_closing {opening : Char} (h : (opening, c) ∈ bracketPairs) :
    step ⟨.code, stack⟩ c = if stack.head? = some opening then some ⟨.code, stack.tail⟩ else none := by
  simp only [bracketPairs, mem_cons, Prod.mk.injEq, not_mem_nil, or_false] at h
  cases stack with
  | nil => rcases h with ⟨rfl, rfl⟩ | ⟨rfl, rfl⟩ | ⟨rfl, rfl⟩ <;> rfl
  | cons top below =>
    rcases h with ⟨rfl, rfl⟩ | ⟨rfl, rfl⟩ | ⟨rfl, rfl⟩ <;> simp [step, isQuote, isOpening, partner?]

theorem step_quote (h : c ∈ quotes) : step ⟨.code, stack⟩ c = some ⟨.literal c false, stack⟩ := by
  simp only [quotes, mem_cons, not_mem_nil, or_false] at h
  rcases h with rfl | rfl | rfl <;> rfl

theorem LiteralBody.fits {quote : Char} (h : LiteralBody quote s) : Fits (.literal quote false) s := by
  constructor
  intro stack
  induction h with
  | nil => rfl
  | plain hquote hslash _ ih => simpa [step, hquote, hslash] using ih
  | escape c _ ih => simpa [step] using ih

theorem Derives.fits (h : Derives s) : Fits .code s := by
  constructor
  intro stack
  induction h generalizing stack with
  | nil => rfl
  | plain hc _ ih => rw [run_cons, step_of_isPlain hc, Option.bind_some, ih]
  | @literal quote body s hquote hbody _ ih =>
    have hclose : step ⟨.literal quote false, stack⟩ quote = some ⟨.code, stack⟩ := by
      simp only [quotes, mem_cons, not_mem_nil, or_false] at hquote
      rcases hquote with rfl | rfl | rfl <;> rfl
    rw [cons_append, run_cons, step_quote hquote, Option.bind_some, run_append, hbody.fits.run_eq,
      Option.bind_some, run_cons, hclose, Option.bind_some, ih]
  | bracket hpair _ _ ihinside ih =>
    rw [cons_append, run_cons, step_opening hpair, Option.bind_some, run_append, ihinside,
      Option.bind_some, run_cons, step_closing hpair, if_pos head?_cons,
      Option.bind_some, tail_cons, ih]

/-! ## Checked code is derived -/

theorem isPlain_or (c : Char) : IsPlain c ∨ c ∈ quotes ∨
    (∃ closing, (c, closing) ∈ bracketPairs) ∨ ∃ opening, (opening, c) ∈ bracketPairs := by
  by_cases hquote : c ∈ quotes
  · exact .inr (.inl hquote)
  · by_cases hpair : ∀ pair ∈ bracketPairs, c ≠ pair.1 ∧ c ≠ pair.2
    · exact .inl ⟨hquote, hpair⟩
    · simp only [not_forall, not_and_or, not_not] at hpair
      obtain ⟨⟨opening, closing⟩, hmem, rfl | rfl⟩ := hpair
      · exact .inr (.inr (.inl ⟨closing, hmem⟩))
      · exact .inr (.inr (.inr ⟨opening, hmem⟩))

/-- All that a character outside of literals can do. -/
theorem step_code_cases (h : step ⟨.code, stack⟩ c = some t) :
    (c ∈ quotes ∧ t = ⟨.literal c false, stack⟩) ∨
      (∃ closing, (c, closing) ∈ bracketPairs ∧ t = ⟨.code, c :: stack⟩) ∨
      (∃ opening below, (opening, c) ∈ bracketPairs ∧ stack = opening :: below ∧ t = ⟨.code, below⟩) ∨
      (IsPlain c ∧ t = ⟨.code, stack⟩) := by
  rcases isPlain_or c with hplain | hquote | ⟨closing, hpair⟩ | ⟨opening, hpair⟩
  · rw [step_of_isPlain hplain] at h
    cases h
    exact .inr (.inr (.inr ⟨hplain, rfl⟩))
  · rw [step_quote hquote] at h
    cases h
    exact .inl ⟨hquote, rfl⟩
  · rw [step_opening hpair] at h
    cases h
    exact .inr (.inl ⟨closing, hpair, rfl⟩)
  · rw [step_closing hpair] at h
    split at h
    · rename_i hhead
      obtain ⟨below, rfl⟩ := head?_eq_some_iff.mp hhead
      cases h
      exact .inr (.inr (.inl ⟨opening, below, hpair, rfl, rfl⟩))
    · cases h

/-- Derived code for each open bracket up to the bracket that closes it, and derived code at the end. -/
def Closes : List Char → List Char → Prop
  | [], s => Derives s
  | opening :: stack, s => ∃ inside closing rest, (opening, closing) ∈ bracketPairs ∧
      Derives inside ∧ Closes stack rest ∧ s = inside ++ closing :: rest

/-- What completes the code from a state of the check: in a literal its rest comes first. -/
def Completes (t : State) (s : List Char) : Prop :=
  match t.mode with
  | .code => Closes t.stack s
  | .literal quote escaped => ∃ body rest, LiteralBody quote (if escaped then '\\' :: body else body) ∧
      Closes t.stack rest ∧ s = body ++ quote :: rest

theorem Closes.prepend (front : List Char) (hfront : ∀ s, Derives s → Derives (front ++ s))
    (h : Closes stack s) : Closes stack (front ++ s) := by
  cases stack with
  | nil => exact hfront s h
  | cons opening stack =>
    obtain ⟨inside, closing, rest, hpair, hinside, hrest, rfl⟩ := h
    exact ⟨front ++ inside, closing, rest, hpair, hfront inside hinside, hrest,
      (append_assoc _ _ _).symm⟩

/-- One character before what completes the code. -/
theorem Completes.of_step {next : State} (hstep : step t c = some next) (h : Completes next s) :
    Completes t (c :: s) := by
  obtain ⟨mode, stack⟩ := t
  cases mode with
  | literal quote escaped =>
    cases hstep
    cases escaped with
    | true =>
      obtain ⟨body, rest, hbody, hrest, rfl⟩ := h
      exact ⟨c :: body, rest, .escape c hbody, hrest, rfl⟩
    | false =>
      by_cases hslash : c = '\\'
      · subst hslash
        obtain ⟨body, rest, hbody, hrest, rfl⟩ := h
        exact ⟨'\\' :: body, rest, hbody, hrest, rfl⟩
      · rw [if_neg Bool.false_ne_true, if_neg hslash] at h
        by_cases hquote : c = quote
        · rw [if_pos hquote] at h
          exact ⟨[], s, .nil, h, by rw [hquote]; rfl⟩
        · rw [if_neg hquote] at h
          obtain ⟨body, rest, hbody, hrest, rfl⟩ := h
          exact ⟨c :: body, rest, .plain hquote hslash hbody, hrest, rfl⟩
  | code =>
    rcases step_code_cases hstep with ⟨hquote, rfl⟩ | ⟨_, -, rfl⟩ | ⟨opening, below, hpair, rfl, rfl⟩ |
      ⟨hplain, rfl⟩
    · obtain ⟨body, rest, hbody, hrest, rfl⟩ := h
      have hliteral := hrest.prepend (c :: body ++ [c]) fun _ hr => by
        simpa using Derives.literal hquote hbody hr
      simpa [Completes] using hliteral
    · obtain ⟨inside, closing, rest, hpair, hinside, hrest, rfl⟩ := h
      have hbracket := hrest.prepend (c :: inside ++ [closing]) fun _ hr => by
        simpa using Derives.bracket hpair hinside hr
      simpa [Completes] using hbracket
    · exact ⟨[], c, s, hpair, .nil, h, rfl⟩
    · exact Closes.prepend [c] (fun _ => .plain hplain) h

theorem completes_of_run (h : run t s = some {}) : Completes t s := by
  induction s generalizing t with
  | nil =>
    cases h
    exact .nil
  | cons c s ih =>
    rw [run_cons, Option.bind_eq_some_iff] at h
    obtain ⟨next, hstep, hrun⟩ := h
    exact .of_step hstep (ih hrun)

theorem derives_iff_run : Derives s ↔ run {} s = some {} :=
  ⟨fun h => h.fits.run_eq [], completes_of_run⟩

/-! ## Unexpected brackets -/

/-- An unexpected bracket is where a run ends. -/
theorem exists_run_of_unexpected {mode : Mode} {offset place : Nat}
    (h : check offset stack mode s = .error (.unexpected c place)) :
    ∃ before after t, s = before ++ c :: after ∧ place = offset + byteLength before ∧
      run ⟨mode, stack⟩ before = some t ∧ step t c = none := by
  induction s generalizing offset mode stack with
  | nil =>
    cases mode with
    | code => cases stack <;> cases h
    | literal quote escaped => cases h
  | cons d s ih =>
    rw [check_cons] at h
    cases hstep : step ⟨mode, stack⟩ d with
    | none =>
      rw [hstep] at h
      cases h
      exact ⟨[], s, _, rfl, rfl, rfl, hstep⟩
    | some u =>
      rw [hstep] at h
      obtain ⟨before, after, t, rfl, rfl, hrun, hnone⟩ := ih h
      refine ⟨d :: before, after, t, rfl, by rw [byteLength_cons, Nat.add_assoc], ?_, hnone⟩
      rw [run_cons, hstep, Option.bind_some, hrun]

/-- Only brackets that can be closed are open. -/
theorem openings_run {u : State} (h : run t s = some u)
    (ht : ∀ b ∈ t.stack, ∃ closing, (b, closing) ∈ bracketPairs) :
    ∀ b ∈ u.stack, ∃ closing, (b, closing) ∈ bracketPairs := by
  induction s generalizing t with
  | nil =>
    cases h
    exact ht
  | cons c s ih =>
    rw [run_cons, Option.bind_eq_some_iff] at h
    obtain ⟨next, hstep, hrun⟩ := h
    refine ih hrun ?_
    obtain ⟨mode, stack⟩ := t
    cases mode with
    | literal quote escaped =>
      cases hstep
      exact ht
    | code =>
      rcases step_code_cases hstep with ⟨-, rfl⟩ | ⟨closing, hpair, rfl⟩ | ⟨_, _, -, rfl, rfl⟩ | ⟨-, rfl⟩
      · exact ht
      · exact forall_mem_cons.mpr ⟨⟨closing, hpair⟩, ht⟩
      · exact (forall_mem_cons.mp ht).2
      · exact ht

theorem exists_run_of_openings (h : ∀ b ∈ stack, ∃ closing, (b, closing) ∈ bracketPairs) :
    ∃ more, run ⟨.code, stack⟩ more = some {} := by
  induction stack with
  | nil => exact ⟨[], rfl⟩
  | cons opening stack ih =>
    obtain ⟨⟨closing, hpair⟩, hstack⟩ := forall_mem_cons.mp h
    obtain ⟨more, hmore⟩ := ih hstack
    refine ⟨closing :: more, ?_⟩
    rw [run_cons, step_closing hpair, if_pos head?_cons, Option.bind_some, tail_cons, hmore]

/-- The check accepts what the grammar derives. Where it reports an unexpected bracket, the text before
the bracket can still be completed, and the text with the bracket cannot. -/
theorem fault?_by_grammar (code : String) :
    (fault? code = none ↔ Derives code.toList) ∧
      ∀ bracket offset, fault? code = some (.unexpected bracket offset) →
        ∃ before after, code.toList = before ++ bracket :: after ∧ offset = byteLength before ∧
          (∃ more, Derives (before ++ more)) ∧ ∀ more, ¬ Derives (before ++ bracket :: more) := by
  refine ⟨by rw [fault?_eq_none_iff, isBalanced_iff, derives_iff_run], ?_⟩
  intro bracket offset hfault
  have hcheck : check 0 [] .code code.toList = .error (.unexpected bracket offset) := by
    rw [fault?] at hfault
    split at hfault
    · cases hfault
    · rename_i heq
      cases hfault
      exact heq
  obtain ⟨before, after, ⟨mode, stack⟩, hcode, hplace, hrun, hnone⟩ := exists_run_of_unexpected hcheck
  refine ⟨before, after, hcode, by rw [hplace, Nat.zero_add], ?_, fun more hmore => ?_⟩
  · cases mode with
    | literal quote escaped => cases hnone
    | code =>
      obtain ⟨more, hmore⟩ := exists_run_of_openings (openings_run hrun (forall_mem_nil _))
      refine ⟨more, derives_iff_run.mpr ?_⟩
      rw [run_append, hrun, Option.bind_some, hmore]
  · have hpass := derives_iff_run.mp hmore
    rw [run_append, hrun, Option.bind_some, run_cons, hnone] at hpass
    cases hpass

/-- A bracket that does not close the one that is open, behind one in a literal. -/
theorem fault?_by_grammar_after_literal :
    fault? "a(\"]\"]" = some (.unexpected ']' 5) ∧
      ∃ before after, "a(\"]\"]".toList = before ++ ']' :: after ∧ 5 = byteLength before ∧
        (∃ more, Derives (before ++ more)) ∧ ∀ more, ¬ Derives (before ++ ']' :: more) := by
  have hfault : fault? "a(\"]\"]" = some (.unexpected ']' 5) := by decide
  exact ⟨hfault, (fault?_by_grammar _).2 _ _ hfault⟩

end ViewTemplate.Balanced

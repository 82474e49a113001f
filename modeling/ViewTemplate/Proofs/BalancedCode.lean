import Mathlib.Tactic.SplitIfs
import ViewTemplate.Compile.Functions
import ViewTemplate.Proofs.PrintedJson

/-! # When code is balanced

The check of code is the run of an automaton over its characters: code passes if the run ends outside
of literals with no bracket open. What a run does inside brackets does not depend on those around, so
balanced pieces can be put side by side and between brackets. Quoted texts are balanced, whatever they
hold.
-/

open List Option

namespace ViewTemplate.Balanced

variable {code : String} {mode : Mode} {s : State} {stack text : List Char}

/-- Where the check stands, with the open brackets, innermost first. -/
structure State where
  mode : Mode := .code
  stack : List Char := []
  deriving DecidableEq, Repr

/-- The state after a character, unless it closes what is not open. -/
def step (s : State) (c : Char) : Option State :=
  match s.mode with
  | .literal quote escaped =>
    some { s with
      mode :=
        if escaped then .literal quote false
        else if c = '\\' then .literal quote true
        else if c = quote then .code
        else .literal quote false }
  | .code =>
    if isQuote c then some { s with mode := .literal c false }
    else if isOpening c then some { s with stack := c :: s.stack }
    else
      match partner? c with
      | none => some s
      | some partner =>
        match s.stack with
        | top :: below => if top = partner then some { s with stack := below } else none
        | [] => none

/-- The state after a text. -/
def run (s : State) (text : List Char) : Option State := text.foldlM step s

@[simp] theorem run_nil (s : State) : run s [] = some s := rfl

@[simp] theorem run_cons (s : State) (c : Char) (text : List Char) :
    run s (c :: text) = (step s c).bind fun s => run s text := rfl

theorem run_append (s : State) (first second : List Char) :
    run s (first ++ second) = (run s first).bind fun s => run s second :=
  foldlM_append

/-- One character of the check. -/
theorem check_cons (offset : Nat) (c : Char) :
    check offset stack mode (c :: text) =
      match step ⟨mode, stack⟩ c with
      | some s => check (offset + c.utf8Size) s.stack s.mode text
      | none => .error (.unexpected c offset) := by
  cases mode with
  | literal quote escaped => rfl
  | code =>
    rw [check, step]
    cases isQuote c with
    | true => rfl
    | false =>
      cases isOpening c with
      | true => rfl
      | false =>
        cases partner? c with
        | none => rfl
        | some partner =>
          cases stack with
          | nil => rfl
          | cons top below => by_cases htop : top = partner <;> simp [htop]

/-- The check passes if the run ends as it starts. -/
theorem check_eq_ok_iff (offset : Nat) :
    check offset stack mode text = .ok () ↔ run ⟨mode, stack⟩ text = some {} := by
  induction text generalizing offset mode stack with
  | nil =>
    cases mode with
    | code => cases stack <;> simp [check]
    | literal quote escaped => simp [check]
  | cons c text ih =>
    rw [check_cons, run_cons]
    cases step ⟨mode, stack⟩ c with
    | none => simp
    | some s => exact ih _

/-- The mode after a character, whatever the brackets. -/
def Mode.next : Mode → Char → Mode
  | .code, c => if isQuote c then .literal c false else .code
  | .literal quote true, _ => .literal quote false
  | .literal quote false, c =>
    if c = '\\' then .literal quote true else if c = quote then .code else .literal quote false

theorem mode_step {t : State} {c : Char} (h : step s c = some t) : t.mode = s.mode.next c := by
  obtain ⟨mode, stack⟩ := s
  cases mode with
  | literal quote escaped =>
    cases h
    cases escaped <;> rfl
  | code =>
    simp only [step] at h
    rw [Mode.next]
    split_ifs at h ⊢ with hquote hopening
    · cases h; rfl
    · cases h; rfl
    · split at h
      · cases h; rfl
      · split at h
        · split_ifs at h
          cases h; rfl
        · cases h

/-- A bracket that stays open makes no difference to a step. -/
theorem step_push {mode' : Mode} {stack' : List Char} {c : Char} (more : List Char)
    (h : step ⟨mode, stack⟩ c = some ⟨mode', stack'⟩) :
    step ⟨mode, stack ++ more⟩ c = some ⟨mode', stack' ++ more⟩ := by
  cases mode with
  | literal quote escaped =>
    cases h
    rfl
  | code =>
    cases hquote : isQuote c with
    | true =>
      simp only [step, hquote, if_true] at h ⊢
      cases h
      rfl
    | false =>
      cases hopening : isOpening c with
      | true =>
        simp only [step, hquote, hopening, if_true] at h ⊢
        cases h
        rfl
      | false =>
        cases hpartner : partner? c with
        | none =>
          simp only [step, hquote, hopening, hpartner] at h ⊢
          cases h
          rfl
        | some partner =>
          cases stack with
          | nil => simp [step, hquote, hopening, hpartner] at h
          | cons top below =>
            by_cases htop : top = partner
            · simp only [step, hquote, hopening, hpartner, htop, cons_append,
                if_true] at h ⊢
              cases h
              rfl
            · simp [step, hquote, hopening, hpartner, htop] at h

/-- Brackets that stay open all the while make no difference. -/
theorem run_push {mode' : Mode} {stack' : List Char} (more : List Char)
    (h : run ⟨mode, stack⟩ text = some ⟨mode', stack'⟩) :
    run ⟨mode, stack ++ more⟩ text = some ⟨mode', stack' ++ more⟩ := by
  induction text generalizing mode stack with
  | nil =>
    cases h
    rfl
  | cons c text ih =>
    rw [run_cons, bind_eq_some_iff] at h
    obtain ⟨⟨m, s⟩, hstep, hrun⟩ := h
    rw [run_cons, step_push more hstep]
    exact ih hrun

/-- Brackets and quotes are paired. -/
structure IsBalanced (code : String) : Prop where
  run_eq : run {} code.toList = some {}

theorem isBalanced_iff : IsBalanced code ↔ run {} code.toList = some {} :=
  ⟨IsBalanced.run_eq, IsBalanced.mk⟩

instance (code : String) : Decidable (IsBalanced code) := decidable_of_iff' _ isBalanced_iff

theorem fault?_eq_none_iff : fault? code = none ↔ IsBalanced code := by
  rw [isBalanced_iff, ← check_eq_ok_iff 0, fault?]
  cases check 0 [] .code code.toList with
  | ok _ => simp
  | error _ => simp

/-- A text after which a run that reads it in the given mode stands where it stood before. -/
structure Fits (mode : Mode) (text : List Char) : Prop where
  run_eq : ∀ stack, run ⟨mode, stack⟩ text = some ⟨mode, stack⟩

namespace Fits

variable {mode : Mode} {text : List Char}

theorem nil : Fits mode [] := ⟨fun _ => rfl⟩

theorem append {first second : List Char} (hfirst : Fits mode first) (hsecond : Fits mode second) :
    Fits mode (first ++ second) := by
  constructor
  intro stack
  rw [run_append, hfirst.run_eq, bind_some, hsecond.run_eq]

theorem flatMap {α : Type} {f : α → List Char} {l : List α} (h : ∀ a ∈ l, Fits mode (f a)) :
    Fits mode (l.flatMap f) := by
  induction l with
  | nil => exact nil
  | cons a l ih =>
    rw [forall_mem_cons] at h
    rw [flatMap_cons]
    exact h.1.append (ih h.2)

end Fits

/-- Two texts that pair up each other's brackets and quotes, where what stands between them is read in
the given mode. -/
def Encloses (mode : Mode) (first last : String) : Prop :=
  ((run {} first.toList).filter fun s => s.mode = mode).bind (fun s => run s last.toList) = some {}

instance (mode : Mode) (first last : String) : Decidable (Encloses mode first last) :=
  inferInstanceAs (Decidable (_ = _))

theorem Fits.enclosed {text first last : String} (h : Fits mode text.toList)
    (hends : Encloses mode first last) : IsBalanced (first ++ text ++ last) := by
  rw [Encloses, bind_eq_some_iff] at hends
  obtain ⟨⟨_, stack⟩, hfilter, hlast⟩ := hends
  simp only [filter_eq_some_iff, decide_eq_true_eq] at hfilter
  obtain ⟨hfirst, rfl⟩ := hfilter
  constructor
  calc run {} (first ++ text ++ last).toList
      = (run {} first.toList).bind fun s => (run s text.toList).bind fun s => run s last.toList := by
        rw [String.toList_append, String.toList_append, append_assoc, run_append]
        simp only [run_append]
    _ = some {} := by
        rw [hfirst, bind_some, h.run_eq, bind_some, hlast]

/-- A text that takes a run from one state to another. -/
structure Leads (s t : State) (text : String) : Prop where
  run_eq : run s text.toList = some t

theorem leads_iff {t : State} {text : String} : Leads s t text ↔ run s text.toList = some t :=
  ⟨Leads.run_eq, Leads.mk⟩

instance (s t : State) (text : String) : Decidable (Leads s t text) := decidable_of_iff' _ leads_iff

theorem Leads.append {t u : State} {first second : String} (hfirst : Leads s t first)
    (hsecond : Leads t u second) : Leads s u (first ++ second) := by
  constructor
  rw [String.toList_append, run_append, hfirst.run_eq, bind_some, hsecond.run_eq]

theorem Leads.isBalanced (h : Leads {} {} code) : IsBalanced code := ⟨h.run_eq⟩

namespace IsBalanced

variable {code first last : String}

/-- Balanced code fits between any brackets. -/
theorem fits (h : IsBalanced code) : Fits .code code.toList :=
  ⟨fun stack => run_push stack h.run_eq⟩

theorem leads (h : IsBalanced code) (stack : List Char) :
    Leads ⟨.code, stack⟩ ⟨.code, stack⟩ code :=
  ⟨h.fits.run_eq stack⟩

theorem enclosed (h : IsBalanced code) (hends : Encloses .code first last) :
    IsBalanced (first ++ code ++ last) :=
  h.fits.enclosed hends

theorem append (hfirst : IsBalanced first) (hlast : IsBalanced last) :
    IsBalanced (first ++ last) := by
  rw [isBalanced_iff, String.toList_append, run_append, hfirst.run_eq]
  exact hlast.run_eq

theorem intercalate {separator : String} (hseparator : IsBalanced separator) {parts : List String}
    (h : ∀ part ∈ parts, IsBalanced part) : IsBalanced (separator.intercalate parts) := by
  induction parts with
  | nil => exact ⟨rfl⟩
  | cons part parts ih =>
    rw [forall_mem_cons] at h
    cases parts with
    | nil => exact h.1
    | cons other parts =>
      rw [String.intercalate_cons_cons]
      exact (h.1.append hseparator).append (ih h.2)

end IsBalanced

theorem isBalanced_toString (n : Nat) : IsBalanced (toString n) := by
  have hinert (text : List Char) (h : ∀ c ∈ text, c.isDigit = true) : run {} text = some {} := by
    induction text with
    | nil => rfl
    | cons c text ih =>
      rw [forall_mem_cons] at h
      have hdigit := h.1
      rw [Char.isDigit, Bool.and_eq_true, decide_eq_true_eq, decide_eq_true_eq] at hdigit
      have hne (d : Char) (hd : d.val < '0'.val ∨ '9'.val < d.val) : (c = d) = False := by
        rw [eq_iff_iff, iff_false]
        rintro rfl
        rcases hd with hd | hd
        · exact absurd hdigit.1 (UInt32.not_le.mpr hd)
        · exact absurd hdigit.2 (UInt32.not_le.mpr hd)
      have hstep : step {} c = some {} := by
        simp (disch := decide) [step, isQuote, isOpening, partner?, hne]
      rw [run_cons, hstep]
      exact ih h.2
  constructor
  apply hinert
  intro c hc
  apply Nat.isDigit_of_mem_toDigits (b := 10) (n := n) (by decide) (by decide)
  rwa [← Nat.toList_repr]

/-! ## Literals -/

/-- Whether what follows a text is escaped, given whether the text itself is. -/
def escapedAfter (escaped : Bool) (text : List Char) : Bool :=
  text.foldl (fun escaped c => !escaped && c == '\\') escaped

/-- Whether a text ends in a backslash that is not escaped itself. -/
def endsEscaped (text : List Char) : Bool := escapedAfter false text

@[simp] theorem escapedAfter_nil (escaped : Bool) : escapedAfter escaped [] = escaped := rfl

@[simp] theorem escapedAfter_cons (escaped : Bool) (c : Char) (text : List Char) :
    escapedAfter escaped (c :: text) = escapedAfter (!escaped && c == '\\') text := rfl

@[simp] theorem escapedAfter_append (escaped : Bool) (first second : List Char) :
    escapedAfter escaped (first ++ second) = escapedAfter (escapedAfter escaped first) second :=
  foldl_append

theorem escapedAfter_of_not_mem (h : '\\' ∉ text) : escapedAfter false text = false := by
  induction text with
  | nil => rfl
  | cons c text ih =>
    rw [mem_cons, not_or] at h
    rw [escapedAfter_cons, beq_eq_false_iff_ne.mpr (Ne.symm h.1), Bool.and_false]
    exact ih h.2

/-- A text without the quote fits into a literal, unless it ends in a backslash that escapes the
closing quote. -/
theorem Fits.of_not_endsEscaped {quote : Char} (hquote : quote ∉ text)
    (h : endsEscaped text = false) : Fits (.literal quote false) text := by
  have hrun (escaped : Bool) (stack : List Char) :
      run ⟨.literal quote escaped, stack⟩ text =
        some ⟨.literal quote (escapedAfter escaped text), stack⟩ := by
    clear h
    induction text generalizing escaped with
    | nil => rfl
    | cons c text ih =>
      rw [mem_cons, not_or] at hquote
      rw [run_cons, step, bind_some, escapedAfter_cons, ← ih hquote.2]
      cases escaped with
      | true => rfl
      | false =>
        by_cases hc : c = '\\'
        · simp [hc]
        · simp [hc, Ne.symm hquote.1, beq_eq_false_iff_ne.mpr hc]
  constructor
  intro stack
  rw [hrun false stack]
  exact congrArg (fun e => some (State.mk (.literal quote e) stack)) h

/-- A text without the quote and backslashes fits into a literal. -/
theorem Fits.of_not_mem {quote : Char} (hquote : quote ∉ text) (hbackslash : '\\' ∉ text) :
    Fits (.literal quote false) text :=
  of_not_endsEscaped hquote (escapedAfter_of_not_mem hbackslash)

/-- A written character fits into a literal. -/
theorem fits_of_written {c : Char} (h : Json.Written c text) : Fits (.literal '"' false) text := by
  have hescape (d : Char) : Fits (.literal '"' false) ['\\', d] := ⟨fun stack => rfl⟩
  cases h with
  | plain hquote hslash _ => exact .of_not_mem (by simp [hquote.symm]) (by simp [hslash.symm])
  | escape h => exact hescape _
  | unicode h =>
    have hne := Json.ne_of_hexUnit? h
    exact (hescape 'u').append (.of_not_mem (fun hd => (hne _ hd).1 rfl) fun hd => (hne _ hd).2 rfl)

/-- A quoted text is balanced, whatever it holds. -/
theorem isBalanced_quote (text : String) : IsBalanced (Text.quote text) := by
  have hfits : Fits (.literal '"' false)
      (String.ofList (text.toList.flatMap Text.escapeChar)).toList := by
    rw [String.toList_ofList]
    exact .flatMap fun c _ => fits_of_written (Json.written_escapeChar c)
  have hquotes : Encloses (.literal '"' false) "\"" "\"" := by decide
  have henclosed := hfits.enclosed hquotes
  rw [isBalanced_iff] at henclosed ⊢
  simpa [Text.quote, Text.quoteChars] using henclosed

/-- The state of a run that reads code: what it takes for a quote is one. -/
def State.IsQuoted (s : State) : Prop :=
  ∀ quote escaped, s.mode = .literal quote escaped → isQuote quote = true

theorem State.IsQuoted.step {next : State} {c : Char} (h : s.IsQuoted)
    (hstep : Balanced.step s c = some next) : next.IsQuoted := by
  intro quote escaped hmode
  rw [mode_step hstep] at hmode
  cases hs : s.mode with
  | code =>
    rw [hs, Mode.next] at hmode
    split_ifs at hmode with hquote
    cases hmode
    exact hquote
  | literal q e =>
    have hq := h q e hs
    rw [hs] at hmode
    cases e <;> simp only [Mode.next] at hmode
    · split_ifs at hmode <;> cases hmode <;> exact hq
    · cases hmode
      exact hq

theorem State.IsQuoted.run_escapeSeparatorsChars_singleton (h : s.IsQuoted) (c : Char) :
    run s (Text.escapeSeparatorsChars [c]) = Balanced.step s c := by
  have hescape (digit : Char) (hdigit : digit = '8' ∨ digit = '9') (d : Char)
      (hd : d = Char.ofNat 0x2028 ∨ d = Char.ofNat 0x2029) :
      run s ['\\', 'u', '2', '0', '2', digit] = Balanced.step s d := by
    obtain ⟨mode, stack⟩ := s
    cases mode with
    | code => rcases hdigit with rfl | rfl <;> rcases hd with rfl | rfl <;> rfl
    | literal quote escaped =>
      have hquote : isQuote quote = true := h quote escaped rfl
      simp only [isQuote, Bool.or_eq_true, beq_iff_eq] at hquote
      rcases hquote with (rfl | rfl) | rfl <;> cases escaped <;> rcases hdigit with rfl | rfl <;>
        rcases hd with rfl | rfl <;> rfl
  have hofNat {n : Nat} (hn : c.toNat = n) : c = Char.ofNat n := by
    rw [← hn, Char.ofNat_toNat]
  rw [Text.escapeSeparatorsChars, flatMap_singleton]
  split_ifs with hline hparagraph
  · exact hescape '8' (.inl rfl) c (.inl (hofNat hline))
  · exact hescape '9' (.inr rfl) c (.inr (hofNat hparagraph))
  · rw [run_cons]
    cases Balanced.step s c <;> rfl

/-- Escaping the separators makes no difference to a run. -/
theorem run_escapeSeparatorsChars (h : s.IsQuoted) (text : List Char) :
    run s (Text.escapeSeparatorsChars text) = run s text := by
  induction text generalizing s with
  | nil => rfl
  | cons c text ih =>
    calc run s (Text.escapeSeparatorsChars (c :: text))
        = (run s (Text.escapeSeparatorsChars [c])).bind
            fun s => run s (Text.escapeSeparatorsChars text) := by
          rw [← run_append]
          simp [Text.escapeSeparatorsChars]
      _ = (step s c).bind fun s => run s (Text.escapeSeparatorsChars text) := by
          rw [h.run_escapeSeparatorsChars_singleton]
      _ = run s (c :: text) := by
          rw [run_cons]
          cases hstep : step s c with
          | none => rfl
          | some next => exact ih (h.step hstep)

theorem IsBalanced.escapeSeparators (h : IsBalanced code) :
    IsBalanced (Text.escapeSeparators code) := by
  have hstart : State.IsQuoted {} := by
    intro quote escaped hmode
    cases hmode
  rw [isBalanced_iff, Text.escapeSeparators, Text.toList_onChars, run_escapeSeparatorsChars hstart]
  exact h.run_eq

end ViewTemplate.Balanced

namespace ViewTemplate.Code

open ViewTemplate.Balanced

@[simp] theorem print_text (s : String) : (Code.text s).print = s := by
  rw [print]

/-- The text of the code is balanced. -/
structure IsBalanced (c : Code) : Prop where
  print : Balanced.IsBalanced c.print

/-- Code that takes a run from one state to another. -/
structure Leads (s t : State) (c : Code) : Prop where
  print : Balanced.Leads s t c.print

namespace Leads

variable {s t u : State} {c d : Code}

theorem text {code : String} (h : Balanced.Leads s t code) : Leads s t (.text code) := ⟨h⟩

theorem append (hc : c.Leads s t) (hd : d.Leads t u) : (c ++ d).Leads s u :=
  ⟨hc.print.append hd.print⟩

theorem isBalanced (h : c.Leads {} {}) : c.IsBalanced := ⟨h.print.isBalanced⟩

end Leads

namespace IsBalanced

variable {c d : Code} {first last : String}

theorem leads (h : c.IsBalanced) (stack : List Char) : c.Leads ⟨.code, stack⟩ ⟨.code, stack⟩ :=
  ⟨h.print.leads stack⟩

theorem text {s : String} (h : Balanced.IsBalanced s) : IsBalanced (.text s) := ⟨h⟩

theorem append (hc : c.IsBalanced) (hd : d.IsBalanced) : (c ++ d).IsBalanced :=
  ⟨hc.print.append hd.print⟩

theorem enclosed (h : c.IsBalanced) (hends : Encloses .code first last) :
    (first ++ c ++ last : Code).IsBalanced :=
  ⟨h.print.enclosed hends⟩

theorem join {separator : String} (hseparator : Balanced.IsBalanced separator) {cs : List Code}
    (h : ∀ c ∈ cs, c.IsBalanced) : (Code.join separator cs).IsBalanced := by
  induction cs with
  | nil => exact ⟨⟨rfl⟩⟩
  | cons c cs ih =>
    rw [forall_mem_cons] at h
    cases cs with
    | nil => exact h.1
    | cons d cs => exact (h.1.append (text hseparator)).append (ih h.2)

theorem hoisted (owner : NodeId) (index : Nat) (inLoop : Bool) :
    IsBalanced (.hoisted owner index inLoop) := by
  have hplain : Encloses .code "_m(" ")" := by decide
  have hlooped : Encloses .code "_m(" ",true)" := by decide
  constructor
  cases inLoop with
  | true => exact (isBalanced_toString index).enclosed hlooped
  | false => exact (isBalanced_toString index).enclosed hplain

/-- The body of a function that gives the value of balanced code. -/
theorem body (hc : c.IsBalanced) : Balanced.IsBalanced (Code.body c.print) := by
  have hends : Encloses .code "with(this)\x7breturn " "\x7d" := by decide
  exact hc.print.enclosed hends

theorem function (hc : c.IsBalanced) : Balanced.IsBalanced (Code.function (Code.body c.print)) := by
  have hends : Encloses .code "function()\x7b" "\x7d" := by decide
  exact hc.body.enclosed hends

theorem printFunctions {cs : List Code} (h : ∀ c ∈ cs, c.IsBalanced) :
    ∀ s ∈ Code.printFunctions cs, Balanced.IsBalanced s := by
  induction cs with
  | nil =>
    intro s hs
    cases hs
  | cons c cs ih =>
    rw [forall_mem_cons] at h
    rw [Code.printFunctions, forall_mem_cons]
    exact ⟨h.1.function, ih h.2⟩

theorem inlined {functions : List Code} (hc : c.IsBalanced) (hf : ∀ f ∈ functions, f.IsBalanced) :
    IsBalanced (.inlined c functions) := by
  have hcomma : Balanced.IsBalanced "," := by decide
  have hname : Balanced.IsBalanced "inlineTemplate:" := by decide
  have hrender : Balanced.Leads {} ⟨.code, ['\x7b']⟩ "\x7brender:" := by decide
  have hstatics : Balanced.Leads ⟨.code, ['\x7b']⟩ ⟨.code, ['[', '\x7b']⟩ ",staticRenderFns:[" := by
    decide
  have hend : Balanced.Leads ⟨.code, ['[', '\x7b']⟩ {} "]\x7d" := by decide
  have hlist := hcomma.intercalate (printFunctions hf)
  have hbundle := (((hrender.append (hc.function.leads _)).append hstatics).append
    (hlist.leads _)).append hend
  constructor
  rw [Code.print]
  exact hname.append hbundle.isBalanced

end IsBalanced

end ViewTemplate.Code

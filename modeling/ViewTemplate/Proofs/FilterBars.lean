import Mathlib.Data.List.Basic
import Mathlib.Tactic.SplitIfs
import ViewTemplate.Expression.Filter

/-! # Bars between filters

Each character of an expression is code or part of a literal. The expression is cut at the bars of code
that stand alone and outside of brackets. The scan takes a character behind a backslash for escaped,
also where the backslash is escaped itself, and looks for what a slash divides past spaces only. Where
neither matters it reads the expression as it is meant to be read.
-/

open List

namespace ViewTemplate.Filter

/-- What a character of an expression is. -/
inductive Role
  | code
  /-- It opens a literal. -/
  | opening
  | inside
  /-- It closes the literal that is open. -/
  | closing
  deriving DecidableEq

/-- What the reading of literals rests on. -/
structure Convention where
  /-- Characters between a slash and what it divides. -/
  isGap : Char → Bool
  /-- Whether a character of a literal, escaped or not, escapes the next one. -/
  escapes : Bool → Char → Bool

/-- Where a reading stands: behind a text, in a literal or in none. -/
structure Place where
  past : List Char := []
  quote : Option Char := none
  /-- The next character does not close the literal. -/
  escaped : Bool := false

namespace Convention

/-- White space stands before a slash, and a backslash escapes unless it is escaped. -/
def standard : Convention := ⟨Text.isBlank, fun escaped c => c == '\\' && !escaped⟩

/-- Spaces stand before a slash, and each backslash escapes. -/
def scanned : Convention := ⟨(· == ' '), fun _ c => c == '\\'⟩

/-- What a slash after a text divides, if it divides. -/
def solid (v : Convention) (past : List Char) : Option Char := past.reverse.find? (!v.isGap ·)

/-- Whether a character opens a literal after a text. -/
def opens (v : Convention) (past : List Char) (c : Char) : Bool :=
  c == '"' || c == '\x27' || c == '\x60' || c == '/' && !(v.solid past).any dividesAfter

def role (v : Convention) (p : Place) (c : Char) : Role :=
  match p.quote with
  | none => if v.opens p.past c then .opening else .code
  | some quote => if c = quote && !p.escaped then .closing else .inside

theorem role_eq_code_iff {v : Convention} {p : Place} {c : Char} :
    v.role p c = .code ↔ p.quote = none ∧ v.opens p.past c = false := by
  rw [role]
  split <;> split_ifs <;> simp_all

theorem opens_of_role {v : Convention} {p : Place} {c : Char} (h : v.role p c = .opening) :
    v.opens p.past c = true := by
  rw [role] at h
  split at h
  · split_ifs at h with hopens
    exact hopens
  · split_ifs at h

theorem not_escaped_of_role {v : Convention} {p : Place} {c : Char} (h : v.role p c = .closing) :
    p.quote.isSome = true ∧ p.escaped = false := by
  rw [role] at h
  split at h <;> split_ifs at h
  simp_all

def next (v : Convention) (p : Place) (c : Char) : Place where
  past := p.past ++ [c]
  quote := match v.role p c with
    | .code | .closing => none
    | .opening => some c
    | .inside => p.quote
  escaped := v.role p c = .inside && v.escapes p.escaped c

/-- The characters of a text with what they are. -/
def reading (v : Convention) (p : Place) : List Char → List (Char × Role)
  | [] => []
  | c :: s => (c, v.role p c) :: v.reading (v.next p c) s

theorem map_fst_reading (v : Convention) (p : Place) (s : List Char) :
    (v.reading p s).map Prod.fst = s := by
  induction s generalizing p with
  | nil => rfl
  | cons c s ih => rw [reading, map_cons, ih]

end Convention

/-- As many brackets of each kind are closed as are opened. -/
def isLevel (before : List (Char × Role)) : Bool :=
  [('(', ')'), ('[', ']'), ('\x7b', '\x7d')].all fun (opening, closing) =>
    before.count (opening, .code) == before.count (closing, .code)

/-- Whether a bar of code separates filters: it stands alone and outside of brackets. -/
def divides (before after : List (Char × Role)) : Bool :=
  (before.map Prod.fst).getLast? != some '|' && (after.map Prod.fst).head? != some '|' &&
    isLevel before

/-- The text up to the first separator and the pieces after it. -/
def cut (before : List (Char × Role)) : List (Char × Role) → List Char × List (List Char)
  | [] => ([], [])
  | x :: after =>
    let (first, others) := cut (before ++ [x]) after
    if x = ('|', .code) && divides before after then ([], first :: others)
    else (x.1 :: first, others)

/-- The calls of filters on an expression, from the first to the last. -/
def nested (parts : List Char × List (List Char)) : List Char :=
  parts.2.foldl (fun e filter => call e (Text.trim filter)) (Text.trim parts.1)

/-- An expression with its filters called, as it is read by a convention. -/
def called (v : Convention) (expression : String) : String :=
  String.ofList (nested (cut [] (v.reading {} expression.toList)))

/-! ## The scan -/

variable {st : Scan} {before : List (Char × Role)} {c : Char} {past : List Char} {p : Place}

open Convention

/-- In a literal the scan takes the next character for escaped just behind a backslash. -/
def Place.IsScanned (p : Place) : Prop :=
  p.quote.isSome = true → p.escaped = (p.past.getLast? == some '\\')

theorem Place.IsScanned.next (p : Place) (c : Char) : (scanned.next p c).IsScanned := by
  intro hsome
  cases hrole : scanned.role p c with
  | code | closing => simp [Convention.next, hrole] at hsome
  | inside => simp only [Convention.next, hrole, getLast?_concat]; rfl
  | opening =>
    have hslash : c ≠ '\\' := by
      rintro rfl
      simpa [opens] using opens_of_role hrole
    simp [Convention.next, hrole, hslash]

/-- A scan that has passed the given characters. -/
structure Stands (st : Scan) (before : List (Char × Role)) (p : Place) : Prop where
  past : p.past = before.map Prod.fst
  mode : st.mode = p.quote.elim .code .literal
  paren : st.paren = before.count ('(', .code) - before.count (')', .code)
  square : st.square = before.count ('[', .code) - before.count (']', .code)
  curly : st.curly = before.count ('\x7b', .code) - before.count ('\x7d', .code)
  prev : st.prev = p.past.getLast?
  solid : st.solid = scanned.solid p.past
  place : p.IsScanned

theorem Stands.atTop (h : Stands st before p) : st.atTop = isLevel before := by
  have hzero (m n : Nat) : ((m : Int) - n == 0) = (m == n) := by
    rw [Bool.eq_iff_iff, beq_iff_eq, beq_iff_eq]
    omega
  simp [Scan.atTop, isLevel, h.paren, h.square, h.curly, hzero, Bool.and_comm]

/-- Code that opens no literal changes nothing but the counts of brackets. -/
theorem passCode_eq (hc : scanned.opens past c = false) (hsolid : st.solid = scanned.solid past) :
    st.passCode c = { st with
      paren := st.paren + (if c = '(' then 1 else 0) - (if c = ')' then 1 else 0)
      square := st.square + (if c = '[' then 1 else 0) - (if c = ']' then 1 else 0)
      curly := st.curly + (if c = '\x7b' then 1 else 0) - (if c = '\x7d' then 1 else 0) } := by
  unfold Scan.passCode
  split
  case h_1 => simp [opens] at hc
  case h_2 => simp [opens] at hc
  case h_3 => simp [opens] at hc
  case h_10 =>
    have hdivides : st.solid.any dividesAfter = true := by simpa [opens, hsolid] using hc
    simp [hdivides]
  case h_11 =>
    clear hsolid hc
    simp_all
  all_goals simp

theorem passCode_of_opens (hc : scanned.opens past c = true)
    (hsolid : st.solid = scanned.solid past) : st.passCode c = { st with mode := .literal c } := by
  simp only [opens, Bool.or_eq_true, Bool.and_eq_true, beq_iff_eq, Bool.not_eq_true'] at hc
  rcases hc with ((rfl | rfl) | rfl) | ⟨rfl, hdivides⟩
  · rfl
  · rfl
  · rfl
  · rw [← hsolid] at hdivides
    simp [Scan.passCode, hdivides]

/-- A scan counts the brackets of code and follows the literals. -/
theorem Stands.pass_eq (h : Stands st before p) (c : Char) :
    st.pass c = { st with
      mode := (scanned.next p c).quote.elim .code .literal
      paren := st.paren + (if (c, scanned.role p c) = ('(', .code) then 1 else 0) -
        (if (c, scanned.role p c) = (')', .code) then 1 else 0)
      square := st.square + (if (c, scanned.role p c) = ('[', .code) then 1 else 0) -
        (if (c, scanned.role p c) = (']', .code) then 1 else 0)
      curly := st.curly + (if (c, scanned.role p c) = ('\x7b', .code) then 1 else 0) -
        (if (c, scanned.role p c) = ('\x7d', .code) then 1 else 0) } := by
  have hmode := h.mode
  cases hquote : p.quote with
  | none =>
    rw [hquote] at hmode
    cases hopens : scanned.opens p.past c with
    | true =>
      simp [Scan.pass, hmode, Convention.next, role, hquote, hopens, passCode_of_opens hopens h.solid]
    | false =>
      simp [Scan.pass, hmode, Convention.next, role, hquote, hopens, passCode_eq hopens h.solid]
  | some quote =>
    rw [hquote] at hmode
    have hprev : (st.prev != some '\\') = !p.escaped := by
      rw [h.prev, h.place (by rw [hquote]; rfl)]
      rfl
    cases hclose : decide (c = quote) && !p.escaped with
    | true => simp [Scan.pass, hmode, Convention.next, role, hquote, hprev, hclose]
    | false =>
      simp [Scan.pass, hmode, Convention.next, role, hquote, hprev, hclose]
      exact congrArg (fun mode => { st with mode }) hmode

/-- A scan goes on as its convention says. -/
theorem Stands.step (h : Stands st before p) (c : Char) :
    Stands ((st.pass c).seen c) (before ++ [(c, scanned.role p c)]) (scanned.next p c) := by
  have hcount (d : Char) : (before ++ [(c, scanned.role p c)]).count (d, .code) =
      before.count (d, .code) + if (c, scanned.role p c) = (d, .code) then 1 else 0 := by
    simp [count_append, count_singleton]
  rw [h.pass_eq c]
  constructor
  · simp [Convention.next, h.past]
  · rfl
  · simp only [Scan.seen, hcount, h.paren]
    split_ifs <;> omega
  · simp only [Scan.seen, hcount, h.square]
    split_ifs <;> omega
  · simp only [Scan.seen, hcount, h.curly]
    split_ifs <;> omega
  · simp [Scan.seen, Convention.next]
  · simp only [Scan.seen, h.solid, Convention.solid, scanned, Convention.next]
    by_cases hspace : c = ' ' <;> simp [hspace]
  · exact .next p c

/-- The scan cuts an expression at the bars of code between its parts. -/
theorem pieces_eq_cut (h : Stands st before p) (s : List Char) :
    pieces st s = cut before (scanned.reading p s) := by
  induction s generalizing st before p with
  | nil => rfl
  | cons c s ih =>
    have hcode : decide ((c, scanned.role p c) = ('|', .code)) = (st.mode == .code && c == '|') := by
      rw [h.mode, Bool.eq_iff_iff]
      cases hquote : p.quote <;> simp [role_eq_code_iff, hquote, and_comm]
      rintro rfl
      rfl
    have hsep : st.separates c s.head? = (decide ((c, scanned.role p c) = ('|', .code)) &&
        divides before (scanned.reading (scanned.next p c) s)) := by
      rw [hcode, Scan.separates, divides, map_fst_reading, ← h.past, ← h.prev, ← h.atTop]
      simp only [Bool.and_assoc, Bool.and_left_comm]
    rw [pieces, reading, cut, ← ih (h.step c), hsep]
    split_ifs with hbar
    · simp only [hcode, Bool.and_eq_true, beq_iff_eq] at hbar
      obtain ⟨⟨hmode, rfl⟩, -⟩ := hbar
      rw [Scan.pass, hmode]
      rfl
    · rfl

/-! ## The two conventions -/

theorem isBlank_of_dividesAfter (h : dividesAfter c = true) : Text.isBlank c = false := by
  have hle {a b : Char} (h : a ≤ b) : a.toNat ≤ b.toNat := UInt32.le_iff_toNat_le.mp h
  have hvisible : 0x20 < c.toNat ∧ c.toNat < 0x80 := by
    simp only [dividesAfter, Text.isAsciiLetter, Text.isAsciiDigit, Bool.or_eq_true, Bool.and_eq_true,
      decide_eq_true_eq, contains_iff_mem, mem_cons, not_mem_nil, or_false] at h
    rcases h with ((⟨hlow, hhigh⟩ | ⟨hlow, hhigh⟩) | ⟨hlow, hhigh⟩) | h
    · exact ⟨Nat.lt_of_lt_of_le (by decide) (hle hlow), Nat.lt_of_le_of_lt (hle hhigh) (by decide)⟩
    · exact ⟨Nat.lt_of_lt_of_le (by decide) (hle hlow), Nat.lt_of_le_of_lt (hle hhigh) (by decide)⟩
    · exact ⟨Nat.lt_of_lt_of_le (by decide) (hle hlow), Nat.lt_of_le_of_lt (hle hhigh) (by decide)⟩
    · rcases h with rfl | rfl | rfl | rfl | rfl | rfl | rfl <;> decide
  simp only [Text.isBlank, Bool.or_eq_false_iff, Bool.and_eq_false_iff, decide_eq_false_iff_not,
    beq_eq_false_iff_ne]
  omega

/-- What a slash follows is the same by both conventions, unless it is white space. -/
theorem opens_standard_eq (h : ∀ d ∈ scanned.solid past, Text.isBlank d = false) (c : Char) :
    standard.opens past c = scanned.opens past c := by
  have hsolid : standard.solid past = scanned.solid past := by
    unfold Convention.solid at *
    generalize past.reverse = passed at *
    induction passed with
    | nil => rfl
    | cons d passed ih =>
      by_cases hd : d = ' '
      · subst hd
        exact ih h
      · have hblank : Text.isBlank d = false := h d (by simp [scanned, hd])
        simp [standard, scanned, hd, hblank]
  rw [opens, opens, hsolid]

/-- Where the scan takes a slash for a division, it is one. -/
theorem isBlank_of_slash (h : scanned.opens past '/' = false) :
    ∀ d ∈ scanned.solid past, Text.isBlank d = false := by
  intro d hd
  apply isBlank_of_dividesAfter
  simpa [opens, Option.mem_def.mp hd] using h

/-- A character that both conventions take alike after a text: no literal is closed behind a backslash,
and no slash of code stands behind white space other than spaces. -/
def IsPlainAfter (past : List Char) : Char × Role → Prop
  | (c, .code) => c = '/' → ∀ d ∈ scanned.solid past, Text.isBlank d = false
  | (_, .closing) => past.getLast? ≠ some '\\'
  | _ => True

def IsPlain (past : List Char) : List (Char × Role) → Prop
  | [] => True
  | x :: after => IsPlainAfter past x ∧ IsPlain (past ++ [x.1]) after

/-- What the scan reads is plain. -/
theorem isPlain_scanned (h : p.IsScanned) (s : List Char) :
    IsPlain p.past (scanned.reading p s) := by
  induction s generalizing p with
  | nil => trivial
  | cons c s ih =>
    refine ⟨?_, ih (.next p c)⟩
    cases hrole : scanned.role p c with
    | opening | inside => trivial
    | code =>
      rintro rfl
      exact isBlank_of_slash (role_eq_code_iff.mp hrole).2
    | closing =>
      obtain ⟨hsome, hescaped⟩ := not_escaped_of_role hrole
      simpa [IsPlainAfter, h hsome] using hescaped

section

variable {q : Place} (hq : q.IsScanned) (hpast : q.past = p.past) (hquote : q.quote = p.quote)
  (hle : p.escaped = true → q.escaped = true)
include hq hpast hquote hle

/-- Both conventions take a plain character alike. What the standard takes for escaped stands behind a
backslash. -/
theorem role_scanned_eq (h : IsPlainAfter p.past (c, standard.role p c)) :
    scanned.role q c = standard.role p c := by
  cases hopen : p.quote with
  | none =>
    have hopens : standard.opens p.past c = scanned.opens p.past c := by
      by_cases hc : c = '/'
      · subst hc
        cases hscanned : scanned.opens p.past '/' with
        | false => rw [opens_standard_eq (isBlank_of_slash hscanned), hscanned]
        | true =>
          cases hstandard : standard.opens p.past '/' with
          | true => rfl
          | false =>
            rw [role_eq_code_iff.mpr ⟨hopen, hstandard⟩] at h
            rw [← hstandard, opens_standard_eq (h rfl), hscanned]
      · have hslash : (c == '/') = false := beq_eq_false_iff_ne.mpr hc
        rw [opens, opens, hslash, Bool.false_and, Bool.false_and]
    rw [role, role, hquote, hopen, hpast, hopens]
  | some quote =>
    have hclose : (decide (c = quote) && !q.escaped) = (decide (c = quote) && !p.escaped) := by
      cases hescaped : p.escaped with
      | true => rw [hle hescaped]
      | false =>
        by_cases hc : c = quote
        · have hlast : p.past.getLast? ≠ some '\\' := by
            simpa [role, hopen, hc, hescaped, IsPlainAfter] using h
          simp [hq (by rw [hquote, hopen]; rfl), hpast, hlast]
        · simp [hc]
    rw [role, role, hquote, hopen]
    dsimp only
    rw [hclose]

/-- Both conventions read a plain text alike. -/
theorem reading_scanned_eq {s : List Char} (h : IsPlain p.past (standard.reading p s)) :
    scanned.reading q s = standard.reading p s := by
  induction s generalizing p q with
  | nil => rfl
  | cons c s ih =>
    have hrole := role_scanned_eq hq hpast hquote hle h.1
    rw [reading, reading, hrole]
    refine congrArg (_ :: ·) (ih (.next q c) ?_ ?_ ?_ h.2)
    · rw [Convention.next, Convention.next, hpast]
    · rw [Convention.next, Convention.next, hrole, hquote]
    · simp only [Convention.next, hrole, Bool.and_eq_true]
      exact fun hboth => ⟨hboth.1, (Bool.and_eq_true _ _ ▸ hboth.2).1⟩

end

end ViewTemplate.Filter

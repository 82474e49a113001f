import Mathlib.Data.List.TakeWhile
import Mathlib.Tactic.SplitIfs
import ViewTemplate.Json.Reader

/-! # Reading printed JSON back

A value is printed in one of two layouts, without blanks or with a line for each item. Both are read
back as the value that was printed, as long as its numbers are whole: escapes are undone, and the bound
on nesting and on items is never reached, since each bracket and each comma takes a character.
-/

open List Option

namespace ViewTemplate.Json

open Text

variable {c : Char} {depth n : Nat} {j : Json} {lead s : List Char}

/-! ## Texts -/

theorem hexValue?_hexDigit : ∀ n < 16, hexValue? (hexDigit n) = some n := by
  decide

theorem hexUnit?_hexDigit (h : n < 256) :
    hexUnit? '0' '0' (hexDigit (n / 16)) (hexDigit (n % 16)) = some n := by
  have hzero : hexValue? '0' = some 0 := rfl
  have hhigh := hexValue?_hexDigit (n / 16) (by omega)
  have hlow := hexValue?_hexDigit (n % 16) (by omega)
  simp only [hexUnit?, hzero, hhigh, hlow, bind_eq_bind, bind_some, Option.pure_def,
    Option.some.injEq]
  omega

theorem ne_of_hexUnit? {x y z w : Char} (h : hexUnit? x y z w = some n) :
    ∀ d ∈ [x, y, z, w], d ≠ '"' ∧ d ≠ '\\' := by
  have hne {d : Char} {k : Nat} (hd : hexValue? d = some k) : d ≠ '"' ∧ d ≠ '\\' := by
    constructor <;> rintro rfl <;> cases hd
  simp only [hexUnit?, bind_eq_bind, bind_eq_some_iff] at h
  obtain ⟨_, hx, _, hy, _, hz, _, hw, -⟩ := h
  simp [hne hx, hne hy, hne hz, hne hw]

theorem units?_unicode {a b d : Char} (h : hexUnit? a b c d = some n) (s : List Char) :
    units? ('\\' :: 'u' :: a :: b :: c :: d :: s) =
      (units? s).map fun u => (n :: u.1, u.2) := by
  rw [units?, h]
  cases units? s <;> rfl

theorem units?_escape {e : Char} (h : escape? e = some n) (s : List Char) :
    units? ('\\' :: e :: s) = (units? s).map fun u => (n :: u.1, u.2) := by
  have hne : e ≠ 'u' := by
    rintro rfl
    cases h
  rw [units?, h]
  · cases units? s <;> rfl
  · rintro _ _ _ _ _ rfl
    exact fun _ => hne rfl

theorem units?_plain (hquote : c ≠ '"') (hslash : c ≠ '\\') (hplain : 0x20 ≤ c.toNat)
    (s : List Char) : units? (c :: s) = (units? s).map fun u => (c.toNat :: u.1, u.2) := by
  rw [units?]
  · have hcond : (decide (c.toNat < 0x20) || decide (c = '\\')) = false := by
      rw [decide_eq_false (Nat.not_lt.mpr hplain), decide_eq_false hslash]
      rfl
    rw [hcond]
    cases units? s <;> rfl
  · exact hquote
  · intro _ _ _ _ _ h
    exact absurd h hslash
  · intro _ _ h
    exact absurd h hslash

/-- How a character may stand between quotes: as it is, by a short escape or by its number. -/
inductive Written (c : Char) : List Char → Prop
  | plain (hquote : c ≠ '"') (hslash : c ≠ '\\') (hplain : 0x20 ≤ c.toNat) : Written c [c]
  | escape {e : Char} (h : escape? e = some c.toNat) : Written c ['\\', e]
  | unicode {x y z w : Char} (h : hexUnit? x y z w = some c.toNat) :
    Written c ['\\', 'u', x, y, z, w]

theorem written_escapeChar (c : Char) : Written c (escapeChar c) := by
  rw [escapeChar]
  split_ifs with hquote hslash h8 h9 h10 h12 h13 hcontrol
  · exact .escape (by rw [hquote]; rfl)
  · exact .escape (by rw [hslash]; rfl)
  · exact .escape (h8 ▸ rfl)
  · exact .escape (h9 ▸ rfl)
  · exact .escape (h10 ▸ rfl)
  · exact .escape (h12 ▸ rfl)
  · exact .escape (h13 ▸ rfl)
  · exact .unicode (hexUnit?_hexDigit (by omega))
  · exact .plain hquote hslash (Nat.le_of_not_lt hcontrol)

/-- A character comes back from how it is written. -/
theorem Written.units?_append {text : List Char} (h : Written c text) (s : List Char) :
    units? (text ++ s) = (units? s).map fun u => (c.toNat :: u.1, u.2) := by
  cases h with
  | plain hquote hslash hplain => exact units?_plain hquote hslash hplain s
  | escape h => exact units?_escape h s
  | unicode h => exact units?_unicode h s

theorem units?_flatMap {write : Char → List Char} (h : ∀ c, Written c (write c))
    (s rest : List Char) :
    units? (s.flatMap write ++ '"' :: rest) = some (s.map Char.toNat, rest) := by
  induction s with
  | nil => rw [flatMap_nil, nil_append, units?]; rfl
  | cons c s ih =>
    rw [flatMap_cons, append_assoc, (h c).units?_append, ih]
    rfl

/-- No character is half a surrogate pair. -/
theorem not_isSurrogate (c : Char) :
    isHighSurrogate c.toNat = false ∧ isLowSurrogate c.toNat = false := by
  have hvalid : c.toNat < 0xd800 ∨ 0xdfff < c.toNat ∧ c.toNat < 0x110000 := c.valid
  simp only [isHighSurrogate, isLowSurrogate, Bool.and_eq_false_iff, decide_eq_false_iff_not]
  omega

theorem chars?_map_toNat (s : List Char) : chars? (s.map Char.toNat) = some s := by
  induction s with
  | nil => rfl
  | cons c s ih =>
    obtain ⟨hhigh, hlow⟩ := not_isSurrogate c
    cases s with
    | nil => simp [chars?, hhigh, hlow, Char.ofNat_toNat]
    | cons d s =>
      rw [map_cons, map_cons, chars?, hhigh, hlow, ← map_cons, ih]
      simp [Char.ofNat_toNat]

/-- A text is read back from how its characters are written. -/
theorem text?_flatMap {write : Char → List Char} (h : ∀ c, Written c (write c)) (s : String)
    (rest : List Char) : text? (s.toList.flatMap write ++ '"' :: rest) = some (some s, rest) := by
  rw [text?, units?_flatMap h, map_some]
  show some ((chars? (s.toList.map Char.toNat)).map String.ofList, rest) = _
  rw [chars?_map_toNat, map_some, String.ofList_toList]

/-! ## Numbers -/

theorem isAsciiDigit_of_mem (h : c ∈ Nat.toDigits 10 n) : isAsciiDigit c = true := by
  have hdigit := Nat.isDigit_of_mem_toDigits (by decide) (by decide) h
  rw [Char.isDigit, Bool.and_eq_true, decide_eq_true_eq, decide_eq_true_eq] at hdigit
  rw [isAsciiDigit, Bool.and_eq_true, decide_eq_true_eq, decide_eq_true_eq]
  exact hdigit

theorem exists_toDigits_eq_cons (n : Nat) :
    ∃ c s, Nat.toDigits 10 n = c :: s ∧ isAsciiDigit c = true := by
  cases hdigits : Nat.toDigits 10 n with
  | nil => exact absurd hdigits Nat.toDigits_ne_nil
  | cons c s => exact ⟨c, s, rfl, isAsciiDigit_of_mem (hdigits ▸ mem_cons_self)⟩

theorem ne_of_isAsciiDigit {d : Char} (hc : isAsciiDigit c = true) (hd : isAsciiDigit d = false) :
    c ≠ d := by
  rintro rfl
  rw [hc] at hd
  cases hd

/-- A number that is not zero does not start with a zero. -/
theorem head_toDigits (h : 0 < n) {t : List Char} : Nat.toDigits 10 n ≠ '0' :: t := by
  induction n using Nat.strongRecOn generalizing t with
  | ind n ih =>
    by_cases hlt : n < 10
    · rw [Nat.toDigits_of_lt_base hlt]
      intro heq
      have hdigit : ∀ n < 10, Nat.digitChar n = '0' → n = 0 := by decide
      have := hdigit n hlt (List.cons.inj heq).1
      omega
    · have hle := Nat.le_of_not_lt hlt
      rw [Nat.toDigits_of_base_le (by decide) hle]
      cases hdigits : Nat.toDigits 10 (n / 10) with
      | nil => exact absurd hdigits Nat.toDigits_ne_nil
      | cons c s =>
        rintro ⟨⟩
        exact ih (n / 10) (by omega) (by omega) hdigits

theorem isNumber_toDigits (n : Nat) : isNumber (Nat.toDigits 10 n) = true := by
  rcases Nat.eq_zero_or_pos n with rfl | hpos
  · rfl
  · cases hdigits : Nat.toDigits 10 n with
    | nil => exact absurd hdigits Nat.toDigits_ne_nil
    | cons c s =>
      have hall : ∀ d ∈ c :: s, isAsciiDigit d = true := fun d hd =>
        isAsciiDigit_of_mem (hdigits ▸ hd)
      have hzero : c ≠ '0' := by
        rintro rfl
        exact head_toDigits hpos hdigits
      have hminus : c ≠ '-' := by
        rintro rfl
        exact absurd (hall _ mem_cons_self) (by decide)
      have htake : (c :: s).takeWhile isAsciiDigit = c :: s := takeWhile_eq_self_iff.mpr hall
      have hdrop : (c :: s).dropWhile isAsciiDigit = [] := dropWhile_eq_nil_iff.mpr hall
      have hinteger : integer? (c :: s) = some [] := by
        rw [integer?]
        · rw [digits1?, htake, hdrop]
          rfl
        · exact fun r hr => hminus (List.cons.inj hr).1
        · exact fun r hr => hzero (List.cons.inj hr).1
      rw [isNumber, hinteger]
      rfl

/-- A number is read up to the first character that no number goes on with. -/
theorem scalar?_toDigits (n : Nat) {rest : List Char} (hrest : StopsAt isNumberChar rest) :
    scalar? (Nat.toDigits 10 n ++ rest) = some (.ofNat n, rest) := by
  have hchar : ∀ c ∈ Nat.toDigits 10 n, isNumberChar c = true := by
    intro c hc
    rw [isNumberChar, isAsciiDigit_of_mem hc, Bool.true_or]
  have hname {c : Char} {s : List Char} (hc : isAsciiDigit c = false) :
      after? (c :: s) (Nat.toDigits 10 n ++ rest) = none := by
    cases hdigits : Nat.toDigits 10 n with
    | nil => exact absurd hdigits Nat.toDigits_ne_nil
    | cons d t =>
      have hne : c ≠ d := by
        rintro rfl
        rw [isAsciiDigit_of_mem (hdigits ▸ mem_cons_self)] at hc
        cases hc
      rw [cons_append, after?, if_neg hne]
  have hnull : after? "null".toList (Nat.toDigits 10 n ++ rest) = none := hname rfl
  have htrue : after? "true".toList (Nat.toDigits 10 n ++ rest) = none := hname rfl
  have hfalse : after? "false".toList (Nat.toDigits 10 n ++ rest) = none := hname rfl
  rw [scalar?, hnull, htrue, hfalse, hrest.takeWhile_of_all hchar, hrest.dropWhile_of_all hchar]
  show (if isNumber (Nat.toDigits 10 n) = true then
    some (number (String.ofList (Nat.toDigits 10 n)), rest) else none) = _
  rw [if_pos (isNumber_toDigits n), ofNat, Nat.toString_eq_ofList_toDigits]

/-! ## Reading what is printed -/

/-- A value that can be printed so that it is read back: its numbers are whole, and all its texts are
sequences of characters. -/
inductive Printable : Json → Prop
  | null : Printable .null
  | bool (b : Bool) : Printable (.bool b)
  | ofNat (n : Nat) : Printable (.ofNat n)
  | text (s : String) : Printable (.text s)
  | array {items : List Json} (h : ∀ j ∈ items, Printable j) : Printable (.array items)
  | object {members : List (String × Json)} (h : ∀ m ∈ members, Printable m.2) :
    Printable (.object members)

theorem skipSpace_append (hlead : ∀ c ∈ lead, isSpace c = true) (s : List Char) :
    skipSpace (lead ++ s) = skipSpace s :=
  dropWhile_append_of_pos hlead

theorem skipSpace_cons (hc : isSpace c = false) (s : List Char) : skipSpace (c :: s) = c :: s :=
  dropWhile_cons_of_neg (by rw [hc]; exact Bool.false_ne_true)

@[simp] theorem skipSpace_skipSpace (s : List Char) : skipSpace (skipSpace s) = skipSpace s :=
  (stopsAt_dropWhile isSpace s).dropWhile_of_all (forall_mem_nil _)

/-- Blanks in front of a value make no difference. -/
theorem value?_skipSpace (n : Nat) (s : List Char) : value? n (skipSpace s) = value? n s := by
  cases n with
  | zero => rfl
  | succ n => rw [value?, value?, skipSpace_skipSpace]

theorem value?_append (hlead : ∀ c ∈ lead, isSpace c = true) (n : Nat) (s : List Char) :
    value? n (lead ++ s) = value? n s := by
  rw [← value?_skipSpace, skipSpace_append hlead, value?_skipSpace]

theorem isSpace_eq_false (hc : isAsciiDigit c = true) : isSpace c = false := by
  have hne {d : Char} (hd : isAsciiDigit d = false) : (c == d) = false :=
    beq_eq_false_iff_ne.mpr (ne_of_isAsciiDigit hc hd)
  rw [isSpace, hne rfl, hne rfl, hne rfl, hne rfl]
  rfl

/-- What starts with a digit is a number. -/
theorem value?_scalar (hc : isAsciiDigit c = true) (n : Nat) (s : List Char) :
    value? (n + 1) (c :: s) = scalar? (c :: s) := by
  rw [value?, skipSpace_cons (isSpace_eq_false hc)]
  split
  · rename_i heq
    exact absurd (List.cons.inj heq).1 (ne_of_isAsciiDigit hc rfl)
  · rename_i heq
    exact absurd (List.cons.inj heq).1 (ne_of_isAsciiDigit hc rfl)
  · rename_i heq
    exact absurd (List.cons.inj heq).1 (ne_of_isAsciiDigit hc rfl)
  · rfl

theorem value?_array (h : ∀ t, skipSpace s ≠ ']' :: t) (n : Nat) :
    value? (n + 1) ('[' :: s) =
      (sequence? (value? n) ']' n (skipSpace s)).map fun r => (.array r.1, r.2) := by
  rw [value?, skipSpace_cons rfl]
  simp only

theorem value?_object (h : ∀ t, skipSpace s ≠ '\x7d' :: t) (n : Nat) :
    value? (n + 1) ('\x7b' :: s) =
      (sequence? (keyed? (value? n)) '\x7d' n (skipSpace s)).map fun r => (ofMembers r.1, r.2) := by
  rw [value?, skipSpace_cons rfl]
  simp only

theorem stopsAt_cons (hc : isNumberChar c = false) (s : List Char) :
    StopsAt isNumberChar (c :: s) := by
  rintro d ⟨⟩
  exact hc

/-- No number goes on with a blank. -/
theorem stopsAt_append (hlead : ∀ c ∈ lead, isSpace c = true) (hs : StopsAt isNumberChar s) :
    StopsAt isNumberChar (lead ++ s) := by
  cases lead with
  | nil => exact hs
  | cons b lead =>
    have hspace := hlead b mem_cons_self
    simp only [isSpace, Bool.or_eq_true, beq_iff_eq] at hspace
    rcases hspace with ((rfl | rfl) | rfl) | rfl <;> exact stopsAt_cons rfl _

/-! ## Sequences -/

section Sequences

variable {p : List Char} {pieces : List (List Char)}

theorem exists_intercalate_cons (p : List Char) (pieces : List (List Char)) :
    ∃ more, [','].intercalate (p :: pieces) = p ++ more := by
  cases pieces with
  | nil => exact ⟨[], by simp⟩
  | cons q pieces => exact ⟨_, by rw [intercalate_cons_cons, append_assoc]⟩

/-- What starts with something else than a closing bracket still does with more behind it. -/
theorem skipSpace_intercalate_ne {d : Char} (hp : (skipSpace p).head? = some c) (hne : c ≠ d)
    (s t : List Char) : skipSpace ([','].intercalate (p :: pieces) ++ s) ≠ d :: t := by
  obtain ⟨more, hmore⟩ := exists_intercalate_cons p pieces
  obtain ⟨rest, hp⟩ := head?_eq_some_iff.mp hp
  rw [skipSpace] at hp
  rw [hmore, append_assoc, skipSpace, dropWhile_append, hp]
  exact fun heq => hne (List.cons.inj heq).1

theorem length_le_intercalate (pieces : List (List Char)) :
    pieces.length ≤ ([','].intercalate pieces).length + 1 ∧
      ∀ p ∈ pieces, p.length ≤ ([','].intercalate pieces).length := by
  induction pieces with
  | nil => simp
  | cons p pieces ih =>
    cases pieces with
    | nil => simp
    | cons q pieces =>
      simp only [intercalate_cons_cons, length_append, length_cons, length_nil] at ih ⊢
      refine ⟨by omega, forall_mem_cons.mpr ⟨by omega, fun r hr => ?_⟩⟩
      have := ih.2 r hr
      omega

variable {α β : Type} {element? : List Char → Option (α × List Char)} {closing : Char}

theorem sequence?_skipSpace (h : ∀ s, element? (skipSpace s) = element? s) (n : Nat)
    (s : List Char) :
    sequence? element? closing n (skipSpace s) = sequence? element? closing n s := by
  cases n with
  | zero => rfl
  | succ n => rw [sequence?, sequence?, h]

/-- Printed elements are read back one by one. -/
theorem sequence?_intercalate {print : β → List Char} {f : β → α} {items : List β}
    (hne : items ≠ [])
    (h : ∀ b ∈ items, ∀ rest, StopsAt isNumberChar rest →
      element? (print b ++ rest) = some (f b, rest))
    (hclosing : isSpace closing = false ∧ isNumberChar closing = false ∧ closing ≠ ',')
    {tail : List Char} (htail : ∀ c ∈ tail, isSpace c = true) (rest : List Char)
    (hn : items.length ≤ n) :
    sequence? element? closing n
        ([','].intercalate (items.map print) ++ (tail ++ closing :: rest)) =
      some (items.map f, rest) := by
  obtain ⟨hspace, hnumber, hcomma⟩ := hclosing
  induction items generalizing n with
  | nil => exact absurd rfl hne
  | cons b items ih =>
    obtain ⟨n, rfl⟩ := Nat.exists_eq_succ_of_ne_zero (Nat.ne_of_gt (Nat.zero_lt_of_lt hn))
    rw [forall_mem_cons] at h
    cases items with
    | nil =>
      rw [map_singleton, intercalate_singleton, sequence?,
        h.1 _ (stopsAt_append htail (stopsAt_cons hnumber rest))]
      simp [skipSpace_append htail, skipSpace_cons hspace, hcomma]
    | cons d items =>
      have hrest := ih (cons_ne_nil d items) h.2 (Nat.le_of_succ_le_succ hn)
      rw [map_cons, map_cons] at hrest ⊢
      rw [intercalate_cons_cons, append_assoc, append_assoc, singleton_append, sequence?,
        h.1 _ (stopsAt_cons rfl _)]
      simp [skipSpace_cons (show isSpace ',' = false from rfl), hrest]

end Sequences

namespace Layout

variable {depth n : Nat} {j : Json} {s : List Char} {layout : Layout}

/-- Only blanks stand where a layout may put something. -/
structure IsBlank (layout : Layout) : Prop where
  line : ∀ depth, ∀ c ∈ layout.line depth, isSpace c = true
  gap : ∀ c ∈ layout.gap, isSpace c = true

theorem printed_ofNat (depth n : Nat) : layout.printed depth (.ofNat n) = Nat.toDigits 10 n := by
  rw [Json.ofNat, printed, Nat.toString_eq_ofList_toDigits, String.toList_ofList]

theorem items_eq_map (items : List Json) :
    layout.items depth items = items.map fun j => layout.line depth ++ layout.printed depth j := by
  induction items with
  | nil => rw [Layout.items]; rfl
  | cons j js ih => rw [Layout.items, ih]; rfl

theorem members_eq_map (members : List (String × Json)) :
    layout.members depth members = members.map fun m =>
      layout.line depth ++ quoteChars m.1.toList ++ ':' :: layout.gap ++
        layout.printed depth m.2 := by
  induction members with
  | nil => rw [Layout.members]; rfl
  | cons m ms ih => rw [Layout.members, ih]; rfl

variable (layout) in
/-- A printed value starts neither with a blank nor with the end of an array. -/
theorem head_printed (h : j.Printable) (depth : Nat) :
    ∃ c s, layout.printed depth j = c :: s ∧ isSpace c = false ∧ c ≠ ']' := by
  have henclosed {opening closing : Char} {line : List Char} {pieces : List (List Char)} :
      ∃ s, enclosed opening closing line pieces = opening :: s := by
    rw [enclosed]
    split
    · exact ⟨_, rfl⟩
    · exact ⟨_, rfl⟩
  cases h with
  | null => exact ⟨'n', "ull".toList, by rw [printed]; rfl, rfl, by decide⟩
  | bool b =>
    cases b with
    | true => exact ⟨'t', "rue".toList, by rw [printed]; rfl, rfl, by decide⟩
    | false => exact ⟨'f', "alse".toList, by rw [printed]; rfl, rfl, by decide⟩
  | ofNat n =>
    obtain ⟨c, s, hdigits, hc⟩ := exists_toDigits_eq_cons n
    exact ⟨c, s, (printed_ofNat depth n).trans hdigits, isSpace_eq_false hc,
      ne_of_isAsciiDigit hc rfl⟩
  | text s => exact ⟨'"', _, by rw [printed]; rfl, rfl, by decide⟩
  | array _ =>
    obtain ⟨s, hs⟩ := henclosed
    exact ⟨'[', s, by rw [printed, hs], rfl, by decide⟩
  | object _ =>
    obtain ⟨s, hs⟩ := henclosed
    exact ⟨'\x7b', s, by rw [printed, hs], rfl, by decide⟩

/-- A value is read back wherever it is printed, unless a number may go on. -/
def Reads (layout : Layout) (j : Json) : Prop :=
  ∀ depth n rest, StopsAt isNumberChar rest → (layout.printed depth j).length ≤ n →
    value? n (layout.printed depth j ++ rest) = some (j, rest)

theorem reads_of_succ (hj : j.Printable) (h : ∀ depth n rest, StopsAt isNumberChar rest →
      (layout.printed depth j).length ≤ n + 1 →
      value? (n + 1) (layout.printed depth j ++ rest) = some (j, rest)) : layout.Reads j := by
  intro depth n rest hrest hn
  cases n with
  | zero =>
    obtain ⟨c, s, hhead, -⟩ := layout.head_printed hj depth
    rw [hhead, length_cons] at hn
    omega
  | succ n => exact h depth n rest hrest hn

theorem ofMembers_map (members : List (String × Json)) :
    ofMembers (members.map fun m => (some m.1, m.2)) = .object members := by
  have hkeys : (members.map fun m => (some m.1, m.2)).mapM
      (fun (m : Option String × Json) => m.1.map fun key => (key, m.2)) = some members := by
    induction members with
    | nil => rfl
    | cons m ms ih => rw [map_cons, mapM_cons, ih]; rfl
  simp only [ofMembers, hkeys]

/-- What is in brackets: the pieces fit into the bound, and behind them is the closing bracket. -/
theorem enclosed_of_ne_nil {opening closing : Char} {line : List Char} {pieces : List (List Char)}
    (hne : pieces ≠ []) (hn : (enclosed opening closing line pieces).length ≤ n + 1)
    (rest : List Char) :
    enclosed opening closing line pieces ++ rest =
        opening :: ([','].intercalate pieces ++ (line ++ closing :: rest)) ∧
      pieces.length ≤ n ∧ ∀ p ∈ pieces, p.length ≤ n := by
  have hpieces := length_le_intercalate pieces
  rw [enclosed, if_neg (by simpa using hne)] at hn ⊢
  simp only [length_append, length_cons, length_nil] at hn
  refine ⟨by simp, by omega, fun p hp => ?_⟩
  have := hpieces.2 p hp
  omega

theorem keyed?_printed (hblank : layout.IsBlank) {m : String × Json} {rest : List Char}
    (h : value? n (layout.printed depth m.2 ++ rest) = some (m.2, rest)) :
    keyed? (value? n) (layout.line depth ++ quoteChars m.1.toList ++ ':' :: layout.gap ++
      layout.printed depth m.2 ++ rest) = some ((some m.1, m.2), rest) := by
  simp only [quoteChars, append_assoc, cons_append, nil_append]
  rw [keyed?, skipSpace_append (hblank.line depth), skipSpace_cons rfl]
  simp only [text?_flatMap written_escapeChar, bind_eq_bind, bind_some]
  rw [skipSpace_cons rfl]
  simp only [value?_append hblank.gap, h]
  rfl

/-- A printed value is read back. -/
theorem reads_of_printable (hblank : layout.IsBlank) (h : j.Printable) : layout.Reads j := by
  induction h with
  | null =>
    apply reads_of_succ .null
    intro depth n rest _ _
    rw [printed]
    rfl
  | bool b =>
    apply reads_of_succ (.bool b)
    intro depth n rest _ _
    cases b with
    | true =>
      rw [printed]
      rfl
    | false =>
      rw [printed]
      rfl
  | ofNat k =>
    apply reads_of_succ (.ofNat k)
    intro depth n rest hrest _
    have hscalar := scalar?_toDigits k hrest
    obtain ⟨c, s, hdigits, hc⟩ := exists_toDigits_eq_cons k
    rw [printed_ofNat]
    rw [hdigits, cons_append] at hscalar ⊢
    rw [value?_scalar hc, hscalar]
  | text s =>
    apply reads_of_succ (.text s)
    intro depth n rest _ _
    rw [printed, quoteChars, value?, cons_append, cons_append, append_assoc,
      skipSpace_cons rfl, singleton_append]
    simp only [text?_flatMap written_escapeChar]
    rfl
  | @array items h ih =>
    apply reads_of_succ (.array h)
    intro depth n rest _ hn
    rw [printed, items_eq_map] at hn ⊢
    cases items with
    | nil => rfl
    | cons j js =>
      obtain ⟨hwritten, hcount, hpieces⟩ := enclosed_of_ne_nil (by simp) hn rest
      rw [length_map] at hcount
      rw [hwritten, value?_array, sequence?_skipSpace (value?_skipSpace n),
        sequence?_intercalate (f := id) (cons_ne_nil j js) _ (by decide) (hblank.line depth) rest hcount]
      · simp
      · intro d hd rest hrest
        have hlength := hpieces _ (mem_map_of_mem hd)
        rw [length_append] at hlength
        rw [append_assoc, value?_append (hblank.line _), ih d hd _ n rest hrest (by omega)]
        rfl
      · intro t
        obtain ⟨c, r, hhead, hspace, hend⟩ := layout.head_printed (h j mem_cons_self) (depth + 1)
        refine skipSpace_intercalate_ne ?_ hend _ t
        rw [skipSpace_append (hblank.line _), hhead, skipSpace_cons hspace]
        rfl
  | @object members h ih =>
    apply reads_of_succ (.object h)
    intro depth n rest _ hn
    rw [printed, members_eq_map] at hn ⊢
    cases members with
    | nil => rfl
    | cons m ms =>
      obtain ⟨hwritten, hcount, hpieces⟩ := enclosed_of_ne_nil (by simp) hn rest
      have hskip (s : List Char) : keyed? (value? n) (skipSpace s) = keyed? (value? n) s := by
        rw [keyed?, keyed?, skipSpace_skipSpace]
      rw [length_map] at hcount
      rw [hwritten, value?_object, sequence?_skipSpace hskip,
        sequence?_intercalate (f := fun m => (some m.1, m.2)) (cons_ne_nil m ms) _ (by decide)
          (hblank.line depth) rest hcount, map_some, ofMembers_map]
      · intro d hd rest hrest
        have hlength := hpieces _ (mem_map_of_mem hd)
        simp only [length_append] at hlength
        exact keyed?_printed hblank (ih d hd _ n rest hrest (by omega))
      · intro t
        refine skipSpace_intercalate_ne (c := '"') ?_ (by decide) _ t
        simp only [append_assoc]
        rw [skipSpace_append (hblank.line _), quoteChars, cons_append, cons_append, skipSpace_cons rfl]
        rfl

theorem isBlank_tight : tight.IsBlank := ⟨fun _ => forall_mem_nil _, forall_mem_nil _⟩

theorem isBlank_indented : indented.IsBlank where
  line depth := by
    intro c hc
    rcases mem_cons.mp hc with rfl | hc
    · rfl
    · rw [eq_of_mem_replicate hc]
      rfl
  gap := forall_mem_singleton.mpr rfl

end Layout

theorem read?_printed (h : j.Printable) {layout : Layout} (hblank : layout.IsBlank) :
    read? (String.ofList (layout.printed 0 j)) = some j := by
  have hvalue := Layout.reads_of_printable hblank h 0 ((layout.printed 0 j).length + 1) []
    (by rintro c ⟨⟩) (Nat.le_succ _)
  rw [append_nil] at hvalue
  rw [read?, String.toList_ofList, String.length_ofList, hvalue]
  rfl

/-- What is printed without blanks is read back. -/
theorem read?_compact (h : j.Printable) : read? j.compact = some j :=
  read?_printed h Layout.isBlank_tight

/-- What is printed with lines is read back. -/
theorem read?_pretty (h : j.Printable) : read? j.pretty = some j :=
  read?_printed h Layout.isBlank_indented

end ViewTemplate.Json
